import FrontEnd.Proofs.Source.Lines
import FrontEnd.Proofs.Stream.Tokens

/-!
# A cursor and the line index agree

A cursor follows lines and columns character by character, and a buffer looks them up in an index.
Whatever is done with a cursor, it stands behind a first part of the text, and its position is the
one that is looked up.

- `Cursor.Session`: a cursor with the snapshots that were taken of it;
- `Cursor.Within`: **a cursor divides the text and knows the position behind its first part**;
- `Cursor.Session.within_perform`: so does every cursor of a session;
- `Lexer.stands_of_mem_tokens`: and every token stands at such a place;
- `SourceBuffer.places_agree`: both positions are the same.
-/

namespace FrontEnd

namespace Cursor

/-! ## Using a cursor -/

/-- What is done with a cursor. -/
inductive Use where
  | advance
  | advanceBy (bytes : Nat)
  /-- Take a snapshot. -/
  | save
  /-- Go back to the `k`-th latest snapshot, if there is one. -/
  | restore (k : Nat)
  deriving DecidableEq, Repr

/-- A cursor and the snapshots taken so far, latest first. -/
structure Session where
  cursor : Cursor
  saved : List Cursor

namespace Session

/-- At the start of a text, before any snapshot. -/
def ofText (text : List Char) : Session := ⟨.ofText text, []⟩

/-- Does one thing with the cursor. -/
def use (s : Session) : Use → Session
  | .advance => { s with cursor := s.cursor.advance }
  | .advanceBy bytes => { s with cursor := s.cursor.advanceBy bytes }
  | .save => { s with saved := s.cursor :: s.saved }
  | .restore k => { s with cursor := s.saved.getD k s.cursor }

/-- Does one thing after the other. -/
def perform (s : Session) (uses : List Use) : Session := uses.foldl use s

end Session

/-! ## Where a cursor stands -/

/-- The cursor divides the text, and what it counts is about the first part. -/
structure Within (text : List Char) (c : Cursor) : Prop where
  text_eq : text = c.before.reverse ++ c.rest
  offset_eq : c.offset = Text.size c.before.reverse
  position_eq : c.position = Position.start.through c.before.reverse c.rest

variable {text : List Char} {c : Cursor}

theorem within_ofText (text : List Char) : (ofText text).Within text := ⟨rfl, rfl, rfl⟩

theorem Within.advance (h : c.Within text) : c.advance.Within text := by
  obtain ⟨before, rest, offset, position⟩ := c
  obtain ⟨htext, hoffset, hposition⟩ := h
  dsimp only at htext hoffset hposition
  cases rest with
  | nil => exact ⟨htext, hoffset, hposition⟩
  | cons x rest =>
    refine ⟨?_, ?_, ?_⟩
    · simpa [Cursor.advance] using htext
    · simp [Cursor.advance, hoffset]
    · show position.advance x rest.head? = _
      rw [Cursor.advance, List.reverse_cons, Position.through_append, hposition]
      rfl

theorem within_read {before rest : List Char} {offset : Nat} {position : Position} (bytes : Nat)
    (h : Within text ⟨before, rest, offset, position⟩) :
    (read before offset position bytes rest).Within text := by
  induction rest generalizing before offset position bytes with
  | nil => exact h
  | cons x rest ih =>
    rw [read]
    split
    · exact h
    · exact ih _ h.advance

theorem Within.advanceBy (h : c.Within text) (bytes : Nat) : (c.advanceBy bytes).Within text :=
  within_read bytes h

namespace Session

/-- All cursors of the session stand in the text. -/
def Inside (text : List Char) (s : Session) : Prop :=
  s.cursor.Within text ∧ ∀ c ∈ s.saved, c.Within text

theorem Inside.use {s : Session} (h : s.Inside text) (u : Use) : (s.use u).Inside text := by
  obtain ⟨hcursor, hsaved⟩ := h
  cases u with
  | advance => exact ⟨hcursor.advance, hsaved⟩
  | advanceBy bytes => exact ⟨hcursor.advanceBy bytes, hsaved⟩
  | save => exact ⟨hcursor, List.forall_mem_cons.2 ⟨hcursor, hsaved⟩⟩
  | restore k =>
    refine ⟨?_, hsaved⟩
    show (s.saved.getD k s.cursor).Within text
    cases hk : s.saved[k]? with
    | none => rwa [List.getD_eq_getElem?_getD, hk]
    | some c =>
      rw [List.getD_eq_getElem?_getD, hk]
      exact hsaved c (List.mem_of_getElem? hk)

theorem Inside.perform {s : Session} (h : s.Inside text) (uses : List Use) :
    (s.perform uses).Inside text := by
  induction uses generalizing s with
  | nil => exact h
  | cons u uses ih => exact ih (h.use u)

/-- Whatever is done with a cursor, it stands in its text. -/
theorem within_perform (text : List Char) (uses : List Use) :
    ((ofText text).perform uses).cursor.Within text :=
  have hstart : (ofText text).Inside text :=
    ⟨Cursor.within_ofText text, fun _ hc => absurd hc List.not_mem_nil⟩
  (hstart.perform uses).1

end Session

/-- The position of a cursor is the one that its buffer looks up. -/
theorem Within.position_eq_lineColumn {b : SourceBuffer} (h : c.Within b.chars) :
    c.position = b.lineColumn c.offset := by
  rw [h.offset_eq, SourceBuffer.lineColumn_size h.text_eq, h.position_eq]

end Cursor

/-! ## Tokens -/

/-- The token is a part of the text, and its position is that of its first character. -/
def Token.Stands (text : List Char) (t : Token) : Prop :=
  ∃ u v, text = u ++ (t.text.toList ++ v) ∧
    t.position = Position.start.through u (t.text.toList ++ v)

theorem Text.takeOnto_eq (taken : List Char) (bytes : Nat) (cs : List Char) :
    ∃ u, u <+: cs ∧ takeOnto taken bytes cs = u.reverse ++ taken := by
  induction cs generalizing taken bytes with
  | nil => exact ⟨[], List.nil_prefix, rfl⟩
  | cons c rest ih =>
    rw [takeOnto]
    split
    · exact ⟨[], List.nil_prefix, rfl⟩
    · obtain ⟨u, hu, heq⟩ := ih (c :: taken) (bytes - c.utf8Size)
      exact ⟨c :: u, (List.prefix_cons_inj c).2 hu, by simp [heq]⟩

/-- Whatever the number of bytes, a first part of the text is taken. -/
theorem Text.take_prefix (bytes : Nat) (cs : List Char) : take bytes cs <+: cs := by
  obtain ⟨u, hu, heq⟩ := takeOnto_eq [] bytes cs
  rwa [take, heq, List.append_nil, List.reverse_reverse]

namespace Lexer

variable {l l' : Lexer} {text : List Char} {t : Token}

theorem stands_of_prefix (h : l.cursor.Within text) (hplace : t.position = l.position)
    (hfirst : t.text.toList <+: l.cursor.rest) : t.Stands text := by
  obtain ⟨v, hv⟩ := hfirst
  refine ⟨l.cursor.before.reverse, v, ?_, ?_⟩
  · rw [hv]
    exact h.text_eq
  · rw [hv, hplace]
    exact h.position_eq

/-- The next token stands in the text, and the lexer goes on in it. -/
theorem stands_of_next_some (h : l.cursor.Within text) (hnext : l.next = (some t, l')) :
    l'.cursor.Within text ∧ t.Stands text := by
  fun_induction Lexer.next l with
  | case1 => simp at hnext
  | case2 l c rest hrest w hfound =>
    obtain ⟨ht, rfl⟩ := Prod.mk.inj hnext
    cases ht
    exact ⟨h.advance, stands_of_prefix h rfl (by simp [hrest])⟩
  | case3 l c rest hrest w m hfound after hskip ih => exact ih (h.advanceBy m.length) hnext
  | case4 l c rest hrest w m hfound after hskip =>
    obtain ⟨ht, rfl⟩ := Prod.mk.inj hnext
    cases ht
    refine ⟨h.advanceBy m.length, stands_of_prefix h rfl ?_⟩
    rw [String.toList_ofList, hrest]
    exact Text.take_prefix ..

/-- Every token that is left stands in the text. -/
theorem stands_of_mem_tokens (h : l.cursor.Within text) (ht : t ∈ l.tokens) : t.Stands text :=
  forall_tokens (I := fun l => l.cursor.Within text) stands_of_next_some h t ht

end Lexer

namespace SourceBuffer

/-- Whatever is done with a cursor over the text of a buffer, it stands at the end of a character,
and its position is the one that the buffer looks up; and so is the position of every token of the
text. -/
theorem places_agree (b : SourceBuffer) (hlimit : Text.size b.chars ≤ Position.limit) :
    (∀ uses, (∃ u, u <+: b.chars ∧
          ((Cursor.Session.ofText b.chars).perform uses).cursor.offset = Text.size u) ∧
        ((Cursor.Session.ofText b.chars).perform uses).cursor.position
          = b.lineColumn ((Cursor.Session.ofText b.chars).perform uses).cursor.offset) ∧
      ∀ table mode, ∀ t ∈ (Lexer.tokenize table mode b.chars).1.toList,
        (∃ u v, b.chars = u ++ t.text.toList ++ v ∧ t.position.offset = Text.size u) ∧
          t.position = b.lineColumn t.position.offset := by
  refine ⟨fun uses => ?_, fun table mode t ht => ?_⟩
  · have hwithin := Cursor.Session.within_perform b.chars uses
    exact ⟨⟨_, ⟨_, hwithin.text_eq.symm⟩, hwithin.offset_eq⟩, hwithin.position_eq_lineColumn⟩
  · rw [Lexer.tokenize_toList] at ht
    obtain ⟨u, v, htext, hposition⟩ :=
      Lexer.stands_of_mem_tokens (Cursor.within_ofText b.chars) ht
    have hsize := Text.size_le ⟨_, htext.symm⟩
    have hoffset : t.position.offset = Text.size u := by
      rw [hposition, Position.offset_through (Nat.zero_le _)]
      show min (0 + Text.size u) Position.limit = Text.size u
      omega
    refine ⟨⟨u, v, by rw [htext, List.append_assoc], hoffset⟩, ?_⟩
    rw [hoffset, lineColumn_size htext, hposition]

/-- Between a carriage return and its line feed, after reading further and coming back. -/
theorem places_agree_inside_pair :
    Text.size (ofText none (String.ofList ['a', '\r', '\n', 'b'])).chars ≤ Position.limit ∧
      ((Cursor.Session.ofText ['a', '\r', '\n', 'b']).perform
        [.advanceBy 2, .save, .advance, .advance, .restore 0]).cursor.position = ⟨1, 3, 2⟩ ∧
      (ofText none (String.ofList ['a', '\r', '\n', 'b'])).lineColumn 2 = ⟨1, 3, 2⟩ := by
  have hchars : (ofText none (String.ofList ['a', '\r', '\n', 'b'])).chars = ['a', '\r', '\n', 'b'] :=
    String.toList_ofList
  have hlimit : Text.size (ofText none (String.ofList ['a', '\r', '\n', 'b'])).chars
      ≤ Position.limit := by
    rw [hchars]
    decide
  have hposition : ((Cursor.Session.ofText ['a', '\r', '\n', 'b']).perform
      [.advanceBy 2, .save, .advance, .advance, .restore 0]).cursor.position = ⟨1, 3, 2⟩ := by
    decide
  have hagree := ((places_agree _ hlimit).1 [.advanceBy 2, .save, .advance, .advance, .restore 0]).2
  rw [hchars, hposition] at hagree
  exact ⟨hlimit, hposition, hagree.symm⟩

end SourceBuffer

end FrontEnd
