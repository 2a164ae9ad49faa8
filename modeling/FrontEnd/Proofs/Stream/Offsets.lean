import FrontEnd.Proofs.Stream.Upcoming
import FrontEnd.Proofs.Text.Measure
import Mathlib.Data.List.Pairwise

/-!
# Where tokens stand

Offsets count bytes and stop at a limit. In a text that stays below the limit nothing is cut off:
what a cursor has read and what it has still to read add up to the whole, so that the tokens of a
text stand one behind the other and the end of the input behind them all.

- `Cursor.EndsAt`: **the offset and the bytes to read make the size of the text**;
- `Lexer.sorted_tokens`: the offsets of the tokens of a text strictly ascend;
- `TokenStream.Placed`: what a stream knows about places, and that every use keeps it.
-/

namespace FrontEnd

/-- The byte at which a token begins. -/
def Token.offset (t : Token) : Nat := t.position.offset

/-- The byte to which a report points. -/
def Diagnostic.offset (d : Diagnostic) : Nat := d.location.start.offset

/-! ## Cursors -/

namespace Cursor

/-- The text of the cursor ends at a byte that is not cut off. -/
structure EndsAt (stop : Nat) (c : Cursor) : Prop where
  offset_add : c.position.offset + Text.size c.rest = stop
  le_limit : stop ≤ Position.limit

variable {stop : Nat} {c : Cursor}

theorem endsAt_ofText {text : List Char} (h : Text.size text ≤ Position.limit) :
    (ofText text).EndsAt (Text.size text) :=
  ⟨Nat.zero_add _, h⟩

theorem EndsAt.offset_le (h : c.EndsAt stop) : c.position.offset ≤ stop := by
  have := h.offset_add
  omega

/-- Below the limit the offset of the next character is the sum. -/
theorem offset_advance {p : Position} {x : Char} {next : Option Char}
    (h : p.offset + x.utf8Size ≤ Position.limit) :
    (p.advance x next).offset = p.offset + x.utf8Size := by
  rw [Position.advance]
  split <;> exact Nat.min_eq_left h

theorem EndsAt.advance (h : c.EndsAt stop) (hc : c.rest ≠ []) :
    c.advance.EndsAt stop ∧ c.position.offset < c.advance.position.offset := by
  obtain ⟨before, rest, offset, position⟩ := c
  cases rest with
  | nil => exact absurd rfl hc
  | cons x rest =>
    have hadd : position.offset + (x.utf8Size + Text.size rest) = stop := by
      simpa using h.offset_add
    have hle := h.le_limit
    have hoffset : (position.advance x rest.head?).offset = position.offset + x.utf8Size :=
      offset_advance (by omega)
    have hpos := x.utf8Size_pos
    refine ⟨⟨?_, hle⟩, ?_⟩
    · show (position.advance x rest.head?).offset + Text.size rest = stop
      omega
    · show position.offset < (position.advance x rest.head?).offset
      omega

theorem endsAt_read {before rest : List Char} {offset : Nat} {position : Position} (bytes : Nat)
    (h : EndsAt stop ⟨before, rest, offset, position⟩) :
    (read before offset position bytes rest).EndsAt stop ∧
      position.offset ≤ (read before offset position bytes rest).position.offset := by
  induction rest generalizing before offset position bytes with
  | nil => exact ⟨h, Nat.le_refl _⟩
  | cons x rest ih =>
    rw [read]
    split
    · exact ⟨h, Nat.le_refl _⟩
    · obtain ⟨hends, hlt⟩ := h.advance (List.cons_ne_nil x rest)
      obtain ⟨hread, hle⟩ := ih (bytes - x.utf8Size) hends
      exact ⟨hread, Nat.le_trans (Nat.le_of_lt hlt) hle⟩

theorem EndsAt.advanceBy (h : c.EndsAt stop) {bytes : Nat} (hbytes : 0 < bytes) (hc : c.rest ≠ []) :
    (c.advanceBy bytes).EndsAt stop ∧ c.position.offset < (c.advanceBy bytes).position.offset := by
  obtain ⟨before, rest, offset, position⟩ := c
  cases rest with
  | nil => exact absurd rfl hc
  | cons x rest =>
    rw [Cursor.advanceBy, read, if_neg (Nat.ne_of_gt hbytes)]
    obtain ⟨hends, hlt⟩ := h.advance (List.cons_ne_nil x rest)
    obtain ⟨hread, hle⟩ := endsAt_read (bytes - x.utf8Size) hends
    exact ⟨hread, Nat.lt_of_lt_of_le hlt hle⟩

end Cursor

/-! ## Lexers -/

namespace Lexer

variable {stop : Nat} {l l' : Lexer} {t : Token}

/-- A token stands between the places of the lexer before it and behind it. -/
theorem endsAt_of_next_some (h : l.cursor.EndsAt stop) (hnext : l.next = (some t, l')) :
    l'.cursor.EndsAt stop ∧ l.position.offset ≤ t.offset ∧ t.offset < l'.position.offset := by
  fun_induction Lexer.next l with
  | case1 => simp at hnext
  | case2 l c rest hrest w hfound =>
    obtain ⟨ht, rfl⟩ := Prod.mk.inj hnext
    cases ht
    obtain ⟨hends, hlt⟩ := h.advance (by simp [hrest])
    exact ⟨hends, Nat.le_refl _, hlt⟩
  | case3 l c rest hrest w m hfound after hskip ih =>
    obtain ⟨hends, hlt⟩ := h.advanceBy m.length_pos (by simp [hrest])
    obtain ⟨hends', hle, hlt'⟩ := ih hends hnext
    exact ⟨hends', Nat.le_trans (Nat.le_of_lt hlt) hle, hlt'⟩
  | case4 l c rest hrest w m hfound after hskip =>
    obtain ⟨ht, rfl⟩ := Prod.mk.inj hnext
    cases ht
    obtain ⟨hends, hlt⟩ := h.advanceBy m.length_pos (by simp [hrest])
    exact ⟨hends, Nat.le_refl _, hlt⟩

/-- Where no token is left, the text ends. -/
theorem endsAt_of_next_none (h : l.cursor.EndsAt stop) (hnext : l.next = (none, l')) :
    l'.cursor.EndsAt stop ∧ l'.position.offset = stop := by
  fun_induction Lexer.next l with
  | case1 l hrest =>
    obtain ⟨-, rfl⟩ := Prod.mk.inj hnext
    have hadd := h.offset_add
    rw [hrest, Text.size_nil, Nat.add_zero] at hadd
    exact ⟨h, hadd⟩
  | case2 => simp at hnext
  | case3 l c rest hrest w m hfound after hskip ih =>
    exact ih (h.advanceBy m.length_pos (by simp [hrest])).1 hnext
  | case4 => simp at hnext

theorem endsAt_pull (h : l.cursor.EndsAt stop) (taken : List Token) (n : Nat) :
    (pull taken n l).2.2.cursor.EndsAt stop ∧
      ((pull taken n l).2.1 = true → (pull taken n l).2.2.position.offset = stop) :=
  pull_invariant (I := fun l => l.cursor.EndsAt stop) (E := fun l => l.position.offset = stop)
    (fun h hnext => (endsAt_of_next_some h hnext).1) endsAt_of_next_none h taken n

/-- The tokens that are left stand behind the place of the lexer and before the end, in order. -/
theorem sorted_tokens (h : l.cursor.EndsAt stop) :
    l.tokens.Pairwise (fun t t' => t.offset < t'.offset) ∧
      ∀ t ∈ l.tokens, l.position.offset ≤ t.offset ∧ t.offset < stop := by
  induction l using next_induction with
  | stop l l' hnext =>
    rw [tokens_of_next_none hnext]
    exact ⟨.nil, nofun⟩
  | token l t l' hnext ih =>
    obtain ⟨hends, hle, hlt⟩ := endsAt_of_next_some h hnext
    obtain ⟨hsorted, hbounds⟩ := ih hends
    have hstop := hends.offset_le
    rw [tokens_of_next_some hnext]
    refine ⟨List.pairwise_cons.2 ⟨fun u hu => ?_, hsorted⟩, List.forall_mem_cons.2 ⟨?_, ?_⟩⟩
    · exact Nat.lt_of_lt_of_le hlt (hbounds u hu).1
    · exact ⟨hle, Nat.lt_of_lt_of_le hlt hstop⟩
    · intro u hu
      obtain ⟨hle', hlt'⟩ := hbounds u hu
      exact ⟨Nat.le_trans hle (Nat.le_of_lt (Nat.lt_of_lt_of_le hlt hle')), hlt'⟩

end Lexer

/-! ## Streams -/

namespace TokenStream

/-- The text ends at `stop`, whether the stream has come there or not. -/
structure Placed (stop : Nat) (s : TokenStream) : Prop where
  lexer : s.lexer.cursor.EndsAt stop
  stop : ∀ place, s.stop = some place → place.offset = stop

/-- The tokens that no look has reached yet. -/
def unread (s : TokenStream) : List Token := if s.stop.isSome then [] else s.lexer.tokens

variable {stop n : Nat} {s s' : TokenStream} {read : List Token}

theorem upcoming_eq (s : TokenStream) : s.upcoming = s.buffer ++ s.unread := rfl

theorem unread_takeDiagnostics (s : TokenStream) : s.takeDiagnostics.2.unread = s.unread :=
  List.append_cancel_left s.upcoming_takeDiagnostics

/-- What is read is no longer unread. -/
theorem Advances.unread (h : s.Advances read n s') : s.unread = read ++ s'.unread := by
  obtain ⟨later, hs, hs'⟩ := h.later
  rw [upcoming_eq, List.append_assoc] at hs
  rw [upcoming_eq] at hs'
  rw [List.append_cancel_left hs, List.append_cancel_left hs']

theorem Placed.fill (h : s.Placed stop) (k : Nat) : (s.fill k).Placed stop := by
  unfold TokenStream.fill
  split
  · exact h
  · obtain ⟨hends, hoffset⟩ := Lexer.endsAt_pull h.lexer [] (k + 1 - s.buffer.length)
    refine ⟨hends, fun place hplace => ?_⟩
    dsimp only at hplace
    split at hplace
    · next hended =>
      cases hplace
      exact hoffset hended
    · cases hplace

theorem Placed.pop (h : s.Placed stop) : s.pop.Placed stop := ⟨h.lexer, h.stop⟩

theorem Placed.consume (h : s.Placed stop) : s.consume.2.Placed stop :=
  consume_keeps (fun _ hs => hs.fill 0) (fun _ hs => hs.pop) h

theorem Placed.synchronize (h : s.Placed stop) (sync : TokenSet) (skipped : List Token) :
    (s.synchronize sync skipped).2.Placed stop :=
  synchronize_keeps (fun _ hs => hs.fill 0) (fun _ hs => hs.pop) sync skipped h

theorem Placed.takeDiagnostics (h : s.Placed stop) : s.takeDiagnostics.2.Placed stop :=
  ⟨h.lexer, h.stop⟩

/-- A stream that has looked for a token where none is left has found the end. -/
theorem isSome_stop_fill {k : Nat} (h : s.upcoming.length ≤ k) : (s.fill k).stop.isSome = true := by
  rw [upcoming_eq, List.length_append] at h
  unfold TokenStream.fill
  split
  · next hfill =>
    rcases hfill with hlong | hstop
    · omega
    · exact hstop
  · next hfill =>
    rw [TokenStream.unread, if_neg (not_or.1 hfill).2] at h
    have hmore := (Lexer.pull_spec [] (k + 1 - s.buffer.length) s.lexer).2.2.1
    cases hended : (Lexer.pull [] (k + 1 - s.buffer.length) s.lexer).2.1 with
    | true => simp [hended]
    | false =>
      have := hmore hended
      omega

/-- The next token is the first of those to come, and the end of the input comes behind them. -/
theorem offset_ahead_fill (h : s.Placed stop) :
    ((s.fill 0).ahead 0).offset = (s.upcoming.head?.map Token.offset).getD stop := by
  rw [ahead_fill, ← List.head?_eq_getElem?]
  cases hup : s.upcoming with
  | cons t ts => rfl
  | nil =>
    have hle : s.upcoming.length ≤ 0 := by rw [hup]; exact Nat.le_refl 0
    obtain ⟨place, hplace⟩ := Option.isSome_iff_exists.1 (isSome_stop_fill hle)
    show ((s.fill 0).stop.getD (s.fill 0).lexer.position).offset = stop
    rw [hplace]
    exact (h.fill 0).stop place hplace

end TokenStream

end FrontEnd
