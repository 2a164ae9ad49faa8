import FrontEnd.Proofs.Source.Places
import FrontEnd.Proofs.Stream.Lexemes

/-!
# A token ends where the next one begins

The end of a token is counted from its lexeme alone, and a cursor counts with the whole text before
its eyes. The two see the same line ends, but for one that is cut in two: a carriage return that
ends a token ends a line for the token, and a line feed behind it says that it did not. And they
count up to the same bound, behind which a cursor stays and a token begins again from zero.

- `Position.after_eq_through_iff`: the last character decides;
- `Token.endPosition_eq`: the end of a token, counted without a bound and then wrapped around;
- `Token.endPosition_eq_through_iff`: the end of a token and the position behind it;
- `Lexer.stretch_of_next`: a token and the stretch of text that a lexer takes for it;
- `Lexer.endPosition_eq_iff`: the end of a token and the place of what comes behind it;
- `Lexer.endPosition_tokenize`: **the tokens of a text meet, unless a line end is cut in two or the
  counts end**;
- `Lexer.endPosition_ne_lineEnd`: a table that cuts a line end.
-/

namespace FrontEnd

/-! ## Positions -/

namespace Position

variable {p : Position} {c : Char} {next : Option Char} {u v v' : List Char}

theorem after_eq_through (p : Position) (u : List Char) : p.after u = p.through u [] := by
  induction u generalizing p with
  | nil => rfl
  | cons c u ih => rw [after_cons, through, ih, List.append_nil]

/-- Of what comes behind, the first character is all that counts. -/
theorem through_congr (h : v.head? = v'.head?) (p : Position) (u : List Char) :
    p.through u v = p.through u v' := by
  induction u generalizing p with
  | nil => rfl
  | cons c u ih => rw [through, through, ih, List.head?_append, List.head?_append, h]

theorem column_advance_pos (p : Position) (c : Char) (next : Option Char) :
    0 < (p.advance c next).column := by
  rw [advance]
  split
  · exact Nat.one_pos
  · exact Nat.lt_min.2 ⟨Nat.succ_pos _, by decide⟩

theorem column_through_pos (hp : 0 < p.column) (u v : List Char) : 0 < (p.through u v).column := by
  induction u generalizing p with
  | nil => exact hp
  | cons c u ih => exact ih (column_advance_pos ..)

/-- Without the next character only a carriage return before a line feed is misread. -/
theorem advance_none_eq_iff (hp : 0 < p.column) :
    p.advance c none = p.advance c next ↔ ¬ (c = '\r' ∧ next = some '\n') := by
  by_cases h : c = '\r' ∧ next = some '\n'
  · obtain ⟨rfl, rfl⟩ := h
    -- The column tells a new line from the middle of one.
    have hcolumn : (p.advance '\r' none).column ≠ (p.advance '\r' (some '\n')).column := by
      show 1 ≠ min (p.column + 1) limit
      simp only [limit]
      omega
    exact iff_of_false (fun heq => hcolumn (congrArg column heq)) (not_not_intro ⟨rfl, rfl⟩)
  · have hsame : isLineEnd c none = isLineEnd c next := by
      rw [not_and] at h
      by_cases hc : c = '\r'
      · subst hc
        have hnext : (next != some '\n') = true := bne_iff_ne.2 (h rfl)
        rw [isLineEnd, isLineEnd, hnext]
        rfl
      · rw [isLineEnd, isLineEnd, beq_eq_false_iff_ne.2 hc, Bool.false_and, Bool.false_and]
    exact iff_of_true (by rw [advance, advance, hsame]) h

/-- A text ends where a longer one goes on, unless the cut is inside a line end. -/
theorem after_eq_through_iff (hp : 0 < p.column) (u v : List Char) :
    p.after u = p.through u v ↔ ¬ (u.getLast? = some '\r' ∧ v.head? = some '\n') := by
  rcases List.eq_nil_or_concat u with rfl | ⟨u, c, rfl⟩
  · simp [through]
  · -- Up to the last character both see the same text.
    have hfront : p.through u ([c] ++ []) = p.through u ([c] ++ v) :=
      through_congr (List.head?_cons.trans List.head?_cons.symm) p u
    rw [List.concat_eq_append, after_eq_through, through_append, through_append, hfront,
      List.getLast?_concat, Option.some.injEq]
    exact advance_none_eq_iff (column_through_pos hp u _)

/-! ### Counts that wrap around -/

variable {line column : Nat}

theorem wraps_eq_iff {n : Nat} (h : n ≤ limit + 1) : n % 4294967296 = bounded n ↔ n ≤ limit := by
  simp only [bounded, limit] at *
  omega

end Position

namespace Token

variable {t : Token} {line column offset : Nat} {text pre u v : List Char}

/-- A token counts as a cursor does, but that the counts wrap around. -/
theorem count_eq (line column : Nat) (u : List Char) :
    count (line % 4294967296) (column % 4294967296) u
      = ((Position.tally line column u []).1 % 4294967296,
        (Position.tally line column u []).2 % 4294967296) := by
  induction u generalizing line column with
  | nil => rfl
  | cons c u ih =>
    rw [count, Position.tally, List.append_nil, wrappingNext, wrappingNext, Nat.mod_add_mod,
      Nat.mod_add_mod]
    split
    · exact ih (line + 1) 1
    · exact ih line (column + 1)

theorem offset_endPosition (t : Token) :
    t.endPosition.offset = Position.bounded (t.position.offset + Text.size t.text.toList) := by
  show Position.bounded (t.position.offset + Position.bounded t.text.utf8ByteSize) = _
  rw [Text.utf8ByteSize_eq, Nat.add_comm, Position.bounded_bounded_add, Nat.add_comm]

theorem endPosition_eq (hline : line ≤ Position.limit) (hcolumn : column ≤ Position.limit)
    (hplace : t.position = .ofCounts line column offset) :
    t.endPosition = ⟨(Position.tally line column t.text.toList []).1 % 4294967296,
      (Position.tally line column t.text.toList []).2 % 4294967296,
      Position.bounded (offset + Text.size t.text.toList)⟩ := by
  have hwithin : ∀ {n}, n ≤ Position.limit → Position.bounded n = n % 4294967296 := fun h =>
    ((Position.wraps_eq_iff (Nat.le_succ_of_le h)).2 h).symm
  have hoffset := t.offset_endPosition
  rw [hplace, Position.ofCounts, Position.bounded_bounded_add] at hoffset
  rw [← hoffset, endPosition, hplace, Position.ofCounts]
  dsimp only
  rw [hwithin hline, hwithin hcolumn, count_eq]

/-- One beyond the bound a cursor stays at the bound, and a token begins again from zero. -/
theorem endPosition_eq_after_iff (hline : line ≤ Position.limit) (hcolumn : column ≤ Position.limit)
    (hplace : t.position = .ofCounts line column offset)
    (hlast : (Position.tally line column t.text.toList []).1 ≤ Position.limit + 1 ∧
      (Position.tally line column t.text.toList []).2 ≤ Position.limit + 1) :
    t.endPosition = t.position.after t.text.toList ↔
      (Position.tally line column t.text.toList []).1 ≤ Position.limit ∧
        (Position.tally line column t.text.toList []).2 ≤ Position.limit := by
  rw [endPosition_eq hline hcolumn hplace, Position.after_eq_through, hplace,
    Position.through_ofCounts, Position.ofCounts, Position.mk.injEq,
    Position.wraps_eq_iff hlast.1, Position.wraps_eq_iff hlast.2]
  simp only [and_true]

/-- In a text below the limit, a token ends at the position behind it, unless it cuts a line end in
two or is the last one of a text behind which there is no number for the line or the column. -/
theorem endPosition_eq_through_iff (hlength : text.length ≤ Position.limit)
    (htext : text = pre ++ (t.text.toList ++ v)) (hne : t.text.toList ≠ [])
    (hplace : t.position = Position.start.through pre (t.text.toList ++ v)) :
    t.endPosition = t.position.through t.text.toList v ↔
      ¬ (t.text.toList.getLast? = some '\r' ∧ v.head? = some '\n') ∧
        (v = [] → ¬ Position.Overflows text) := by
  have hcounts := hplace
  rw [← Position.ofCounts_start, Position.through_ofCounts] at hcounts
  obtain ⟨hline, hcolumn, hsum⟩ := Position.tally_le 1 1 (Nat.le_refl 1) pre (t.text.toList ++ v)
  have hall : Position.tally 1 1 (pre ++ t.text.toList) v = _ := Position.tally_append ..
  generalize Position.tally 1 1 pre (t.text.toList ++ v) = p at *
  obtain ⟨hline', hcolumn', hsum'⟩ := Position.tally_le p.1 p.2 hcolumn t.text.toList []
  have hpos := List.length_pos_iff.2 hne
  have hparts := congrArg List.length htext
  rw [List.length_append, List.length_append] at hparts
  have hafter := endPosition_eq_after_iff (by omega) (by omega) hcounts (by omega)
  by_cases hv : v = []
  · -- The token is the last one: what it counts is what the whole text counts.
    subst hv
    have hover := Position.overflows_iff hlength
    rw [htext, List.append_nil, hall] at hover
    rw [← Position.after_eq_through, hafter, htext, List.append_nil, hover]
    simp
  · -- Something is behind the token, and there is a number left for the place of it.
    have hrest := List.length_pos_iff.2 hv
    have hcolumnPos : 0 < t.position.column := by
      rw [hcounts]
      exact Nat.lt_min.2 ⟨hcolumn, by decide⟩
    rw [hafter.2 (by omega), Position.after_eq_through_iff hcolumnPos]
    exact (and_iff_left fun hnil => absurd hnil hv).symm

end Token

/-! ## Stretches of text -/

namespace Text

theorem takeOnto_onto (taken : List Char) (bytes : Nat) (cs : List Char) :
    takeOnto taken bytes cs = takeOnto [] bytes cs ++ taken := by
  induction cs generalizing taken bytes with
  | nil => rfl
  | cons c cs ih =>
    rw [takeOnto, takeOnto]
    split
    · rfl
    · rw [ih, ih [c], List.append_assoc]
      rfl

theorem take_cons {bytes : Nat} (h : bytes ≠ 0) (c : Char) (cs : List Char) :
    take bytes (c :: cs) = c :: take (bytes - c.utf8Size) cs := by
  rw [take, takeOnto, if_neg h, takeOnto_onto, List.reverse_append]
  rfl

end Text

namespace Cursor

/-- A cursor reads what is cut off at the number of bytes, and follows the positions. -/
theorem stretch_advanceBy (c : Cursor) (bytes : Nat) :
    c.rest = Text.take bytes c.rest ++ (c.advanceBy bytes).rest ∧
      (c.advanceBy bytes).position
        = c.position.through (Text.take bytes c.rest) (c.advanceBy bytes).rest := by
  obtain ⟨before, rest, offset, position⟩ := c
  induction rest generalizing before offset position bytes with
  | nil => exact ⟨rfl, rfl⟩
  | cons x rest ih =>
    by_cases hbytes : bytes = 0
    · subst hbytes
      rw [advanceBy_zero]
      exact ⟨rfl, rfl⟩
    · obtain ⟨hrest, hposition⟩ := ih (bytes - x.utf8Size) (x :: before) (offset + x.utf8Size)
        (position.advance x rest.head?)
      rw [advanceBy_cons rfl hbytes]
      dsimp only at hrest hposition ⊢
      rw [Text.take_cons hbytes, Position.through, List.cons_append]
      refine ⟨congrArg (x :: ·) hrest, ?_⟩
      show _ = (position.advance x (_ ++ (advanceBy ⟨x :: before, rest, _, _⟩ _).rest).head?).through
        _ _
      rw [← hrest]
      exact hposition

end Cursor

/-! ## Lexers -/

namespace Lexer

variable {l l' : Lexer} {t : Token} {before later : List Token} {text : List Char}

/-- The token stands at the cursor `c`, and the lexer goes on behind its text. -/
structure Stretch (c : Cursor) (t : Token) (l' : Lexer) : Prop where
  place : t.position = c.position
  ne_nil : t.text.toList ≠ []
  rest : c.rest = t.text.toList ++ l'.cursor.rest
  position : l'.position = c.position.through t.text.toList l'.cursor.rest

/-- A lexer takes a stretch of text for a token, and it is the next one if trivia are kept. -/
theorem stretch_of_next (h : l.next = (some t, l')) :
    l'.mode = l.mode ∧ ∃ c, Stretch c t l' ∧ (l.mode = .keep → c = l.cursor) := by
  -- The cases of the lexer: the end, a character of no rule, trivia that are left out, a lexeme.
  fun_induction Lexer.next l with
  | case1 => simp at h
  | case2 l x rest hrest w hfound =>
    obtain ⟨ht, rfl⟩ := Prod.mk.inj h
    cases ht
    refine ⟨rfl, l.cursor, ⟨rfl, by simp, ?_, ?_⟩, fun _ => rfl⟩
    · simp [reject, Cursor.rest_advance hrest, hrest]
    · rw [String.toList_ofList]
      simp [Lexer.position, reject, Cursor.advance, hrest, Position.through]
  | case3 l x rest hrest w m after hskip hfound ih =>
    obtain ⟨hmode, c, hc, -⟩ := ih h
    exact ⟨hmode, c, hc, fun hkeep => absurd (hkeep.symm.trans hskip.2) (by decide)⟩
  | case4 l x rest hrest w m after hskip hfound =>
    obtain ⟨ht, rfl⟩ := Prod.mk.inj h
    cases ht
    obtain ⟨hsplit, hposition⟩ := l.cursor.stretch_advanceBy m.length
    rw [hrest] at hsplit hposition
    refine ⟨rfl, l.cursor, ⟨rfl, ?_, ?_, ?_⟩, fun _ => rfl⟩
    · rw [String.toList_ofList, Text.take_cons (Nat.ne_of_gt m.length_pos)]
      exact List.cons_ne_nil _ _
    · rw [String.toList_ofList, hrest]
      exact hsplit
    · rw [String.toList_ofList]
      exact hposition

/-- Every token that is left has a character. -/
theorem ne_nil_of_mem_tokens (h : t ∈ l.tokens) : t.text.toList ≠ [] := by
  refine forall_tokens (I := fun _ => True) (P := fun t => t.text.toList ≠ [])
    (fun _ hnext => ⟨trivial, ?_⟩) trivial t h
  obtain ⟨-, c, hstretch, -⟩ := stretch_of_next hnext
  exact hstretch.ne_nil

theorem length_pos_of_mem_tokens (h : t ∈ l.tokens) : 0 < t.length := by
  have hsize := Text.size_pos (ne_nil_of_mem_tokens h)
  rw [← Text.utf8ByteSize_eq] at hsize
  exact Nat.lt_min.2 ⟨hsize, by decide⟩

/-- When trivia are kept, a lexer finds no token at the end of its text only. -/
theorem rest_of_next_none (hkeep : l.mode = .keep) (h : l.next = (none, l')) :
    l.cursor.rest = [] ∧ l' = l := by
  fun_induction Lexer.next l with
  | case1 l hrest => exact ⟨hrest, (Prod.mk.inj h).2.symm⟩
  | case2 => simp at h
  | case3 l x rest hrest w m after hskip hfound ih =>
    exact absurd (hkeep.symm.trans hskip.2) (by decide)
  | case4 => simp at h

/-- When trivia are kept, what comes next stands where the lexer does: a token with the next
character of the text, or the end. -/
theorem next_place (hkeep : l.mode = .keep) (made : Array Token) :
    (l.tokens.head?.map Token.position).getD (l.drain made).2.position = l.position ∧
      l.tokens.head?.bind (·.text.toList.head?) = l.cursor.rest.head? := by
  match hnext : l.next with
  | (none, l') =>
    obtain ⟨hrest, rfl⟩ := rest_of_next_none hkeep hnext
    rw [tokens_of_next_none hnext, drain_of_next_none hnext, hrest]
    exact ⟨rfl, rfl⟩
  | (some t, l') =>
    obtain ⟨-, c, hstretch, hcursor⟩ := stretch_of_next hnext
    obtain rfl := hcursor hkeep
    obtain ⟨x, u, htext⟩ := List.exists_cons_of_ne_nil hstretch.ne_nil
    have hfirst : t.text.toList.head? = l.cursor.rest.head? := by
      rw [hstretch.rest, htext]
      rfl
    rw [tokens_of_next_some hnext]
    exact ⟨hstretch.place, hfirst⟩

/-- When trivia are kept, no token is left at the end of the text only. -/
theorem tokens_eq_nil_iff (hkeep : l.mode = .keep) : l.tokens = [] ↔ l.cursor.rest = [] := by
  match hnext : l.next with
  | (none, l') =>
    exact iff_of_true (tokens_of_next_none hnext) (rest_of_next_none hkeep hnext).1
  | (some t, l') =>
    obtain ⟨-, c, hstretch, hcursor⟩ := stretch_of_next hnext
    obtain rfl := hcursor hkeep
    refine iff_of_false (by rw [tokens_of_next_some hnext]; exact List.cons_ne_nil _ _) ?_
    rw [hstretch.rest]
    exact List.append_ne_nil_of_left_ne_nil hstretch.ne_nil _

/-- The end of a token is the place of what comes behind it, unless a line end is cut in two or
there is no number for what comes behind the text. -/
theorem endPosition_eq_iff (hkeep : l.mode = .keep) (hlength : text.length ≤ Position.limit)
    (hwithin : l.cursor.Within text) (h : l.tokens = before ++ t :: later) (made : Array Token) :
    t.endPosition = (later.head?.map Token.position).getD (l.drain made).2.position ↔
      ¬ (t.text.toList.getLast? = some '\r' ∧
          later.head?.bind (·.text.toList.head?) = some '\n') ∧
        (later = [] → ¬ Position.Overflows text) := by
  -- By induction on the tokens before: the lexer goes on behind each of them.
  induction before generalizing l made with
  | nil =>
    match hnext : l.next with
    | (none, l') => rw [tokens_of_next_none hnext] at h; cases h
    | (some t', l') =>
      rw [tokens_of_next_some hnext] at h
      obtain ⟨rfl, rfl⟩ := List.cons.inj h
      obtain ⟨hmode, c, hstretch, hcursor⟩ := stretch_of_next hnext
      obtain rfl := hcursor hkeep
      obtain ⟨hplace, hfirst⟩ := next_place (hmode.trans hkeep) (made.push t')
      have htext := hwithin.text_eq
      have hposition := hstretch.place.trans hwithin.position_eq
      rw [hstretch.rest] at htext hposition
      rw [drain_of_next_some hnext, hplace, hfirst, hstretch.position, ← hstretch.place,
        tokens_eq_nil_iff (hmode.trans hkeep)]
      exact Token.endPosition_eq_through_iff hlength htext hstretch.ne_nil hposition
  | cons u before ih =>
    match hnext : l.next with
    | (none, l') => rw [tokens_of_next_none hnext] at h; cases h
    | (some t', l') =>
      have hwithin' := (stands_of_next_some hwithin hnext).1
      rw [tokens_of_next_some hnext] at h
      obtain ⟨hmode, -⟩ := stretch_of_next hnext
      rw [drain_of_next_some hnext]
      exact ih (hmode.trans hkeep) hwithin' (List.cons.inj h).2 (made.push t')

end Lexer

/-! ## A line end that is cut in two -/

namespace TokenTable

variable {t : TokenTable} {decls : List LexemeDecl} {cs : List Char} {c : Char} {n : Fin 65536}

/-- Where all rules have a fixed text, each accepts its own. -/
theorem takes_literal {texts : List (List Char)} {u : List Char} (h : ofDecls decls = .ok t)
    (hforms : List.Forall₂ Compiles decls (texts.map .literal)) :
    t.Takes n u ↔ texts[n.val]? = some u := by
  obtain ⟨hindexed, hdeclares⟩ := indexed_of_ofDecls h
  rw [Takes, HasRule, ← Array.getElem?_toList, rules_of_declares hdeclares hforms]
  constructor
  · rintro ⟨rule, hrule, hu⟩
    obtain ⟨d, form, -, hform, rfl⟩ := List.getElem?_zipWith_eq_some.1 hrule
    rw [List.getElem?_map] at hform
    obtain ⟨text, htext, rfl⟩ := Option.map_eq_some_iff.1 hform
    obtain rfl : u = text := hu
    exact htext
  · intro hu
    have hlt : n.val < decls.length := by
      rw [hforms.length_eq, List.length_map]
      exact (List.getElem?_eq_some_iff.1 hu).1
    have hform : (texts.map LexemeForm.literal)[n.val]? = some (.literal u) := by
      rw [List.getElem?_map, hu]
      rfl
    exact ⟨_, List.getElem?_zipWith_eq_some.2
      ⟨_, _, List.getElem?_eq_getElem hlt, hform, rfl⟩, rfl⟩

/-- Where all rules have a fixed text, one wins if no other one stands there. -/
theorem wins_literal {texts : List (List Char)} {u rest : List Char} (h : ofDecls decls = .ok t)
    (hforms : List.Forall₂ Compiles decls (texts.map .literal)) (hn : texts[n.val]? = some u)
    (honly : ∀ m v, texts[m]? = some v → v <+: u ++ rest → m = n.val) :
    t.Wins (u ++ rest) u n where
  first := List.prefix_append ..
  takes := (takes_literal h hforms).2 hn
  best := by
    intro m v hv htakes
    rw [takes_literal h hforms] at htakes
    obtain rfl : m = n := Fin.ext (honly m v htakes hv)
    exact .inr ⟨Option.some.inj (htakes.symm.trans hn), Fin.le_refl m⟩

/-- Where all rules are single characters, the first rule for a character wins. -/
theorem wins_character (h : ofDecls decls = .ok t)
    (hforms : List.Forall₂ Compiles decls (cs.map fun c => .literal [c]))
    (hn : cs[n.val]? = some c) (hfirst : ∀ m < n.val, cs[m]? ≠ some c) (rest : List Char) :
    t.Wins (c :: rest) [c] n := by
  have htakes : ∀ m u, t.Takes m u ↔ ∃ c, cs[m.val]? = some c ∧ [c] = u := by
    intro m u
    have hcs : List.Forall₂ Compiles decls ((cs.map fun c => [c]).map .literal) := by
      rwa [List.map_map]
    rw [takes_literal h hcs, List.getElem?_map, Option.map_eq_some_iff]
  refine ⟨⟨rest, rfl⟩, (htakes n _).2 ⟨c, hn, rfl⟩, fun m v hv hm => ?_⟩
  obtain ⟨d, hd, rfl⟩ := (htakes m v).1 hm
  obtain ⟨rfl, -⟩ := List.cons_prefix_cons.1 hv
  exact .inr ⟨rfl, Nat.le_of_not_lt fun hlt => hfirst m hlt hd⟩

/-- Where the rules are different characters, and none is for trivia, a row of them is read
character by character. -/
theorem lexes_characters (h : ofDecls decls = .ok t)
    (hforms : List.Forall₂ Compiles decls (cs.map fun c => .literal [c])) (hcs : cs.Nodup)
    (hshown : ∀ rule ∈ t.rules.toList, rule.trivia = false) (mode : TriviaMode)
    {row : List (Char × Fin 65536)} (hrow : ∀ x ∈ row, cs[x.2.val]? = some x.1) :
    t.Lexes mode (row.map Prod.fst) (row.map fun x => ⟨.kind x.2, String.ofList [x.1]⟩) := by
  induction row with
  | nil => exact .nil
  | cons x row ih =>
    obtain ⟨hx, hrow⟩ := List.forall_mem_cons.1 hrow
    have hfirst : ∀ m < x.2.val, cs[m]? ≠ some x.1 := fun m hm => hx ▸
      List.nodup_iff_getElem?_ne_getElem?.1 hcs m _ hm (List.getElem?_eq_some_iff.1 hx).1
    have hkept : t.kept mode [x.1] x.2 = [⟨.kind x.2, String.ofList [x.1]⟩] :=
      if_neg fun hskip => Bool.false_ne_true ((isTrivia_eq_false hshown _).symm.trans hskip.1)
    have hlexes := Lexes.wins (wins_character h hforms hx hfirst (row.map Prod.fst)) rfl (ih hrow)
    rwa [hkept] at hlexes

/-- The two characters of a line end are lexemes of their own. -/
def lineEndDecls : List LexemeDecl := [.ofNamedLiteral "cr" "\r", .ofNamedLiteral "lf" "\n"]

theorem compiles_lineEnd : List.Forall₂ Compiles lineEndDecls
    (['\r', '\n'].map fun c => .literal [c]) :=
  .cons rfl (.cons rfl .nil)

theorem exists_ofDecls_lineEnd : ∃ t, ofDecls lineEndDecls = .ok t :=
  exists_ofDecls (by decide) (by decide) compiles_lineEnd

/-- Each of the two characters is a lexeme. -/
theorem lexes_lineEnd (h : ofDecls lineEndDecls = .ok t) :
    t.Lexes .keep ['\r', '\n'] [⟨.kind 0, "\r"⟩, ⟨.kind 1, "\n"⟩] := by
  have hcr := wins_character (n := 0) h compiles_lineEnd rfl nofun ['\n']
  have hlf := wins_character (n := 1) h compiles_lineEnd rfl (by decide) []
  have hkept : ∀ u n, t.kept .keep u n = [⟨.kind n, String.ofList u⟩] := fun u n =>
    if_neg fun hskip => absurd hskip.2 nofun
  have hrest : t.Lexes .keep ['\n'] (t.kept .keep ['\n'] 1 ++ []) := .wins hlf rfl .nil
  have hlexes := Lexes.wins hcr rfl hrest
  rwa [hkept, hkept] at hlexes

end TokenTable

namespace Lexer

variable {t : TokenTable}

/-- The two characters of a line end are two tokens. -/
theorem tokens_lineEnd (h : TokenTable.ofDecls TokenTable.lineEndDecls = .ok t) :
    ∃ cr lf, (tokenize t .keep ['\r', '\n']).1.toList = [cr, lf] ∧
      cr.text.toList = ['\r'] ∧ lf.text.toList = ['\n'] := by
  have ht := (TokenTable.indexed_of_ofDecls h).1
  have hlasts : Lasts t ['\r', '\n'] := lasts_of_decls h (by decide)
  have hlexemes := (lexes_tokenize ht .keep hlasts).unique ht (TokenTable.lexes_lineEnd h)
  obtain ⟨cr, tail, htokens, hcr, htail⟩ := List.map_eq_cons_iff.1 hlexemes
  obtain ⟨lf, none, rfl, hlf, hnone⟩ := List.map_eq_cons_iff.1 htail
  obtain rfl := List.map_eq_nil_iff.1 hnone
  exact ⟨cr, lf, htokens, congrArg (·.text.toList) hcr, congrArg (·.text.toList) hlf⟩

/-- When trivia are kept, a token ends where the next one begins, and the last one where the lexer
stops, with two exceptions. Where a token ends in a carriage return and the next begins with a line
feed, its end is not the place of the next. And where there is no number for the line or the column
behind the text, the last token does not end there. -/
theorem endPosition_tokenize (table : TokenTable) (text : List Char) {token : Token}
    {before later : List Token} (hsize : Text.size text ≤ Position.limit)
    (h : (tokenize table .keep text).1.toList = before ++ token :: later) :
    token.endPosition
        = (later.head?.map Token.position).getD (tokenize table .keep text).2.position ↔
      ¬ (token.text.toList.getLast? = some '\r' ∧
          later.head?.bind (·.text.toList.head?) = some '\n') ∧
        (later = [] → ¬ Position.Overflows text) :=
  have hlength := (Text.length_le_size text).trans hsize
  endPosition_eq_iff (l := ofText table .keep text) rfl hlength (Cursor.within_ofText text) h #[]

/-- The line feed ends where the text does. -/
theorem endPosition_tokenize_lineEnd :
    ∃ t, TokenTable.ofDecls TokenTable.lineEndDecls = .ok t ∧
      ∃ cr lf, Text.size ['\r', '\n'] ≤ Position.limit ∧
        (tokenize t .keep ['\r', '\n']).1.toList = [cr] ++ lf :: [] ∧
        lf.endPosition = (tokenize t .keep ['\r', '\n']).2.position := by
  obtain ⟨t, h⟩ := TokenTable.exists_ofDecls_lineEnd
  obtain ⟨cr, lf, htokens, -, -⟩ := tokens_lineEnd h
  have hsize : Text.size ['\r', '\n'] ≤ Position.limit := by decide
  have hlast : (tokenize t .keep ['\r', '\n']).1.toList = [cr] ++ lf :: [] := htokens
  refine ⟨t, h, cr, lf, hsize, hlast,
    (endPosition_tokenize t _ hsize hlast).2 ⟨?_, fun _ hover => ?_⟩⟩
  · exact fun hcut => absurd hcut.2 nofun
  · exact absurd hover.1 (by decide)

/-- The carriage return ends a line for its own token, and the line feed does not stand there. -/
theorem endPosition_ne_lineEnd :
    ∃ t, TokenTable.ofDecls TokenTable.lineEndDecls = .ok t ∧
      ∃ cr lf, (tokenize t .keep ['\r', '\n']).1.toList = [cr, lf] ∧
        cr.endPosition ≠ lf.position := by
  obtain ⟨t, h⟩ := TokenTable.exists_ofDecls_lineEnd
  obtain ⟨cr, lf, htokens, hcr, hlf⟩ := tokens_lineEnd h
  have hfirst : (ofText t .keep ['\r', '\n']).tokens = [] ++ cr :: [lf] := htokens
  have hcut := endPosition_eq_iff (l := ofText t .keep _) rfl (by decide)
    (Cursor.within_ofText _) hfirst #[]
  refine ⟨t, h, cr, lf, htokens, fun heq => (hcut.1 heq).1 ⟨?_, ?_⟩⟩
  · rw [hcr]
    rfl
  · exact congrArg List.head? hlf

end Lexer

end FrontEnd
