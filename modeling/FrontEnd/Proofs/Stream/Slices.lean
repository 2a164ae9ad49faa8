import FrontEnd.Proofs.Lookups
import FrontEnd.Proofs.Source.Places
import FrontEnd.Proofs.Stream.Lexemes
import FrontEnd.TokenStream

/-!
# Slices of a text

A lexer is given a text and keeps the number of bytes it has read. All that it looks at it cuts out
of the text again, at places that are counted in bytes. **A cut that is not between two characters
of the text gives no result** here, and neither does a rule that is not in the table.

- `Text.cut?`: a text cut in two;
- `Cursor.rest?`, `Cursor.advance?`, `Cursor.advanceBy?`: reading by cutting;
- `Lexer.next?`: the next token, by cutting;
- `Lexer.Reading.next?_eq`: **every cut that is made for a token is between two characters**;
- `TokenStream.fill?`, `TokenStream.consume?`, `TokenStream.synchronize?`: looking ahead and taking
  tokens that are read in this way.
-/

noncomputable section

namespace FrontEnd

/-! ## Texts -/

namespace Text

/-- The text before and behind the first bytes. -/
def cut? (bytes : Nat) : List Char → Option (List Char × List Char)
  | [] => if bytes = 0 then some ([], []) else none
  | c :: rest =>
    if bytes = 0 then some ([], c :: rest)
    else if c.utf8Size ≤ bytes then
      (cut? (bytes - c.utf8Size) rest).map fun (u, v) => (c :: u, v)
    else none

/-- Behind a first part the text can be cut. -/
theorem cut?_append (u v : List Char) : cut? (size u) (u ++ v) = some (u, v) := by
  induction u with
  | nil => cases v <;> simp [cut?]
  | cons c u ih =>
    have hpos := c.utf8Size_pos
    rw [List.cons_append, cut?, size_cons, if_neg (by omega), if_pos (Nat.le_add_right ..),
      Nat.add_sub_cancel_left, ih, Option.map_some]

end Text

/-! ## Cursors -/

namespace Cursor

variable {text : List Char} {c : Cursor}

/-- The text to read. -/
def rest? (text : List Char) (c : Cursor) : Option (List Char) :=
  (Text.cut? c.offset text).map Prod.snd

/-- Reads a character; at the end the cursor stays. -/
def advance? (text : List Char) (c : Cursor) : Option Cursor := do
  match ← c.rest? text with
  | [] => some c
  | x :: rest =>
    some ⟨x :: c.before, rest, c.offset + x.utf8Size, c.position.advance x rest.head?⟩

/-- Reads a character, unless the offset `target` is reached or the text has ended. -/
def approach? (text : List Char) (target : Nat) (c : Cursor) : Option (Cursor × Bool) :=
  if c.offset < target then do
    match ← c.rest? text with
    | [] => some (c, false)
    | _ :: _ => (c.advance? text).map (·, true)
  else some (c, false)

/-- Reads until `bytes` bytes are read or the text ends. -/
def advanceBy? (text : List Char) (c : Cursor) (bytes : Nat) : Option Cursor :=
  loop? (approach? text (c.offset + bytes)) c

/-- A cursor in a text finds what is left of it. -/
theorem Within.rest?_eq (h : c.Within text) : c.rest? text = some c.rest := by
  rw [rest?, h.offset_eq, h.text_eq, Text.cut?_append, Option.map_some]

theorem Within.advance?_eq (h : c.Within text) : c.advance? text = some c.advance := by
  rw [advance?, h.rest?_eq, Option.bind_eq_bind, Option.bind_some, Cursor.advance]
  cases c.rest <;> rfl

theorem Within.loop?_approach (h : c.Within text) (target : Nat) :
    loop? (approach? text target) c = some (c.advanceBy (target - c.offset)) := by
  generalize hn : c.rest.length = n
  induction n generalizing c with
  | zero =>
    have hrest : c.rest = [] := List.length_eq_zero_iff.1 hn
    have hstay : c.advanceBy (target - c.offset) = c := by
      obtain ⟨before, rest, offset, position⟩ := c
      obtain rfl : rest = [] := hrest
      rfl
    have hstep : approach? text target c = some (c, false) := by
      rw [approach?, h.rest?_eq, hrest]
      exact ite_self _
    rw [loop?_done hstep, hstay]
  | succ n ih =>
    obtain ⟨x, rest, hrest⟩ := List.exists_cons_of_length_eq_add_one hn
    have hoffset : c.advance.offset = c.offset + x.utf8Size := by rw [Cursor.advance, hrest]
    have hlength : c.advance.rest.length = n := by
      rw [rest_advance hrest]
      simpa [hrest] using hn
    by_cases hlt : c.offset < target
    · have hstep : approach? text target c = some (c.advance, true) := by
        rw [approach?, if_pos hlt, h.rest?_eq, hrest, h.advance?_eq]
        rfl
      rw [loop?_more hstep, ih h.advance hlength, hoffset, advanceBy_cons hrest (by omega),
        Nat.sub_sub]
    · have hstep : approach? text target c = some (c, false) := if_neg hlt
      rw [loop?_done hstep, Nat.sub_eq_zero_of_le (Nat.le_of_not_lt hlt), advanceBy_zero]

/-- A cursor in a text reads on by cuts between characters, wherever the bytes end. -/
theorem Within.advanceBy?_eq (h : c.Within text) (bytes : Nat) :
    c.advanceBy? text bytes = some (c.advanceBy bytes) := by
  rw [advanceBy?, h.loop?_approach, Nat.add_sub_cancel_left]

end Cursor

/-! ## Rules of a table -/

namespace TokenTable

/-- Offers the lexeme of a literal rule, if the text starts with it. -/
def offerLiteral? (t : TokenTable) (text : List Char) (best : Option LexemeMatch)
    (n : Fin 65536) : Option (Option LexemeMatch) := do
  let rule ← t.rules[n.val]?
  match rule.form with
  | .literal lexeme =>
    some (if lexeme.isPrefixOf text then offer best n (Text.size lexeme) rule.trivia else best)
  | .pattern _ => some best

/-- Offers the longest lexeme of a pattern rule, if it can start with the first character. -/
def offerPattern? (t : TokenTable) (c : Char) (text : List Char)
    (state : Option LexemeMatch × Workspace) (n : Fin 65536) :
    Option (Option LexemeMatch × Workspace) := do
  let rule ← t.rules[n.val]?
  match rule.form with
  | .literal _ => some state
  | .pattern automaton =>
    if automaton.canStartWith c then
      let (length, w) := automaton.longestMatch state.2 text
      some (offer state.1 n (length.getD 0) rule.trivia, w)
    else some state

/-- The winning lexeme at the start of a text. -/
def longestMatch? (t : TokenTable) (w : Workspace) (text : List Char) :
    Option (Option LexemeMatch × Workspace) :=
  match text with
  | [] => some (none, w)
  | c :: _ => do
    let literal ← (t.literals.getD c.toNat #[]).foldlM (t.offerLiteral? text) none
    t.patterns.foldlM (t.offerPattern? c text) (literal, w)

variable {t : TokenTable} {text : List Char} {n : Fin 65536} {P : LexemeRule → Prop}

theorem HasRule.offerLiteral?_eq (h : t.HasRule n P) (best : Option LexemeMatch) :
    t.offerLiteral? text best n = some (t.offerLiteral text best n) := by
  obtain ⟨⟨name, form, trivia⟩, hrule, -⟩ := h
  cases form <;> simp [offerLiteral?, offerLiteral, hrule]

theorem HasRule.offerPattern?_eq (h : t.HasRule n P) (c : Char)
    (state : Option LexemeMatch × Workspace) :
    t.offerPattern? c text state n = some (t.offerPattern c text state n) := by
  obtain ⟨⟨name, form, trivia⟩, hrule, -⟩ := h
  cases form with
  | literal lexeme => simp [offerPattern?, offerPattern, hrule]
  | pattern automaton =>
    simp only [offerPattern?, offerPattern, hrule, Option.bind_eq_bind, Option.bind_some]
    split <;> rfl

/-- The indexes name rules of the table. -/
theorem Indexed.longestMatch?_eq (ht : t.Indexed) (w : Workspace) (text : List Char) :
    t.longestMatch? w text = some (t.longestMatch w text) := by
  cases text with
  | nil => rfl
  | cons c rest =>
    have hliterals : (t.literals.getD c.toNat #[]).toList.foldlM (t.offerLiteral? (c :: rest)) none
        = some ((t.literals.getD c.toNat #[]).toList.foldl (t.offerLiteral (c :: rest)) none) :=
      (foldlM_eq_some (fun _ => True) (fun best _ n hn =>
        ⟨((ht.literals _ n).1 (Array.mem_toList_iff.1 hn)).offerLiteral?_eq best, trivial⟩)
        trivial).1
    have hpatterns (state : Option LexemeMatch × Workspace) :
        t.patterns.toList.foldlM (t.offerPattern? c (c :: rest)) state
          = some (t.patterns.toList.foldl (t.offerPattern c (c :: rest)) state) :=
      (foldlM_eq_some (fun _ => True) (fun state _ n hn =>
        ⟨((ht.patterns n).1 (Array.mem_toList_iff.1 hn)).offerPattern?_eq c state, trivial⟩)
        trivial).1
    rw [longestMatch?, longestMatch, ← Array.foldlM_toList, ← Array.foldl_toList, hliterals,
      Option.bind_eq_bind, Option.bind_some, ← Array.foldlM_toList, ← Array.foldl_toList,
      hpatterns]

end TokenTable

/-! ## Lexers -/

namespace Lexer

variable {text : List Char} {l : Lexer}

/-- Reads a lexeme: a token, nothing at the end of the text, or trivia that are left out, behind
which there is more to read. -/
def read? (text : List Char) (l : Lexer) : Option ((Option Token × Lexer) × Bool) := do
  match ← l.cursor.rest? text with
  | [] => some ((none, l), false)
  | c :: rest =>
    match ← l.table.longestMatch? l.workspace (c :: rest) with
    | (none, w) =>
      let (lexeme, _) ← Text.cut? c.utf8Size (c :: rest)
      let cursor ← l.cursor.advance? text
      some ((some ⟨.unknown, String.ofList lexeme, l.position⟩, { l.reject c w with cursor }),
        false)
    | (some m, w) =>
      let (lexeme, _) ← Text.cut? m.length (c :: rest)
      let cursor ← l.cursor.advanceBy? text m.length
      let after := { l with cursor, workspace := w }
      if m.trivia ∧ l.mode = .skip then some ((none, after), true)
      else
        some ((some ⟨m.id, String.ofList lexeme, l.position⟩,
          { after with produced := l.produced + 1 }), false)

/-- The next token, nothing at the end of the text. -/
def next? (text : List Char) (l : Lexer) : Option (Option Token × Lexer) :=
  loop? (fun state => state.2.read? text) (none, l)

/-- Reads up to `n` tokens onto `taken`, latest first. -/
def pull? (text : List Char) (taken : List Token) : Nat → Lexer → Option (List Token × Bool × Lexer)
  | 0, l => some (taken.reverse, false, l)
  | n + 1, l => do
    match ← l.next? text with
    | (none, l) => some (taken.reverse, true, l)
    | (some t, l) => pull? text (t :: taken) n l

/-- A lexer that reads the text. -/
structure Reading (text : List Char) (l : Lexer) : Prop where
  indexed : l.table.Indexed
  within : l.cursor.Within text

namespace Reading

theorem ofText {table : TokenTable} (ht : table.Indexed) (mode : TriviaMode) (text : List Char) :
    (Lexer.ofText table mode text).Reading text :=
  ⟨ht, Cursor.within_ofText text⟩

theorem next (h : l.Reading text) : l.next.2.Reading text := by
  fun_induction Lexer.next l with
  | case1 l hrest => exact h
  | case2 l c rest hrest w hfound => exact ⟨h.indexed, h.within.advance⟩
  | case3 l c rest hrest w m after hskip hfound ih =>
    exact ih ⟨h.indexed, h.within.advanceBy m.length⟩
  | case4 l c rest hrest w m after hskip hfound => exact ⟨h.indexed, h.within.advanceBy m.length⟩

/-- A match ends between two characters. -/
theorem exists_cut (h : l.Reading text) {rest : List Char} {m : LexemeMatch} {w : Workspace}
    (hfound : l.table.longestMatch l.workspace rest = (some m, w)) :
    ∃ later, Text.cut? m.length rest = some (Text.take m.length rest, later) := by
  have hsome : (l.table.longestMatch l.workspace rest).1 = some m := by rw [hfound]
  obtain ⟨u, ⟨later, rfl⟩, -, hlength, -⟩ := TokenTable.takes_longestMatch h.indexed hsome
  exact ⟨later, by rw [hlength, Text.cut?_append, Text.take_append]⟩

theorem next?_eq (h : l.Reading text) : l.next? text = some l.next := by
  -- One case for each way in which the lexer goes on; only behind trivia does it go round once
  -- more.
  fun_induction Lexer.next l with
  | case1 l hrest =>
    have hread : l.read? text = some ((none, l), false) := by
      rw [Lexer.read?, h.within.rest?_eq, hrest]
      rfl
    exact loop?_done hread
  | case2 l c rest hrest w hfound =>
    have hcut : Text.cut? c.utf8Size (c :: rest) = some ([c], rest) := by
      simpa using Text.cut?_append [c] rest
    refine loop?_done ?_
    dsimp only
    rw [Lexer.read?, h.within.rest?_eq, hrest]
    simp only [Option.bind_eq_bind, Option.bind_some, h.indexed.longestMatch?_eq, hfound, hcut,
      h.within.advance?_eq]
    rfl
  | case3 l c rest hrest w m after hskip hfound ih =>
    obtain ⟨later, hcut⟩ := h.exists_cut hfound
    have hread : l.read? text = some ((none, after), true) := by
      rw [Lexer.read?, h.within.rest?_eq, hrest]
      simp only [Option.bind_eq_bind, Option.bind_some, h.indexed.longestMatch?_eq, hfound, hcut,
        h.within.advanceBy?_eq, if_pos hskip]
      rfl
    exact (loop?_more hread).trans (ih ⟨h.indexed, h.within.advanceBy m.length⟩)
  | case4 l c rest hrest w m after hskip hfound =>
    obtain ⟨later, hcut⟩ := h.exists_cut hfound
    refine loop?_done ?_
    dsimp only
    rw [Lexer.read?, h.within.rest?_eq, hrest]
    simp only [Option.bind_eq_bind, Option.bind_some, h.indexed.longestMatch?_eq, hfound, hcut,
      h.within.advanceBy?_eq, if_neg hskip]
    rfl

theorem pull?_eq (h : l.Reading text) (taken : List Token) (n : Nat) :
    Lexer.pull? text taken n l = some (Lexer.pull taken n l) ∧
      (Lexer.pull taken n l).2.2.Reading text := by
  induction n generalizing taken l with
  | zero => exact ⟨rfl, h⟩
  | succ n ih =>
    have hnext := h.next
    rw [Lexer.pull?, Lexer.pull, h.next?_eq, Option.bind_eq_bind, Option.bind_some]
    rcases hread : l.next with ⟨_ | t, l'⟩
    · rw [hread] at hnext
      exact ⟨rfl, hnext⟩
    · rw [hread] at hnext
      exact ih hnext (t :: taken)

end Reading

end Lexer

/-! ## Streams -/

namespace TokenStream

variable {text : List Char} {s : TokenStream}

/-- Reads until the token `k` places ahead is there or the input ends. -/
def fill? (text : List Char) (s : TokenStream) (k : Nat) : Option TokenStream :=
  if k < s.buffer.length ∨ s.stop.isSome then some s
  else do
    let read ← s.lexer.pull? text [] (k + 1 - s.buffer.length)
    some { s with
      lexer := read.2.2
      buffer := s.buffer ++ read.1
      stop := if read.2.1 then some read.2.2.position else none }

/-- Takes the next token. -/
def consume? (text : List Char) (s : TokenStream) : Option (Token × TokenStream) := do
  let s ← s.fill? text 0
  match s.buffer with
  | [] => some (s.endToken, s)
  | t :: _ => some (t, s.pop)

/-- Takes a token, unless it is one of the set or the end of the input. -/
def skip? (text : List Char) (sync : TokenSet) (state : List Token × TokenStream) :
    Option ((List Token × TokenStream) × Bool) := do
  let s ← state.2.fill? text 0
  match s.buffer with
  | [] => some ((state.1, s), false)
  | t :: _ =>
    if sync.contains t.id then some ((state.1, s), false)
    else some ((t :: state.1, s.pop), true)

/-- Takes tokens onto `skipped`, latest first, up to one of the set or the end of the input. -/
def synchronize? (text : List Char) (sync : TokenSet) (skipped : List Token) (s : TokenStream) :
    Option (List Token × TokenStream) :=
  (loop? (skip? text sync) (skipped, s)).map fun (skipped, s) => (skipped.reverse, s)

theorem fill?_eq (h : s.lexer.Reading text) (k : Nat) :
    s.fill? text k = some (s.fill k) ∧ (s.fill k).lexer.Reading text := by
  unfold fill? fill
  split
  · exact ⟨rfl, h⟩
  · obtain ⟨hpull, hreading⟩ := h.pull?_eq [] (k + 1 - s.buffer.length)
    rw [hpull]
    exact ⟨rfl, hreading⟩

theorem consume?_eq (h : s.lexer.Reading text) :
    s.consume? text = some s.consume ∧ s.consume.2.lexer.Reading text := by
  obtain ⟨hfill, hreading⟩ := fill?_eq h 0
  rw [consume?, consume, hfill, Option.bind_eq_bind, Option.bind_some]
  cases (s.fill 0).buffer with
  | nil => exact ⟨rfl, hreading⟩
  | cons t rest => exact ⟨rfl, hreading⟩

theorem synchronize?_eq (h : s.lexer.Reading text) (sync : TokenSet) (skipped : List Token) :
    s.synchronize? text sync skipped = some (s.synchronize sync skipped) ∧
      (s.synchronize sync skipped).2.lexer.Reading text := by
  fun_induction TokenStream.synchronize sync skipped s with
  | case1 skipped s hnil =>
    obtain ⟨hfill, hreading⟩ := fill?_eq h 0
    have hskip : skip? text sync (skipped, s) = some ((skipped, s.fill 0), false) := by
      rw [skip?, hfill, Option.bind_eq_bind, Option.bind_some, hnil]
    rw [synchronize?, loop?_done hskip]
    exact ⟨rfl, hreading⟩
  | case2 skipped s t rest hcons hsync =>
    obtain ⟨hfill, hreading⟩ := fill?_eq h 0
    have hskip : skip? text sync (skipped, s) = some ((skipped, s.fill 0), false) := by
      rw [skip?, hfill, Option.bind_eq_bind, Option.bind_some, hcons]
      exact if_pos hsync
    rw [synchronize?, loop?_done hskip]
    exact ⟨rfl, hreading⟩
  | case3 skipped s t rest hcons hsync ih =>
    obtain ⟨hfill, hreading⟩ := fill?_eq h 0
    have hskip : skip? text sync (skipped, s) = some ((t :: skipped, (s.fill 0).pop), true) := by
      rw [skip?, hfill, Option.bind_eq_bind, Option.bind_some, hcons]
      exact if_neg hsync
    rw [synchronize?, loop?_more hskip]
    exact ih hreading

end TokenStream

end FrontEnd

end
