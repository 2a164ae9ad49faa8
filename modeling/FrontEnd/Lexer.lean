import FrontEnd.Diagnostic.Basic
import FrontEnd.Source.Cursor
import FrontEnd.TokenTable.Basic

/-!
# Lexers

A lexer turns a text into tokens, one at a time. At each place the table says what the lexeme is;
a character that no rule accepts becomes a token of its own and is reported. **Every token takes at
least one character** (`Lexer.next_lt`), so every text comes to an end.

- `Lexer.next`: the next token;
- `Lexer.drain`: all tokens that are left;
- `Lexer.tokenize`: all tokens of a text, and the reports.
-/

namespace FrontEnd

/-- What is done with the lexemes of trivia rules. -/
inductive TriviaMode where
  /-- They are dropped. -/
  | skip
  /-- They are tokens like all others. -/
  | keep
  deriving DecidableEq, Repr, Inhabited

/-- The state of reading a text. -/
structure Lexer where
  table : TokenTable
  cursor : Cursor
  mode : TriviaMode
  workspace : Workspace
  /-- Reports that nobody has taken yet. -/
  log : DiagnosticLog
  /-- Number of tokens made so far. -/
  produced : Nat

namespace Cursor

theorem length_read_le (before : List Char) (offset : Nat) (position : Position) (bytes : Nat)
    (rest : List Char) : (read before offset position bytes rest).rest.length ≤ rest.length := by
  induction rest generalizing before offset position bytes with
  | nil => simp [read]
  | cons x rest ih =>
    rw [read]
    split
    · simp
    · exact Nat.le_succ_of_le (ih ..)

theorem length_advanceBy_lt (c : Cursor) (bytes : Nat) (hb : 0 < bytes) (hc : c.rest ≠ []) :
    (c.advanceBy bytes).rest.length < c.rest.length := by
  unfold advanceBy
  match h : c.rest with
  | [] => exact absurd h hc
  | x :: rest =>
    rw [read, if_neg (Nat.ne_of_gt hb)]
    exact Nat.lt_succ_of_le (length_read_le ..)

theorem length_advance_lt (c : Cursor) (hc : c.rest ≠ []) :
    c.advance.rest.length < c.rest.length := by
  unfold advance
  match h : c.rest with
  | [] => exact absurd h hc
  | x :: rest => simp

end Cursor

namespace Lexer

/-- At the start of `text`. -/
def ofText (table : TokenTable) (mode : TriviaMode) (text : List Char) : Lexer :=
  ⟨table, .ofText text, mode, .ofSize table.maxStates, .empty, 0⟩

/-- The position of the next character. -/
def position (l : Lexer) : Position := l.cursor.position

/-- Takes a lexeme of `bytes` bytes off the text. -/
def skip (l : Lexer) (bytes : Nat) (w : Workspace) : Lexer :=
  { l with cursor := l.cursor.advanceBy bytes, workspace := w }

/-- Takes off a character that no rule accepts, and reports it. -/
def reject (l : Lexer) (c : Char) (w : Workspace) : Lexer :=
  { l with
    cursor := l.cursor.advance
    workspace := w
    log := l.log.record (.unrecognizedCharacter c l.position)
    produced := l.produced + 1 }

/-- The next token, nothing at the end of the text. -/
def next (l : Lexer) : Option Token × Lexer :=
  match _h : l.cursor.rest with
  | [] => (none, l)
  | c :: rest =>
    let (found, w) := l.table.longestMatch l.workspace (c :: rest)
    match found with
    | none => (some ⟨.unknown, String.ofList [c], l.position⟩, l.reject c w)
    | some m =>
      let after := l.skip m.length w
      if m.trivia ∧ l.mode = .skip then next after
      else
        (some ⟨m.id, String.ofList (Text.take m.length (c :: rest)), l.position⟩,
          { after with produced := l.produced + 1 })
termination_by l.cursor.rest.length
decreasing_by exact l.cursor.length_advanceBy_lt m.length m.length_pos (by simp [_h])

/-- A token takes at least one character. -/
theorem next_lt (l : Lexer) (t : Token) (l' : Lexer) (h : l.next = (some t, l')) :
    l'.cursor.rest.length < l.cursor.rest.length := by
  fun_induction next l with
  | case1 l hl => simp at h
  | case2 l c rest hl w hf =>
    obtain ⟨-, rfl⟩ := Prod.mk.inj h
    exact l.cursor.length_advance_lt (by simp [hl])
  | case3 l c rest hl w m hf after hskip ih =>
    exact Nat.lt_trans (ih h) (l.cursor.length_advanceBy_lt m.length m.length_pos (by simp [hl]))
  | case4 l c rest hl w m hf after hskip =>
    obtain ⟨-, rfl⟩ := Prod.mk.inj h
    exact l.cursor.length_advanceBy_lt m.length m.length_pos (by simp [hl])

/-- The text to read never grows. -/
theorem next_le (l : Lexer) : l.next.2.cursor.rest.length ≤ l.cursor.rest.length := by
  fun_induction next l with
  | case1 l hl => simp
  | case2 l c rest hl w hf =>
    exact Nat.le_of_lt (l.cursor.length_advance_lt (by simp [hl]))
  | case3 l c rest hl w m hf after hskip ih =>
    exact Nat.le_trans ih
      (Nat.le_of_lt (l.cursor.length_advanceBy_lt m.length m.length_pos (by simp [hl])))
  | case4 l c rest hl w m hf after hskip =>
    exact Nat.le_of_lt (l.cursor.length_advanceBy_lt m.length m.length_pos (by simp [hl]))

/-- Adds all tokens that are left to `tokens`. -/
def drain (l : Lexer) (tokens : Array Token) : Array Token × Lexer :=
  match _h : l.next with
  | (none, l') => (tokens, l')
  | (some t, l') => l'.drain (tokens.push t)
termination_by l.cursor.rest.length
decreasing_by exact l.next_lt t l' _h

/-- Reads up to `n` tokens onto `taken`, latest first; the answer has them in order, and says
whether the text ended first. -/
def pull (taken : List Token) : Nat → Lexer → List Token × Bool × Lexer
  | 0, l => (taken.reverse, false, l)
  | n + 1, l =>
    match l.next with
    | (none, l) => (taken.reverse, true, l)
    | (some t, l) => pull (t :: taken) n l

/-- Tokens are made of text: as many are read, at least as many characters are gone. -/
theorem length_pull_le (taken : List Token) (n : Nat) (l : Lexer) :
    (pull taken n l).1.length + (pull taken n l).2.2.cursor.rest.length
      ≤ taken.length + l.cursor.rest.length := by
  induction n generalizing taken l with
  | zero => simp [pull]
  | succ n ih =>
    rw [pull]
    split
    · next l' h =>
      have := l.next_le
      rw [h] at this
      simpa using this
    · next t l' h =>
      have := l.next_lt t l' h
      have := ih (t :: taken) l'
      simp only [List.length_cons] at this
      omega

/-- All tokens of a text, and the lexer at its end. -/
def tokenize (table : TokenTable) (mode : TriviaMode) (text : List Char) : Array Token × Lexer :=
  (ofText table mode text).drain #[]

end Lexer

end FrontEnd
