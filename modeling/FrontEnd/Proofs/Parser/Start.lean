import FrontEnd.Proofs.Parser.Moves
import FrontEnd.Proofs.Text.Measure

/-!
# The first moment of a parse

A parse of a text begins before the first token of the text that is no trivia, with the start rule
unless there is no such token.

- `Lexer.textIds`, `TokenStream.ofText`: the tokens of a text, and the stream that the parser reads;
- `Parser.ids_start`: **at first all tokens of the text are to come**;
- `Parser.task_start`: what is to be done first;
- `sampleTable`, `sampleText`: a table and a text for the small grammar.
-/

namespace FrontEnd

/-- The ids of the tokens of a text, trivia left out. -/
def Lexer.textIds (table : TokenTable) (text : List Char) : List TokenId :=
  (tokenize table .skip text).1.toList.map Token.id

/-- The tokens of a text as the parser reads them. -/
def TokenStream.ofText (table : TokenTable) (text : List Char) (depth : Nat) : TokenStream :=
  .ofLexer (.ofText table .skip text) depth

namespace Parser

variable {table : TokenTable} {text : List Char}

theorem stays_start (p : Parser) (stream : TokenStream) :
    (ParseState.ofStream stream).Stays (p.start stream).state :=
  (ParseState.ofStream stream).stays_fill 0

theorem honest_start (p : Parser) (lexer : Lexer) (depth : Nat) :
    (p.start (.ofLexer lexer depth)).state.Honest := by
  refine (stays_start p _).honest ⟨fun t ht => ?_, fun h => absurd rfl h⟩
  cases ht

theorem ids_start (p : Parser) (table : TokenTable) (text : List Char) (depth : Nat) :
    (p.start (.ofText table text depth)).state.ids = Lexer.textIds table text := by
  rw [(stays_start p _).ids_eq]
  exact congrArg (List.map Token.id) (TokenStream.upcoming_ofLexer _ _)

theorem consumed_start (p : Parser) (table : TokenTable) (text : List Char) (depth : Nat) :
    (p.start (.ofText table text depth)).state.consumed = 0 :=
  (stays_start p _).consumed_eq

theorem ne_eof_of_mem_textIds {t : TokenId} (h : t ∈ Lexer.textIds table text) : t ≠ .eof := by
  obtain ⟨token, htoken, rfl⟩ := List.mem_map.1 h
  rw [Lexer.tokenize_toList] at htoken
  exact Lexer.id_ne_eof htoken

theorem headD_textIds_ne_eof (h : Lexer.textIds table text ≠ []) :
    (Lexer.textIds table text).headD .eof ≠ .eof := by
  cases hlist : Lexer.textIds table text with
  | nil => exact absurd hlist h
  | cons t ts => exact ne_eof_of_mem_textIds (hlist ▸ List.mem_cons_self)

/-- A parse begins with the start rule when there is a token. -/
theorem task_start (p : Parser) (depth : Nat) (hne : Lexer.textIds table text ≠ []) :
    (p.start (.ofText table text depth)).task = .rule p.grammar.start (.single .eof) ∧
      (p.start (.ofText table text depth)).frames = [] := by
  have hids := ids_start p table text depth
  have hnext : (p.start (.ofText table text depth)).state.current.id ≠ .eof := by
    have hcur := ParseState.id_current_fill (ParseState.ofStream (.ofText table text depth))
    have hofids : (ParseState.ofStream (.ofText table text depth)).ids
        = Lexer.textIds table text := (stays_start p _).ids_eq.symm.trans hids
    rw [ParseState.next, hofids] at hcur
    exact fun heq => headD_textIds_ne_eof hne (hcur.symm.trans heq)
  exact ⟨if_neg hnext, rfl⟩

end Parser

/-! ## The tokens of the small grammar -/

/-- The tokens of the small grammar are single characters; these are their numbers. -/
def sampleTokens : List (Char × Fin 65536) :=
  [('x', 0), ('-', 1), ('+', 2), ('(', 3), (')', 4), ('*', 5)]

/-- The table of the small grammar: names are x, and every other token is one character. -/
def sampleTable : TokenTable where
  rules := #[⟨"name", .literal ['x'], false⟩, ⟨"minus", .literal ['-'], false⟩,
    ⟨"plus", .literal ['+'], false⟩, ⟨"open", .literal ['('], false⟩,
    ⟨"close", .literal [')'], false⟩, ⟨"times", .literal ['*'], false⟩]
  byName := .ofList [("name", .kind 0), ("minus", .kind 1), ("plus", .kind 2), ("open", .kind 3),
    ("close", .kind 4), ("times", .kind 5)]
  literals := .ofList (sampleTokens.map fun (c, n) => (c.toNat, #[n]))
  patterns := #[]
  size_le := by decide

section Sample

variable {c : Char} {n : Fin 65536} {row : List (Char × Fin 65536)}

/-- Each of the characters is found, whatever is behind it. -/
theorem longestMatch_sampleTable (h : (c, n) ∈ sampleTokens) (w : Workspace) (rest : List Char) :
    sampleTable.longestMatch w (c :: rest) = (some ⟨n, 1, false, Nat.one_pos⟩, w) := by
  have hliterals : sampleTable.literals.getD c.toNat #[] = #[n] :=
    Std.HashMap.getD_ofList_of_mem (by simp) (by decide) (List.mem_map_of_mem h)
  have hfound : sampleTable.longestMatch w (c :: rest)
      = ((sampleTable.literals.getD c.toNat #[]).foldl (sampleTable.offerLiteral (c :: rest)) none,
        w) := rfl
  rw [hfound, hliterals]
  simp only [sampleTokens, List.mem_cons, Prod.mk.injEq, List.not_mem_nil, or_false] at h
  rcases h with ⟨rfl, rfl⟩ | ⟨rfl, rfl⟩ | ⟨rfl, rfl⟩ | ⟨rfl, rfl⟩ | ⟨rfl, rfl⟩ | ⟨rfl, rfl⟩ <;> rfl

/-- A lexer makes a token of each of the characters. -/
theorem ids_tokens_sampleTable (hrow : row ⊆ sampleTokens) {l : Lexer} (ht : l.table = sampleTable)
    (hrest : l.cursor.rest = row.map Prod.fst) :
    l.tokens.map Token.id = row.map fun x => .kind x.2 := by
  induction row generalizing l with
  | nil => rw [Lexer.tokens_of_next_none (Lexer.next_nil hrest), List.map_nil, List.map_nil]
  | cons x row ih =>
    obtain ⟨hx, hrow⟩ := List.cons_subset.1 hrow
    have hmatch := longestMatch_sampleTable hx l.workspace (row.map Prod.fst)
    have hone : ∀ x ∈ sampleTokens, Text.size [x.1] = 1 := by decide
    rw [← ht] at hmatch
    rw [Lexer.tokens_of_next_some (Lexer.next_lexeme hrest hmatch nofun), List.map_cons,
      List.map_cons, ih hrow]
    · rfl
    · exact ht
    · show (l.cursor.advanceBy 1).rest = _
      rw [← hone x hx]
      exact Cursor.rest_advanceBy hrest

end Sample

/-- The tokens of a row of the characters. -/
theorem textIds_sampleTable {row : List (Char × Fin 65536)} (hrow : row ⊆ sampleTokens) :
    Lexer.textIds sampleTable (row.map Prod.fst) = row.map fun x => .kind x.2 := by
  rw [Lexer.textIds, Lexer.tokenize_toList]
  exact ids_tokens_sampleTable hrow rfl rfl

/-- A name alone. -/
theorem textIds_sampleTable_name : Lexer.textIds sampleTable ['x'] = [.kind 0] :=
  textIds_sampleTable (show [('x', 0)] ⊆ sampleTokens by decide)

/-- A sign, two operators one of which binds stronger, and parentheses. -/
def sampleRow : List (Char × Fin 65536) := [('-', 1), ('x', 0), ('+', 2), ('x', 0), ('*', 5),
  ('(', 3), ('x', 0), ('+', 2), ('x', 0), (')', 4)]

/-- Their text. -/
def sampleText : List Char := sampleRow.map Prod.fst

theorem textIds_sampleText :
    Lexer.textIds sampleTable sampleText = sampleRow.map fun x => .kind x.2 :=
  textIds_sampleTable (by decide)

end FrontEnd
