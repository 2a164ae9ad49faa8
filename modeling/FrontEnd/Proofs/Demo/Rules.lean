import FrontEnd.Demo
import FrontEnd.Proofs.Grammar.Checked
import FrontEnd.Proofs.Parser.Skipping

/-!
# The rules of the demonstration language

The grammar of the language over a table that numbers the tokens in the order of their declaration,
as the parser sees it: each alternative with the tokens that can begin it, and each symbol with the
tokens that can come behind it.

- `Demo.rules`, `Demo.built`: the grammar;
- `Demo.bodies`: **what the analysis makes of its rules**;
- `Demo.shelters`: expressions hold no token where skipping stops.
-/

namespace FrontEnd

namespace Demo

/-! ## Tokens -/

def letWord : TokenId := .kind 2

def printWord : TokenId := .kind 3

def ifWord : TokenId := .kind 4

def elseWord : TokenId := .kind 5

def whileWord : TokenId := .kind 6

def trueWord : TokenId := .kind 7

def falseWord : TokenId := .kind 8

def equalsSign : TokenId := .kind 13

def minusSign : TokenId := .kind 17

def notSign : TokenId := .kind 22

def semicolon : TokenId := .kind 23

def openBrace : TokenId := .kind 24

def closeBrace : TokenId := .kind 25

def openParen : TokenId := .kind 26

def closeParen : TokenId := .kind 27

def number : TokenId := .kind 28

def string : TokenId := .kind 29

def identifier : TokenId := .kind 30

/-- The operators of expressions. -/
def operatorTable : Operators where
  operand := primary
  prefixes := [⟨minusSign, 6⟩, ⟨notSign, 6⟩]
  binaries := [⟨.kind 9, 1, .left⟩, ⟨.kind 10, 1, .left⟩, ⟨.kind 14, 2, .left⟩,
    ⟨.kind 11, 2, .left⟩, ⟨.kind 15, 2, .left⟩, ⟨.kind 12, 2, .left⟩, ⟨.kind 16, 3, .left⟩,
    ⟨minusSign, 3, .left⟩, ⟨.kind 18, 4, .left⟩, ⟨.kind 19, 4, .left⟩, ⟨.kind 20, 4, .left⟩,
    ⟨.kind 21, 5, .right⟩]

/-- Where skipping stops. -/
def stops : TokenSet :=
  .ofList [semicolon, openBrace, closeBrace, letWord, printWord, ifWord, whileWord]

/-! ## Declarations -/

/-- The definitions of the rules. -/
def ruleDefinitions : List GrammarDecl := [
  .define program [plain [.many stmt]],
  .define stmt [
    ⟨[.rule assignStmt], [identifier, equalsSign]⟩,
    plain [.rule letStmt],
    plain [.rule printStmt],
    plain [.rule ifStmt],
    plain [.rule whileStmt],
    plain [.rule block],
    plain [.rule exprStmt]],
  .define assignStmt [
    plain [.token identifier, .token equalsSign, .rule expr, .token semicolon]],
  .define letStmt [
    plain [.token letWord, .token identifier, .token equalsSign, .rule expr, .token semicolon]],
  .define printStmt [plain [.token printWord, .rule expr, .token semicolon]],
  .define ifStmt [plain [.token ifWord, .rule expr, .rule block, .opt elseClause]],
  .define elseClause [plain [.token elseWord, .rule elseBody]],
  .define elseBody [plain [.rule block], plain [.rule ifStmt]],
  .define whileStmt [plain [.token whileWord, .rule expr, .rule block]],
  .define block [plain [.token openBrace, .many stmt, .token closeBrace]],
  .define exprStmt [plain [.rule expr, .token semicolon]],
  .defineExpression expr operatorTable,
  .define primary [
    plain [.token number],
    plain [.token string],
    plain [.token identifier],
    plain [.token trueWord],
    plain [.token falseWord],
    plain [.rule group]],
  .define group [plain [.token openParen, .rule expr, .token closeParen]]]

/-- All declarations. -/
def builtDecls : List GrammarDecl :=
  ruleNames.map .declare ++ ruleDefinitions ++ transparentRules.map .transparent ++ [.start program]

/-- The grammar. -/
def built : Grammar := (GrammarDraft.ofDecls builtDecls).finished program

/-- Ranks that fall from a rule to the rules that it can begin with. -/
def ranks : Array Nat := #[5, 4, 0, 0, 0, 0, 0, 1, 0, 0, 3, 2, 1, 0]

theorem ranks_fall (r : Nat) :
    ∀ s ∈ Analysis.leftEdges (GrammarDraft.ofDecls builtDecls).rules
      (Analysis.nullables (GrammarDraft.ofDecls builtDecls).rules) r,
      ranks.getD s 0 < ranks.getD r 0 := by
  by_cases hr : r < 14
  · revert r
    decide +kernel
  · have hsize : (GrammarDraft.ofDecls builtDecls).rules.size = 14 := by decide +kernel
    rw [Analysis.leftEdges_of_size_le _ (hsize.le.trans (Nat.le_of_not_lt hr))]
    exact nofun

theorem ofDecls_built : Grammar.ofDecls builtDecls = .ok built := by
  refine GrammarDraft.build_eq_ok_iff.2 ⟨program, ?_, ?_, ?_, rfl⟩
  · decide +kernel
  · decide +kernel
  · exact Analysis.leftRecursive?_eq_none ranks_fall

/-! ## Rules as the parser sees them -/

/-- The tokens that begin an expression. -/
def exprFirst : TokenSet :=
  .ofList [trueWord, falseWord, minusSign, notSign, openParen, number, string, identifier]

/-- The tokens that begin a statement. -/
def stmtFirst : TokenSet :=
  exprFirst.insertMany [letWord, printWord, ifWord, whileWord, openBrace]

/-- A rule that stands for another one. -/
def relay (r : Nat) (first : TokenSet) : Alternative :=
  ⟨plain [.rule r], first, false, [⟨.rule r, ∅, true⟩]⟩

/-- One token that stands for an operand. -/
def leaf (id : TokenId) : Alternative :=
  ⟨plain [.token id], .single id, false, [⟨.token id, ∅, true⟩]⟩

/-- An expression and a semicolon. -/
def exprSteps : List Step :=
  [⟨.rule expr, .single semicolon, false⟩, ⟨.token semicolon, ∅, true⟩]

/-- What comes behind the identifier of an assignment. -/
def valueSteps : List Step := ⟨.token equalsSign, exprFirst, false⟩ :: exprSteps

def assignSteps : List Step := ⟨.token identifier, .single equalsSign, false⟩ :: valueSteps

def letSteps : List Step := ⟨.token letWord, .single identifier, false⟩ :: assignSteps

def printSteps : List Step := ⟨.token printWord, exprFirst, false⟩ :: exprSteps

/-- A condition and a block. -/
def ifSteps : List Step := [⟨.token ifWord, exprFirst, false⟩,
  ⟨.rule expr, .single openBrace, false⟩, ⟨.rule block, .single elseWord, true⟩,
  ⟨.opt elseClause, ∅, true⟩]

def elseSteps : List Step :=
  [⟨.token elseWord, .ofList [openBrace, ifWord], false⟩, ⟨.rule elseBody, ∅, true⟩]

def whileSteps : List Step := [⟨.token whileWord, exprFirst, false⟩,
  ⟨.rule expr, .single openBrace, false⟩, ⟨.rule block, ∅, true⟩]

/-- What comes behind an opening brace. -/
def blockSteps : List Step :=
  [⟨.many stmt, .single closeBrace, false⟩, ⟨.token closeBrace, ∅, true⟩]

def groupSteps : List Step := [⟨.token openParen, exprFirst, false⟩,
  ⟨.rule expr, .single closeParen, false⟩, ⟨.token closeParen, ∅, true⟩]

/-- The alternative of an assignment. -/
def assignAlternative : Alternative :=
  ⟨⟨[.rule assignStmt], [identifier, equalsSign]⟩, .single identifier, false,
    [⟨.rule assignStmt, ∅, true⟩]⟩

/-- The alternatives of a statement. -/
def stmtAlternatives : List Alternative :=
  [assignAlternative, relay letStmt (.single letWord), relay printStmt (.single printWord),
    relay ifStmt (.single ifWord), relay whileStmt (.single whileWord),
    relay block (.single openBrace), relay exprStmt exprFirst]

/-- The alternatives of what an `else` is followed by. -/
def elseAlternatives : List Alternative :=
  [relay block (.single openBrace), relay ifStmt (.single ifWord)]

/-- The alternatives of an operand. -/
def primaryAlternatives : List Alternative :=
  [leaf number, leaf string, leaf identifier, leaf trueWord, leaf falseWord,
    relay group (.single openParen)]

/-- What the rules consist of. -/
def bodies : Array (RuleBody Alternative) := #[
  .sequence [⟨plain [.many stmt], stmtFirst, true, [⟨.many stmt, ∅, true⟩]⟩],
  .sequence stmtAlternatives,
  .sequence [⟨plain (assignSteps.map Step.symbol), .single identifier, false, assignSteps⟩],
  .sequence [⟨plain (letSteps.map Step.symbol), .single letWord, false, letSteps⟩],
  .sequence [⟨plain (printSteps.map Step.symbol), .single printWord, false, printSteps⟩],
  .sequence [⟨plain (ifSteps.map Step.symbol), .single ifWord, false, ifSteps⟩],
  .sequence [⟨plain (elseSteps.map Step.symbol), .single elseWord, false, elseSteps⟩],
  .sequence elseAlternatives,
  .sequence [⟨plain (whileSteps.map Step.symbol), .single whileWord, false, whileSteps⟩],
  .sequence [⟨plain (.token openBrace :: blockSteps.map Step.symbol), .single openBrace, false,
    ⟨.token openBrace, stmtFirst.insert closeBrace, false⟩ :: blockSteps⟩],
  .sequence [⟨plain (exprSteps.map Step.symbol), exprFirst, false, exprSteps⟩],
  .expression operatorTable,
  .sequence primaryAlternatives,
  .sequence [⟨plain (groupSteps.map Step.symbol), .single openParen, false, groupSteps⟩]]

/-- The analysis makes this of the rules. -/
theorem map_body_built : built.rules.map Rule.body = bodies := by
  decide +kernel

theorem body_built (r : Nat) : built.body r = bodies[r]?.getD .undefined := by
  rw [← map_body_built, Array.getElem?_map]
  rfl

/-- The tokens that begin the rules, in the order of the rules. -/
theorem first_built : built.first = #[stmtFirst, stmtFirst, .single identifier, .single letWord,
    .single printWord, .single ifWord, .single elseWord, .ofList [openBrace, ifWord],
    .single whileWord, .single openBrace, exprFirst, exprFirst,
    .ofList [trueWord, falseWord, openParen, number, string, identifier], .single openParen] := by
  decide +kernel

theorem transparent_built : built.rules.map Rule.transparent = #[true, true, false, false, false,
    false, false, true, false, false, false, false, true, false] := by
  decide +kernel

/-- The parser of the language. -/
def parser : Parser := ⟨built, stops⟩

/-- The bodies of the rules. -/
theorem body_grammar (r : Nat) : parser.grammar.body r = bodies[r]?.getD .undefined := body_built r

theorem firstOf_stmt : parser.grammar.firstOf stmt = stmtFirst := by
  rw [Grammar.firstOf, parser, first_built]
  rfl

theorem isTransparent_grammar (r : Nat) :
    parser.grammar.isTransparent r = (built.rules.map Rule.transparent)[r]?.getD false := by
  rw [Array.getElem?_map]
  rfl

/-- Statements of each kind have nodes of their own, and statements as such do not. -/
theorem hasNode_grammar :
    parser.hasNode stmt = false ∧ ∀ r ∈ [assignStmt, letStmt, printStmt, ifStmt, whileStmt, block,
      exprStmt], parser.hasNode r = true := by
  unfold Parser.hasNode
  simp only [isTransparent_grammar, transparent_built, body_grammar]
  decide

/-! ## Expressions -/

/-- The rules of expressions. -/
def Inner (r : Nat) : Prop := r = expr ∨ r = primary ∨ r = group

instance : DecidablePred Inner := fun r =>
  inferInstanceAs (Decidable (r = expr ∨ r = primary ∨ r = group))

theorem outside_of_exprFirst {id : TokenId} (h : exprFirst.contains id = true) :
    stops.contains id = false ∧ id ≠ .eof := by
  have hall : ∀ id ∈ [trueWord, falseWord, minusSign, notSign, openParen, number, string,
      identifier], stops.contains id = false ∧ id ≠ .eof := by decide
  rw [exprFirst, TokenSet.contains_ofList] at h
  exact hall id (List.contains_iff_mem.1 h)

theorem contains_of_union_eq {a b : TokenSet} {id : TokenId} (h : a.union b = b)
    (ha : a.contains id = true) : b.contains id = true := by
  rw [← h, TokenSet.contains_union, ha, Bool.true_or]

variable {r : Nat} {as : List Alternative} {ops : Operators}

theorem sequence_of_inner (hr : Inner r) (hb : parser.grammar.body r = .sequence as) :
    as = primaryAlternatives ∨
      as = [⟨plain (groupSteps.map Step.symbol), .single openParen, false, groupSteps⟩] := by
  rw [body_grammar] at hb
  rcases hr with rfl | rfl | rfl
  · cases hb
  · cases hb
    exact .inl rfl
  · cases hb
    exact .inr rfl

theorem expression_of_inner (hr : Inner r) (hb : parser.grammar.body r = .expression ops) :
    ops = operatorTable := by
  rw [body_grammar] at hb
  rcases hr with rfl | rfl | rfl
  · cases hb
    rfl
  · cases hb
  · cases hb

/-- Expressions hold no token where skipping stops. -/
theorem shelters : parser.grammar.Shelters parser.sync Inner where
  unguarded := by
    intro r as a hr hb
    rcases sequence_of_inner hr hb with rfl | rfl <;> revert a <;> decide
  solid := by
    intro r as a hr hb
    rcases sequence_of_inner hr hb with rfl | rfl <;> revert a <;> decide
  inside := by
    intro r as a hr hb
    rcases sequence_of_inner hr hb with rfl | rfl <;> revert a <;> decide
  begins := by
    intro r as a id hr hb ha hfirst
    have hsub : a.first.union exprFirst = exprFirst := by
      clear hfirst
      revert a
      rcases sequence_of_inner hr hb with rfl | rfl <;> decide
    exact outside_of_exprFirst (contains_of_union_eq hsub hfirst)
  operand := by
    intro r ops hr hb
    rw [expression_of_inner hr hb]
    exact .inr (.inl rfl)
  signs := by
    intro r ops id n hr hb hop
    have hall : ∀ op ∈ operatorTable.prefixes, stops.contains op.token = false := by decide
    rw [expression_of_inner hr hb, Operators.prefixPrecedence?, Option.map_eq_some_iff] at hop
    obtain ⟨op, hfind, -⟩ := hop
    have htoken := List.find?_some hfind
    exact beq_iff_eq.1 htoken ▸ hall op (List.mem_of_find?_eq_some hfind)
  links := by
    intro r ops id op hr hb hop
    have hall : ∀ op ∈ operatorTable.binaries, stops.contains op.token = false := by decide
    rw [expression_of_inner hr hb] at hop
    have htoken := List.find?_some hop
    exact beq_iff_eq.1 htoken ▸ hall op (List.mem_of_find?_eq_some hop)
  first := by
    intro r id hr hfirst
    rw [Grammar.firstOf, parser, first_built] at hfirst
    refine outside_of_exprFirst (contains_of_union_eq ?_ hfirst)
    rcases hr with rfl | rfl | rfl <;> decide

/-! ## Choices -/

/-- Without an identifier and an equals sign in front, a statement is chosen by its first token. -/
theorem choose_stmt {id : TokenId} {ids : List TokenId}
    (h : ParseState.guardAhead (id :: ids) [identifier, equalsSign] = false) :
    ParseState.choose stmtAlternatives (id :: ids) =
      (ParseState.candidates stmtAlternatives id).head?.or
        (ParseState.fallback stmtAlternatives id) := by
  have hguard : stmtAlternatives.find? (fun a => !a.guard.isEmpty &&
      ParseState.guardAhead (id :: ids) a.guard) = none := by
    simp [stmtAlternatives, assignAlternative, relay, plain, h]
  rw [ParseState.choose, hguard]
  rfl

/-- A statement that begins with the first token of an expression is an assignment or an
expression. -/
theorem choose_value {id : TokenId} (ids : List TokenId) (h : exprFirst.contains id = true) :
    ParseState.choose stmtAlternatives (id :: ids) =
      some (if ParseState.guardAhead (id :: ids) [identifier, equalsSign] then assignAlternative
        else relay exprStmt exprFirst) := by
  cases hguard : ParseState.guardAhead (id :: ids) [identifier, equalsSign] with
  | true =>
    have hfind : stmtAlternatives.find? (fun a => !a.guard.isEmpty &&
        ParseState.guardAhead (id :: ids) a.guard) = some assignAlternative := by
      simp [stmtAlternatives, assignAlternative, hguard]
    rw [ParseState.choose, hfind]
    rfl
  | false =>
    have hall : ∀ id ∈ [trueWord, falseWord, minusSign, notSign, openParen, number, string,
        identifier], (ParseState.candidates stmtAlternatives id).head?
          = some (relay exprStmt exprFirst) := by decide
    rw [exprFirst, TokenSet.contains_ofList] at h
    rw [choose_stmt hguard, hall id (List.contains_iff_mem.1 h)]
    rfl

/-- The rules of the statements that begin with a token where skipping stops. -/
def keywordRules : List (TokenId × Nat) :=
  [(letWord, letStmt), (printWord, printStmt), (ifWord, ifStmt), (whileWord, whileStmt),
    (openBrace, block)]

theorem choose_keyword {id : TokenId} {r : Nat} (h : (id, r) ∈ keywordRules)
    (ids : List TokenId) :
    ParseState.choose stmtAlternatives (id :: ids) = some (relay r (.single id)) := by
  have hall : ∀ e ∈ keywordRules, (e.1 == identifier) = false ∧
      (ParseState.candidates stmtAlternatives e.1).head? = some (relay e.2 (.single e.1)) := by
    decide
  obtain ⟨hother, hhead⟩ := hall _ h
  have hguard : ParseState.guardAhead (id :: ids) [identifier, equalsSign] = false := by
    rw [ParseState.guardAhead, List.headD_cons, hother, Bool.false_and]
  rw [choose_stmt hguard, hhead]
  rfl

/-- Behind `else` only a block or another condition is chosen. -/
theorem choose_else (ids : List TokenId) :
    ParseState.choose elseAlternatives ids =
      if ids.headD .eof = openBrace then some (relay block (.single openBrace))
      else if ids.headD .eof = ifWord then some (relay ifStmt (.single ifWord)) else none := by
  have hguard : elseAlternatives.find? (fun a => !a.guard.isEmpty &&
      ParseState.guardAhead ids a.guard) = none := by
    simp [elseAlternatives, relay, plain]
  rw [ParseState.choose, hguard, Option.none_or]
  generalize ids.headD .eof = id
  by_cases hbrace : id = openBrace
  · subst hbrace
    rfl
  by_cases hif : id = ifWord
  · subst hif
    rfl
  · simp [ParseState.candidates, ParseState.fallback, elseAlternatives, relay, plain, hbrace, hif,
      Ne.symm hbrace, Ne.symm hif]

end Demo

end FrontEnd
