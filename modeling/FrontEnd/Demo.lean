import FrontEnd.Compiler
import FrontEnd.Grammar.Build
import FrontEnd.TokenTable.Build

/-!
# The demonstration language

A small language of statements, with an identifier and an equals sign telling an assignment from an
expression. All operators group to the left but the power sign.

| precedence | operators        |
|------------|------------------|
| 1          | equal, not equal |
| 2          | comparisons      |
| 3          | plus, minus      |
| 4          | times, divided by, remainder |
| 5          | power            |
| 6          | prefix minus, prefix not |

- `Demo.table`, `Demo.grammar`, `Demo.sync`: the parts of the language;
- `Demo.config`: all of it.
-/

namespace FrontEnd

/-- Why a language cannot be put together. -/
inductive LanguageError where
  | table (e : TableError)
  | grammar (e : GrammarError)
  | config (e : ConfigError)
  | missingToken (name : String)
  deriving DecidableEq, Repr

/-- The message of an error. -/
def LanguageError.message : LanguageError → String
  | table e => "token table: " ++ e.message
  | grammar e => "grammar: " ++ e.message
  | config e => "configuration: " ++ e.message
  | missingToken name => "token `" ++ name ++ "` is missing from the table"

namespace Demo

/-! ## Tokens -/

/-- The reserved words. -/
def keywords : List String := ["let", "print", "if", "else", "while", "true", "false"]

/-- Operators and punctuation. -/
def operators : List String :=
  ["==", "!=", "<=", ">=", "=", "<", ">", "+", "-", "*", "/", "%", "^", "!", ";", "\x7b", "\x7d",
    "(", ")"]

/-- The rules of the table, in order. -/
def tokenDecls : List LexemeDecl :=
  [.ofTrivia "whitespace" "\\s+", .ofTrivia "comment" "//[^\\n]*"] ++
    keywords.map .ofLiteral ++ operators.map .ofLiteral ++
    [.ofPattern "number" "\\d+(\\.\\d+)?",
      .ofPattern "string" "\"([^\"\\\\\\n]|\\\\.)*\"",
      .ofPattern "identifier" "[a-zA-Z_]\\w*"]

/-- The token table. -/
def table : Except TableError TokenTable := TokenTable.ofDecls tokenDecls

/-- A token of a table by name. -/
def token (t : TokenTable) (name : String) : Except LanguageError TokenId :=
  match t.id? name with
  | some id => .ok id
  | none => .error (.missingToken name)

/-- The token of a fixed text. -/
def literal (t : TokenTable) (text : String) : Except LanguageError TokenId :=
  token t ("`" ++ text ++ "`")

/-- Where skipping ends: the words that begin statements, and what stands between statements. -/
def syncTexts : List String := [";", "\x7b", "\x7d", "let", "print", "if", "while"]

/-- The tokens at which skipping ends. -/
def sync (t : TokenTable) : Except LanguageError TokenSet :=
  (syncTexts.mapM (literal t)).map .ofList

/-! ## Rules -/

/-- The names of the rules, in the order of their numbers. -/
def ruleNames : List String :=
  ["program", "stmt", "assign_stmt", "let_stmt", "print_stmt", "if_stmt", "else_clause",
    "else_body", "while_stmt", "block", "expr_stmt", "expr", "primary", "group"]

/-- The number of the rule of whole programs. -/
def program : Nat := 0

/-- The number of the rule of statements. -/
def stmt : Nat := 1

/-- The number of the rule of assignments. -/
def assignStmt : Nat := 2

/-- The number of the rule of definitions. -/
def letStmt : Nat := 3

/-- The number of the rule of print statements. -/
def printStmt : Nat := 4

/-- The number of the rule of conditional statements. -/
def ifStmt : Nat := 5

/-- The number of the rule of the part behind a condition that fails. -/
def elseClause : Nat := 6

/-- The number of the rule of what such a part consists of. -/
def elseBody : Nat := 7

/-- The number of the rule of loops. -/
def whileStmt : Nat := 8

/-- The number of the rule of statements in braces. -/
def block : Nat := 9

/-- The number of the rule of expressions that are statements. -/
def exprStmt : Nat := 10

/-- The number of the rule of expressions. -/
def expr : Nat := 11

/-- The number of the rule of operands. -/
def primary : Nat := 12

/-- The number of the rule of expressions in parentheses. -/
def group : Nat := 13

/-- A production without a guard. -/
def plain (symbols : List Symbol) : Production := ⟨symbols, []⟩

/-- The prefix operators. -/
def prefixTexts : List String := ["-", "!"]

/-- The binary operators by precedence. -/
def levels : List (List String × Fin 256 × Associativity) :=
  [(["==", "!="], 1, .left), (["<", "<=", ">", ">="], 2, .left), (["+", "-"], 3, .left),
    (["*", "/", "%"], 4, .left), (["^"], 5, .right)]

/-- The operators of expressions, over a table. -/
def expressionOps (t : TokenTable) : Except LanguageError Operators := do
  let prefixes ← prefixTexts.mapM fun text => do
    return PrefixOperator.mk (← literal t text) 6
  let binaries ← levels.mapM fun (texts, precedence, associativity) =>
    texts.mapM fun text => do
      return BinaryOperator.mk (← literal t text) precedence associativity
  return ⟨primary, prefixes, binaries.flatten⟩

/-- The definitions of the rules, over a table. The first name that the table does not have is
reported. -/
def definitions (t : TokenTable) : Except LanguageError (List GrammarDecl) := do
  let number ← token t "number"
  let string ← token t "string"
  let ident ← token t "identifier"
  let equals ← literal t "="
  let semicolon ← literal t ";"
  let letWord ← literal t "let"
  let printWord ← literal t "print"
  let ifWord ← literal t "if"
  let elseWord ← literal t "else"
  let whileWord ← literal t "while"
  let openBrace ← literal t "\x7b"
  let closeBrace ← literal t "\x7d"
  let ops ← expressionOps t
  let trueWord ← literal t "true"
  let falseWord ← literal t "false"
  let openParen ← literal t "("
  let closeParen ← literal t ")"
  return [
    .define program [plain [.many stmt]],
    .define stmt [
      ⟨[.rule assignStmt], [ident, equals]⟩,
      plain [.rule letStmt],
      plain [.rule printStmt],
      plain [.rule ifStmt],
      plain [.rule whileStmt],
      plain [.rule block],
      plain [.rule exprStmt]],
    .define assignStmt [plain [.token ident, .token equals, .rule expr, .token semicolon]],
    .define letStmt [
      plain [.token letWord, .token ident, .token equals, .rule expr, .token semicolon]],
    .define printStmt [plain [.token printWord, .rule expr, .token semicolon]],
    .define ifStmt [plain [.token ifWord, .rule expr, .rule block, .opt elseClause]],
    .define elseClause [plain [.token elseWord, .rule elseBody]],
    .define elseBody [plain [.rule block], plain [.rule ifStmt]],
    .define whileStmt [plain [.token whileWord, .rule expr, .rule block]],
    .define block [plain [.token openBrace, .many stmt, .token closeBrace]],
    .define exprStmt [plain [.rule expr, .token semicolon]],
    .defineExpression expr ops,
    .define primary [
      plain [.token number],
      plain [.token string],
      plain [.token ident],
      plain [.token trueWord],
      plain [.token falseWord],
      plain [.rule group]],
    .define group [plain [.token openParen, .rule expr, .token closeParen]]]

/-- The rules whose nodes go to their parents. -/
def transparentRules : List Nat := [program, stmt, elseBody, primary]

/-- All declarations of the grammar, over a table. -/
def grammarDecls (t : TokenTable) : Except LanguageError (List GrammarDecl) := do
  let definitions ← definitions t
  return ruleNames.map .declare ++ definitions ++ transparentRules.map .transparent ++
    [.start program]

/-- The grammar over a table. -/
def grammar (t : TokenTable) : Except LanguageError Grammar := do
  (Grammar.ofDecls (← grammarDecls t)).mapError .grammar

/-- The whole language. -/
def config : Except LanguageError Config := do
  let table ← table.mapError .table
  let grammar ← grammar table
  let sync ← sync table
  (ConfigDraft.build ⟨some table, some grammar, sync, none⟩).mapError .config

end Demo

end FrontEnd
