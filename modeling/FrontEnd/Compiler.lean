import FrontEnd.Parser.Machine
import FrontEnd.Source.Buffer

/-!
# Compiling

A configuration is a language together with how far the parser may look ahead. It is checked once
and then used for any number of texts: **a configuration that was accepted looks as far ahead as
the guards of its grammar need**.

- `ConfigDraft.build`: checks a configuration;
- `Config.compile?`: the tree and the reports of a text.
-/

namespace FrontEnd

/-- What is wrong with a configuration. -/
inductive ConfigError where
  | missingTable
  | missingGrammar
  | zeroLookahead
  | lookaheadTooShallow (needed given : Nat)
  | unknownSyncToken (id : TokenId)
  deriving DecidableEq, Repr

/-- The message of an error. -/
def ConfigError.message : ConfigError → String
  | missingTable => "no token table was given"
  | missingGrammar => "no grammar was given"
  | zeroLookahead => "lookahead depth must be at least 1"
  | lookaheadTooShallow needed given =>
    s!"grammar guards need {needed} tokens of lookahead, but the depth is {given}"
  | unknownSyncToken id =>
    "synchronization token " ++ id.render ++ " is not defined by the token table"

/-- A configuration before it is checked. -/
structure ConfigDraft where
  table : Option TokenTable
  grammar : Option Grammar
  /-- Where skipping ends; an empty set means at the end of the input only. -/
  sync : TokenSet
  /-- As much as the grammar needs, unless it is given. -/
  lookahead : Option Nat

/-- A language, and how far the parser may look ahead. -/
structure Config where
  table : TokenTable
  grammar : Grammar
  sync : TokenSet
  lookahead : Nat

/-- A tree with the reports about its text. -/
structure Compilation where
  tree : SyntaxTree
  log : DiagnosticLog

namespace ConfigDraft

/-- Can the parser meet the token? -/
def defines (table : TokenTable) : TokenId → Bool
  | .eof => true
  | .unknown => false
  | .kind n => n.val < table.size

/-- The lookahead, when it is enough for the grammar. -/
def checkedLookahead (given : Option Nat) (needed : Nat) : Except ConfigError Nat :=
  match given with
  | none => .ok needed
  | some 0 => .error .zeroLookahead
  | some given =>
    if given < needed then .error (.lookaheadTooShallow needed given) else .ok given

/-- The checked configuration. -/
def build (d : ConfigDraft) : Except ConfigError Config :=
  match d.table, d.grammar with
  | none, _ => .error .missingTable
  | some _, none => .error .missingGrammar
  | some table, some grammar => do
    let lookahead ← checkedLookahead d.lookahead grammar.lookahead
    match d.sync.members.find? fun id => !defines table id with
    | some id => .error (.unknownSyncToken id)
    | none => .ok ⟨table, grammar, d.sync, lookahead⟩

end ConfigDraft

namespace Config

/-- What the tokens and rules of the language are called. -/
def names (c : Config) : Names := ⟨c.table.name, c.grammar.ruleName⟩

/-- The parser of the language. -/
def parser (c : Config) : Parser := ⟨c.grammar, c.sync⟩

/-- The tokens of a text, without trivia. -/
def stream (c : Config) (source : SourceBuffer) : TokenStream :=
  .ofLexer (.ofText c.table .skip source.chars) c.lookahead

/-- The tree and the reports of a text, if its parse ends. -/
def compile? (c : Config) (source : SourceBuffer) : Option Compilation :=
  (c.parser.parse? (c.stream source)).map fun p =>
    ⟨p.tree, DiagnosticLog.empty.extend p.diagnostics⟩

end Config

end FrontEnd
