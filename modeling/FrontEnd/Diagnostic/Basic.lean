import FrontEnd.Token.Basic
import FrontEnd.Text.Escape

/-!
# Diagnostics

A diagnostic is a structured report about the input: a code, a severity, a message, a place, and
optionally a label for the place and notes. The wording for each code is made here and nowhere
else.

- `DiagnosticCode`: what can be reported, and by which stage;
- `Diagnostic.unrecognizedCharacter` and its neighbours: one constructor per code;
- `DiagnosticLog`: reports in the order of detection.
-/

namespace FrontEnd

/-- How much a report matters. -/
inductive Severity where
  | error
  | warning
  | info
  deriving DecidableEq, Repr, Inhabited

/-- The severity in one word. -/
def Severity.render : Severity → String
  | error => "error"
  | warning => "warning"
  | info => "info"

/-- The class of failure that a code belongs to. -/
inductive FailureKind where
  /-- A character that cannot be classified. -/
  | lexical
  /-- A token in the wrong place. -/
  | syntactic
  /-- A fault of the grammar, met while parsing. -/
  | structural
  deriving DecidableEq, Repr

/-- The class in words. -/
def FailureKind.render : FailureKind → String
  | lexical => "lexical error"
  | syntactic => "syntax error"
  | structural => "structural error"

/-- What can be reported. -/
inductive DiagnosticCode where
  /-- E0001: no rule of the token table matches. -/
  | unrecognizedCharacter
  /-- E1001: a token that the grammar does not allow here. -/
  | unexpectedToken
  /-- E1002: tokens behind the end of the start rule. -/
  | trailingInput
  /-- E2001: more than one production could start here. -/
  | ambiguousRule
  /-- E2002: a rule without productions was reached. -/
  | undefinedRule
  deriving DecidableEq, Repr, Inhabited

namespace DiagnosticCode

/-- Every code, in ascending order. -/
def all : List DiagnosticCode :=
  [unrecognizedCharacter, unexpectedToken, trailingInput, ambiguousRule, undefinedRule]

/-- The code as it is printed. -/
def render : DiagnosticCode → String
  | unrecognizedCharacter => "E0001"
  | unexpectedToken => "E1001"
  | trailingInput => "E1002"
  | ambiguousRule => "E2001"
  | undefinedRule => "E2002"

/-- The first digit of a code says which stage found the problem. -/
def kind : DiagnosticCode → FailureKind
  | unrecognizedCharacter => .lexical
  | unexpectedToken | trailingInput => .syntactic
  | ambiguousRule | undefinedRule => .structural

/-- An explanation in one line. -/
def description : DiagnosticCode → String
  | unrecognizedCharacter => "a character that no token rule classifies"
  | unexpectedToken => "a token the grammar does not allow at this point"
  | trailingInput => "input remaining after the start rule was complete"
  | ambiguousRule => "more than one production of a rule could start here"
  | undefinedRule => "a rule that was declared but never given productions"

/-- Reads a printed code; upper and lower case are the same. -/
def ofString? (s : String) : Option DiagnosticCode :=
  all.find? fun code => code.render.toList.map Char.toLower == s.toList.map Char.toLower

end DiagnosticCode

/-- A place in the source: where it starts, and how many bytes it has. -/
structure Location where
  start : Position
  length : Nat
  deriving DecidableEq, Repr, Inhabited

namespace Location

/-- The empty place at a position. -/
def point (p : Position) : Location := ⟨p, 0⟩

/-- The lexeme of a token. -/
def ofToken (t : Token) : Location := ⟨t.position, t.length⟩

/-- The bytes of the place. -/
def span (l : Location) : Span :=
  ⟨l.start.offset, Position.bounded (l.start.offset + l.length)⟩

end Location

/-- A report about the input. -/
structure Diagnostic where
  code : DiagnosticCode
  severity : Severity
  /-- What went wrong. -/
  message : String
  location : Location
  /-- Stands under the place when the source line is shown. -/
  label : Option String
  /-- Further lines of context. -/
  notes : List String
  deriving DecidableEq, Repr, Inhabited

namespace Diagnostic

/-- Does the report count as an error? -/
def isError (d : Diagnostic) : Bool := d.severity == .error

/-- Does the report count as a warning? -/
def isWarning (d : Diagnostic) : Bool := d.severity == .warning

/-- The report on one line, each note on a line of its own below. -/
def render (d : Diagnostic) : String :=
  d.notes.foldl (fun out note => out ++ "\n  = note: " ++ note)
    s!"{d.severity.render}[{d.code.render}] {d.location.start.render}: {d.message}"

/-! ## One constructor per code -/

/-- E0001: no rule matches the character at a position. -/
def unrecognizedCharacter (c : Char) (at_ : Position) : Diagnostic :=
  { code := .unrecognizedCharacter
    severity := .error
    message := "unrecognized character `" ++ Escape.character c ++ "`"
    location := ⟨at_, c.utf8Size⟩
    label := some "no token starts with this character"
    notes := [] }

/-- E1001: something else was needed. Both are phrases; an empty `expected` says that nothing in
particular was. -/
def unexpectedToken (expected found : String) (location : Location) : Diagnostic :=
  { code := .unexpectedToken
    severity := .error
    message :=
      if expected.isEmpty then "unexpected " ++ found
      else "expected " ++ expected ++ ", found " ++ found
    location
    label := some (if expected.isEmpty then "unexpected token" else "expected " ++ expected)
    notes := [] }

/-- E1002: something stands behind the end of the start rule. -/
def trailingInput (found : String) (location : Location) : Diagnostic :=
  { code := .trailingInput
    severity := .error
    message := "expected end of input, found " ++ found
    location
    label := some "unexpected trailing input"
    notes := [] }

/-- E2001: two or more productions of a rule start with the current token. -/
def ambiguousRule (rule : String) (location : Location) : Diagnostic :=
  { code := .ambiguousRule
    severity := .error
    message := "ambiguous production choice in rule `" ++ rule ++ "`"
    location
    label := none
    notes := ["the first matching production was used"] }

/-- E2002: a rule without productions was reached. -/
def undefinedRule (rule : String) (location : Location) : Diagnostic :=
  { code := .undefinedRule
    severity := .error
    message := "rule `" ++ rule ++ "` is declared but never defined"
    location
    label := none
    notes := ["the rule was replaced by an error node"] }

end Diagnostic

/-- Reports in the order in which they were made. -/
structure DiagnosticLog where
  entries : Array Diagnostic
  deriving DecidableEq, Repr

namespace DiagnosticLog

/-- No reports. -/
def empty : DiagnosticLog := ⟨#[]⟩

instance : Inhabited DiagnosticLog := ⟨empty⟩

/-- Adds a report at the end. -/
def record (log : DiagnosticLog) (d : Diagnostic) : DiagnosticLog := ⟨log.entries.push d⟩

/-- Adds reports at the end, in their order. -/
def extend (log : DiagnosticLog) (ds : List Diagnostic) : DiagnosticLog := ds.foldl record log

/-- The reports, earliest first. -/
def toList (log : DiagnosticLog) : List Diagnostic := log.entries.toList

def size (log : DiagnosticLog) : Nat := log.entries.size

def isEmpty (log : DiagnosticLog) : Bool := log.entries.isEmpty

/-- The number of errors. -/
def errorCount (log : DiagnosticLog) : Nat := log.entries.countP Diagnostic.isError

/-- The number of warnings. -/
def warningCount (log : DiagnosticLog) : Nat := log.entries.countP Diagnostic.isWarning

def hasErrors (log : DiagnosticLog) : Bool := log.entries.any Diagnostic.isError

end DiagnosticLog

end FrontEnd
