import FrontEnd.Command.Options
import FrontEnd.Compiler
import FrontEnd.Diagnostic.Json
import FrontEnd.Tree.Render

/-!
# Commands

What each command writes. The product of a command (a list of tokens, a tree, a count) is its
output; reports go to the error output, in the format that the options name.

- `Command.lex`, `Command.parse`, `Command.check`, `Command.explain`.
-/

namespace FrontEnd

/-- What a command has written, and whether nothing was wrong. -/
structure Outcome where
  clean : Bool
  out : String
  err : String
  deriving DecidableEq, Repr, Inhabited

namespace Command

/-- The reports about one source for people: nothing when there are none. -/
def humanReports (ds : List Diagnostic) (source : SourceBuffer) (options : Options) : String :=
  if ds.isEmpty then ""
  else
    let t : Terminal := ⟨options.color.usesColors options.terminal, some source⟩
    t.renderAll ds ++ t.summary (ds.countP Diagnostic.isError) (ds.countP Diagnostic.isWarning)

/-- The reports about sources. -/
def reports (items : List (SourceBuffer × List Diagnostic)) (options : Options) : String :=
  match options.format with
  | .human => String.join (items.map fun (source, ds) => humanReports ds source options)
  | .json => Json.ofGroups (items.map fun (source, ds) => (source.name, ds))

/-- The line of a token in a list. -/
def tokenLine (table : TokenTable) (t : Token) : String :=
  t.position.render ++ " " ++ table.name t.id ++ " " ++ Escape.literal t.text ++ "\n"

/-- Lists the tokens of a source. -/
def lex (config : Config) (source : SourceBuffer) (options : Options) : Outcome :=
  let mode : TriviaMode := if options.trivia then .keep else .skip
  let (tokens, l) := Lexer.tokenize config.table mode source.chars
  { clean := !l.log.hasErrors
    out := tokens.foldl (fun out t => out ++ tokenLine config.table t) ""
    err := reports [(source, l.log.toList)] options }

/-- Writes the tree of a source, if its parse ends and the tree can be written. -/
def parse? (config : Config) (source : SourceBuffer) (options : Options) : Option Outcome := do
  let c ← config.compile? source
  let out ← c.tree.dump? config.names
  return { clean := !c.log.hasErrors, out, err := reports [(source, c.log.toList)] options }

/-- A count with its noun. -/
def counted (n : Nat) (noun : String) : String :=
  toString n ++ " " ++ noun ++ (if n = 1 then "" else "s")

/-- Reports on all sources and counts their errors, if all parses end. -/
def check? (config : Config) (sources : List SourceBuffer) (options : Options) :
    Option Outcome := do
  let compiled ← sources.mapM fun source => do return (source, (← config.compile? source).log)
  let errors := compiled.foldl (fun n (_, log) => n + log.errorCount) 0
  return {
    clean := errors = 0
    out := "checked " ++ counted sources.length "file" ++ ": " ++ counted errors "error" ++ "\n"
    err := reports (compiled.map fun (source, log) => (source, log.toList)) options }

/-- Explains a code. -/
def explain (code : String) : Outcome :=
  match DiagnosticCode.ofString? code with
  | some c =>
    ⟨true, c.render ++ ": " ++ c.kind.render ++ "\n\nReported for " ++ c.description ++ ".\n", ""⟩
  | none =>
    ⟨false, "Unknown error code: " ++ code ++ "\n\nKnown codes: " ++
      String.intercalate ", " (DiagnosticCode.all.map DiagnosticCode.render) ++ "\n", ""⟩

end Command

end FrontEnd
