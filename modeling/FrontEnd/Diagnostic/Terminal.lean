import FrontEnd.Diagnostic.Basic
import FrontEnd.Source.Buffer
import FrontEnd.Text.Measure

/-!
# Diagnostics for people

A report as a block of lines: a header, the place, the source line with its lexeme underlined,
the notes, and a blank line.

- `Terminal.render`: one report;
- `Terminal.caretRow`: the indentation and the carets under a source line;
- `Terminal.summary`: the closing line that counts errors and warnings.
-/

namespace FrontEnd

/-- When to use colours. -/
inductive ColorMode where
  /-- When the output is a terminal. -/
  | auto
  | always
  | never
  deriving DecidableEq, Repr, Inhabited

namespace ColorMode

/-- The decision for an output of which `terminal` says whether it is a terminal. -/
def usesColors (mode : ColorMode) (terminal : Bool) : Bool :=
  match mode with
  | auto => terminal
  | always => true
  | never => false

/-- Reads a mode by name. -/
def ofString? : String → Option ColorMode
  | "auto" => some auto
  | "always" => some always
  | "never" => some never
  | _ => none

end ColorMode

/-- How reports are shown. -/
structure Terminal where
  colors : Bool
  /-- Source lines are shown when there is a source. -/
  source : Option SourceBuffer

namespace Terminal

/-- Bold, the colour of a part, and back to normal. -/
def bold : String := "\x1b[1m"

/-- The colour of line numbers. -/
def gutterColor : String := "\x1b[1;34m"

/-- The end of a coloured part. -/
def reset : String := "\x1b[0m"

/-- The colour of a severity. -/
def severityColor : Severity → String
  | .error => "\x1b[1;31m"
  | .warning => "\x1b[1;33m"
  | .info => "\x1b[1;36m"

/-- A part of the output in a colour, or as it is without colours. -/
def paint (colors : Bool) (color text : String) : String :=
  if colors then color ++ text ++ reset else text

/-- The header line: severity, code and message. -/
def header (t : Terminal) (d : Diagnostic) : String :=
  paint t.colors (severityColor d.severity) d.severity.render ++
    paint t.colors bold ("[" ++ d.code.render ++ "]") ++ ": " ++ d.message ++ "\n"

/-- The column of line numbers: a number or nothing, aligned right. -/
def gutter (t : Terminal) (width : Nat) (number : String) : String :=
  paint t.colors gutterColor
    (String.ofList (List.replicate (width - number.length) ' ') ++ number ++ " |")

/-- The characters before column `skip`, tabs as tabs and all others as blanks, so that what
follows lines up with the source line. -/
def indentation (line : List Char) (skip : Nat) : List Char :=
  (line.take skip).map fun c => if c = '\t' then '\t' else ' '

/-- How many characters of `line` begin within its first `bytes` bytes. -/
def charsWithin (bytes : Nat) (line : List Char) : Nat := (Text.take bytes line).length

/-- The row under a source line: the indentation, and a caret for each character of the lexeme
that stands on the line, but at least one. -/
def caretRow (line : List Char) (skip bytes : Nat) : List Char × List Char :=
  (indentation line skip, List.replicate (max 1 (charsWithin bytes (line.drop skip))) '^')

/-- The source line of a report with its place underlined. -/
def snippet (t : Terminal) (source : SourceBuffer) (d : Diagnostic) : String :=
  let line := d.location.start.line
  match source.lineText line with
  | none => ""
  | some text =>
    let width := (toString line).length
    let (indent, carets) := caretRow text.toList (d.location.start.column - 1) d.location.length
    let color := severityColor d.severity
    let label := match d.label with
      | some label => " " ++ paint t.colors color label
      | none => ""
    t.gutter width "" ++ "\n" ++
      t.gutter width (toString line) ++ " " ++ text ++ "\n" ++
      t.gutter width "" ++ " " ++ String.ofList indent ++
      paint t.colors color (String.ofList carets) ++ label ++ "\n"

/-- What stands between the place and the notes: the source line, or the label alone. -/
def body (t : Terminal) (d : Diagnostic) : String :=
  match t.source, d.label with
  | some source, _ => t.snippet source d
  | none, some label => "  = " ++ paint t.colors (severityColor d.severity) label ++ "\n"
  | none, none => ""

/-- The line of a note. -/
def noteLine (t : Terminal) (note : String) : String :=
  "  = " ++ paint t.colors bold "note" ++ ": " ++ note ++ "\n"

/-- The name shown for the source. -/
def fileName (t : Terminal) : String :=
  (t.source.bind SourceBuffer.name).getD "<input>"

/-- One report. -/
def render (t : Terminal) (d : Diagnostic) : String :=
  t.header d ++ "  --> " ++ t.fileName ++ ":" ++ d.location.start.render ++ "\n" ++
    t.body d ++ String.join (d.notes.map t.noteLine) ++ "\n"

/-- Reports in order. -/
def renderAll (t : Terminal) (ds : List Diagnostic) : String := String.join (ds.map t.render)

/-- The number of warnings in words. -/
def warningPhrase (warnings : Nat) : String :=
  s!"{warnings} warning" ++ (if warnings = 1 then "" else "s") ++ " emitted"

/-- The closing line; nothing when there is nothing to count. -/
def summary (t : Terminal) (errors warnings : Nat) : String :=
  if errors = 0 ∧ warnings = 0 then ""
  else if errors = 0 then
    paint t.colors (severityColor .warning) "warning" ++ ": " ++ warningPhrase warnings ++ "\n"
  else
    let errorPhrase := if errors = 1 then "previous error" else s!"{errors} previous errors"
    paint t.colors (severityColor .error) "error" ++ ": aborting due to " ++ errorPhrase ++
      (if warnings = 0 then "" else "; " ++ warningPhrase warnings) ++ "\n"

end Terminal

end FrontEnd
