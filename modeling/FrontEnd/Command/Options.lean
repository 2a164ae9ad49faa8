import FrontEnd.Diagnostic.Terminal

/-!
# Command line options

Options begin with two dashes and may stand anywhere; everything else is a positional argument.

- `Options`: what the options say;
- `Options.ofArgs`: options and positional arguments, or the first option that is wrong.
-/

namespace FrontEnd

/-- How reports are written. -/
inductive ReportFormat where
  /-- For people, with source lines. -/
  | human
  /-- One JSON array. -/
  | json
  deriving DecidableEq, Repr, Inhabited

/-- Reads a format by name. -/
def ReportFormat.ofString? : String → Option ReportFormat
  | "human" => some human
  | "json" => some json
  | _ => none

/-- What the options say. -/
structure Options where
  format : ReportFormat
  color : ColorMode
  /-- Are blanks and comments listed too? -/
  trivia : Bool
  /-- Is the error output a terminal? -/
  terminal : Bool
  deriving DecidableEq, Repr

namespace Options

/-- Nothing said. -/
def default : Options := ⟨.human, .auto, false, false⟩

instance : Inhabited Options := ⟨default⟩

/-- What is wrong with an option. -/
inductive Fault where
  | format (value : String)
  | color (value : String)
  | unknown (arg : String)
  deriving DecidableEq, Repr

/-- The message of a fault. -/
def Fault.message : Fault → String
  | format value => "invalid --format value '" ++ value ++ "' (expected human or json)"
  | color value => "invalid --color value '" ++ value ++ "' (expected auto, always, or never)"
  | unknown arg => "unknown option '" ++ arg ++ "'"

/-- What stands behind `start` in a text that begins with it. -/
def valueOf? (start arg : String) : Option String :=
  if start.toList.isPrefixOf arg.toList then
    some (String.ofList (arg.toList.drop start.length))
  else none

/-- Adds what one argument says: to the options, or to the positional arguments. -/
def addArg (state : Options × Array String) (arg : String) :
    Except Fault (Options × Array String) :=
  match valueOf? "--format=" arg, valueOf? "--color=" arg with
  | some value, _ =>
    match ReportFormat.ofString? value with
    | some format => .ok ({ state.1 with format }, state.2)
    | none => .error (.format value)
  | none, some value =>
    match ColorMode.ofString? value with
    | some color => .ok ({ state.1 with color }, state.2)
    | none => .error (.color value)
  | none, none =>
    if arg = "--trivia" then .ok ({ state.1 with trivia := true }, state.2)
    else if (valueOf? "--" arg).isSome then .error (.unknown arg)
    else .ok (state.1, state.2.push arg)

/-- Options and positional arguments. -/
def ofArgs (args : List String) : Except Fault (Options × Array String) :=
  args.foldlM addArg (default, #[])

end Options

end FrontEnd
