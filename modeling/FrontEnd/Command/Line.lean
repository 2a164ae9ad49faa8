import FrontEnd.Command.Run
import FrontEnd.Demo

/-!
# The command line

From arguments to output and exit code. Files are given as a function, so that a whole run is a
value.

- `Invocation.ofArgs`: what is asked for;
- `Invocation.paths`: the files that it reads;
- `Invocation.run`: what is written, and the exit code.
-/

namespace FrontEnd

/-- What reading a file gives. -/
inductive FileContent where
  | text (s : String)
  | missing
  | denied
  /-- The bytes are no text. -/
  | malformed
  /-- Anything else that went wrong. -/
  | failed (reason : String)
  deriving DecidableEq, Repr, Inhabited

/-- What a run writes, and its exit code. -/
structure RunResult where
  code : Nat
  out : String
  err : String
  deriving DecidableEq, Repr, Inhabited

/-- What the arguments ask for. -/
inductive Invocation where
  | help
  | version
  | lex (path : String) (options : Options)
  | parse (path : String) (options : Options)
  | check (paths : List String) (options : Options)
  | explain (code : String)
  | unknown (command : String)
  /-- The options are wrong. -/
  | badOptions (fault : Options.Fault)
  /-- Arguments are missing; the lines say what is expected. -/
  | misused (usage : String)
  deriving DecidableEq, Repr

namespace Invocation

/-- The help text. -/
def usage : String :=
  "WL compiler front end

Usage: wl <command> [options]

Commands:
  lex <file>           Tokenize and list tokens
  parse <file>         Parse and dump the syntax tree
  check <file>...      Report diagnostics for one or more files
  explain <code>       Explain an error code (e.g., E1001)
  help                 Show this help message
  version              Show version information

Options:
  --format=<fmt>       Diagnostic format: human (default), json
  --color=<when>       Colored diagnostics: auto (default), always, never
  --trivia             lex: also list whitespace and comments

Set RUST_LOG (e.g. RUST_LOG=wl_parse=trace) for tracing output.
"

/-- How the token list is asked for. -/
def lexUsage : String := "Usage: wl lex <file> [--trivia] [--format=human|json]\n"

/-- How the tree is asked for. -/
def parseUsage : String := "Usage: wl parse <file> [--format=human|json]\n"

/-- How a check is asked for. -/
def checkUsage : String := "Usage: wl check <file>... [--format=human|json]\n"

/-- How an explanation is asked for. -/
def explainUsage : String := "Usage: wl explain <ERROR_CODE>\nExample: wl explain E1001\n"

/-- Reads the options of a command and goes on with its positional arguments. -/
def withOptions (args : List String) (terminal : Bool)
    (command : Options → List String → Invocation) : Invocation :=
  match Options.ofArgs args with
  | .error fault => .badOptions fault
  | .ok (options, positional) => command { options with terminal } positional.toList

/-- What the arguments ask for; `terminal` says whether the error output is a terminal. -/
def ofArgs (args : List String) (terminal : Bool) : Invocation :=
  match args with
  | [] => .help
  | "lex" :: args => withOptions args terminal fun options positional =>
    match positional with
    | [path] => .lex path options
    | _ => .misused lexUsage
  | "parse" :: args => withOptions args terminal fun options positional =>
    match positional with
    | [path] => .parse path options
    | _ => .misused parseUsage
  | "check" :: args => withOptions args terminal fun options positional =>
    match positional with
    | [] => .misused checkUsage
    | paths => .check paths options
  | command :: args =>
    if command = "explain" ∨ command = "--explain" then
      match args with
      | [] => .misused explainUsage
      | code :: _ => .explain code
    else if command = "help" ∨ command = "--help" ∨ command = "-h" then .help
    else if command = "version" ∨ command = "--version" ∨ command = "-V" then .version
    else .unknown command

/-- The files that are read. -/
def paths : Invocation → List String
  | lex path _ | parse path _ => [path]
  | check paths _ => paths
  | _ => []

/-- The source in a file, or a message that says why there is none. -/
def source (read : String → FileContent) (path : String) : Except String SourceBuffer :=
  match read path with
  | .text s => .ok (.ofText (some path) s)
  | .missing => .error ("cannot find file '" ++ path ++ "'")
  | .denied => .error ("permission denied reading '" ++ path ++ "'")
  | .malformed => .error ("'" ++ path ++ "' contains invalid UTF-8 data")
  | .failed reason => .error ("error reading '" ++ path ++ "': " ++ reason)

/-- A message on the error output. -/
def errorLine (message : String) : String := "error: " ++ message ++ "\n"

/-- Exit code zero says that all was well. -/
def ofOutcome (o : Outcome) : RunResult := ⟨if o.clean then 0 else 1, o.out, o.err⟩

/-- The language at hand, or the result of a run without one. -/
def withLanguage (run : Config → RunResult) : RunResult :=
  match Demo.config with
  | .ok config => run config
  | .error e => ⟨2, "", "internal error: invalid built-in language: " ++ e.message ++ "\n"⟩

/-- A command about one file. -/
def onFile (read : String → FileContent) (path : String)
    (command : Config → SourceBuffer → Outcome) : RunResult :=
  withLanguage fun config =>
    match source read path with
    | .ok source => ofOutcome (command config source)
    | .error message => ⟨1, "", errorLine message⟩

/-- A check of files. Those that cannot be read are reported first, and the others are checked. -/
def onFiles (read : String → FileContent) (paths : List String) (options : Options) : RunResult :=
  withLanguage fun config =>
    let found := paths.map (source read)
    let sources := found.filterMap Except.toOption
    let unreadable := found.filterMap fun
      | .ok _ => none
      | .error message => some (errorLine message)
    let outcome := (Command.check? config sources options).getD default
    ofOutcome ⟨outcome.clean && unreadable.isEmpty, outcome.out,
      String.join unreadable ++ outcome.err⟩

/-- What is written, and the exit code, when `read` gives the files. -/
def run (read : String → FileContent) : Invocation → RunResult
  | help => ⟨0, usage, ""⟩
  | version => ⟨0, "wl 0.1.0\n", ""⟩
  | lex path options => onFile read path fun config source => Command.lex config source options
  | parse path options => onFile read path fun config source =>
    (Command.parse? config source options).getD default
  | check paths options => onFiles read paths options
  | explain code => ofOutcome (Command.explain code)
  | unknown command => ⟨1, usage, "Unknown command: " ++ command ++ "\n\n"⟩
  | badOptions fault => ⟨1, "", errorLine fault.message⟩
  | misused usage => ⟨1, "", usage⟩

end Invocation

end FrontEnd
