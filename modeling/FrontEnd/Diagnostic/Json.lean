import FrontEnd.Diagnostic.Basic

/-!
# Diagnostics for programs

Reports as one JSON array of objects, each tagged with the file that it belongs to. The array is
written as the reports come in, file by file.

- `Json.quoted`: a text as a JSON string;
- `Json.item`: one report as an object;
- `Json.Emitter`: what is written while reports come in;
- `Json.ofGroups`, `Json.document`: the whole array.
-/

namespace FrontEnd.Json

/-- The controls: the first 32 characters, and the 33 from the delete character on. -/
def isControl (c : Char) : Bool := c.toNat < 32 || (127 ≤ c.toNat && c.toNat < 160)

/-- A hexadecimal digit. -/
def hexDigit (n : Nat) : Char := Nat.digitChar (n % 16)

/-- A character by its number, in four hexadecimal digits. -/
def numbered (n : Nat) : List Char :=
  ['\\', 'u', hexDigit (n / 4096), hexDigit (n / 256), hexDigit (n / 16), hexDigit n]

/-- Does the character stand in a JSON string as it is? -/
def isPlain (c : Char) : Bool := c != '"' && c != '\\' && !isControl c

/-- The escape of a character that is not plain. -/
def escape (c : Char) : List Char :=
  match c with
  | '"' => ['\\', '"']
  | '\\' => ['\\', '\\']
  | '\n' => ['\\', 'n']
  | '\r' => ['\\', 'r']
  | '\t' => ['\\', 't']
  | _ => numbered c.toNat

/-- The inside of a JSON string. Runs of plain characters are copied, the one that ends a run is
escaped. -/
def escaped (cs : List Char) : List Char :=
  match h : cs.dropWhile isPlain with
  | [] => cs
  | c :: rest =>
    have : rest.length < cs.length :=
      Nat.lt_of_lt_of_le (by simp [h]) (List.dropWhile_sublist isPlain).length_le
    cs.takeWhile isPlain ++ escape c ++ escaped rest
termination_by cs.length

/-- A text as a JSON string. -/
def quoted (s : String) : String := String.ofList ('"' :: (escaped s.toList ++ ['"']))

/-- A line of an object: a field that others follow. -/
def fieldLine (name value : String) : String :=
  "    \"" ++ name ++ "\": " ++ value ++ ",\n"

/-- A line for a text, left out when there is none. -/
def optionalLine (name : String) : Option String → String
  | some text => fieldLine name (quoted text)
  | none => ""

/-- The notes, each on a line of its own. -/
def noteLines (notes : List String) : String :=
  match notes with
  | [] => ""
  | _ => String.intercalate ",\n" (notes.map fun note => "      " ++ quoted note) ++ "\n"

/-- One report as an object. File and label are left out when there is none. -/
def item (file : Option String) (d : Diagnostic) : String :=
  "  \x7b\n" ++
    fieldLine "code" ("\"" ++ d.code.render ++ "\"") ++
    fieldLine "severity" ("\"" ++ d.severity.render ++ "\"") ++
    fieldLine "message" (quoted d.message) ++
    optionalLine "file" file ++
    fieldLine "line" (toString d.location.start.line) ++
    fieldLine "column" (toString d.location.start.column) ++
    fieldLine "offset" (toString d.location.start.offset) ++
    fieldLine "length" (toString d.location.length) ++
    optionalLine "label" d.label ++
    "    \"notes\": [\n" ++ noteLines d.notes ++ "    ]\n  \x7d"

/-- An array of reports in the making. -/
structure Emitter where
  /-- What is written already. -/
  text : String
  /-- Has no report been written yet? -/
  first : Bool
  /-- The file that the next reports belong to. -/
  file : Option String

namespace Emitter

/-- Nothing is written yet. -/
def empty : Emitter := ⟨"", true, none⟩

/-- Writes a text behind the others. -/
def write (e : Emitter) (s : String) : Emitter := { e with text := e.text ++ s }

/-- The next reports belong to this file. -/
def setFile (e : Emitter) (file : Option String) : Emitter := { e with file }

/-- Opens the array. -/
def begin (e : Emitter) : Emitter := e.write "[\n"

/-- Writes a report, behind a comma unless it is the first one. -/
def emit (e : Emitter) (d : Diagnostic) : Emitter :=
  { (if e.first then e else e.write ",\n").write (item e.file d) with first := false }

/-- Writes reports in their order. -/
def emitAll (e : Emitter) (ds : List Diagnostic) : Emitter := ds.foldl emit e

/-- Closes the array. -/
def finish (e : Emitter) : Emitter := e.write (if e.first then "]\n" else "\n]\n")

end Emitter

/-- The reports of several files as one array, file by file. -/
def ofGroups (groups : List (Option String × List Diagnostic)) : String :=
  (groups.foldl (fun e (file, ds) => (e.setFile file).emitAll ds) Emitter.empty.begin).finish.text

/-- Reports as one array, each with the file that it belongs to. -/
def document (items : List (Option String × Diagnostic)) : String :=
  ofGroups (items.map fun (file, d) => (file, [d]))

end FrontEnd.Json
