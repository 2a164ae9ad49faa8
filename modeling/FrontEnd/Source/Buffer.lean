import FrontEnd.Source.Position

/-!
# Source buffers

The text of one compilation unit with its division into lines. A line feed, a carriage return and
the pair of them each end a line; the last line has no end, so **every text has at least one
line** and a final line end opens an empty one.

- `Line.split`: the lines of a text;
- `SourceBuffer.lineText`: a line without its end;
- `SourceBuffer.lineColumn`: the position of a byte offset.
-/

namespace FrontEnd

/-- One line of a text. -/
structure Line where
  /-- Byte offset of the first character. -/
  start : Nat
  /-- The characters before the line end. -/
  content : List Char
  /-- The line end: empty on the last line only. -/
  ending : List Char
  deriving DecidableEq, Repr, Inhabited

namespace Line

/-- All characters of the line, its end included. -/
def chars (l : Line) : List Char := l.content ++ l.ending

/-- Reads lines from `offset` on: `content` holds the line so far, latest character first, and
`found` the finished lines. -/
def splitFrom (start offset : Nat) (content : List Char) (found : Array Line) :
    List Char → Array Line
  | [] => found.push ⟨start, content.reverse, []⟩
  | '\r' :: '\n' :: rest =>
    splitFrom (offset + 2) (offset + 2) [] (found.push ⟨start, content.reverse, ['\r', '\n']⟩) rest
  | c :: rest =>
    if c = '\n' ∨ c = '\r' then
      splitFrom (offset + 1) (offset + 1) [] (found.push ⟨start, content.reverse, [c]⟩) rest
    else splitFrom start (offset + c.utf8Size) (c :: content) found rest

/-- The lines of a text, in order. -/
def split (text : List Char) : Array Line := splitFrom 0 0 [] #[] text

/-- Walks over the characters that end within the first `bytes` bytes: how many they are, and
their length in bytes. -/
def walk (bytes : Nat) : List Char → Nat → Nat → Nat × Nat
  | [], count, size => (count, size)
  | c :: rest, count, size =>
    if size + c.utf8Size ≤ bytes then walk bytes rest (count + 1) (size + c.utf8Size)
    else (count, size)

end Line

/-- The text of one compilation unit. -/
structure SourceBuffer where
  /-- A label for messages, if the text came from somewhere nameable. -/
  name : Option String
  text : String
  lines : Array Line
  lines_eq : lines = Line.split text.toList

namespace SourceBuffer

/-- A buffer over `text`. -/
def ofText (name : Option String) (text : String) : SourceBuffer :=
  ⟨name, text, Line.split text.toList, rfl⟩

/-- The characters of the text. -/
def chars (b : SourceBuffer) : List Char := b.text.toList

/-- Length in bytes. -/
def size (b : SourceBuffer) : Nat := Position.bounded b.text.utf8ByteSize

def isEmpty (b : SourceBuffer) : Bool := b.text.isEmpty

/-- Number of lines. -/
def lineCount (b : SourceBuffer) : Nat := Position.bounded b.lines.size

/-- The text of a line, counted from one, without its end. -/
def lineText (b : SourceBuffer) (line : Nat) : Option String :=
  if line = 0 then none else b.lines[line - 1]?.map fun l => String.ofList l.content

/-- The last line that starts at or before the offset `byte`, with its index. -/
def locate (b : SourceBuffer) (byte : Nat) : Nat × Line :=
  let step (state : Nat × Nat × Line) (line : Line) : Nat × Nat × Line :=
    (state.1 + 1, if line.start ≤ byte then (state.1, line) else state.2)
  (b.lines.foldl step (0, 0, default)).2

/-- The position of a byte offset. An offset behind the end means the end, and one inside a
character means that character. -/
def lineColumn (b : SourceBuffer) (offset : Nat) : Position :=
  let byte := min offset b.text.utf8ByteSize
  let (index, line) := b.locate byte
  let (count, size) := Line.walk (byte - line.start) line.chars 0 0
  ⟨Position.bounded (index + 1), Position.bounded (count + 1),
    Position.bounded (line.start + size)⟩

end SourceBuffer

end FrontEnd
