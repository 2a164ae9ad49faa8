/-!
# Positions and spans

Two ways to say where something stands in a source text:

- `Position`: line, column and byte offset of one character, for people;
- `Span`: a range of bytes, end exclusive.

Lines and columns count from one, columns count characters, offsets count bytes from zero. All
of them are bounded by `Position.limit`: **counting stops there and never wraps**.

- `Position.advance`, `Position.after`: the position after one character, after many.
-/

namespace FrontEnd

/-- Line, column and byte offset of a character. -/
structure Position where
  line : Nat
  column : Nat
  offset : Nat
  deriving DecidableEq, Repr

namespace Position

/-- The greatest line, column or offset that is ever recorded. -/
def limit : Nat := 4294967295

/-- A count, cut off at `limit`. -/
def bounded (n : Nat) : Nat := min n limit

/-- Line one, column one, offset zero. -/
def start : Position := ⟨1, 1, 0⟩

instance : Inhabited Position := ⟨start⟩

/-- The offset decides, then the line, then the column. -/
instance : Ord Position where
  compare a b :=
    (compare a.offset b.offset).then ((compare a.line b.line).then (compare a.column b.column))

/-- As people read it: line, colon, column. -/
def render (p : Position) : String := s!"{p.line}:{p.column}"

/-- A line ends after a line feed, and after a carriage return that no line feed follows: the
pair of them is one line end, taken at the line feed. -/
def isLineEnd (c : Char) (next : Option Char) : Bool :=
  c == '\n' || (c == '\r' && next != some '\n')

/-- The position after the character `c`, where `next` is the character behind it. -/
def advance (p : Position) (c : Char) (next : Option Char) : Position :=
  let offset := bounded (p.offset + c.utf8Size)
  if isLineEnd c next then ⟨bounded (p.line + 1), 1, offset⟩
  else ⟨p.line, bounded (p.column + 1), offset⟩

/-- The position after a whole text that ends where the text ends. -/
def after (p : Position) : List Char → Position
  | [] => p
  | c :: rest => (p.advance c rest.head?).after rest

@[simp] theorem after_nil (p : Position) : p.after [] = p := rfl

@[simp] theorem after_cons (p : Position) (c : Char) (rest : List Char) :
    p.after (c :: rest) = (p.advance c rest.head?).after rest := rfl

end Position

/-- A range of bytes, end exclusive. -/
structure Span where
  start : Nat
  stop : Nat
  deriving DecidableEq, Repr, Inhabited

namespace Span

/-- The empty span at an offset. -/
def point (offset : Nat) : Span := ⟨offset, offset⟩

/-- Length in bytes, zero when the ends are swapped. -/
def length (s : Span) : Nat := s.stop - s.start

/-- A span is empty when it holds no byte. -/
def isEmpty (s : Span) : Bool := s.stop ≤ s.start

/-- Is the byte at `offset` inside? -/
def contains (s : Span) (offset : Nat) : Bool := s.start ≤ offset && offset < s.stop

/-- The smallest span that covers both. -/
def merge (a b : Span) : Span := ⟨min a.start b.start, max a.stop b.stop⟩

/-- Start, two dots, end. -/
def render (s : Span) : String := s!"{s.start}..{s.stop}"

end Span

/-- The span from one position to another, empty when the other comes earlier. -/
def Position.spanTo (a b : Position) : Span := ⟨a.offset, max b.offset a.offset⟩

end FrontEnd
