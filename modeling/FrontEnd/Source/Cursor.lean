import FrontEnd.Source.Position

/-!
# Cursors

A reading head over a text. A cursor is a value: keeping one is a snapshot, and going back to it
is using it again. Line and column follow every character read, by the same rule for line ends as
the line index of a buffer.

- `Cursor.advance`, `Cursor.advanceBy`: read one character, read a number of bytes;
- `Cursor.since`: the text read since an offset.
-/

namespace FrontEnd

/-- A text divided at the reading head. -/
structure Cursor where
  /-- The characters read, latest first. -/
  before : List Char
  /-- The characters to read. -/
  rest : List Char
  /-- Length in bytes of the characters read. -/
  offset : Nat
  /-- Position of the next character. -/
  position : Position
  deriving DecidableEq, Repr

namespace Cursor

/-- At the start of `text`. -/
def ofText (text : List Char) : Cursor := ⟨[], text, 0, .start⟩

/-- The character `k` places ahead: the next one for zero. -/
def peek (c : Cursor) (k : Nat) : Option Char := c.rest[k]?

/-- The next character. -/
def current (c : Cursor) : Option Char := c.rest.head?

/-- Is everything read? -/
def atEnd (c : Cursor) : Bool := c.rest.isEmpty

/-- Reads a character; at the end the cursor stays. -/
def advance (c : Cursor) : Cursor :=
  match c.rest with
  | [] => c
  | x :: rest => ⟨x :: c.before, rest, c.offset + x.utf8Size, c.position.advance x rest.head?⟩

/-- Reads on from a divided text while `bytes` bytes are wanted. -/
def read (before : List Char) (offset : Nat) (position : Position) (bytes : Nat) :
    List Char → Cursor
  | [] => ⟨before, [], offset, position⟩
  | x :: rest =>
    if bytes = 0 then ⟨before, x :: rest, offset, position⟩
    else read (x :: before) (offset + x.utf8Size) (position.advance x rest.head?)
      (bytes - x.utf8Size) rest

/-- Reads until `bytes` bytes are read or the text ends. A count that falls inside a character
takes the whole of it. -/
def advanceBy (c : Cursor) (bytes : Nat) : Cursor :=
  read c.before c.offset c.position bytes c.rest

/-- Takes characters back from those read while `bytes` bytes are wanted. -/
def takeBack (taken : List Char) (bytes : Nat) : List Char → List Char
  | [] => taken
  | x :: before => if bytes = 0 then taken else takeBack (x :: taken) (bytes - x.utf8Size) before

/-- The text read since the byte offset `start`, nothing when that is ahead. -/
def since (c : Cursor) (start : Nat) : List Char := takeBack [] (c.offset - start) c.before

end Cursor

end FrontEnd
