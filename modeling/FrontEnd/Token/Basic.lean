import FrontEnd.Source.Position

/-!
# Tokens

A token is a classified lexeme with the position of its first character. The class is the number
of a rule of the token table, or one of two reserved ones.

- `TokenId.index`, `TokenId.ofIndex?`: token ids as numbers, one by one;
- `Token.endPosition`: the position behind a lexeme, where **lines and columns wrap around**;
- `Names`: what token ids and grammar rules are called.
-/

namespace FrontEnd

/-- The class of a lexeme. -/
inductive TokenId where
  /-- A character that no rule matches. -/
  | unknown
  /-- The end of the input. -/
  | eof
  /-- A lexeme of the table rule with this number. -/
  | kind (rule : Fin 65536)
  deriving DecidableEq, Repr, Inhabited

namespace TokenId

/-- So that numerals stand for rules of the table. -/
instance rules_neZero : @NeZero Nat Zero.ofOfNat0 65536 := ⟨Nat.succ_ne_zero 65535⟩

/-- The place in the order of all ids: unknown, end of input, then the rules. -/
def index : TokenId → Nat
  | unknown => 0
  | eof => 1
  | kind rule => rule.val + 2

/-- The id at a place of the order. -/
def ofIndex? : Nat → Option TokenId
  | 0 => some unknown
  | 1 => some eof
  | n + 2 => if h : n < 65536 then some (kind ⟨n, h⟩) else none

@[simp] theorem ofIndex?_index (id : TokenId) : ofIndex? id.index = some id := by
  cases id <;> simp [index, ofIndex?]

instance : Ord TokenId where
  compare a b := compare a.index b.index

/-- A form that needs no table. -/
def render : TokenId → String
  | unknown => "<unknown>"
  | eof => "<eof>"
  | kind rule => s!"#{rule.val}"

/-- A form that shows how the id is made. -/
def structural : TokenId → String
  | unknown => "Unknown"
  | eof => "Eof"
  | kind rule => s!"Kind({rule.val})"

end TokenId

/-- A classified lexeme. -/
structure Token where
  id : TokenId
  text : String
  position : Position
  deriving DecidableEq, Repr, Inhabited

namespace Token

/-- The end of the input at a position. -/
def endOfInput (position : Position) : Token := ⟨.eof, "", position⟩

/-- Length of the lexeme in bytes. -/
def length (t : Token) : Nat := Position.bounded t.text.utf8ByteSize

/-- The bytes of the lexeme. -/
def span (t : Token) : Span := ⟨t.position.offset, Position.bounded (t.position.offset + t.length)⟩

/-- The next number of 32 bits: zero comes behind the greatest one. -/
def wrappingNext (n : Nat) : Nat := (n + 1) % 4294967296

/-- The line and the column behind a text that ends where the text ends. Unlike those of a cursor
they are not bounded, and wrap around. -/
def count (line column : Nat) : List Char → Nat × Nat
  | [] => (line, column)
  | c :: rest =>
    if Position.isLineEnd c rest.head? then count (wrappingNext line) 1 rest
    else count line (wrappingNext column) rest

/-- The position behind the last character. -/
def endPosition (t : Token) : Position :=
  let (line, column) := count t.position.line t.position.column t.text.toList
  ⟨line, column, Position.bounded (t.position.offset + t.length)⟩

end Token

/-- What tokens and rules are called. -/
structure Names where
  token : TokenId → String
  rule : Nat → String

end FrontEnd
