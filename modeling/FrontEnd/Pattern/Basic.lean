/-!
# Lexeme patterns

A small dialect of regular expressions for the rules of a token table. A pattern always matches at
a given place and never looks around it.

- `CharClass`: a set of characters as ranges, possibly negated;
- `Pattern`: the parsed form;
- `Pattern.nullable`: does a pattern match the empty text?
-/

namespace FrontEnd

/-- A set of characters: inclusive ranges, or everything outside of them. -/
structure CharClass where
  ranges : List (Char × Char)
  negated : Bool
  deriving DecidableEq, Repr, Inhabited

namespace CharClass

/-- One character. -/
def single (c : Char) : CharClass := ⟨[(c, c)], false⟩

/-- Every character but a line feed. -/
def anyButLineFeed : CharClass := ⟨[('\n', '\n')], true⟩

/-- The decimal digits. -/
def digits : List (Char × Char) := [('0', '9')]

/-- Digits, letters and the underscore. -/
def wordChars : List (Char × Char) := [('0', '9'), ('A', 'Z'), ('_', '_'), ('a', 'z')]

/-- The blank, and the controls from tab to carriage return. -/
def blanks : List (Char × Char) := [('\t', '\r'), (' ', ' ')]

/-- Is the character in the class? -/
def accepts (cls : CharClass) (c : Char) : Bool :=
  cls.ranges.any (fun r => r.1 ≤ c && c ≤ r.2) != cls.negated

/-- The character of a class that stands for itself. -/
def char? (cls : CharClass) : Option Char :=
  match cls.ranges with
  | [(lo, hi)] => if lo = hi ∧ cls.negated = false then some lo else none
  | _ => none

end CharClass

/-- A parsed pattern. -/
inductive Pattern where
  /-- The empty text. -/
  | empty
  /-- One character of a class. -/
  | chars (cls : CharClass)
  /-- All parts, one after the other. -/
  | concat (parts : List Pattern)
  /-- One of the alternatives. -/
  | alt (alternatives : List Pattern)
  /-- Any number of times. -/
  | star (inner : Pattern)
  /-- At least once. -/
  | plus (inner : Pattern)
  /-- At most once. -/
  | opt (inner : Pattern)
  deriving Repr, Inhabited

namespace Pattern

mutual

/-- Does the pattern match the empty text? -/
def nullable : Pattern → Bool
  | .empty | .star _ | .opt _ => true
  | .chars _ => false
  | .plus inner => inner.nullable
  | .concat parts => allNullable parts
  | .alt alternatives => anyNullable alternatives

/-- Does every pattern match the empty text? -/
def allNullable : List Pattern → Bool
  | [] => true
  | p :: ps => p.nullable && allNullable ps

/-- Does some pattern match the empty text? -/
def anyNullable : List Pattern → Bool
  | [] => false
  | p :: ps => p.nullable || anyNullable ps

end

/-- The parts one after the other: a single part is itself, none is the empty text. -/
def sequence : List Pattern → Pattern
  | [] => .empty
  | [p] => p
  | ps => .concat ps

/-- One of the alternatives: a single one is itself. -/
def choice : List Pattern → Pattern
  | [p] => p
  | ps => .alt ps

end Pattern

end FrontEnd
