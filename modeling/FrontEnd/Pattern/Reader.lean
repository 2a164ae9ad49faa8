import FrontEnd.Pattern.Basic

/-!
# Reading patterns

A pattern is read in one pass, a character at a time. The reader keeps the groups that are open
and, inside a character class or behind a backslash, what it is in the middle of; so every error
is found at the first character that no pattern could have there.

- `PatternError`: what can be wrong with a pattern, with its message;
- `PatternReader.step`, `PatternReader.finish`: one character, and the end;
- `Pattern.ofString`: a whole pattern.
-/

namespace FrontEnd

/-- What is wrong with a pattern. Offsets are byte offsets into it. -/
inductive PatternError where
  | empty
  | unmatchedParen (offset : Nat)
  | unclosedGroup (offset : Nat)
  | unclosedClass (offset : Nat)
  | emptyClass (offset : Nat)
  | nothingToRepeat (op : Char) (offset : Nat)
  | unknownEscape (c : Char)
  | trailingBackslash
  | invalidRange (lo hi : Char)
  deriving DecidableEq, Repr

/-- The message of an error. -/
def PatternError.message : PatternError → String
  | empty => "empty pattern"
  | unmatchedParen offset => s!"unmatched `)` at offset {offset}"
  | unclosedGroup offset => s!"group opened at offset {offset} is never closed"
  | unclosedClass offset => s!"character class opened at offset {offset} is never closed"
  | emptyClass offset => s!"empty character class at offset {offset}"
  | nothingToRepeat op offset => s!"`{op}` at offset {offset} has nothing to repeat"
  | unknownEscape c => "unknown escape `\\" ++ c.toString ++ "`"
  | trailingBackslash => "pattern ends with a lone `\\`"
  | invalidRange lo hi => s!"invalid range `{lo}-{hi}`"

/-- A group that is open, or the whole pattern. -/
structure PatternGroup where
  /-- Offset of the opening parenthesis. -/
  openedAt : Nat
  /-- The finished alternatives, latest first. -/
  alternatives : List Pattern
  /-- The parts of the alternative that is being read, latest first. -/
  parts : List Pattern

namespace PatternGroup

/-- Nothing read yet. -/
def opened (offset : Nat) : PatternGroup := ⟨offset, [], []⟩

/-- Adds a part to the current alternative. -/
def add (g : PatternGroup) (p : Pattern) : PatternGroup := { g with parts := p :: g.parts }

/-- Ends the current alternative. -/
def endAlternative (g : PatternGroup) : PatternGroup :=
  ⟨g.openedAt, Pattern.sequence g.parts.reverse :: g.alternatives, []⟩

/-- The pattern of the whole group. -/
def toPattern (g : PatternGroup) : Pattern := Pattern.choice g.endAlternative.alternatives.reverse

end PatternGroup

/-- Where the reader stands inside a character class. -/
inductive ClassPlace where
  /-- Behind the opening bracket. -/
  | opened
  /-- Where an item may begin. -/
  | item
  /-- Behind a backslash that begins an item. -/
  | escape
  /-- Behind a character that may begin a range. -/
  | low (lo : Char)
  /-- Behind such a character and a dash. -/
  | dash (lo : Char)
  /-- Behind those and a backslash. -/
  | high (lo : Char)

/-- A character class that is open. -/
structure ClassReader where
  /-- Offset of the opening bracket. -/
  openedAt : Nat
  negated : Bool
  /-- The ranges read, latest first. -/
  ranges : List (Char × Char)
  place : ClassPlace

/-- What the reader is in the middle of. -/
inductive PatternPlace where
  /-- Between two parts. -/
  | plain
  /-- Behind a backslash. -/
  | escape
  /-- Inside a character class. -/
  | cls (reader : ClassReader)

/-- The state of reading a pattern. -/
structure PatternReader where
  /-- Offset of the next character. -/
  offset : Nat
  /-- The innermost open group. -/
  group : PatternGroup
  /-- The groups around it, innermost first. -/
  outer : List PatternGroup
  place : PatternPlace

/-- The punctuation of the first 128 characters. -/
def isPunctuation (c : Char) : Bool :=
  ('!' ≤ c && c ≤ '/') || (':' ≤ c && c ≤ '@') || ('[' ≤ c && c ≤ '\x60') ||
    ('\x7b' ≤ c && c ≤ '~')

/-- The single character that an escape stands for. -/
def escapedChar (c : Char) : Except PatternError Char :=
  match c with
  | 'n' => .ok '\n'
  | 'r' => .ok '\r'
  | 't' => .ok '\t'
  | '0' => .ok '\x00'
  | _ => if isPunctuation c then .ok c else .error (.unknownEscape c)

/-- The ranges that a shorthand escape stands for. -/
def shorthand? : Char → Option (List (Char × Char))
  | 'd' => some CharClass.digits
  | 'w' => some CharClass.wordChars
  | 's' => some CharClass.blanks
  | _ => none

/-- The class that an escape outside of brackets stands for. -/
def escapedClass (c : Char) : Except PatternError CharClass :=
  match c with
  | 'D' => .ok ⟨CharClass.digits, true⟩
  | 'W' => .ok ⟨CharClass.wordChars, true⟩
  | 'S' => .ok ⟨CharClass.blanks, true⟩
  | _ =>
    match shorthand? c with
    | some ranges => .ok ⟨ranges, false⟩
    | none => (escapedChar c).map CharClass.single

namespace ClassReader

/-- Adds a range and waits for an item. -/
def add (r : ClassReader) (lo hi : Char) : ClassReader :=
  { r with ranges := (lo, hi) :: r.ranges, place := .item }

/-- Adds a range whose ends are both known. -/
def addRange (r : ClassReader) (lo hi : Char) : Except PatternError ClassReader :=
  if hi < lo then .error (.invalidRange lo hi) else .ok (r.add lo hi)

/-- The finished class. -/
def close (r : ClassReader) : CharClass := ⟨r.ranges.reverse, r.negated⟩

/-- A character where an item may begin. -/
def readItem (r : ClassReader) (c : Char) : Except PatternError (ClassReader ⊕ CharClass) :=
  match c with
  | ']' => if r.ranges.isEmpty then .error (.emptyClass r.openedAt) else .ok (.inr r.close)
  | '\\' => .ok (.inl { r with place := .escape })
  | _ => .ok (.inl { r with place := .low c })

/-- A character inside a class: the class goes on or is finished. -/
def step (r : ClassReader) (c : Char) : Except PatternError (ClassReader ⊕ CharClass) :=
  match r.place with
  | .opened =>
    if c = '^' then .ok (.inl { r with negated := true, place := .item }) else r.readItem c
  | .item => r.readItem c
  | .escape =>
    match shorthand? c with
    | some ranges =>
      .ok (.inl { r with ranges := ranges.reverse ++ r.ranges, place := .item })
    | none => (escapedChar c).map fun lo => .inl { r with place := .low lo }
  | .low lo =>
    if c = '-' then .ok (.inl { r with place := .dash lo }) else (r.add lo lo).readItem c
  | .dash lo =>
    match c with
    | ']' => .ok (.inr ((r.add lo lo).add '-' '-').close)
    | '\\' => .ok (.inl { r with place := .high lo })
    | _ => (r.addRange lo c).map .inl
  | .high lo => do
    let hi ← escapedChar c
    (r.addRange lo hi).map .inl

end ClassReader

namespace PatternReader

/-- Before the first character. -/
def start : PatternReader := ⟨0, .opened 0, [], .plain⟩

/-- Adds a part and waits for the next. -/
def add (r : PatternReader) (p : Pattern) : PatternReader :=
  { r with group := r.group.add p, place := .plain }

/-- Puts the latest part under a repetition sign. -/
def repeatLast (r : PatternReader) (op : Char) (wrap : Pattern → Pattern) :
    Except PatternError PatternReader :=
  match r.group.parts with
  | [] => .error (.nothingToRepeat op r.offset)
  | p :: parts => .ok { r with group := { r.group with parts := wrap p :: parts } }

/-- A character between two parts. -/
def readPlain (r : PatternReader) (c : Char) : Except PatternError PatternReader :=
  match c with
  | '|' => .ok { r with group := r.group.endAlternative }
  | '(' => .ok { r with group := .opened r.offset, outer := r.group :: r.outer }
  | ')' =>
    match r.outer with
    | [] => .error (.unmatchedParen r.offset)
    | g :: outer => .ok { r with group := g.add r.group.toPattern, outer }
  | '[' => .ok { r with place := .cls ⟨r.offset, false, [], .opened⟩ }
  | '\\' => .ok { r with place := .escape }
  | '.' => .ok (r.add (.chars .anyButLineFeed))
  | '*' => r.repeatLast c .star
  | '+' => r.repeatLast c .plus
  | '?' => r.repeatLast c .opt
  | _ => .ok (r.add (.chars (.single c)))

/-- Reads a character, leaving the offset. -/
def read (r : PatternReader) (c : Char) : Except PatternError PatternReader :=
  match r.place with
  | .plain => r.readPlain c
  | .escape => (escapedClass c).map fun cls => r.add (.chars cls)
  | .cls reader => do
    match ← reader.step c with
    | .inl reader => .ok { r with place := .cls reader }
    | .inr cls => .ok (r.add (.chars cls))

/-- Reads a character. -/
def step (r : PatternReader) (c : Char) : Except PatternError PatternReader :=
  (r.read c).map fun r => { r with offset := r.offset + c.utf8Size }

/-- The pattern, when it may end here. -/
def finish (r : PatternReader) : Except PatternError Pattern :=
  match r.place, r.outer with
  | .cls reader, _ => .error (.unclosedClass reader.openedAt)
  | .escape, _ => .error .trailingBackslash
  | .plain, _ :: _ => .error (.unclosedGroup r.group.openedAt)
  | .plain, [] => .ok r.group.toPattern

end PatternReader

/-- Reads a pattern. -/
def Pattern.ofChars (cs : List Char) : Except PatternError Pattern :=
  if cs.isEmpty then .error .empty
  else do
    let r ← cs.foldlM PatternReader.step .start
    r.finish

/-- Reads a pattern. -/
def Pattern.ofString (s : String) : Except PatternError Pattern := Pattern.ofChars s.toList

end FrontEnd
