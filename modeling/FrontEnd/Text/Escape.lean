import FrontEnd.Text.CharRanges

/-!
# Escaped text

How text is shown inside messages and listings. Controls and other characters that cannot be seen
are written as escapes; which of the visible ones are escaped too depends on where the text stands:

- `Escape.character`: a single character, as in a message about it;
- `Escape.text`: a text inside a message;
- `Escape.literal`: a text in double quotes, as listings write it.
-/

namespace FrontEnd.Escape

/-- Can the character be shown as it is? -/
def isPrintable (c : Char) : Bool :=
  if c.toNat < 128 then 32 ≤ c.toNat && c.toNat < 127
  else !CharRanges.holds CharRanges.unprintable c.toNat

/-- Is the character a mark that extends the one before it? -/
def isExtending (c : Char) : Bool :=
  128 ≤ c.toNat && CharRanges.holds CharRanges.extendingMarks c.toNat

/-- Which visible characters a place escapes. -/
structure Style where
  singleQuote : Bool
  doubleQuote : Bool
  extending : Bool

/-- Both quotes and extending characters. -/
def Style.alone : Style := ⟨true, true, true⟩

/-- Both quotes; an extending character has one before it to stand on. -/
def Style.following : Style := ⟨true, true, false⟩

/-- Inside double quotes. -/
def Style.quoted : Style := ⟨false, true, true⟩

/-- The code point in lower-case hexadecimal. -/
def codePoint (c : Char) : List Char :=
  '\\' :: 'u' :: '\x7b' :: (Nat.toDigits 16 c.toNat ++ ['\x7d'])

/-- The written form of one character. -/
def char (style : Style) (c : Char) : List Char :=
  match c with
  | '\x00' => ['\\', '0']
  | '\t' => ['\\', 't']
  | '\n' => ['\\', 'n']
  | '\r' => ['\\', 'r']
  | '\\' => ['\\', '\\']
  | _ =>
    if c = '\'' ∧ style.singleQuote then ['\\', '\'']
    else if c = '"' ∧ style.doubleQuote then ['\\', '"']
    else if style.extending && isExtending c then codePoint c
    else if isPrintable c then [c]
    else codePoint c

/-- A character on its own. -/
def character (c : Char) : String := String.ofList (char .alone c)

/-- A text inside a message: its first character stands alone, the others follow. -/
def text (s : String) : String :=
  match s.toList with
  | [] => ""
  | c :: rest => String.ofList (char .alone c ++ rest.flatMap (char .following))

/-- A text in double quotes. -/
def literal (s : String) : String :=
  String.ofList ('"' :: (s.toList.flatMap (char .quoted) ++ ['"']))

end FrontEnd.Escape
