import FrontEnd.Diagnostic.Basic
import Mathlib.Algebra.Field.Rat
import Mathlib.Algebra.GroupWithZero.Basic

/-!
# JSON texts

What the texts of the JSON notation are, and what each of them stands for. The grammar is written
over characters that are left to read, one constructor a production; nothing in it knows how
reports are written.

- `Json.Value`: what a text stands for;
- `Json.Chars`, `Json.IsNumber`, `Json.numberValue`: strings and numbers;
- `Json.Reads`: a part of a text, what it stands for, and what is left behind it;
- `Json.Denotes`: what a whole text stands for;
- `Json.Denotes.unique`: **no text stands for two values**.
-/

namespace FrontEnd.Json

/-- What a text stands for. An object keeps its members in order. -/
inductive Value where
  | null
  | bool (b : Bool)
  | number (q : ℚ)
  | string (s : String)
  | array (vs : List Value)
  | object (ms : List (String × Value))

/-! ## White space -/

/-- The characters that may stand between the parts of a text. -/
def isSpace (c : Char) : Bool := c == ' ' || c == '\t' || c == '\n' || c == '\r'

/-- White space, perhaps none, stands in front of `rest`. -/
def Spaces (cs rest : List Char) : Prop :=
  ∃ blank : List Char, blank.all isSpace = true ∧ cs = blank ++ rest

/-! ## Strings -/

/-- The characters that stand for themselves inside a string: all but quotes, backslashes and the
first 32. -/
def isUnescaped (c : Char) : Bool := 32 ≤ c.toNat && c != '"' && c != '\\'

/-- What a backslash and one more character stand for. -/
def shortEscape? : Char → Option Char
  | '"' => some '"'
  | '\\' => some '\\'
  | '/' => some '/'
  | 'b' => some '\x08'
  | 'f' => some '\x0c'
  | 'n' => some '\n'
  | 'r' => some '\r'
  | 't' => some '\t'
  | _ => none

/-- A hexadecimal digit in either case. -/
def hexValue? (c : Char) : Option Nat :=
  if '0' ≤ c ∧ c ≤ '9' then some (c.toNat - '0'.toNat)
  else if 'a' ≤ c ∧ c ≤ 'f' then some (c.toNat - 'a'.toNat + 10)
  else if 'A' ≤ c ∧ c ≤ 'F' then some (c.toNat - 'A'.toNat + 10)
  else none

/-- The number in four hexadecimal digits, and what comes behind them. -/
def codeUnit? : List Char → Option (Nat × List Char)
  | a :: b :: c :: d :: rest => do
    let a ← hexValue? a
    let b ← hexValue? b
    let c ← hexValue? c
    let d ← hexValue? d
    return (((a * 16 + b) * 16 + c) * 16 + d, rest)
  | _ => none

/-- The first halves of characters that take two units. -/
def isHighHalf (u : Nat) : Bool := 0xD800 ≤ u && u < 0xDC00

/-- The second halves of characters that take two units. -/
def isLowHalf (u : Nat) : Bool := 0xDC00 ≤ u && u < 0xE000

/-- The inside of a string up to its closing quote, the characters that it stands for, and what
comes behind the quote. Half a character stands for nothing. -/
inductive Chars : List Char → List Char → List Char → Prop where
  | close {rest : List Char} : Chars ('"' :: rest) [] rest
  | plain {c : Char} {cs s rest : List Char} (h : isUnescaped c = true) (hs : Chars cs s rest) :
      Chars (c :: cs) (c :: s) rest
  | short {e c : Char} {cs s rest : List Char} (h : shortEscape? e = some c)
      (hs : Chars cs s rest) : Chars ('\\' :: e :: cs) (c :: s) rest
  | unit {u : Nat} {cs cs' s rest : List Char} (h : codeUnit? cs = some (u, cs'))
      (hhigh : isHighHalf u = false) (hlow : isLowHalf u = false) (hs : Chars cs' s rest) :
      Chars ('\\' :: 'u' :: cs) (Char.ofNat u :: s) rest
  | pair {u u' : Nat} {cs cs' cs'' s rest : List Char}
      (h : codeUnit? cs = some (u, '\\' :: 'u' :: cs')) (hhigh : isHighHalf u = true)
      (h' : codeUnit? cs' = some (u', cs'')) (hlow : isLowHalf u' = true) (hs : Chars cs'' s rest) :
      Chars ('\\' :: 'u' :: cs) (Char.ofNat (0x10000 + (u - 0xD800) * 0x400 + (u' - 0xDC00)) :: s)
        rest

/-! ## Numbers -/

/-- At least one digit, and nothing else. -/
def IsDigits (cs : List Char) : Prop := cs ≠ [] ∧ ∀ c ∈ cs, c.isDigit = true

/-- A fraction, which may be missing. -/
def IsFraction (cs : List Char) : Prop := cs = [] ∨ ∃ digits, IsDigits digits ∧ cs = '.' :: digits

/-- An exponent, which may be missing. -/
def IsExponent (cs : List Char) : Prop :=
  cs = [] ∨ ∃ e ∈ ['e', 'E'], ∃ sign ∈ [[], ['+'], ['-']], ∃ digits, IsDigits digits ∧
    cs = e :: (sign ++ digits)

/-- A number in the decimal system, without needless zeros in front. -/
inductive IsNumber : List Char → Prop where
  | mk {sign whole fraction exponent : List Char} (hsign : sign ∈ [[], ['-']])
      (hwhole : IsDigits whole) (hzero : whole.head? = some '0' → whole = ['0'])
      (hfraction : IsFraction fraction) (hexponent : IsExponent exponent) :
      IsNumber (sign ++ whole ++ fraction ++ exponent)

/-- The characters of numbers. -/
def isNumberChar (c : Char) : Bool :=
  c.isDigit || c == '-' || c == '+' || c == '.' || c == 'e' || c == 'E'

/-- The digits of a part of a number as one natural number. -/
def digitsValue (cs : List Char) : Nat := Nat.ofDigitChars 10 (cs.filter Char.isDigit) 0

/-- The sign of a part of a number. -/
def signValue (cs : List Char) : Int := if '-' ∈ cs then -1 else 1

/-- The number that is meant. Places behind the point lower the exponent. -/
def numberValue (cs : List Char) : ℚ :=
  let mantissa := cs.takeWhile fun c => c != 'e' && c != 'E'
  let exponent := cs.drop mantissa.length
  let places : Nat := (mantissa.dropWhile (· != '.')).countP Char.isDigit
  signValue mantissa * digitsValue mantissa *
    10 ^ (signValue exponent * digitsValue exponent - places)

example : numberValue ['-', '1', '2', '.', '5', '0', 'e', '+', '1'] = -125 := by decide +kernel

/-! ## The grammar -/

/-- The parts of a text, each with what it stands for. -/
inductive Part where
  | value (v : Value)
  /-- A value with white space around it. -/
  | element (v : Value)
  /-- Elements with commas between them, at least one. -/
  | elements (vs : List Value)
  /-- A name, a colon and an element. -/
  | member (m : String × Value)
  /-- Members with commas between them, at least one. -/
  | members (ms : List (String × Value))

/-- The text begins with the part, and `rest` comes behind it. -/
inductive Reads : List Char → Part → List Char → Prop where
  | null {rest : List Char} : Reads ('n' :: 'u' :: 'l' :: 'l' :: rest) (.value .null) rest
  | boolTrue {rest : List Char} :
      Reads ('t' :: 'r' :: 'u' :: 'e' :: rest) (.value (.bool true)) rest
  | boolFalse {rest : List Char} :
      Reads ('f' :: 'a' :: 'l' :: 's' :: 'e' :: rest) (.value (.bool false)) rest
  | number {cs lexeme rest : List Char} (h : IsNumber lexeme) (hcs : cs = lexeme ++ rest) :
      Reads cs (.value (.number (numberValue lexeme))) rest
  | string {cs s rest : List Char} (h : Chars cs s rest) :
      Reads ('"' :: cs) (.value (.string (String.ofList s))) rest
  | emptyArray {cs rest : List Char} (h : Spaces cs (']' :: rest)) :
      Reads ('[' :: cs) (.value (.array [])) rest
  | array {cs rest : List Char} {vs : List Value} (h : Reads cs (.elements vs) (']' :: rest)) :
      Reads ('[' :: cs) (.value (.array vs)) rest
  | emptyObject {cs rest : List Char} (h : Spaces cs ('\x7d' :: rest)) :
      Reads ('\x7b' :: cs) (.value (.object [])) rest
  | object {cs rest : List Char} {ms : List (String × Value)}
      (h : Reads cs (.members ms) ('\x7d' :: rest)) :
      Reads ('\x7b' :: cs) (.value (.object ms)) rest
  | element {cs cs₁ cs₂ rest : List Char} {v : Value} (before : Spaces cs cs₁)
      (h : Reads cs₁ (.value v) cs₂) (after : Spaces cs₂ rest) : Reads cs (.element v) rest
  | lastElement {cs rest : List Char} {v : Value} (h : Reads cs (.element v) rest) :
      Reads cs (.elements [v]) rest
  | nextElement {cs cs' rest : List Char} {v : Value} {vs : List Value}
      (h : Reads cs (.element v) (',' :: cs')) (hs : Reads cs' (.elements vs) rest) :
      Reads cs (.elements (v :: vs)) rest
  | member {cs cs₁ cs₂ cs₃ s rest : List Char} {v : Value} (before : Spaces cs ('"' :: cs₁))
      (name : Chars cs₁ s cs₂) (after : Spaces cs₂ (':' :: cs₃))
      (h : Reads cs₃ (.element v) rest) : Reads cs (.member (String.ofList s, v)) rest
  | lastMember {cs rest : List Char} {m : String × Value} (h : Reads cs (.member m) rest) :
      Reads cs (.members [m]) rest
  | nextMember {cs cs' rest : List Char} {m : String × Value} {ms : List (String × Value)}
      (h : Reads cs (.member m) (',' :: cs')) (hs : Reads cs' (.members ms) rest) :
      Reads cs (.members (m :: ms)) rest

/-- The text is one value, with white space around it, and nothing more. -/
def Denotes (text : List Char) (v : Value) : Prop := Reads text (.element v) []

/-! ## No text stands for two values

Where a part ends is not seen from the part alone: `1` is a number and so is `12`. What comes behind
a part inside a text tells, so the statement is about parts with the right character behind them. -/

/-- The text does not begin with white space. -/
def Sharp (cs : List Char) : Prop := ∀ c ∈ cs.head?, isSpace c = false

theorem Spaces.dropWhile_eq {cs rest : List Char} (h : Spaces cs rest) (hrest : Sharp rest) :
    cs.dropWhile isSpace = rest := by
  obtain ⟨blank, hblank, rfl⟩ := h
  rw [List.dropWhile_append_of_pos (List.all_eq_true.1 hblank)]
  cases rest with
  | nil => rfl
  | cons c rest => exact List.dropWhile_cons_of_neg (by simp [hrest c rfl])

theorem Spaces.unique {cs rest rest' : List Char} (h : Spaces cs rest) (h' : Spaces cs rest')
    (hrest : Sharp rest) (hrest' : Sharp rest') : rest = rest' :=
  (h.dropWhile_eq hrest).symm.trans (h'.dropWhile_eq hrest')

theorem Chars.unique {cs s s' rest rest' : List Char} (h : Chars cs s rest)
    (h' : Chars cs s' rest') : s = s' ∧ rest = rest' := by
  -- The first characters decide how a character is written; a pair of units is told from one unit
  -- by the first of them.
  induction h generalizing s' rest' with
  | close =>
    cases h' with
    | close => exact ⟨rfl, rfl⟩
    | plain hc => cases hc
  | plain hc hs ih =>
    cases h' with
    | close => cases hc
    | plain hc' hs' => exact (ih hs').imp_left (congrArg _)
    | short => cases hc
    | unit => cases hc
    | pair => cases hc
  | short he hs ih =>
    cases h' with
    | plain hc => cases hc
    | short he' hs' =>
      cases he.symm.trans he'
      exact (ih hs').imp_left (congrArg _)
    | unit => cases he
    | pair => cases he
  | unit hu hhigh hlow hs ih =>
    cases h' with
    | plain hc => cases hc
    | short he => cases he
    | unit hu' hhigh' hlow' hs' =>
      cases hu.symm.trans hu'
      exact (ih hs').imp_left (congrArg _)
    | pair hu' hhigh' =>
      cases hu.symm.trans hu'
      cases hhigh.symm.trans hhigh'
  | pair hu hhigh hu' hlow hs ih =>
    cases h' with
    | plain hc => cases hc
    | short he => cases he
    | unit hu'' hhigh' =>
      cases hu.symm.trans hu''
      cases hhigh.symm.trans hhigh'
    | pair hu₁ hhigh' hu₂ hlow' hs' =>
      cases hu.symm.trans hu₁
      cases hu'.symm.trans hu₂
      exact (ih hs').imp_left (congrArg _)

/-! ### Numbers -/

theorem IsDigits.numeric {cs : List Char} (h : IsDigits cs) :
    ∀ c ∈ cs, isNumberChar c = true := fun c hc => by simp [isNumberChar, h.2 c hc]

theorem IsFraction.numeric {cs : List Char} (h : IsFraction cs) :
    ∀ c ∈ cs, isNumberChar c = true := by
  rcases h with rfl | ⟨digits, hdigits, rfl⟩
  · exact List.forall_mem_nil _
  · exact List.forall_mem_cons.2 ⟨rfl, hdigits.numeric⟩

theorem IsExponent.numeric {cs : List Char} (h : IsExponent cs) :
    ∀ c ∈ cs, isNumberChar c = true := by
  have hletters : ['e', 'E'].all isNumberChar = true := rfl
  have hsigns : [[], ['+'], ['-']].all (List.all · isNumberChar) = true := rfl
  rcases h with rfl | ⟨e, he, sign, hsign, digits, hdigits, rfl⟩
  · exact List.forall_mem_nil _
  · have hletter := List.all_eq_true.1 hletters e he
    have hsign := List.all_eq_true.1 (List.all_eq_true.1 hsigns sign hsign)
    exact List.forall_mem_cons.2 ⟨hletter, List.forall_mem_append.2 ⟨hsign, hdigits.numeric⟩⟩

namespace IsNumber

variable {lexeme rest : List Char}

theorem numeric (h : IsNumber lexeme) : ∀ c ∈ lexeme, isNumberChar c = true := by
  obtain ⟨hsign, hwhole, -, hfraction, hexponent⟩ := h
  have hsigns : [[], ['-']].all (List.all · isNumberChar) = true := rfl
  have hsign := List.all_eq_true.1 (List.all_eq_true.1 hsigns _ hsign)
  simp only [List.forall_mem_append]
  exact ⟨⟨⟨hsign, hwhole.numeric⟩, hfraction.numeric⟩, hexponent.numeric⟩

/-- A number begins with a digit or a minus sign. -/
theorem exists_cons (h : IsNumber lexeme) :
    ∃ c tail, lexeme = c :: tail ∧ (c.isDigit = true ∨ c = '-') := by
  obtain @⟨sign, whole, fraction, exponent, hsign, ⟨hne, hdigits⟩, -, -, -⟩ := h
  obtain ⟨d, whole, rfl⟩ := List.exists_cons_of_ne_nil hne
  simp only [List.mem_cons, List.not_mem_nil, or_false] at hsign
  rcases hsign with rfl | rfl
  · exact ⟨d, _, rfl, .inl (hdigits d List.mem_cons_self)⟩
  · exact ⟨'-', _, rfl, .inr rfl⟩

theorem append_ne_cons (h : IsNumber lexeme) {c : Char} {cs : List Char}
    (hdigit : c.isDigit = false) (hsign : c ≠ '-') : c :: cs ≠ lexeme ++ rest := by
  obtain ⟨c', tail, rfl, hc'⟩ := h.exists_cons
  intro heq
  cases (List.cons.inj heq).1
  rcases hc' with hc' | hc'
  · cases hdigit.symm.trans hc'
  · exact hsign hc'

theorem takeWhile_eq (h : IsNumber lexeme)
    (hrest : ∀ c ∈ rest.head?, isNumberChar c = false) :
    (lexeme ++ rest).takeWhile isNumberChar = lexeme := by
  rw [List.takeWhile_append_of_pos h.numeric]
  cases rest with
  | nil => exact List.append_nil _
  | cons c rest => rw [List.takeWhile_cons_of_neg (by simp [hrest c rfl]), List.append_nil]

end IsNumber

/-! ### Parts -/

/-- The characters that come behind a part inside a text. -/
def mayFollow : Part → Char → Bool
  | .value _, c => !isNumberChar c
  | .element _, c | .member _, c => c == ',' || c == ']' || c == '\x7d'
  | .elements _, c => c == ']'
  | .members _, c => c == '\x7d'

/-- Behind the part there is nothing, or what comes behind such a part inside a text. -/
def Ends (part : Part) (rest : List Char) : Prop := ∀ c ∈ rest.head?, mayFollow part c = true

/-- The first characters of values. -/
def opensValue (c : Char) : Bool :=
  c.isDigit || c == '-' || c == '"' || c == '[' || c == '\x7b' || c == 'n' || c == 't' || c == 'f'

/-- The characters that open a part: the first behind the white space in front of it. -/
theorem Reads.opened {cs rest : List Char} {part : Part} (h : Reads cs part rest) :
    ∃ c tail, (match part with
      | .value _ => cs = c :: tail
      | _ => Spaces cs (c :: tail)) ∧ opensValue c = true := by
  induction h with
  | null => exact ⟨_, _, rfl, rfl⟩
  | boolTrue => exact ⟨_, _, rfl, rfl⟩
  | boolFalse => exact ⟨_, _, rfl, rfl⟩
  | number h hcs =>
    obtain ⟨c, tail, rfl, hc⟩ := h.exists_cons
    exact ⟨c, _, hcs, by rcases hc with hc | rfl <;> simp [opensValue, *]⟩
  | string h => exact ⟨_, _, rfl, rfl⟩
  | emptyArray h => exact ⟨_, _, rfl, rfl⟩
  | array h => exact ⟨_, _, rfl, rfl⟩
  | emptyObject h => exact ⟨_, _, rfl, rfl⟩
  | object h => exact ⟨_, _, rfl, rfl⟩
  | element before h after ih =>
    obtain ⟨c, tail, rfl, hc⟩ := ih
    exact ⟨c, tail, before, hc⟩
  | lastElement h ih => exact ih
  | nextElement h hs ih ihs => exact ih
  | member before name after h ih => exact ⟨_, _, before, rfl⟩
  | lastMember h ih => exact ih
  | nextMember h hs ih ihs => exact ih

section Ends

variable {c : Char} {cs rest : List Char} {part : Part} {v : Value}

theorem ends_nil : Ends part [] := by
  rintro _ ⟨⟩

theorem ends_cons (h : mayFollow part c = true) : Ends part (c :: rest) := by
  rintro _ ⟨⟩
  exact h

theorem sharp_cons (h : isSpace c = false) : Sharp (c :: rest) := by
  rintro _ ⟨⟩
  exact h

theorem sharp_of_opensValue (h : opensValue c = true) : Sharp (c :: rest) := by
  refine sharp_cons ?_
  simp only [opensValue, Bool.or_eq_true, beq_iff_eq] at h
  rcases h with (((((((h | rfl) | rfl) | rfl) | rfl) | rfl) | rfl) | rfl)
  · simp only [isSpace, Bool.or_eq_false_iff, beq_eq_false_iff_ne]
    refine ⟨⟨⟨?_, ?_⟩, ?_⟩, ?_⟩ <;> (rintro rfl; cases h)
  all_goals rfl

theorem Ends.mono {part' : Part} (h : Ends part rest)
    (hsub : ∀ c, mayFollow part c = true → mayFollow part' c = true) : Ends part' rest :=
  fun c hc => hsub c (h c hc)

theorem Ends.element {vs : List Value} (h : Ends (.elements vs) rest) : Ends (.element v) rest :=
  h.mono fun c hc => by
    cases beq_iff_eq.1 hc
    rfl

theorem Ends.member {m : String × Value} {ms : List (String × Value)}
    (h : Ends (.members ms) rest) : Ends (.member m) rest :=
  h.mono fun c hc => by
    cases beq_iff_eq.1 hc
    rfl

/-- What comes behind an element is neither white space nor a part of a number. -/
theorem Ends.sharp (h : Ends (.element v) rest) : Sharp rest := by
  intro c hc
  have hc := h c hc
  simp only [mayFollow, Bool.or_eq_true, beq_iff_eq] at hc
  rcases hc with (rfl | rfl) | rfl <;> rfl

theorem Ends.value (h : Ends (.element v) rest) (hcs : Spaces cs rest) : Ends (.value v) cs := by
  obtain ⟨blank, hblank, rfl⟩ := hcs
  cases blank with
  | nil =>
    refine h.mono fun c hc => ?_
    simp only [mayFollow, Bool.or_eq_true, beq_iff_eq] at hc
    rcases hc with (rfl | rfl) | rfl <;> rfl
  | cons b blank =>
    have hb := List.all_eq_true.1 hblank b List.mem_cons_self
    simp only [isSpace, Bool.or_eq_true, beq_iff_eq] at hb
    refine ends_cons ?_
    rcases hb with ((rfl | rfl) | rfl) | rfl <;> rfl

theorem Ends.not_numeric (h : Ends (.value v) rest) : ∀ c ∈ rest.head?, isNumberChar c = false :=
  fun c hc => by simpa [mayFollow] using h c hc

theorem Ends.ne_cons (h : Ends part rest) (hc : mayFollow part c = false) : rest ≠ c :: cs := by
  rintro rfl
  cases hc.symm.trans (h c rfl)

theorem Reads.sharp (h : Reads cs (.value v) rest) : Sharp cs := by
  obtain ⟨c, tail, rfl, hc⟩ := h.opened
  exact sharp_of_opensValue hc

/-- Behind the white space in front of a part stands a character that opens values. -/
theorem Reads.not_spaces (h : Reads cs part rest) {c : Char} {tail : List Char}
    (hspace : isSpace c = false) (hc : opensValue c = false) : ¬ Spaces cs (c :: tail) := by
  intro hcs
  obtain ⟨c', tail', hopened, hc'⟩ := h.opened
  have hopened : Spaces cs (c' :: tail') := by
    cases part with
    | value v => exact ⟨[], rfl, hopened⟩
    | _ => exact hopened
  cases hcs.unique hopened (sharp_cons hspace) (sharp_of_opensValue hc')
  cases hc.symm.trans hc'

end Ends

/-- Whatever part of the same kind can be read here is the same, if it ends where it may. -/
def Determined (cs : List Char) (part : Part) (rest : List Char) : Prop :=
  match part with
  | .value v => ∀ v' rest', Reads cs (.value v') rest' → Ends (.value v') rest' →
      v = v' ∧ rest = rest'
  | .element v => ∀ v' rest', Reads cs (.element v') rest' → Ends (.element v') rest' →
      v = v' ∧ rest = rest'
  | .elements vs => ∀ vs' rest', Reads cs (.elements vs') rest' → Ends (.elements vs') rest' →
      vs = vs' ∧ rest = rest'
  | .member m => ∀ m' rest', Reads cs (.member m') rest' → Ends (.member m') rest' →
      m = m' ∧ rest = rest'
  | .members ms => ∀ ms' rest', Reads cs (.members ms') rest' → Ends (.members ms') rest' →
      ms = ms' ∧ rest = rest'

namespace Determined

variable {cs cs' cs₁ cs₂ cs₃ s lexeme rest : List Char} {v : Value} {vs : List Value}
  {m : String × Value} {ms : List (String × Value)}

theorem null : Determined ('n' :: 'u' :: 'l' :: 'l' :: rest) (.value .null) rest := by
  intro v' rest' h' _
  cases h' with
  | null => exact ⟨rfl, rfl⟩
  | number h' hcs' => exact absurd hcs' (h'.append_ne_cons rfl (by decide))

theorem boolTrue : Determined ('t' :: 'r' :: 'u' :: 'e' :: rest) (.value (.bool true)) rest := by
  intro v' rest' h' _
  cases h' with
  | boolTrue => exact ⟨rfl, rfl⟩
  | number h' hcs' => exact absurd hcs' (h'.append_ne_cons rfl (by decide))

theorem boolFalse :
    Determined ('f' :: 'a' :: 'l' :: 's' :: 'e' :: rest) (.value (.bool false)) rest := by
  intro v' rest' h' _
  cases h' with
  | boolFalse => exact ⟨rfl, rfl⟩
  | number h' hcs' => exact absurd hcs' (h'.append_ne_cons rfl (by decide))

/-- A number is all the characters of numbers that the text begins with. -/
theorem number (h : IsNumber lexeme) (hcs : cs = lexeme ++ rest) (hends : Ends (.value v) rest) :
    Determined cs (.value (.number (numberValue lexeme))) rest := by
  intro v' rest' h' hends'
  cases h' with
  | number h' hcs' =>
    have hlexeme := h.takeWhile_eq hends.not_numeric
    rw [← hcs, hcs', h'.takeWhile_eq hends'.not_numeric] at hlexeme
    subst hlexeme
    rw [hcs, List.append_cancel_left_eq] at hcs'
    exact ⟨rfl, hcs'⟩
  | _ => exact absurd hcs (h.append_ne_cons rfl (by decide))

theorem string (h : Chars cs s rest) :
    Determined ('"' :: cs) (.value (.string (String.ofList s))) rest := by
  intro v' rest' h' _
  cases h' with
  | string h' =>
    obtain ⟨rfl, rfl⟩ := h.unique h'
    exact ⟨rfl, rfl⟩
  | number h' hcs' => exact absurd hcs' (h'.append_ne_cons rfl (by decide))

theorem emptyArray (h : Spaces cs (']' :: rest)) :
    Determined ('[' :: cs) (.value (.array [])) rest := by
  intro v' rest' h' _
  cases h' with
  | emptyArray h' =>
    cases h.unique h' (sharp_cons rfl) (sharp_cons rfl)
    exact ⟨rfl, rfl⟩
  | array h' => exact absurd h (h'.not_spaces rfl rfl)
  | number h' hcs' => exact absurd hcs' (h'.append_ne_cons rfl (by decide))

theorem array (h : Reads cs (.elements vs) (']' :: rest))
    (ih : Determined cs (.elements vs) (']' :: rest)) :
    Determined ('[' :: cs) (.value (.array vs)) rest := by
  intro v' rest' h' _
  cases h' with
  | emptyArray h' => exact absurd h' (h.not_spaces rfl rfl)
  | array h' =>
    obtain ⟨rfl, hrest⟩ := ih _ _ h' (ends_cons rfl)
    cases hrest
    exact ⟨rfl, rfl⟩
  | number h' hcs' => exact absurd hcs' (h'.append_ne_cons rfl (by decide))

theorem emptyObject (h : Spaces cs ('\x7d' :: rest)) :
    Determined ('\x7b' :: cs) (.value (.object [])) rest := by
  intro v' rest' h' _
  cases h' with
  | emptyObject h' =>
    cases h.unique h' (sharp_cons rfl) (sharp_cons rfl)
    exact ⟨rfl, rfl⟩
  | object h' => exact absurd h (h'.not_spaces rfl rfl)
  | number h' hcs' => exact absurd hcs' (h'.append_ne_cons rfl (by decide))

theorem object (h : Reads cs (.members ms) ('\x7d' :: rest))
    (ih : Determined cs (.members ms) ('\x7d' :: rest)) :
    Determined ('\x7b' :: cs) (.value (.object ms)) rest := by
  intro v' rest' h' _
  cases h' with
  | emptyObject h' => exact absurd h' (h.not_spaces rfl rfl)
  | object h' =>
    obtain ⟨rfl, hrest⟩ := ih _ _ h' (ends_cons rfl)
    cases hrest
    exact ⟨rfl, rfl⟩
  | number h' hcs' => exact absurd hcs' (h'.append_ne_cons rfl (by decide))

theorem element (before : Spaces cs cs₁) (h : Reads cs₁ (.value v) cs₂) (after : Spaces cs₂ rest)
    (hends : Ends (.element v) rest) (ih : Determined cs₁ (.value v) cs₂) :
    Determined cs (.element v) rest := by
  intro v' rest' h' hends'
  cases h' with
  | element before' h' after' =>
    cases before.unique before' h.sharp h'.sharp
    obtain ⟨rfl, rfl⟩ := ih _ _ h' (hends'.value after')
    exact ⟨rfl, after.unique after' hends.sharp hends'.sharp⟩

theorem lastElement (hends : Ends (.elements [v]) rest) (ih : Determined cs (.element v) rest) :
    Determined cs (.elements [v]) rest := by
  intro vs' rest' h' hends'
  cases h' with
  | lastElement h' =>
    obtain ⟨rfl, rfl⟩ := ih _ _ h' hends'.element
    exact ⟨rfl, rfl⟩
  | nextElement h' hs' => exact absurd (ih _ _ h' (ends_cons rfl)).2 (hends.ne_cons rfl)

theorem nextElement (ih : Determined cs (.element v) (',' :: cs'))
    (ihs : Determined cs' (.elements vs) rest) : Determined cs (.elements (v :: vs)) rest := by
  intro vs' rest' h' hends'
  cases h' with
  | lastElement h' => exact absurd (ih _ _ h' hends'.element).2.symm (hends'.ne_cons rfl)
  | nextElement h' hs' =>
    obtain ⟨rfl, hrest⟩ := ih _ _ h' (ends_cons rfl)
    cases hrest
    obtain ⟨rfl, rfl⟩ := ihs _ _ hs' hends'
    exact ⟨rfl, rfl⟩

theorem member (before : Spaces cs ('"' :: cs₁)) (name : Chars cs₁ s cs₂)
    (after : Spaces cs₂ (':' :: cs₃)) (ih : Determined cs₃ (.element v) rest) :
    Determined cs (.member (String.ofList s, v)) rest := by
  intro m' rest' h' hends'
  cases h' with
  | member before' name' after' h' =>
    cases before.unique before' (sharp_cons rfl) (sharp_cons rfl)
    obtain ⟨rfl, rfl⟩ := name.unique name'
    cases after.unique after' (sharp_cons rfl) (sharp_cons rfl)
    obtain ⟨rfl, rfl⟩ := ih _ _ h' hends'
    exact ⟨rfl, rfl⟩

theorem lastMember (hends : Ends (.members [m]) rest) (ih : Determined cs (.member m) rest) :
    Determined cs (.members [m]) rest := by
  intro ms' rest' h' hends'
  cases h' with
  | lastMember h' =>
    obtain ⟨rfl, rfl⟩ := ih _ _ h' hends'.member
    exact ⟨rfl, rfl⟩
  | nextMember h' hs' => exact absurd (ih _ _ h' (ends_cons rfl)).2 (hends.ne_cons rfl)

theorem nextMember (ih : Determined cs (.member m) (',' :: cs'))
    (ihs : Determined cs' (.members ms) rest) : Determined cs (.members (m :: ms)) rest := by
  intro ms' rest' h' hends'
  cases h' with
  | lastMember h' => exact absurd (ih _ _ h' hends'.member).2.symm (hends'.ne_cons rfl)
  | nextMember h' hs' =>
    obtain ⟨rfl, hrest⟩ := ih _ _ h' (ends_cons rfl)
    cases hrest
    obtain ⟨rfl, rfl⟩ := ihs _ _ hs' hends'
    exact ⟨rfl, rfl⟩

end Determined

/-- What a part stands for and where it ends is determined by the text and what may follow it. -/
theorem Reads.determined {cs rest : List Char} {part : Part} (h : Reads cs part rest)
    (hends : Ends part rest) : Determined cs part rest := by
  induction h with
  | null => exact .null
  | boolTrue => exact .boolTrue
  | boolFalse => exact .boolFalse
  | number h hcs => exact .number h hcs hends
  | string h => exact .string h
  | emptyArray h => exact .emptyArray h
  | array h ih => exact .array h (ih (ends_cons rfl))
  | emptyObject h => exact .emptyObject h
  | object h ih => exact .object h (ih (ends_cons rfl))
  | element before h after ih => exact .element before h after hends (ih (hends.value after))
  | lastElement h ih => exact .lastElement hends (ih hends.element)
  | nextElement h hs ih ihs => exact .nextElement (ih (ends_cons rfl)) (ihs hends)
  | member before name after h ih => exact .member before name after (ih hends)
  | lastMember h ih => exact .lastMember hends (ih hends.member)
  | nextMember h hs ih ihs => exact .nextMember (ih (ends_cons rfl)) (ihs hends)

/-- A text stands for one value at most. -/
theorem Denotes.unique {text : List Char} {v v' : Value} (h : Denotes text v)
    (h' : Denotes text v') : v = v' :=
  (h.determined ends_nil v' [] h' ends_nil).1

end FrontEnd.Json
