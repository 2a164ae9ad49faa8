import FrontEnd.Pattern.Reader

/-!
# The grammar of patterns

A pattern is written by a grammar of four levels: alternatives with bars between them, parts one
behind the other, repetition signs behind an atom, and atoms, of which groups and character classes
have something inside. Here the derivations of that grammar are trees, and the side conditions are
part of them, so that every tree is a derivation. A tree has a text and a pattern that it means.

- `Atom`, `Repeat`, `Alternation`: derivations, with their texts and values;
- `ClassItem`, `ClassBody`: what stands in brackets. A caret behind the bracket is always a sign,
  and a character behind which a dash stands always begins a range, unless the bracket closes behind
  the dash;
- `ClassBody.text_injective`, `Atom.text_injective`: no text of a class or of an atom begins another
  one;
- `Alternation.text_injective`: **a text has one derivation**.
-/

namespace FrontEnd.PatternSyntax

/-! ## Escapes -/

/-- The letters that stand for whole classes. -/
inductive Shorthand where
  | digit
  | word
  | blank
  deriving DecidableEq, Repr

namespace Shorthand

/-- The letter behind the backslash. -/
def letter : Shorthand → Char
  | digit => 'd'
  | word => 'w'
  | blank => 's'

/-- The letter for all other characters. -/
def complement : Shorthand → Char
  | digit => 'D'
  | word => 'W'
  | blank => 'S'

/-- The characters that the letter stands for. -/
def ranges : Shorthand → List (Char × Char)
  | digit => CharClass.digits
  | word => CharClass.wordChars
  | blank => CharClass.blanks

end Shorthand

/-- The escapes that stand for one character. -/
inductive CharEscape where
  | lineFeed
  | carriageReturn
  | tab
  | nul
  /-- Punctuation stands for itself. -/
  | punctuation (c : Char) (h : isPunctuation c = true)

namespace CharEscape

/-- The character behind the backslash. -/
def letter : CharEscape → Char
  | lineFeed => 'n'
  | carriageReturn => 'r'
  | tab => 't'
  | nul => '0'
  | punctuation c _ => c

/-- The character that the escape stands for. -/
def char : CharEscape → Char
  | lineFeed => '\n'
  | carriageReturn => '\r'
  | tab => '\t'
  | nul => '\x00'
  | punctuation c _ => c

end CharEscape

/-- An escape outside of brackets. -/
inductive Escape where
  | shorthand (s : Shorthand)
  | complement (s : Shorthand)
  | char (e : CharEscape)

namespace Escape

/-- The character behind the backslash. -/
def letter : Escape → Char
  | shorthand s => s.letter
  | complement s => s.complement
  | char e => e.letter

/-- The class that the escape stands for. -/
def value : Escape → CharClass
  | shorthand s => ⟨s.ranges, false⟩
  | complement s => ⟨s.ranges, true⟩
  | char e => .single e.char

end Escape

/-! ## Classes -/

/-- A character in brackets, as itself or escaped. -/
inductive ClassChar where
  | plain (c : Char) (h : c ≠ ']' ∧ c ≠ '\\')
  | escape (e : CharEscape)

namespace ClassChar

/-- How the character is written. -/
def text : ClassChar → List Char
  | plain c _ => [c]
  | escape e => ['\\', e.letter]

/-- The character that is meant. -/
def char : ClassChar → Char
  | plain c _ => c
  | escape e => e.char

end ClassChar

/-- An item in brackets. -/
inductive ClassItem where
  | shorthand (s : Shorthand)
  | char (x : ClassChar)
  | range (lo hi : ClassChar) (h : lo.char ≤ hi.char)

namespace ClassItem

/-- How the item is written. -/
def text : ClassItem → List Char
  | shorthand s => ['\\', s.letter]
  | char x => x.text
  | range lo hi _ => lo.text ++ '-' :: hi.text

/-- The characters that the item adds to the class. -/
def ranges : ClassItem → List (Char × Char)
  | shorthand s => s.ranges
  | char x => [(x.char, x.char)]
  | range lo hi _ => [(lo.char, hi.char)]

end ClassItem

/-- Items one behind the other. -/
def itemsText (items : List ClassItem) : List Char := items.flatMap ClassItem.text

/-- No range goes on here: a dash comes last, or the bracket closes behind it. -/
def Rangeless (cs : List Char) : Prop := ∀ c u, cs = '-' :: c :: u → c = ']'

/-- No single character stands where a range begins: when a dash comes behind it, that is the end of
the class. -/
def Settled : List ClassItem → Prop
  | [] => True
  | .char _ :: items => (∀ u, itemsText items = '-' :: u → u = []) ∧ Settled items
  | .shorthand _ :: items => Settled items
  | .range .. :: items => Settled items

/-- A class with its brackets. -/
structure ClassBody where
  negated : Bool
  items : List ClassItem
  ne_nil : items ≠ []
  settled : Settled items
  /-- A caret behind the bracket is the sign of a negated class. -/
  caret : negated = false → ∀ u, itemsText items ≠ '^' :: u

namespace ClassBody

/-- What is written behind the opening bracket. -/
def inner (b : ClassBody) : List Char :=
  (if b.negated then ['^'] else []) ++ itemsText b.items ++ [']']

/-- How the class is written. -/
def text (b : ClassBody) : List Char := '[' :: b.inner

/-- The class that is meant. -/
def value (b : ClassBody) : CharClass := ⟨b.items.flatMap ClassItem.ranges, b.negated⟩

end ClassBody

/-! ## Patterns -/

/-- A repetition sign. -/
inductive Sign where
  | star
  | plus
  | opt
  deriving DecidableEq, Repr

namespace Sign

/-- How the sign is written. -/
def char : Sign → Char
  | star => '*'
  | plus => '+'
  | opt => '?'

/-- A pattern under the sign. -/
def wrap : Sign → Pattern → Pattern
  | star => .star
  | plus => .plus
  | opt => .opt

end Sign

/-- The characters that do not stand for themselves outside of brackets. -/
def specials : List Char := ['|', ')', '(', '[', '.', '\\', '*', '+', '?']

mutual

/-- What a repetition sign can stand behind. -/
inductive Atom where
  /-- Alternatives in parentheses: all but the last one, and the last one. -/
  | group (earlier : List (List Repeat)) (last : List Repeat)
  | cls (body : ClassBody)
  /-- The dot. -/
  | any
  | escape (e : Escape)
  | literal (c : Char) (h : c ∉ specials)

/-- An atom and the repetition signs behind it. -/
inductive Repeat where
  | mk (atom : Atom) (signs : List Sign)

end

mutual

/-- How the atom is written. -/
def Atom.text : Atom → List Char
  | .group earlier last => '(' :: (earlierText earlier ++ concatText last ++ [')'])
  | .cls body => body.text
  | .any => ['.']
  | .escape e => ['\\', e.letter]
  | .literal c _ => [c]

def Repeat.text : Repeat → List Char
  | .mk atom signs => atom.text ++ signs.map Sign.char

/-- Parts one behind the other. -/
def concatText : List Repeat → List Char
  | [] => []
  | r :: rs => r.text ++ concatText rs

/-- Alternatives with a bar behind each. -/
def earlierText : List (List Repeat) → List Char
  | [] => []
  | c :: cs => concatText c ++ '|' :: earlierText cs

end

mutual

/-- The pattern that is meant. -/
def Atom.value : Atom → Pattern
  | .group earlier last => .choice (earlierValues earlier ++ [.sequence (concatValues last)])
  | .cls body => .chars body.value
  | .any => .chars .anyButLineFeed
  | .escape e => .chars e.value
  | .literal c _ => .chars (.single c)

def Repeat.value : Repeat → Pattern
  | .mk atom signs => signs.foldl (fun p s => s.wrap p) atom.value

/-- The patterns of parts. -/
def concatValues : List Repeat → List Pattern
  | [] => []
  | r :: rs => r.value :: concatValues rs

/-- The patterns of alternatives. -/
def earlierValues : List (List Repeat) → List Pattern
  | [] => []
  | c :: cs => .sequence (concatValues c) :: earlierValues cs

end

/-- Parts one behind the other. -/
abbrev Concat := List Repeat

/-- A whole pattern: alternatives with bars between them, all but the last one and the last one. -/
structure Alternation where
  earlier : List Concat
  last : Concat

namespace Alternation

/-- How the alternatives are written. -/
def text (a : Alternation) : List Char := earlierText a.earlier ++ concatText a.last

/-- The pattern that is meant. A single alternative is itself. -/
def value (a : Alternation) : Pattern :=
  .choice (earlierValues a.earlier ++ [.sequence (concatValues a.last)])

end Alternation

/-! ## Escapes are known by their letters -/

namespace Shorthand

theorem letter_injective {s s' : Shorthand} (h : s.letter = s'.letter) : s = s' := by
  cases s <;> cases s' <;> first | rfl | exact absurd h (by decide)

theorem complement_injective {s s' : Shorthand} (h : s.complement = s'.complement) : s = s' := by
  cases s <;> cases s' <;> first | rfl | exact absurd h (by decide)

theorem letter_ne_complement (s s' : Shorthand) : s.letter ≠ s'.complement := by
  cases s <;> cases s' <;> decide

end Shorthand

/-- The letters of the controls. -/
def controlLetters : List Char := ['n', 'r', 't', '0']

namespace CharEscape

variable {e e' : CharEscape} {c : Char}

theorem letter_cases (e : CharEscape) :
    isPunctuation e.letter = true ∨ e.letter ∈ controlLetters := by
  cases e with
  | punctuation c h => exact .inl h
  | _ => exact .inr (by decide)

theorem letter_ne (hc : isPunctuation c = false) (hcontrol : c ∉ controlLetters) :
    e.letter ≠ c := by
  rintro rfl
  rcases e.letter_cases with h | h
  · exact Bool.false_ne_true (hc.symm.trans h)
  · exact hcontrol h

theorem letter_ne_shorthand (e : CharEscape) (s : Shorthand) : e.letter ≠ s.letter := by
  cases s <;> exact letter_ne (by decide) (by decide)

theorem letter_ne_complement (e : CharEscape) (s : Shorthand) : e.letter ≠ s.complement := by
  cases s <;> exact letter_ne (by decide) (by decide)

/-- No punctuation is the letter of a control. -/
theorem not_mem_controlLetters (hc : isPunctuation c = true) : c ∉ controlLetters := by
  intro hmem
  have hall : controlLetters.all (!isPunctuation ·) = true := by decide
  have hnot := List.all_eq_true.1 hall c hmem
  rw [hc] at hnot
  exact Bool.false_ne_true hnot

theorem letter_injective (h : e.letter = e'.letter) : e = e' := by
  cases e with
  | punctuation c hc =>
    cases e' with
    | punctuation c' hc' =>
      obtain rfl : c = c' := h
      rfl
    | _ =>
      obtain rfl := h
      exact absurd (by decide) (not_mem_controlLetters hc)
  | _ =>
    cases e' with
    | punctuation c' hc' =>
      obtain rfl := h
      exact absurd (by decide) (not_mem_controlLetters hc')
    | _ => first | rfl | exact absurd h (by decide)

end CharEscape

theorem Escape.letter_injective {e e' : Escape} (h : e.letter = e'.letter) : e = e' := by
  cases e with
  | shorthand s =>
    cases e' with
    | shorthand s' => rw [Shorthand.letter_injective h]
    | complement s' => exact absurd h (s.letter_ne_complement s')
    | char e' => exact absurd h.symm (e'.letter_ne_shorthand s)
  | complement s =>
    cases e' with
    | shorthand s' => exact absurd h.symm (s'.letter_ne_complement s)
    | complement s' => rw [Shorthand.complement_injective h]
    | char e' => exact absurd h.symm (e'.letter_ne_complement s)
  | char e =>
    cases e' with
    | shorthand s' => exact absurd h (e.letter_ne_shorthand s')
    | complement s' => exact absurd h (e.letter_ne_complement s')
    | char e' => rw [CharEscape.letter_injective h]

/-! ## Classes are known by their texts -/

section Classes

variable {x y : ClassChar} {i j : ClassItem} {items items' : List ClassItem} {k k' : List Char}

/-- No text of a character begins another one. -/
theorem ClassChar.text_injective (h : x.text ++ k = y.text ++ k') : x = y ∧ k = k' := by
  cases x with
  | plain c hc =>
    cases y with
    | plain c' hc' =>
      obtain ⟨rfl, rfl⟩ := List.cons.inj h
      exact ⟨rfl, rfl⟩
    | escape e => exact absurd (List.cons.inj h).1 hc.2
  | escape e =>
    cases y with
    | plain c hc => exact absurd (List.cons.inj h).1.symm hc.2
    | escape e' =>
      obtain ⟨hletter, rfl⟩ := List.cons.inj (List.cons.inj h).2
      exact ⟨by rw [CharEscape.letter_injective hletter], rfl⟩

/-- No character begins with a closing bracket. -/
theorem ClassChar.text_ne (x : ClassChar) (k k' : List Char) : x.text ++ k ≠ ']' :: k' := by
  cases x with
  | plain c hc => exact fun h => hc.1 (List.cons.inj h).1
  | escape e => exact fun h => absurd (List.cons.inj h).1 (by decide)

/-- A shorthand is no character. -/
theorem ClassChar.text_ne_shorthand (x : ClassChar) (s : Shorthand) (k k' : List Char) :
    x.text ++ k ≠ '\\' :: s.letter :: k' := by
  cases x with
  | plain c hc => exact fun h => hc.2 (List.cons.inj h).1
  | escape e => exact fun h => e.letter_ne_shorthand s (List.cons.inj (List.cons.inj h).2).1

theorem ClassItem.text_ne (i : ClassItem) (k k' : List Char) : i.text ++ k ≠ ']' :: k' := by
  cases i with
  | shorthand s => exact fun h => absurd (List.cons.inj h).1 (by decide)
  | char x => exact x.text_ne k k'
  | range lo hi h =>
    rw [ClassItem.text, List.append_assoc]
    exact lo.text_ne _ k'

theorem itemsText_cons (i : ClassItem) (items : List ClassItem) :
    itemsText (i :: items) = i.text ++ itemsText items := rfl

theorem ClassChar.text_ne_nil (x : ClassChar) : x.text ≠ [] := by
  cases x <;> exact List.cons_ne_nil _ _

theorem itemsText_ne_nil (i : ClassItem) (items : List ClassItem) :
    itemsText (i :: items) ≠ [] := by
  have htext : i.text ≠ [] := by
    cases i with
    | char x => exact x.text_ne_nil
    | shorthand s => exact List.cons_ne_nil _ _
    | range lo hi h => exact List.append_ne_nil_of_right_ne_nil _ (List.cons_ne_nil _ _)
  exact List.append_ne_nil_of_left_ne_nil htext _

/-- Behind a single character no range goes on. -/
theorem Settled.rangeless (h : Settled (.char x :: items)) :
    Rangeless (itemsText items ++ ']' :: k) := by
  intro c u heq
  cases items with
  | nil => exact absurd (List.cons.inj heq).1 (by decide)
  | cons i items =>
    obtain ⟨d, v, htext⟩ := List.exists_cons_of_ne_nil (itemsText_ne_nil i items)
    rw [htext, List.cons_append] at heq
    obtain ⟨rfl, hrest⟩ := List.cons.inj heq
    obtain rfl := h.1 v htext
    exact (List.cons.inj hrest).1.symm

theorem Settled.ne_range (h : Settled (.char x :: items)) :
    itemsText items ++ ']' :: k ≠ '-' :: (y.text ++ k') := by
  intro heq
  obtain ⟨c, u, htext⟩ := List.exists_cons_of_ne_nil y.text_ne_nil
  rw [htext, List.cons_append] at heq
  obtain rfl := h.rangeless c _ heq
  exact y.text_ne [] u (by rw [htext, List.append_nil])

/-- The first item of a class is known by the text. -/
theorem Settled.item_injective (hs : Settled (i :: items)) (hs' : Settled (j :: items'))
    (h : i.text ++ (itemsText items ++ ']' :: k) = j.text ++ (itemsText items' ++ ']' :: k')) :
    i = j ∧ itemsText items ++ ']' :: k = itemsText items' ++ ']' :: k' := by
  -- A character behind which no dash stands is not the beginning of a range, and none of them
  -- begins like a shorthand.
  cases i with
  | shorthand s =>
    cases j with
    | shorthand s' =>
      obtain ⟨hletter, hrest⟩ := List.cons.inj (List.cons.inj h).2
      exact ⟨by rw [Shorthand.letter_injective hletter], hrest⟩
    | char y => exact absurd h.symm (y.text_ne_shorthand s _ _)
    | range lo hi _ =>
      rw [ClassItem.text, ClassItem.text, List.append_assoc] at h
      exact absurd h.symm (lo.text_ne_shorthand s _ _)
  | char x =>
    cases j with
    | shorthand s => exact absurd h (x.text_ne_shorthand s _ _)
    | char y =>
      obtain ⟨rfl, hrest⟩ := ClassChar.text_injective h
      exact ⟨rfl, hrest⟩
    | range lo hi _ =>
      rw [ClassItem.text, ClassItem.text, List.append_assoc] at h
      exact absurd (ClassChar.text_injective h).2 hs.ne_range
  | range lo hi hle =>
    cases j with
    | shorthand s =>
      rw [ClassItem.text, ClassItem.text, List.append_assoc] at h
      exact absurd h (lo.text_ne_shorthand s _ _)
    | char y =>
      rw [ClassItem.text, ClassItem.text, List.append_assoc] at h
      exact absurd (ClassChar.text_injective h).2.symm hs'.ne_range
    | range lo' hi' hle' =>
      rw [ClassItem.text, ClassItem.text, List.append_assoc, List.append_assoc] at h
      obtain ⟨rfl, hdash⟩ := ClassChar.text_injective h
      obtain ⟨rfl, hrest⟩ := ClassChar.text_injective (List.cons.inj hdash).2
      exact ⟨rfl, hrest⟩

theorem Settled.tail (h : Settled (i :: items)) : Settled items := by
  cases i with
  | char x => exact h.2
  | shorthand s => exact h
  | range lo hi hle => exact h

/-- A class is divided into items in one way. -/
theorem itemsText_injective (h : itemsText items ++ ']' :: k = itemsText items' ++ ']' :: k')
    (hs : Settled items) (hs' : Settled items') : items = items' ∧ k = k' := by
  induction items generalizing items' with
  | nil =>
    cases items' with
    | nil => exact ⟨rfl, (List.cons.inj h).2⟩
    | cons j items' =>
      rw [itemsText_cons, List.append_assoc] at h
      exact absurd h.symm (j.text_ne _ _)
  | cons i items ih =>
    cases items' with
    | nil =>
      rw [itemsText_cons, List.append_assoc] at h
      exact absurd h (i.text_ne _ _)
    | cons j items' =>
      rw [itemsText_cons, itemsText_cons, List.append_assoc, List.append_assoc] at h
      obtain ⟨rfl, hrest⟩ := hs.item_injective hs' h
      obtain ⟨rfl, hk⟩ := ih hrest hs.tail hs'.tail
      exact ⟨rfl, hk⟩

theorem itemsText_ne_caret (hne : items ≠ []) (hcaret : ∀ u, itemsText items ≠ '^' :: u) :
    itemsText items ++ k ≠ '^' :: k' := by
  intro h
  obtain ⟨i, items, rfl⟩ := List.exists_cons_of_ne_nil hne
  obtain ⟨c, u, htext⟩ := List.exists_cons_of_ne_nil (itemsText_ne_nil i items)
  rw [htext, List.cons_append] at h
  obtain ⟨rfl, -⟩ := List.cons.inj h
  exact hcaret u htext

/-- No text of a class begins another one. -/
theorem ClassBody.text_injective {b b' : ClassBody} (h : b.text ++ k = b'.text ++ k') :
    b = b' ∧ k = k' := by
  obtain ⟨negated, items, hne, hsettled, hcaret⟩ := b
  obtain ⟨negated', items', hne', hsettled', hcaret'⟩ := b'
  simp only [text, inner, List.cons_append, List.cons.injEq, true_and, List.append_assoc,
    List.nil_append] at h
  have hbody : negated = negated' ∧
      itemsText items ++ ']' :: k = itemsText items' ++ ']' :: k' := by
    cases negated <;> cases negated'
    · exact ⟨rfl, h⟩
    · exact absurd h (itemsText_ne_caret hne (hcaret rfl))
    · exact absurd h.symm (itemsText_ne_caret hne' (hcaret' rfl))
    · exact ⟨rfl, (List.cons.inj h).2⟩
  obtain ⟨rfl, hitems⟩ := hbody
  obtain ⟨rfl, hk⟩ := itemsText_injective hitems hsettled hsettled'
  exact ⟨rfl, hk⟩

end Classes

section Patterns

variable {k k' : List Char}

/-- The text can go on behind parts: there is nothing, a bar or a closing parenthesis. -/
def Stops (k : List Char) : Prop := ∀ c u, k = c :: u → c = '|' ∨ c = ')'

/-- The text can go on behind alternatives: there is nothing or a closing parenthesis. -/
def Closes (k : List Char) : Prop := ∀ c u, k = c :: u → c = ')'

/-- No repetition sign comes first. -/
def Unsigned (k : List Char) : Prop := ∀ (s : Sign) u, k ≠ s.char :: u

theorem Closes.stops (h : Closes k) : Stops k := fun c u hk => .inr (h c u hk)

theorem closes_nil : Closes [] := nofun

theorem closes_parenthesis (k : List Char) : Closes (')' :: k) :=
  fun _ _ h => (List.cons.inj h).1.symm

theorem stops_bar (k : List Char) : Stops ('|' :: k) := fun _ _ h => .inl (List.cons.inj h).1.symm

theorem Stops.unsigned (h : Stops k) : Unsigned k := by
  intro s u hk
  rcases h _ u hk with hs | hs <;> cases s <;> exact absurd hs (by decide)

theorem Sign.char_injective {s s' : Sign} (h : s.char = s'.char) : s = s' := by
  cases s <;> cases s' <;> first | rfl | exact absurd h (by decide)

theorem signs_injective {signs signs' : List Sign}
    (h : signs.map Sign.char ++ k = signs'.map Sign.char ++ k') (hk : Unsigned k)
    (hk' : Unsigned k') : signs = signs' ∧ k = k' := by
  induction signs generalizing signs' with
  | nil =>
    cases signs' with
    | nil => exact ⟨rfl, h⟩
    | cons s' signs' => exact absurd h (hk s' _)
  | cons s signs ih =>
    cases signs' with
    | nil => exact absurd h.symm (hk' s _)
    | cons s' signs' =>
      obtain ⟨hchar, hrest⟩ := List.cons.inj h
      obtain ⟨rfl, hk⟩ := ih hrest
      exact ⟨by rw [Sign.char_injective hchar], hk⟩

/-- What can stand behind an atom that ends there. -/
def followers : List Char := ['|', ')', '*', '+', '?']

theorem Sign.char_mem_followers (s : Sign) : s.char ∈ followers := by
  cases s <;> decide

theorem not_mem_followers {c : Char} (h : c ∉ specials) : c ∉ followers := by
  intro hmem
  have hall : followers.all (specials.contains ·) = true := by decide
  exact h (List.contains_iff_mem.1 (List.all_eq_true.1 hall c hmem))

theorem Atom.exists_text (a : Atom) : ∃ c u, a.text = c :: u ∧ c ∉ followers := by
  cases a with
  | group earlier last => exact ⟨'(', _, by rw [Atom.text], by decide⟩
  | cls body => exact ⟨'[', _, by rw [Atom.text, ClassBody.text], by decide⟩
  | any => exact ⟨'.', _, by rw [Atom.text], by decide⟩
  | escape e => exact ⟨'\\', _, by rw [Atom.text], by decide⟩
  | literal c h => exact ⟨c, _, by rw [Atom.text], not_mem_followers h⟩

theorem Repeat.exists_text (r : Repeat) : ∃ c u, r.text = c :: u ∧ c ∉ followers := by
  obtain ⟨a, signs⟩ := r
  obtain ⟨c, u, hu, h⟩ := a.exists_text
  exact ⟨c, u ++ signs.map Sign.char, by rw [Repeat.text, hu, List.cons_append], h⟩

/-- No part begins where parts end. -/
theorem Stops.ne_repeat (hk : Stops k) (r : Repeat) (k' : List Char) : k ≠ r.text ++ k' := by
  rintro rfl
  obtain ⟨c, u, htext, hc⟩ := r.exists_text
  rcases hk c (u ++ k') (by rw [htext, List.cons_append]) with h | h
  · exact hc (h ▸ by decide)
  · exact hc (h ▸ by decide)

theorem unsigned_concat (rs : List Repeat) (hk : Stops k) : Unsigned (concatText rs ++ k) := by
  cases rs with
  | nil =>
    rw [concatText]
    exact hk.unsigned
  | cons r rs =>
    intro s u h
    obtain ⟨c, u', htext, hc⟩ := r.exists_text
    rw [concatText, htext, List.cons_append, List.cons_append] at h
    exact hc ((List.cons.inj h).1 ▸ s.char_mem_followers)

mutual

/-- No text of an atom begins another one. -/
theorem Atom.text_injective : (a a' : Atom) → (k k' : List Char) → a.text ++ k = a'.text ++ k' →
    a = a' ∧ k = k'
  | .group earlier last, a', k, k', h => by
    cases a' with
    | group earlier' last' =>
      simp only [Atom.text, List.cons_append, List.cons.injEq, true_and, List.append_assoc,
        List.nil_append] at h
      obtain ⟨rfl, rfl, hclose⟩ := earlierText_injective earlier earlier' last last' _ _
        (closes_parenthesis k) (closes_parenthesis k') h
      exact ⟨rfl, (List.cons.inj hclose).2⟩
    | literal c hc => exact absurd ((List.cons.inj h).1 ▸ by decide) hc
    | _ => exact absurd (List.cons.inj h).1 (by decide)
  | .cls body, a', k, k', h => by
    cases a' with
    | cls body' =>
      obtain ⟨rfl, hk⟩ := ClassBody.text_injective h
      exact ⟨rfl, hk⟩
    | literal c hc => exact absurd ((List.cons.inj h).1 ▸ by decide) hc
    | _ => exact absurd (List.cons.inj h).1 (by decide)
  | .any, a', k, k', h => by
    cases a' with
    | any => exact ⟨rfl, (List.cons.inj h).2⟩
    | literal c hc => exact absurd ((List.cons.inj h).1 ▸ by decide) hc
    | _ => exact absurd (List.cons.inj h).1 (by decide)
  | .escape e, a', k, k', h => by
    cases a' with
    | escape e' =>
      obtain ⟨hletter, hk⟩ := List.cons.inj (List.cons.inj h).2
      exact ⟨by rw [Escape.letter_injective hletter], hk⟩
    | literal c hc => exact absurd ((List.cons.inj h).1 ▸ by decide) hc
    | _ => exact absurd (List.cons.inj h).1 (by decide)
  | .literal c hc, a', k, k', h => by
    cases a' with
    | literal c' hc' =>
      obtain ⟨rfl, hk⟩ := List.cons.inj h
      exact ⟨rfl, hk⟩
    | _ => exact absurd ((List.cons.inj h).1 ▸ by decide) hc
termination_by a => sizeOf a

theorem Repeat.text_injective : (r r' : Repeat) → (k k' : List Char) → Unsigned k → Unsigned k' →
    r.text ++ k = r'.text ++ k' → r = r' ∧ k = k'
  | .mk a signs, .mk a' signs', k, k', hk, hk', h => by
    rw [Repeat.text, Repeat.text, List.append_assoc, List.append_assoc] at h
    obtain ⟨rfl, hsigns⟩ := Atom.text_injective a a' _ _ h
    obtain ⟨rfl, hrest⟩ := signs_injective hsigns hk hk'
    exact ⟨rfl, hrest⟩
termination_by r => sizeOf r

theorem concatText_injective : (rs rs' : List Repeat) → (k k' : List Char) → Stops k → Stops k' →
    concatText rs ++ k = concatText rs' ++ k' → rs = rs' ∧ k = k'
  | [], [], k, k', hk, hk', h => by
    rw [concatText] at h
    exact ⟨rfl, h⟩
  | [], r' :: rs', k, k', hk, hk', h => by
    rw [concatText, concatText, List.append_assoc] at h
    exact absurd h (hk.ne_repeat r' _)
  | r :: rs, [], k, k', hk, hk', h => by
    rw [concatText, concatText, List.append_assoc] at h
    exact absurd h.symm (hk'.ne_repeat r _)
  | r :: rs, r' :: rs', k, k', hk, hk', h => by
    rw [concatText, concatText, List.append_assoc, List.append_assoc] at h
    obtain ⟨rfl, hrest⟩ := Repeat.text_injective r r' _ _ (unsigned_concat rs hk)
      (unsigned_concat rs' hk') h
    obtain ⟨rfl, hk⟩ := concatText_injective rs rs' k k' hk hk' hrest
    exact ⟨rfl, hk⟩
termination_by rs => sizeOf rs

theorem earlierText_injective : (cs cs' : List (List Repeat)) → (c c' : List Repeat) →
    (k k' : List Char) → Closes k → Closes k' →
    earlierText cs ++ (concatText c ++ k) = earlierText cs' ++ (concatText c' ++ k') →
    cs = cs' ∧ c = c' ∧ k = k'
  | [], [], c, c', k, k', hk, hk', h => by
    rw [earlierText] at h
    obtain ⟨rfl, hrest⟩ := concatText_injective c c' k k' hk.stops hk'.stops h
    exact ⟨rfl, rfl, hrest⟩
  | [], d' :: cs', c, c', k, k', hk, hk', h => by
    rw [earlierText, earlierText, List.append_assoc] at h
    obtain ⟨rfl, hrest⟩ := concatText_injective c d' k _ hk.stops (stops_bar _) h
    exact absurd (hk _ _ hrest) (by decide)
  | d :: cs, [], c, c', k, k', hk, hk', h => by
    rw [earlierText, earlierText, List.append_assoc] at h
    obtain ⟨rfl, hrest⟩ := concatText_injective d c' _ k' (stops_bar _) hk'.stops h
    exact absurd (hk' _ _ hrest.symm) (by decide)
  | d :: cs, d' :: cs', c, c', k, k', hk, hk', h => by
    rw [earlierText, earlierText, List.append_assoc, List.append_assoc] at h
    obtain ⟨rfl, hrest⟩ := concatText_injective d d' _ _ (stops_bar _) (stops_bar _) h
    obtain ⟨rfl, hlast⟩ := earlierText_injective cs cs' c c' k k' hk hk' (List.cons.inj hrest).2
    exact ⟨rfl, hlast⟩
termination_by cs _ c => sizeOf cs + sizeOf c

end

/-- A text has one derivation. -/
theorem Alternation.text_injective {a a' : Alternation} (h : a.text = a'.text) : a = a' := by
  obtain ⟨earlier, last⟩ := a
  obtain ⟨earlier', last'⟩ := a'
  have hends : earlierText earlier ++ (concatText last ++ [])
      = earlierText earlier' ++ (concatText last' ++ []) := by
    rw [List.append_nil, List.append_nil]
    exact h
  obtain ⟨rfl, rfl, -⟩ := earlierText_injective _ _ _ _ _ _ closes_nil closes_nil hends
  rfl

end Patterns

end FrontEnd.PatternSyntax
