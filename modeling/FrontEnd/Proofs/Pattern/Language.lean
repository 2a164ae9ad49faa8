import FrontEnd.Pattern.Basic
import Mathlib.Computability.Language

/-!
# The texts of a pattern

A pattern stands for a set of texts, the regular language that its operators spell out.

- `Pattern.language`: the texts of a pattern;
- `Pattern.Proper`: no choice is without alternatives, as in every pattern that is read;
- `Pattern.nullable_iff`: **the test for the empty text is right**.
-/

namespace FrontEnd

open Computability

/-- The text `u` is the longest first part of `text` in the language. -/
structure IsLongest (L : Language Char) (text u : List Char) : Prop where
  first : u <+: text
  mem : u ∈ L
  le : ∀ v, v <+: text → v ∈ L → v.length ≤ u.length

theorem IsLongest.unique {L : Language Char} {text u v : List Char} (hu : IsLongest L text u)
    (hv : IsLongest L text v) : u = v :=
  (List.prefix_of_prefix_length_le hu.first hv.first (hv.le u hu.first hu.mem)).eq_of_length
    (Nat.le_antisymm (hv.le u hu.first hu.mem) (hu.le v hv.first hv.mem))

/-- Among the first parts in the language there is a longest one. -/
theorem exists_isLongest {L : Language Char} {text v : List Char} (hv : v <+: text) (hmem : v ∈ L) :
    ∃ u, IsLongest L text u ∧ v.length ≤ u.length := by
  by_cases hmax : ∀ v', v' <+: text → v' ∈ L → v'.length ≤ v.length
  · exact ⟨v, ⟨hv, hmem, hmax⟩, le_rfl⟩
  · push Not at hmax
    obtain ⟨v', hv', hmem', hlt⟩ := hmax
    have hle := hv'.length_le
    obtain ⟨u, hu, hle'⟩ := exists_isLongest hv' hmem'
    exact ⟨u, hu, hlt.le.trans hle'⟩
termination_by text.length - v.length

/-- The texts of one character of the class. -/
def CharClass.language (cls : CharClass) : Language Char :=
  {text | ∃ c, cls.accepts c = true ∧ text = [c]}

theorem CharClass.mem_language {cls : CharClass} {text : List Char} :
    text ∈ cls.language ↔ ∃ c, cls.accepts c = true ∧ text = [c] := Iff.rfl

namespace CharClass

variable {cls : CharClass} {ranges other : List (Char × Char)} {L : Language Char}
  {u : List Char} {c : Char}

theorem accepts_iff :
    (⟨ranges, false⟩ : CharClass).accepts c = true ↔ ∃ r ∈ ranges, r.1 ≤ c ∧ c ≤ r.2 := by
  simp [accepts]

theorem accepts_negated_iff :
    (⟨ranges, true⟩ : CharClass).accepts c = true ↔ ∀ r ∈ ranges, ¬ (r.1 ≤ c ∧ c ≤ r.2) := by
  simp [accepts]

theorem between_iff {a : Char} : a ≤ c ∧ c ≤ a ↔ c = a :=
  ⟨fun h => Char.le_antisymm h.2 h.1, fun h => h ▸ ⟨Char.le_refl _, Char.le_refl _⟩⟩

@[simp] theorem accepts_single {a : Char} : (single a).accepts c = true ↔ c = a := by
  simp [single, accepts_iff, between_iff]

@[simp] theorem accepts_anyButLineFeed : anyButLineFeed.accepts c = true ↔ c ≠ '\n' := by
  rw [anyButLineFeed, accepts_negated_iff, List.forall_mem_singleton, between_iff]

/-- A class is outside of ranges that its own do not meet. -/
theorem accepts_negated_of_apart
    (h : ∀ r ∈ ranges, ∀ s ∈ other, ¬ (s.1 ≤ r.2 ∧ r.1 ≤ s.2))
    (hc : (⟨ranges, false⟩ : CharClass).accepts c = true) :
    (⟨other, true⟩ : CharClass).accepts c = true := by
  obtain ⟨r, hr, hle, hle'⟩ := accepts_iff.1 hc
  refine accepts_negated_iff.2 fun s hs hinside => h r hr s hs ?_
  exact ⟨Char.le_trans hinside.1 hle', Char.le_trans hle hinside.2⟩

/-- Any number of characters of the class. -/
theorem mem_kstar : u ∈ cls.language∗ ↔ ∀ c ∈ u, cls.accepts c = true := by
  rw [Language.mem_kstar]
  constructor
  · rintro ⟨parts, rfl, hparts⟩ c hc
    obtain ⟨part, hpart, hmem⟩ := List.mem_flatten.1 hc
    obtain ⟨x, hx, rfl⟩ := hparts part hpart
    rwa [List.mem_singleton.1 hmem]
  · intro h
    refine ⟨u.map fun c => [c], by simp [← List.flatMap_def], fun part hpart => ?_⟩
    obtain ⟨c, hc, rfl⟩ := List.mem_map.1 hpart
    exact ⟨c, h c hc, rfl⟩

/-- What begins with one character of the class. -/
theorem mem_language_mul :
    u ∈ cls.language * L ↔ ∃ c rest, u = c :: rest ∧ cls.accepts c = true ∧ rest ∈ L := by
  rw [Language.mem_mul]
  constructor
  · rintro ⟨a, ⟨c, hc, rfl⟩, b, hb, rfl⟩
    exact ⟨c, b, rfl, hc, hb⟩
  · rintro ⟨c, rest, rfl, hc, hb⟩
    exact ⟨[c], ⟨c, hc, rfl⟩, rest, hb, rfl⟩

/-- At least one character of the class. -/
theorem mem_plus : u ∈ cls.language * cls.language∗ ↔ u ≠ [] ∧ ∀ c ∈ u, cls.accepts c = true := by
  rw [mem_language_mul]
  constructor
  · rintro ⟨c, rest, rfl, hc, hrest⟩
    exact ⟨List.cons_ne_nil c rest, List.forall_mem_cons.2 ⟨hc, mem_kstar.1 hrest⟩⟩
  · rintro ⟨hne, hall⟩
    obtain ⟨c, rest, rfl⟩ := List.exists_cons_of_ne_nil hne
    obtain ⟨hc, hrest⟩ := List.forall_mem_cons.1 hall
    exact ⟨c, rest, rfl, hc, mem_kstar.2 hrest⟩

end CharClass

namespace Pattern

mutual

/-- The texts that the pattern stands for. -/
def language : Pattern → Language Char
  | .empty => 1
  | .chars cls => cls.language
  | .concat parts => languageConcat parts
  | .alt alternatives => languageAlt alternatives
  | .star inner => (language inner)∗
  | .plus inner => language inner * (language inner)∗
  | .opt inner => language inner + 1

/-- Texts of all patterns, one after the other. -/
def languageConcat : List Pattern → Language Char
  | [] => 1
  | p :: ps => language p * languageConcat ps

/-- Texts of one of the patterns. -/
def languageAlt : List Pattern → Language Char
  | [] => 0
  | p :: ps => language p + languageAlt ps

end

mutual

/-- Every choice in the pattern has an alternative. -/
def Proper : Pattern → Prop
  | .empty | .chars _ => True
  | .concat parts => AllProper parts
  | .alt alternatives => alternatives ≠ [] ∧ AllProper alternatives
  | .star inner | .plus inner | .opt inner => Proper inner

/-- Every choice in the patterns has an alternative. -/
def AllProper : List Pattern → Prop
  | [] => True
  | p :: ps => Proper p ∧ AllProper ps

end

theorem nil_mem_mul {l m : Language Char} : [] ∈ l * m ↔ [] ∈ l ∧ [] ∈ m := by
  simp [Language.mem_mul]

mutual

/-- The test for the empty text is right. -/
theorem nullable_iff : (p : Pattern) → (p.nullable = true ↔ [] ∈ p.language)
  | .empty => by simp [nullable, language]
  | .chars cls => by simp [nullable, language, CharClass.mem_language]
  | .concat parts => by
    rw [nullable, language]
    exact allNullable_iff parts
  | .alt alternatives => by
    rw [nullable, language]
    exact anyNullable_iff alternatives
  | .star inner => by simp [nullable, language, Language.nil_mem_kstar]
  | .plus inner => by
    rw [nullable, language, nullable_iff inner, nil_mem_mul]
    exact (and_iff_left (Language.nil_mem_kstar _)).symm
  | .opt inner => by
    rw [nullable, language]
    exact iff_of_true rfl (.inr Language.nil_mem_one)

theorem allNullable_iff : (ps : List Pattern) → (allNullable ps = true ↔ [] ∈ languageConcat ps)
  | [] => by simp [allNullable, languageConcat]
  | p :: ps => by
    rw [allNullable, languageConcat, Bool.and_eq_true, nullable_iff p, allNullable_iff ps,
      nil_mem_mul]

theorem anyNullable_iff : (ps : List Pattern) → (anyNullable ps = true ↔ [] ∈ languageAlt ps)
  | [] => by simp [anyNullable, languageAlt]
  | p :: ps => by
    rw [anyNullable, languageAlt, Bool.or_eq_true, nullable_iff p, anyNullable_iff ps,
      Language.mem_add]

end

end Pattern

end FrontEnd
