import FrontEnd.Demo
import FrontEnd.Proofs.Stream.Lexemes

/-!
# The lexemes of the demonstration language

What the rules of the token table accept, as far as the characters at the front of a text tell them
apart. Blanks stand in blanks, comments and strings only, and a string ends with its quotation mark,
so that **a blank ends every lexeme that is no comment**.

- `Demo.forms`: the forms of the rules, in the order of their numbers;
- `Demo.Blank`, `Demo.Comment`, `Demo.Solid`, `Demo.Quoted`: the kinds of lexemes;
- `Demo.takes_cases`: **what each rule accepts**;
- `Demo.wins_before_blank`: a blank ends a lexeme.
-/

namespace FrontEnd

open Computability

namespace Demo

/-! ## Patterns -/

def blankPattern : Pattern := .plus (.chars ⟨CharClass.blanks, false⟩)

def commentPattern : Pattern :=
  .concat [.chars (.single '/'), .chars (.single '/'), .star (.chars ⟨[('\n', '\n')], true⟩)]

def numberPattern : Pattern :=
  .concat [.plus (.chars ⟨CharClass.digits, false⟩),
    .opt (.concat [.chars (.single '.'), .plus (.chars ⟨CharClass.digits, false⟩)])]

/-- The characters of a string that stand for themselves. -/
def bareClass : CharClass := ⟨[('"', '"'), ('\\', '\\'), ('\n', '\n')], true⟩

/-- One character of a string, or an escape. -/
def stringUnit : Pattern :=
  .alt [.chars bareClass, .concat [.chars (.single '\\'), .chars .anyButLineFeed]]

def stringPattern : Pattern :=
  .concat [.chars (.single '"'), .star stringUnit, .chars (.single '"')]

def identifierPattern : Pattern :=
  .concat [.chars ⟨[('a', 'z'), ('A', 'Z'), ('_', '_')], false⟩,
    .star (.chars ⟨CharClass.wordChars, false⟩)]

/-- The texts of the rules with a fixed text. -/
def fixedTexts : List String := keywords ++ operators

/-- The forms of the rules, in the order of their numbers. -/
def forms : List LexemeForm :=
  [.pattern (.ofPattern blankPattern), .pattern (.ofPattern commentPattern)] ++
    fixedTexts.map (fun text => .literal text.toList) ++
    [.pattern (.ofPattern numberPattern), .pattern (.ofPattern stringPattern),
      .pattern (.ofPattern identifierPattern)]

/-! ## What the patterns stand for -/

section Patterns

variable {u v : List Char} {c : Char}

/-- Characters that are neither blanks nor quotation marks. -/
def solidClass : CharClass := ⟨('"', '"') :: CharClass.blanks, true⟩

/-- A row of blanks. -/
structure Blank (u : List Char) : Prop where
  ne_nil : u ≠ []
  blank : ∀ c ∈ u, (⟨CharClass.blanks, false⟩ : CharClass).accepts c = true

/-- The rest of a line behind two slashes. -/
inductive Comment : List Char → Prop where
  | intro {w : List Char} (hw : '\n' ∉ w) : Comment ('/' :: '/' :: w)

/-- A lexeme of characters that are neither blanks nor quotation marks. -/
structure Solid (u : List Char) : Prop where
  ne_nil : u ≠ []
  solid : ∀ c ∈ u, solidClass.accepts c = true

/-- What can stand between two quotation marks. -/
inductive Inside : List Char → Prop where
  | nil : Inside []
  | bare {c : Char} {w : List Char} (hc : bareClass.accepts c = true) (hw : Inside w) :
    Inside (c :: w)
  | escape {c : Char} {w : List Char} (hc : c ≠ '\n') (hw : Inside w) : Inside ('\\' :: c :: w)

/-- A string. -/
inductive Quoted : List Char → Prop where
  | intro {w : List Char} (hw : Inside w) : Quoted ('"' :: (w ++ ['"']))

theorem mem_blankPattern : u ∈ blankPattern.language ↔ Blank u := by
  rw [blankPattern, Pattern.language, Pattern.language, CharClass.mem_plus]
  exact ⟨fun ⟨h, h'⟩ => ⟨h, h'⟩, fun ⟨h, h'⟩ => ⟨h, h'⟩⟩

theorem mem_commentPattern : u ∈ commentPattern.language ↔ Comment u := by
  rw [commentPattern, ← CharClass.anyButLineFeed]
  simp only [Pattern.language, Pattern.languageConcat, mul_one, CharClass.mem_language_mul,
    CharClass.accepts_single, CharClass.mem_kstar, CharClass.accepts_anyButLineFeed]
  constructor
  · rintro ⟨_, _, rfl, rfl, _, w, rfl, rfl, hw⟩
    exact .intro fun hmem => hw _ hmem rfl
  · rintro ⟨hw⟩
    exact ⟨_, _, rfl, rfl, _, _, rfl, rfl, fun c hc heq => hw (heq ▸ hc)⟩

/-! ### Solid lexemes -/

theorem solid_of_digits (hc : (⟨CharClass.digits, false⟩ : CharClass).accepts c = true) :
    solidClass.accepts c = true :=
  CharClass.accepts_negated_of_apart (by decide) hc

theorem solid_number (h : u ∈ numberPattern.language) : Solid u := by
  simp only [numberPattern, Pattern.language, Pattern.languageConcat, mul_one] at h
  obtain ⟨a, ha, b, hb, rfl⟩ := Language.mem_mul.1 h
  obtain ⟨hne, ha⟩ := CharClass.mem_plus.1 ha
  refine ⟨by simp [hne], List.forall_mem_append.2 ⟨fun c hc => solid_of_digits (ha c hc), ?_⟩⟩
  rcases hb with hb | rfl
  · obtain ⟨c, rest, rfl, hc, hrest⟩ := CharClass.mem_language_mul.1 hb
    rw [CharClass.accepts_single.1 hc]
    exact List.forall_mem_cons.2
      ⟨by decide, fun c hc => solid_of_digits ((CharClass.mem_plus.1 hrest).2 c hc)⟩
  · exact fun _ hmem => absurd hmem List.not_mem_nil

theorem solid_identifier (h : u ∈ identifierPattern.language) : Solid u := by
  simp only [identifierPattern, Pattern.language, Pattern.languageConcat, mul_one,
    CharClass.mem_language_mul, CharClass.mem_kstar] at h
  obtain ⟨c, rest, rfl, hc, hrest⟩ := h
  refine ⟨List.cons_ne_nil _ _, List.forall_mem_cons.2 ⟨?_, fun c hmem => ?_⟩⟩
  · exact CharClass.accepts_negated_of_apart (by decide) hc
  · exact CharClass.accepts_negated_of_apart (by decide) (hrest c hmem)

theorem solid_fixed : ∀ text ∈ fixedTexts, Solid text.toList := by
  have hall : ∀ text ∈ fixedTexts,
      text.toList ≠ [] ∧ text.toList.all solidClass.accepts = true := by decide
  exact fun text htext => ⟨(hall text htext).1, List.all_eq_true.1 (hall text htext).2⟩

theorem Solid.not_mem (h : Solid u) : ' ' ∉ u ∧ '"' ∉ u := by
  constructor
  · exact fun hmem => absurd (h.solid _ hmem) (by decide)
  · exact fun hmem => absurd (h.solid _ hmem) (by decide)

/-! ### Strings -/

theorem Inside.append_unit (h : u ∈ stringUnit.language) (hv : Inside v) : Inside (u ++ v) := by
  simp only [stringUnit, Pattern.language, Pattern.languageAlt, Pattern.languageConcat, mul_one,
    add_zero, Language.mem_add] at h
  rcases h with ⟨c, hc, rfl⟩ | h
  · exact .bare hc hv
  · obtain ⟨c, rest, rfl, hc, d, hd, rfl⟩ := CharClass.mem_language_mul.1 h
    rw [CharClass.accepts_single.1 hc]
    exact .escape (CharClass.accepts_anyButLineFeed.1 hd) hv

theorem inside_kstar (h : u ∈ stringUnit.language∗) : Inside u := by
  obtain ⟨parts, rfl, hparts⟩ := Language.mem_kstar.1 h
  clear h
  induction parts with
  | nil => exact .nil
  | cons part parts ih =>
    obtain ⟨hpart, hrest⟩ := List.forall_mem_cons.1 hparts
    exact (ih hrest).append_unit hpart

theorem quoted_of_mem (h : u ∈ stringPattern.language) : Quoted u := by
  simp only [stringPattern, Pattern.language, Pattern.languageConcat, mul_one] at h
  obtain ⟨c, rest, rfl, hc, hrest⟩ := CharClass.mem_language_mul.1 h
  obtain ⟨w, hw, _, ⟨d, hd, rfl⟩, rfl⟩ := Language.mem_mul.1 hrest
  rw [CharClass.accepts_single.1 hc, CharClass.accepts_single.1 hd]
  exact .intro (inside_kstar hw)

/-- A character that stands for itself is no quotation mark and no backslash. -/
theorem ne_of_bare (hc : bareClass.accepts c = true) : c ≠ '"' ∧ c ≠ '\\' := by
  constructor
  · rintro rfl
    exact absurd hc (by decide)
  · rintro rfl
    exact absurd hc (by decide)

/-- The first quotation mark that is not escaped ends a string. -/
theorem Inside.unique {a b r r' : List Char} (ha : Inside a) (hb : Inside b)
    (h : a ++ '"' :: r = b ++ '"' :: r') : a = b := by
  induction ha generalizing b with
  | nil =>
    cases hb with
    | nil => rfl
    | bare hc => exact absurd (List.cons.inj h).1.symm (ne_of_bare hc).1
    | escape => exact absurd (List.cons.inj h).1 (by decide)
  | @bare c w hc hw ih =>
    cases hb with
    | nil => exact absurd (List.cons.inj h).1 (ne_of_bare hc).1
    | bare hc' hw' =>
      simp only [List.cons_append, List.cons.injEq] at h
      rw [h.1, ih hw' h.2]
    | escape => exact absurd (List.cons.inj h).1 (ne_of_bare hc).2
  | @escape c w hc hw ih =>
    cases hb with
    | nil => exact absurd (List.cons.inj h).1 (by decide)
    | bare hc' => exact absurd (List.cons.inj h).1.symm (ne_of_bare hc').2
    | escape hc' hw' =>
      simp only [List.cons_append, List.cons.injEq, true_and] at h
      rw [h.1, ih hw' h.2]

/-- No string goes on behind another one. -/
theorem Quoted.eq_of_first (hu : Quoted u) (hv : Quoted v) (h : u <+: v) : u = v := by
  obtain ⟨rest, h⟩ := h
  obtain ⟨ha⟩ := hu
  obtain ⟨hb⟩ := hv
  simp only [List.cons_append, List.append_assoc, List.cons.injEq, true_and] at h
  rw [ha.unique hb h]

/-- A string does not begin with a lexeme without quotation marks. -/
theorem Quoted.not_solid (h : Quoted (u ++ v)) : ¬ Solid u := by
  intro hu
  obtain ⟨c, rest, rfl⟩ := List.exists_cons_of_ne_nil hu.ne_nil
  generalize htext : c :: rest ++ v = text at h
  obtain ⟨hw⟩ := h
  obtain rfl := (List.cons.inj htext).1
  exact hu.not_mem.2 List.mem_cons_self

/-! ### Blanks and comments -/

theorem Blank.head {rest : List Char} (h : Blank (c :: rest)) : Blank [c] :=
  ⟨List.cons_ne_nil _ _, by simpa using h.blank c List.mem_cons_self⟩

theorem blank_singleton (hc : (⟨CharClass.blanks, false⟩ : CharClass).accepts c = true) :
    Blank [c] :=
  ⟨List.cons_ne_nil _ _, List.forall_mem_singleton.2 hc⟩

/-- What is no blank and no comment does not begin with a blank. -/
theorem exists_head (h : Solid u ∨ Quoted u) : ∃ c rest, u = c :: rest ∧ ¬ Blank [c] := by
  have hsolid : ∀ c, solidClass.accepts c = true → ¬ Blank [c] := by
    intro c hc hblank
    obtain ⟨r, hr, hinside⟩ := CharClass.accepts_iff.1 (hblank.blank c List.mem_cons_self)
    exact CharClass.accepts_negated_iff.1 hc r (List.mem_cons_of_mem _ hr) hinside
  rcases h with h | h
  · obtain ⟨c, rest, rfl⟩ := List.exists_cons_of_ne_nil h.ne_nil
    exact ⟨c, rest, rfl, hsolid c (h.solid c List.mem_cons_self)⟩
  · obtain ⟨hw⟩ := h
    exact ⟨_, _, rfl, fun hblank => absurd (hblank.blank _ List.mem_cons_self) (by decide)⟩

/-- What is in front of a blank in a comment is a comment. -/
theorem Comment.of_append (h : Comment (u ++ ' ' :: v)) (hu : u ≠ []) : Comment u := by
  generalize htext : u ++ ' ' :: v = text at h
  obtain ⟨hw⟩ := h
  match u, hu with
  | [c], _ => exact absurd (List.cons.inj (List.cons.inj htext).2).1 (by decide)
  | c :: d :: u, _ =>
    simp only [List.cons_append, List.cons.injEq] at htext
    obtain ⟨rfl, rfl, rfl⟩ := htext
    exact .intro fun hmem => hw (List.mem_append_left _ hmem)

/-- No lexeme with a fixed text is a comment. -/
theorem not_comment_fixed : ∀ text ∈ fixedTexts, ¬ Comment text.toList := by
  have hall : ∀ text ∈ fixedTexts, text.toList.take 2 ≠ ['/', '/'] := by decide
  intro text htext h
  generalize htoList : text.toList = u at h
  obtain ⟨hw⟩ := h
  exact hall text htext (by rw [htoList]; rfl)

theorem proper_patterns : ∀ p ∈ [blankPattern, commentPattern, numberPattern, stringPattern,
    identifierPattern], p.Proper := by
  simp [blankPattern, commentPattern, numberPattern, stringPattern, stringUnit, identifierPattern,
    Pattern.Proper, Pattern.AllProper]

end Patterns

/-! ## The table -/

/-- The declarations have these forms. -/
theorem compile_tokenDecls : List.Forall₂ TokenTable.Compiles tokenDecls forms := by
  have htexts : List.Forall₂ TokenTable.Compiles (fixedTexts.map LexemeDecl.ofLiteral)
      (fixedTexts.map fun text => .literal text.toList) := by
    rw [List.forall₂_map_left_iff, List.forall₂_map_right_iff, List.forall₂_same]
    have hall : ∀ text ∈ fixedTexts, text.isEmpty = false := by decide
    intro text htext
    exact if_neg (by rw [hall text htext]; exact Bool.false_ne_true)
  refine List.rel_append (List.rel_append (.cons ?_ (.cons ?_ .nil)) htexts)
    (.cons ?_ (.cons ?_ (.cons ?_ .nil)))
  · exact TokenTable.compile_pattern _ (p := blankPattern) rfl rfl
  · exact TokenTable.compile_pattern _ (p := commentPattern) rfl rfl
  · exact TokenTable.compile_pattern _ (p := numberPattern) rfl rfl
  · exact TokenTable.compile_pattern _ (p := stringPattern) rfl rfl
  · exact TokenTable.compile_pattern _ (p := identifierPattern) rfl rfl

/-- There is a table. -/
theorem exists_table : ∃ t, table = .ok t :=
  TokenTable.exists_ofDecls (by decide) (by decide) compile_tokenDecls

section Table

variable {t : TokenTable} {n : Fin 65536} {text u v : List Char} {c : Char}

theorem indexed_table (ht : table = .ok t) : t.Indexed := (TokenTable.indexed_of_ofDecls ht).1

/-- The rules of the table have the names, forms and marks of the declarations. -/
theorem rules_table (ht : table = .ok t) :
    t.rules.toList = List.zipWith (fun d form => ⟨d.name, form, d.trivia⟩) tokenDecls forms :=
  TokenTable.rules_of_declares (TokenTable.indexed_of_ofDecls ht).2 compile_tokenDecls

/-- A rule is found in the lists of declarations and forms. -/
theorem getElem?_rules (ht : table = .ok t) (i : Nat) :
    t.rules[i]? = (tokenDecls[i]?).bind fun d =>
      (forms[i]?).map fun form => ⟨d.name, form, d.trivia⟩ := by
  rw [← Array.getElem?_toList, rules_table ht, List.getElem?_zipWith]
  cases tokenDecls[i]? <;> cases forms[i]? <;> rfl

/-- Rule number `n` is that of the declaration and the form with this number. -/
theorem hasRule_table (ht : table = .ok t) {P : LexemeRule → Prop} :
    t.HasRule n P ↔
      ∃ d ∈ tokenDecls[n.val]?, ∃ form ∈ forms[n.val]?, P ⟨d.name, form, d.trivia⟩ := by
  simp only [TokenTable.HasRule, getElem?_rules ht, Option.bind_eq_some_iff, Option.map_eq_some_iff,
    Option.mem_def]
  constructor
  · rintro ⟨rule, ⟨d, hd, form, hform, rfl⟩, hP⟩
    exact ⟨d, hd, form, hform, hP⟩
  · rintro ⟨d, hd, form, hform, hP⟩
    exact ⟨_, ⟨d, hd, form, hform, rfl⟩, hP⟩

/-- There are as many forms as declarations. -/
theorem length_forms : forms.length = tokenDecls.length := by decide

/-- The tokens have the numbers of their declarations. -/
theorem id?_table (ht : table = .ok t) (n : Fin 65536) {d : LexemeDecl}
    (hd : tokenDecls[n.val]? = some d) : t.id? d.name = some (.kind n) := by
  rw [(indexed_table ht).names]
  have hlt : n.val < forms.length := by
    rw [length_forms]
    exact (List.getElem?_eq_some_iff.1 hd).1
  exact ⟨n, rfl, (hasRule_table ht).2 ⟨d, hd, _, List.getElem?_eq_getElem hlt, rfl⟩⟩

/-- What rule number `n` accepts. -/
theorem takes_iff (ht : table = .ok t) :
    t.Takes n u ↔ ∃ form ∈ forms[n.val]?, u ∈ form.language := by
  rw [TokenTable.Takes, hasRule_table ht]
  constructor
  · rintro ⟨d, -, form, hform, hu⟩
    exact ⟨form, hform, hu⟩
  · rintro ⟨form, hform, hu⟩
    have hlt : n.val < tokenDecls.length := by
      rw [← length_forms]
      exact (List.getElem?_eq_some_iff.1 hform).1
    exact ⟨_, List.getElem?_eq_getElem hlt, form, hform, hu⟩

/-- Trivia are the blanks and the comments. -/
theorem isTrivia_table (ht : table = .ok t) : t.isTrivia (.kind n) = true ↔ n.val ≤ 1 := by
  have htrivia : t.isTrivia (.kind n) = true ↔ t.HasRule n fun rule => rule.trivia = true := by
    rw [TokenTable.isTrivia, TokenTable.rule?, TokenTable.HasRule]
    cases t.rules[n.val]? <;> simp
  have hall : ∀ i < tokenDecls.length,
      (tokenDecls[i]?.map LexemeDecl.trivia = some true ↔ i ≤ 1) := by decide
  rw [htrivia, hasRule_table ht]
  by_cases hlt : n.val < tokenDecls.length
  · rw [← hall n.val hlt, Option.map_eq_some_iff]
    constructor
    · rintro ⟨d, hd, form, -, hP⟩
      exact ⟨d, hd, hP⟩
    · rintro ⟨d, hd, hP⟩
      exact ⟨d, hd, _, List.getElem?_eq_getElem (length_forms ▸ hlt), hP⟩
  · have hlength : tokenDecls.length = 31 := rfl
    refine iff_of_false ?_ (by omega)
    rintro ⟨d, hd, -⟩
    exact hlt (List.getElem?_eq_some_iff.1 hd).1

/-- All other rules are for tokens that are shown. -/
theorem shown_table (ht : table = .ok t) (hn : 1 < n.val) : t.isTrivia (.kind n) = false :=
  Bool.eq_false_iff.2 fun htrivia => absurd ((isTrivia_table ht).1 htrivia) (Nat.not_le.2 hn)

/-- The form of a rule with a fixed text. -/
theorem forms_fixed {i : Nat} (hi : i < fixedTexts.length) :
    forms[i + 2]? = some (.literal fixedTexts[i].toList) := by
  have hform : (fixedTexts.map fun text => LexemeForm.literal text.toList)[i]?
      = some (.literal fixedTexts[i].toList) := by
    rw [List.getElem?_map, List.getElem?_eq_getElem hi, Option.map_some]
  have hfront : (fixedTexts.map (fun text => LexemeForm.literal text.toList) ++
      [.pattern (.ofPattern numberPattern), .pattern (.ofPattern stringPattern),
        .pattern (.ofPattern identifierPattern)])[i]? = some (.literal fixedTexts[i].toList) := by
    rw [List.getElem?_append_left (by rwa [List.length_map]), hform]
  exact hfront

/-- The rules with a pattern, by their numbers. -/
def patternRules : List (Nat × Pattern) := [(0, blankPattern), (1, commentPattern),
  (28, numberPattern), (29, stringPattern), (30, identifierPattern)]

/-- A form is that of a fixed text, or of one of the patterns. -/
theorem forms_cases {i : Nat} {form : LexemeForm} (h : forms[i]? = some form) :
    (∃ text ∈ fixedTexts, form = .literal text.toList) ∨
      ∃ p, (i, p) ∈ patternRules ∧ form = .pattern (.ofPattern p) := by
  match i with
  | 0 | 1 =>
    cases h
    exact .inr ⟨_, by simp [patternRules], rfl⟩
  | i + 2 =>
    by_cases hi : i < fixedTexts.length
    · rw [forms_fixed hi] at h
      exact .inl ⟨_, List.getElem_mem hi, (Option.some.inj h).symm⟩
    · obtain ⟨j, rfl⟩ := Nat.exists_eq_add_of_le (Nat.le_of_not_lt hi)
      have hlength : fixedTexts.length = 26 := rfl
      match j with
      | 0 | 1 | 2 =>
        cases h
        exact .inr ⟨_, by simp [patternRules, hlength], rfl⟩
      | j + 3 =>
        have hall : forms.length = 31 := rfl
        rw [List.getElem?_eq_none (by omega)] at h
        cases h

/-- What a pattern of the table stands for is what its rule accepts. -/
theorem language_patternRules {i : Nat} {p : Pattern} (h : (i, p) ∈ patternRules) :
    p.Proper ∧ (LexemeForm.pattern (.ofPattern p)).language = p.language := by
  have hp : p.Proper := by
    refine proper_patterns p ?_
    have hmem : p ∈ patternRules.map Prod.snd := List.mem_map.2 ⟨(i, p), h, rfl⟩
    exact hmem
  exact ⟨hp, LexemeForm.language_ofPattern hp⟩

/-! ### Lexemes of the table -/

theorem takes_zero (ht : table = .ok t) : t.Takes 0 u ↔ Blank u := by
  rw [takes_iff ht, ← mem_blankPattern,
    ← LexemeForm.language_ofPattern (proper_patterns _ (by simp))]
  exact ⟨fun ⟨form, hform, hu⟩ => (by cases hform; exact hu), fun hu => ⟨_, rfl, hu⟩⟩

theorem takes_one (ht : table = .ok t) : t.Takes 1 u ↔ Comment u := by
  rw [takes_iff ht, ← mem_commentPattern,
    ← LexemeForm.language_ofPattern (proper_patterns _ (by simp))]
  exact ⟨fun ⟨form, hform, hu⟩ => (by cases hform; exact hu), fun hu => ⟨_, rfl, hu⟩⟩

theorem solid_or_quoted_of_takes (ht : table = .ok t) (h : t.Takes n u) (hn : 1 < n.val) :
    Solid u ∨ Quoted u := by
  obtain ⟨form, hform, hu⟩ := (takes_iff ht).1 h
  rcases forms_cases hform with ⟨text, htext, rfl⟩ | ⟨p, hp, rfl⟩
  · obtain rfl : u = text.toList := hu
    exact .inl (solid_fixed text htext)
  · rw [(language_patternRules hp).2] at hu
    simp only [patternRules, List.mem_cons, Prod.mk.injEq, List.not_mem_nil, or_false] at hp
    rcases hp with ⟨hzero, -⟩ | ⟨hone, -⟩ | ⟨-, rfl⟩ | ⟨-, rfl⟩ | ⟨-, rfl⟩
    · omega
    · omega
    · exact .inl (solid_number hu)
    · exact .inr (quoted_of_mem hu)
    · exact .inl (solid_identifier hu)

/-- What the rules accept. -/
theorem takes_cases (ht : table = .ok t) (h : t.Takes n u) :
    n = 0 ∧ Blank u ∨ n = 1 ∧ Comment u ∨ 1 < n.val ∧ (Solid u ∨ Quoted u) := by
  by_cases hzero : n = 0
  · subst hzero
    exact .inl ⟨rfl, (takes_zero ht).1 h⟩
  by_cases hone : n = 1
  · subst hone
    exact .inr (.inl ⟨rfl, (takes_one ht).1 h⟩)
  · have hn : 1 < n.val := by
      have hval : n.val ≠ 0 := fun hval => hzero (Fin.ext hval)
      have hval' : n.val ≠ 1 := fun hval => hone (Fin.ext hval)
      omega
    exact .inr (.inr ⟨hn, solid_or_quoted_of_takes ht h hn⟩)

/-- A blank ends a lexeme that is no blank and no comment. -/
theorem wins_before_blank (ht : table = .ok t) (h : t.Wins u u n) (hn : 1 < n.val)
    (rest : List Char) : t.Wins (u ++ ' ' :: rest) u n where
  first := List.prefix_append ..
  takes := h.takes
  best := by
    intro n' v hv htakes
    rcases List.prefix_or_prefix_of_prefix hv (List.prefix_append u (' ' :: rest)) with hvu | huv
    · exact h.best n' v hvu htakes
    obtain ⟨v', rfl⟩ := huv
    rcases List.prefix_cons_iff.1 ((List.prefix_append_right_inj u).1 hv) with rfl | ⟨v', rfl, -⟩
    · rw [List.append_nil] at htakes ⊢
      exact h.best n' u (List.prefix_refl u) htakes
    -- No rule accepts more than `u`: the blank behind it would have to be in the lexeme.
    exfalso
    have hu := solid_or_quoted_of_takes ht h.takes hn
    rcases takes_cases ht htakes with ⟨-, hblank⟩ | ⟨-, hcomment⟩ | ⟨-, hsolid | hquoted⟩
    · obtain ⟨c, u', rfl, hc⟩ := exists_head hu
      exact hc hblank.head
    · have hcomment' := (takes_one ht).2 (hcomment.of_append (h.ne_nil (indexed_table ht)))
      rcases h.best 1 u (List.prefix_refl u) hcomment' with hlt | ⟨-, hle⟩
      · exact Nat.lt_irrefl _ hlt
      · exact absurd hn (Nat.not_lt_of_le hle)
    · exact hsolid.not_mem.1 (by simp)
    · have heq := (hu.resolve_left hquoted.not_solid).eq_of_first hquoted (List.prefix_append ..)
      simp at heq

/-- A row of blanks in front of something else is a lexeme. -/
theorem wins_blank (ht : table = .ok t) {rest : List Char} (hu : Blank u)
    (hrest : ∀ c ∈ rest.head?, ¬ Blank [c]) : t.Wins (u ++ rest) u 0 where
  first := List.prefix_append u rest
  takes := (takes_zero ht).2 hu
  best := by
    intro n' v hv htakes
    rcases List.prefix_or_prefix_of_prefix hv (List.prefix_append u rest) with hvu | ⟨v', rfl⟩
    · rcases hvu.length_le.lt_or_eq with hlt | heq
      · exact .inl hlt
      · exact .inr ⟨hvu.eq_of_length heq, Fin.zero_le _⟩
    cases v' with
    | nil => exact .inr ⟨List.append_nil u, Fin.zero_le _⟩
    | cons c v' =>
      -- A lexeme that begins with a blank is a row of blanks, and what is behind `u` is none.
      obtain ⟨d, u', rfl⟩ := List.exists_cons_of_ne_nil hu.ne_nil
      have hblank : Blank (d :: u' ++ c :: v') := by
        rcases takes_cases ht htakes with ⟨-, hblank⟩ | ⟨-, hcomment⟩ | ⟨-, hother⟩
        · exact hblank
        · generalize htext : d :: u' ++ c :: v' = text at hcomment
          obtain ⟨hw⟩ := hcomment
          obtain rfl := (List.cons.inj htext).1
          exact absurd (hu.blank _ List.mem_cons_self) (by decide)
        · obtain ⟨d', rest', heq, hd⟩ := exists_head hother
          obtain ⟨rfl, -⟩ := List.cons.inj heq
          exact absurd hu.head hd
      obtain ⟨rest', hrest'⟩ := (List.prefix_append_right_inj (d :: u')).1 hv
      have hc : c ∈ rest.head? := by rw [← hrest']; rfl
      exact absurd ⟨List.cons_ne_nil _ _, by simpa using hblank.blank c (by simp)⟩ (hrest c hc)

end Table

end Demo

end FrontEnd
