import FrontEnd.TokenTable.Build
import FrontEnd.Proofs.Pattern.Matching
import FrontEnd.Proofs.Pattern.Reader

/-!
# Token tables that were built

A table keeps its rules in an array and finds them through indexes: by name, by the first character
of a literal, and all patterns in a row. Each declaration that is added keeps the indexes in step
with the array.

- `LexemeForm.language`: the lexemes of a rule;
- `TokenTable.Indexed`: **the indexes say what stands in the array**;
- `TokenTable.indexed_of_ofDecls`: a table of declarations has their rules in order;
- `TokenTable.exists_ofDecls`: declarations that make a table.
-/

namespace FrontEnd

namespace LexemeForm

/-- The lexemes of the form. -/
def language : LexemeForm → Language Char
  | .literal text => {text}
  | .pattern automaton => automaton.Accepts

theorem language_ofPattern {p : Pattern} (hp : p.Proper) :
    (LexemeForm.pattern (.ofPattern p)).language = p.language :=
  Set.ext fun _ => Automaton.accepts_ofPattern hp

/-- The code point of the first character of a literal. -/
def code? : LexemeForm → Option Nat
  | .literal (c :: _) => some c.toNat
  | _ => none

/-- Is it a pattern? -/
def isPattern : LexemeForm → Bool
  | .pattern _ => true
  | .literal _ => false

/-- The form is one that declarations make: a text, or the automaton of a pattern, and never
empty. -/
def Sound : LexemeForm → Prop
  | .literal text => text ≠ []
  | .pattern automaton => ∃ p : Pattern, p.Proper ∧ automaton = .ofPattern p ∧ [] ∉ p.language

theorem Sound.nil_not_mem {form : LexemeForm} (h : form.Sound) : [] ∉ form.language := by
  cases form with
  | literal text => exact fun hmem => h (Set.mem_singleton_iff.1 hmem).symm
  | pattern automaton =>
    obtain ⟨p, hp, rfl, hnil⟩ := h
    exact fun hmem => hnil ((Automaton.accepts_ofPattern hp).1 hmem)

end LexemeForm

namespace TokenTable

variable {t t' : TokenTable} {d : LexemeDecl} {decls : List LexemeDecl} {form : LexemeForm}
  {name : String} {n : Fin 65536}

theorem sound_compile {source : LexemeSource} (h : compile name source = .ok form) : form.Sound := by
  unfold compile at h
  split at h
  · next text =>
    split at h
    · cases h
    · next hne =>
      cases h
      simpa [LexemeForm.Sound, String.isEmpty_iff] using hne
  · next text =>
    split at h
    · cases h
    · next p hp =>
      dsimp only at h
      split at h
      · cases h
      · next hempty =>
        cases h
        have hproper := Pattern.proper_ofString hp
        exact ⟨p, hproper, rfl, fun hnil => hempty ((Automaton.matchesEmpty_iff hproper).2 hnil)⟩

/-- A pattern that does not match the empty text has its automaton for its form. -/
theorem compile_pattern (name : String) {text : String} {p : Pattern}
    (h : Pattern.ofString text = .ok p) (hnull : p.nullable = false) :
    compile name (.pattern text) = .ok (.pattern (.ofPattern p)) := by
  have hempty : (Automaton.ofPattern p).matchesEmpty ≠ true := by
    rw [ne_eq, Automaton.matchesEmpty_iff (Pattern.proper_ofString h), ← Pattern.nullable_iff, hnull]
    exact Bool.false_ne_true
  simp only [compile, h]
  exact if_neg hempty

/-! ## Indexes -/

/-- Rule number `n` is such a rule. -/
def HasRule (t : TokenTable) (n : Fin 65536) (P : LexemeRule → Prop) : Prop :=
  ∃ rule, t.rules[n.val]? = some rule ∧ P rule

/-- The indexes say what stands in the array of rules. -/
structure Indexed (t : TokenTable) : Prop where
  sound : ∀ (i : Nat) (rule : LexemeRule), t.rules[i]? = some rule → rule.form.Sound
  names : ∀ name id, t.id? name = some id ↔
    ∃ n : Fin 65536, id = .kind n ∧ t.HasRule n fun rule => rule.name = name
  literals : ∀ code n, n ∈ t.literals.getD code #[] ↔
    t.HasRule n fun rule => rule.form.code? = some code
  patterns : ∀ n, n ∈ t.patterns ↔ t.HasRule n fun rule => rule.form.isPattern = true

theorem not_hasRule_empty {P : LexemeRule → Prop} : ¬ empty.HasRule n P := by
  rintro ⟨rule, h, -⟩
  simp [empty] at h

theorem indexed_empty : empty.Indexed where
  sound i rule h := by simp [empty] at h
  names name id := iff_of_false (by simp [empty, id?]) fun ⟨_, _, h⟩ => not_hasRule_empty h
  literals code n := iff_of_false (by simp [empty]) not_hasRule_empty
  patterns n := iff_of_false (by simp [empty]) not_hasRule_empty

/-- The table with one more rule. -/
def extended (t : TokenTable) (d : LexemeDecl) (form : LexemeForm) (h : t.rules.size < 65535) :
    TokenTable :=
  let number : Fin 65536 := ⟨t.rules.size, Nat.lt_succ_of_lt h⟩
  { rules := t.rules.push ⟨d.name, form, d.trivia⟩
    byName := t.byName.insert d.name (.kind number)
    literals := indexLiteral t.literals form number
    patterns := indexPattern t.patterns form number
    size_le := (Array.size_push ..).trans_le h }

/-- A declaration is added when there is room, its name is new and its form is right. -/
theorem add_eq_ok_iff : t.add d = .ok t' ↔ ∃ h : t.rules.size < 65535, t.id? d.name = none ∧
    ∃ form, compile d.name d.source = .ok form ∧ t' = t.extended d form h := by
  have hname : t.byName.contains d.name = true ↔ t.id? d.name ≠ none := by
    rw [id?, Std.HashMap.contains_eq_isSome_getElem?, Option.isSome_iff_ne_none]
  unfold add
  split
  · next h =>
    rw [exists_prop_of_true h]
    split
    · next hdup => simp [hname.1 hdup]
    · next hdup =>
      rw [hname, not_not] at hdup
      rw [and_iff_right hdup]
      cases hform : compile d.name d.source with
      | error e => exact iff_of_false nofun (by rintro ⟨form, hf, -⟩; cases hf)
      | ok form =>
        constructor
        · rintro ⟨⟩
          exact ⟨form, rfl, rfl⟩
        · rintro ⟨form', hform', rfl⟩
          cases hform'
          rfl
  · next h => exact iff_of_false nofun fun ⟨h', _⟩ => h h'

/-- The rules of a table with one more rule. -/
theorem hasRule_extended {h : t.rules.size < 65535} {P : LexemeRule → Prop} :
    (t.extended d form h).HasRule n P ↔
      n.val = t.rules.size ∧ P ⟨d.name, form, d.trivia⟩ ∨ t.HasRule n P := by
  unfold HasRule extended
  rw [Array.getElem?_push]
  split
  · next hn =>
    have hnone : t.rules[n.val]? = none := by simp [hn]
    simp [hn]
  · next hn => simp [hn]

theorem id?_extended {h : t.rules.size < 65535} : (t.extended d form h).id? name =
    if d.name = name then some (.kind ⟨t.rules.size, Nat.lt_succ_of_lt h⟩) else t.id? name := by
  rw [id?, extended, Std.HashMap.getElem?_insert]
  simp [id?]

theorem mem_indexLiteral {literals : Std.HashMap Nat (Array (Fin 65536))} {number : Fin 65536}
    {code : Nat} : n ∈ (indexLiteral literals form number).getD code #[] ↔
      n = number ∧ form.code? = some code ∨ n ∈ literals.getD code #[] := by
  unfold indexLiteral
  split
  · next c text =>
    rw [Std.HashMap.getD_alter, LexemeForm.code?]
    split
    · next hc =>
      rw [beq_iff_eq] at hc
      subst hc
      simp [Std.HashMap.getD_eq_getD_getElem?, or_comm]
    · next hc =>
      rw [beq_iff_eq] at hc
      simp [hc]
  · next hother =>
    have hcode : form.code? = none := by
      unfold LexemeForm.code?
      split
      · next c text => exact absurd rfl (hother c text)
      · rfl
    simp [hcode]

theorem mem_indexPattern {patterns : Array (Fin 65536)} {number : Fin 65536} :
    n ∈ indexPattern patterns form number ↔
      n = number ∧ form.isPattern = true ∨ n ∈ patterns := by
  cases form with
  | literal text => simp [indexPattern, LexemeForm.isPattern]
  | pattern automaton => simp [indexPattern, LexemeForm.isPattern, or_comm]

theorem Indexed.extended (ht : t.Indexed) (h : t.rules.size < 65535) (hname : t.id? d.name = none)
    (hform : form.Sound) : (t.extended d form h).Indexed where
  sound i rule hi := by
    rw [TokenTable.extended, Array.getElem?_push] at hi
    -- The new rule stands last.
    split at hi
    · cases hi
      exact hform
    · exact ht.sound i rule hi
  names name id := by
    rw [id?_extended]
    simp only [hasRule_extended]
    split
    · next heq =>
      subst heq
      constructor
      · rintro ⟨⟩
        exact ⟨_, rfl, .inl ⟨rfl, rfl⟩⟩
      · rintro ⟨n, rfl, ⟨hn, -⟩ | hold⟩
        · rw [← Fin.ext (show n.val = (⟨t.rules.size, Nat.lt_succ_of_lt h⟩ : Fin 65536).val from hn)]
        · have hfound := (ht.names d.name (.kind n)).2 ⟨n, rfl, hold⟩
          rw [hname] at hfound
          cases hfound
    · next hne => simp [ht.names, hne]
  literals code n := by
    have hliterals : (t.extended d form h).literals
        = indexLiteral t.literals form ⟨t.rules.size, Nat.lt_succ_of_lt h⟩ := rfl
    rw [hliterals, mem_indexLiteral, ht.literals, hasRule_extended, Fin.ext_iff]
  patterns n := by
    have hpatterns : (t.extended d form h).patterns
        = indexPattern t.patterns form ⟨t.rules.size, Nat.lt_succ_of_lt h⟩ := rfl
    rw [hpatterns, mem_indexPattern, ht.patterns, hasRule_extended, Fin.ext_iff]

/-! ## Declarations -/

/-- The rule is that of the declaration. -/
structure Declares (d : LexemeDecl) (rule : LexemeRule) : Prop where
  name : rule.name = d.name
  form : compile d.name d.source = .ok rule.form
  trivia : rule.trivia = d.trivia

/-- Adding declarations keeps the indexes in step and adds the rules in order. -/
theorem foldlM_add (ht : t.Indexed) (h : decls.foldlM add t = .ok t') :
    t'.Indexed ∧ ∃ rules, List.Forall₂ Declares decls rules ∧
      t'.rules.toList = t.rules.toList ++ rules := by
  induction decls generalizing t with
  | nil =>
    cases h
    exact ⟨ht, [], .nil, (List.append_nil _).symm⟩
  | cons d decls ih =>
    rw [List.foldlM_cons] at h
    cases hadd : t.add d with
    | error e =>
      rw [hadd] at h
      cases h
    | ok t₁ =>
      rw [hadd] at h
      obtain ⟨hroom, hname, form, hform, rfl⟩ := add_eq_ok_iff.1 hadd
      obtain ⟨hindexed, rules, hrules, heq⟩ := ih (ht.extended hroom hname (sound_compile hform)) h
      refine ⟨hindexed, ⟨d.name, form, d.trivia⟩ :: rules, .cons ⟨rfl, hform, rfl⟩ hrules, ?_⟩
      rw [heq]
      simp [extended]

/-- A table of declarations has their rules in order, and its indexes are in step. -/
theorem indexed_of_ofDecls (h : ofDecls decls = .ok t) :
    t.Indexed ∧ List.Forall₂ Declares decls t.rules.toList := by
  unfold ofDecls at h
  split at h
  · cases h
  · obtain ⟨hindexed, rules, hrules, heq⟩ := foldlM_add indexed_empty h
    exact ⟨hindexed, by rwa [heq]⟩

/-- Declarations add one pattern each at most. -/
theorem size_patterns_foldlM (h : decls.foldlM add t = .ok t') :
    t'.patterns.size ≤ t.patterns.size + decls.length := by
  induction decls generalizing t with
  | nil =>
    cases h
    exact Nat.le_refl _
  | cons d decls ih =>
    rw [List.foldlM_cons] at h
    cases hadd : t.add d with
    | error e =>
      rw [hadd] at h
      cases h
    | ok t₁ =>
      rw [hadd] at h
      obtain ⟨hroom, -, form, -, rfl⟩ := add_eq_ok_iff.1 hadd
      have hone : (t.extended d form hroom).patterns.size ≤ t.patterns.size + 1 := by
        cases form with
        | literal => exact Nat.le_succ _
        | pattern => exact (Array.size_push ..).le
      have hrest := ih h
      rw [List.length_cons]
      omega

theorem size_patterns_le (h : ofDecls decls = .ok t) : t.patterns.size ≤ decls.length := by
  unfold ofDecls at h
  split at h
  · cases h
  · exact (size_patterns_foldlM h).trans (Nat.zero_add _).le

theorem Indexed.pairwise_extended (ht : t.Indexed) (h : t.rules.size < 65535)
    (hpatterns : t.patterns.toList.Pairwise (· < ·)) :
    (t.extended d form h).patterns.toList.Pairwise (· < ·) := by
  cases form with
  | literal text => exact hpatterns
  | pattern automaton =>
    have hpush : (t.extended d (.pattern automaton) h).patterns.toList
        = t.patterns.toList ++ [⟨t.rules.size, Nat.lt_succ_of_lt h⟩] := Array.toList_push ..
    rw [hpush, List.pairwise_append]
    refine ⟨hpatterns, List.pairwise_singleton .., fun n hn n' hn' => ?_⟩
    obtain ⟨rule, hrule, -⟩ := (ht.patterns n).1 (Array.mem_toList_iff.1 hn)
    rw [List.mem_singleton.1 hn']
    exact (Array.getElem?_eq_some_iff.1 hrule).1

/-- The patterns stand in the order of their rules. -/
theorem pairwise_patterns (h : ofDecls decls = .ok t) : t.patterns.toList.Pairwise (· < ·) := by
  have hall : ∀ {t : TokenTable}, t.Indexed → t.patterns.toList.Pairwise (· < ·) →
      ∀ {t'}, decls.foldlM add t = .ok t' → t'.patterns.toList.Pairwise (· < ·) := by
    clear h
    induction decls with
    | nil =>
      rintro t - hpatterns _ ⟨⟩
      exact hpatterns
    | cons d decls ih =>
      intro t ht hpatterns t' h
      rw [List.foldlM_cons] at h
      cases hadd : t.add d with
      | error e =>
        rw [hadd] at h
        cases h
      | ok t₁ =>
        rw [hadd] at h
        obtain ⟨hroom, hname, form, hform, rfl⟩ := add_eq_ok_iff.1 hadd
        exact ih (ht.extended hroom hname (sound_compile hform))
          (ht.pairwise_extended hroom hpatterns) h
  unfold ofDecls at h
  split at h
  · cases h
  · exact hall indexed_empty (by simp [empty]) h

/-- The declared form is right, and it is this one. -/
def Compiles (d : LexemeDecl) (form : LexemeForm) : Prop := compile d.name d.source = .ok form

/-- The rules of declarations whose forms are known. -/
theorem rules_of_declares {forms : List LexemeForm} {rules : List LexemeRule}
    (h : List.Forall₂ Declares decls rules) (hforms : List.Forall₂ Compiles decls forms) :
    rules = List.zipWith (fun d form => ⟨d.name, form, d.trivia⟩) decls forms := by
  induction h generalizing forms with
  | nil =>
    cases hforms
    rfl
  | @cons d rule decls rules hd hdecls ih =>
    obtain ⟨name, form', trivia⟩ := rule
    obtain ⟨rfl, hform', rfl⟩ := hd
    cases hforms with
    | @cons _ form _ forms hform hforms =>
      rw [hform] at hform'
      cases hform'
      rw [ih hforms, List.zipWith_cons_cons]

/-- Declarations with new names and right forms are added, when there is room. -/
theorem exists_foldlM_add {forms : List LexemeForm}
    (hroom : t.rules.size + decls.length ≤ 65535) (hnames : (decls.map LexemeDecl.name).Nodup)
    (hnew : ∀ d ∈ decls, t.id? d.name = none) (hforms : List.Forall₂ Compiles decls forms) :
    ∃ t', decls.foldlM add t = .ok t' := by
  induction hforms generalizing t with
  | nil => exact ⟨t, rfl⟩
  | @cons d form decls forms hform hforms ih =>
    rw [List.length_cons] at hroom
    rw [List.map_cons, List.nodup_cons] at hnames
    rw [List.forall_mem_cons] at hnew
    have hlt : t.rules.size < 65535 := by omega
    rw [List.foldlM_cons, add_eq_ok_iff.2 ⟨hlt, hnew.1, form, hform, rfl⟩]
    refine ih ?_ hnames.2 fun d' hd' => ?_
    · simp only [extended, Array.size_push]
      omega
    · have hne : d.name ≠ d'.name := fun heq =>
        hnames.1 (List.mem_map.2 ⟨d', hd', heq.symm⟩)
      rw [id?_extended, if_neg hne]
      exact hnew.2 d' hd'

/-- Declarations with different names and right forms make a table. -/
theorem exists_ofDecls {forms : List LexemeForm} (hlength : decls.length ≤ 65535)
    (hnames : (decls.map LexemeDecl.name).Nodup) (hforms : List.Forall₂ Compiles decls forms) :
    ∃ t, ofDecls decls = .ok t := by
  rw [ofDecls, if_neg (Nat.not_lt.2 hlength)]
  exact exists_foldlM_add (by simpa [empty] using hlength) hnames (by simp [empty, id?]) hforms

end TokenTable

end FrontEnd
