import Mathlib.Data.Finset.Card
import Mathlib.Data.Finset.Prod
import FrontEnd.Grammar.Analysis
import FrontEnd.Proofs.Token.Sets

/-!
# The analysis reaches its fixed point

Which rules can be empty and which tokens begin them is found by going round the rules until
nothing changes, with a bound on the rounds. The bound is never what ends them: a round that
changes something finds a fact that was not known, and there are fewer facts than rounds.

- `Analysis.Gathers`: steps that find facts out of a finite universe, and lose none;
- `Analysis.Gathers.settle_fixed`: **going round ends where nothing changes any more**;
- `Analysis.Gathers.comesToRest`: a loop without a bound ends there as well;
- `Analysis.nullable_of_body`, `Analysis.first_of_body`: the fixed points are closed under the
  equations of the rules;
- `Analysis.nullables_induction`, `Analysis.firsts_induction`: nothing is in them without a reason.
-/

namespace FrontEnd

namespace Analysis

/-! ## Gathering facts -/

section Gathers

variable {α ι : Type}

/-- A step that keeps `P`, loses no facts and stays within `U`. The facts tell everything. -/
structure Gathers (step : α → α) (P : α → Prop) (facts : α → Finset ι) (U : Finset ι) : Prop where
  keeps : ∀ x, P x → P (step x)
  grows : ∀ x, P x → facts x ⊆ facts (step x)
  within : ∀ x, P x → facts x ⊆ U
  determines : ∀ x y, P x → P y → facts x = facts y → x = y

variable {step : α → α} {P : α → Prop} {facts : α → Finset ι} {U : Finset ι}

/-- A step that changes something leaves fewer facts to be found. -/
theorem Gathers.card_lt [DecidableEq ι] (h : Gathers step P facts U) {x : α} (hx : P x)
    (hne : step x ≠ x) : (U \ facts (step x)).card < (U \ facts x).card := by
  have hgrow : facts x ⊂ facts (step x) := by
    refine (h.grows x hx).ssubset_of_ne fun heq => hne ?_
    exact h.determines _ _ (h.keeps x hx) hx heq.symm
  have hwithin := h.within _ (h.keeps x hx)
  rw [Finset.card_sdiff_of_subset hwithin, Finset.card_sdiff_of_subset (h.within x hx)]
  have hlt := Finset.card_lt_card hgrow
  have hle := Finset.card_le_card hwithin
  omega

/-- A loop that begins with the first value, and goes round once more as long as a round finds
something, ends with the second. -/
inductive ComesToRest (step : α → α) (Finds : α → α → Prop) : α → α → Prop
  | rest {x : α} (h : step x = x) : ComesToRest step Finds x x
  | more {x y : α} (h : Finds x (step x)) (h' : ComesToRest step Finds (step x) y) :
    ComesToRest step Finds x y

theorem ComesToRest.imp {Finds Finds' : α → α → Prop} {x y : α}
    (h : ComesToRest step Finds x y) (himp : ∀ x y, Finds x y → Finds' x y) :
    ComesToRest step Finds' x y := by
  induction h with
  | rest h => exact .rest h
  | more h _ ih => exact .more (himp _ _ h) ih

/-- At rest a round more changes nothing. -/
theorem ComesToRest.fixed {Finds : α → α → Prop} {x y : α} (h : ComesToRest step Finds x y) :
    step y = y := by
  induction h with
  | rest h => exact h
  | more _ _ ih => exact ih

/-- The bound is not what ends the rounds: each of them but the last has found a fact. -/
theorem Gathers.comesToRest [DecidableEq ι] [DecidableEq α] (h : Gathers step P facts U)
    {bound : Nat} {x : α} (hx : P x) (hbound : (U \ facts x).card < bound) :
    ComesToRest step (fun x y => ∃ i, i ∉ facts x ∧ i ∈ facts y) x (settle step bound x) := by
  induction bound generalizing x with
  | zero => exact absurd hbound (Nat.not_lt_zero _)
  | succ bound ih =>
    rw [settle]
    by_cases hfix : step x = x
    · simp only [hfix, if_true]
      exact .rest hfix
    · simp only [hfix, if_false]
      have hlt := h.card_lt hx hfix
      refine .more ?_ (ih (h.keeps x hx) (by omega))
      by_contra hnone
      push Not at hnone
      -- A round that finds no fact changes nothing, since the facts tell everything.
      have hsub : facts (step x) ⊆ facts x := fun i hi => by_contra fun hnew => hnone i hnew hi
      exact hfix (h.determines _ _ (h.keeps x hx) hx (hsub.antisymm (h.grows x hx)))

theorem Gathers.settle_fixed [DecidableEq ι] [DecidableEq α] (h : Gathers step P facts U)
    {bound : Nat} {x : α} (hx : P x) (hbound : (U \ facts x).card < bound) :
    step (settle step bound x) = settle step bound x :=
  (h.comesToRest hx hbound).fixed

/-- Where a whole round changes nothing, no step of it does. -/
theorem Gathers.foldl_fixed {ρ : Type} {visit : α → ρ → α}
    (h : ∀ r, Gathers (visit · r) P facts U) {rs : List ρ} {x : α} (hx : P x) :
    facts x ⊆ facts (rs.foldl visit x) ∧
      (rs.foldl visit x = x → ∀ r ∈ rs, visit x r = x) := by
  induction rs generalizing x with
  | nil => exact ⟨Finset.Subset.refl _, fun _ r hr => nomatch hr⟩
  | cons r rs ih =>
    obtain ⟨hgrow, hrest⟩ := ih ((h r).keeps x hx)
    refine ⟨((h r).grows x hx).trans hgrow, fun hfix => ?_⟩
    rw [List.foldl_cons] at hfix
    have hsame : visit x r = x := by
      refine (h r).determines _ _ ((h r).keeps x hx) hx ?_
      refine Finset.Subset.antisymm ?_ ((h r).grows x hx)
      rw [hfix] at hgrow
      exact hgrow
    intro r' hr'
    rcases List.mem_cons.1 hr' with rfl | hr'
    · exact hsame
    · rw [hsame] at hfix hrest
      exact hrest hfix r' hr'

theorem foldl_keeps {ρ : Type} {visit : α → ρ → α} (h : ∀ x r, P x → P (visit x r)) {rs : List ρ}
    {x : α} (hx : P x) : P (rs.foldl visit x) := by
  induction rs generalizing x with
  | nil => exact hx
  | cons r rs ih => exact ih (h x r hx)

/-- A round of steps that gather gathers. -/
theorem Gathers.foldl {ρ : Type} {visit : α → ρ → α} (h : ∀ r, Gathers (visit · r) P facts U)
    (hdet : ∀ x y, P x → P y → facts x = facts y → x = y) (hin : ∀ x, P x → facts x ⊆ U)
    (rs : List ρ) : Gathers (fun x => rs.foldl visit x) P facts U where
  keeps := fun _ hx => foldl_keeps (fun x r => (h r).keeps x) hx
  grows := fun _ hx => (foldl_fixed h hx).1
  within := hin
  determines := hdet

theorem settle_keeps [DecidableEq α] (h : ∀ x, P x → P (step x)) (bound : Nat) {x : α} (hx : P x) :
    P (settle step bound x) := by
  induction bound generalizing x with
  | zero => exact hx
  | succ bound ih =>
    show P (if step x = x then x else settle step bound (step x))
    split
    · exact hx
    · exact ih (h x hx)

end Gathers

/-! ## Rules that can be empty -/

/-- Visits one rule: marks it if it can be empty as far as is known. -/
def nullableVisit (rules : Rules) (nullable : Array Bool) (r : Nat) : Array Bool :=
  match rules[r]? with
  | some rule => if bodyNullable nullable rule.body then nullable.setIfInBounds r true else nullable
  | none => nullable

/-- The rules that are marked. -/
def marked (n : Nat) (nullable : Array Bool) : Finset Nat :=
  (Finset.range n).filter fun r => nullable.getD r false = true

theorem getD_setIfInBounds {α : Type} (xs : Array α) (i j : Nat) (x d : α) :
    (xs.setIfInBounds i x).getD j d = if i = j ∧ j < xs.size then x else xs.getD j d := by
  simp only [Array.getD_eq_getD_getElem?, Array.getElem?_setIfInBounds]
  by_cases hij : i = j
  · subst hij
    by_cases hi : i < xs.size
    · simp [hi]
    · simp [hi]
  · simp [hij]

theorem ext_getD {α : Type} {xs ys : Array α} (d : α) (hsize : xs.size = ys.size)
    (h : ∀ i < xs.size, xs.getD i d = ys.getD i d) : xs = ys := by
  refine Array.ext hsize fun i hx hy => ?_
  simpa [Array.getD_eq_getD_getElem?, hx, hy] using h i hx

theorem getD_nullableVisit (rules : Rules) (nullable : Array Bool) (r i : Nat) :
    (nullableVisit rules nullable r).getD i false = true ↔
      nullable.getD i false = true ∨
        i = r ∧ i < nullable.size ∧ ∃ rule, rules[i]? = some rule ∧
          bodyNullable nullable rule.body = true := by
  unfold nullableVisit
  -- Only the entry of the visited rule can change, and only from `false` to `true`.
  cases hr : rules[r]? with
  | none =>
    dsimp only
    refine ⟨.inl, ?_⟩
    rintro (h | ⟨rfl, -, rule, hrule, -⟩)
    · exact h
    · rw [hr] at hrule
      cases hrule
  | some rule =>
    dsimp only
    by_cases hb : bodyNullable nullable rule.body = true
    · rw [if_pos hb, getD_setIfInBounds]
      constructor
      · intro h
        split at h
        · next hij => exact .inr ⟨hij.1.symm, hij.2, rule, hij.1 ▸ hr, hb⟩
        · exact .inl h
      · rintro (h | ⟨rfl, hi, -⟩)
        · rw [h, ite_self]
        · rw [if_pos ⟨rfl, hi⟩]
    · rw [if_neg hb]
      refine ⟨.inl, ?_⟩
      rintro (h | ⟨rfl, -, rule', hrule, hb'⟩)
      · exact h
      · rw [hr] at hrule
        cases hrule
        exact absurd hb' hb

theorem size_nullableVisit (rules : Rules) (nullable : Array Bool) (r : Nat) :
    (nullableVisit rules nullable r).size = nullable.size := by
  unfold nullableVisit
  split
  · split
    · exact Array.size_setIfInBounds
    · rfl
  · rfl

theorem marked_determines {n : Nat} {x y : Array Bool} (hx : x.size = n) (hy : y.size = n)
    (h : marked n x = marked n y) : x = y := by
  refine ext_getD false (hx.trans hy.symm) fun i hi => ?_
  have hmem := Finset.ext_iff.1 h i
  have hi' : i < n := by rwa [← hx]
  simp only [marked, Finset.mem_filter, Finset.mem_range, hi', true_and] at hmem
  exact Bool.eq_iff_iff.2 hmem

theorem gathers_nullableVisit (rules : Rules) (r : Nat) :
    Gathers (nullableVisit rules · r) (fun x => x.size = rules.size) (marked rules.size)
      (Finset.range rules.size) where
  keeps := fun x hx => (size_nullableVisit rules x r).trans hx
  grows := by
    intro x hx i hi
    rw [marked, Finset.mem_filter] at hi ⊢
    exact ⟨hi.1, (getD_nullableVisit rules x r i).2 (.inl hi.2)⟩
  within := fun _ _ => Finset.filter_subset _ _
  determines := fun _ _ => marked_determines

theorem size_nullables (rules : Rules) : (nullables rules).size = rules.size :=
  settle_keeps (P := fun x : Array Bool => x.size = rules.size)
    (fun _ hx => foldl_keeps (fun x r => (gathers_nullableVisit rules r).keeps x) hx) _
    Array.size_replicate

theorem gathers_nullableRound (rules : Rules) :
    Gathers (nullableRound rules) (fun x => x.size = rules.size) (marked rules.size)
      (Finset.range rules.size) :=
  Gathers.foldl (gathers_nullableVisit rules) (fun _ _ => marked_determines)
    (fun _ _ => Finset.filter_subset _ _) (List.range rules.size)

/-- A round that changes something marks a rule, so that one round for each rule is enough. -/
theorem card_unmarked_lt (rules : Rules) :
    (Finset.range rules.size \ marked rules.size (Array.replicate rules.size false)).card
      < rules.size + 1 := by
  have hle := Finset.card_le_card (Finset.sdiff_subset (s := Finset.range rules.size)
    (t := marked rules.size (Array.replicate rules.size false)))
  rw [Finset.card_range] at hle
  exact Nat.lt_succ_of_le hle

theorem nullableVisit_nullables (rules : Rules) {r : Nat} (hr : r < rules.size) :
    nullableVisit rules (nullables rules) r = nullables rules := by
  have hfix : nullableRound rules (nullables rules) = nullables rules :=
    (gathers_nullableRound rules).settle_fixed Array.size_replicate (card_unmarked_lt rules)
  exact (Gathers.foldl_fixed (gathers_nullableVisit rules) (size_nullables rules)).2 hfix r
    (List.mem_range.2 hr)

/-- A rule whose body can be empty is among those that can. -/
theorem nullable_of_body {rules : Rules} {r : Nat} {rule : Rule Production}
    (hr : rules[r]? = some rule) (hb : bodyNullable (nullables rules) rule.body = true) :
    (nullables rules).getD r false = true := by
  obtain ⟨hlt, -⟩ := Array.getElem?_eq_some_iff.1 hr
  rw [← nullableVisit_nullables rules hlt, getD_nullableVisit, size_nullables]
  exact .inr ⟨rfl, hlt, rule, hr, hb⟩

/-- What holds of every rule whose body can be empty, as far as it holds of the rules inside,
holds of all rules that can be empty. -/
theorem nullables_induction {rules : Rules} {Q : Nat → Prop}
    (h : ∀ nullable : Array Bool, (∀ r, nullable.getD r false = true → Q r) →
      ∀ r rule, rules[r]? = some rule → bodyNullable nullable rule.body = true → Q r)
    {r : Nat} (hr : (nullables rules).getD r false = true) : Q r := by
  have hvisit : ∀ (x : Array Bool) (r : Nat), (∀ i, x.getD i false = true → Q i) →
      ∀ i, (nullableVisit rules x r).getD i false = true → Q i := by
    intro x r hx i hi
    rcases (getD_nullableVisit rules x r i).1 hi with hi | ⟨rfl, -, rule, hrule, hb⟩
    · exact hx i hi
    · exact h x hx i rule hrule hb
  have hall : ∀ i, (nullables rules).getD i false = true → Q i := by
    refine settle_keeps (P := fun x : Array Bool => ∀ i, x.getD i false = true → Q i)
      (fun x hx => ?_) _ ?_
    · exact foldl_keeps (P := fun x : Array Bool => ∀ i, x.getD i false = true → Q i) hvisit hx
    · intro i hi
      rw [Array.getD_eq_getD_getElem?, Array.getElem?_replicate] at hi
      split at hi <;> cases hi
  exact hall r hr

/-! ## Tokens that begin a rule -/

/-- Visits one rule: adds the tokens that begin its body as far as is known. -/
def firstVisit (rules : Rules) (nullable : Array Bool) (first : Array TokenSet) (r : Nat) :
    Array TokenSet :=
  match rules[r]? with
  | some rule =>
    first.setIfInBounds r ((first.getD r ∅).union (bodyFirst nullable first rule.body))
  | none => first

/-- The known pairs of a rule and the place of a token that begins it. -/
def known (n : Nat) (first : Array TokenSet) : Finset (Nat × Nat) :=
  (Finset.range n ×ˢ Finset.range TokenId.total).filter fun x =>
    (first.getD x.1 ∅).bit x.2 = true

/-- One tight set for each rule. -/
def Fits (n : Nat) (first : Array TokenSet) : Prop :=
  first.size = n ∧ ∀ r, (first.getD r ∅).Tight

theorem getD_firstVisit (rules : Rules) (nullable : Array Bool) (first : Array TokenSet)
    (r i : Nat) :
    (firstVisit rules nullable first r).getD i ∅ = first.getD i ∅ ∨
      i = r ∧ ∃ rule, rules[i]? = some rule ∧ (firstVisit rules nullable first r).getD i ∅
        = (first.getD i ∅).union (bodyFirst nullable first rule.body) := by
  unfold firstVisit
  cases hr : rules[r]? with
  | none => exact .inl rfl
  | some rule =>
    dsimp only
    rw [getD_setIfInBounds]
    by_cases hij : r = i ∧ i < first.size
    · rw [if_pos hij]
      obtain ⟨rfl, -⟩ := hij
      exact .inr ⟨rfl, rule, hr, rfl⟩
    · rw [if_neg hij]
      exact .inl rfl

theorem size_firstVisit (rules : Rules) (nullable : Array Bool) (first : Array TokenSet) (r : Nat) :
    (firstVisit rules nullable first r).size = first.size := by
  unfold firstVisit
  split
  · exact Array.size_setIfInBounds
  · rfl

theorem tight_sequenceFirst {nullable : Array Bool} {first : Array TokenSet}
    (h : ∀ r, (first.getD r ∅).Tight) (symbols : List Symbol) :
    (sequenceFirst nullable first symbols).1.Tight := by
  induction symbols with
  | nil => exact TokenSet.tight_empty
  | cons symbol rest ih =>
    have hhere : (symbolFirst first symbol).Tight := by
      cases symbol with
      | token id => exact TokenSet.tight_single id
      | rule r | opt r | many r => exact h r
    rw [sequenceFirst]
    split
    · exact hhere.union ih
    · exact hhere

theorem tight_bodyFirst {nullable : Array Bool} {first : Array TokenSet}
    (h : ∀ r, (first.getD r ∅).Tight) (body : RuleBody Production) :
    (bodyFirst nullable first body).Tight := by
  cases body with
  | undefined => exact TokenSet.tight_empty
  | sequence ps =>
    exact foldl_keeps (P := TokenSet.Tight)
      (fun _ p hx => hx.union (tight_sequenceFirst h p.symbols)) TokenSet.tight_empty
  | expression ops => exact (h ops.operand).insertMany _

theorem known_determines {n : Nat} {x y : Array TokenSet} (hx : Fits n x) (hy : Fits n y)
    (h : known n x = known n y) : x = y := by
  refine ext_getD ∅ (hx.1.trans hy.1.symm) fun r hr => ?_
  refine TokenSet.ext_of_tight (hx.2 r) (hy.2 r) fun i hi => ?_
  have hmem := Finset.ext_iff.1 h (r, i)
  have hr' : r < n := by rwa [← hx.1]
  simp only [known, Finset.mem_filter, Finset.mem_product, Finset.mem_range, hr', hi,
    true_and] at hmem
  exact Bool.eq_iff_iff.2 hmem

theorem gathers_firstVisit (rules : Rules) (nullable : Array Bool) (r : Nat) :
    Gathers (firstVisit rules nullable · r) (Fits rules.size) (known rules.size)
      (Finset.range rules.size ×ˢ Finset.range TokenId.total) where
  keeps := by
    refine fun x hx => ⟨(size_firstVisit ..).trans hx.1, fun i => ?_⟩
    rcases getD_firstVisit rules nullable x r i with h | ⟨-, rule, -, h⟩
    · exact h ▸ hx.2 i
    · exact h ▸ (hx.2 i).union (tight_bodyFirst hx.2 rule.body)
  grows := by
    intro x hx ⟨i, bit⟩ hi
    rw [known, Finset.mem_filter] at hi ⊢
    refine ⟨hi.1, ?_⟩
    rcases getD_firstVisit rules nullable x r i with h | ⟨-, rule, -, h⟩
    · rw [h]
      exact hi.2
    · rw [h, TokenSet.bit_union, hi.2, Bool.true_or]
  within := fun _ _ => Finset.filter_subset _ _
  determines := fun _ _ => known_determines

theorem fits_nothing (n : Nat) : Fits n (Array.replicate n ∅) := by
  refine ⟨Array.size_replicate, fun r => ?_⟩
  rw [Array.getD_eq_getD_getElem?, Array.getElem?_replicate]
  split <;> exact TokenSet.tight_empty

theorem fits_firsts (rules : Rules) (nullable : Array Bool) :
    Fits rules.size (firsts rules nullable) :=
  settle_keeps (P := Fits rules.size)
    (fun _ hx => foldl_keeps (fun x r => (gathers_firstVisit rules nullable r).keeps x) hx) _
    (fits_nothing _)

theorem gathers_firstRound (rules : Rules) (nullable : Array Bool) :
    Gathers (firstRound rules nullable) (Fits rules.size) (known rules.size)
      (Finset.range rules.size ×ˢ Finset.range TokenId.total) :=
  Gathers.foldl (gathers_firstVisit rules nullable) (fun _ _ => known_determines)
    (fun _ _ => Finset.filter_subset _ _) (List.range rules.size)

/-- The bound on the rounds is the number of pairs of a rule and a token. -/
theorem card_unknown_lt (rules : Rules) :
    ((Finset.range rules.size ×ˢ Finset.range TokenId.total) \
      known rules.size (Array.replicate rules.size ∅)).card < firstBound rules := by
  have hle := Finset.card_le_card (Finset.sdiff_subset
    (s := Finset.range rules.size ×ˢ Finset.range TokenId.total)
    (t := known rules.size (Array.replicate rules.size ∅)))
  rw [Finset.card_product, Finset.card_range, Finset.card_range] at hle
  exact Nat.lt_succ_of_le hle

theorem firstVisit_firsts (rules : Rules) (nullable : Array Bool) {r : Nat}
    (hr : r < rules.size) :
    firstVisit rules nullable (firsts rules nullable) r = firsts rules nullable := by
  have hfix : firstRound rules nullable (firsts rules nullable) = firsts rules nullable :=
    (gathers_firstRound rules nullable).settle_fixed (fits_nothing rules.size)
      (card_unknown_lt rules)
  exact (Gathers.foldl_fixed (gathers_firstVisit rules nullable) (fits_firsts rules nullable)).2
    hfix r (List.mem_range.2 hr)

/-- What begins the body of a rule begins the rule. -/
theorem first_of_body {rules : Rules} {nullable : Array Bool} {r : Nat} {rule : Rule Production}
    (hr : rules[r]? = some rule) {t : TokenId}
    (hb : (bodyFirst nullable (firsts rules nullable) rule.body).contains t = true) :
    ((firsts rules nullable).getD r ∅).contains t = true := by
  obtain ⟨hlt, -⟩ := Array.getElem?_eq_some_iff.1 hr
  have hsize := (fits_firsts rules nullable).1
  rw [← firstVisit_firsts rules nullable hlt, firstVisit, hr]
  dsimp only
  rw [getD_setIfInBounds, if_pos ⟨rfl, by rw [hsize]; exact hlt⟩, TokenSet.contains_union, hb,
    Bool.or_true]

/-- What holds of every token that begins the body of a rule, as far as it holds of the rules
inside, holds of all tokens that begin rules. -/
theorem firsts_induction {rules : Rules} {nullable : Array Bool} {Q : Nat → TokenId → Prop}
    (h : ∀ first : Array TokenSet, (∀ r t, (first.getD r ∅).contains t = true → Q r t) →
      ∀ r rule t, rules[r]? = some rule →
        (bodyFirst nullable first rule.body).contains t = true → Q r t)
    {r : Nat} {t : TokenId} (hr : ((firsts rules nullable).getD r ∅).contains t = true) :
    Q r t := by
  have hvisit : ∀ (x : Array TokenSet) (r : Nat),
      (∀ i t, (x.getD i ∅).contains t = true → Q i t) →
      ∀ i t, ((firstVisit rules nullable x r).getD i ∅).contains t = true → Q i t := by
    intro x r hx i t hi
    rcases getD_firstVisit rules nullable x r i with heq | ⟨-, rule, hrule, heq⟩
    · exact hx i t (heq ▸ hi)
    · rw [heq, TokenSet.contains_union, Bool.or_eq_true] at hi
      rcases hi with hi | hi
      · exact hx i t hi
      · exact h x hx i rule t hrule hi
  have hall : ∀ i t, ((firsts rules nullable).getD i ∅).contains t = true → Q i t := by
    refine settle_keeps
      (P := fun x : Array TokenSet => ∀ i t, (x.getD i ∅).contains t = true → Q i t)
      (fun x hx => ?_) _ ?_
    · exact foldl_keeps
        (P := fun x : Array TokenSet => ∀ i t, (x.getD i ∅).contains t = true → Q i t) hvisit hx
    · intro i t hi
      have hnone : (Array.replicate rules.size (∅ : TokenSet)).getD i ∅ = ∅ := by
        rw [Array.getD_eq_getD_getElem?, Array.getElem?_replicate]
        split <;> rfl
      rw [hnone, TokenSet.contains_empty] at hi
      cases hi
  exact hall r t hr

end Analysis

end FrontEnd
