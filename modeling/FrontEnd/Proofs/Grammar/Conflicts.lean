import FrontEnd.Parser.State
import FrontEnd.Proofs.Grammar.Checked
import FrontEnd.Proofs.Grammar.Drafts
import FrontEnd.Proofs.Grammar.Language
import FrontEnd.Proofs.Token.FiniteSets

/-!
# Conflicts between alternatives

One token cannot tell alternatives apart that both can begin with it and have no guard. When a
grammar is built, the first sets of the alternatives are gone through once: what was seen before is
a conflict. When a rule is parsed, the alternatives are counted that can begin with the next token.
**Both find the same tokens**.

- `Analysis.Clashes`: a token that begins two alternatives without a guard;
- `ParseState.two_le_candidates_iff`: there are two candidates for such a token;
- `Analysis.contains_overlap_iff`: the sets overlap in such tokens;
- `Grammar.ExactConflicts`, `Grammar.exactConflicts_of_ofDecls`: **the conflicts of a grammar that
  is built**;
- `Grammar.forked`: a grammar with a conflict.
-/

namespace FrontEnd

namespace Analysis

/-- The token begins two of the alternatives that have no guard. -/
def Clashes (as : List Alternative) (t : TokenId) : Prop :=
  ∃ (i j : Nat) (a b : Alternative), i < j ∧ as[i]? = some a ∧ as[j]? = some b ∧
    a.guard = [] ∧ b.guard = [] ∧ a.first.contains t = true ∧ b.first.contains t = true

end Analysis

/-! ## Counting -/

namespace ParseState

open Analysis

variable {as : List Alternative} {t : TokenId}

theorem candidate_iff {a : Alternative} : (a.guard.isEmpty && a.first.contains t) = true ↔
    a.guard = [] ∧ a.first.contains t = true := by
  rw [Bool.and_eq_true, List.isEmpty_iff]

theorem candidates_ne_nil_iff : candidates as t ≠ [] ↔
    ∃ (j : Nat) (b : Alternative), as[j]? = some b ∧ b.guard = [] ∧ b.first.contains t = true := by
  constructor
  · intro hne
    obtain ⟨b, hb⟩ := List.exists_mem_of_ne_nil _ hne
    obtain ⟨hmem, hcandidate⟩ := List.mem_filter.1 hb
    obtain ⟨j, hj⟩ := List.mem_iff_getElem?.1 hmem
    exact ⟨j, b, hj, candidate_iff.1 hcandidate⟩
  · rintro ⟨j, b, hj, hcandidate⟩
    exact List.ne_nil_of_mem
      (List.mem_filter.2 ⟨List.mem_of_getElem? hj, candidate_iff.2 hcandidate⟩)

/-- A token begins two alternatives: two behind the first, or the first and one behind it. -/
theorem clashes_cons_iff {x : Alternative} : Clashes (x :: as) t ↔
    Clashes as t ∨ (x.guard = [] ∧ x.first.contains t = true) ∧ candidates as t ≠ [] := by
  rw [candidates_ne_nil_iff]
  constructor
  · rintro ⟨i, j, a, b, hij, ha, hb, hguard, hguard', hfirst, hfirst'⟩
    obtain ⟨j, rfl⟩ := Nat.exists_eq_add_one_of_ne_zero (Nat.ne_zero_of_lt hij)
    rw [List.getElem?_cons_succ] at hb
    cases i with
    | zero =>
      cases ha
      exact .inr ⟨⟨hguard, hfirst⟩, j, b, hb, hguard', hfirst'⟩
    | succ i =>
      rw [List.getElem?_cons_succ] at ha
      exact .inl ⟨i, j, a, b, Nat.lt_of_succ_lt_succ hij, ha, hb, hguard, hguard', hfirst, hfirst'⟩
  · rintro (⟨i, j, a, b, hij, ha, hb, hrest⟩ | ⟨⟨hguard, hfirst⟩, j, b, hb, hguard', hfirst'⟩)
    · exact ⟨i + 1, j + 1, a, b, Nat.succ_lt_succ hij, ha, hb, hrest⟩
    · exact ⟨0, j + 1, x, b, Nat.succ_pos j, rfl, hb, hguard, hguard', hfirst, hfirst'⟩

/-- The candidates for a token are more than one if it begins two alternatives. -/
theorem two_le_candidates_iff : 2 ≤ (candidates as t).length ↔ Clashes as t := by
  induction as with
  | nil =>
    refine ⟨fun h => absurd h (Nat.not_succ_le_zero 1), fun ⟨i, _, a, _, _, ha, _⟩ => ?_⟩
    cases ha
  | cons x as ih =>
    rw [clashes_cons_iff, ← ih, ← candidate_iff, candidates, List.filter_cons,
      ← List.length_pos_iff]
    by_cases hx : (x.guard.isEmpty && x.first.contains t) = true
    · rw [if_pos hx, and_iff_right hx, List.length_cons]
      show 2 ≤ (candidates as t).length + 1 ↔ _
      omega
    · rw [if_neg hx, or_iff_left fun h => hx h.1]
      rfl

end ParseState

namespace TokenSet

variable {a b : TokenSet} {t : TokenId}

/-- A bit of such a set stands for an id. -/
theorem Narrow.exists_index_eq {i : Nat} (h : a.Narrow) (hi : a.bit i = true) :
    ∃ t : TokenId, t.index = i := by
  have hlt : i < TokenId.total := by
    refine Nat.lt_of_not_le fun hle => ?_
    rw [h i hle] at hi
    cases hi
  obtain ⟨t, ht⟩ := TokenId.exists_ofIndex? hlt
  exact ⟨t, TokenId.index_of_ofIndex? ht⟩

theorem Narrow.isEmpty_eq_false_iff (h : a.Narrow) :
    a.isEmpty = false ↔ ∃ t, a.contains t = true := by
  rw [← Bool.not_eq_true, isEmpty_iff]
  constructor
  · intro hnot
    obtain ⟨i, hi⟩ := not_forall.1 hnot
    have hi : a.bit i = true := by simpa using hi
    obtain ⟨t, rfl⟩ := h.exists_index_eq hi
    exact ⟨t, contains_eq_bit.trans hi⟩
  · rintro ⟨t, ht⟩ hall
    rw [contains_eq_bit, hall] at ht
    cases ht

theorem Narrow.intersects_iff (h : a.Narrow) :
    a.intersects b = true ↔ ∃ t, a.contains t = true ∧ b.contains t = true := by
  have hempty := (h.inter b).isEmpty_eq_false_iff
  simp only [isEmpty_inter, Bool.not_eq_false', contains_inter, Bool.and_eq_true] at hempty
  exact hempty

end TokenSet

/-! ## Going through the sets once -/

namespace Analysis

open ParseState

variable {as : List Alternative} {a : Alternative} {t : TokenId} {r : Nat} {c : Conflict}

/-- What is found while the alternatives are gone through: what overlapped before, what begins one
of them and was seen before, and what begins two. -/
theorem contains_foldl_overlap (as : List Alternative) (found seen : TokenSet) :
    (as.foldl (fun state a => (state.1.union (state.2.inter a.first), state.2.union a.first))
      (found, seen)).1.contains t = true ↔
        found.contains t = true ∨
          seen.contains t = true ∧ 1 ≤ as.countP (·.first.contains t) ∨
          2 ≤ as.countP (·.first.contains t) := by
  induction as generalizing found seen with
  | nil => simp
  | cons x as ih =>
    rw [List.foldl_cons, ih, List.countP_cons]
    simp only [TokenSet.contains_union, TokenSet.contains_inter, Bool.or_eq_true,
      Bool.and_eq_true]
    generalize as.countP (·.first.contains t) = n
    by_cases hx : x.first.contains t = true
    · rw [if_pos hx]
      grind
    · rw [if_neg hx]
      grind

theorem contains_overlap_iff : (overlap as).contains t = true ↔ Clashes as t := by
  have hcount : (as.filter (·.guard.isEmpty)).countP (·.first.contains t)
      = (candidates as t).length := by
    rw [List.countP_eq_length_filter, List.filter_filter, candidates]
    simp only [Bool.and_comm]
  rw [← two_le_candidates_iff, ← hcount]
  refine (contains_foldl_overlap ..).trans ?_
  simp

theorem narrow_foldl_overlap {found seen : TokenSet} (hfound : found.Narrow) (hseen : seen.Narrow)
    (h : ∀ a ∈ as, a.first.Narrow) :
    (as.foldl (fun state a => (state.1.union (state.2.inter a.first), state.2.union a.first))
      (found, seen)).1.Narrow := by
  induction as generalizing found seen with
  | nil => exact hfound
  | cons x as ih =>
    obtain ⟨hx, has⟩ := List.forall_mem_cons.1 h
    exact ih (hfound.union (hseen.inter x.first)) (hseen.union hx) has

theorem narrow_overlap (h : ∀ a ∈ as, a.first.Narrow) : (overlap as).Narrow :=
  narrow_foldl_overlap TokenSet.narrow_empty TokenSet.narrow_empty
    fun a ha => h a (List.mem_filter.1 ha).1

theorem rule_of_conflict? (hc : conflict? r as = some c) : c.rule = r := by
  rw [conflict?] at hc
  dsimp only at hc
  split at hc
  · cases hc
  · cases hc
    rfl

/-- Places are in ascending order. -/
theorem pairwise_zipIdx {α : Type} (xs : List α) : xs.zipIdx.Pairwise fun x y => x.2 < y.2 := by
  have hplaces := List.pairwise_lt_range' (s := 0) (n := xs.length)
  rw [← List.zipIdx_map_snd 0 xs] at hplaces
  exact List.pairwise_map.1 hplaces

/-- There is a conflict if a token begins two alternatives. It is about these tokens, and about the
alternatives that begin with one of them. -/
theorem conflict?_eq_some (h : ∀ a ∈ as, a.first.Narrow) (hc : conflict? r as = some c) :
    (∃ t, Clashes as t) ∧ (∀ t, c.tokens.contains t = true ↔ Clashes as t) ∧
      c.alternatives.Pairwise (· < ·) ∧
      ∀ i, i ∈ c.alternatives ↔ ∃ a, as[i]? = some a ∧ a.guard = [] ∧
        ∃ t, c.tokens.contains t = true ∧ a.first.contains t = true := by
  rw [conflict?] at hc
  dsimp only at hc
  split at hc
  · cases hc
  · next hempty =>
    cases hc
    have hsome := (narrow_overlap h).isEmpty_eq_false_iff.1 (Bool.not_eq_true _ ▸ hempty)
    simp only [contains_overlap_iff] at hsome
    refine ⟨hsome, fun t => contains_overlap_iff, ?_, fun i => ?_⟩
    · exact List.pairwise_map.2 ((pairwise_zipIdx as).filter _)
    · simp only [List.mem_map, List.mem_filter, Prod.exists, List.mk_mem_zipIdx_iff_getElem?,
        Bool.and_eq_true, List.isEmpty_iff]
      constructor
      · rintro ⟨a, i', ⟨ha, hguard, hmeets⟩, rfl⟩
        obtain ⟨t, hfirst, hoverlap⟩ :=
          (h a (List.mem_of_getElem? ha)).intersects_iff.1 hmeets
        exact ⟨a, ha, hguard, t, hoverlap, hfirst⟩
      · rintro ⟨a, ha, hguard, t, hoverlap, hfirst⟩
        have hmeets := (h a (List.mem_of_getElem? ha)).intersects_iff.2 ⟨t, hfirst, hoverlap⟩
        exact ⟨a, i, ⟨ha, hguard, hmeets⟩, rfl⟩

theorem exists_conflict? (h : Clashes as t) : ∃ c, conflict? r as = some c := by
  rw [conflict?]
  dsimp only
  have hnonempty : ¬ (overlap as).isEmpty = true := by
    intro hempty
    have hnone := TokenSet.bit_of_isEmpty hempty t.index
    rw [← TokenSet.contains_eq_bit, contains_overlap_iff.2 h] at hnone
    cases hnone
  rw [if_neg hnonempty]
  exact ⟨_, rfl⟩

end Analysis

/-! ## Grammars -/

namespace Grammar

open Analysis

variable {decls : List GrammarDecl} {g : Grammar} {r : Nat} {t : TokenId}

/-- The token begins two alternatives of the rule that have no guard. -/
def Clashes (g : Grammar) (r : Nat) (t : TokenId) : Prop :=
  Analysis.Clashes (g.body r).alternatives t

/-- The conflicts of the grammar are those between its alternatives. -/
structure ExactConflicts (g : Grammar) : Prop where
  /-- A rule has one at most. -/
  nodup : (g.conflicts.map Conflict.rule).Nodup
  exists_iff : ∀ r, (∃ c ∈ g.conflicts, c.rule = r) ↔ ∃ t, g.Clashes r t
  tokens : ∀ c ∈ g.conflicts, ∀ t, c.tokens.contains t = true ↔ g.Clashes c.rule t
  ascending : ∀ c ∈ g.conflicts, c.alternatives.Pairwise (· < ·)
  /-- The alternatives are those without a guard that begin with a token of the conflict. -/
  alternatives : ∀ c ∈ g.conflicts, ∀ i, i ∈ c.alternatives ↔
    ∃ a, (g.body c.rule).alternatives[i]? = some a ∧ a.guard = [] ∧
      ∃ t, c.tokens.contains t = true ∧ a.first.contains t = true

/-- Is the token one of a conflict of the rule? -/
def disputes (g : Grammar) (r : Nat) (t : TokenId) : Bool :=
  g.conflicts.any fun c => c.rule == r && c.tokens.contains t

theorem ExactConflicts.disputes_iff (h : g.ExactConflicts) :
    g.disputes r t = true ↔ g.Clashes r t := by
  simp only [disputes, List.any_eq_true, Bool.and_eq_true, beq_iff_eq]
  constructor
  · rintro ⟨c, hc, rfl, ht⟩
    exact (h.tokens c hc t).1 ht
  · intro ht
    obtain ⟨c, hc, rfl⟩ := (h.exists_iff r).2 ⟨t, ht⟩
    exact ⟨c, hc, rfl, (h.tokens c hc t).2 ht⟩

theorem mem_conflicts_iff {rules : Array (Rule Alternative)} {c : Conflict} :
    c ∈ Analysis.conflicts rules ↔
      ∃ r rule, rules[r]? = some rule ∧ conflict? r rule.body.alternatives = some c := by
  simp only [Analysis.conflicts, List.mem_filterMap, Prod.exists, List.mk_mem_zipIdx_iff_getElem?,
    Array.getElem?_toList]
  exact exists_comm

/-- The first sets of a grammar hold nothing but ids. -/
theorem narrow_first {rules : Rules} (h : g.Finishes rules) {a : Alternative}
    (ha : a ∈ (g.body r).alternatives) : a.first.Narrow := by
  cases hbody : g.body r with
  | undefined | expression ops => rw [hbody] at ha; cases ha
  | sequence as =>
    rw [hbody] at ha
    obtain ⟨rule, ps, -, -, -, hanalysed⟩ := h.sequence hbody ha
    rw [hanalysed]
    have htight : ∀ r, (g.first.getD r ∅).Tight := h.first_eq ▸ (fits_firsts _ _).2
    exact (tight_sequenceFirst htight _).narrow

/-- No two rules have the same name. -/
theorem eq_of_ruleName_eq (hg : ofDecls decls = .ok g) {r r' : Nat} (hr : r < g.size)
    (hr' : r' < g.size) (h : g.ruleName r = g.ruleName r') : r = r' := by
  obtain ⟨start, hstart, -, -, rfl⟩ := GrammarDraft.build_eq_ok_iff.1 hg
  have hsize : ((GrammarDraft.ofDecls decls).finished start).size
      = (GrammarDraft.ofDecls decls).rules.size := Array.size_map
  rw [hsize] at hr hr'
  have hname : ∀ {i : Nat} (hi : i < (GrammarDraft.ofDecls decls).rules.size),
      ((GrammarDraft.ofDecls decls).finished start).ruleName i
        = (GrammarDraft.ofDecls decls).rules[i].name := by
    intro i hi
    simp [ruleName, GrammarDraft.finished, hi]
  rw [hname hr, hname hr'] at h
  exact GrammarDraft.eq_of_name (GrammarDraft.error_of_checkedStart hstart)
    (Array.getElem?_eq_getElem hr') (Array.getElem?_eq_getElem hr) h

theorem exactConflicts_of_ofDecls (hg : ofDecls decls = .ok g) : g.ExactConflicts := by
  obtain ⟨rules, hfinishes⟩ := exists_finishes hg
  have hconflicts : g.conflicts = Analysis.conflicts g.rules := by
    obtain ⟨start, -, -, -, rfl⟩ := GrammarDraft.build_eq_ok_iff.1 hg
    rfl
  -- A rule has one conflict at most, which carries the number of the rule.
  have hmem : ∀ {c}, c ∈ g.conflicts ↔
      ∃ r, conflict? r (g.body r).alternatives = some c := by
    intro c
    rw [hconflicts, mem_conflicts_iff]
    refine exists_congr fun r => ?_
    cases hrule : g.rules[r]? with
    | none =>
      have hnone : conflict? r (g.body r).alternatives = none := by
        rw [body, hrule]
        rfl
      simp [hnone]
    | some rule => simp [body, hrule]
  have hspec : ∀ {c}, c ∈ g.conflicts → conflict? c.rule (g.body c.rule).alternatives = some c := by
    intro c hc
    obtain ⟨r, hconflict⟩ := hmem.1 hc
    obtain rfl := rule_of_conflict? hconflict
    exact hconflict
  have hexact := fun {c} (hc : c ∈ g.conflicts) =>
    conflict?_eq_some (fun _ => narrow_first hfinishes) (hspec hc)
  refine ⟨?nodup, fun r => ⟨?_, ?_⟩, fun c hc => (hexact hc).2.1, fun c hc => (hexact hc).2.2.1,
    fun c hc => (hexact hc).2.2.2⟩
  case nodup =>
    rw [hconflicts]
    refine List.pairwise_map.2 (List.pairwise_filterMap.2 ?_)
    refine (pairwise_zipIdx _).imp fun hlt c hc c' hc' heq => Nat.ne_of_lt hlt ?_
    rw [← rule_of_conflict? hc, ← rule_of_conflict? hc', heq]
  · rintro ⟨c, hc, rfl⟩
    exact (hexact hc).1
  · rintro ⟨t, ht⟩
    obtain ⟨c, hc⟩ := exists_conflict? (r := r) ht
    exact ⟨c, hmem.2 ⟨r, hc⟩, rule_of_conflict? hc⟩

/-! ## A grammar with a conflict -/

/-- Both alternatives of the rule begin with the same token. -/
def forkedDecls : List GrammarDecl :=
  [.rule "item" [⟨[.token (.kind 0)], []⟩, ⟨[.token (.kind 0), .token (.kind 1)], []⟩], .start 0]

/-- The grammar of these declarations. -/
def forked : Grammar := (GrammarDraft.ofDecls forkedDecls).finished 0

theorem ofDecls_forked : ofDecls forkedDecls = .ok forked := by
  refine GrammarDraft.build_eq_ok_iff.2 ⟨0, ?_, ?_, ?_, rfl⟩
  · decide +kernel
  · decide +kernel
  · cbv

theorem body_forked (r : Nat) : forked.body r = if r = 0 then
    .sequence [alternative forked.nullable forked.first ⟨[.token (.kind 0)], []⟩,
      alternative forked.nullable forked.first ⟨[.token (.kind 0), .token (.kind 1)], []⟩]
    else .undefined := by
  have hrules : (GrammarDraft.ofDecls forkedDecls).rules = #[⟨"item", .sequence
      [⟨[.token (.kind 0)], []⟩, ⟨[.token (.kind 0), .token (.kind 1)], []⟩], false⟩] := by
    decide +kernel
  rw [forked, GrammarDraft.body_finished, hrules]
  rcases r with _ | r <;> rfl

theorem clashes_forked : forked.Clashes 0 (.kind 0) := by
  rw [Clashes, body_forked]
  exact ⟨0, 1, _, _, Nat.one_pos, rfl, rfl, rfl, rfl, rfl, rfl⟩

theorem lacks_forked {t : TokenId} (ht : ∀ k, t ≠ .kind k) : forked.Lacks t := by
  constructor
  · intro r as a hb ha
    rw [body_forked] at hb
    split at hb
    · cases hb
      simp only [List.mem_cons, List.not_mem_nil, or_false] at ha
      rcases ha with rfl | rfl <;> simp [alternative, ht]
    · cases hb
  · intro r ops hb
    rw [body_forked] at hb
    split at hb <;> cases hb

end Grammar

end FrontEnd
