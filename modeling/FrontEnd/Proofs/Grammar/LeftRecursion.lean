import Mathlib.Data.Finset.Card
import Mathlib.Logic.Relation
import Mathlib.Order.RelClasses
import FrontEnd.Grammar.Analysis

/-!
# No rule begins with itself

The search for left recursion goes through the rules in depth and fails on the first one that it
meets again. Where it does not fail, the edges from a rule to the rules that it can begin with have
no cycle, and rules can be ranked.

- `Analysis.Searching`: **a rule that is done has only finite chains of edges, and an edge of a
  rule on the stack is done, left to be followed, or leads to the entry above**;
- `Analysis.search_spec`: the search keeps this and leaves nothing active;
- `Analysis.exists_rank`: ranks below the number of rules that fall along every edge;
- `Analysis.Trail`, `Analysis.search_error`: **the stack is a way along edges, so that a search that
  fails has found a cycle**;
- `Analysis.leftRecursive?_eq_none`: where there are ranks, the search does not fail.
-/

namespace FrontEnd

namespace Analysis

/-! ## The search -/

section Search

variable {edges : Nat → List Nat}

/-- There is an edge between two of the first `n` rules, from `r` to `s`. -/
def Edge (edges : Nat → List Nat) (n s r : Nat) : Prop := r < n ∧ s < n ∧ s ∈ edges r

/-- Every edge of an entry is left to be followed, or leads to the entry above or to a rule that is
done. -/
def Waiting (edges : Nat → List Nat) (marks : Array Mark) :
    Option Nat → List (Nat × List Nat) → Prop
  | _, [] => True
  | above, (r, rest) :: stack =>
    (∀ s ∈ edges r, s < marks.size → s ∈ rest ∨ some s = above ∨ marks[s]? = some Mark.done) ∧
      Waiting edges marks (some r) stack

/-- What holds while the search is going on. -/
structure Searching (edges : Nat → List Nat) (marks : Array Mark)
    (stack : List (Nat × List Nat)) : Prop where
  done : ∀ r : Nat, marks[r]? = some Mark.done → Acc (Edge edges marks.size) r
  active : ∀ r : Nat, marks[r]? = some .active → r ∈ stack.map Prod.fst
  waiting : Waiting edges marks none stack

/-- Entries wait as well when more rules are done, and for one that is done instead of above. -/
theorem Waiting.mono {marks marks' : Array Mark} {above above' : Option Nat}
    {stack : List (Nat × List Nat)} (hsize : marks'.size = marks.size)
    (hdone : ∀ s : Nat, marks[s]? = some Mark.done → marks'[s]? = some Mark.done)
    (habove : ∀ s < marks.size, some s = above → some s = above' ∨ marks'[s]? = some Mark.done)
    (h : Waiting edges marks above stack) : Waiting edges marks' above' stack := by
  induction stack generalizing above above' with
  | nil => trivial
  | cons entry stack ih =>
    obtain ⟨r, rest⟩ := entry
    refine ⟨fun s hs hlt => ?_, ih (fun s _ hr => .inl hr) h.2⟩
    rw [hsize] at hlt
    rcases h.1 s hs hlt with hrest | hab | hd
    · exact .inl hrest
    · exact .inr (habove s hlt hab)
    · exact .inr (.inr (hdone s hd))

/-- A rule whose edges all lead to rules that are done is done itself. -/
theorem Searching.pop {marks : Array Mark} {r : Nat} {stack : List (Nat × List Nat)}
    (h : Searching edges marks ((r, []) :: stack)) :
    Searching edges (marks.setIfInBounds r .done) stack := by
  have hedges := h.waiting.1
  have hsize : (marks.setIfInBounds r .done).size = marks.size := Array.size_setIfInBounds
  have hset : ∀ s < marks.size, r = s → (marks.setIfInBounds r .done)[s]? = some Mark.done := by
    rintro s hlt rfl
    rw [Array.getElem?_setIfInBounds, if_pos rfl, if_pos hlt]
  -- All edges of the rule have been followed, and each leads to a rule that is done.
  refine ⟨fun s hs => ?_, fun s hs => ?_, ?_⟩
  · rw [hsize]
    rw [Array.getElem?_setIfInBounds] at hs
    split at hs
    · next heq =>
      subst heq
      refine ⟨_, fun s hedge => ?_⟩
      obtain ⟨-, hlt, hmem⟩ := hedge
      rcases hedges s hmem hlt with hnil | hnone | hd
      · cases hnil
      · cases hnone
      · exact h.done s hd
    · exact h.done s hs
  · rw [Array.getElem?_setIfInBounds] at hs
    split at hs
    · split at hs <;> cases hs
    · next hne =>
      rcases List.mem_cons.1 (h.active s hs) with heq | hmem
      · exact absurd heq.symm hne
      · exact hmem
  · refine h.waiting.2.mono hsize (fun s hs => ?_) fun s hlt heq => ?_
    · rw [Array.getElem?_setIfInBounds]
      split
      · next heq =>
        obtain ⟨hlt, -⟩ := Array.getElem?_eq_some_iff.1 hs
        rw [heq, if_pos hlt]
      · exact hs
    · exact .inr (hset s hlt (Option.some.inj heq).symm)

/-- An edge that needs no search is dropped. -/
theorem Searching.drop {marks : Array Mark} {r target : Nat} {rest : List Nat}
    {stack : List (Nat × List Nat)} (h : Searching edges marks ((r, target :: rest) :: stack))
    (htarget : target < marks.size → marks[target]? = some Mark.done) :
    Searching edges marks ((r, rest) :: stack) := by
  refine ⟨h.done, h.active, fun s hs hlt => ?_, h.waiting.2⟩
  rcases h.waiting.1 s hs hlt with hrest | hnone | hd
  · rcases List.mem_cons.1 hrest with rfl | hrest
    · exact .inr (.inr (htarget hlt))
    · exact .inl hrest
  · cases hnone
  · exact .inr (.inr hd)

/-- An edge to a rule that nobody has looked at is followed. -/
theorem Searching.push {marks : Array Mark} {r target : Nat} {rest : List Nat}
    {stack : List (Nat × List Nat)} (h : Searching edges marks ((r, target :: rest) :: stack))
    (hlt : target < marks.size) (hfresh : marks[target] = .fresh) :
    Searching edges (marks.set target .active) ((target, edges target) :: (r, rest) :: stack) := by
  -- The target was not done, so that nothing that is done is marked anew.
  have hdone : ∀ s : Nat, marks[s]? = some Mark.done → (marks.set target .active)[s]? = some Mark.done := by
    intro s hs
    rw [Array.getElem?_set]
    split
    · next heq =>
      subst heq
      rw [Array.getElem?_eq_getElem hlt, hfresh] at hs
      cases hs
    · exact hs
  refine ⟨fun s hs => ?_, fun s hs => ?_, fun s hs _ => .inl hs, fun s hs hlt' => ?_,
    h.waiting.2.mono (Array.size_set _) hdone fun s _ heq => .inl heq⟩
  · rw [Array.size_set]
    rw [Array.getElem?_set] at hs
    split at hs
    · cases hs
    · exact h.done s hs
  · rw [Array.getElem?_set] at hs
    split at hs
    · next heq => exact heq ▸ List.mem_cons_self
    · exact List.mem_cons_of_mem _ (h.active s hs)
  · rw [Array.size_set] at hlt'
    rcases h.waiting.1 s hs hlt' with hrest | hnone | hd
    · rcases List.mem_cons.1 hrest with rfl | hrest
      · exact .inr (.inl rfl)
      · exact .inl hrest
    · cases hnone
    · exact .inr (.inr (hdone s hd))

theorem search_spec {marks marks' : Array Mark} {stack : List (Nat × List Nat)}
    (hs : Searching edges marks stack) (h : search edges marks stack = .ok marks') :
    Searching edges marks' [] ∧ marks'.size = marks.size ∧
      (∀ r : Nat, marks[r]? = some Mark.done → marks'[r]? = some Mark.done) ∧
      ∀ r ∈ stack.map Prod.fst, r < marks.size → marks'[r]? = some Mark.done := by
  -- By induction on the search, with the invariant for the marks and the stack at each step.
  fun_induction search edges marks stack with
  | case1 marks =>
    cases h
    exact ⟨hs, rfl, fun _ hr => hr, fun _ hr => nomatch hr⟩
  | case2 marks r stack ih =>
    obtain ⟨hend, hsize, hkeep, hstack⟩ := ih hs.pop h
    rw [Array.size_setIfInBounds] at hsize hstack
    have hset : ∀ s < marks.size, r = s ∨ marks[s]? = some Mark.done →
        (marks.setIfInBounds r .done)[s]? = some Mark.done := by
      intro s hlt hor
      rw [Array.getElem?_setIfInBounds]
      split
      · rw [if_pos (by omega)]
      · next hne => exact hor.resolve_left hne
    refine ⟨hend, hsize, fun s hd => ?_, fun s hmem hlt => ?_⟩
    · obtain ⟨hlt, -⟩ := Array.getElem?_eq_some_iff.1 hd
      exact hkeep s (hset s hlt (.inr hd))
    · rcases List.mem_cons.1 hmem with heq | hmem
      · exact hkeep s (hset s hlt (.inl heq.symm))
      · exact hstack s hmem hlt
  | case3 => cases h
  | case4 marks r target rest stack hlt hd ih =>
    exact ih (hs.drop fun _ => by rw [Array.getElem?_eq_getElem hlt, hd]) h
  | case5 marks r target rest stack hlt hfresh ih =>
    obtain ⟨hend, hsize, hkeep, hstack⟩ := ih (hs.push hlt hfresh) h
    rw [Array.size_set] at hsize hstack
    refine ⟨hend, hsize, fun s hd => hkeep s ?_, fun s hmem => hstack s (List.mem_cons_of_mem _ hmem)⟩
    rw [Array.getElem?_set]
    split
    · next heq =>
      subst heq
      rw [Array.getElem?_eq_getElem hlt, hfresh] at hd
      cases hd
    · exact hd
  | case6 marks r target rest stack hlt ih => exact ih (hs.drop fun h => absurd h hlt) h

/-! ## Ranks -/

/-- Edges without a cycle fall along a rank below the number of rules. -/
theorem exists_rank_of_acc {n : Nat} (h : ∀ r < n, Acc (Edge edges n) r) :
    ∃ rank : Nat → Nat, (∀ r < n, rank r < n) ∧
      ∀ r < n, ∀ s < n, s ∈ edges r → rank s < rank r := by
  classical
  have hirrefl : ∀ r, ¬ Relation.TransGen (Edge edges n) r r := by
    intro r hcycle
    have hr : r < n := by
      cases hcycle with
      | single hedge => exact hedge.1
      | tail _ hedge => exact hedge.1
    have hacc : Acc (Relation.TransGen (Edge edges n)) r := (h r hr).transGen
    induction hacc with
    | intro r _ ih => exact ih r hcycle hcycle hr
  -- The rank of a rule is the number of rules that can be reached from it.
  let below (r : Nat) : Finset Nat :=
    (Finset.range n).filter fun s => Relation.TransGen (Edge edges n) s r
  refine ⟨fun r => (below r).card, fun r hr => ?_, fun r hr s hs hedge => ?_⟩
  · have hsub : below r ⊂ Finset.range n := by
      refine (Finset.filter_subset _ _).ssubset_of_ne fun heq => hirrefl r ?_
      have hmem : r ∈ below r := (Finset.ext_iff.1 heq r).2 (Finset.mem_range.2 hr)
      exact (Finset.mem_filter.1 hmem).2
    have hlt := Finset.card_lt_card hsub
    rwa [Finset.card_range] at hlt
  · have hstep : Relation.TransGen (Edge edges n) s r := .single ⟨hr, hs, hedge⟩
    have hsub : below s ⊂ below r := by
      refine Finset.ssubset_iff_subset_ne.2 ⟨fun t ht => ?_, fun heq => hirrefl s ?_⟩
      · rw [Finset.mem_filter] at ht ⊢
        exact ⟨ht.1, ht.2.trans hstep⟩
      · have hmem : s ∈ below s :=
          (Finset.ext_iff.1 heq s).2 (Finset.mem_filter.2 ⟨Finset.mem_range.2 hs, hstep⟩)
        exact (Finset.mem_filter.1 hmem).2
    exact Finset.card_lt_card hsub

end Search

/-! ## All rules -/

/-- Searches from a rule, unless it has been looked at. -/
def visit (edges : Nat → List Nat) (marks : Array Mark) (root : Nat) : Except Nat (Array Mark) :=
  if marks.getD root .done == .fresh then
    search edges (marks.setIfInBounds root .active) [(root, edges root)]
  else .ok marks

theorem Searching.root {edges : Nat → List Nat} {marks : Array Mark}
    (hs : Searching edges marks []) (root : Nat) :
    Searching edges (marks.setIfInBounds root .active) [(root, edges root)] := by
  refine ⟨fun s hd => ?_, fun s ha => ?_, fun s hs _ => .inl hs, trivial⟩
  · rw [Array.size_setIfInBounds]
    rw [Array.getElem?_setIfInBounds] at hd
    split at hd
    · split at hd <;> cases hd
    · exact hs.done s hd
  · rw [Array.getElem?_setIfInBounds] at ha
    split at ha
    · next heq => exact heq ▸ List.mem_cons_self
    · exact nomatch hs.active s ha

theorem visit_spec {edges : Nat → List Nat} {marks marks' : Array Mark} {root : Nat}
    (hs : Searching edges marks []) (hroot : root < marks.size)
    (h : visit edges marks root = .ok marks') :
    Searching edges marks' [] ∧ marks'.size = marks.size ∧
      (∀ r : Nat, marks[r]? = some Mark.done → marks'[r]? = some Mark.done) ∧
      marks'[root]? = some Mark.done := by
  have hget : marks[root]? = some marks[root] := Array.getElem?_eq_getElem hroot
  rw [visit, Array.getD_eq_getD_getElem?, hget, Option.getD_some] at h
  cases hmark : marks[root] with
  | fresh =>
    rw [hmark] at h hget
    obtain ⟨hend, hsize, hkeep, hstack⟩ := search_spec (hs.root root) h
    rw [Array.size_setIfInBounds] at hsize hstack
    refine ⟨hend, hsize, fun r hd => hkeep r ?_, hstack root List.mem_cons_self hroot⟩
    rw [Array.getElem?_setIfInBounds]
    split
    · next heq =>
      subst heq
      rw [hget] at hd
      cases hd
    · exact hd
  | active =>
    rw [hmark] at hget
    exact nomatch hs.active root hget
  | done =>
    rw [hmark] at h hget
    cases h
    exact ⟨hs, rfl, fun _ hd => hd, hget⟩

theorem foldlM_visit_spec {edges : Nat → List Nat} {marks marks' : Array Mark} {roots : List Nat}
    (hs : Searching edges marks []) (hroots : ∀ r ∈ roots, r < marks.size)
    (h : roots.foldlM (visit edges) marks = .ok marks') :
    Searching edges marks' [] ∧ marks'.size = marks.size ∧
      (∀ r : Nat, marks[r]? = some Mark.done → marks'[r]? = some Mark.done) ∧
      ∀ r ∈ roots, marks'[r]? = some Mark.done := by
  induction roots generalizing marks with
  | nil =>
    cases h
    exact ⟨hs, rfl, fun _ hd => hd, fun _ hr => nomatch hr⟩
  | cons root roots ih =>
    rw [List.foldlM_cons] at h
    cases hv : visit edges marks root with
    | error r => rw [hv] at h; cases h
    | ok marks₁ =>
      rw [hv] at h
      obtain ⟨hs₁, hsize₁, hkeep₁, hroot⟩ := visit_spec hs (hroots root List.mem_cons_self) hv
      obtain ⟨hend, hsize, hkeep, hdone⟩ :=
        ih hs₁ (fun r hr => hsize₁ ▸ hroots r (List.mem_cons_of_mem _ hr)) h
      refine ⟨hend, hsize.trans hsize₁, fun r hd => hkeep r (hkeep₁ r hd), fun r hr => ?_⟩
      rcases List.mem_cons.1 hr with rfl | hr
      · exact hkeep r hroot
      · exact hdone r hr

theorem searching_start (rules : Rules) (nullable : Array Bool) :
    Searching (leftEdges rules nullable) (Array.replicate rules.size .fresh) [] := by
  refine ⟨fun r hd => ?_, fun r ha => ?_, trivial⟩
  · rw [Array.getElem?_replicate] at hd
    split at hd <;> cases hd
  · rw [Array.getElem?_replicate] at ha
    split at ha <;> cases ha

/-- What comes of the search from all rules. -/
theorem leftRecursive?_eq (rules : Rules) (nullable : Array Bool) :
    leftRecursive? rules nullable =
      match (List.range rules.size).foldlM (visit (leftEdges rules nullable))
        (Array.replicate rules.size .fresh) with
      | .ok _ => none
      | .error r => some r := rfl

/-- Rules of which none begins with itself can be ranked so that the rank falls from a rule to the
rules that it can begin with. -/
theorem exists_rank {rules : Rules} {nullable : Array Bool}
    (h : leftRecursive? rules nullable = none) :
    ∃ rank : Nat → Nat, (∀ r < rules.size, rank r < rules.size) ∧
      ∀ r < rules.size, ∀ s < rules.size, s ∈ leftEdges rules nullable r → rank s < rank r := by
  have hsize : (Array.replicate rules.size Mark.fresh).size = rules.size := Array.size_replicate
  have hstart := searching_start rules nullable
  rw [leftRecursive?_eq] at h
  cases hfold : (List.range rules.size).foldlM (visit (leftEdges rules nullable))
      (Array.replicate rules.size .fresh) with
  | error r =>
    rw [hfold] at h
    cases h
  | ok marks =>
    obtain ⟨hend, hsize', -, hdone⟩ := foldlM_visit_spec hstart
      (fun r hr => by rw [hsize]; exact List.mem_range.1 hr) hfold
    rw [hsize] at hsize'
    refine exists_rank_of_acc fun r hr => ?_
    have hacc := hend.done r (hdone r (List.mem_range.2 hr))
    rwa [hsize'] at hacc

/-! ## Cycles -/

section Cycles

variable {edges : Nat → List Nat} {marks : Array Mark} {stack : List (Nat × List Nat)}
  {r s target : Nat} {rest : List Nat}

/-- Each entry of a stack is there for an edge of the entry below, and what it has left to be
followed are edges of its own. -/
def Trail (edges : Nat → List Nat) : List (Nat × List Nat) → Prop
  | [] => True
  | (r, rest) :: stack =>
    rest ⊆ edges r ∧ (∀ below ∈ stack.head?, r ∈ edges below.1) ∧ Trail edges stack

theorem Trail.drop (h : Trail edges ((r, target :: rest) :: stack)) :
    Trail edges ((r, rest) :: stack) :=
  ⟨(List.cons_subset.1 h.1).2, h.2⟩

theorem Trail.push (h : Trail edges ((r, target :: rest) :: stack)) :
    Trail edges ((target, edges target) :: (r, rest) :: stack) := by
  refine ⟨List.Subset.refl _, fun below hbelow => ?_, h.drop⟩
  cases hbelow
  exact (List.cons_subset.1 h.1).1

/-- From every entry edges lead to the one on top. -/
theorem Trail.reaches (h : Trail edges ((r, rest) :: stack))
    (hs : s ∈ ((r, rest) :: stack).map Prod.fst) :
    Relation.ReflTransGen (fun r s => s ∈ edges r) s r := by
  induction stack generalizing r rest with
  | nil => exact List.mem_singleton.1 hs ▸ .refl
  | cons below stack ih =>
    rcases List.mem_cons.1 hs with rfl | hs
    · exact .refl
    · exact (ih h.2.2 hs).tail (h.2.1 below rfl)

/-- A search that fails has come back to a rule along edges. -/
theorem search_error (hs : Searching edges marks stack) (ht : Trail edges stack)
    (h : search edges marks stack = .error target) :
    Relation.TransGen (fun r s => s ∈ edges r) target target := by
  fun_induction search edges marks stack with
  | case1 marks => cases h
  | case2 marks r stack ih => exact ih hs.pop ht.2.2 h
  | case3 marks r target' rest stack hlt hactive =>
    cases h
    -- An active rule is on the stack, and from there the search has come to the edge.
    have hmem := hs.active target (by rw [Array.getElem?_eq_getElem hlt, hactive])
    exact .tail' (ht.reaches hmem) (ht.1 List.mem_cons_self)
  | case4 marks r target' rest stack hlt hd ih =>
    exact ih (hs.drop fun _ => by rw [Array.getElem?_eq_getElem hlt, hd]) ht.drop h
  | case5 marks r target' rest stack hlt hfresh ih => exact ih (hs.push hlt hfresh) ht.push h
  | case6 marks r target' rest stack hlt ih => exact ih (hs.drop fun h => absurd h hlt) ht.drop h

theorem foldlM_visit_error {roots : List Nat} (hs : Searching edges marks [])
    (hroots : ∀ r ∈ roots, r < marks.size)
    (h : roots.foldlM (visit edges) marks = .error target) :
    Relation.TransGen (fun r s => s ∈ edges r) target target := by
  induction roots generalizing marks with
  | nil => cases h
  | cons root roots ih =>
    rw [List.foldlM_cons] at h
    cases hv : visit edges marks root with
    | error r =>
      rw [hv] at h
      cases h
      rw [visit] at hv
      split at hv
      · exact search_error (hs.root root) ⟨List.Subset.refl _, nofun, trivial⟩ hv
      · cases hv
    | ok marks₁ =>
      rw [hv] at h
      obtain ⟨hs₁, hsize₁, -⟩ := visit_spec hs (hroots root List.mem_cons_self) hv
      exact ih hs₁ (fun r hr => hsize₁ ▸ hroots r (List.mem_cons_of_mem root hr)) h

/-- A rule that is found can begin with itself. -/
theorem cycle_of_leftRecursive? {rules : Rules} {nullable : Array Bool}
    (h : leftRecursive? rules nullable = some r) :
    Relation.TransGen (fun r s => s ∈ leftEdges rules nullable r) r r := by
  rw [leftRecursive?_eq] at h
  cases hfold : (List.range rules.size).foldlM (visit (leftEdges rules nullable))
      (Array.replicate rules.size .fresh) with
  | ok marks =>
    rw [hfold] at h
    cases h
  | error target =>
    rw [hfold] at h
    cases h
    refine foldlM_visit_error (searching_start rules nullable) (fun r hr => ?_) hfold
    rw [Array.size_replicate]
    exact List.mem_range.1 hr

/-- Where the rank falls along every edge, edges do not lead back. -/
theorem not_cycle_of_rank {rank : Nat → Nat} (hrank : ∀ r, ∀ s ∈ edges r, rank s < rank r) :
    ¬ Relation.TransGen (fun r s => s ∈ edges r) r r := by
  have hfalls : ∀ {a b}, Relation.TransGen (fun r s => s ∈ edges r) a b → rank b < rank a := by
    intro a b h
    induction h with
    | single hedge => exact hrank _ _ hedge
    | tail _ hedge ih => exact Nat.lt_trans (hrank _ _ hedge) ih
  exact fun h => Nat.lt_irrefl _ (hfalls h)

theorem leftEdges_of_size_le {rules : Rules} {r : Nat} (nullable : Array Bool)
    (h : rules.size ≤ r) : leftEdges rules nullable r = [] := by
  rw [leftEdges, Array.getElem?_eq_none h]
  rfl

/-- Ranked rules do not begin with themselves. -/
theorem leftRecursive?_eq_none {rules : Rules} {nullable : Array Bool} {rank : Nat → Nat}
    (hrank : ∀ r, ∀ s ∈ leftEdges rules nullable r, rank s < rank r) :
    leftRecursive? rules nullable = none := by
  cases hfound : leftRecursive? rules nullable with
  | none => rfl
  | some r => exact absurd (cycle_of_leftRecursive? hfound) (not_cycle_of_rank hrank)

end Cycles

end Analysis

end FrontEnd
