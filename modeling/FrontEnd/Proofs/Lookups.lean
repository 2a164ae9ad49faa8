import Mathlib.Data.List.Basic
import Mathlib.Data.PFun

/-!
# Functions whose lookups can fail

Next to a function that falls back on something where an index is out of range, a second one can be
written that gives no result there. They are shown to agree part by part, and loops from what is
done in one round.

- `put?`: a value in place of another one;
- `getElem?_eq_some_getD`: a value that is there;
- `foldlM_eq_some`: a loop that keeps what each of its rounds needs;
- `mapM_eq_some`, `anyM_eq_some`, `allM_eq_some`, `findSomeM?_eq_some`: loops without a state;
- `loop?`: a loop that ends where its step says so.
-/

namespace FrontEnd

variable {α β : Type} {xs : List α}

/-- Puts a value in the place of one that is there. -/
def put? (xs : Array α) (i : Nat) (x : α) : Option (Array α) :=
  if i < xs.size then some (xs.setIfInBounds i x) else none

theorem put?_eq {xs : Array α} {i : Nat} (h : i < xs.size) (x : α) :
    put? xs i x = some (xs.setIfInBounds i x) := if_pos h

theorem getElem?_eq_some_getD {xs : Array α} {i : Nat} (h : i < xs.size) (d : α) :
    xs[i]? = some (xs.getD i d) := by
  rw [Array.getD_eq_getD_getElem?, Array.getElem?_eq_getElem h, Option.getD_some]

/-- Where no round fails, the loop does what it does without checks. -/
theorem foldlM_eq_some {f : β → α → Option β} {g : β → α → β} (P : β → Prop)
    (h : ∀ s, P s → ∀ x ∈ xs, f s x = some (g s x) ∧ P (g s x)) {s : β} (hs : P s) :
    xs.foldlM f s = some (xs.foldl g s) ∧ P (xs.foldl g s) := by
  induction xs generalizing s with
  | nil => exact ⟨rfl, hs⟩
  | cons x xs ih =>
    obtain ⟨hx, hnext⟩ := h s hs x List.mem_cons_self
    rw [List.foldlM_cons, hx, List.foldl_cons]
    exact ih (fun s hs y hy => h s hs y (List.mem_cons_of_mem _ hy)) hnext

theorem mapM_eq_some {f : α → Option β} {g : α → β} (h : ∀ x ∈ xs, f x = some (g x)) :
    xs.mapM f = some (xs.map g) := by
  induction xs with
  | nil => rfl
  | cons x xs ih =>
    obtain ⟨hx, hxs⟩ := List.forall_mem_cons.1 h
    rw [List.mapM_cons, hx, ih hxs]
    rfl

theorem anyM_eq_some {f : α → Option Bool} {g : α → Bool} (h : ∀ x ∈ xs, f x = some (g x)) :
    xs.anyM f = some (xs.any g) := by
  induction xs with
  | nil => rfl
  | cons x xs ih =>
    obtain ⟨hx, hxs⟩ := List.forall_mem_cons.1 h
    rw [List.anyM, hx, List.any_cons]
    cases hg : g x with
    | true => rfl
    | false => exact ih hxs

theorem allM_eq_some {f : α → Option Bool} {g : α → Bool} (h : ∀ x ∈ xs, f x = some (g x)) :
    xs.allM f = some (xs.all g) := by
  induction xs with
  | nil => rfl
  | cons x xs ih =>
    obtain ⟨hx, hxs⟩ := List.forall_mem_cons.1 h
    rw [List.allM, hx, List.all_cons]
    cases hg : g x with
    | true => exact ih hxs
    | false => rfl

theorem findSomeM?_eq_some {f : α → Option (Option β)} {g : α → Option β}
    (h : ∀ x ∈ xs, f x = some (g x)) : xs.findSomeM? f = some (xs.findSome? g) := by
  induction xs with
  | nil => rfl
  | cons x xs ih =>
    obtain ⟨hx, hxs⟩ := List.forall_mem_cons.1 h
    rw [List.findSomeM?, hx, List.findSome?_cons]
    cases hg : g x with
    | some y => rfl
    | none => exact ih hxs

/-- One round of a loop: it goes on from what the step gives, or ends there. -/
def loopRound (step : α → Option (α × Bool)) : α →. α ⊕ α := fun x =>
  Part.ofOption ((step x).map fun next => if next.2 then .inr next.1 else .inl next.1)

theorem mem_loopRound {step : α → Option (α × Bool)} {x y : α} {more : Bool}
    (h : step x = some (y, more)) : (if more then .inr y else .inl y) ∈ loopRound step x :=
  Part.mem_ofOption.2 (by rw [h]; rfl)

open scoped Classical in
/-- Repeats a step as long as it says that there is more to do. There is no result if a step has
none, and none if there is always more to do. -/
noncomputable def loop? (step : α → Option (α × Bool)) (x : α) : Option α :=
  ((loopRound step).fix x).toOption

theorem loop?_eq_some_iff {step : α → Option (α × Bool)} {x y : α} :
    loop? step x = some y ↔ y ∈ (loopRound step).fix x := by
  classical exact Part.toOption_eq_some_iff

theorem loop?_more {step : α → Option (α × Bool)} {x y : α} (h : step x = some (y, true)) :
    loop? step x = loop? step y :=
  Option.ext fun z => by
    rw [loop?_eq_some_iff, loop?_eq_some_iff, PFun.fix_fwd_eq (mem_loopRound h)]

theorem loop?_done {step : α → Option (α × Bool)} {x y : α} (h : step x = some (y, false)) :
    loop? step x = some y :=
  loop?_eq_some_iff.2 (PFun.fix_stop (mem_loopRound h))

end FrontEnd
