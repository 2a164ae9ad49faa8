import FrontEnd.Proofs.Pattern.Matching
import Mathlib.Algebra.GroupWithZero.Nat

/-!
# Using a workspace again

A workspace goes from one match to the next, and only the stamp tells the marks of this match from
older ones. What a match finds and how far it looks is therefore the same in every workspace with
stamps enough. The stamp itself is looked at once before a match and grows with every character of
it, so that **a match can run out of stamps**.

- `Workspace.Alike`: two workspaces in which the same states are marked;
- `Automaton.scan_alike`: alike workspaces stay alike, and the same is found in them;
- `Automaton.looked`: the number of characters that a match looks at;
- `Workspace.Lasts`: there are stamps enough for some matches, one after the other;
- `Workspace.stampBehind`, `Workspace.Dated.lasts_iff`: what this means in numbers;
- `Automaton.longestMatch_reused`: the same match in every workspace, if there are stamps enough;
- `Workspace.overflow_behind_short_texts`: short texts are enough to run out of them.
-/

namespace FrontEnd

namespace Workspace

/-- In both workspaces there is room for `n` states, and the same ones of them are marked. -/
structure Alike (n : Nat) (w w' : Workspace) : Prop where
  room : n ≤ w.marks.size
  room' : n ≤ w'.marks.size
  dated : w.Dated
  dated' : w'.Dated
  marked : ∀ s, s < n → (w.Marked s ↔ w'.Marked s)

variable {n s : Nat} {w w' : Workspace}

theorem Alike.mark (h : Alike n w w') (hs : s < w.marks.size) (hs' : s < w'.marks.size) :
    Alike n (w.mark s hs) (w'.mark s hs') where
  room := by rw [Workspace.mark, Array.size_set]; exact h.room
  room' := by rw [Workspace.mark, Array.size_set]; exact h.room'
  dated := h.dated.mark hs
  dated' := h.dated'.mark hs'
  marked t ht := by rw [marked_mark, marked_mark, h.marked t ht]

/-- Without marks any two workspaces are alike. -/
theorem Clear.alike (hw : w.Clear) (hw' : w'.Clear) (hroom : n ≤ w.marks.size)
    (hroom' : n ≤ w'.marks.size) : Alike n w w' :=
  ⟨hroom, hroom', hw.dated, hw'.dated, fun _ _ => iff_of_false hw.not_marked hw'.not_marked⟩

theorem Alike.fresh (h : Alike n w w') (hw : w.Unspent) (hw' : w'.Unspent) :
    Alike n w.fresh w'.fresh :=
  (h.dated.fresh hw).alike (h.dated'.fresh hw') h.room h.room'

theorem Dated.alike_reset (hw : w.Dated) (hw' : w'.Dated) (n : Nat) :
    Alike n (w.reset n) (w'.reset n) :=
  (hw.reset n).alike (hw'.reset n) (w.le_size_reset n) (w'.le_size_reset n)

theorem not_marked_iff (hs : s < w.marks.size) :
    ¬ w.Marked s ↔ (w.marks[s] != w.stamp) = true := by
  rw [Marked, Array.getElem?_eq_getElem hs]
  simp

end Workspace

namespace Automaton

variable {a : Automaton} {w w' : Workspace} {found live : Array Nat} {stack : List Nat}
  {s l r : Nat} {c : Char} {text rest : List Char}

/-! ## One state of the stack -/

/-- A state that is marked or does not exist is passed over. -/
theorem closure_drop (h : a.states[s]? = none ∨ w.Marked s) (found : Array Nat)
    (stack : List Nat) : a.closure w found (s :: stack) = a.closure w found stack := by
  rw [closure]
  split
  · next hs =>
    split
    · next hmark =>
      have hnone := h.resolve_right ((Workspace.not_marked_iff hs).2 hmark)
      rw [hnone]
    · rfl
  · rfl

theorem closure_fork (hs : s < w.marks.size) (hmark : ¬ w.Marked s)
    (hstate : a.states[s]? = some (.fork l r)) :
    a.closure w found (s :: stack) = a.closure (w.mark s hs) found (l :: r :: stack) := by
  rw [closure, dif_pos hs, dif_pos ((Workspace.not_marked_iff hs).1 hmark), hstate]

theorem closure_find {state : AutomatonState} (hs : s < w.marks.size) (hmark : ¬ w.Marked s)
    (hstate : a.states[s]? = some state) (hother : ∀ l r, state ≠ .fork l r) :
    a.closure w found (s :: stack) = a.closure (w.mark s hs) (found.push s) stack := by
  rw [closure, dif_pos hs, dif_pos ((Workspace.not_marked_iff hs).1 hmark), hstate]
  cases state with
  | fork l r => exact absurd rfl (hother l r)
  | accept | read => rfl

/-! ## Alike workspaces -/

theorem closure_alike (h : w.Alike a.states.size w') (found : Array Nat) (stack : List Nat) :
    (a.closure w found stack).1.Alike a.states.size (a.closure w' found stack).1 ∧
      (a.closure w found stack).2 = (a.closure w' found stack).2 := by
  -- A state that exists has room in both workspaces and is marked in both or in none.
  have hthere : ∀ {w w' : Workspace} {s : Nat} {state}, w.Alike a.states.size w' →
      a.states[s]? = some state → s < w'.marks.size ∧ (w.Marked s ↔ w'.Marked s) := by
    intro w w' s state h hstate
    have hs := (Array.getElem?_eq_some_iff.1 hstate).1
    exact ⟨Nat.lt_of_lt_of_le hs h.room', h.marked s hs⟩
  fun_induction closure a w found stack generalizing w' with
  | case1 w found => exact ⟨by rw [closure]; exact h, by rw [closure]⟩
  | case2 w found s stack hs hmark l r hstate ih =>
    obtain ⟨hs', hiff⟩ := hthere h hstate
    have hmark' := hiff.not.1 ((Workspace.not_marked_iff hs).2 hmark)
    rw [closure_fork hs' hmark' hstate]
    exact ih (h.mark hs hs')
  | case3 w found s stack hs hmark state hother hstate ih =>
    obtain ⟨hs', hiff⟩ := hthere h hstate
    have hmark' := hiff.not.1 ((Workspace.not_marked_iff hs).2 hmark)
    rw [closure_find hs' hmark' hstate hother]
    exact ih (h.mark hs hs')
  | case4 w found s stack hs hmark hstate ih =>
    rw [closure_drop (.inl hstate)]
    exact ih h
  | case5 w found s stack hs hmark ih =>
    have hmarked : w.Marked s := by_contra fun hnot => hmark ((Workspace.not_marked_iff hs).1 hnot)
    cases hstate : a.states[s]? with
    | none =>
      rw [closure_drop (.inl hstate)]
      exact ih h
    | some state =>
      rw [closure_drop (.inr ((hthere h hstate).2.1 hmarked))]
      exact ih h
  | case6 w found s stack hs ih =>
    have hnone : a.states[s]? = none :=
      Array.getElem?_eq_none (h.room.trans (Nat.le_of_not_lt hs))
    rw [closure_drop (.inl hnone)]
    exact ih h

theorem follow_alike (h : w.Alike a.states.size w') (c : Char) (found : Array Nat) (s : Nat) :
    (a.follow c (w, found) s).1.Alike a.states.size (a.follow c (w', found) s).1 ∧
      (a.follow c (w, found) s).2 = (a.follow c (w', found) s).2 := by
  unfold follow
  split
  · split
    · exact closure_alike h found _
    · exact ⟨h, rfl⟩
  · exact ⟨h, rfl⟩

theorem foldl_follow_alike (h : w.Alike a.states.size w') (c : Char) (found : Array Nat)
    (states : List Nat) :
    (states.foldl (a.follow c) (w, found)).1.Alike a.states.size
        (states.foldl (a.follow c) (w', found)).1 ∧
      (states.foldl (a.follow c) (w, found)).2 = (states.foldl (a.follow c) (w', found)).2 := by
  induction states generalizing w w' found with
  | nil => exact ⟨h, rfl⟩
  | cons s states ih =>
    obtain ⟨halike, hfound⟩ := follow_alike h c found s
    have hrest := ih halike (a.follow c (w, found) s).2
    rw [List.foldl_cons, List.foldl_cons]
    rwa [show a.follow c (w', found) s = ((a.follow c (w', found) s).1, (a.follow c (w, found) s).2)
      from Prod.ext rfl hfound.symm]

theorem advance_alike (h : w.Alike a.states.size w') (hw : w.Unspent) (hw' : w'.Unspent) (c : Char)
    (live : Array Nat) :
    (a.advance c w live).1.Alike a.states.size (a.advance c w' live).1 ∧
      (a.advance c w live).2 = (a.advance c w' live).2 := by
  rw [advance, advance, ← Array.foldl_toList, ← Array.foldl_toList]
  exact foldl_follow_alike (h.fresh hw hw') c #[] live.toList

/-! ## How far a match looks -/

/-- How many characters a match looks at. -/
def looked (a : Automaton) (text : List Char) : Nat :=
  a.looks (a.initial .empty).1 (a.initial .empty).2 text

/-- The same is found in alike workspaces, if both have stamps enough for what one of them looks
at. -/
theorem scan_alike (h : w.Alike a.states.size w') (live : Array Nat) (size : Nat)
    (longest : Option Nat) (text : List Char) (hlasts : a.Lasts w live text)
    (hlasts' : w'.stamp.toNat + a.looks w live text ≤ Workspace.counterMax) :
    (a.scan w live size longest text).1 = (a.scan w' live size longest text).1 ∧
      a.looks w live text = a.looks w' live text ∧
      (a.scan w live size longest text).2.Dated := by
  induction text generalizing w w' live size longest with
  | nil => exact ⟨rfl, rfl, h.dated⟩
  | cons c rest ih =>
    obtain ⟨hunspent, hrest⟩ := hlasts.of_cons
    simp only [looks] at hlasts'
    have hunspent' : w'.Unspent := by
      unfold Workspace.Unspent
      split at hlasts' <;> omega
    obtain ⟨halike, hlive⟩ := advance_alike h hunspent hunspent' c live
    simp only [scan, looks, ← hlive]
    split
    · exact ⟨rfl, rfl, halike.dated⟩
    · next hsome =>
      rw [if_neg hsome] at hlasts'
      have hlater : (a.advance c w' live).1.stamp.toNat
          + a.looks (a.advance c w live).1 (a.advance c w live).2 rest ≤ Workspace.counterMax := by
        rw [stamp_advance, hunspent'.toNat_add_one]
        omega
      obtain ⟨hscan, hlooks, hdated⟩ := ih halike (a.advance c w live).2 (size + c.utf8Size)
        (if accepts (a.advance c w live).2 then some (size + c.utf8Size) else longest)
        (hrest hsome) hlater
      exact ⟨hscan, congrArg (· + 1) hlooks, hdated⟩

theorem toNat_stamp_scan (a : Automaton) (w : Workspace) (live : Array Nat) (size : Nat)
    (longest : Option Nat) (text : List Char) (hlasts : a.Lasts w live text) :
    (a.scan w live size longest text).2.stamp.toNat = w.stamp.toNat + a.looks w live text := by
  induction text generalizing w live size longest with
  | nil => rfl
  | cons c rest ih =>
    obtain ⟨hunspent, hrest⟩ := hlasts.of_cons
    have hstamp : (a.advance c w live).1.stamp.toNat = w.stamp.toNat + 1 := by
      rw [stamp_advance, hunspent.toNat_add_one]
    simp only [scan, looks]
    split
    · exact hstamp
    · next hsome =>
      rw [ih _ _ _ _ (hrest hsome), hstamp]
      omega

theorem longestMatch_eq (a : Automaton) (w : Workspace) (text : List Char) :
    a.longestMatch w text = a.scan (a.initial w).1 (a.initial w).2 0
      (if accepts (a.initial w).2 then some 0 else none) text := rfl

/-- Whatever two workspaces were used for, the same is found in them. -/
theorem longestMatch_alike (hw : w.Dated) (hw' : w'.Dated) (hfits : a.Fits w text)
    (hfits' : (a.initial w').1.stamp.toNat + a.looks (a.initial w).1 (a.initial w).2 text
      ≤ Workspace.counterMax) :
    (a.longestMatch w text).1 = (a.longestMatch w' text).1 ∧
      a.looks (a.initial w).1 (a.initial w).2 text
        = a.looks (a.initial w').1 (a.initial w').2 text ∧
      (a.longestMatch w text).2.Dated := by
  obtain ⟨halike, hlive⟩ := closure_alike (hw.alike_reset hw' a.states.size) #[] [a.start]
  have hsame : (a.initial w').2 = (a.initial w).2 := hlive.symm
  rw [longestMatch_eq, longestMatch_eq, hsame]
  exact scan_alike halike (a.initial w).2 0 _ text hfits hfits'

/-- A first part of an accepted text is looked at to its end. -/
theorem looks_of_anyAccepts {v : List Char} (h : a.Live w live)
    (hroom : w.stamp.toNat + text.length ≤ Workspace.counterMax)
    (hany : a.AnyAccepts live.toList (text ++ v)) : a.looks w live text = text.length := by
  induction text generalizing w live with
  | nil => rfl
  | cons c rest ih =>
    rw [List.length_cons] at hroom
    have hunspent : w.Unspent := by
      unfold Workspace.Unspent
      omega
    obtain ⟨hlive, hbehind⟩ := live_advance h hunspent c
    have hrest := (hbehind (rest ++ v)).2 hany
    have hsome : ¬ (a.advance c w live).2.isEmpty = true := by
      intro hempty
      obtain ⟨s, hs, -⟩ := hrest
      rw [Array.isEmpty_iff.1 hempty] at hs
      cases hs
    simp only [looks]
    rw [if_neg hsome, ih hlive ?_ hrest, List.length_cons]
    rw [stamp_advance, hunspent.toNat_add_one]
    omega

/-- A first part of an accepted text is looked at to its end, if it is not too long. -/
theorem looked_of_accepts {v : List Char} (hlength : text.length < Workspace.counterMax)
    (h : a.Accepts (text ++ v)) : a.looked text = text.length := by
  obtain ⟨hlive, hany⟩ := live_initial a Workspace.dated_empty
  refine looks_of_anyAccepts hlive ?_ ((hany _).2 h)
  rw [toNat_initial]
  exact (Nat.add_comm ..).trans_le hlength

end Automaton

/-! ## Matches one after the other -/

namespace Workspace

/-- The stamp behind a match that looks at so many characters: the match itself takes one stamp,
the first one if the stamps have come to their end, and every character takes another. -/
def stampBehind (stamp looked : Nat) : Nat :=
  (if stampLimit.toNat ≤ stamp then 1 else stamp + 1) + looked

/-- What has become of a workspace after matching texts with automata. -/
def after (w : Workspace) (jobs : List (Automaton × List Char)) : Workspace :=
  jobs.foldl (fun w job => (job.1.longestMatch w job.2).2) w

/-- There are stamps enough for all of the matches. -/
def Lasts (w : Workspace) : List (Automaton × List Char) → Prop
  | [] => True
  | job :: jobs => job.1.Fits w job.2 ∧ (job.1.longestMatch w job.2).2.Lasts jobs

variable {w : Workspace} {a : Automaton} {text : List Char}
  {jobs jobs' : List (Automaton × List Char)}

theorem lasts_append : w.Lasts (jobs ++ jobs') ↔ w.Lasts jobs ∧ (w.after jobs).Lasts jobs' := by
  induction jobs generalizing w with
  | nil => exact (and_iff_right trivial).symm
  | cons job jobs ih =>
    rw [List.cons_append, Lasts, Lasts, ih, and_assoc]
    rfl

theorem toNat_initial_pos (a : Automaton) (w : Workspace) :
    (a.initial .empty).1.stamp.toNat ≤ (a.initial w).1.stamp.toNat := by
  rw [Automaton.toNat_initial, Automaton.toNat_initial a w]
  split <;> split <;> simp [empty]

/-- What there are stamps enough for in a workspace, there are in a new one; and there both matches
look equally far. -/
theorem Dated.looks_eq (hw : w.Dated) (hfits : a.Fits w text) :
    (a.longestMatch w text).1 = (a.longestMatch .empty text).1 ∧
      a.looks (a.initial w).1 (a.initial w).2 text = a.looked text ∧
      (a.longestMatch w text).2.Dated :=
  Automaton.longestMatch_alike hw dated_empty hfits
    ((Nat.add_le_add_right (toNat_initial_pos a w) _).trans hfits)

/-- There are stamps enough for a match if the stamp behind it, as a number, is one of 32 bits. -/
theorem Dated.fits_iff (hw : w.Dated) :
    a.Fits w text ↔ stampBehind w.stamp.toNat (a.looked text) ≤ counterMax := by
  rw [stampBehind, ← Automaton.toNat_initial a w]
  constructor
  · intro hfits
    rw [← (hw.looks_eq hfits).2.1]
    exact hfits
  · intro hle
    have hfits : a.Fits .empty text := (Nat.add_le_add_right (toNat_initial_pos a w) _).trans hle
    have hlooks := (Automaton.longestMatch_alike dated_empty hw hfits hle).2.1
    rw [Automaton.looked, hlooks] at hle
    exact hle

theorem Dated.stamp_longestMatch (hw : w.Dated) (hfits : a.Fits w text) :
    (a.longestMatch w text).2.stamp.toNat = stampBehind w.stamp.toNat (a.looked text) := by
  rw [Automaton.longestMatch_eq, Automaton.toNat_stamp_scan a _ _ _ _ text hfits,
    Automaton.toNat_initial, (hw.looks_eq hfits).2.1]
  rfl

theorem Dated.after (hw : w.Dated) (hlasts : w.Lasts jobs) : (w.after jobs).Dated := by
  induction jobs generalizing w with
  | nil => exact hw
  | cons job jobs ih => exact ih (hw.looks_eq hlasts.1).2.2 hlasts.2

/-- There are stamps enough for some matches if the stamps behind them, as numbers, are all of 32
bits; and these depend on how far the matches look, and on nothing else. -/
theorem Dated.lasts_iff (hw : w.Dated) : w.Lasts jobs ↔
    ∀ counts, counts <+: jobs.map (fun job => job.1.looked job.2) →
      counts.foldl stampBehind w.stamp.toNat ≤ counterMax := by
  induction jobs generalizing w with
  | nil =>
    refine iff_of_true trivial fun counts hcounts => ?_
    rw [List.prefix_nil.1 hcounts]
    exact Nat.le_of_lt_succ w.stamp.toNat_lt
  | cons job jobs ih =>
    rw [List.map_cons]
    constructor
    · rintro ⟨hfits, hlater⟩ counts hcounts
      obtain ⟨-, -, hdated⟩ := hw.looks_eq hfits
      rcases List.prefix_cons_iff.1 hcounts with rfl | ⟨counts, rfl, hrest⟩
      · exact Nat.le_of_lt_succ w.stamp.toNat_lt
      · rw [List.foldl_cons, ← hw.stamp_longestMatch hfits]
        exact (ih hdated).1 hlater counts hrest
    · intro hall
      have hfits : job.1.Fits w job.2 := hw.fits_iff.2 (hall [_] (by simp))
      obtain ⟨-, -, hdated⟩ := hw.looks_eq hfits
      refine ⟨hfits, (ih hdated).2 fun counts hcounts => ?_⟩
      rw [hw.stamp_longestMatch hfits, ← List.foldl_cons]
      exact hall _ ((List.prefix_cons_inj _).2 hcounts)

/-- Where few characters are looked at there are stamps enough. -/
theorem Dated.lasts_of_sum (hw : w.Dated)
    (h : w.stamp.toNat + (jobs.map fun job => job.2.length + 1).sum ≤ counterMax) :
    w.Lasts jobs := by
  induction jobs generalizing w with
  | nil => trivial
  | cons job jobs ih =>
    rw [List.map_cons, List.sum_cons] at h
    have hlooked : job.1.looked job.2 ≤ job.2.length := Automaton.looks_le_length ..
    have hbehind : stampBehind w.stamp.toNat (job.1.looked job.2)
        ≤ w.stamp.toNat + (job.2.length + 1) := by
      unfold stampBehind
      split <;> omega
    have hfits : job.1.Fits w job.2 := hw.fits_iff.2 (by omega)
    refine ⟨hfits, ih (hw.looks_eq hfits).2.2 ?_⟩
    rw [hw.stamp_longestMatch hfits]
    omega

end Workspace

namespace Automaton

/-- A match in a workspace that was used for any matches before finds the same as in a new one, if
there are stamps enough for all of them; and whether there are follows from how far the matches
look. -/
theorem longestMatch_reused (n : Nat) (jobs : List (Automaton × List Char)) (a : Automaton)
    (text : List Char) :
    ((Workspace.ofSize n).Lasts (jobs ++ [(a, text)]) ↔
        ∀ counts, counts <+: (jobs ++ [(a, text)]).map (fun job => job.1.looked job.2) →
          counts.foldl Workspace.stampBehind 0 ≤ Workspace.counterMax) ∧
      ((Workspace.ofSize n).Lasts (jobs ++ [(a, text)]) →
        (a.longestMatch ((Workspace.ofSize n).after jobs) text).1
          = (a.longestMatch .empty text).1) := by
  have hstart := Workspace.dated_ofSize n
  refine ⟨hstart.lasts_iff, fun hlasts => ?_⟩
  obtain ⟨hbefore, hfits, -⟩ := Workspace.lasts_append.1 hlasts
  exact ((hstart.after hbefore).looks_eq hfits).1

end Automaton

/-! ## Running out of stamps -/

/-- The automaton for any number of the letter `a`. -/
def Automaton.manyAs : Automaton := ofPattern (.star (.chars (.single 'a')))

theorem Automaton.looked_manyAs {n : Nat} (hn : n < Workspace.counterMax) :
    manyAs.looked (List.replicate n 'a') = n := by
  have hmem : List.replicate n 'a' ∈ (Pattern.star (.chars (.single 'a'))).language := by
    rw [Pattern.language, Pattern.language, CharClass.mem_kstar]
    intro c hc
    rw [CharClass.accepts_single]
    exact List.eq_of_mem_replicate hc
  have haccepts := (accepts_ofPattern (p := .star (.chars (.single 'a'))) trivial).2 hmem
  rw [manyAs, looked_of_accepts (v := []) (by rwa [List.length_replicate])
    (by rwa [List.append_nil]), List.length_replicate]

namespace Workspace

/-- Far from the end of the stamps, `k` matches that look at three characters each take four times
as many stamps. -/
theorem foldl_stampBehind_replicate {k : Nat} (hk : 4 * k < stampLimit.toNat + 4) :
    (List.replicate k 3).foldl stampBehind 0 = 4 * k := by
  induction k with
  | zero => rfl
  | succ k ih =>
    have hlt : ¬ stampLimit.toNat ≤ 4 * k := by omega
    rw [List.replicate_succ', List.foldl_append, ih (by omega), List.foldl_cons, List.foldl_nil,
      stampBehind, if_neg hlt]
    omega

/-- Matching a text of three characters again and again runs out of stamps: at the last match but
one a few are left, so that they do not begin again, but not enough. -/
theorem overflow_behind_short_texts : ¬ (ofSize 0).Lasts
    (List.replicate 1073741824 (Automaton.manyAs, List.replicate 3 'a')) := by
  intro hlasts
  have hle := (dated_ofSize 0).lasts_iff.1 hlasts _ (List.prefix_refl _)
  rw [List.map_replicate, Automaton.looked_manyAs (by decide),
    show (ofSize 0).stamp.toNat = 0 from rfl, foldl_stampBehind_replicate (by decide)] at hle
  exact absurd hle (by decide)

end Workspace

end FrontEnd
