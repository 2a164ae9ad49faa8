import FrontEnd.Proofs.Pattern.Stamps
import Mathlib.Logic.Relation

/-!
# Matches that run out of stamps

Behind the last stamp counting begins again at zero, and zero is the mark of a state that was never
met as well. There such a state counts as met and is passed over, so that **a match that has to go
on to it is lost**.

- `Workspace.Unmet`: the state has no mark but zero;
- `Automaton.Meets`: one state more is met;
- `Automaton.Shuns`: a text does not lead to the state;
- `Automaton.longestMatch_lost`: **at the character behind the last stamp a match is lost**;
- `Automaton.reads`, `Automaton.looked_of_unread`: how far a match looks where the text cannot go on;
- `Automaton.longestMatch_asAndB`: such a match in a new workspace.
-/

namespace FrontEnd

namespace Workspace

variable {w : Workspace} {s z : Nat}

/-- The state was never met, or not since the marks were cleared. -/
def Unmet (w : Workspace) (z : Nat) : Prop := w.marks.getD z 0 = 0

theorem getD_replicate_zero (n z : Nat) : (Array.replicate n (0 : UInt32))[z]?.getD 0 = 0 := by
  rw [Array.getElem?_replicate]
  split <;> rfl

theorem unmet_ofSize (n z : Nat) : (ofSize n).Unmet z := by
  rw [Unmet, Array.getD_eq_getD_getElem?]
  exact getD_replicate_zero n z

theorem Unmet.mark (hw : w.Unmet z) (hs : s < w.marks.size) (hne : s ≠ z) :
    (w.mark s hs).Unmet z := by
  rw [Unmet, Workspace.mark, Array.getD_eq_getD_getElem?, Array.getElem?_set_ne hs hne,
    ← Array.getD_eq_getD_getElem?]
  exact hw

/-- New room for marks is filled with zeros. -/
theorem Unmet.reset (hw : w.Unmet z) (n : Nat) : (w.reset n).Unmet z := by
  rw [Unmet, Array.getD_eq_getD_getElem?] at hw ⊢
  unfold Workspace.reset
  split
  · exact getD_replicate_zero ..
  · rw [Array.getElem?_append]
    split
    · exact hw
    · exact getD_replicate_zero ..

end Workspace

namespace Automaton

variable {a : Automaton} {w : Workspace} {p p' : Workspace × Array Nat} {live : Array Nat}
  {z : Nat} {c : Char} {text u rest : List Char}

/-! ## One state more -/

/-- A state is marked, and found unless it is a fork. -/
inductive Meets (a : Automaton) : Workspace × Array Nat → Workspace × Array Nat → Prop where
  | fork {w : Workspace} {found : Array Nat} {s l r : Nat} (hs : s < w.marks.size)
    (hstate : a.states[s]? = some (.fork l r)) : Meets a (w, found) (w.mark s hs, found)
  | find {w : Workspace} {found : Array Nat} {s : Nat} {state : AutomatonState}
    (hs : s < w.marks.size) (hstate : a.states[s]? = some state) :
    Meets a (w, found) (w.mark s hs, found.push s)

theorem meets_closure (a : Automaton) (w : Workspace) (found : Array Nat) (stack : List Nat) :
    Relation.ReflTransGen a.Meets (w, found) (a.closure w found stack) := by
  fun_induction closure a w found stack with
  | case1 w found => exact .refl
  | case2 w found s stack hs hmark l r hstate ih => exact .head (.fork hs hstate) ih
  | case3 w found s stack hs hmark state hother hstate ih => exact .head (.find hs hstate) ih
  | case4 w found s stack hs hmark hstate ih => exact ih
  | case5 w found s stack hs hmark ih => exact ih
  | case6 w found s stack hs ih => exact ih

theorem meets_follow (a : Automaton) (c : Char) (p : Workspace × Array Nat) (s : Nat) :
    Relation.ReflTransGen a.Meets p (a.follow c p s) := by
  rw [follow]
  split
  · split
    · exact meets_closure ..
    · exact .refl
  · exact .refl

theorem meets_advance (a : Automaton) (c : Char) (w : Workspace) (live : Array Nat) :
    Relation.ReflTransGen a.Meets (w.fresh, #[]) (a.advance c w live) := by
  rw [advance, ← Array.foldl_toList]
  generalize (w.fresh, #[]) = p
  induction live.toList generalizing p with
  | nil => exact .refl
  | cons s states ih => exact (meets_follow a c p s).trans (ih _)

/-- A state that is no fork is found when it is met. -/
theorem unmet_or_mem (h : Relation.ReflTransGen a.Meets p p') (hz : p.1.Unmet z)
    (hfork : ∀ l r, a.states[z]? ≠ some (.fork l r)) :
    p'.1.Unmet z ∨ z ∈ p'.2 ∧ z < a.states.size := by
  induction h with
  | refl => exact .inl hz
  | tail _ hstep ih =>
    cases hstep with
    | fork hs hstate =>
      refine ih.imp_left fun hunmet => hunmet.mark hs ?_
      rintro rfl
      exact hfork _ _ hstate
    | @find w found s state hs hstate =>
      by_cases hsz : s = z
      · subst hsz
        exact .inr ⟨Array.mem_push_self, (Array.getElem?_eq_some_iff.1 hstate).1⟩
      · exact ih.imp (·.mark hs hsz) (And.imp_left (Array.mem_push_of_mem s))

/-! ## Texts that do not lead to a state -/

/-- No first part of the text leads from the live states to `z`: there is no such state, or else a
text that it reads is not read behind any first part. -/
def Shuns (a : Automaton) (z : Nat) (live : List Nat) (text : List Char) : Prop :=
  a.states.size ≤ z ∨
    ∃ x, AcceptsFrom a.states z x ∧ ∀ v, v <+: text → ¬ a.AnyAccepts live (v ++ x)

/-- The text does not lead from the start to `z`. -/
def Avoids (a : Automaton) (z : Nat) (text : List Char) : Prop :=
  a.states.size ≤ z ∨ ∃ x, AcceptsFrom a.states z x ∧ ∀ v, v <+: text → ¬ a.Accepts (v ++ x)

theorem Shuns.not_mem (h : a.Shuns z live.toList text) : ¬ (z ∈ live ∧ z < a.states.size) := by
  rintro ⟨hmem, hlt⟩
  rcases h with hle | ⟨x, hx, hnone⟩
  · exact absurd hlt (Nat.not_lt_of_le hle)
  · exact hnone [] List.nil_prefix ⟨z, Array.mem_toList_iff.2 hmem, hx⟩

theorem Shuns.advance (h : a.Shuns z live.toList (c :: rest)) (w : Workspace) :
    a.Shuns z (a.advance c w live).2.toList rest := by
  refine h.imp_right fun ⟨x, hx, hnone⟩ => ⟨x, hx, fun v hv hany => ?_⟩
  exact hnone (c :: v) ((List.prefix_cons_inj c).2 hv) (advance_sound a c w live (v ++ x) hany)

theorem Avoids.shuns (h : a.Avoids z text) (w : Workspace) :
    a.Shuns z (a.initial w).2.toList text :=
  h.imp_right fun ⟨x, hx, hnone⟩ => ⟨x, hx, fun v hv hany =>
    hnone v hv (initial_sound a w (v ++ x) hany)⟩

theorem unmet_initial (hw : w.Unmet z) (hfork : ∀ l r, a.states[z]? ≠ some (.fork l r))
    (h : a.Avoids z text) : (a.initial w).1.Unmet z :=
  (unmet_or_mem (meets_closure a _ #[] [a.start]) (hw.reset _) hfork).resolve_right
    (h.shuns w).not_mem

theorem unmet_advance (hw : w.Unmet z) (hfork : ∀ l r, a.states[z]? ≠ some (.fork l r))
    (h : a.Shuns z live.toList (c :: rest)) : (a.advance c w live).1.Unmet z :=
  (unmet_or_mem (meets_advance a c w live) hw hfork).resolve_right (h.advance w).not_mem

theorem unmet_scan (hw : w.Unmet z) (hfork : ∀ l r, a.states[z]? ≠ some (.fork l r)) (size : Nat)
    (longest : Option Nat) (h : a.Shuns z live.toList text) :
    (a.scan w live size longest text).2.Unmet z := by
  induction text generalizing w live size longest with
  | nil => exact hw
  | cons c rest ih =>
    have hadvance := unmet_advance hw hfork h
    simp only [scan]
    split
    · exact hadvance
    · exact ih hadvance _ _ (h.advance w)

/-- A match with a text that does not lead to a state leaves it unmet. -/
theorem unmet_longestMatch (hw : w.Unmet z) (hfork : ∀ l r, a.states[z]? ≠ some (.fork l r))
    (h : a.Avoids z text) : (a.longestMatch w text).2.Unmet z :=
  unmet_scan (unmet_initial hw hfork h) hfork 0 _ (h.shuns w)

/-! ## Behind the last stamp -/

/-- All that a live state reads with the character goes on to `z`. -/
def Funnels (a : Automaton) (z : Nat) (c : Char) : Prop :=
  ∀ s cls next, s ≠ z → a.states[s]? = some (.read cls next) → cls.accepts c = true → next = z

/-- Nothing is live behind a character that leads to nothing new from any live state. -/
theorem advance_of_follow (h : ∀ s ∈ live, a.follow c (w.fresh, #[]) s = (w.fresh, #[])) :
    a.advance c w live = (w.fresh, #[]) := by
  rw [advance, ← Array.foldl_toList]
  refine List.foldlRecOn live.toList (a.follow c) (motive := (· = (w.fresh, #[]))) rfl ?_
  rintro _ rfl s hs
  exact h s (Array.mem_toList_iff.1 hs)

/-- With the stamp zero a state that was never met is passed over. -/
theorem closure_unmet (hw : w.Unmet z) (hstamp : w.stamp = 0) (found : Array Nat) :
    a.closure w found [z] = (w, found) := by
  rw [closure]
  split
  · next hsize =>
    rw [Workspace.Unmet, Array.getD_eq_getD_getElem?, Array.getElem?_eq_getElem hsize] at hw
    have hmark : w.marks[z] = w.stamp := hw.trans hstamp.symm
    rw [dif_neg (by simp [hmark]), closure]
  · rw [closure]

/-- Behind the last stamp a state that was never met is passed over. -/
theorem advance_lost (hw : w.Unmet z) (hlast : w.stamp.toNat = Workspace.counterMax)
    (hfunnels : a.Funnels z c) (hz : ¬ (z ∈ live ∧ z < a.states.size)) :
    (a.advance c w live).2 = #[] := by
  have hstamp : w.fresh.stamp = 0 := by
    refine UInt32.toNat_inj.1 ?_
    rw [Workspace.fresh, UInt32.toNat_add, hlast]
    rfl
  have hunmet : w.fresh.Unmet z := hw
  rw [advance_of_follow]
  intro s hs
  rw [follow]
  split
  · next cls next hstate =>
    split
    · next hc =>
      have hne : s ≠ z := by
        rintro rfl
        exact hz ⟨hs, (Array.getElem?_eq_some_iff.1 hstate).1⟩
      rw [hfunnels s cls next hne hstate hc]
      exact closure_unmet hunmet hstamp #[]
    · rfl
  · rfl

theorem scan_lost (hzero : ∀ s, a.states[s]? = some .accept ↔ s = 0) (hw : w.Unmet z)
    (hfork : ∀ l r, a.states[z]? ≠ some (.fork l r))
    (hlast : w.stamp.toNat + u.length = Workspace.counterMax) (h : a.Shuns z live.toList u)
    (hnone : ∀ v, v <+: u → v ≠ [] → ¬ a.AnyAccepts live.toList v) (hfunnels : a.Funnels z c)
    (size : Nat) : (a.scan w live size none (u ++ c :: rest)).1 = none := by
  induction u generalizing w live size with
  | nil =>
    rw [List.nil_append, scan]
    dsimp only
    rw [advance_lost hw hlast hfunnels h.not_mem]
    rfl
  | cons d u ih =>
    rw [List.length_cons] at hlast
    have hunspent : w.Unspent := by
      unfold Workspace.Unspent
      omega
    have hbehind : ∀ v, v <+: u → ¬ a.AnyAccepts (a.advance d w live).2.toList v := fun v hv hany =>
      hnone (d :: v) ((List.prefix_cons_inj d).2 hv) (List.cons_ne_nil d v)
        (advance_sound a d w live v hany)
    have haccepts : ¬ accepts (a.advance d w live).2 = true := fun haccepts =>
      hbehind [] List.nil_prefix (anyAccepts_of_accepts hzero haccepts)
    rw [List.cons_append, scan]
    dsimp only
    split
    · rfl
    · refine ih (unmet_advance hw hfork h) ?_ (h.advance w) (fun v hv _ => hbehind v hv) _
      rw [stamp_advance, hunspent.toNat_add_one]
      omega

/-- A match finds nothing if all that is accepted has to go on, at the character behind the last
stamp, to a state that was never met. -/
theorem longestMatch_lost (hzero : ∀ s, a.states[s]? = some .accept ↔ s = 0) (hw : w.Unmet z)
    (hfork : ∀ l r, a.states[z]? ≠ some (.fork l r))
    (hlast : (a.initial w).1.stamp.toNat + u.length = Workspace.counterMax) (h : a.Avoids z u)
    (hnone : ∀ v, v <+: u → ¬ a.Accepts v) (hfunnels : a.Funnels z c) :
    (a.longestMatch w (u ++ c :: rest)).1 = none := by
  have hstart : ¬ accepts (a.initial w).2 = true := fun haccepts =>
    hnone [] List.nil_prefix (initial_sound a w [] (anyAccepts_of_accepts hzero haccepts))
  rw [longestMatch_eq, if_neg hstart]
  exact scan_lost hzero (unmet_initial hw hfork h) hfork hlast (h.shuns w)
    (fun v hv _ hany => hnone v hv (initial_sound a w v hany)) hfunnels 0

end Automaton

/-! ## How many stamps a match takes -/

/-- As long as the stamps do not begin again, a match takes one, and one for each character. -/
theorem Workspace.stampBehind_of_lt {stamp : Nat} (h : stamp + 1 < counterMax) (looked : Nat) :
    stampBehind stamp looked = stamp + 1 + looked := by
  rw [stampBehind, if_neg]
  exact Nat.not_le_of_lt (Nat.lt_of_succ_lt_succ h)

namespace Automaton

variable {a : Automaton} {w : Workspace} {live : Array Nat} {d : Char} {u v rest : List Char}

theorem toNat_initial_of_lt (h : w.stamp.toNat + 1 < Workspace.counterMax) (a : Automaton) :
    (a.initial w).1.stamp.toNat = w.stamp.toNat + 1 :=
  (toNat_initial a w).trans (Workspace.stampBehind_of_lt h 0)

/-- Behind what was read to get to a live state, the state does not read the character. -/
def Halts (a : Automaton) (live : List Nat) (u : List Char) (d : Char) : Prop :=
  ∀ s cls next, a.states[s]? = some (.read cls next) → cls.accepts d = true →
    ∃ x, AcceptsFrom a.states s x ∧ ¬ a.AnyAccepts live (u ++ x)

/-- From live states a match looks at the first part of a text that can be read and at the character
where it halts. -/
theorem looks_of_halts (h : a.Live w live)
    (hroom : w.stamp.toNat + u.length < Workspace.counterMax)
    (hany : a.AnyAccepts live.toList (u ++ v)) (hhalts : a.Halts live.toList u d) :
    a.looks w live (u ++ d :: rest) = u.length + 1 := by
  induction u generalizing w live with
  | nil =>
    have hnothing : a.advance d w live = (w.fresh, #[]) := by
      refine advance_of_follow fun s hs => ?_
      rw [follow]
      split
      · next cls next hstate =>
        refine if_neg fun hd => ?_
        obtain ⟨x, hx, hnot⟩ := hhalts s cls next hstate hd
        exact hnot ⟨s, Array.mem_toList_iff.2 hs, hx⟩
      · rfl
    rw [List.nil_append, looks, hnothing]
    rfl
  | cons c u ih =>
    rw [List.length_cons] at hroom
    have hunspent : w.Unspent := by
      unfold Workspace.Unspent
      omega
    obtain ⟨hlive, hbehind⟩ := live_advance h hunspent c
    have hrest := (hbehind (u ++ v)).2 hany
    have hsome : ¬ (a.advance c w live).2.isEmpty = true := by
      intro hempty
      obtain ⟨s, hs, -⟩ := hrest
      rw [Array.isEmpty_iff.1 hempty] at hs
      cases hs
    simp only [List.cons_append, looks]
    rw [if_neg hsome, ih hlive ?_ hrest ?_, List.length_cons]
    · rw [stamp_advance, hunspent.toNat_add_one]
      omega
    · intro s cls next hstate hd
      obtain ⟨x, hx, hnot⟩ := hhalts s cls next hstate hd
      exact ⟨x, hx, fun hread => hnot ((hbehind (u ++ x)).1 hread)⟩

/-- A match looks at the first part of a text that can be read and at the character behind it. -/
theorem looked_of_halts (hlength : u.length + 1 < Workspace.counterMax)
    (haccepts : a.Accepts (u ++ v))
    (hhalts : ∀ s cls next, a.states[s]? = some (.read cls next) → cls.accepts d = true →
      ∃ x, AcceptsFrom a.states s x ∧ ¬ a.Accepts (u ++ x)) :
    a.looked (u ++ d :: rest) = u.length + 1 := by
  obtain ⟨hlive, hany⟩ := live_initial a Workspace.dated_empty
  refine looks_of_halts hlive ?_ ((hany _).2 haccepts) fun s cls next hstate hd => ?_
  · rw [toNat_initial]
    exact (Nat.add_comm ..).trans_lt hlength
  · obtain ⟨x, hx, hnot⟩ := hhalts s cls next hstate hd
    exact ⟨x, hx, fun hread => hnot ((hany _).1 hread)⟩

/-- Does some state read the character? -/
def reads (a : Automaton) (c : Char) : Bool :=
  a.states.any fun
    | .read cls _ => cls.accepts c
    | _ => false

theorem reads_of_state {s next : Nat} {cls : CharClass} {c : Char}
    (h : a.states[s]? = some (.read cls next)) (hc : cls.accepts c = true) : a.reads c = true := by
  rw [reads, Array.any_eq_true']
  exact ⟨_, Array.mem_of_getElem? h, hc⟩

/-- A match halts at a character that no state reads. -/
theorem looked_of_unread (hlength : u.length + 1 < Workspace.counterMax)
    (haccepts : a.Accepts (u ++ v)) (hd : a.reads d = false) :
    a.looked (u ++ d :: rest) = u.length + 1 :=
  looked_of_halts hlength haccepts fun _ _ _ hstate hc =>
    absurd (reads_of_state hstate hc) (by rw [hd]; exact Bool.false_ne_true)

/-- A pattern does not start with a character if what a state reads from there on is no text of the
pattern. -/
theorem canStartWith_eq_false {p : Pattern} (hp : p.Proper)
    (h : ∀ s cls next, (ofPattern p).states[s]? = some (.read cls next) → cls.accepts d = true →
      ∃ x, AcceptsFrom (ofPattern p).states s x ∧ x ∉ p.language) :
    (ofPattern p).canStartWith d = false := by
  rw [canStartWith, List.any_eq_false]
  intro cls hcls hd
  obtain ⟨s, hs, hclass⟩ := List.mem_filterMap.1 hcls
  let bare : Automaton := ⟨(ofPattern p).states, (ofPattern p).start, []⟩
  have hstate : ∃ next, bare.states[s]? = some (.read cls next) := by
    unfold class? at hclass
    split at hclass
    · next cls' next hstate =>
      obtain rfl := Option.some.inj hclass
      exact ⟨next, hstate⟩
    · cases hclass
  obtain ⟨next, hstate⟩ := hstate
  obtain ⟨x, hx, hnot⟩ := h s cls next hstate hd
  exact hnot ((accepts_ofPattern hp).1 (initial_sound bare .empty x ⟨s, hs, hx⟩))

theorem canStartWith_of_unread {p : Pattern} (hp : p.Proper)
    (hd : (ofPattern p).reads d = false) : (ofPattern p).canStartWith d = false :=
  canStartWith_eq_false hp fun _ _ _ hstate hc =>
    absurd (reads_of_state hstate hc) (by rw [hd]; exact Bool.false_ne_true)

end Automaton

/-! ## A letter too many -/

/-- Any number of the letter `a`, and then a `b`. -/
def Pattern.manyAsAndB : Pattern := .concat [.star (.chars (.single 'a')), .chars (.single 'b')]

/-- So many times the letter `a`, and then a `b`. -/
def asAndB (n : Nat) : List Char := List.replicate n 'a' ++ ['b']

theorem Pattern.proper_manyAsAndB : manyAsAndB.Proper := by
  simp [manyAsAndB, Proper, AllProper]

theorem Pattern.mem_manyAsAndB {u : List Char} :
    u ∈ manyAsAndB.language ↔ ∃ n, u = asAndB n := by
  rw [manyAsAndB, language, languageConcat, languageConcat, languageConcat, mul_one]
  constructor
  · intro h
    obtain ⟨as, has, b, ⟨c, hc, rfl⟩, rfl⟩ := Language.mem_mul.1 h
    have hall := CharClass.mem_kstar.1 has
    refine ⟨as.length, ?_⟩
    rw [CharClass.accepts_single.1 hc,
      List.eq_replicate_of_mem fun d hd => CharClass.accepts_single.1 (hall d hd)]
    simp [asAndB]
  · rintro ⟨n, rfl⟩
    refine Language.mem_mul.2 ⟨_, CharClass.mem_kstar.2 fun c hc => ?_, _,
      ⟨'b', CharClass.accepts_single.2 rfl, rfl⟩, rfl⟩
    exact CharClass.accepts_single.2 (List.eq_of_mem_replicate hc)

namespace Automaton

theorem states_manyAsAndB : (ofPattern .manyAsAndB).states
    = #[.accept, .read (.single 'b') 0, .fork 3 1, .read (.single 'a') 2] := rfl

/-- With so many letters the last one is looked at behind the last stamp, and the match is lost. -/
theorem longestMatch_asAndB {w : Workspace} (hw : w.Unmet 0) (hstamp : w.stamp = 0) :
    ((ofPattern .manyAsAndB).longestMatch w (asAndB (Workspace.counterMax - 1))).1 = none := by
  have hproper := Pattern.proper_manyAsAndB
  have hnone : ∀ v, v <+: List.replicate (Workspace.counterMax - 1) 'a' →
      ¬ (ofPattern .manyAsAndB).Accepts v := by
    intro v hv haccepts
    obtain ⟨n, rfl⟩ := Pattern.mem_manyAsAndB.1 ((accepts_ofPattern hproper).1 haccepts)
    exact absurd (List.eq_of_mem_replicate (hv.subset (by simp [asAndB]) : 'b' ∈ _)) (by decide)
  refine longestMatch_lost (z := 0) (fun s => accept_ofPattern hproper) hw ?_ ?_ ?_ hnone ?_
  · rw [states_manyAsAndB]
    exact nofun
  · rw [toNat_initial, hstamp, List.length_replicate]
    rfl
  · refine .inr ⟨[], ⟨0, .accept rfl⟩, fun v hv haccepts => hnone v hv ?_⟩
    rwa [List.append_nil] at haccepts
  · intro s cls next _ hstate hc
    rw [states_manyAsAndB] at hstate
    match s with
    | 0 | 2 => cases hstate
    | 1 =>
      cases hstate
      rfl
    | 3 =>
      cases hstate
      exact absurd hc (by decide)
    | s + 4 => cases hstate

end Automaton

end FrontEnd
