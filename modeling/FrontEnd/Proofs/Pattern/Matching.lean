import FrontEnd.Proofs.Pattern.Compilation
import FrontEnd.Proofs.Text.Measure

/-!
# Following the states of an automaton

The live states behind a text are those from which the rest of an accepted text can be read. A
workspace only remembers which states were met since the last stamp, so **what is found does not
depend on what a workspace was used for before**, as long as no stamp is taken behind the last one.
A match that runs out of stamps may miss states; what it finds is accepted all the same.

- `Workspace.Dated`: no mark is of a later stamp;
- `Automaton.Closes`: what following states without reading leaves behind;
- `Automaton.live_advance`: the live states behind one more character;
- `Automaton.looks`, `Automaton.Fits`: how far a match looks, and that there are stamps enough;
- `Automaton.longestMatch_spec`: **the longest match is that of the accepted texts**;
- `Automaton.longestMatch_sound`: a match is accepted, even without stamps.
-/

namespace FrontEnd

namespace Workspace

variable {w : Workspace} {s t n : Nat}

/-- The greatest number of 32 bits. -/
def counterMax : Nat := 4294967295

/-- The stamp is not the last one. -/
def Unspent (w : Workspace) : Prop := w.stamp.toNat < counterMax

/-- No mark is of a later stamp. -/
def Dated (w : Workspace) : Prop := ∀ m ∈ w.marks, m ≤ w.stamp

/-- No mark is of the last stamp. -/
def Clear (w : Workspace) : Prop := ∀ m ∈ w.marks, m < w.stamp

/-- The state was met since the last stamp. -/
def Marked (w : Workspace) (s : Nat) : Prop := w.marks[s]? = some w.stamp

theorem dated_empty : empty.Dated := by
  intro m hm
  simp [empty] at hm

theorem dated_ofSize (n : Nat) : (ofSize n).Dated := by
  intro m hm
  simp only [ofSize, Array.mem_replicate] at hm
  exact hm.2 ▸ UInt32.le_refl 0

theorem marked_mark {h : s < w.marks.size} : (w.mark s h).Marked t ↔ t = s ∨ w.Marked t := by
  unfold Marked mark
  by_cases hts : t = s
  · subst hts
    simp
  · rw [Array.getElem?_set_ne h (Ne.symm hts)]
    simp [hts]

theorem Dated.mark (hw : w.Dated) (h : s < w.marks.size) : (w.mark s h).Dated := by
  intro m hm
  rw [Workspace.mark] at hm
  rcases Array.mem_or_eq_of_mem_set (w := h) hm with hm | rfl
  · exact hw m hm
  · exact UInt32.le_refl _

theorem Clear.dated (hw : w.Clear) : w.Dated := fun m hm => UInt32.le_of_lt (hw m hm)

theorem Clear.not_marked (hw : w.Clear) : ¬ w.Marked s := fun h =>
  UInt32.lt_irrefl _ (hw _ (Array.mem_of_getElem? h))

/-- Stamps are numbers until the last one is reached. -/
theorem Unspent.toNat_add_one (h : w.Unspent) : (w.stamp + 1).toNat = w.stamp.toNat + 1 := by
  rw [UInt32.toNat_add]
  exact Nat.mod_eq_of_lt (Nat.succ_lt_succ h)

/-- A new stamp makes all marks old. -/
theorem Dated.fresh (hw : w.Dated) (h : w.Unspent) : w.fresh.Clear := by
  intro m hm
  have hle : m.toNat ≤ w.stamp.toNat := UInt32.le_iff_toNat_le.1 (hw m hm)
  rw [UInt32.lt_iff_toNat_lt, Workspace.fresh, h.toNat_add_one]
  omega

/-- Before a match counting begins again when few stamps are left. -/
theorem toNat_reset (w : Workspace) (n : Nat) : (w.reset n).stamp.toNat
    = if stampLimit ≤ w.stamp then 1 else w.stamp.toNat + 1 := by
  unfold reset
  split
  · rfl
  · next hlt =>
    have hunspent : w.Unspent :=
      (Nat.lt_of_not_le (mt UInt32.le_iff_toNat_le.2 hlt)).trans (Nat.lt_succ_self 4294967294)
    exact hunspent.toNat_add_one

theorem Dated.reset (hw : w.Dated) (n : Nat) : (w.reset n).Clear := by
  intro m hm
  rw [UInt32.lt_iff_toNat_lt, toNat_reset]
  unfold Workspace.reset at hm
  split at hm
  · rw [if_pos ‹_›]
    simp only [Array.mem_replicate] at hm
    exact hm.2 ▸ Nat.one_pos
  · rw [if_neg ‹_›]
    simp only [Array.mem_append, Array.mem_replicate] at hm
    rcases hm with hm | ⟨-, rfl⟩
    · exact Nat.lt_succ_of_le (UInt32.le_iff_toNat_le.1 (hw m hm))
    · exact Nat.succ_pos _

theorem le_size_reset (w : Workspace) (n : Nat) : n ≤ (w.reset n).marks.size := by
  have hle : n ≤ (w.marks ++ Array.replicate (n - w.marks.size) 0).size := by
    rw [Array.size_append, Array.size_replicate]
    omega
  unfold reset
  split
  · simpa using hle
  · exact hle

end Workspace

namespace Automaton

variable {a : Automaton} {w w' : Workspace} {found found' live : Array Nat} {stack : List Nat}
  {s t l r : Nat} {text u v : List Char} {c : Char}

/-! ## States without reading -/

/-- Some state of the list can read the text. -/
def AnyAccepts (a : Automaton) (live : List Nat) (text : List Char) : Prop :=
  ∃ s ∈ live, AcceptsFrom a.states s text

/-- The state was met, or will be, or does not exist. -/
def Seen (a : Automaton) (w : Workspace) (stack : List Nat) (s : Nat) : Prop :=
  a.states[s]? = none ∨ w.Marked s ∨ s ∈ stack

/-- In the middle of following states: what was met leads on to what was met or will be, and the
states found are those that read or accept. -/
structure Traversal (a : Automaton) (w : Workspace) (found : Array Nat) (stack : List Nat) :
    Prop where
  room : a.states.size ≤ w.marks.size
  forks : ∀ s l r, w.Marked s → a.states[s]? = some (.fork l r) →
    a.Seen w stack l ∧ a.Seen w stack r
  others : ∀ s, w.Marked s → (∃ l r, a.states[s]? = some (.fork l r)) ∨ s ∈ found
  found_ne : ∀ s ∈ found, ∀ l r, a.states[s]? ≠ some (.fork l r)

/-- What following the states of a stack leaves behind. -/
structure Closes (a : Automaton) (w : Workspace) (found : Array Nat) (stack : List Nat)
    (w' : Workspace) (found' : Array Nat) : Prop where
  dated : w.Dated → w'.Dated
  traversal : a.Traversal w' found' []
  marked : ∀ s, w.Marked s → w'.Marked s
  kept : ∀ s ∈ found, s ∈ found'
  seen : ∀ s ∈ stack, a.Seen w' [] s

theorem Seen.imp {stack' : List Nat} (h : a.Seen w stack t) (hmarked : w.Marked t → w'.Marked t)
    (hstack : t ∈ stack → a.Seen w' stack' t) : a.Seen w' stack' t := by
  rcases h with h | h | h
  · exact .inl h
  · exact .inr (.inl (hmarked h))
  · exact hstack h

namespace Traversal

/-- A state of the stack that leads nowhere new. -/
theorem drop (h : a.Traversal w found (s :: stack)) (hs : a.Seen w stack s) :
    a.Traversal w found stack := by
  have hseen : ∀ t, a.Seen w (s :: stack) t → a.Seen w stack t := by
    intro t ht
    refine ht.imp id fun hmem => ?_
    rcases List.mem_cons.1 hmem with rfl | hmem
    · exact hs
    · exact .inr (.inr hmem)
  exact ⟨h.room, fun t l r ht hstate => (h.forks t l r ht hstate).imp (hseen l) (hseen r),
    h.others, h.found_ne⟩

/-- A fork that is met for the first time. -/
theorem fork (h : a.Traversal w found (s :: stack)) (hs : s < w.marks.size)
    (hstate : a.states[s]? = some (.fork l r)) :
    a.Traversal (w.mark s hs) found (l :: r :: stack) := by
  have hseen : ∀ t, a.Seen w (s :: stack) t → a.Seen (w.mark s hs) (l :: r :: stack) t := by
    intro t ht
    refine ht.imp (fun hm => Workspace.marked_mark.2 (.inr hm)) fun hmem => ?_
    rcases List.mem_cons.1 hmem with rfl | hmem
    · exact .inr (.inl (Workspace.marked_mark.2 (.inl rfl)))
    · exact .inr (.inr (by simp [hmem]))
  refine ⟨?_, fun t l' r' ht hstate' => ?_, fun t ht => ?_, h.found_ne⟩
  · rw [Workspace.mark, Array.size_set]
    exact h.room
  · rcases Workspace.marked_mark.1 ht with rfl | ht
    · rw [hstate] at hstate'
      cases hstate'
      exact ⟨.inr (.inr (by simp)), .inr (.inr (by simp))⟩
    · exact (h.forks t l' r' ht hstate').imp (hseen l') (hseen r')
  · rcases Workspace.marked_mark.1 ht with rfl | ht
    · exact .inl ⟨l, r, hstate⟩
    · exact h.others t ht

/-- A state that reads or accepts and is met for the first time. -/
theorem find (h : a.Traversal w found (s :: stack)) (hs : s < w.marks.size)
    (hother : ∀ l r, a.states[s]? ≠ some (.fork l r)) :
    a.Traversal (w.mark s hs) (found.push s) stack := by
  have hseen : ∀ t, a.Seen w (s :: stack) t → a.Seen (w.mark s hs) stack t := by
    intro t ht
    refine ht.imp (fun hm => Workspace.marked_mark.2 (.inr hm)) fun hmem => ?_
    rcases List.mem_cons.1 hmem with rfl | hmem
    · exact .inr (.inl (Workspace.marked_mark.2 (.inl rfl)))
    · exact .inr (.inr hmem)
  refine ⟨?_, fun t l r ht hstate => ?_, fun t ht => ?_, fun t ht => ?_⟩
  · rw [Workspace.mark, Array.size_set]
    exact h.room
  · rcases Workspace.marked_mark.1 ht with rfl | ht
    · exact absurd hstate (hother l r)
    · exact (h.forks t l r ht hstate).imp (hseen l) (hseen r)
  · rcases Workspace.marked_mark.1 ht with rfl | ht
    · exact .inr (by simp)
    · exact (h.others t ht).imp_right fun hmem => by simp [hmem]
  · rcases Array.mem_push.1 ht with ht | rfl
    · exact h.found_ne t ht
    · exact hother

end Traversal

namespace Closes

/-- A step before the rest: what was met stays met. -/
theorem after {w₁ : Workspace} {found₁ : Array Nat} {stack₁ : List Nat}
    (h : a.Closes w₁ found₁ stack₁ w' found') (hdated : w.Dated → w₁.Dated)
    (hmarked : ∀ t, w.Marked t → w₁.Marked t) (hkept : ∀ t ∈ found, t ∈ found₁)
    (hseen : ∀ t ∈ stack, a.Seen w₁ stack₁ t) : a.Closes w found stack w' found' where
  dated hw := h.dated (hdated hw)
  traversal := h.traversal
  marked t ht := h.marked t (hmarked t ht)
  kept t ht := h.kept t (hkept t ht)
  seen t ht := (hseen t ht).imp (h.marked t) (h.seen t)

/-- A state of the stack that leads nowhere new. -/
theorem drop (h : a.Closes w found stack w' found') (hs : a.Seen w stack s) :
    a.Closes w found (s :: stack) w' found' := by
  refine h.after id (fun t ht => ht) (fun t ht => ht) fun t ht => ?_
  rcases List.mem_cons.1 ht with rfl | ht
  · exact hs
  · exact .inr (.inr ht)

end Closes

theorem closes_closure (h : a.Traversal w found stack) :
    a.Closes w found stack (a.closure w found stack).1 (a.closure w found stack).2 := by
  -- By induction on the traversal, which takes one state off the stack at a time.
  fun_induction closure a w found stack with
  | case1 w found => exact ⟨id, h, fun _ => id, fun _ => id, nofun⟩
  | case2 w found s stack hs hmark l r hstate ih =>
    refine (ih (h.fork hs hstate)).after (·.mark hs)
      (fun t ht => Workspace.marked_mark.2 (.inr ht)) (fun t ht => ht) fun t ht => ?_
    rcases List.mem_cons.1 ht with rfl | ht
    · exact .inr (.inl (Workspace.marked_mark.2 (.inl rfl)))
    · exact .inr (.inr (by simp [ht]))
  | case3 w found s stack hs hmark state hother hstate ih =>
    have hne : ∀ l r, a.states[s]? ≠ some (.fork l r) := fun l r hfork => by
      rw [hstate] at hfork
      exact hother l r (Option.some.inj hfork)
    refine (ih (h.find hs hne)).after (·.mark hs)
      (fun t ht => Workspace.marked_mark.2 (.inr ht)) (fun t ht => Array.mem_push_of_mem s ht)
      fun t ht => ?_
    rcases List.mem_cons.1 ht with rfl | ht
    · exact .inr (.inl (Workspace.marked_mark.2 (.inl rfl)))
    · exact .inr (.inr ht)
  | case4 w found s stack hs hmark hstate ih => exact (ih (h.drop (.inl hstate))).drop (.inl hstate)
  | case5 w found s stack hs hmark ih =>
    have hmarked : w.Marked s := by
      rw [Workspace.Marked, Array.getElem?_eq_getElem hs]
      simpa using hmark
    exact (ih (h.drop (.inr (.inl hmarked)))).drop (.inr (.inl hmarked))
  | case6 w found s stack hs ih =>
    have hnone : a.states[s]? = none :=
      Array.getElem?_eq_none (h.room.trans (Nat.le_of_not_lt hs))
    exact (ih (h.drop (.inl hnone))).drop (.inl hnone)

/-! ## What is found is accepted

This needs no marks: a state is only met from states that were met before it. -/

/-- What the states that are found read, those found before read, or those of the stack. -/
theorem closure_sound (a : Automaton) (w : Workspace) (found : Array Nat) (stack : List Nat)
    (text : List Char) (h : a.AnyAccepts (a.closure w found stack).2.toList text) :
    a.AnyAccepts found.toList text ∨ a.AnyAccepts stack text := by
  have hbehind : ∀ {s stack}, a.AnyAccepts stack text → a.AnyAccepts (s :: stack) text :=
    fun ⟨t, ht, haccepts⟩ => ⟨t, List.mem_cons_of_mem _ ht, haccepts⟩
  fun_induction closure a w found stack with
  | case1 w found => exact .inl h
  | case2 w found s stack hs hmark l r hstate ih =>
    refine (ih h).imp id ?_
    rintro ⟨t, ht, haccepts⟩
    rcases List.mem_cons.1 ht with rfl | ht
    · exact ⟨s, List.mem_cons_self, .left hstate haccepts⟩
    rcases List.mem_cons.1 ht with rfl | ht
    · exact ⟨s, List.mem_cons_self, .right hstate haccepts⟩
    · exact ⟨t, List.mem_cons_of_mem s ht, haccepts⟩
  | case3 w found s stack hs hmark state hother hstate ih =>
    rcases ih h with ⟨t, ht, haccepts⟩ | hstack
    · rcases Array.mem_push.1 (Array.mem_toList_iff.1 ht) with ht | rfl
      · exact .inl ⟨t, Array.mem_toList_iff.2 ht, haccepts⟩
      · exact .inr ⟨t, List.mem_cons_self, haccepts⟩
    · exact .inr (hbehind hstack)
  | case4 w found s stack hs hmark hstate ih => exact (ih h).imp id hbehind
  | case5 w found s stack hs hmark ih => exact (ih h).imp id hbehind
  | case6 w found s stack hs ih => exact (ih h).imp id hbehind

/-- A state that reads the character and then the text. -/
theorem follow_sound (a : Automaton) (c : Char) (state : Workspace × Array Nat) (s : Nat)
    (text : List Char) (h : a.AnyAccepts (a.follow c state s).2.toList text) :
    a.AnyAccepts state.2.toList text ∨ AcceptsFrom a.states s (c :: text) := by
  rw [follow] at h
  split at h
  · next cls next hstate =>
    split at h
    · next hc =>
      refine (closure_sound a _ _ _ text h).imp id ?_
      rintro ⟨t, ht, haccepts⟩
      exact .read hstate hc (List.mem_singleton.1 ht ▸ haccepts)
    · exact .inl h
  · exact .inl h

theorem foldl_follow_sound (a : Automaton) (c : Char) (state : Workspace × Array Nat)
    (live : List Nat) (text : List Char)
    (h : a.AnyAccepts (live.foldl (a.follow c) state).2.toList text) :
    a.AnyAccepts state.2.toList text ∨ a.AnyAccepts live (c :: text) := by
  induction live generalizing state with
  | nil => exact .inl h
  | cons s live ih =>
    rcases ih _ h with hfound | ⟨t, ht, haccepts⟩
    · exact (follow_sound a c state s text hfound).imp id fun haccepts =>
        ⟨s, List.mem_cons_self, haccepts⟩
    · exact .inr ⟨t, List.mem_cons_of_mem s ht, haccepts⟩

/-- What is read behind a character is read with it from the states before. -/
theorem advance_sound (a : Automaton) (c : Char) (w : Workspace) (live : Array Nat)
    (text : List Char) (h : a.AnyAccepts (a.advance c w live).2.toList text) :
    a.AnyAccepts live.toList (c :: text) := by
  rw [advance, ← Array.foldl_toList] at h
  exact (foldl_follow_sound a c _ _ text h).resolve_left fun ⟨s, hs, _⟩ => by cases hs

theorem initial_sound (a : Automaton) (w : Workspace) (text : List Char)
    (h : a.AnyAccepts (a.initial w).2.toList text) : a.Accepts text := by
  rcases closure_sound a _ _ _ text h with ⟨s, hs, _⟩ | ⟨s, hs, haccepts⟩
  · cases hs
  · rwa [List.mem_singleton.1 hs] at haccepts

theorem anyAccepts_of_accepts (hzero : ∀ s, a.states[s]? = some .accept ↔ s = 0)
    (h : accepts live = true) : a.AnyAccepts live.toList [] :=
  ⟨0, Array.mem_toList_iff.2 (Array.contains_iff_mem.1 h), 0, .accept ((hzero 0).2 rfl)⟩

theorem scan_sound (hzero : ∀ s, a.states[s]? = some .accept ↔ s = 0) (w : Workspace)
    (live : Array Nat) (size : Nat) (longest : Option Nat) (text : List Char) {n : Nat}
    (h : (a.scan w live size longest text).1 = some n) :
    longest = some n ∨ ∃ u, u <+: text ∧ a.AnyAccepts live.toList u ∧ n = size + Text.size u := by
  induction text generalizing w live size longest with
  | nil => exact .inl h
  | cons c rest ih =>
    rw [scan] at h
    dsimp only at h
    split at h
    · exact .inl h
    · rcases ih _ _ _ _ h with hfound | ⟨u, hu, haccepts, rfl⟩
      · split at hfound
        · next hc =>
          refine .inr ⟨[c], by simp, advance_sound a c w live [] (anyAccepts_of_accepts hzero hc), ?_⟩
          rw [← Option.some.inj hfound]
          simp
        · exact .inl hfound
      · refine .inr ⟨c :: u, (List.prefix_cons_inj c).2 hu, advance_sound a c w live u haccepts, ?_⟩
        rw [Text.size_cons, Nat.add_assoc]

/-- Whatever became of the stamps, a match is the length of a first part that is accepted. -/
theorem longestMatch_sound (hzero : ∀ s, a.states[s]? = some .accept ↔ s = 0) {n : Nat}
    (h : (a.longestMatch w text).1 = some n) :
    ∃ u, u <+: text ∧ a.Accepts u ∧ n = Text.size u := by
  rcases scan_sound hzero _ _ _ _ text h with hfound | ⟨u, hu, haccepts, rfl⟩
  · split at hfound
    · next hstart =>
      exact ⟨[], List.nil_prefix, initial_sound a w [] (anyAccepts_of_accepts hzero hstart),
        (Option.some.inj hfound).symm⟩
    · cases hfound
  · exact ⟨u, hu, initial_sound a w u haccepts, Nat.zero_add _⟩

/-! ## Live states -/

/-- Between two characters: the live states are such as read or accept, and there is room for the
marks. -/
structure Live (a : Automaton) (w : Workspace) (live : Array Nat) : Prop where
  room : a.states.size ≤ w.marks.size
  dated : w.Dated
  live_ne : ∀ s ∈ live, ∀ l r, a.states[s]? ≠ some (.fork l r)

theorem Traversal.toLive (h : a.Traversal w live []) (hw : w.Dated) : a.Live w live :=
  ⟨h.room, hw, h.found_ne⟩

/-- With no marks at all nothing has been met. -/
theorem traversal_of_clear (hw : w.Clear) (hroom : a.states.size ≤ w.marks.size) :
    a.Traversal w #[] [] :=
  ⟨hroom, fun _ _ _ h => absurd h hw.not_marked, fun _ h => absurd h hw.not_marked, nofun⟩

/-- The states that were met hold nothing that the states found do not hold. -/
theorem Traversal.any_of_marked (h : a.Traversal w found []) (hs : w.Marked s)
    (haccepts : AcceptsFrom a.states s text) : a.AnyAccepts found.toList text := by
  obtain ⟨n, hr⟩ := haccepts
  have hfound : ∀ {s n text}, w.Marked s → Runs a.states n s text →
      (∀ l r, a.states[s]? ≠ some (.fork l r)) → a.AnyAccepts found.toList text := by
    intro s n text hs hr hne
    rcases h.others s hs with ⟨l, r, hfork⟩ | hmem
    · exact absurd hfork (hne l r)
    · exact ⟨s, Array.mem_toList_iff.2 hmem, n, hr⟩
  have hseen : ∀ {t n text}, a.Seen w [] t → Runs a.states n t text →
      (w.Marked t → a.AnyAccepts found.toList text) → a.AnyAccepts found.toList text := by
    rintro t n text (hnone | hmarked | hmem) hr hany
    · cases hr with
      | accept h' | read h' | left h' | right h' =>
        rw [hnone] at h'
        cases h'
    · exact hany hmarked
    · cases hmem
  induction hr with
  | accept hstate => exact hfound hs (.accept hstate) (by simp [hstate])
  | read hstate hc hrest => exact hfound hs (.read hstate hc hrest) (by simp [hstate])
  | left hstate hrest ih => exact hseen (h.forks _ _ _ hs hstate).1 hrest ih
  | right hstate hrest ih => exact hseen (h.forks _ _ _ hs hstate).2 hrest ih

/-- What is found reads what was found before, and what the states of the stack read. -/
theorem any_closure (h : a.Closes w found stack (a.closure w found stack).1
    (a.closure w found stack).2) :
    a.AnyAccepts (a.closure w found stack).2.toList text ↔
      a.AnyAccepts found.toList text ∨ a.AnyAccepts stack text := by
  refine ⟨closure_sound a w found stack text, ?_⟩
  rintro (⟨s, hs, haccepts⟩ | ⟨s, hs, haccepts⟩)
  · exact ⟨s, Array.mem_toList_iff.2 (h.kept s (Array.mem_toList_iff.1 hs)), haccepts⟩
  · rcases h.seen s hs with hnone | hmarked | hmem
    · obtain ⟨n, hr⟩ := haccepts
      cases hr with
      | accept h' | read h' | left h' | right h' =>
        rw [hnone] at h'
        cases h'
    · exact h.traversal.any_of_marked hmarked haccepts
    · cases hmem

/-- A traversal goes on with one more state. -/
theorem Traversal.push (h : a.Traversal w found []) (s : Nat) : a.Traversal w found [s] := by
  have hseen : ∀ t, a.Seen w [] t → a.Seen w [s] t := fun t ht => ht.imp id nofun
  exact ⟨h.room, fun t l r ht hstate => (h.forks t l r ht hstate).imp (hseen l) (hseen r),
    h.others, h.found_ne⟩

/-- The states before the first character. -/
theorem live_initial (a : Automaton) (hw : w.Dated) :
    a.Live (a.initial w).1 (a.initial w).2 ∧
      ∀ text, a.AnyAccepts (a.initial w).2.toList text ↔ a.Accepts text := by
  have hclear := hw.reset a.states.size
  have hcloses := closes_closure ((traversal_of_clear hclear (w.le_size_reset _)).push a.start)
  refine ⟨hcloses.traversal.toLive (hcloses.dated hclear.dated), fun text => (any_closure hcloses).trans ?_⟩
  simp [AnyAccepts, Accepts]

/-- The states behind a character from one of the live ones. -/
theorem follow_spec (h : a.Traversal w found []) (c : Char)
    (hs : ∀ l r, a.states[s]? ≠ some (.fork l r)) :
    a.Traversal (a.follow c (w, found) s).1 (a.follow c (w, found) s).2 [] ∧
      (w.Dated → (a.follow c (w, found) s).1.Dated) ∧
      ∀ text, a.AnyAccepts (a.follow c (w, found) s).2.toList text ↔
        a.AnyAccepts found.toList text ∨ AcceptsFrom a.states s (c :: text) := by
  -- A state that does not read the character adds nothing.
  have hidle : (∀ text, ¬ AcceptsFrom a.states s (c :: text)) →
      a.Traversal w found [] ∧ (w.Dated → w.Dated) ∧ ∀ text,
        a.AnyAccepts found.toList text ↔
          a.AnyAccepts found.toList text ∨ AcceptsFrom a.states s (c :: text) :=
    fun hnone => ⟨h, id, fun text => by simp [hnone text]⟩
  rw [follow]
  split
  · next cls next hstate =>
    have hread : ∀ text, AcceptsFrom a.states s (c :: text) ↔
        cls.accepts c = true ∧ AcceptsFrom a.states next text := by
      intro text
      constructor
      · rintro ⟨n, hr⟩
        obtain ⟨m, c', rest, rfl, heq, hc, hrest⟩ := hr.of_read hstate
        cases heq
        exact ⟨hc, m, hrest⟩
      · rintro ⟨hc, hrest⟩
        exact .read hstate hc hrest
    split
    · next hc =>
      have hcloses := closes_closure (h.push next)
      refine ⟨hcloses.traversal, hcloses.dated, fun text => (any_closure hcloses).trans ?_⟩
      rw [hread, and_iff_right hc]
      simp [AnyAccepts]
    · next hc => exact hidle fun text haccepts => hc ((hread text).1 haccepts).1
  · next hother =>
    refine hidle fun text => ?_
    rintro ⟨n, hr⟩
    cases hr with
    | read hstate => exact hother _ _ hstate
    | left hstate | right hstate => exact hs _ _ hstate

/-- The states behind a character from some of the live ones. -/
theorem foldl_follow (h : a.Traversal w found []) (hw : w.Dated) (c : Char) (live : List Nat)
    (hlive : ∀ s ∈ live, ∀ l r, a.states[s]? ≠ some (.fork l r)) :
    a.Live (live.foldl (a.follow c) (w, found)).1 (live.foldl (a.follow c) (w, found)).2 ∧
      ∀ text, a.AnyAccepts (live.foldl (a.follow c) (w, found)).2.toList text ↔
        a.AnyAccepts found.toList text ∨ a.AnyAccepts live (c :: text) := by
  induction live generalizing w found with
  | nil => exact ⟨h.toLive hw, fun text => by simp [AnyAccepts]⟩
  | cons s live ih =>
    rw [List.forall_mem_cons] at hlive
    obtain ⟨htraversal, hdated, hany⟩ := follow_spec h c hlive.1
    obtain ⟨hlive', hany'⟩ := ih htraversal (hdated hw) hlive.2
    refine ⟨hlive', fun text => (hany' text).trans ?_⟩
    rw [hany]
    simp [AnyAccepts, or_assoc]

/-- The live states behind one more character, with a new stamp for it. -/
theorem live_advance (h : a.Live w live) (hw : w.Unspent) (c : Char) :
    a.Live (a.advance c w live).1 (a.advance c w live).2 ∧
      ∀ text, a.AnyAccepts (a.advance c w live).2.toList text ↔
        a.AnyAccepts live.toList (c :: text) := by
  have hclear := h.dated.fresh hw
  obtain ⟨hlive, hany⟩ := foldl_follow (traversal_of_clear hclear h.room) hclear.dated c live.toList
    fun s hs => h.live_ne s (Array.mem_toList_iff.1 hs)
  rw [advance, ← Array.foldl_toList]
  refine ⟨hlive, fun text => (hany text).trans ?_⟩
  simp [AnyAccepts]

/-- The accepting state is live when everything has been read. -/
theorem accepts_iff (h : a.Live w live) (hzero : ∀ s, a.states[s]? = some .accept ↔ s = 0) :
    accepts live = true ↔ a.AnyAccepts live.toList [] := by
  constructor
  · exact anyAccepts_of_accepts hzero
  · rintro ⟨s, hs, n, hr⟩
    rw [accepts, Array.contains_iff_mem]
    have hs := Array.mem_toList_iff.1 hs
    cases hr with
    | accept hstate => exact (hzero s).1 hstate ▸ hs
    | left hstate | right hstate => exact absurd hstate (h.live_ne s hs _ _)

/-! ## Stamps -/

theorem stamp_closure (a : Automaton) (w : Workspace) (found : Array Nat) (stack : List Nat) :
    (a.closure w found stack).1.stamp = w.stamp := by
  fun_induction closure a w found stack with
  | case1 => rfl
  | case2 w found s stack hs hmark l r hstate ih => exact ih
  | case3 w found s stack hs hmark state hother hstate ih => exact ih
  | case4 w found s stack hs hmark hstate ih => exact ih
  | case5 w found s stack hs hmark ih => exact ih
  | case6 w found s stack hs ih => exact ih

theorem stamp_follow (a : Automaton) (c : Char) (state : Workspace × Array Nat) (s : Nat) :
    (a.follow c state s).1.stamp = state.1.stamp := by
  rw [follow]
  split
  · split
    · exact stamp_closure ..
    · rfl
  · rfl

theorem stamp_foldl_follow (a : Automaton) (c : Char) (state : Workspace × Array Nat)
    (states : List Nat) : (states.foldl (a.follow c) state).1.stamp = state.1.stamp := by
  induction states generalizing state with
  | nil => rfl
  | cons s states ih => exact (ih _).trans (stamp_follow a c state s)

/-- A character takes one stamp. -/
theorem stamp_advance (a : Automaton) (c : Char) (w : Workspace) (live : Array Nat) :
    (a.advance c w live).1.stamp = w.stamp + 1 := by
  rw [advance, ← Array.foldl_toList]
  exact stamp_foldl_follow a c (w.fresh, #[]) live.toList

/-- The stamp before the first character. -/
theorem toNat_initial (a : Automaton) (w : Workspace) : (a.initial w).1.stamp.toNat
    = if Workspace.stampLimit.toNat ≤ w.stamp.toNat then 1 else w.stamp.toNat + 1 := by
  rw [initial, stamp_closure, Workspace.toNat_reset]
  exact if_congr UInt32.le_iff_toNat_le rfl rfl

/-- How many characters are looked at, from live states on, until no state is live. -/
def looks (a : Automaton) (w : Workspace) (live : Array Nat) : List Char → Nat
  | [] => 0
  | c :: rest =>
    let (w, live) := a.advance c w live
    if live.isEmpty then 1 else a.looks w live rest + 1

/-- From here on there are stamps enough for the text. -/
def Lasts (a : Automaton) (w : Workspace) (live : Array Nat) (text : List Char) : Prop :=
  w.stamp.toNat + a.looks w live text ≤ Workspace.counterMax

/-- There are stamps enough for a match: none is taken behind the last one. -/
def Fits (a : Automaton) (w : Workspace) (text : List Char) : Prop :=
  a.Lasts (a.initial w).1 (a.initial w).2 text

theorem looks_le_length (a : Automaton) (w : Workspace) (live : Array Nat) (text : List Char) :
    a.looks w live text ≤ text.length := by
  induction text generalizing w live with
  | nil => exact Nat.le_refl 0
  | cons c rest ih =>
    simp only [looks, List.length_cons]
    split
    · omega
    · exact Nat.succ_le_succ (ih ..)

/-- A new workspace has stamps enough for a text of less than `2 ^ 32 - 1` characters. -/
theorem fits_empty (h : text.length < Workspace.counterMax) : a.Fits .empty text := by
  have hlooks := a.looks_le_length (a.initial .empty).1 (a.initial .empty).2 text
  rw [Fits, Lasts, toNat_initial]
  exact (Nat.add_comm ..).trans_le (Nat.lt_of_le_of_lt hlooks h)

/-- Where there are stamps enough, there is one for the first character, and enough for the rest as
long as some state is live. -/
theorem Lasts.of_cons {rest : List Char} (h : a.Lasts w live (c :: rest)) : w.Unspent ∧
    (¬ (a.advance c w live).2.isEmpty = true →
      a.Lasts (a.advance c w live).1 (a.advance c w live).2 rest) := by
  simp only [Lasts, looks] at h
  have hunspent : w.Unspent := by
    unfold Workspace.Unspent
    split at h <;> omega
  refine ⟨hunspent, fun hsome => ?_⟩
  rw [if_neg hsome] at h
  rw [Lasts, stamp_advance, hunspent.toNat_add_one]
  omega

/-! ## The longest match -/

/-- What scanning finds: the longest first part that is read, or what was found before. -/
theorem scan_spec (h : a.Live w live) (hzero : ∀ s, a.states[s]? = some .accept ↔ s = 0)
    (size : Nat) (longest : Option Nat) (text : List Char) (hlasts : a.Lasts w live text) :
    (a.scan w live size longest text).2.Dated ∧
      ((a.scan w live size longest text).1 = longest ∧
          (∀ u, u <+: text → u ≠ [] → ¬ a.AnyAccepts live.toList u) ∨
        ∃ u, u ≠ [] ∧ IsLongest (a.AnyAccepts live.toList) text u ∧
          (a.scan w live size longest text).1 = some (size + Text.size u)) := by
  induction text generalizing w live size longest with
  | nil => exact ⟨h.dated, .inl ⟨rfl, fun u hu hne => absurd (List.prefix_nil.1 hu) hne⟩⟩
  | cons c rest ih =>
    obtain ⟨hunspent, hlasts⟩ := hlasts.of_cons
    obtain ⟨hlive, hany⟩ := live_advance h hunspent c
    rw [scan]
    -- A first part of the text is empty, or one of the rest behind the character.
    have hbehind : ∀ u, u <+: c :: rest → u ≠ [] → a.AnyAccepts live.toList u →
        ∃ v, u = c :: v ∧ v <+: rest ∧ a.AnyAccepts (a.advance c w live).2.toList v := by
      intro u hu hne haccepts
      rcases List.prefix_cons_iff.1 hu with rfl | ⟨v, rfl, hv⟩
      · exact absurd rfl hne
      · exact ⟨v, rfl, hv, (hany v).2 haccepts⟩
    dsimp only
    split
    · next hempty =>
      refine ⟨hlive.dated, .inl ⟨rfl, fun u hu hne haccepts => ?_⟩⟩
      obtain ⟨v, -, -, s, hs, -⟩ := hbehind u hu hne haccepts
      rw [Array.isEmpty_iff.1 hempty] at hs
      cases hs
    · next hsome =>
      obtain ⟨hdated, hscan⟩ := ih hlive (size + c.utf8Size)
        (if accepts (a.advance c w live).2 then some (size + c.utf8Size) else longest) (hlasts hsome)
      refine ⟨hdated, ?_⟩
      rcases hscan with ⟨hfound, hnone⟩ | ⟨v, hne, hv, hfound⟩
      · by_cases haccepts : accepts (a.advance c w live).2 = true
        · have hc := (hany []).1 ((accepts_iff hlive hzero).1 haccepts)
          refine .inr ⟨[c], List.cons_ne_nil c [], ⟨by simp, hc, fun u hu hmem => ?_⟩, ?_⟩
          · by_cases hu' : u = []
            · simp [hu']
            obtain ⟨v, rfl, hv, hmem'⟩ := hbehind u hu hu' hmem
            have hvnil : v = [] := by_contra fun hne => hnone v hv hne hmem'
            simp [hvnil]
          · rw [hfound, if_pos haccepts]
            simp
        · refine .inl ⟨by rw [hfound, if_neg haccepts], fun u hu hne hmem => ?_⟩
          obtain ⟨v, rfl, hv, hmem'⟩ := hbehind u hu hne hmem
          by_cases hvnil : v = []
          · exact haccepts ((accepts_iff hlive hzero).2 (hvnil ▸ hmem'))
          · exact hnone v hv hvnil hmem'
      · refine .inr ⟨c :: v, List.cons_ne_nil c v, ⟨?_, (hany v).1 hv.mem, fun u hu hmem => ?_⟩, ?_⟩
        · exact List.prefix_cons_inj c |>.2 hv.first
        · by_cases hu' : u = []
          · simp [hu']
          obtain ⟨v', rfl, hv', hmem'⟩ := hbehind u hu hu' hmem
          exact Nat.succ_le_succ (hv.le v' hv' hmem')
        · rw [hfound, Text.size_cons, Nat.add_assoc]

/-- What a longest match is: the length of the longest first part that is accepted, if there is
one. -/
theorem longestMatch_spec (hw : w.Dated) (hzero : ∀ s, a.states[s]? = some .accept ↔ s = 0)
    (hfits : a.Fits w text) :
    (a.longestMatch w text).2.Dated ∧
      ((a.longestMatch w text).1 = none ∧ (∀ u, u <+: text → ¬ a.Accepts u) ∨
        ∃ u, IsLongest a.Accepts text u ∧ (a.longestMatch w text).1 = some (Text.size u)) := by
  obtain ⟨hlive, hany⟩ := live_initial a hw
  have hsame : a.AnyAccepts (a.initial w).2.toList = a.Accepts :=
    funext fun text => propext (hany text)
  obtain ⟨hdated, hscan⟩ := scan_spec hlive hzero 0
    (if accepts (a.initial w).2 then some 0 else none) text hfits
  have hnil := accepts_iff hlive hzero
  rw [hsame] at hscan hnil
  refine ⟨hdated, ?_⟩
  rcases hscan with ⟨hfound, hnone⟩ | ⟨u, -, hu, hfound⟩
  · by_cases haccepts : accepts (a.initial w).2 = true
    · refine .inr ⟨[], ⟨List.nil_prefix, hnil.1 haccepts, fun u hu hmem => ?_⟩, ?_⟩
      · have hunil : u = [] := by_contra fun hne => hnone u hu hne hmem
        simp [hunil]
      · exact hfound.trans (if_pos haccepts)
    · refine .inl ⟨hfound.trans (if_neg haccepts), fun u hu hmem => ?_⟩
      by_cases hunil : u = []
      · exact haccepts (hnil.2 (hunil ▸ hmem))
      · exact hnone u hu hunil hmem
  · exact .inr ⟨u, hu, hfound.trans (by rw [Nat.zero_add])⟩

/-! ## Patterns -/

variable {p : Pattern}

/-- The longest match of a pattern, in any workspace that was used before and has stamps enough. -/
theorem longestMatch_ofPattern (hp : p.Proper) (hw : w.Dated)
    (hfits : (ofPattern p).Fits w text) :
    ((ofPattern p).longestMatch w text).2.Dated ∧
      (((ofPattern p).longestMatch w text).1 = none ∧ (∀ u, u <+: text → u ∉ p.language) ∨
        ∃ u, IsLongest p.language text u ∧
          ((ofPattern p).longestMatch w text).1 = some (Text.size u)) := by
  have hsame : (ofPattern p).Accepts = p.language :=
    funext fun text => propext (accepts_ofPattern hp)
  have hspec := longestMatch_spec hw (fun s => accept_ofPattern (s := s) hp) hfits
  rwa [hsame] at hspec

/-- The test for the empty text is right. -/
theorem matchesEmpty_iff (hp : p.Proper) :
    (ofPattern p).matchesEmpty = true ↔ [] ∈ p.language := by
  obtain ⟨hlive, hany⟩ := live_initial (ofPattern p) Workspace.dated_empty
  rw [matchesEmpty, accepts_iff hlive fun s => accept_ofPattern (s := s) hp, hany,
    accepts_ofPattern hp]

/-- A text of the pattern begins with a character that the automaton can start with. -/
theorem canStartWith_of_mem (hp : p.Proper) (h : c :: text ∈ p.language) :
    (ofPattern p).canStartWith c = true := by
  let bare : Automaton := ⟨(ofPattern p).states, (ofPattern p).start, []⟩
  obtain ⟨hlive, hany⟩ := live_initial bare Workspace.dated_empty
  obtain ⟨s, hs, n, hr⟩ := (hany (c :: text)).2 ((accepts_ofPattern hp).2 h)
  have hclass : ∃ cls, bare.class? s = some cls ∧ cls.accepts c = true := by
    cases hr with
    | @read _ _ _ cls _ _ hstate hc => exact ⟨cls, by rw [class?, hstate], hc⟩
    | left hstate | right hstate =>
      exact absurd hstate (hlive.live_ne s (Array.mem_toList_iff.1 hs) _ _)
  obtain ⟨cls, hcls, hc⟩ := hclass
  exact List.any_eq_true.2 ⟨cls, List.mem_filterMap.2 ⟨s, hs, hcls⟩, hc⟩

end Automaton

end FrontEnd
