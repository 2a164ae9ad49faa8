import FrontEnd.Pattern.Automaton
import FrontEnd.Proofs.Pattern.Language

/-!
# The automaton of a pattern

Each pattern becomes a piece of the array of states: from its first state the piece reads a text of
the pattern and leaves to the state behind it. What stands in the array outside of the piece does not
matter.

- `Automaton.Runs`: a way through the states that reads a text and ends in the accepting state;
- `Automaton.Piece`: what the states of a pattern are good for;
- `Automaton.accepts_ofPattern`: **the automaton accepts the texts of the pattern**.
-/

namespace FrontEnd

open Computability

namespace Automaton

/-- A way of so many steps from the state `s` to an accepting state reads the text. -/
inductive Runs (states : Array AutomatonState) : Nat → Nat → List Char → Prop where
  | accept {s : Nat} (h : states[s]? = some .accept) : Runs states 0 s []
  | read {n s next : Nat} {cls : CharClass} {c : Char} {text : List Char}
    (h : states[s]? = some (.read cls next)) (hc : cls.accepts c = true)
    (hrest : Runs states n next text) : Runs states (n + 1) s (c :: text)
  | left {n s l r : Nat} {text : List Char} (h : states[s]? = some (.fork l r))
    (hrest : Runs states n l text) : Runs states (n + 1) s text
  | right {n s l r : Nat} {text : List Char} (h : states[s]? = some (.fork l r))
    (hrest : Runs states n r text) : Runs states (n + 1) s text

/-- From the state `s` the text can be read. -/
def AcceptsFrom (states : Array AutomatonState) (s : Nat) (text : List Char) : Prop :=
  ∃ n, Runs states n s text

/-- The text is accepted. -/
def Accepts (a : Automaton) (text : List Char) : Prop := AcceptsFrom a.states a.start text

variable {states states' final : Array AutomatonState} {n s out next l r : Nat} {text u v : List Char}
  {cls : CharClass} {c : Char} {L L' : Language Char} {built built' : Nat × Array AutomatonState}

theorem AcceptsFrom.read (h : states[s]? = some (.read cls next)) (hc : cls.accepts c = true)
    (hrest : AcceptsFrom states next text) : AcceptsFrom states s (c :: text) :=
  hrest.imp' _ fun _ hr => .read h hc hr

theorem AcceptsFrom.left (h : states[s]? = some (.fork l r)) (hrest : AcceptsFrom states l text) :
    AcceptsFrom states s text :=
  hrest.imp' _ fun _ hr => .left h hr

theorem AcceptsFrom.right (h : states[s]? = some (.fork l r)) (hrest : AcceptsFrom states r text) :
    AcceptsFrom states s text :=
  hrest.imp' _ fun _ hr => .right h hr

theorem Runs.of_read (hr : Runs states n s text) (h : states[s]? = some (.read cls next)) :
    ∃ m c rest, n = m + 1 ∧ text = c :: rest ∧ cls.accepts c = true ∧ Runs states m next rest := by
  cases hr with
  | read h' hc hrest =>
    rw [h] at h'
    cases h'
    exact ⟨_, _, _, rfl, rfl, hc, hrest⟩
  | accept h' | left h' | right h' =>
    rw [h] at h'
    cases h'

theorem Runs.of_fork (hr : Runs states n s text) (h : states[s]? = some (.fork l r)) :
    ∃ m, n = m + 1 ∧ (Runs states m l text ∨ Runs states m r text) := by
  cases hr with
  | left h' hrest =>
    rw [h] at h'
    cases h'
    exact ⟨_, rfl, .inl hrest⟩
  | right h' hrest =>
    rw [h] at h'
    cases h'
    exact ⟨_, rfl, .inr hrest⟩
  | accept h' | read h' =>
    rw [h] at h'
    cases h'

theorem Runs.of_accept (hr : Runs states n s text) (h : states[s]? = some .accept) : text = [] := by
  cases hr with
  | accept => rfl
  | read h' | left h' | right h' =>
    rw [h] at h'
    cases h'

/-! ## Pieces -/

/-- Any way from the first state of the piece reads a text of the language and then goes on behind
the piece. -/
def Reads (final : Array AutomatonState) (start out : Nat) (L : Language Char) : Prop :=
  ∀ n text, Runs final n start text →
    ∃ u v m, text = u ++ v ∧ u ∈ L ∧ m ≤ n ∧ Runs final m out v

/-- Every text of the language can be read on the way to what stands behind the piece. -/
def Offers (final : Array AutomatonState) (start out : Nat) (L : Language Char) : Prop :=
  ∀ u v, u ∈ L → AcceptsFrom final out v → AcceptsFrom final start (u ++ v)

/-- States were added to `states` that read the texts of `L` and go on to the state `out`, in every
array that has the new states. -/
structure Piece (out : Nat) (states : Array AutomatonState) (L : Language Char)
    (built : Nat × Array AutomatonState) : Prop where
  le : states.size ≤ built.2.size
  old : ∀ i < states.size, built.2[i]? = states[i]?
  inner : ∀ i, states.size ≤ i → built.2[i]? ≠ some .accept
  reads : ∀ final, (∀ i, states.size ≤ i → i < built.2.size → final[i]? = built.2[i]?) →
    Reads final built.1 out L
  offers : ∀ final, (∀ i, states.size ≤ i → i < built.2.size → final[i]? = built.2[i]?) →
    Offers final built.1 out L

namespace Piece

theorem skip (out : Nat) (states : Array AutomatonState) : Piece out states 1 (out, states) where
  le := Nat.le_refl _
  old _ _ := rfl
  inner i hi := by simp [hi]
  reads _ _ n text h := ⟨[], text, n, rfl, Language.nil_mem_one, Nat.le_refl n, h⟩
  offers _ _ := by
    rintro u v rfl h
    exact h

/-- One state more. -/
theorem getElem?_push_of_lt (states : Array AutomatonState) (state : AutomatonState) {i : Nat}
    (hi : i < states.size) : (states.push state)[i]? = states[i]? := by
  rw [Array.getElem?_push, if_neg (Nat.ne_of_lt hi)]

theorem read (out : Nat) (states : Array AutomatonState) (cls : CharClass) :
    Piece out states cls.language (states.size, states.push (.read cls out)) where
  le := by simp
  old i hi := getElem?_push_of_lt states _ hi
  inner i hi := by
    rw [Array.getElem?_push]
    split
    · simp
    · simp [hi]
  reads final hfinal n text h := by
    have hstate := hfinal states.size (Nat.le_refl _) (by simp)
    rw [Array.getElem?_push_size] at hstate
    obtain ⟨m, c, rest, rfl, rfl, hc, hrest⟩ := h.of_read hstate
    exact ⟨[c], rest, m, rfl, ⟨c, hc, rfl⟩, Nat.le_succ m, hrest⟩
  offers final hfinal := by
    rintro u v ⟨c, hc, rfl⟩ h
    have hstate := hfinal states.size (Nat.le_refl _) (by simp)
    rw [Array.getElem?_push_size] at hstate
    exact .read hstate hc h

/-- One piece in front of another. -/
theorem concat (h : Piece out states L built) (h' : Piece built.1 built.2 L' built') :
    Piece out states (L' * L) built' where
  le := h.le.trans h'.le
  old i hi := (h'.old i (hi.trans_le h.le)).trans (h.old i hi)
  inner i hi := by
    by_cases hi' : i < built.2.size
    · rw [h'.old i hi']
      exact h.inner i hi
    · exact h'.inner i (Nat.le_of_not_lt hi')
  reads final hfinal n text hr := by
    obtain ⟨u, v, m, rfl, hu, hm, hv⟩ := h'.reads final (fun i hi => hfinal i (h.le.trans hi)) n text hr
    obtain ⟨u', v', m', rfl, hu', hm', hv'⟩ := h.reads final (fun i hi hi' => by
      rw [hfinal i hi (hi'.trans_le h'.le), h'.old i hi']) m v hv
    exact ⟨u ++ u', v', m', (List.append_assoc u u' v').symm, Language.append_mem_mul hu hu',
      hm'.trans hm, hv'⟩
  offers final hfinal := by
    intro u v hu hv
    obtain ⟨u₁, hu₁, u₂, hu₂, rfl⟩ := Language.mem_mul.1 hu
    rw [List.append_assoc]
    refine h'.offers final (fun i hi => hfinal i (h.le.trans hi)) u₁ _ hu₁ ?_
    exact h.offers final (fun i hi hi' => by
      rw [hfinal i hi (hi'.trans_le h'.le), h'.old i hi']) u₂ v hu₂ hv

/-- The array with two pieces and a fork. -/
theorem fork_agrees (h : Piece out states L built) (h' : Piece out built.2 L' built')
    (hfinal : ∀ i, states.size ≤ i → i < (built'.2.push (.fork built.1 built'.1)).size →
      final[i]? = (built'.2.push (.fork built.1 built'.1))[i]?) :
    final[built'.2.size]? = some (.fork built.1 built'.1) ∧
      (∀ i, states.size ≤ i → i < built.2.size → final[i]? = built.2[i]?) ∧
      ∀ i, built.2.size ≤ i → i < built'.2.size → final[i]? = built'.2[i]? := by
  have hle := h.le.trans h'.le
  rw [Array.size_push] at hfinal
  refine ⟨?_, fun i hi hi' => ?_, fun i hi hi' => ?_⟩
  · rw [hfinal _ hle (Nat.lt_succ_self _), Array.getElem?_push_size]
  · have hlt := hi'.trans_le h'.le
    rw [hfinal i hi (Nat.lt_succ_of_lt hlt), getElem?_push_of_lt _ _ hlt, h'.old i hi']
  · rw [hfinal i (h.le.trans hi) (Nat.lt_succ_of_lt hi'), getElem?_push_of_lt _ _ hi']

/-- Two pieces with a fork in front. -/
theorem fork (h : Piece out states L built) (h' : Piece out built.2 L' built') :
    Piece out states (L + L') (built'.2.size, built'.2.push (.fork built.1 built'.1)) where
  le := by
    rw [Array.size_push]
    exact (h.le.trans h'.le).trans (Nat.le_succ _)
  old i hi := by
    rw [getElem?_push_of_lt _ _ (hi.trans_le (h.le.trans h'.le)), h'.old i (hi.trans_le h.le),
      h.old i hi]
  inner i hi := by
    rw [Array.getElem?_push]
    split
    · simp
    · by_cases hi' : i < built.2.size
      · rw [h'.old i hi']
        exact h.inner i hi
      · exact h'.inner i (Nat.le_of_not_lt hi')
  reads final hfinal n text hr := by
    obtain ⟨hfork, hleft, hright⟩ := fork_agrees h h' hfinal
    obtain ⟨m, rfl, hr | hr⟩ := hr.of_fork hfork
    · obtain ⟨u, v, k, rfl, hu, hk, hv⟩ := h.reads final hleft m text hr
      exact ⟨u, v, k, rfl, .inl hu, hk.trans (Nat.le_succ m), hv⟩
    · obtain ⟨u, v, k, rfl, hu, hk, hv⟩ := h'.reads final hright m text hr
      exact ⟨u, v, k, rfl, .inr hu, hk.trans (Nat.le_succ m), hv⟩
  offers final hfinal := by
    obtain ⟨hfork, hleft, hright⟩ := fork_agrees h h' hfinal
    rintro u v (hu | hu) hv
    · exact .left hfork (h.offers final hleft u v hu hv)
    · exact .right hfork (h'.offers final hright u v hu hv)

/-! ### Loops -/

/-- The array with the piece of a loop. -/
theorem loop_agrees (h : Piece states.size (states.push (.fork 0 out)) L built)
    (hfinal : ∀ i, states.size ≤ i → i < (built.2.setIfInBounds states.size
      (.fork built.1 out)).size → final[i]? =
        (built.2.setIfInBounds states.size (.fork built.1 out))[i]?) :
    final[states.size]? = some (.fork built.1 out) ∧
      ∀ i, (states.push (.fork 0 out)).size ≤ i → i < built.2.size → final[i]? = built.2[i]? := by
  have hle := h.le
  rw [Array.size_push] at hle ⊢
  rw [Array.size_setIfInBounds] at hfinal
  constructor
  · rw [hfinal _ (Nat.le_refl _) hle, Array.getElem?_setIfInBounds_self_of_lt hle]
  · intro i hi hi'
    rw [hfinal i (by omega) hi', Array.getElem?_setIfInBounds_ne (by omega)]

/-- A way from the loop goes around so many times and leaves. -/
theorem reads_loop {loop body : Nat} (hfork : final[loop]? = some (.fork body out))
    (hbody : Reads final body loop L) : Reads final loop out L∗ := by
  intro n
  induction n using Nat.strongRecOn with
  | _ n ih =>
    intro text hr
    obtain ⟨m, rfl, hr | hr⟩ := hr.of_fork hfork
    · obtain ⟨u, v, k, rfl, hu, hk, hv⟩ := hbody m text hr
      obtain ⟨u', v', k', rfl, hu', hk', hv'⟩ := ih k (Nat.lt_succ_of_le hk) v hv
      refine ⟨u ++ u', v', k', (List.append_assoc u u' v').symm, ?_, by omega, hv'⟩
      exact (mul_kstar_le_kstar : L * L∗ ≤ L∗) (Language.append_mem_mul hu hu')
    · exact ⟨[], text, m, rfl, Language.nil_mem_kstar L, Nat.le_succ m, hr⟩

theorem offers_loop {loop body : Nat} (hfork : final[loop]? = some (.fork body out))
    (hbody : Offers final body loop L) : Offers final loop out L∗ := by
  intro u v hu hv
  obtain ⟨parts, rfl, hparts⟩ := Language.mem_kstar.1 hu
  clear hu
  induction parts with
  | nil => exact .right hfork hv
  | cons part parts ih =>
    rw [List.forall_mem_cons] at hparts
    rw [List.flatten_cons, List.append_assoc]
    exact .left hfork (hbody part _ hparts.1 (ih hparts.2))

/-- A piece that goes back to a fork in front of it. -/
theorem star (h : Piece states.size (states.push (.fork 0 out)) L built) :
    Piece out states L∗
      (states.size, built.2.setIfInBounds states.size (.fork built.1 out)) where
  le := by
    have hle := h.le
    rw [Array.size_push] at hle
    rw [Array.size_setIfInBounds]
    omega
  old i hi := by
    rw [Array.getElem?_setIfInBounds_ne (Nat.ne_of_gt hi), h.old i (by rw [Array.size_push]; omega),
      getElem?_push_of_lt _ _ hi]
  inner i hi := by
    rw [Array.getElem?_setIfInBounds]
    split
    · split <;> simp
    · exact h.inner i (by rw [Array.size_push]; omega)
  reads final hfinal := by
    obtain ⟨hfork, hbody⟩ := loop_agrees h hfinal
    exact reads_loop hfork (h.reads final hbody)
  offers final hfinal := by
    obtain ⟨hfork, hbody⟩ := loop_agrees h hfinal
    exact offers_loop hfork (h.offers final hbody)

/-- A piece with a fork behind it that goes back. -/
theorem plus (h : Piece states.size (states.push (.fork 0 out)) L built) :
    Piece out states (L * L∗) (built.1, built.2.setIfInBounds states.size (.fork built.1 out)) where
  le := h.star.le
  old := h.star.old
  inner := h.star.inner
  reads final hfinal n text hr := by
    obtain ⟨hfork, hbody⟩ := loop_agrees h hfinal
    obtain ⟨u, v, m, rfl, hu, hm, hv⟩ := h.reads final hbody n text hr
    obtain ⟨u', v', m', rfl, hu', hm', hv'⟩ := reads_loop hfork (h.reads final hbody) m v hv
    exact ⟨u ++ u', v', m', (List.append_assoc u u' v').symm, Language.append_mem_mul hu hu',
      hm'.trans hm, hv'⟩
  offers final hfinal u v hu hv := by
    obtain ⟨hfork, hbody⟩ := loop_agrees h hfinal
    obtain ⟨u₁, hu₁, u₂, hu₂, rfl⟩ := Language.mem_mul.1 hu
    rw [List.append_assoc]
    exact h.offers final hbody u₁ _ hu₁ (offers_loop hfork (h.offers final hbody) u₂ v hu₂ hv)

end Piece

/-! ## Patterns -/

mutual

/-- What is built for a pattern is a piece for its texts. -/
theorem piece_build (out : Nat) (states : Array AutomatonState) :
    (p : Pattern) → p.Proper → Piece out states p.language (build out states p)
  | .empty, _ => by
    rw [build, Pattern.language]
    exact .skip out states
  | .chars cls, _ => by
    rw [build, Pattern.language]
    exact .read out states cls
  | .concat parts, h => by
    rw [build, Pattern.language]
    rw [Pattern.Proper] at h
    exact piece_buildConcat out states parts h
  | .alt alternatives, h => by
    rw [build, Pattern.language]
    rw [Pattern.Proper] at h
    exact piece_buildAlt out states alternatives h.1 h.2
  | .opt inner, h => by
    rw [build, Pattern.language]
    rw [Pattern.Proper] at h
    exact (piece_build out states inner h).fork (.skip out _)
  | .star inner, h => by
    rw [build, Pattern.language]
    rw [Pattern.Proper] at h
    exact (piece_build _ _ inner h).star
  | .plus inner, h => by
    rw [build, Pattern.language]
    rw [Pattern.Proper] at h
    exact (piece_build _ _ inner h).plus

theorem piece_buildConcat (out : Nat) (states : Array AutomatonState) :
    (ps : List Pattern) → Pattern.AllProper ps →
      Piece out states (Pattern.languageConcat ps) (buildConcat out states ps)
  | [], _ => by
    rw [buildConcat, Pattern.languageConcat]
    exact .skip out states
  | p :: ps, h => by
    rw [buildConcat, Pattern.languageConcat]
    rw [Pattern.AllProper] at h
    exact (piece_buildConcat out states ps h.2).concat (piece_build _ _ p h.1)

theorem piece_buildAlt (out : Nat) (states : Array AutomatonState) :
    (ps : List Pattern) → ps ≠ [] → Pattern.AllProper ps →
      Piece out states (Pattern.languageAlt ps) (buildAlt out states ps)
  | [], hne, _ => absurd rfl hne
  | [p], _, h => by
    rw [buildAlt, Pattern.languageAlt, Pattern.languageAlt, add_zero]
    rw [Pattern.AllProper] at h
    exact piece_build out states p h.1
  | p :: p' :: ps, _, h => by
    rw [buildAlt, Pattern.languageAlt]
    rw [Pattern.AllProper] at h
    · exact (piece_build out states p h.1).fork
        (piece_buildAlt out _ (p' :: ps) (List.cons_ne_nil p' ps) h.2)
    · exact nofun

end

/-- The automaton of a pattern, seen from its states. -/
theorem piece_ofPattern {p : Pattern} (h : p.Proper) :
    Piece 0 #[.accept] p.language ((ofPattern p).start, (ofPattern p).states) :=
  piece_build 0 #[.accept] p h

/-- The only accepting state is the first one. -/
theorem accept_ofPattern {p : Pattern} (h : p.Proper) :
    (ofPattern p).states[s]? = some .accept ↔ s = 0 := by
  constructor
  · intro hs
    by_contra hne
    exact (piece_ofPattern h).inner s (Nat.one_le_iff_ne_zero.2 hne) hs
  · rintro rfl
    exact (piece_ofPattern h).old 0 Nat.one_pos

/-- The automaton accepts the texts of the pattern. -/
theorem accepts_ofPattern {p : Pattern} (h : p.Proper) :
    (ofPattern p).Accepts text ↔ text ∈ p.language := by
  have hpiece := piece_ofPattern h
  have haccept := (accept_ofPattern (s := 0) h).2 rfl
  constructor
  · rintro ⟨n, hr⟩
    obtain ⟨u, v, m, rfl, hu, -, hv⟩ := hpiece.reads _ (fun _ _ _ => rfl) n text hr
    rw [hv.of_accept haccept, List.append_nil]
    exact hu
  · intro hu
    have hend : AcceptsFrom (ofPattern p).states 0 [] := ⟨0, .accept haccept⟩
    have hall := hpiece.offers _ (fun _ _ _ => rfl) text [] hu hend
    rwa [List.append_nil] at hall

end Automaton

end FrontEnd
