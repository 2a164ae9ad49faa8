import FrontEnd.Pattern.Reader
import FrontEnd.Proofs.Pattern.Overflow

/-!
# What is read is proper

A group has an alternative as soon as it is closed, because the one that is being read counts as
well. So no pattern that is read has a choice without alternatives.

- `PatternReader.Proper`: all that has been read so far is proper;
- `Pattern.proper_ofString`: **a pattern that is read is proper**;
- `Pattern.matching_ofString`: so its automaton finds the longest first part of a text that the
  pattern stands for, whatever operators are nested in each other, **as long as there are stamps
  enough**;
- `Pattern.matching_exhausted`: a text for which there are not.
-/

namespace FrontEnd

namespace Pattern

theorem allProper_iff {ps : List Pattern} : AllProper ps ↔ ∀ p ∈ ps, p.Proper := by
  induction ps with
  | nil => simp [AllProper]
  | cons p ps ih => rw [AllProper, ih, List.forall_mem_cons]

theorem proper_sequence {ps : List Pattern} (h : ∀ p ∈ ps, p.Proper) : (sequence ps).Proper := by
  match ps with
  | [] => exact trivial
  | [p] => exact h p List.mem_cons_self
  | p :: q :: ps => exact allProper_iff.2 h

theorem proper_choice {ps : List Pattern} (hne : ps ≠ []) (h : ∀ p ∈ ps, p.Proper) :
    (choice ps).Proper := by
  match ps with
  | [] => exact absurd rfl hne
  | [p] => exact h p List.mem_cons_self
  | p :: q :: ps => exact ⟨hne, allProper_iff.2 h⟩

end Pattern

namespace PatternGroup

/-- The parts of the group are proper. -/
structure Proper (g : PatternGroup) : Prop where
  alternatives : ∀ p ∈ g.alternatives, p.Proper
  parts : ∀ p ∈ g.parts, p.Proper

variable {g : PatternGroup} {p : Pattern}

theorem proper_opened (offset : Nat) : (opened offset).Proper := ⟨nofun, nofun⟩

theorem Proper.add (h : g.Proper) (hp : p.Proper) : (g.add p).Proper :=
  ⟨h.alternatives, List.forall_mem_cons.2 ⟨hp, h.parts⟩⟩

theorem Proper.endAlternative (h : g.Proper) : g.endAlternative.Proper :=
  ⟨List.forall_mem_cons.2 ⟨Pattern.proper_sequence fun p hp =>
    h.parts p (List.mem_reverse.1 hp), h.alternatives⟩, nofun⟩

theorem Proper.toPattern (h : g.Proper) : g.toPattern.Proper := by
  refine Pattern.proper_choice ?_ fun p hp => h.endAlternative.alternatives p (List.mem_reverse.1 hp)
  simp [PatternGroup.endAlternative]

end PatternGroup

namespace PatternReader

/-- All that has been read so far is proper. -/
structure Proper (r : PatternReader) : Prop where
  group : r.group.Proper
  outer : ∀ g ∈ r.outer, g.Proper

variable {r r' : PatternReader} {p : Pattern} {c op : Char}

theorem proper_start : start.Proper := ⟨PatternGroup.proper_opened 0, nofun⟩

theorem Proper.add (h : r.Proper) (hp : p.Proper) : (r.add p).Proper := ⟨h.group.add hp, h.outer⟩

theorem Proper.repeatLast (h : r.Proper) {wrap : Pattern → Pattern}
    (hwrap : ∀ p : Pattern, p.Proper → (wrap p).Proper) (hr : r.repeatLast op wrap = .ok r') :
    r'.Proper := by
  unfold PatternReader.repeatLast at hr
  split at hr
  · cases hr
  · next p parts hparts =>
    cases hr
    have hall := h.group.parts
    rw [hparts, List.forall_mem_cons] at hall
    exact ⟨⟨h.group.alternatives, List.forall_mem_cons.2 ⟨hwrap p hall.1, hall.2⟩⟩, h.outer⟩

theorem Proper.readPlain (h : r.Proper) (hr : r.readPlain c = .ok r') : r'.Proper := by
  unfold PatternReader.readPlain at hr
  split at hr
  · cases hr
    exact ⟨h.group.endAlternative, h.outer⟩
  · cases hr
    exact ⟨PatternGroup.proper_opened _, List.forall_mem_cons.2 ⟨h.group, h.outer⟩⟩
  · split at hr
    · cases hr
    · next g outer houter =>
      cases hr
      have hall := h.outer
      rw [houter, List.forall_mem_cons] at hall
      exact ⟨hall.1.add h.group.toPattern, hall.2⟩
  · cases hr
    exact ⟨h.group, h.outer⟩
  · cases hr
    exact ⟨h.group, h.outer⟩
  · cases hr
    exact h.add trivial
  · exact h.repeatLast (by exact fun _ => id) hr
  · exact h.repeatLast (by exact fun _ => id) hr
  · exact h.repeatLast (by exact fun _ => id) hr
  · cases hr
    exact h.add trivial

theorem Proper.read (h : r.Proper) (hr : r.read c = .ok r') : r'.Proper := by
  unfold PatternReader.read at hr
  split at hr
  · exact h.readPlain hr
  · cases hcls : escapedClass c with
    | error e =>
      rw [hcls] at hr
      cases hr
    | ok cls =>
      rw [hcls] at hr
      cases hr
      exact h.add trivial
  · next reader hplace =>
    cases hstep : reader.step c with
    | error e =>
      rw [hstep] at hr
      cases hr
    | ok made =>
      rw [hstep] at hr
      cases made with
      | inl reader =>
        cases hr
        exact ⟨h.group, h.outer⟩
      | inr cls =>
        cases hr
        exact h.add trivial

theorem Proper.step (h : r.Proper) (hr : r.step c = .ok r') : r'.Proper := by
  unfold PatternReader.step at hr
  cases hread : r.read c with
  | error e =>
    rw [hread] at hr
    cases hr
  | ok r₁ =>
    rw [hread] at hr
    cases hr
    exact ⟨(h.read hread).group, (h.read hread).outer⟩

theorem Proper.foldlM (h : r.Proper) {cs : List Char}
    (hr : cs.foldlM PatternReader.step r = .ok r') : r'.Proper := by
  induction cs generalizing r with
  | nil =>
    cases hr
    exact h
  | cons c cs ih =>
    rw [List.foldlM_cons] at hr
    cases hstep : r.step c with
    | error e =>
      rw [hstep] at hr
      cases hr
    | ok r₁ =>
      rw [hstep] at hr
      exact ih (h.step hstep) hr

theorem Proper.finish (h : r.Proper) (hr : r.finish = .ok p) : p.Proper := by
  unfold PatternReader.finish at hr
  split at hr
  · cases hr
  · cases hr
  · cases hr
  · cases hr
    exact h.group.toPattern

end PatternReader

namespace Pattern

/-- A pattern that is read is proper. -/
theorem proper_ofString {text : String} {p : Pattern} (h : ofString text = .ok p) : p.Proper := by
  rw [ofString, ofChars] at h
  split at h
  · cases h
  · cases hread : text.toList.foldlM PatternReader.step .start with
    | error e =>
      rw [hread] at h
      cases h
    | ok r =>
      rw [hread] at h
      exact (PatternReader.proper_start.foldlM hread).finish h

/-- A match has the length of the longest first part that the pattern stands for, and without such a
first part there is no match. -/
theorem longestMatch_iff {p : Pattern} (hp : p.Proper) {w : Workspace} (hw : w.Dated)
    {text : List Char} (hfits : (Automaton.ofPattern p).Fits w text) :
    (∀ n, ((Automaton.ofPattern p).longestMatch w text).1 = some n ↔
        ∃ u, IsLongest p.language text u ∧ Text.size u = n) ∧
      (((Automaton.ofPattern p).longestMatch w text).1 = none ↔
        ∀ u, u <+: text → u ∉ p.language) := by
  rcases (Automaton.longestMatch_ofPattern hp hw hfits).2 with ⟨hfound, hnone⟩ | ⟨u, hu, hfound⟩
  · rw [hfound]
    refine ⟨fun n => ⟨nofun, ?_⟩, iff_of_true rfl hnone⟩
    rintro ⟨u, hu, -⟩
    exact absurd hu.mem (hnone u hu.first)
  · rw [hfound]
    refine ⟨fun n => ⟨fun hn => ⟨u, hu, Option.some.inj hn⟩, ?_⟩,
      iff_of_false nofun fun hnone => hnone u hu.first hu.mem⟩
    rintro ⟨v, hv, rfl⟩
    rw [hu.unique hv]

/-- For a pattern that is read, both tests for the empty text agree with the language of the
pattern, and so does matching while there are stamps enough. A match is in the language in any
case. -/
theorem matching_ofString {source : String} {p : Pattern} (h : ofString source = .ok p)
    (text : List Char) :
    ((Automaton.ofPattern p).Fits .empty text →
        (∀ n, ((Automaton.ofPattern p).longestMatch .empty text).1 = some n ↔
          ∃ u, IsLongest p.language text u ∧ Text.size u = n) ∧
        (((Automaton.ofPattern p).longestMatch .empty text).1 = none ↔
          ∀ u, u <+: text → u ∉ p.language)) ∧
      (∀ n, ((Automaton.ofPattern p).longestMatch .empty text).1 = some n →
        ∃ u, u <+: text ∧ u ∈ p.language ∧ Text.size u = n) ∧
      ((Automaton.ofPattern p).matchesEmpty = true ↔ [] ∈ p.language) ∧
      (p.nullable = true ↔ [] ∈ p.language) := by
  have hp := proper_ofString h
  refine ⟨longestMatch_iff hp Workspace.dated_empty, fun n hn => ?_,
    Automaton.matchesEmpty_iff hp, nullable_iff p⟩
  obtain ⟨u, hu, haccepts, rfl⟩ :=
    Automaton.longestMatch_sound (fun s => Automaton.accept_ofPattern (s := s) hp) hn
  exact ⟨u, hu, (Automaton.accepts_ofPattern hp).1 haccepts, rfl⟩

/-- A loop over a choice with the empty text and another loop matches in every text. -/
theorem matching_ofString_loops :
    ofString "(()|a*)+" = .ok (.plus (.alt [.empty, .star (.chars (.single 'a'))])) ∧
      (Automaton.ofPattern (.plus (.alt [.empty, .star (.chars (.single 'a'))]))).matchesEmpty
        = true ∧
      ((Automaton.ofPattern (.plus (.alt [.empty, .star (.chars (.single 'a'))]))).longestMatch
        .empty ['a', 'a', 'b']).1 ≠ none := by
  have hread : ofString "(()|a*)+"
      = .ok (.plus (.alt [.empty, .star (.chars (.single 'a'))])) := by rfl
  have hfits : (Automaton.ofPattern (.plus (.alt [.empty, .star (.chars (.single 'a'))]))).Fits
      .empty ['a', 'a', 'b'] := Automaton.fits_empty (by decide)
  obtain ⟨hmatches, -, hempty, hnullable⟩ := matching_ofString hread ['a', 'a', 'b']
  have hnil := hnullable.1 (by rfl)
  exact ⟨hread, hempty.2 hnil, fun h => (hmatches hfits).2.1 h [] List.nil_prefix hnil⟩

/-- There is no stamp for the last letter, and no match is found, though all of the text belongs to
the pattern. -/
theorem matching_exhausted : ofString "a*b" = .ok manyAsAndB ∧
    asAndB (Workspace.counterMax - 1) ∈ manyAsAndB.language ∧
    ((Automaton.ofPattern manyAsAndB).longestMatch .empty
      (asAndB (Workspace.counterMax - 1))).1 = none :=
  ⟨rfl, mem_manyAsAndB.2 ⟨_, rfl⟩,
    Automaton.longestMatch_asAndB (Workspace.unmet_ofSize 0 0) rfl⟩

end Pattern

end FrontEnd
