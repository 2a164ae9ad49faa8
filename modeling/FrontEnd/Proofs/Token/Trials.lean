import FrontEnd.Proofs.Token.Matches
import Mathlib.Data.List.MinMax

/-!
# Trying every rule

A table looks up which rules are worth a look. Without any index, every rule is tried in the order
of declaration on the whole text: a literal is there or not, and for a pattern every first part of
the text is put to its automaton. The longest lexeme is kept, the first one of equally long ones.
**The lookup finds the same** as long as there are stamps enough, so it never passes over a rule
that wins.

- `LexemeForm.longest?`: the longest lexeme of one rule;
- `TokenTable.trials`, `TokenTable.plainMatch`: what all rules offer, and the best of it;
- `TokenTable.mem_trials`: an offer is the longest lexeme in the language of a rule;
- `TokenTable.longestMatch_eq_plainMatch`: the match that is looked up is the plain one;
- `TokenTable.longestMatch_ne_plainMatch`: a match that is lost for want of a stamp.
-/

namespace FrontEnd

/-! ## One rule -/

namespace Automaton

variable {a : Automaton} {live : Array Nat}

/-- The live states behind a text, with new marks for every character. -/
def liveBehind (a : Automaton) (live : Array Nat) (u : List Char) : Array Nat :=
  u.foldl (fun live c => (a.advance c (.ofSize a.states.size) live).2) live

/-- Is the whole text accepted? -/
def acceptsWhole (a : Automaton) (u : List Char) : Bool :=
  accepts (a.liveBehind (a.initial .empty).2 u)

theorem live_ofSize (h : ∀ s ∈ live, ∀ l r, a.states[s]? ≠ some (.fork l r)) :
    a.Live (.ofSize a.states.size) live :=
  ⟨by simp [Workspace.ofSize], Workspace.dated_ofSize _, h⟩

/-- With new marks there is a stamp for every character. -/
theorem anyAccepts_liveBehind (h : ∀ s ∈ live, ∀ l r, a.states[s]? ≠ some (.fork l r))
    (u v : List Char) :
    (∀ s ∈ a.liveBehind live u, ∀ l r, a.states[s]? ≠ some (.fork l r)) ∧
      (a.AnyAccepts (a.liveBehind live u).toList v ↔ a.AnyAccepts live.toList (u ++ v)) := by
  induction u generalizing live with
  | nil => exact ⟨h, Iff.rfl⟩
  | cons c u ih =>
    have hstart : (Workspace.ofSize a.states.size).Unspent := Nat.succ_pos 4294967294
    obtain ⟨hlive, hany⟩ := live_advance (live_ofSize h) hstart c
    obtain ⟨hrest, hbehind⟩ := ih hlive.live_ne
    exact ⟨hrest, hbehind.trans (hany (u ++ v))⟩

theorem acceptsWhole_iff {p : Pattern} (hp : p.Proper) {u : List Char} :
    (ofPattern p).acceptsWhole u = true ↔ u ∈ p.language := by
  obtain ⟨hlive, hany⟩ := live_initial (ofPattern p) Workspace.dated_empty
  obtain ⟨hbehind, hread⟩ := anyAccepts_liveBehind hlive.live_ne u []
  rw [acceptsWhole, accepts_iff (live_ofSize hbehind) fun s => accept_ofPattern (s := s) hp, hread,
    List.append_nil, hany, accepts_ofPattern hp]

end Automaton

/-- The longest lexeme of the form at the start of a text. A literal is there or not; for a pattern
every first part but the empty one is tried. -/
def LexemeForm.longest? (form : LexemeForm) (text : List Char) : Option (List Char) :=
  match form with
  | .literal lexeme => if lexeme.isPrefixOf text then some lexeme else none
  | .pattern automaton =>
    (text.inits.filter fun u => !u.isEmpty && automaton.acceptsWhole u).argmax List.length

namespace LexemeForm

variable {form : LexemeForm} {text u : List Char}

/-- What is found is the longest lexeme in the language of the form. -/
theorem longest?_eq_some_iff (h : form.Sound) :
    form.longest? text = some u ↔ IsLongest form.language text u := by
  cases form with
  | literal lexeme =>
    rw [longest?, Option.ite_none_right_eq_some, List.isPrefixOf_iff_prefix, Option.some_inj]
    constructor
    · rintro ⟨hfirst, rfl⟩
      exact ⟨hfirst, Set.mem_singleton lexeme, fun v _ hv => by rw [Set.mem_singleton_iff.1 hv]⟩
    · intro hu
      have hlexeme : u = lexeme := Set.mem_singleton_iff.1 hu.mem
      exact ⟨hlexeme ▸ hu.first, hlexeme.symm⟩
  | pattern automaton =>
    obtain ⟨p, hp, rfl, hnil⟩ := h
    -- The parts that are tried with success are those in the language.
    have hmem : ∀ v, v ∈ text.inits.filter
        (fun v => !v.isEmpty && (Automaton.ofPattern p).acceptsWhole v)
        ↔ v <+: text ∧ v ∈ p.language := by
      intro v
      rw [List.mem_filter, List.mem_inits, Bool.and_eq_true, Automaton.acceptsWhole_iff hp]
      refine and_congr_right fun _ => and_iff_right_of_imp fun hv => ?_
      rw [Bool.not_eq_true', List.isEmpty_eq_false_iff]
      exact fun hempty => hnil (hempty ▸ hv)
    rw [longest?, language_ofPattern hp]
    constructor
    · intro hu
      obtain ⟨hfirst, hlanguage⟩ := (hmem u).1 (List.argmax_mem hu)
      exact ⟨hfirst, hlanguage, fun v hv hv' => List.le_of_mem_argmax ((hmem v).2 ⟨hv, hv'⟩) hu⟩
    · intro hu
      have hsome := (hmem u).2 ⟨hu.first, hu.mem⟩
      cases hmax : List.argmax List.length (text.inits.filter
          fun v => !v.isEmpty && (Automaton.ofPattern p).acceptsWhole v) with
      | none =>
        rw [List.argmax_eq_none.1 hmax] at hsome
        cases hsome
      | some v =>
        obtain ⟨hfirst, hlanguage⟩ := (hmem v).1 (List.argmax_mem hmax)
        rw [hu.unique ⟨hfirst, hlanguage, fun v' hv hv' =>
          List.le_of_mem_argmax ((hmem v').2 ⟨hv, hv'⟩) hmax⟩]

end LexemeForm

namespace TokenTable

variable {t : TokenTable} {text : List Char} {decls : List LexemeDecl}

/-! ## All rules -/

/-- The offer of rule number `i`, when `u` is its longest lexeme. Empty lexemes are none. -/
def trial? (i : Nat) (trivia : Bool) (u : List Char) : Option LexemeMatch :=
  if h : i < 65536 ∧ 0 < Text.size u then some ⟨⟨i, h.1⟩, Text.size u, trivia, h.2⟩ else none

/-- What the rules offer at the start of a text, in the order of declaration. -/
def trials (t : TokenTable) (text : List Char) : List LexemeMatch :=
  t.rules.toList.zipIdx.filterMap fun (rule, i) =>
    (rule.form.longest? text).bind (trial? i rule.trivia)

/-- The longest lexeme that a rule offers, and of equally long ones the first. -/
def plainMatch (t : TokenTable) (text : List Char) : Option LexemeMatch :=
  (t.trials text).argmax LexemeMatch.length

theorem trial?_eq_some_iff {i : Nat} {trivia : Bool} {u : List Char} {m : LexemeMatch} :
    trial? i trivia u = some m ↔ m.rule.val = i ∧ m.length = Text.size u ∧ m.trivia = trivia := by
  obtain ⟨rule, length, trivia', hpos⟩ := m
  rw [trial?]
  split
  · next h =>
    simp only [Option.some.injEq, LexemeMatch.mk.injEq, Fin.ext_iff]
    constructor
    · rintro ⟨rfl, rfl, rfl⟩
      exact ⟨rfl, rfl, rfl⟩
    · rintro ⟨rfl, rfl, rfl⟩
      exact ⟨rfl, rfl, rfl⟩
  · next h =>
    refine iff_of_false (Option.some_ne_none _).symm ?_
    rintro ⟨rfl, rfl, -⟩
    exact h ⟨rule.isLt, hpos⟩

/-- The offers are the longest lexemes in the languages of the rules. -/
theorem mem_trials (ht : t.Indexed) {m : LexemeMatch} : m ∈ t.trials text ↔ t.Offered text m := by
  simp only [trials, List.mem_filterMap, Prod.exists, List.mem_zipIdx_iff_getElem?,
    Array.getElem?_toList, Option.bind_eq_some_iff, trial?_eq_some_iff]
  constructor
  · rintro ⟨rule, i, hrule, u, hu, rfl, hlength, htrivia⟩
    have hu := (LexemeForm.longest?_eq_some_iff (ht.sound _ _ hrule)).1 hu
    exact ⟨u, ⟨rule, hrule, hu, htrivia⟩, hlength⟩
  · rintro ⟨u, ⟨rule, hrule, hu, htrivia⟩, hlength⟩
    have hu := (LexemeForm.longest?_eq_some_iff (ht.sound _ _ hrule)).2 hu
    exact ⟨rule, m.rule, hrule, u, hu, rfl, hlength, htrivia⟩

/-- The offers stand in the order of their rules. -/
theorem ascending_trials (t : TokenTable) (text : List Char) :
    (t.trials text).Pairwise fun m m' => m.rule < m'.rule := by
  have hnumbers : t.rules.toList.zipIdx.Pairwise fun x y => x.2 < y.2 := by
    rw [← List.pairwise_map (f := Prod.snd), List.zipIdx_map_snd]
    exact List.pairwise_lt_range'
  refine hnumbers.filterMap _ fun x y hlt m hm m' hm' => ?_
  obtain ⟨u, -, hu⟩ := Option.bind_eq_some_iff.1 hm
  obtain ⟨u', -, hu'⟩ := Option.bind_eq_some_iff.1 hm'
  rw [Fin.lt_def, (trial?_eq_some_iff.1 hu).1, (trial?_eq_some_iff.1 hu').1]
  exact hlt

/-- The first of the longest offers is the best of them. -/
theorem best_argmax {ms : List LexemeMatch} (hms : ms.Pairwise fun m m' => m.rule < m'.rule) :
    Best (· ∈ ms) (ms.argmax LexemeMatch.length) := by
  induction ms with
  | nil => exact fun m hm => nomatch hm
  | cons m ms ih =>
    obtain ⟨hfirst, hms⟩ := List.pairwise_cons.1 hms
    have ih := ih hms
    rw [List.argmax_cons]
    cases hbest : ms.argmax LexemeMatch.length with
    | none =>
      rw [hbest] at ih
      exact ⟨List.mem_cons_self, List.forall_mem_cons.2 ⟨.refl m, fun m' hm' => absurd hm' (ih m')⟩⟩
    | some best =>
      rw [hbest] at ih
      obtain ⟨hmem, hbeats⟩ := ih
      dsimp only
      split
      · next hlt =>
        exact ⟨List.mem_cons_of_mem m hmem, List.forall_mem_cons.2 ⟨.inl hlt, hbeats⟩⟩
      · next hle =>
        -- The first offer is no shorter, and its rule is earlier than all others.
        have hwins : m.Beats best :=
          (Nat.lt_or_eq_of_le (Nat.le_of_not_lt hle)).imp id fun heq => ⟨heq, (hfirst best hmem).le⟩
        exact ⟨List.mem_cons_self,
          List.forall_mem_cons.2 ⟨.refl m, fun m' hm' => hwins.trans (hbeats m' hm')⟩⟩

/-- An offer is known by its rule and its length. -/
theorem Offered.ext {m m' : LexemeMatch} (h : t.Offered text m) (h' : t.Offered text m')
    (hrule : m.rule = m'.rule) (hlength : m.length = m'.length) : m = m' := by
  obtain ⟨n, length, trivia, hpos⟩ := m
  obtain ⟨n', length', trivia', hpos'⟩ := m'
  dsimp only at hrule hlength
  subst hrule hlength
  obtain ⟨u, ⟨rule, hfound, -, htrivia⟩, -⟩ := h
  obtain ⟨u', ⟨rule', hfound', -, htrivia'⟩, -⟩ := h'
  cases hfound.symm.trans hfound'
  exact congrArg (LexemeMatch.mk n length · hpos) (htrivia.trans htrivia'.symm)

/-- Offers that beat each other are the same. -/
theorem Offered.eq_of_beats {m m' : LexemeMatch} (h : t.Offered text m) (h' : t.Offered text m')
    (hbeats : m.Beats m') (hbeats' : m'.Beats m) : m = m' := by
  rcases hbeats with hlt | ⟨heq, hle⟩
  · rcases hbeats' with hlt' | ⟨heq', -⟩
    · exact absurd hlt (Nat.lt_asymm hlt')
    · exact absurd heq' (Nat.ne_of_gt hlt)
  · rcases hbeats' with hlt' | ⟨-, hle'⟩
    · exact absurd heq (Nat.ne_of_gt hlt')
    · exact h.ext h' (Fin.le_antisymm hle hle') heq.symm

/-- There is one best offer. -/
theorem Best.unique {best best' : Option LexemeMatch} (h : Best (t.Offered text) best)
    (h' : Best (t.Offered text) best') : best = best' := by
  match best, best' with
  | none, none => rfl
  | none, some m' => exact absurd h'.1 (h m')
  | some m, none => exact absurd h.1 (h' m)
  | some m, some m' => rw [h.1.eq_of_beats h'.1 (h.2 m' h'.1) (h'.2 m h.1)]

/-- In a table that was built, and in a workspace that was used for any matches before, the lookup
finds what trying all rules in the order of declaration finds, if there are stamps enough for the
matches before and for those of the lookup. What a rule has to offer is the longest text of its
language at this place. The match that is looked up, and the one that wins, are first parts of the
text with at least one character. -/
theorem longestMatch_eq_plainMatch (h : ofDecls decls = .ok t) (n : Nat)
    (jobs : List (Automaton × List Char)) (text : List Char) :
    ((Workspace.ofSize n).Lasts (jobs ++ t.jobs text) →
        (t.longestMatch ((Workspace.ofSize n).after jobs) text).1 = t.plainMatch text) ∧
      List.Forall₂ Declares decls t.rules.toList ∧
      (∀ rule ∈ t.rules, ∀ u, rule.form.longest? text = some u ↔
        IsLongest rule.form.language text u) ∧
      ∀ m, (t.longestMatch ((Workspace.ofSize n).after jobs) text).1 = some m ∨
          t.plainMatch text = some m →
        ∃ u v, text = u ++ v ∧ u ≠ [] ∧ m.length = Text.size u := by
  obtain ⟨ht, hdecls⟩ := indexed_of_ofDecls h
  have hplain : Best (t.Offered text) (t.plainMatch text) :=
    (best_argmax (t.ascending_trials text)).congr fun m => mem_trials ht
  refine ⟨fun hlasts => ?_, hdecls, fun rule hrule u => ?_, fun m hm => ?_⟩
  · obtain ⟨hbefore, hlater⟩ := Workspace.lasts_append.1 hlasts
    have hdated := (Workspace.dated_ofSize n).after hbefore
    exact (best_longestMatch ht hdated hlater).unique hplain
  · obtain ⟨i, hi⟩ := Array.getElem?_of_mem hrule
    exact LexemeForm.longest?_eq_some_iff (ht.sound i rule hi)
  · have hfirst : ∃ u, u <+: text ∧ m.length = Text.size u := by
      rcases hm with hm | hm
      · obtain ⟨u, hu, -, hlength⟩ := backed_longestMatch ht _ text m hm
        exact ⟨u, hu, hlength⟩
      · rw [hm] at hplain
        obtain ⟨u, ⟨rule, hrule, hu, -⟩, hlength⟩ := hplain.1
        exact ⟨u, hu.first, hlength⟩
    obtain ⟨u, ⟨v, rfl⟩, hlength⟩ := hfirst
    refine ⟨u, v, rfl, ?_, hlength⟩
    rintro rfl
    exact absurd hlength (Nat.ne_of_gt m.length_pos)

/-- Names, and behind them two words that are names as well. -/
def nameDecls : List LexemeDecl := [.ofPattern "name" "[a-z]+", .ofLiteral "if", .ofLiteral "i"]

/-- Literals are looked up first, and the earlier pattern is not passed over. -/
theorem longestMatch_eq_plainMatch_names :
    ∃ t, ofDecls nameDecls = .ok t ∧
      (Workspace.ofSize 2).Lasts (t.jobs ['x'] ++ t.jobs ['i', 'f', '(']) ∧
      (t.longestMatch ((Workspace.ofSize 2).after (t.jobs ['x'])) ['i', 'f', '(']).1
        = t.plainMatch ['i', 'f', '('] := by
  have hforms : List.Forall₂ Compiles nameDecls
      [.pattern (.ofPattern (.plus (.chars ⟨[('a', 'z')], false⟩))), .literal ['i', 'f'],
        .literal ['i']] :=
    .cons (compile_pattern _ rfl rfl) (.cons rfl (.cons rfl .nil))
  obtain ⟨t, ht⟩ := exists_ofDecls (by decide) (by decide) hforms
  have hpatterns : t.patterns.size ≤ 3 := size_patterns_le ht
  have hfirst : _ ≤ t.patterns.size * 2 := t.sum_jobs_le ['x']
  have hsecond : _ ≤ t.patterns.size * 4 := t.sum_jobs_le ['i', 'f', '(']
  have hlasts : (Workspace.ofSize 2).Lasts (t.jobs ['x'] ++ t.jobs ['i', 'f', '(']) := by
    refine (Workspace.dated_ofSize 2).lasts_of_sum ?_
    rw [List.map_append, List.sum_append, show (Workspace.ofSize 2).stamp.toNat = 0 from rfl]
    unfold Workspace.counterMax
    omega
  exact ⟨t, ht, hlasts, (longestMatch_eq_plainMatch ht 2 _ _).1 hlasts⟩

/-- Where the whole text is a lexeme, trying all rules finds one. -/
theorem plainMatch_ne_none (ht : t.Indexed) {rule : LexemeRule} {n : Fin 65536}
    (hrule : t.rules[n.val]? = some rule) (hmem : text ∈ rule.form.language) (hne : text ≠ []) :
    t.plainMatch text ≠ none := by
  intro hnone
  have hbest : Best (t.Offered text) (t.plainMatch text) :=
    (best_argmax (t.ascending_trials text)).congr fun m => mem_trials ht
  rw [hnone] at hbest
  exact hbest ⟨n, _, rule.trivia, Text.size_pos hne⟩
    ⟨text, ⟨rule, hrule, ⟨List.prefix_refl text, hmem, fun v hv _ => hv.length_le⟩, rfl⟩, rfl⟩

/-- A word that takes all stamps is passed over by the lookup, but not when all rules are tried. -/
theorem longestMatch_ne_plainMatch : ∃ t, ofDecls wordDecls = .ok t ∧
    (t.longestMatch (.ofSize t.maxStates) (asAndB (Workspace.counterMax - 1))).1 = none ∧
    t.plainMatch (asAndB (Workspace.counterMax - 1)) ≠ none := by
  obtain ⟨t, hbuilt, hrules, hlost⟩ := exists_ofDecls_word
  obtain ⟨rule, hrule, rfl⟩ := (hasRule_single (n := 0) hrules (P := (· = _))).2 ⟨rfl, rfl⟩
  refine ⟨t, hbuilt, hlost, plainMatch_ne_none (indexed_of_ofDecls hbuilt).1 hrule ?_ ?_⟩
  · rw [LexemeForm.language_ofPattern Pattern.proper_manyAsAndB]
    exact Pattern.mem_manyAsAndB.2 ⟨_, rfl⟩
  · exact List.append_ne_nil_of_right_ne_nil _ (List.cons_ne_nil _ _)

end TokenTable

end FrontEnd
