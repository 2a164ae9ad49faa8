import FrontEnd.Proofs.Pattern.Stamps
import FrontEnd.Proofs.Token.Tables

/-!
# The winning lexeme

Every rule offers its longest lexeme at the start of a text. The table looks only at the literals
that begin with the first character and at the patterns that can start with it; **what it finds is
the best of all offers**, the longest one and of equally long ones that of the earliest rule. The
patterns are matched one after the other in the same workspace, so that there have to be stamps
enough for all of them.

- `TokenTable.jobs`: the matches that are made at the start of a text;
- `TokenTable.Offered`: what the rules offer;
- `TokenTable.Best`: the best of some offers;
- `TokenTable.best_longestMatch`: with stamps enough, the match that is found is the best of all;
- `TokenTable.backed_longestMatch`: a match is a lexeme of its rule in any case.
-/

namespace FrontEnd

namespace LexemeMatch

/-- The match is longer, or as long and of no later rule. -/
def Beats (m m' : LexemeMatch) : Prop :=
  m'.length < m.length ∨ m'.length = m.length ∧ m.rule ≤ m'.rule

theorem Beats.refl (m : LexemeMatch) : m.Beats m := .inr ⟨rfl, le_rfl⟩

theorem Beats.trans {m m' m'' : LexemeMatch} (h : m.Beats m') (h' : m'.Beats m'') :
    m.Beats m'' := by
  rcases h with h | ⟨h, hrule⟩
  · rcases h' with h' | ⟨h', -⟩
    · exact .inl (h'.trans h)
    · exact .inl (h' ▸ h)
  · rcases h' with h' | ⟨h', hrule'⟩
    · exact .inl (h ▸ h')
    · exact .inr ⟨h'.trans h, hrule.trans hrule'⟩

end LexemeMatch

namespace TokenTable

variable {t : TokenTable} {text u : List Char} {c : Char} {n : Fin 65536} {rule : LexemeRule}
  {best : Option LexemeMatch} {S S' : LexemeMatch → Prop} {w : Workspace} {a : Automaton}

/-! ## The patterns that are tried -/

/-- The automaton of a pattern that can start with the character. -/
def tried? (t : TokenTable) (c : Char) (n : Fin 65536) : Option Automaton :=
  match t.rules[n.val]? with
  | some ⟨_, .pattern automaton, _⟩ => if automaton.canStartWith c then some automaton else none
  | _ => none

/-- The matches of some patterns at the start of a text, if they can start there. -/
def jobsOf (t : TokenTable) (c : Char) (rest : List Char) (numbers : List (Fin 65536)) :
    List (Automaton × List Char) :=
  (numbers.filterMap (t.tried? c)).map (·, c :: rest)

/-- The matches that are made at the start of a text, one after the other. -/
def jobs (t : TokenTable) : List Char → List (Automaton × List Char)
  | [] => []
  | c :: rest => t.jobsOf c rest t.patterns.toList

theorem tried?_eq_some_iff {a : Automaton} : t.tried? c n = some a ↔
    ∃ rule, t.rules[n.val]? = some rule ∧ rule.form = .pattern a ∧ a.canStartWith c = true := by
  unfold tried?
  match t.rules[n.val]? with
  | none => simp
  | some ⟨_, .literal _, _⟩ => simp
  | some ⟨_, .pattern automaton, _⟩ =>
    constructor
    · intro h
      obtain ⟨hstart, heq⟩ := Option.ite_none_right_eq_some.1 h
      cases heq
      exact ⟨_, rfl, rfl, hstart⟩
    · rintro ⟨_, ⟨⟩, ⟨⟩, hstart⟩
      exact if_pos hstart

/-- A pattern that is not tried changes nothing. -/
theorem offerPattern_of_none (h : t.tried? c n = none) (state : Option LexemeMatch × Workspace) :
    t.offerPattern c text state n = state := by
  unfold offerPattern
  match hrule : t.rules[n.val]? with
  | none => rfl
  | some ⟨_, .literal _, _⟩ => rfl
  | some ⟨_, .pattern automaton, _⟩ =>
    refine if_neg fun hstart => ?_
    rw [tried?_eq_some_iff.2 ⟨_, hrule, rfl, hstart⟩] at h
    cases h

/-- A pattern that is tried offers what its automaton finds. -/
theorem offerPattern_of_some {a : Automaton} (h : t.tried? c n = some a) (text : List Char)
    (state : Option LexemeMatch × Workspace) : ∃ rule, t.rules[n.val]? = some rule ∧
      rule.form = .pattern a ∧ t.offerPattern c text state n
        = (offer state.1 n ((a.longestMatch state.2 text).1.getD 0) rule.trivia,
            (a.longestMatch state.2 text).2) := by
  obtain ⟨⟨name, form, trivia⟩, hrule, rfl, hstart⟩ := tried?_eq_some_iff.1 h
  refine ⟨_, hrule, rfl, ?_⟩
  rw [offerPattern, hrule]
  exact if_pos hstart

theorem workspace_foldl_offerPattern (state : Option LexemeMatch × Workspace) (rest : List Char)
    (numbers : List (Fin 65536)) : (numbers.foldl (t.offerPattern c (c :: rest)) state).2
      = state.2.after (t.jobsOf c rest numbers) := by
  induction numbers generalizing state with
  | nil => rfl
  | cons n numbers ih =>
    rw [List.foldl_cons, ih]
    cases htried : t.tried? c n with
    | none =>
      rw [offerPattern_of_none htried, jobsOf, jobsOf, List.filterMap_cons_none htried]
    | some a =>
      obtain ⟨rule, -, -, heq⟩ := offerPattern_of_some htried _ state
      rw [heq, jobsOf, jobsOf, List.filterMap_cons_some htried]
      rfl

/-- A match in a table leaves the workspace as the matches of the patterns do that are tried. -/
theorem workspace_longestMatch (t : TokenTable) (w : Workspace) (text : List Char) :
    (t.longestMatch w text).2 = w.after (t.jobs text) := by
  cases text with
  | nil => rfl
  | cons c rest =>
    rw [longestMatch, ← Array.foldl_toList]
    exact workspace_foldl_offerPattern _ rest t.patterns.toList

/-- In few patterns, or in a short text, there is little to look at. -/
theorem sum_jobs_le (t : TokenTable) (text : List Char) :
    ((t.jobs text).map fun job => job.2.length + 1).sum ≤ t.patterns.size * (text.length + 1) := by
  cases text with
  | nil => exact Nat.zero_le _
  | cons c rest =>
    have hsum (tried : List Automaton) :
        ((tried.map (·, c :: rest)).map fun job => job.2.length + 1).sum
          = tried.length * ((c :: rest).length + 1) := by
      simp [Function.comp_def]
    rw [jobs, jobsOf, hsum]
    exact Nat.mul_le_mul_right _ (List.length_filterMap_le ..)

/-- One pattern is tried at the start of the text, and no literal. -/
structure TriesOnly (t : TokenTable) (c : Char) (n : Fin 65536) (a : Automaton) : Prop where
  tried : t.tried? c n = some a
  only : ∀ n', n' ≠ n → t.tried? c n' = none
  unwritten : ∀ n', ¬ t.HasRule n' fun rule => rule.form.code? = some c.toNat

/-- A pattern is looked at once. -/
theorem TriesOnly.exists_split (h : t.TriesOnly c n a) (ht : t.Indexed)
    (hsorted : t.patterns.toList.Pairwise (· < ·)) : ∃ before later,
      t.patterns.toList = before ++ n :: later ∧ ∀ n' ∈ before ++ later, t.tried? c n' = none := by
  obtain ⟨rule, hrule, hform, -⟩ := tried?_eq_some_iff.1 h.tried
  have hmem : n ∈ t.patterns.toList :=
    Array.mem_toList_iff.2 ((ht.patterns n).2 ⟨rule, hrule, congrArg LexemeForm.isPattern hform⟩)
  obtain ⟨before, later, hsplit⟩ := List.append_of_mem hmem
  rw [hsplit, List.pairwise_append] at hsorted
  obtain ⟨-, hsorted, hbefore⟩ := hsorted
  refine ⟨before, later, hsplit, fun n' hn' => h.only n' ?_⟩
  rcases List.mem_append.1 hn' with hn' | hn'
  · exact (hbefore n' hn' n List.mem_cons_self).ne
  · exact ((List.pairwise_cons.1 hsorted).1 n' hn').ne'

theorem TriesOnly.jobs_eq (h : t.TriesOnly c n a) (ht : t.Indexed)
    (hsorted : t.patterns.toList.Pairwise (· < ·)) (rest : List Char) :
    t.jobs (c :: rest) = [(a, c :: rest)] := by
  obtain ⟨before, later, hsplit, hnone⟩ := h.exists_split ht hsorted
  obtain ⟨hbefore, hlater⟩ := List.forall_mem_append.1 hnone
  rw [jobs, jobsOf, hsplit, List.filterMap_append, List.filterMap_eq_nil_iff.2 hbefore,
    List.filterMap_cons_some h.tried, List.filterMap_eq_nil_iff.2 hlater]
  rfl

theorem foldl_offerPattern_untried {numbers : List (Fin 65536)}
    (hnumbers : ∀ n ∈ numbers, t.tried? c n = none) (text : List Char)
    (state : Option LexemeMatch × Workspace) :
    numbers.foldl (t.offerPattern c text) state = state := by
  refine List.foldlRecOn numbers _ (motive := (· = state)) rfl ?_
  rintro _ rfl n hn
  exact offerPattern_of_none (hnumbers n hn) _

/-- Where one pattern is tried and is not found, there is no lexeme. -/
theorem TriesOnly.longestMatch_eq_none (h : t.TriesOnly c n a) (ht : t.Indexed)
    (hsorted : t.patterns.toList.Pairwise (· < ·)) {rest : List Char}
    (hnone : (a.longestMatch w (c :: rest)).1 = none) :
    (t.longestMatch w (c :: rest)).1 = none := by
  have hempty : t.literals.getD c.toNat #[] = #[] :=
    Array.eq_empty_iff_forall_not_mem.2 fun n hn => h.unwritten n ((ht.literals _ n).1 hn)
  obtain ⟨before, later, hsplit, huntried⟩ := h.exists_split ht hsorted
  obtain ⟨hbefore, hlater⟩ := List.forall_mem_append.1 huntried
  obtain ⟨rule, -, -, hoffer⟩ := offerPattern_of_some h.tried (c :: rest) (none, w)
  rw [longestMatch, hempty, ← Array.foldl_toList, ← Array.foldl_toList, hsplit, List.foldl_append]
  dsimp only [Array.toList_empty, List.foldl_nil]
  rw [foldl_offerPattern_untried hbefore, List.foldl_cons, hoffer,
    foldl_offerPattern_untried hlater]
  dsimp only
  rw [hnone]
  exact dif_neg (Nat.lt_irrefl 0)

/-- Without patterns nothing is matched. -/
theorem jobs_eq_nil (h : t.patterns = #[]) (text : List Char) : t.jobs text = [] := by
  cases text with
  | nil => rfl
  | cons c rest =>
    rw [jobs, h]
    rfl

/-! ## Offers -/

/-- The rule of the match has it as its longest lexeme at the start of the text. -/
def Offered (t : TokenTable) (text : List Char) (m : LexemeMatch) : Prop :=
  ∃ u, t.HasRule m.rule (fun rule => IsLongest rule.form.language text u ∧ m.trivia = rule.trivia) ∧
    m.length = Text.size u

/-- The best of some offers, if there are any. -/
def Best (S : LexemeMatch → Prop) : Option LexemeMatch → Prop
  | none => ∀ m, ¬ S m
  | some best => S best ∧ ∀ m, S m → best.Beats m

theorem Best.congr (h : Best S best) (heq : ∀ m, S m ↔ S' m) : Best S' best :=
  (funext fun m => propext (heq m) : S = S') ▸ h

/-- One more offer. -/
theorem Best.offer (h : Best S best) (n : Fin 65536) (length : Nat) (trivia : Bool) :
    Best (fun m => S m ∨ m.rule = n ∧ m.length = length ∧ m.trivia = trivia)
      (TokenTable.offer best n length trivia) := by
  unfold TokenTable.offer
  -- An empty lexeme is no offer. Any other takes the place of the best one only if it beats it.
  split
  · next hpos =>
    have hnew : ∀ {b m : LexemeMatch}, m.rule = n ∧ m.length = length ∧ m.trivia = trivia →
        b.Beats ⟨n, length, trivia, hpos⟩ → b.Beats m := by
      rintro b m ⟨rfl, rfl, rfl⟩ hb
      exact hb
    match best with
    | none =>
      refine ⟨.inr ⟨rfl, rfl, rfl⟩, ?_⟩
      rintro m (hm | hm)
      · exact absurd hm (h m)
      · exact hnew hm (.refl _)
    | some b =>
      dsimp only
      split
      · next hbetter =>
        have hbeats : LexemeMatch.Beats ⟨n, length, trivia, hpos⟩ b :=
          hbetter.imp id fun hrule => ⟨hrule.1.symm, hrule.2.le⟩
        refine ⟨.inr ⟨rfl, rfl, rfl⟩, ?_⟩
        rintro m (hm | hm)
        · exact hbeats.trans (h.2 m hm)
        · exact hnew hm (.refl _)
      · next hworse =>
        rw [not_or, not_lt, not_and, not_lt] at hworse
        have hbeats : b.Beats ⟨n, length, trivia, hpos⟩ :=
          (hworse.1.lt_or_eq).imp id fun heq => ⟨heq, hworse.2 heq⟩
        refine ⟨.inl h.1, ?_⟩
        rintro m (hm | hm)
        · exact h.2 m hm
        · exact hnew hm hbeats
  · next hzero =>
    refine h.congr fun m => (or_iff_left ?_).symm
    rintro ⟨-, hlength, -⟩
    exact hzero (hlength ▸ m.length_pos)

/-- A rule with a longest lexeme makes this offer. -/
theorem Best.offer_longest (h : Best S best) (hrule : t.rules[n.val]? = some rule)
    (hu : IsLongest rule.form.language text u) :
    Best (fun m => S m ∨ m.rule = n ∧ t.Offered text m)
      (TokenTable.offer best n (Text.size u) rule.trivia) := by
  refine (h.offer n (Text.size u) rule.trivia).congr fun m => or_congr_right ?_
  constructor
  · rintro ⟨rfl, hlength, htrivia⟩
    exact ⟨rfl, u, ⟨rule, hrule, hu, htrivia⟩, hlength⟩
  · rintro ⟨rfl, v, ⟨rule', hrule', hv, htrivia⟩, hlength⟩
    rw [hrule] at hrule'
    cases hrule'
    exact ⟨rfl, by rw [hlength, hv.unique hu], htrivia⟩

/-- A rule without a lexeme makes no offer. -/
theorem Best.no_offer (h : Best S best) (hrule : t.rules[n.val]? = some rule)
    (hnone : ∀ u, u <+: text → u ∉ rule.form.language) :
    Best (fun m => S m ∨ m.rule = n ∧ t.Offered text m) best := by
  refine h.congr fun m => (or_iff_left ?_).symm
  rintro ⟨rfl, u, ⟨rule', hrule', hu, -⟩, -⟩
  rw [hrule] at hrule'
  cases hrule'
  exact hnone u hu.first hu.mem

/-! ## Literals -/

theorem Best.offerLiteral (h : Best S best)
    (hn : t.HasRule n fun rule => rule.form.code? = some c.toNat) :
    Best (fun m => S m ∨ m.rule = n ∧ t.Offered text m) (t.offerLiteral text best n) := by
  obtain ⟨⟨name, form, trivia⟩, hrule, hcode⟩ := hn
  cases form with
  | pattern automaton => cases hcode
  | literal lexeme =>
    rw [TokenTable.offerLiteral, hrule]
    dsimp only
    split
    · next hfirst =>
      have hfirst := List.isPrefixOf_iff_prefix.1 hfirst
      refine h.offer_longest hrule ⟨hfirst, Set.mem_singleton lexeme, fun v _ hv => ?_⟩
      rw [Set.mem_singleton_iff.1 hv]
    · next hother =>
      refine h.no_offer hrule fun u hu hmem => hother ?_
      exact List.isPrefixOf_iff_prefix.2 (Set.mem_singleton_iff.1 hmem ▸ hu)

theorem Best.foldl_offerLiteral (h : Best S best) {numbers : List (Fin 65536)}
    (hnumbers : ∀ n ∈ numbers, t.HasRule n fun rule => rule.form.code? = some c.toNat) :
    Best (fun m => S m ∨ m.rule ∈ numbers ∧ t.Offered text m)
      (numbers.foldl (t.offerLiteral text) best) := by
  induction numbers generalizing best S with
  | nil => exact h.congr fun m => by simp
  | cons n numbers ih =>
    rw [List.forall_mem_cons] at hnumbers
    refine (ih (h.offerLiteral hnumbers.1) hnumbers.2).congr fun m => ?_
    rw [List.mem_cons, or_and_right, or_assoc]

/-! ## Patterns -/

theorem Best.offerPattern (h : Best S best) (hw : w.Dated) (ht : t.Indexed) {rest : List Char}
    (hn : t.HasRule n fun rule => rule.form.isPattern = true)
    (hfits : ∀ a, t.tried? c n = some a → a.Fits w (c :: rest)) :
    Best (fun m => S m ∨ m.rule = n ∧ t.Offered (c :: rest) m)
      (t.offerPattern c (c :: rest) (best, w) n).1 := by
  obtain ⟨⟨name, form, trivia⟩, hrule, hpattern⟩ := hn
  cases form with
  | literal lexeme => cases hpattern
  | pattern automaton =>
    obtain ⟨p, hp, rfl, hnil⟩ := ht.sound _ _ hrule
    have hlanguage := LexemeForm.language_ofPattern hp
    rw [TokenTable.offerPattern, hrule]
    dsimp only
    split
    · next hstart =>
      have hfits := hfits _ (tried?_eq_some_iff.2 ⟨_, hrule, rfl, hstart⟩)
      dsimp only
      rcases (Automaton.longestMatch_ofPattern hp hw hfits).2 with ⟨hfound, hnone⟩ | ⟨u, hu, hfound⟩
      · rw [hfound]
        exact h.no_offer hrule (hlanguage ▸ hnone)
      · rw [hfound]
        exact h.offer_longest hrule (hlanguage ▸ hu)
    · next hstart =>
      refine h.no_offer hrule fun u hu hmem => ?_
      rw [hlanguage] at hmem
      rcases List.prefix_cons_iff.1 hu with rfl | ⟨v, rfl, -⟩
      · exact hnil hmem
      · exact hstart (Automaton.canStartWith_of_mem hp hmem)

theorem Best.foldl_offerPattern (h : Best S best) (hw : w.Dated) (ht : t.Indexed)
    {rest : List Char} {numbers : List (Fin 65536)}
    (hnumbers : ∀ n ∈ numbers, t.HasRule n fun rule => rule.form.isPattern = true)
    (hlasts : w.Lasts (t.jobsOf c rest numbers)) :
    Best (fun m => S m ∨ m.rule ∈ numbers ∧ t.Offered (c :: rest) m)
      (numbers.foldl (t.offerPattern c (c :: rest)) (best, w)).1 := by
  induction numbers generalizing best S w with
  | nil => exact h.congr fun m => by simp
  | cons n numbers ih =>
    rw [List.forall_mem_cons] at hnumbers
    -- A pattern that is tried needs stamps, and the rest of the patterns need those behind it.
    have hsplit : jobsOf t c rest (n :: numbers)
        = jobsOf t c rest [n] ++ jobsOf t c rest numbers := by
      rw [jobsOf, jobsOf, jobsOf, ← List.map_append, ← List.filterMap_append, List.singleton_append]
    obtain ⟨hfirst, hlater⟩ := Workspace.lasts_append.1 (hsplit ▸ hlasts)
    have hdated := hw.after hfirst
    rw [← workspace_foldl_offerPattern (best, w)] at hlater hdated
    have hfits : ∀ a, t.tried? c n = some a → a.Fits w (c :: rest) := fun a ha => by
      rw [jobsOf, List.filterMap_cons_some ha] at hfirst
      exact hfirst.1
    have hbest := h.offerPattern hw ht hnumbers.1 hfits
    refine (ih hbest hdated hnumbers.2 hlater).congr fun m => ?_
    rw [List.mem_cons, or_and_right, or_assoc]

/-! ## The match -/

/-- Only rules in the indexes make offers. -/
theorem Offered.rule_mem (ht : t.Indexed) {rest : List Char} {m : LexemeMatch}
    (h : t.Offered (c :: rest) m) :
    m.rule ∈ (t.literals.getD c.toNat #[]).toList ∨ m.rule ∈ t.patterns.toList := by
  obtain ⟨u, ⟨⟨name, form, trivia⟩, hrule, hu, -⟩, hlength⟩ := h
  rw [Array.mem_toList_iff, Array.mem_toList_iff, ht.literals, ht.patterns]
  cases form with
  | pattern automaton => exact .inr ⟨_, hrule, rfl⟩
  | literal lexeme =>
    refine .inl ⟨_, hrule, ?_⟩
    have hlexeme : u = lexeme := Set.mem_singleton_iff.1 hu.mem
    rcases List.prefix_cons_iff.1 (hlexeme ▸ hu.first) with hnil | ⟨v, rfl, -⟩
    · exact absurd hnil (ht.sound _ _ hrule)
    · rfl

/-- The match that is found is the best of all offers, whatever the workspace was used for, as long
as there are stamps enough. -/
theorem best_longestMatch (ht : t.Indexed) (hw : w.Dated) (hlasts : w.Lasts (t.jobs text)) :
    Best (t.Offered text) (t.longestMatch w text).1 := by
  cases text with
  | nil =>
    rintro m ⟨u, ⟨rule, hrule, hu, -⟩, -⟩
    exact (ht.sound _ _ hrule).nil_not_mem (List.prefix_nil.1 hu.first ▸ hu.mem)
  | cons c rest =>
    have hnone : Best (fun _ => False) none := fun _ => id
    have hliterals : ∀ n ∈ (t.literals.getD c.toNat #[]).toList,
        t.HasRule n fun rule => rule.form.code? = some c.toNat :=
      fun n hn => (ht.literals _ n).1 (Array.mem_toList_iff.1 hn)
    have hpatterns : ∀ n ∈ t.patterns.toList, t.HasRule n fun rule => rule.form.isPattern = true :=
      fun n hn => (ht.patterns n).1 (Array.mem_toList_iff.1 hn)
    rw [longestMatch, ← Array.foldl_toList, ← Array.foldl_toList]
    refine ((hnone.foldl_offerLiteral hliterals).foldl_offerPattern hw ht hpatterns hlasts).congr
      fun m => ?_
    rw [false_or, ← or_and_right]
    exact and_iff_right_of_imp fun hm => hm.rule_mem ht

/-! ## Without stamps -/

/-- The match is a first part of the text that its rule accepts. -/
def Backed (t : TokenTable) (text : List Char) (m : LexemeMatch) : Prop :=
  ∃ u, u <+: text ∧
    t.HasRule m.rule (fun rule => u ∈ rule.form.language ∧ m.trivia = rule.trivia) ∧
    m.length = Text.size u

/-- One more lexeme. -/
theorem backed_offer (h : ∀ m ∈ best, t.Backed text m) (hrule : t.rules[n.val]? = some rule)
    (hu : u <+: text) (hmem : u ∈ rule.form.language) :
    ∀ m ∈ offer best n (Text.size u) rule.trivia, t.Backed text m := by
  intro m hm
  unfold offer at hm
  split at hm
  · next hpos =>
    have hnew : t.Backed text ⟨n, Text.size u, rule.trivia, hpos⟩ :=
      ⟨u, hu, ⟨rule, hrule, hmem, rfl⟩, rfl⟩
    match best with
    | none => exact Option.some.inj hm ▸ hnew
    | some b =>
      dsimp only at hm
      split at hm
      · exact Option.some.inj hm ▸ hnew
      · exact h m hm
  · exact h m hm

theorem backed_offerLiteral (h : ∀ m ∈ best, t.Backed text m) (n : Fin 65536) :
    ∀ m ∈ t.offerLiteral text best n, t.Backed text m := by
  unfold offerLiteral
  match hrule : t.rules[n.val]? with
  | none => exact h
  | some ⟨_, .pattern _, _⟩ => exact h
  | some ⟨name, .literal lexeme, trivia⟩ =>
    dsimp only
    split
    · next hfirst =>
      exact backed_offer h hrule (List.isPrefixOf_iff_prefix.1 hfirst) (Set.mem_singleton lexeme)
    · exact h

theorem backed_offerPattern (ht : t.Indexed) {state : Option LexemeMatch × Workspace}
    (h : ∀ m ∈ state.1, t.Backed text m) (n : Fin 65536) :
    ∀ m ∈ (t.offerPattern c text state n).1, t.Backed text m := by
  cases htried : t.tried? c n with
  | none =>
    rw [offerPattern_of_none htried]
    exact h
  | some a =>
    obtain ⟨rule, hrule, hform, heq⟩ := offerPattern_of_some htried text state
    obtain ⟨p, hp, rfl, -⟩ : (LexemeForm.pattern a).Sound := hform ▸ ht.sound _ _ hrule
    rw [heq]
    cases hfound : ((Automaton.ofPattern p).longestMatch state.2 text).1 with
    | none => exact h
    | some length =>
      obtain ⟨u, hu, haccepts, rfl⟩ :=
        Automaton.longestMatch_sound (fun s => Automaton.accept_ofPattern (s := s) hp) hfound
      exact backed_offer h hrule hu (by rw [hform]; exact haccepts)

/-- Whatever became of the stamps, a match is a lexeme of its rule. -/
theorem backed_longestMatch (ht : t.Indexed) (w : Workspace) (text : List Char) :
    ∀ m ∈ (t.longestMatch w text).1, t.Backed text m := by
  cases text with
  | nil => exact nofun
  | cons c rest =>
    have hliterals (numbers : List (Fin 65536)) :
        ∀ m ∈ numbers.foldl (t.offerLiteral (c :: rest)) none, t.Backed (c :: rest) m :=
      List.foldlRecOn (motive := fun best : Option LexemeMatch =>
          ∀ m ∈ best, t.Backed (c :: rest) m)
        numbers _ (fun m hm => by cases hm) fun best hbest n _ => backed_offerLiteral hbest n
    have hpatterns (numbers : List (Fin 65536)) (state : Option LexemeMatch × Workspace)
        (hstate : ∀ m ∈ state.1, t.Backed (c :: rest) m) :
        ∀ m ∈ (numbers.foldl (t.offerPattern c (c :: rest)) state).1, t.Backed (c :: rest) m :=
      List.foldlRecOn (motive := fun state : Option LexemeMatch × Workspace =>
          ∀ m ∈ state.1, t.Backed (c :: rest) m)
        numbers _ hstate fun state hstate n _ => backed_offerPattern ht hstate n
    rw [longestMatch, ← Array.foldl_toList, ← Array.foldl_toList]
    exact hpatterns _ _ (hliterals _)

/-! ## A table of one rule -/

/-- The only rule of a table has the number zero. -/
theorem hasRule_single (h : t.rules.toList = [rule]) {P : LexemeRule → Prop} :
    t.HasRule n P ↔ n.val = 0 ∧ P rule := by
  rw [HasRule, ← Array.getElem?_toList, h]
  cases hn : n.val with
  | zero => simp
  | succ i => simp

/-- The table of one rule. -/
theorem exists_single {d : LexemeDecl} {form : LexemeForm} (h : Compiles d form) :
    ∃ t, ofDecls [d] = .ok t ∧ t.Indexed ∧ t.rules.toList = [⟨d.name, form, d.trivia⟩] := by
  have hforms : List.Forall₂ Compiles [d] [form] := .cons h .nil
  obtain ⟨t, ht⟩ := exists_ofDecls (by simp) (by simp) hforms
  obtain ⟨hindexed, hdeclares⟩ := indexed_of_ofDecls ht
  exact ⟨t, ht, hindexed, rules_of_declares hdeclares hforms⟩

/-- The only rule is tried where its pattern can start. -/
theorem triesOnly_single (h : t.rules.toList = [rule]) (hform : rule.form = .pattern a)
    (hstart : a.canStartWith c = true) : TriesOnly t c 0 a where
  tried := tried?_eq_some_iff.2 ((hasRule_single h).2 ⟨rfl, hform, hstart⟩)
  only n' hne := by
    refine Option.eq_none_iff_forall_ne_some.2 fun a' htried => hne (Fin.ext ?_)
    exact ((hasRule_single h).1 (tried?_eq_some_iff.1 htried)).1
  unwritten n' hrule := by
    obtain ⟨-, hcode⟩ := (hasRule_single h).1 hrule
    rw [hform] at hcode
    cases hcode

/-- Any number of the letter `a`, and then a `b`. -/
def wordDecls : List LexemeDecl := [.ofPattern "word" "a*b"]

/-- A word that takes all stamps is not found. -/
theorem exists_ofDecls_word : ∃ t, ofDecls wordDecls = .ok t ∧
    t.rules.toList = [⟨"word", .pattern (.ofPattern .manyAsAndB), false⟩] ∧
    (t.longestMatch (.ofSize t.maxStates) (asAndB (Workspace.counterMax - 1))).1 = none := by
  obtain ⟨t, hbuilt, ht, hrules⟩ := exists_single (d := .ofPattern "word" "a*b")
    (compile_pattern _ (p := .manyAsAndB) rfl rfl)
  have hlost := Automaton.longestMatch_asAndB (Workspace.unmet_ofSize t.maxStates 0) rfl
  refine ⟨t, hbuilt, hrules, ?_⟩
  have htext : asAndB (Workspace.counterMax - 1) = 'a' :: asAndB (Workspace.counterMax - 2) := rfl
  have hstart : (Automaton.ofPattern .manyAsAndB).canStartWith 'a' = true :=
    Automaton.canStartWith_of_mem Pattern.proper_manyAsAndB (Pattern.mem_manyAsAndB.2 ⟨1, rfl⟩)
  have hone := triesOnly_single hrules rfl hstart
  rw [htext] at hlost ⊢
  exact hone.longestMatch_eq_none ht (pairwise_patterns hbuilt) hlost

end TokenTable

end FrontEnd
