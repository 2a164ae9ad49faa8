import FrontEnd.Proofs.Grammar.Conflicts
import FrontEnd.Proofs.Parser.Telling

/-!
# What a parse says of a rule

Of a rule a parse says two things that are not about the input alone: that one token cannot tell its
alternatives apart, and that it has no productions. It says either of them once, where there is the
first occasion to say it. Occasions are looked for in the whole run: a rule is chosen for when it is
entered, and once more when tokens had to be put away first.

- `Topic`: what is said, and how the state remembers that it has been said;
- `Choice`, `Parser.choices`: the choices that a step makes;
- `ParseState.select_cases`: **what a choice says of its rule**;
- `ParseState.Once`, `Parser.once_step`: of all occasions the first is taken;
- `Parser.conflicts_of_ofDecls`: **the conflicts of a grammar, and where a parse reports them**.
-/

namespace FrontEnd

/-- What a parse says of a rule. -/
inductive Topic where
  /-- One token cannot tell its alternatives apart. -/
  | ambiguous
  /-- It has no productions. -/
  | undefined
  deriving DecidableEq

namespace Topic

/-- The report that says it. -/
def report : Topic → String → Location → Diagnostic
  | ambiguous => .ambiguousRule
  | undefined => .undefinedRule

/-- Does the report say it of the rule with this name, wherever it points? -/
def names (topic : Topic) (name : String) (d : Diagnostic) : Bool :=
  d.code == (topic.report name d.location).code &&
    d.message == (topic.report name d.location).message

theorem names_report {topic topic' : Topic} {name name' : String} {place : Location} :
    topic.names name (topic'.report name' place) = true ↔ topic' = topic ∧ name' = name := by
  have happend : ∀ before behind : String,
      before ++ name' ++ behind = before ++ name ++ behind ↔ name' = name := by
    intro before behind
    refine ⟨fun h => ?_, fun h => h ▸ rfl⟩
    have h := congrArg String.toList h
    exact String.toList_inj.1 (by simpa using h)
  cases topic <;> cases topic' <;>
    simp [names, report, Diagnostic.ambiguousRule, Diagnostic.undefinedRule, happend]

theorem names_of_code {topic : Topic} {name : String} {d : Diagnostic}
    (h : d.code ≠ .ambiguousRule ∧ d.code ≠ .undefinedRule) : topic.names name d = false := by
  cases topic <;> simp [names, report, Diagnostic.ambiguousRule, Diagnostic.undefinedRule, h]

theorem names_of_isLexical {topic : Topic} {name : String} {d : Diagnostic}
    (h : d.isLexical = true) : topic.names name d = false := by
  rw [Diagnostic.isLexical, beq_iff_eq] at h
  exact names_of_code (by simp [h])

end Topic

namespace ParseState

/-- The rules of which it has been said. -/
def heard (st : ParseState) : Topic → List Nat
  | .ambiguous => st.ambiguous
  | .undefined => st.undefined

/-- Says it of a rule, unless that was done before. -/
def mention (g : Grammar) (r : Nat) (st : ParseState) : Topic → ParseState
  | .ambiguous => st.reportAmbiguous g r
  | .undefined => st.reportMissing g r

variable {g : Grammar} {st st' : ParseState} {topic topic' : Topic} {r r' : Nat}

theorem mention_of_mem (h : r ∈ st.heard topic) : st.mention g r topic = st := by
  cases topic
  · exact if_pos (List.contains_iff_mem.2 h)
  · exact if_pos (List.contains_iff_mem.2 h)

/-- What is said for the first time is reported and remembered. -/
theorem mention_of_not_mem (h : r ∉ st.heard topic) {d : Diagnostic}
    (hd : d = topic.report (g.ruleName r) (.ofToken st.current)) :
    (st.mention g r topic).stream = (st.report d).stream ∧
      (st.mention g r topic).pending = (st.report d).pending ∧
      (st.mention g r topic).reports = (st.report d).reports ∧
      (st.mention g r topic).heard topic = r :: st.heard topic ∧
      ∀ topic', topic' ≠ topic → (st.mention g r topic).heard topic' = st.heard topic' := by
  have hcontains : ¬ (st.heard topic).contains r = true := mt List.contains_iff_mem.1 h
  subst hd
  cases topic with
  | ambiguous =>
    have hmention : st.mention g r .ambiguous = _ := if_neg hcontains
    rw [hmention]
    refine ⟨rfl, rfl, rfl, rfl, fun topic' htopic => ?_⟩
    cases topic' with
    | ambiguous => exact absurd rfl htopic
    | undefined => rfl
  | undefined =>
    have hmention : st.mention g r .undefined = _ := if_neg hcontains
    rw [hmention]
    refine ⟨rfl, rfl, rfl, rfl, fun topic' htopic => ?_⟩
    cases topic' with
    | ambiguous => rfl
    | undefined => exact absurd rfl htopic

/-! ## Once -/

/-- On this topic the rule has been named for the first of the tokens `said`, and for no other. -/
structure Once (g : Grammar) (topic : Topic) (r : Nat) (said : List Token) (st : ParseState) :
    Prop extends Told (topic.names (g.ruleName r))
      (said.head?.map fun t => topic.report (g.ruleName r) (.ofToken t)).toList st where
  heard : r ∈ st.heard topic ↔ said ≠ []

namespace Once

variable {said : List Token} {d : Diagnostic}

/-- What is remembered of reports stays as it is. -/
theorem of_told (h : st.Once g topic r said)
    (htold : st'.Told (topic.names (g.ruleName r))
      (said.head?.map fun t => topic.report (g.ruleName r) (.ofToken t)).toList)
    (hheard : st'.heard topic = st.heard topic) : st'.Once g topic r said :=
  ⟨htold, hheard ▸ h.heard⟩

theorem fill (h : st.Once g topic r said) (k : Nat) : (st.fill k).Once g topic r said :=
  h.of_told (h.toTold.fill k) (by cases topic <;> rfl)

theorem takeLeaf (h : st.Once g topic r said) : st.takeLeaf.2.Once g topic r said :=
  h.of_told h.toTold.takeLeaf (by cases topic <;> rfl)

theorem pushNode (h : st.Once g topic r said) (kind : NodeKind) (children : List NodeId)
    (place : Position) : (st.pushNode kind children place).2.Once g topic r said :=
  h.of_told (h.toTold.pushNode kind children place) (by cases topic <;> rfl)

theorem markDamage (h : st.Once g topic r said) : st.markDamage.Once g topic r said :=
  h.of_told h.toTold.markDamage (by cases topic <;> rfl)

theorem absorb (h : st.Once g topic r said) : st.absorb.2.Once g topic r said :=
  absorb_keeps (fun h => h.fill 0) takeLeaf (fun _ _ _ h => h.pushNode ..) markDamage h

theorem skipTo (h : st.Once g topic r said) (sync : TokenSet) :
    (st.skipTo sync).2.Once g topic r said :=
  h.of_told (h.toTold.skipTo sync) (by cases topic <;> rfl)

/-- Other reports may be made. -/
theorem report (h : st.Once g topic r said) (hd : topic.names (g.ruleName r) d = false) :
    (st.report d).Once g topic r said :=
  h.of_told (h.toTold.report_other hd) (by cases topic <;> rfl)

theorem unexpected (h : st.Once g topic r said) (sync expected : TokenSet) :
    (st.unexpected g sync expected).2.Once g topic r said := by
  rw [unexpected_eq]
  split
  · exact (h.fill 0).absorb
  · refine skipTo ?_ sync
    rw [reportUnexpected]
    split
    · exact h.fill 0
    · exact (h.fill 0).report (Topic.names_of_code (by simp [Diagnostic.unexpectedToken]))

/-- The first occasion is taken, and no other. -/
theorem mention (h : st.Once g topic r said) :
    (st.mention g r topic).Once g topic r (said ++ [st.current]) := by
  by_cases hmem : r ∈ st.heard topic
  · rw [mention_of_mem hmem]
    have hsaid := h.heard.1 hmem
    refine ⟨?_, by simp [hmem]⟩
    rw [List.head?_append_of_ne_nil _ hsaid]
    exact h.toTold
  · obtain ⟨hstream, hpending, hreports, hheard, -⟩ := mention_of_not_mem (g := g) hmem rfl
    have hsaid : said = [] := by
      by_contra hne
      exact hmem (h.heard.2 hne)
    subst hsaid
    refine ⟨?_, by simp [hheard]⟩
    have hreport := h.toTold.report (topic.report (g.ruleName r) (.ofToken st.current))
    rw [List.filter_cons_of_pos (Topic.names_report.2 ⟨rfl, rfl⟩)] at hreport
    exact hreport.advance (by rw [hstream]; exact .refl _) hreports hpending

/-- Other things are said of other rules. -/
theorem mention_other (h : st.Once g topic r said)
    (hother : ¬ (topic' = topic ∧ g.ruleName r' = g.ruleName r)) :
    (st.mention g r' topic').Once g topic r said := by
  by_cases hmem : r' ∈ st.heard topic'
  · rw [mention_of_mem hmem]
    exact h
  · obtain ⟨hstream, hpending, hreports, hheard, hrest⟩ := mention_of_not_mem (g := g) hmem rfl
    have hreport := h.report (d := topic'.report (g.ruleName r') (.ofToken st.current))
      (Bool.eq_false_iff.2 (mt Topic.names_report.1 hother))
    refine ⟨hreport.toTold.advance (by rw [hstream]; exact .refl _) hreports hpending, ?_⟩
    rw [← h.heard]
    by_cases htopic : topic = topic'
    · subst htopic
      have hne : r ≠ r' := fun heq => hother ⟨rfl, heq ▸ rfl⟩
      rw [hheard, List.mem_cons, or_iff_right hne]
    · rw [hrest topic htopic]

end Once

end ParseState

/-! ## Choices -/

/-- A choice between the alternatives of a rule, and the state in which it is made. -/
structure Choice where
  rule : Nat
  alternatives : List Alternative
  state : ParseState

namespace Choice

/-- The token that is next. -/
def token (c : Choice) : Token := (c.state.fill 0).current

/-- Is an alternative of rule `r` chosen where no guard of the rule is there, and the next token is
one of its conflict? -/
def contested (g : Grammar) (r : Nat) (c : Choice) : Bool :=
  c.rule == r && (c.state.select g r c.alternatives).1.isSome &&
    (c.alternatives.all fun a => a.guard.isEmpty || !ParseState.guardAhead c.state.ids a.guard) &&
    g.disputes r c.token.id

end Choice

namespace ParseState

variable {g : Grammar} {st st' : ParseState} {r : Nat} {as : List Alternative}

/-- A look further ahead does not change what comes next. -/
theorem current_fill_fill (st : ParseState) (k : Nat) :
    ((st.fill k).fill 0).current = (st.fill 0).current :=
  st.stream.ahead_fill_fill k

/-- There are two candidates where the next token is one of the conflict. -/
theorem disputes_iff (hg : g.ExactConflicts) (hbody : g.body r = .sequence as) :
    g.disputes r st.next = true ↔ 2 ≤ (candidates as st.next).length := by
  rw [hg.disputes_iff, two_le_candidates_iff, Grammar.Clashes, hbody]
  rfl

/-- An alternative is chosen for its guard unless no guard is there. -/
theorem fst_selectGuarded_eq_none (st : ParseState) (as : List Alternative) :
    (as.all fun a => a.guard.isEmpty || !guardAhead st.ids a.guard) = true ↔
      (st.selectGuarded as).1 = none := by
  rw [(st.selectGuarded_spec as).1, List.find?_eq_none, List.all_eq_true]
  refine forall₂_congr fun a _ => ?_
  cases a.guard.isEmpty <;> cases guardAhead st.ids a.guard <;> decide

/-- A choice looks at tokens. If it is contested, that is said of the rule then. -/
theorem select_cases {I : ParseState → Prop} (hg : g.ExactConflicts)
    (hbody : g.body r = .sequence as) (hfill : ∀ st k, I st → I (st.fill k)) (h : I st) :
    Choice.contested g r ⟨r, as, st⟩ = false ∧ I (st.select g r as).2 ∨
      Choice.contested g r ⟨r, as, st⟩ = true ∧ ∃ st₁, I st₁ ∧
        st₁.current = (st.fill 0).current ∧ (st.select g r as).2 = st₁.mention g r .ambiguous := by
  have hlook : I (st.selectGuarded as).2 ∧
      ((st.selectGuarded as).2.fill 0).current = (st.fill 0).current := by
    refine selectGuarded_invariant
      (I := fun st' => I st' ∧ (st'.fill 0).current = (st.fill 0).current) ?_ ⟨h, rfl⟩ as
    exact fun st' k h => ⟨hfill st' k h.1, (st'.current_fill_fill k).trans h.2⟩
  have hunguarded := st.fst_selectGuarded_eq_none as
  have hid : (Choice.mk r as st).token.id = st.next := st.id_current_fill
  have hdisputes : g.disputes r st.next = true ↔ _ := disputes_iff hg hbody
  simp only [Choice.contested, hid, beq_self_eq_true, Bool.true_and, Bool.and_eq_true,
    Bool.and_eq_false_iff]
  rcases hsel : st.selectGuarded as with ⟨_ | a, st₁⟩
  · rw [hsel] at hlook hunguarded
    have hcurrent : (st₁.fill 0).current.id = st.next := by rw [hlook.2, id_current_fill]
    -- Without a guarded alternative, the candidates for the next token decide: one at most, or two.
    rcases hc : candidates as st.next with _ | ⟨a, _ | ⟨b, rest⟩⟩
    case cons.cons =>
      have hmany : g.disputes r st.next = true := by
        rw [hdisputes, hc]
        simp
      have hselect : st.select g r as = (some a, (st₁.fill 0).mention g r .ambiguous) := by
        rw [select, hsel]
        simp only [hcurrent, hc]
        rfl
      rw [hselect]
      exact .inr ⟨⟨⟨rfl, hunguarded.2 rfl⟩, hmany⟩, st₁.fill 0, hfill st₁ 0 hlook.1, hlook.2, rfl⟩
    all_goals
      have hfew : g.disputes r st.next = false := by
        rw [Bool.eq_false_iff, Ne, hdisputes, hc]
        simp
      have hselect : (st.select g r as).2 = st₁.fill 0 := by
        rw [select, hsel]
        simp only [hcurrent, hc]
      rw [hselect]
      exact .inl ⟨.inr hfew, hfill st₁ 0 hlook.1⟩
  · rw [hsel] at hlook hunguarded
    have hselect : (st.select g r as).2 = st₁ := by rw [select, hsel]
    have hguarded := Bool.eq_false_iff.2 (mt hunguarded.1 (Option.some_ne_none a))
    rw [hselect]
    exact .inl ⟨.inl (.inr hguarded), hlook.1⟩

end ParseState

namespace Parser

/-- The state behind the tokens that are put away when there is no alternative for the next one. -/
def behindUnexpected (p : Parser) (r : Nat) (st : ParseState) : ParseState :=
  (st.unexpected p.grammar p.sync (p.grammar.firstOf r)).2.fill 0

/-- The choices of a step: one when a rule is entered, and one more if tokens had to be put away. -/
def choices (p : Parser) (m : Machine) : List Choice :=
  match m.task with
  | .rule r _ =>
    match p.grammar.body r with
    | .sequence as =>
      let (a, st) := m.state.select p.grammar r as
      ⟨r, as, m.state⟩ :: if a.isSome then [] else [⟨r, as, p.behindUnexpected r st⟩]
    | _ => []
  | _ => []

/-- The choices of so many steps, in their order. -/
def choicesWithin (p : Parser) (n : Nat) (m : Machine) : List Choice :=
  (List.range n).flatMap fun i => p.choices (p.run i m)

/-- The tokens at which a step has something to say of a rule. -/
def occasions (p : Parser) (r : Nat) (m : Machine) : Topic → List Token
  | .ambiguous => ((p.choices m).filter (Choice.contested p.grammar r)).map Choice.token
  | .undefined =>
    match m.task with
    | .rule r' _ =>
      if r' = r ∧ p.grammar.body r = .undefined then [(m.state.fill 0).current] else []
    | _ => []

section Step

variable {p : Parser} {topic : Topic} {r : Nat} {said : List Token} {st : ParseState} {m : Machine}

theorem upheld_once (p : Parser) (topic : Topic) (r : Nat) (said : List Token) :
    p.Upheld (ParseState.Once p.grammar topic r said) where
  fill := fun h => h.fill 0
  takeLeaf := fun h => h.takeLeaf
  pushNode := fun kind children place h => h.pushNode kind children place
  absorb := fun h => h.absorb
  unexpected := fun expected h => h.unexpected p.sync expected

theorem once_behindUnexpected (r' : Nat) (h : st.Once p.grammar topic r said) :
    (p.behindUnexpected r' st).Once p.grammar topic r said :=
  (h.unexpected p.sync _).fill 0

/-- A choice is an occasion if it is contested. -/
theorem once_select (hg : p.grammar.ExactConflicts)
    (hnames : ∀ r' < p.grammar.size, p.grammar.ruleName r' = p.grammar.ruleName r → r' = r)
    {r' : Nat} (hr' : r' < p.grammar.size) {as : List Alternative}
    (hbody : p.grammar.body r' = .sequence as) (h : st.Once p.grammar .ambiguous r said) :
    (st.select p.grammar r' as).2.Once p.grammar .ambiguous r (said ++
      ([⟨r', as, st⟩].filter (Choice.contested p.grammar r)).map Choice.token) := by
  have hcases := ParseState.select_cases hg hbody (fun _ k h => h.fill k) h
  by_cases hr : r' = r
  · subst hr
    rcases hcases with ⟨hcalm, hst⟩ | ⟨hcontested, st₁, hst₁, hcurrent, hselect⟩
    · rw [List.filter_cons_of_neg (ne_true_of_eq_false hcalm)]
      simpa using hst
    · rw [List.filter_cons_of_pos hcontested, hselect]
      show ParseState.Once _ _ _ (said ++ [(st.fill 0).current]) _
      rw [← hcurrent]
      exact hst₁.mention
  · have hcalm : Choice.contested p.grammar r ⟨r', as, st⟩ = false := by
      simp [Choice.contested, hr]
    rw [List.filter_cons_of_neg (ne_true_of_eq_false hcalm)]
    simp only [List.filter_nil, List.map_nil, List.append_nil]
    rcases hcases with ⟨-, hst⟩ | ⟨-, st₁, hst₁, -, hselect⟩
    · exact hst
    · rw [hselect]
      exact hst₁.mention_other fun h => hr (hnames r' hr' h.2)

/-- A choice says nothing of rules without productions. -/
theorem once_select_undefined (h : st.Once p.grammar .undefined r said) (r' : Nat)
    (as : List Alternative) : (st.select p.grammar r' as).2.Once p.grammar .undefined r said := by
  refine ParseState.select_invariant (I := ParseState.Once p.grammar .undefined r said)
    (fun _ k h => h.fill k) (fun st h => ?_) h as
  show ((st.fill 0).mention p.grammar r' .ambiguous).Once _ _ _ _
  exact (h.fill 0).mention_other nofun

/-- A rule without productions is an occasion to say so. -/
theorem once_missingRule
    (hnames : ∀ r' < p.grammar.size, p.grammar.ruleName r' = p.grammar.ruleName r → r' = r)
    {r' : Nat} (hr' : r' < p.grammar.size) (h : st.Once p.grammar topic r said) :
    (st.missingRule p.grammar r').2.Once p.grammar topic r
      (said ++ if topic = .undefined ∧ r' = r then [(st.fill 0).current] else []) := by
  refine ParseState.Once.markDamage
    (ParseState.Once.pushNode ?_ .error [] (st.fill 0).current.position)
  show ((st.fill 0).mention p.grammar r' .undefined).Once _ _ _ _
  split
  · next hsame =>
    obtain ⟨rfl, rfl⟩ := hsame
    exact (h.fill 0).mention
  · next hother =>
    rw [List.append_nil]
    exact (h.fill 0).mention_other fun hnamed =>
      hother ⟨hnamed.1.symm, hnames r' hr' hnamed.2⟩

/-- When a rule has been entered, its last choice is what happened last. -/
theorem state_enterRule {r : Nat} {follow : TokenSet} {frames : List Frame} {nodes : List NodeId}
    {as : List Alternative} (hbody : p.grammar.body r = .sequence as) :
    (p.enterRule r follow frames nodes st).state =
      if (st.select p.grammar r as).1.isSome then (st.select p.grammar r as).2
      else ((p.behindUnexpected r (st.select p.grammar r as).2).select p.grammar r as).2 := by
  rw [enterRule, hbody, behindUnexpected]
  rcases hs : st.select p.grammar r as with ⟨_ | a, st₁⟩
  · rcases hs₂ : ((st₁.unexpected p.grammar p.sync (p.grammar.firstOf r)).2.fill 0).select
      p.grammar r as with ⟨_ | a, st₂⟩
    · simp [hs, hs₂]
    · simp only [hs, hs₂]
      split <;> rfl
  · simp [hs]

/-- Of rules that have productions nothing else is said. -/
theorem occasions_undefined {r' : Nat} {follow : TokenSet} (htask : m.task = .rule r' follow)
    (hbody : p.grammar.body r' ≠ .undefined) : p.occasions r m .undefined = [] := by
  rw [occasions, htask]
  refine if_neg fun h => hbody ?_
  rw [h.1]
  exact h.2

/-- Entering a rule with alternatives takes the occasions of its choices. -/
theorem once_enterRule (hg : p.grammar.ExactConflicts)
    (hnames : ∀ r' < p.grammar.size, p.grammar.ruleName r' = p.grammar.ruleName r → r' = r)
    {r' : Nat} (hr' : r' < p.grammar.size) {as : List Alternative}
    (hbody : p.grammar.body r' = .sequence as) (follow : TokenSet) (frames : List Frame)
    (nodes : List NodeId) (h : st.Once p.grammar topic r said) :
    (p.enterRule r' follow frames nodes st).state.Once p.grammar topic r
      (said ++ p.occasions r ⟨.rule r' follow, frames, nodes, st⟩ topic) := by
  rw [state_enterRule hbody]
  cases topic with
  | ambiguous =>
    have hfirst := once_select hg hnames hr' hbody h
    split
    · next hsome => simpa [occasions, choices, hbody, hsome] using hfirst
    · next hnone =>
      have hsecond := once_select hg hnames hr' hbody (once_behindUnexpected r' hfirst)
      rw [List.append_assoc, ← List.map_append, ← List.filter_append] at hsecond
      simpa [occasions, choices, hbody, hnone] using hsecond
  | undefined =>
    have hfirst := once_select_undefined h r' as
    rw [occasions_undefined rfl (by simp [hbody]), List.append_nil]
    split
    · exact hfirst
    · exact once_select_undefined (once_behindUnexpected r' hfirst) r' as

/-- **A step takes its occasions in order.** -/
theorem once_step (hg : p.grammar.ExactConflicts)
    (hnames : ∀ r' < p.grammar.size, p.grammar.ruleName r' = p.grammar.ruleName r → r' = r)
    (hm : m.Belongs p.grammar) (h : m.state.Once p.grammar topic r said) :
    (p.step m).state.Once p.grammar topic r (said ++ p.occasions r m topic) := by
  obtain ⟨task, frames, nodes, st⟩ := m
  replace h : st.Once p.grammar topic r said := h
  cases task with
  | rule r' follow =>
    have hr' : r' < p.grammar.size := hm.task
    show (p.enterRule r' follow frames nodes st).state.Once _ _ _ _
    cases hbody : p.grammar.body r' with
    | undefined =>
      have hmissing := once_missingRule hnames hr' h
      have hstate : (p.enterRule r' follow frames nodes st).state
          = (st.missingRule p.grammar r').2 := by
        rw [enterRule, hbody]
      rw [hstate]
      cases topic with
      | ambiguous => simpa [occasions, choices, hbody] using hmissing
      | undefined =>
        have hiff : (r' = r ∧ p.grammar.body r = .undefined) ↔ r' = r :=
          ⟨And.left, fun hr => ⟨hr, hr ▸ hbody⟩⟩
        simpa [occasions, hiff] using hmissing
    | expression ops =>
      have hstate : (p.enterRule r' follow frames nodes st).state = st := by
        rw [enterRule, hbody]
      have hnone : p.occasions r ⟨.rule r' follow, frames, nodes, st⟩ topic = [] := by
        cases topic with
        | ambiguous => simp [occasions, choices, hbody]
        | undefined => exact occasions_undefined rfl (by simp [hbody])
      rw [hstate, hnone, List.append_nil]
      exact h
    | sequence as => exact once_enterRule hg hnames hr' hbody follow frames nodes h
  | steps | repetition | expression | climb | done =>
    -- No rule is entered, so nothing is said of one.
    rw [show p.occasions r ⟨_, frames, nodes, st⟩ topic = [] by cases topic <;> rfl,
      List.append_nil]
    exact (step_move p _).upheld (upheld_once p topic r said) (fun _ _ => nofun) h

end Step

/-- The tokens at which so many steps have something to say of a rule. -/
def occasionsWithin (p : Parser) (r n : Nat) (m : Machine) (topic : Topic) : List Token :=
  (List.range n).flatMap fun i => p.occasions r (p.run i m) topic

theorem occasionsWithin_ambiguous (p : Parser) (r n : Nat) (m : Machine) :
    p.occasionsWithin r n m .ambiguous
      = ((p.choicesWithin n m).filter (Choice.contested p.grammar r)).map Choice.token := by
  rw [occasionsWithin, choicesWithin, List.filter_flatMap, List.map_flatMap]
  rfl

section Answered

variable {decls : List GrammarDecl} {g : Grammar} {n r : Nat} {q : Parse}

/-- Before the first token nothing has been said. -/
theorem once_ofStream (g : Grammar) (topic : Topic) (r : Nat) (table : TokenTable)
    (mode : TriviaMode) (text : List Char) (depth : Nat) :
    (ParseState.ofStream (.ofLexer (.ofText table mode text) depth)).Once g topic r [] where
  toTold := ParseState.told_ofStream (fun _ hd => Topic.names_of_isLexical hd) table mode text depth
  heard := by cases topic <;> simp [ParseState.heard, ParseState.ofStream]

/-- **A run takes its occasions in order.** -/
theorem once_run (hg : Grammar.ofDecls decls = .ok g) (hr : r < g.size) (topic : Topic)
    (sync : TokenSet) (table : TokenTable) (mode : TriviaMode) (text : List Char) (depth n : Nat) :
    (run ⟨g, sync⟩ n (start ⟨g, sync⟩ (.ofLexer (.ofText table mode text) depth))).state.Once
      g topic r (occasionsWithin ⟨g, sync⟩ r n
        (start ⟨g, sync⟩ (.ofLexer (.ofText table mode text) depth)) topic) := by
  have hnames : ∀ r' < g.size, g.ruleName r' = g.ruleName r → r' = r :=
    fun r' hr' => Grammar.eq_of_ruleName_eq hg hr' hr
  induction n with
  | zero => exact (once_ofStream g topic r table mode text depth).fill 0
  | succ n ih =>
    have hreaches : Parser.Reaches ⟨g, sync⟩ (.ofLexer (.ofText table mode text) depth)
        (run ⟨g, sync⟩ n (start ⟨g, sync⟩ _)) := ⟨n, rfl⟩
    have hstep := once_step (p := ⟨g, sync⟩) (Grammar.exactConflicts_of_ofDecls hg) hnames
      (hreaches.belongs (Grammar.checked_of_ofDecls hg)) ih
    rw [run_succ, occasionsWithin, List.range_succ, List.flatMap_append, List.flatMap_singleton]
    exact hstep

/-- What an answer says of a rule on a topic: it takes the first occasion that there was, if there
was one. -/
theorem told_of_answers {sync : TokenSet} {table : TokenTable} {mode : TriviaMode}
    {text : List Char} {depth : Nat} (hg : Grammar.ofDecls decls = .ok g)
    (hq : Parser.Answers ⟨g, sync⟩ (.ofLexer (.ofText table mode text) depth) q)
    (hn : (run ⟨g, sync⟩ n
      (start ⟨g, sync⟩ (.ofLexer (.ofText table mode text) depth))).halted = true)
    (hr : r < g.size) (topic : Topic) :
    q.diagnostics.filter (topic.names (g.ruleName r)) =
      ((occasionsWithin ⟨g, sync⟩ r n
        (start ⟨g, sync⟩ (.ofLexer (.ofText table mode text) depth)) topic).head?.map
          fun t => topic.report (g.ruleName r) (.ofToken t)).toList := by
  rw [finish_of_reaches ⟨n, rfl⟩ hn hq]
  have htold := (once_run hg hr topic sync table mode text depth n).toTold
  refine told_finish htold fun token place => ?_
  exact Topic.names_of_code (by simp [Diagnostic.trailingInput])

/-- The conflicts of a grammar are those between its alternatives. When a parse has ended, there is
one report that the choice for a rule is ambiguous if an alternative of the rule was chosen where no
guard of it was there and the next token was one of its conflict, and it points at the first such
token; else there is none. There is one report at most that the rule has no productions.

A choice is what is made when the rule is entered, and once more behind tokens that had to be put
away. The second one may come to nothing: next to tokens that were skipped before, the rule is given
up whatever has been chosen. -/
theorem conflicts_of_ofDecls (hg : Grammar.ofDecls decls = .ok g) :
    g.ExactConflicts ∧
      ∀ {sync table mode text depth q n r},
        Parser.Answers ⟨g, sync⟩ (.ofLexer (.ofText table mode text) depth) q →
        (run ⟨g, sync⟩ n (start ⟨g, sync⟩ (.ofLexer (.ofText table mode text) depth))).halted →
        r < g.size →
          q.diagnostics.filter (Topic.ambiguous.names (g.ruleName r)) =
              (((choicesWithin ⟨g, sync⟩ n (start ⟨g, sync⟩
                  (.ofLexer (.ofText table mode text) depth))).find? (Choice.contested g r)).map
                fun c => .ambiguousRule (g.ruleName r) (.ofToken c.token)).toList ∧
            (q.diagnostics.filter (Topic.undefined.names (g.ruleName r))).length ≤ 1 := by
  refine ⟨Grammar.exactConflicts_of_ofDecls hg, fun hq hn hr => ⟨?_, ?_⟩⟩
  · rw [told_of_answers hg hq hn hr, occasionsWithin_ambiguous, List.head?_map, List.head?_filter,
      Option.map_map]
    rfl
  · rw [told_of_answers hg hq hn hr]
    exact Option.length_toList_le

/-- The choice that comes first is the first choice of all. -/
theorem find?_choicesWithin {p : Parser} {m : Machine} {c : Choice} {rest : List Choice}
    {f : Choice → Bool} (hn : (p.run n m).halted = true) (hchoices : p.choices m = c :: rest)
    (hc : f c = true) : (p.choicesWithin n m).find? f = some c := by
  cases n with
  | zero =>
    obtain ⟨-, hdone⟩ := Bool.and_eq_true_iff.1 (show m.halted = true from hn)
    unfold choices at hchoices
    cases htask : m.task <;> simp [htask] at hdone hchoices
  | succ n =>
    rw [choicesWithin, List.range_succ_eq_map, List.flatMap_cons]
    show ((p.choices m) ++ _).find? f = some c
    rw [hchoices, List.cons_append, List.find?_cons_of_pos hc]

/-- With the letter next, the choice for the rule is contested. -/
theorem contested_forked {m : Machine} {follow : TokenSet} (htask : m.task = .rule 0 follow)
    (hnext : m.state.next = .kind 0) :
    ∃ as rest, choices ⟨.forked, ∅⟩ m = ⟨0, as, m.state⟩ :: rest ∧
      Choice.contested .forked 0 ⟨0, as, m.state⟩ = true := by
  have hdisputes := (Grammar.exactConflicts_of_ofDecls Grammar.ofDecls_forked).disputes_iff.2
    Grammar.clashes_forked
  have hbody := Grammar.body_forked 0
  rw [if_pos rfl] at hbody
  generalize has : [Analysis.alternative .., Analysis.alternative ..] = as at hbody
  have hguard : ∀ a ∈ as, a.guard = [] := by
    rw [← has]
    simp [Analysis.alternative]
  have hunguarded : (as.all fun a => a.guard.isEmpty
      || !ParseState.guardAhead m.state.ids a.guard) = true := by
    refine List.all_eq_true.2 fun a ha => ?_
    rw [hguard a ha]
    rfl
  obtain ⟨a, hchoose, -⟩ := ParseState.exists_choose_of_first hguard (has ▸ List.mem_cons_self)
    (show _ = true by rw [← ParseState.next, hnext]; rfl)
  have hid : (Choice.mk 0 as m.state).token.id = .kind 0 := m.state.id_current_fill.trans hnext
  refine ⟨as, _, by rw [choices, htask]; simp only [hbody]; rfl, ?_⟩
  rw [Choice.contested, ParseState.fst_select, hchoose, hunguarded, hid, hdisputes]
  rfl

/-- One letter, with which both alternatives begin. -/
theorem conflicts_of_ofDecls_forked :
    ∃ q t, Parser.Answers ⟨.forked, ∅⟩ (.ofText sampleTable ['x'] 1) q ∧ t.id = .kind 0 ∧
      q.diagnostics.filter (Topic.ambiguous.names "item")
        = [.ambiguousRule "item" (.ofToken t)] := by
  have hcomplete : Grammar.forked.Complete := by
    intro r hr
    have hsize : Grammar.forked.size = 1 := by decide +kernel
    rw [Grammar.body_forked, if_pos (by omega)]
    nofun
  obtain ⟨q, hq⟩ := exists_answer_of_complete (p := ⟨.forked, ∅⟩)
    (Grammar.checked_of_ofDecls Grammar.ofDecls_forked) (Grammar.lacks_forked nofun) hcomplete
    (.ofText sampleTable ['x'] 1)
  obtain ⟨n, hn, -⟩ := (answers_iff ..).1 hq
  have htold := ((conflicts_of_ofDecls Grammar.ofDecls_forked).2 hq hn (r := 0)
    (by decide +kernel)).1
  have hids := ids_start ⟨.forked, ∅⟩ sampleTable ['x'] 1
  rw [textIds_sampleTable_name] at hids
  have hne : Lexer.textIds sampleTable ['x'] ≠ [] := by
    rw [textIds_sampleTable_name]
    exact List.cons_ne_nil _ _
  obtain ⟨htask, -⟩ := task_start ⟨.forked, ∅⟩ 1 hne
  have hnext : (start ⟨.forked, ∅⟩ (.ofText sampleTable ['x'] 1)).state.next = .kind 0 := by
    rw [ParseState.next, hids]
    rfl
  -- The first choice of the parse is contested, so that it is the one which is told.
  obtain ⟨as, rest, hchoices, hcontested⟩ := contested_forked htask hnext
  refine ⟨q, _, hq, (ParseState.id_current_fill _).trans hnext, ?_⟩
  rw [show Grammar.forked.ruleName 0 = "item" by decide +kernel] at htold
  have hfirst : (choicesWithin ⟨.forked, ∅⟩ n (start ⟨.forked, ∅⟩
      (.ofLexer (.ofText sampleTable .skip ['x']) 1))).find? (Choice.contested .forked 0)
        = some ⟨0, as, _⟩ := find?_choicesWithin hn hchoices hcontested
  rw [htold, hfirst]
  rfl

end Answered

end Parser

end FrontEnd
