import FrontEnd.Proofs.Grammar.Extension
import FrontEnd.Proofs.Parser.Passing
import FrontEnd.Proofs.Parser.Soundness

/-!
# Rules of which nothing is there

A rule that can be empty may be left out where the next token does not begin it. The parser takes
the first alternative that can be empty then, and leaves out what this one is made of. Only a rule
of operands and operators is never left out: an operand is asked for, **even if the operand can be
empty**.

- `Grammar.Vanishes`: a rule is left out without complaints;
- `Parser.passes_of_vanishes`: it is left out in front of whatever may follow;
- `Parser.Spared.vanishes`: no other rule is;
- `Parser.quiet_iff_vanishes`: how a text of one token is parsed with such a rule in front of it;
- `Parser.hollow_blamed`: a sum of operands that can be empty.
-/

namespace FrontEnd

namespace Grammar

open Analysis

/-- Of the alternatives of the rule the first that can be empty is made of rules that vanish, and of
what is optional or repeated. -/
inductive Vanishes (g : Grammar) : Nat → Prop
  | sequence {r : Nat} {as : List Alternative} {a : Alternative} (hb : g.body r = .sequence as)
    (ha : as.find? (·.nullable) = some a) (h : ∀ s, .rule s ∈ a.symbols → Vanishes g s) :
    Vanishes g r

/-- All of the symbols can be empty, and the token begins none of them. -/
def Missable (g : Grammar) (t : TokenId) (symbols : List Symbol) : Prop :=
  ∀ symbol ∈ symbols, symbolNullable g.nullable symbol = true ∧
    (symbolFirst g.first symbol).contains t = false

variable {g g' : Grammar} {r s : Nat} {t : TokenId} {symbol : Symbol} {symbols rest : List Symbol}

theorem Missable.cons (h : g.Missable t (symbol :: rest)) :
    (symbolNullable g.nullable symbol = true ∧ (symbolFirst g.first symbol).contains t = false) ∧
      g.Missable t rest :=
  List.forall_mem_cons.1 h

theorem missable_of_sequenceFirst (hnull : (sequenceFirst g.nullable g.first symbols).2 = true)
    (hfirst : (sequenceFirst g.nullable g.first symbols).1.contains t = false) :
    g.Missable t symbols := by
  induction symbols with
  | nil => exact List.forall_mem_nil _
  | cons symbol rest ih =>
    rw [snd_sequenceFirst, List.all_cons, Bool.and_eq_true] at hnull
    have hno := fun h => Bool.eq_false_iff.1 hfirst (contains_sequenceFirst.2 h)
    refine List.forall_mem_cons.2 ⟨⟨hnull.1, Bool.eq_false_iff.2 fun h => hno (.inl h)⟩, ih ?_ ?_⟩
    · rw [snd_sequenceFirst]
      exact hnull.2
    · exact Bool.eq_false_iff.2 fun h => hno (.inr ⟨hnull.1, h⟩)

/-- A rule in a production that can be empty can begin it. -/
theorem mem_leading_of_nullable
    (hnull : ∀ symbol ∈ symbols, symbolNullable g.nullable symbol = true)
    (hs : .rule s ∈ symbols) : s ∈ leading g.nullable symbols := by
  induction symbols with
  | nil => exact absurd hs List.not_mem_nil
  | cons symbol rest ih =>
    obtain ⟨hempty, hrest⟩ := List.forall_mem_cons.1 hnull
    rw [leading, List.mem_append, if_pos hempty]
    rcases List.mem_cons.1 hs with rfl | hs
    · exact .inl List.mem_cons_self
    · exact .inr (ih hrest hs)

namespace Checked

/-- What is noted of an alternative that can be empty, where the next token does not begin the
rule. -/
theorem missable (hc : g.Checked) {as : List Alternative} {a : Alternative}
    (hb : g.body r = .sequence as) (ha : as.find? (·.nullable) = some a)
    (hfirst : (g.firstOf r).contains t = false) :
    (∀ b ∈ as, b.first.contains t = false) ∧ a.steps = steps g.nullable g.first a.symbols ∧
      g.Missable t a.symbols := by
  have hnone : ∀ b ∈ as, b.first.contains t = false := fun b hmem =>
    Bool.eq_false_iff.2 fun h => Bool.eq_false_iff.1 hfirst (hc.first_sequence hb hmem h)
  have hmem := List.mem_of_find?_eq_some ha
  have hnull := List.find?_some (p := fun a : Alternative => a.nullable) ha
  have hnone' := hnone a hmem
  rw [hc.analysed hb hmem] at hnull hnone'
  refine ⟨hnone, ?_, missable_of_sequenceFirst hnull hnone'⟩
  conv => lhs; rw [hc.analysed hb hmem]
  rfl

/-- A rule that can be empty and is no expression has an alternative that can be empty. -/
theorem exists_nullable (hc : g.Checked) {as : List Alternative} (hb : g.body r = .sequence as)
    (h : g.isNullable r = true) : ∃ a, as.find? (·.nullable) = some a := by
  obtain ⟨body, hbody, hblank⟩ := hc.exists_expansion_of_nullable h
  rcases mem_expansions_rule.1 hbody with ⟨as', a, hb', ha, rfl⟩ | ⟨ops, hb', -⟩
  · rw [hb] at hb'
    cases hb'
    rw [← Option.isSome_iff_exists, List.find?_isSome]
    exact ⟨a, ha, (hc.nullable_eq hb ha).trans hblank⟩
  · rw [hb] at hb'
    cases hb'

/-- Where operands are never empty, all rules that can be empty vanish. -/
theorem vanishes_of_solidOperands (hc : g.Checked) (hsolid : g.SolidOperands)
    (h : g.isNullable r = true) : g.Vanishes r := by
  obtain ⟨rank, hrank⟩ := hc.ranked
  generalize hn : rank r = n
  induction n using Nat.strong_induction_on generalizing r with
  | _ n ih =>
    subst hn
    obtain ⟨body, hbody, hblank⟩ := hc.exists_expansion_of_nullable h
    rcases mem_expansions_rule.1 hbody with ⟨as, -, hb, -, -⟩ | ⟨ops, hb, rfl⟩
    · obtain ⟨a, ha⟩ := hc.exists_nullable hb h
      have hmem := List.mem_of_find?_eq_some ha
      have hempty := List.find?_some (p := fun a : Alternative => a.nullable) ha
      rw [hc.analysed hb hmem] at hempty
      have hnull := List.all_eq_true.1 ((snd_sequenceFirst ..).symm.trans hempty)
      refine .sequence hb ha fun s hs => ih _ ?_ (hnull _ hs) rfl
      exact hrank.sequence hb hmem (mem_leading_of_nullable hnull hs)
    · have hoperand : g.isNullable ops.operand = true := by
        have hunary := List.all_eq_true.1 hblank _ List.mem_cons_self
        rwa [blank, hb] at hunary
      exact absurd ((hsolid r ops hb).symm.trans hoperand) Bool.false_ne_true

theorem defined_of_nullable (hc : g.Checked) (h : g.isNullable r = true) :
    g.body r ≠ .undefined := by
  intro hnone
  obtain ⟨body, hbody, -⟩ := hc.exists_expansion_of_nullable h
  rw [expansions_rule, hnone] at hbody
  exact List.not_mem_nil hbody

theorem lt_size_of_nullable (hc : g.Checked) (h : g.isNullable r = true) : r < g.size :=
  lt_size_of_body (hc.defined_of_nullable h)

end Checked

/-! ## One rule more -/

namespace Continues

variable {ps : List Production}

theorem body_cases (h : g.Continues g' ps) (s : Nat) :
    s < g.size ∧ g'.body s = g.body s ∨
      g'.body s = .sequence (ps.map (alternative g'.nullable g'.first)) ∨
      g'.body s = .undefined := by
  rcases Nat.lt_trichotomy s g.size with hlt | rfl | hlt
  · exact .inl ⟨hlt, h.body s hlt⟩
  · exact .inr (.inl h.last)
  · refine .inr (.inr (by_contra fun hbody => ?_))
    have hlt' := lt_size_of_body hbody
    rw [h.size] at hlt'
    omega

theorem alternative_cases (h : g.Continues g' ps) {as : List Alternative} {a : Alternative}
    (hb : g'.body s = .sequence as) (ha : a ∈ as) :
    g.body s = .sequence as ∨ ∃ p ∈ ps, a = alternative g'.nullable g'.first p := by
  rcases h.body_cases s with ⟨-, hbody⟩ | hbody | hbody
  · exact .inl (hbody.symm.trans hb)
  · rw [hbody] at hb
    cases hb
    obtain ⟨p, hp, rfl⟩ := List.mem_map.1 ha
    exact .inr ⟨p, hp, rfl⟩
  · rw [hbody] at hb
    cases hb

theorem unguarded (h : g.Continues g' ps) (hguard : g.Unguarded) (hps : ∀ p ∈ ps, p.guard = []) :
    g'.Unguarded := by
  intro s as a hb ha
  rcases h.alternative_cases hb ha with hbody | ⟨p, hp, rfl⟩
  · exact hguard s as a hbody ha
  · exact hps p hp

theorem lacks (h : g.Continues g' ps) (hlacks : g.Lacks t)
    (hps : ∀ p ∈ ps, .token t ∉ p.symbols) : g'.Lacks t := by
  refine ⟨fun s as a hb ha => ?_, fun s ops hb => ?_⟩
  · rcases h.alternative_cases hb ha with hbody | ⟨p, hp, rfl⟩
    · exact hlacks.1 s as a hbody ha
    · exact hps p hp
  · rcases h.body_cases s with ⟨-, hbody⟩ | hbody | hbody
    · exact hlacks.2 s ops (hbody.symm.trans hb)
    · rw [hbody] at hb
      cases hb
    · rw [hbody] at hb
      cases hb

/-- A rule that is there with others behind it vanishes just if it did without them. -/
theorem vanishes_iff (h : g.Continues g' ps) (hc : g.Checked)
    (hr : r < g.size) : g'.Vanishes r ↔ g.Vanishes r := by
  constructor
  · intro hv
    induction hv with
    | sequence hb ha _ ih =>
      rw [h.body _ hr] at hb
      refine .sequence hb ha fun s hs => ih s hs ?_
      exact hc.rule_lt hb (List.mem_of_find?_eq_some ha) hs rfl
  · intro hv
    induction hv with
    | sequence hb ha _ ih =>
      refine .sequence ((h.body _ hr).trans hb) ha fun s hs => ih s hs ?_
      exact hc.rule_lt hb (List.mem_of_find?_eq_some ha) hs rfl

end Continues

/-- The grammar starts with the rule and the token behind it, and every parse with it ends. -/
structure StartsWith (g : Grammar) (r : Nat) (t : TokenId) : Prop where
  checked : g.Checked
  unguarded : g.Unguarded
  lacks_eof : g.Lacks .eof
  start : g.body g.start = .sequence [alternative g.nullable g.first ⟨[.rule r, .token t], []⟩]

/-- Behind the declarations of a grammar there is room for a start rule with one production, of a
rule that is there and a token. -/
theorem exists_startsWith {decls : List GrammarDecl} (hg : ofDecls decls = .ok g)
    (hguard : g.Unguarded) (hend : g.Lacks .eof) (hr : r < g.size) (ht : t ≠ .eof) {name : String}
    (hname : ∀ rule ∈ g.rules, rule.name ≠ name) (hroom : g.size < 65536) :
    ∃ g', ofDecls (decls ++ [.rule name [⟨[.rule r, .token t], []⟩], .start g.size]) = .ok g' ∧
      g.Continues g' [⟨[.rule r, .token t], []⟩] ∧ g'.StartsWith r t := by
  have hnames : ∀ p ∈ [(⟨[.rule r, .token t], []⟩ : Production)], Analysis.Names g.size p.symbols :=
    List.forall_mem_singleton.2 (List.forall_mem_singleton.2 hr)
  obtain ⟨g', hg', hcontinues⟩ := exists_continues hg hname hroom hnames
    (List.forall_mem_singleton.2 fun s => by simp)
  refine ⟨g', hg', hcontinues, checked_of_ofDecls hg', ?_, ?_, ?_⟩
  · exact hcontinues.unguarded hguard (List.forall_mem_singleton.2 rfl)
  · exact hcontinues.lacks hend (by simp [ht.symm])
  · rw [hcontinues.start, hcontinues.last]
    rfl

end Grammar

namespace Parser

open Analysis

variable {p : Parser} {r : Nat} {t : TokenId} {follow : TokenSet} {ids input : List TokenId}
  {symbol : Symbol} {symbols rest : List Symbol}

/-! ## Rules that are left out -/

/-- What may follow a production may follow each of its symbols, if those behind it can be
empty. -/
theorem contains_followOf (symbol : Symbol) (hmiss : p.grammar.Missable t rest)
    (hfollow : follow.contains t = true) :
    (followOf ⟨symbol, (sequenceFirst p.grammar.nullable p.grammar.first rest).1,
      (sequenceFirst p.grammar.nullable p.grammar.first rest).2⟩ follow).contains t = true := by
  have hempty : (sequenceFirst p.grammar.nullable p.grammar.first rest).2 = true := by
    rw [snd_sequenceFirst, List.all_eq_true]
    exact fun x hx => (hmiss x hx).1
  rw [followOf, if_pos hempty, TokenSet.contains_union, hfollow, Bool.or_true]

/-- A symbol that can be empty is left out where the next token does not begin it, if it may be
followed by the token. -/
theorem enters_of_missable (hnull : symbolNullable p.grammar.nullable symbol = true)
    (hfirst : (symbolFirst p.grammar.first symbol).contains (ids.headD .eof) = false)
    (hrule : ∀ s, symbol = .rule s → p.Passes (.rule s follow) ids ids)
    (hfollow : follow.contains (ids.headD .eof) = true) : p.Enters symbol follow ids ids := by
  cases symbol with
  | token t => cases hnull
  | rule s => exact enters_rule (hrule s rfl)
  | opt s => exact enters_opt hfirst follow
  | many s => exact enters_many (passes_close hfirst hfollow)

theorem passes_of_missable (hmiss : p.grammar.Missable (ids.headD .eof) symbols)
    (hrule : ∀ s, .rule s ∈ symbols → ∀ follow : TokenSet,
      follow.contains (ids.headD .eof) = true → p.Passes (.rule s follow) ids ids)
    (hfollow : follow.contains (ids.headD .eof) = true) :
    p.Passes (.steps (steps p.grammar.nullable p.grammar.first symbols) follow .proceeding)
      ids ids := by
  induction symbols with
  | nil => exact passes_nil p follow ids
  | cons symbol rest ih =>
    obtain ⟨⟨hnull, hfirst⟩, hrest⟩ := hmiss.cons
    have hfollow' := contains_followOf symbol hrest hfollow
    refine passes_cons (enters_of_missable hnull hfirst (fun s hs => ?_) hfollow')
      (ih hrest fun s hs => hrule s (List.mem_cons_of_mem _ hs))
    exact hrule s (hs ▸ List.mem_cons_self) _ hfollow'

/-- A rule that vanishes is left out quietly where the next token does not begin it, if it may be
followed by the token. -/
theorem passes_of_vanishes (hc : p.grammar.Checked) (hguard : p.grammar.Unguarded)
    (h : p.grammar.Vanishes r) (hfirst : (p.grammar.firstOf r).contains (ids.headD .eof) = false)
    (hfollow : follow.contains (ids.headD .eof) = true) : p.Passes (.rule r follow) ids ids := by
  induction h generalizing follow with
  | sequence hb ha _ ih =>
    obtain ⟨hnone, hsteps, hmiss⟩ := hc.missable hb ha hfirst
    have hchoose := ParseState.choose_eq_of_find? (fun a => hguard _ _ a hb) hnone ha
    refine passes_of_choose hb (fun a => hguard _ _ a hb)
      (ParseState.length_candidates_le_one hnone) hchoose ?_
    rw [hsteps]
    exact passes_of_missable hmiss (fun s hs follow => ih s hs (hmiss _ hs).2) hfollow

/-! ## Rules that are not -/

/-- A quiet moment, from which on nothing will be reported but ambiguities. -/
structure Spared (p : Parser) (input ids : List TokenId) (m : Machine) : Prop where
  tracing : p.Tracing input m
  quiet : m.state.Quiet
  ids : m.state.ids = ids
  clean : ∀ n, (p.run n m).state.Clean

namespace Spared

variable {frames : List Frame} {nodes : List NodeId} {st : ParseState} {m m' : Machine}

theorem later (hc : p.grammar.Checked) (hend : p.grammar.Lacks .eof) (h : p.Spared input ids m)
    {n : Nat} (hrun : p.run n m = m') (hquiet : m'.state.Quiet) (hids : m'.state.ids = ids) :
    p.Spared input ids m' := by
  subst hrun
  refine ⟨tracing_run hc hend h.tracing n (h.clean n), hquiet, hids, fun k => ?_⟩
  rw [← run_add]
  exact h.clean (n + k)

/-- An operand is asked for wherever an expression is parsed. -/
theorem not_expression (hc : p.grammar.Checked) (h : p.Spared input ids ⟨.rule r follow, frames,
    nodes, st⟩) (hfirst : (p.grammar.firstOf r).contains (ids.headD .eof) = false)
    (ops : Operators) : p.grammar.body r ≠ .expression ops := by
  intro hb
  have hno := fun hor => Bool.eq_false_iff.1 hfirst (hc.first_expression hb hor)
  have hprefix : ops.prefixPrecedence? st.next = none := by
    rw [Operators.prefixPrecedence?, Option.map_eq_none_iff, List.find?_eq_none]
    intro op hop heq
    refine hno (.inr (List.mem_map.2 ⟨op, hop, (eq_of_beq heq).trans ?_⟩))
    rw [ParseState.next, h.ids]
  have hoperand : ¬ (p.grammar.firstOf ops.operand).contains st.next = true := by
    rw [ParseState.next, h.ids]
    exact fun hcontains => hno (.inl hcontains)
  have hstays := st.stays_fill 0
  obtain ⟨⟨errors, st₁⟩, hu⟩ : ∃ x, (st.fill 0).unexpected p.grammar p.sync
      (p.grammar.firstOf r) = x := ⟨_, rfl⟩
  have hrun : (p.run 2 ⟨.rule r follow, frames, nodes, st⟩).state = st₁ := by
    show (p.step (p.enterRule r follow frames nodes st)).state = _
    rw [enterRule, hb]
    show (p.enterExpression _ _ _ st).state = _
    simp only [enterExpression, ParseState.id_current_fill, hprefix, if_neg hoperand, hu]
  refine not_clean_of_unexpected (hstays.honest h.tracing.honest)
    (hstays.recoveredAt.trans h.tracing.recoveredAt) hu ?_
  rw [← hrun]
  exact h.clean 2

/-- A production that is left out is made of rules that vanish, if the rules that are left out in it
do. -/
theorem vanishes_of_steps (hc : p.grammar.Checked) (hend : p.grammar.Lacks .eof)
    (hguard : p.grammar.Unguarded) (hmiss : p.grammar.Missable (ids.headD .eof) symbols)
    (hrule : ∀ s, .rule s ∈ symbols → ∀ follow frames nodes st,
      p.Spared input ids ⟨.rule s follow, frames, nodes, st⟩ →
      follow.contains (ids.headD .eof) = true → p.grammar.Vanishes s)
    (h : p.Spared input ids ⟨.steps (steps p.grammar.nullable p.grammar.first symbols) follow
      .proceeding, frames, nodes, st⟩) (hfollow : follow.contains (ids.headD .eof) = true) :
    ∀ s, .rule s ∈ symbols → p.grammar.Vanishes s := by
  induction symbols generalizing nodes st with
  | nil => exact fun s hs => absurd hs List.not_mem_nil
  | cons symbol rest ih =>
    obtain ⟨⟨hnull, hfirst⟩, hrest⟩ := hmiss.cons
    have hfollow' := contains_followOf symbol hrest hfollow
    have hvanishes : ∀ s, symbol = .rule s → p.grammar.Vanishes s := by
      rintro s rfl
      exact hrule s List.mem_cons_self _ _ _ _ (h.later hc hend (n := 1) rfl h.quiet h.ids) hfollow'
    -- What vanishes is left out quietly, so that the rest of the production is come to.
    have henters : p.Enters symbol _ ids ids := enters_of_missable hnull hfirst (fun s hs => by
      subst hs
      exact passes_of_vanishes hc hguard (hvanishes s rfl) hfirst hfollow') hfollow'
    obtain ⟨-, n, made, st', hreturns, hquiet', hids'⟩ := henters.goes_on (s := ⟨symbol, _, _⟩)
      (steps p.grammar.nullable p.grammar.first rest) frames nodes h.quiet h.ids
    have hrun : p.run (n + 1 + 1) ⟨.steps (steps p.grammar.nullable p.grammar.first
        (symbol :: rest)) follow .proceeding, frames, nodes, st⟩
          = ⟨.steps (steps p.grammar.nullable p.grammar.first rest) follow .proceeding, frames,
            made ++ nodes, st'⟩ :=
      (run_succ p n _).trans (congrArg p.step hreturns.run)
    have hbehind := ih hrest (fun s hs => hrule s (List.mem_cons_of_mem _ hs))
      (h.later hc hend hrun hquiet' hids')
    intro s hs
    rcases List.mem_cons.1 hs with heq | hs
    · exact hvanishes s heq.symm
    · exact hbehind s hs

/-- Only rules that vanish are left out without complaints. -/
theorem vanishes (hc : p.grammar.Checked) (hend : p.grammar.Lacks .eof)
    (hguard : p.grammar.Unguarded) {rank : Nat → Nat} (hrank : p.grammar.Ranks rank) (bound : Nat) :
    ∀ {r : Nat} {follow : TokenSet} {frames : List Frame} {nodes : List NodeId} {st : ParseState},
      rank r < bound → p.Spared input ids ⟨.rule r follow, frames, nodes, st⟩ →
      p.grammar.isNullable r = true → (p.grammar.firstOf r).contains (ids.headD .eof) = false →
      follow.contains (ids.headD .eof) = true → p.grammar.Vanishes r := by
  -- By induction on the rank, which falls from a rule to those of the production that is chosen.
  induction bound with
  | zero => exact fun hlt => absurd hlt (Nat.not_lt_zero _)
  | succ bound ih =>
    intro r follow frames nodes st hlt h hnull hfirst hfollow
    cases hb : p.grammar.body r with
    | undefined =>
      exact absurd hb (hc.defined_of_nullable hnull)
    | expression ops => exact absurd hb (h.not_expression hc hfirst ops)
    | sequence as =>
      obtain ⟨a, ha⟩ := hc.exists_nullable hb hnull
      obtain ⟨hnone, hsteps, hmiss⟩ := hc.missable hb ha hfirst
      have hchoose := ParseState.choose_eq_of_find? (fun a => hguard _ _ a hb) hnone ha
      obtain ⟨st₁, hstep, hquiet₁, hids₁⟩ := step_of_choose_quietly hb (fun a => hguard _ _ a hb)
        (ParseState.length_candidates_le_one hnone) hchoose follow frames nodes h.quiet h.ids
      rw [hsteps] at hstep
      refine .sequence hb ha (vanishes_of_steps hc hend hguard hmiss ?_
        (h.later hc hend (n := 1) hstep hquiet₁ hids₁) hfollow)
      intro s hs follow' frames' nodes' st' hspared hfollow'
      have hfalls := hrank.sequence hb (List.mem_of_find?_eq_some ha)
        (Grammar.mem_leading_of_nullable (fun x hx => (hmiss x hx).1) hs)
      exact ih (by omega) hspared (hmiss _ hs).1 (hmiss _ hs).2 hfollow'

end Spared

/-! ## In front of one token -/

section OneToken

variable {table : TokenTable} {text : List Char} {depth : Nat} {q : Parse}

/-- What vanishes is left out quietly in front of a token. -/
theorem answers_quietly_of_vanishes (hp : p.grammar.StartsWith r t)
    (hfirst : (p.grammar.firstOf r).contains t = false) (hknown : t ≠ .unknown)
    (h : p.grammar.Vanishes r) (htext : Lexer.textIds table text = [t]) (depth : Nat) :
    ∃ q, p.Answers (.ofText table text depth) q ∧ q.diagnostics = [] ∧ q.tree.errorNodes = [] := by
  refine answers_quietly_of_passes depth ?_ ?_ ?_
  · rw [htext]
    nofun
  · rw [htext, List.mem_singleton]
    exact hknown.symm
  · rw [htext]
    refine passes_of_choose hp.start (fun a => hp.unguarded _ _ a hp.start)
      (List.length_filter_le ..) (ParseState.choose_singleton ..) ?_
    show p.Passes (.steps [⟨.rule r, .single t, false⟩, ⟨.token t, ∅, true⟩] _ _) _ _
    refine passes_cons (enters_rule (passes_of_vanishes hp.checked hp.unguarded h hfirst ?_))
      (passes_cons (enters_token p t _ []) (passes_nil p _ _))
    exact TokenSet.contains_single.trans (beq_self_eq_true t)

/-- The parse of an answer that reports nothing but ambiguities reports nothing else at any time. -/
theorem clean_run_of_answers (hq : p.Answers (.ofText table text depth) q)
    (hclean : ∀ d ∈ q.diagnostics, d.code = .ambiguousRule) (n : Nat) :
    (p.run n (p.start (.ofText table text depth))).state.Clean := by
  obtain ⟨k, hhalted, rfl⟩ := (answers_iff ..).1 hq
  have hlast : (p.run k (p.start (.ofText table text depth))).state.Clean :=
    fun d hd => hclean d ((finish_spec _).1 hd)
  rcases Nat.le_total k n with hle | hle
  · rwa [run_of_halted_le hhalted hle]
  · obtain ⟨j, rfl⟩ := Nat.exists_eq_add_of_le hle
    rw [run_add] at hlast
    obtain ⟨i, htakes⟩ := run_takes p j (p.run n (p.start (.ofText table text depth)))
    exact hlast.of_takes htakes

/-- A character that no rule matches is complained about from the first. -/
theorem not_clean_start (htext : Lexer.textIds table text = [.unknown]) :
    ¬ (p.start (.ofText table text depth)).state.Clean := by
  intro hclean
  have hids := ids_start p table text depth
  rw [htext] at hids
  have hids' : (ParseState.ofStream (.ofText table text depth)).next = .unknown := by
    rw [← (stays_start p _).next, ParseState.next, hids]
    rfl
  have hne : (ParseState.ofStream (.ofText table text depth)).next ≠ .eof := by
    rw [hids']
    decide
  have hbuffer := ParseState.current_mem_buffer hne
  have hid := (ParseState.ofStream (.ofText table text depth)).id_current_fill.trans hids'
  have hfiled := (honest_start p _ depth).looked _ hbuffer
  rw [Token.complaints, if_pos hid] at hfiled
  have hcode := hclean _ (hfiled (List.mem_singleton_self _))
  cases hcode

/-- Without a complaint nothing else is left out in front of a token. -/
theorem vanishes_of_answers (hp : p.grammar.StartsWith r t)
    (hnull : p.grammar.isNullable r = true) (hfirst : (p.grammar.firstOf r).contains t = false)
    (htext : Lexer.textIds table text = [t]) (hq : p.Answers (.ofText table text depth) q)
    (hclean : ∀ d ∈ q.diagnostics, d.code = .ambiguousRule) :
    t ≠ .unknown ∧ p.grammar.Vanishes r := by
  obtain ⟨hc, hguard, hend, hb⟩ := hp
  have hclean := clean_run_of_answers hq hclean
  have hknown : t ≠ .unknown := by
    rintro rfl
    exact not_clean_start htext (hclean 0)
  have hne : Lexer.textIds table text ≠ [] := by
    rw [htext]
    nofun
  have hstart : p.Spared (Lexer.textIds table text) [t] (p.start (.ofText table text depth)) := by
    refine ⟨tracing_start hc hne, quiet_start p depth ?_, ?_, hclean⟩
    · rw [htext, List.mem_singleton]
      exact hknown.symm
    · rw [ids_start, htext]
  obtain ⟨htask, hframes⟩ := task_start p depth hne
  generalize p.start (.ofText table text depth) = m at htask hframes hstart
  obtain ⟨task, frames, nodes, st⟩ := m
  dsimp only at htask hframes
  subst htask hframes
  obtain ⟨st₁, hstep, hquiet, hids⟩ := step_of_choose_quietly hb (fun a => hguard _ _ a hb)
    (List.length_filter_le ..) (ParseState.choose_singleton ..) (.single .eof) [] nodes
    hstart.quiet hstart.ids
  have hchosen := hstart.later hc hend (n := 1) hstep hquiet hids
  have hrule := hchosen.later hc hend (n := 1) rfl hquiet hids
  obtain ⟨rank, hrank⟩ := hc.ranked
  refine ⟨hknown, Spared.vanishes hc hend hguard hrank _ (Nat.lt_succ_self _) hrule hnull hfirst ?_⟩
  exact TokenSet.contains_single.trans (beq_self_eq_true t)

/-- **Rules are left out quietly just if they vanish.** A rule that can be empty is put before a
token that it does not begin with, behind the declarations of a grammar without guards. This makes a
grammar, and the text of this token alone has an answer with it. There is no report and no error
node in the answer if and only if a rule of the lexer matches the token and the rule vanishes. And
where operands are never empty, it vanishes. -/
theorem quiet_iff_vanishes {decls : List GrammarDecl} {g : Grammar}
    (hg : Grammar.ofDecls decls = .ok g) (hguard : g.Unguarded) (hend : g.Lacks .eof) {r : Nat}
    (hnull : g.isNullable r = true) {t : TokenId} (hfirst : (g.firstOf r).contains t = false)
    {name : String} (hname : ∀ rule ∈ g.rules, rule.name ≠ name) (hroom : g.size < 65536)
    {table : TokenTable} {text : List Char} (htext : Lexer.textIds table text = [t])
    (sync : TokenSet) (depth : Nat) :
    ∃ g', Grammar.ofDecls (decls ++ [.rule name [⟨[.rule r, .token t], []⟩], .start g.size])
        = .ok g' ∧
      (∃ q, Parser.Answers ⟨g', sync⟩ (.ofText table text depth) q ∧
        (q.diagnostics = [] ∧ q.tree.errorNodes = [] ↔ t ≠ .unknown ∧ g.Vanishes r)) ∧
      (g.SolidOperands → g.Vanishes r) := by
  have hc := Grammar.checked_of_ofDecls hg
  have hr := hc.lt_size_of_nullable hnull
  have ht : t ≠ .eof := ne_eof_of_mem_textIds (htext ▸ List.mem_singleton_self t)
  obtain ⟨g', hg', hcontinues, hp⟩ :=
    Grammar.exists_startsWith hg hguard hend hr ht hname hroom
  refine ⟨g', hg', ?_, fun hsolid => hc.vanishes_of_solidOperands hsolid hnull⟩
  rw [← hcontinues.nullable r hr] at hnull
  rw [← hcontinues.first r hr] at hfirst
  rw [← hcontinues.vanishes_iff hc hr]
  by_cases hvanishes : t ≠ .unknown ∧ g'.Vanishes r
  · obtain ⟨q, hq, hquiet⟩ := answers_quietly_of_vanishes (p := ⟨g', sync⟩) hp hfirst hvanishes.1
      hvanishes.2 htext depth
    exact ⟨q, hq, iff_of_true hquiet hvanishes⟩
  · obtain ⟨q, hq⟩ := exists_answer_of_unguarded (p := ⟨g', sync⟩) hp.checked hp.lacks_eof
      hp.unguarded (.ofText table text depth)
    refine ⟨q, hq, iff_of_false (fun hquiet => hvanishes ?_) hvanishes⟩
    refine vanishes_of_answers hp hnull hfirst htext hq ?_
    rw [hquiet.1]
    nofun

end OneToken

end Parser

/-! ## Sums of items that can be empty -/

namespace Grammar

/-- Plus, to group to the left. -/
def hollowOps : Operators := ⟨0, [], [⟨.kind 2, 1, .left⟩]⟩

/-- An item is a minus or nothing, and sums are made of items. -/
def hollowDecls : List GrammarDecl :=
  [.rule "item" [⟨[], []⟩, ⟨[.token (.kind 1)], []⟩], .declare "sum",
    .defineExpression 1 hollowOps, .start 1]

/-- The grammar of these declarations. -/
def hollow : Grammar := (GrammarDraft.ofDecls hollowDecls).finished 1

theorem ofDecls_hollow : ofDecls hollowDecls = .ok hollow := by
  refine GrammarDraft.build_eq_ok_iff.2 ⟨1, ?_, ?_, ?_, rfl⟩
  · decide +kernel
  · decide +kernel
  · cbv

theorem rules_hollow : (GrammarDraft.ofDecls hollowDecls).rules =
    #[⟨"item", .sequence [⟨[], []⟩, ⟨[.token (.kind 1)], []⟩], false⟩,
      ⟨"sum", .expression hollowOps, false⟩] := by
  decide +kernel

theorem body_hollow (r : Nat) :
    hollow.body r =
      (match r with
      | 0 => .sequence [⟨[], []⟩, ⟨[.token (.kind 1)], []⟩]
      | 1 => .expression hollowOps
      | _ => .undefined : RuleBody Production).map
        (Analysis.alternative hollow.nullable hollow.first) := by
  rw [hollow, GrammarDraft.body_finished, rules_hollow]
  rcases r with _ | _ | r <;> rfl

theorem production_hollow {as : List Alternative} {a : Alternative}
    (hb : hollow.body r = .sequence as) (ha : a ∈ as) :
    a.guard = [] ∧ (a.symbols = [] ∨ a.symbols = [.token (.kind 1)]) := by
  rw [body_hollow] at hb
  rcases r with _ | _ | r
  · cases hb
    simp only [List.map_cons, List.map_nil, List.mem_cons, List.not_mem_nil, or_false] at ha
    rcases ha with rfl | rfl
    · exact ⟨rfl, .inl rfl⟩
    · exact ⟨rfl, .inr rfl⟩
  · cases hb
  · cases hb

theorem unguarded_hollow : hollow.Unguarded := fun _ _ _ hb ha => (production_hollow hb ha).1

theorem lacks_hollow (ht : ∀ k, t ≠ .kind k) : hollow.Lacks t := by
  constructor
  · intro r as a hb ha
    rcases (production_hollow hb ha).2 with h | h
    · simp [h]
    · simp [h, ht]
  · intro r ops hb
    rw [body_hollow] at hb
    rcases r with _ | _ | r
    · cases hb
    · cases hb
      simp [Operators.signs, Operators.links, hollowOps, ht]
    · cases hb

theorem size_hollow : hollow.size = 2 := by
  rw [hollow, size, GrammarDraft.finished, Array.size_map, rules_hollow]
  rfl

theorem complete_hollow : hollow.Complete := by
  intro r hr
  rw [size_hollow] at hr
  rw [body_hollow]
  rcases r with _ | _ | r
  · nofun
  · nofun
  · omega

theorem names_hollow : ∀ rule ∈ hollow.rules, rule.name ≠ "start" := by
  rw [hollow, GrammarDraft.finished, rules_hollow]
  decide +kernel

theorem nullable_hollow : hollow.isNullable 0 = true ∧ hollow.isNullable 1 = true := by
  decide +kernel

theorem first_hollow : (hollow.firstOf 0).contains (.kind 0) = false ∧
    (hollow.firstOf 1).contains (.kind 0) = false := by
  decide +kernel

/-- An item is left out, a sum is not. -/
theorem vanishes_hollow : hollow.Vanishes 0 ∧ ¬ hollow.Vanishes 1 := by
  refine ⟨.sequence (body_hollow 0) rfl nofun, ?_⟩
  rintro ⟨hb, -, -⟩
  rw [body_hollow] at hb
  cases hb

end Grammar

namespace Parser

/-- In front of a name an item is left out quietly. -/
theorem quiet_iff_vanishes_hollow :
    Grammar.ofDecls Grammar.hollowDecls = .ok .hollow ∧ Grammar.hollow.Unguarded ∧
      Grammar.hollow.Lacks .eof ∧ Grammar.hollow.isNullable 0 = true ∧
      (Grammar.hollow.firstOf 0).contains (.kind 0) = false ∧
      (∀ rule ∈ Grammar.hollow.rules, rule.name ≠ "start") ∧ Grammar.hollow.size < 65536 ∧
      Lexer.textIds sampleTable ['x'] = [.kind 0] ∧
      ∃ g', Grammar.ofDecls (Grammar.hollowDecls ++
          [.rule "start" [⟨[.rule 0, .token (.kind 0)], []⟩], .start Grammar.hollow.size])
            = .ok g' ∧
        ∃ q, Parser.Answers ⟨g', ∅⟩ (.ofText sampleTable ['x'] 1) q ∧ q.diagnostics = [] ∧
          q.tree.errorNodes = [] := by
  have hguard := Grammar.unguarded_hollow
  have hend : Grammar.hollow.Lacks .eof := Grammar.lacks_hollow nofun
  have hnull := Grammar.nullable_hollow.1
  have hfirst := Grammar.first_hollow.1
  have hroom : Grammar.hollow.size < 65536 := by
    rw [Grammar.size_hollow]
    decide
  obtain ⟨g', hg', ⟨q, hq, hquiet⟩, -⟩ := quiet_iff_vanishes Grammar.ofDecls_hollow hguard hend
    hnull hfirst Grammar.names_hollow hroom textIds_sampleTable_name ∅ 1
  exact ⟨Grammar.ofDecls_hollow, hguard, hend, hnull, hfirst, Grammar.names_hollow, hroom,
    textIds_sampleTable_name, g', hg', q, hq, hquiet.2 ⟨nofun, Grammar.vanishes_hollow.1⟩⟩

/-- In front of a name an item of a sum is asked for, although the sum can be empty. -/
theorem hollow_blamed :
    Grammar.ofDecls Grammar.hollowDecls = .ok .hollow ∧ Grammar.hollow.Complete ∧
      Grammar.hollow.Unguarded ∧ Grammar.hollow.Lacks .eof ∧ Grammar.hollow.Lacks .unknown ∧
      Grammar.hollow.isNullable 1 = true ∧
      (Grammar.hollow.firstOf 1).contains (.kind 0) = false ∧
      Lexer.textIds sampleTable ['x'] = [.kind 0] ∧
      ∃ g', Grammar.ofDecls (Grammar.hollowDecls ++
          [.rule "start" [⟨[.rule 1, .token (.kind 0)], []⟩], .start 2]) = .ok g' ∧
        ∃ q, Parser.Answers ⟨g', ∅⟩ (.ofText sampleTable ['x'] 1) q ∧ q.diagnostics ≠ [] := by
  have hguard := Grammar.unguarded_hollow
  have hend : Grammar.hollow.Lacks .eof := Grammar.lacks_hollow nofun
  have hnull := Grammar.nullable_hollow.2
  have hfirst := Grammar.first_hollow.2
  have hsize := Grammar.size_hollow
  have hr : 1 < Grammar.hollow.size := by
    rw [hsize]
    exact Nat.lt_succ_self 1
  have hroom : Grammar.hollow.size < 65536 := by
    rw [hsize]
    decide
  obtain ⟨g', hg', hcontinues, hp⟩ := Grammar.exists_startsWith (t := .kind 0)
    Grammar.ofDecls_hollow hguard hend hr nofun Grammar.names_hollow hroom
  obtain ⟨q, hq⟩ := exists_answer_of_unguarded (p := ⟨g', ∅⟩) hp.checked hp.lacks_eof hp.unguarded
    (.ofText sampleTable ['x'] 1)
  rw [hsize] at hg'
  refine ⟨Grammar.ofDecls_hollow, Grammar.complete_hollow, hguard, hend,
    Grammar.lacks_hollow nofun, hnull, hfirst, textIds_sampleTable_name, g', hg', q, hq, ?_⟩
  intro hquiet
  rw [← hcontinues.nullable 1 hr] at hnull
  rw [← hcontinues.first 1 hr] at hfirst
  have hvanishes := (vanishes_of_answers hp hnull hfirst textIds_sampleTable_name hq (by
    rw [hquiet]
    nofun)).2
  have hc := Grammar.checked_of_ofDecls Grammar.ofDecls_hollow
  exact Grammar.vanishes_hollow.2 ((hcontinues.vanishes_iff hc hr).1 hvanishes)

end Parser

end FrontEnd
