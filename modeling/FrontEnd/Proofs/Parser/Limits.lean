import FrontEnd.Proofs.Parser.Resuming
import Mathlib.Data.List.TakeWhile

/-!
# Which grammars are parsed to an end

Not every grammar that can be built is. A rule may come back to itself over something that takes no
token and is not nullable either, so that the search for left recursion does not see it: the end of
the input, which is matched without being taken, and a rule without productions, behind which a guard
lets the parser go on. Nothing else goes wrong.

- `Grammar.Circles`: a rule comes back to itself without taking a token;
- `Parser.not_answers_of_circles`: **its parse never ends**;
- `Grammar.Within`: the grammar makes use of no other features;
- `Parser.always_answers_iff`: **the features with which all parses end**.
-/

namespace FrontEnd

namespace Grammar

/-- Where the ids are to come, the symbol is parsed without taking anything. -/
inductive Idle (g : Grammar) (ids : List TokenId) : Symbol → Flow → Prop where
  | finish (hids : ids = []) : Idle g ids (.token .eof) .proceeding
  | missing {r : Nat} (hb : g.body r = .undefined) : Idle g ids (.rule r) .recovering

/-- Behind a symbol that is parsed without taking anything the rule can begin. -/
structure Lap (g : Grammar) (r : Nat) (ids : List TokenId) (symbol : Symbol) (flow : Flow) :
    Prop where
  idle : g.Idle ids symbol flow
  resumes : flow = .recovering → (g.firstOf r).contains (ids.headD .eof) = true

/-- Where the ids are to come, the rule comes back to itself without taking a token. -/
def Circles (g : Grammar) (r : Nat) (ids : List TokenId) : Prop :=
  ∃ as a symbol flow rest, g.body r = .sequence as ∧ ParseState.choose as ids = some a ∧
    a.symbols = symbol :: .rule r :: rest ∧ g.Lap r ids symbol flow

/-- What a grammar may make use of beyond the plain productions of its rules. -/
structure Features where
  /-- Alternatives with guards. -/
  guards : Bool
  /-- Rules without productions. -/
  gaps : Bool
  /-- The end of the input as a symbol or an operator. -/
  ends : Bool

/-- The grammar makes use of no other features. -/
structure Within (g : Grammar) (features : Features) : Prop where
  guards : features.guards = false → g.Unguarded
  gaps : features.gaps = false → g.Complete
  ends : features.ends = false → g.Lacks .eof

end Grammar

namespace Parser

variable {p : Parser} {m m' : Machine} {stream : TokenStream} {r : Nat} {ids : List TokenId}

/-! ## Parses without an end -/

/-- A parse has no answer when it comes to something that goes on for ever. -/
theorem not_answers {I : Machine → Prop} (hstep : ∀ m m', p.Move m m' → I m → I m')
    (hgoes : ∀ m, I m → m.halted = false) (hreach : p.Reaches stream m) (hm : I m) (q : Parse) :
    ¬ p.Answers stream q := by
  intro hanswers
  obtain ⟨n, rfl⟩ := hreach
  obtain ⟨k, hhalted, -⟩ := (answers_iff ..).1 hanswers
  -- After the end every moment is the last one, which does not go on.
  have hlater := run_invariant hstep hm k
  rw [← run_add, run_of_halted_le hhalted (Nat.le_add_left k n)] at hlater
  rw [hgoes _ hlater] at hhalted
  cases hhalted

/-- The moments of a rule that comes back to itself while the ids stay to come. -/
inductive Circling (p : Parser) (r : Nat) (ids : List TokenId) : Machine → Prop where
  | enter {follow : TokenSet} {frames : List Frame} {nodes : List NodeId} {st : ParseState}
    (hids : st.ids = ids) : Circling p r ids ⟨.rule r follow, frames, nodes, st⟩
  | begin {s s' : Step} {flow : Flow} {rest : List Step} {follow : TokenSet}
    {frames : List Frame} {nodes : List NodeId} {st : ParseState} (hids : st.ids = ids)
    (hlap : p.grammar.Lap r ids s.symbol flow) (hback : s'.symbol = .rule r) :
    Circling p r ids ⟨.steps (s :: s' :: rest) follow .proceeding, frames, nodes, st⟩
  | missing {s : Step} {u : Nat} {rest : List Step} {follow follow' : TokenSet}
    {frames : List Frame} {nodes : List NodeId} {st : ParseState} (hids : st.ids = ids)
    (hb : p.grammar.body u = .undefined) (hlap : p.grammar.Lap r ids (.rule u) .recovering)
    (hback : s.symbol = .rule r) :
    Circling p r ids ⟨.rule u follow', .steps (s :: rest) follow :: frames, nodes, st⟩
  | done {symbol : Symbol} {s : Step} {flow : Flow} {rest : List Step} {follow : TokenSet}
    {frames : List Frame} {nodes : List NodeId} {st : ParseState} (hids : st.ids = ids)
    (hlap : p.grammar.Lap r ids symbol flow) (hback : s.symbol = .rule r) :
    Circling p r ids ⟨.done flow, .steps (s :: rest) follow :: frames, nodes, st⟩
  | again {symbol : Symbol} {s : Step} {flow : Flow} {rest : List Step} {follow : TokenSet}
    {frames : List Frame} {nodes : List NodeId} {st : ParseState} (hids : st.ids = ids)
    (hlap : p.grammar.Lap r ids symbol flow) (hback : s.symbol = .rule r) :
    Circling p r ids ⟨.steps (s :: rest) follow flow, frames, nodes, st⟩

theorem Circling.not_halted (h : p.Circling r ids m) : m.halted = false := by
  cases h with
  | enter _ | begin _ _ _ | missing _ _ _ _ | done _ _ _ | again _ _ _ => simp [Machine.halted]

/-- Taking a leaf at the end of the input takes nothing. -/
theorem ids_takeLeaf_of_end {st : ParseState} (hids : st.ids = []) :
    (st.fill 0).takeLeaf.2.ids = [] := by
  rw [((st.stays_fill 0).takes (st.fill 0).takes_takeLeaf).ids, hids, List.drop_nil]

theorem Move.circling (hc : p.grammar.Checked) (hcircles : p.grammar.Circles r ids)
    (hmove : p.Move m m') (h : p.Circling r ids m) : p.Circling r ids m' := by
  cases h with
  | @enter follow frames nodes st hids =>
    obtain ⟨as, a, symbol, flow, rest, hb, hchoose, hsymbols, hlap⟩ := hcircles
    -- A choice looks at nothing but the ids that are to come.
    have hselect : ∀ {a' : Option Alternative} {st'}, st.select p.grammar r as = (a', st') →
        a' = some a := by
      intro a' st' hs
      rw [← hchoose, ← hids, ← ParseState.fst_select p.grammar r as st, hs]
    cases hmove with
    | missing hb' | express hb' =>
      rw [hb] at hb'
      cases hb'
    | choose hb' hs =>
      cases hb.symm.trans hb'
      cases hselect hs
      have hsteps := hc.map_symbol_steps hb (ParseState.mem_of_choose hchoose)
      rw [hsymbols] at hsteps
      obtain ⟨s, tail, hcons, rfl, htail⟩ := List.map_eq_cons_iff.1 hsteps
      obtain ⟨s', tail', rfl, hback, -⟩ := List.map_eq_cons_iff.1 htail
      rw [hcons]
      exact .begin ((stays_select_of_eq hs).ids_eq.trans hids) hlap hback
    | retry hb' hs _ _ _ _ | refuse hb' hs _ _ _ =>
      cases hb.symm.trans hb'
      cases hselect hs
  | @begin s s' flow rest follow frames nodes st hids hlap hback =>
    cases hmove with
    | @enter _ _ _ _ _ _ _ st₁ _ hst _ he =>
      have hids₁ : st₁.ids = ids := (stays_of_filled hst).ids_eq.trans hids
      generalize s.symbol = symbol at he hlap
      cases hlap.idle with
      | finish hnone =>
        have hend : st₁.ids = [] := hids₁.trans hnone
        cases he with
        | token _ => exact .done ((ids_takeLeaf_of_end hend).trans hnone.symm) hlap hback
        | late hid _ _ | absent hid _ _ => exact absurd (by rw [ParseState.next, hend]; rfl) hid
      | missing hb =>
        cases he with
        | rule => exact .missing hids₁ hb hlap hback
  | @missing s u rest follow follow' frames nodes st hids hb hlap hback =>
    cases hmove with
    | missing _ =>
      have htakes := (st.takes_missingRule p.grammar u).1
      exact .done (htakes.ids.trans hids) hlap hback
    | express hb' | choose hb' _ | retry hb' _ _ _ _ _ | refuse hb' _ _ _ _ =>
      rw [hb] at hb'
      cases hb'
  | done hids hlap hback =>
    cases hmove with
    | resume => exact .again hids hlap hback
  | @again symbol s flow rest follow frames nodes st hids hlap hback =>
    cases hmove with
    | pass hcan =>
      -- A lap that has to recover does so at the token with which the rule begins.
      have hfirst := hlap.resumes rfl
      rw [hback, ParseState.next, hids, Grammar.canStart] at hcan
      exact absurd (hcan.symm.trans hfirst) Bool.false_ne_true
    | @enter _ _ _ _ _ _ _ st₁ _ hst _ he =>
      have hids₁ : st₁.ids = ids := (stays_of_filled hst).ids_eq.trans hids
      rw [hback] at he
      cases he with
      | rule => exact .enter hids₁

/-- A parse that comes to a rule that comes back to itself never ends. -/
theorem not_answers_of_circles (hc : p.grammar.Checked) (hcircles : p.grammar.Circles r ids)
    (hreach : p.Reaches stream m) (hm : p.Circling r ids m) (q : Parse) : ¬ p.Answers stream q :=
  not_answers (fun _ _ hmove => hmove.circling hc hcircles) (fun _ => Circling.not_halted) hreach hm q

/-- Where nothing ends the skipping, the first failure takes all that is left. -/
theorem ids_unexpected {g : Grammar} {expected : TokenSet} {errors : List NodeId}
    {st st' : ParseState} (hdamage : st.atDamage = false)
    (hu : st.unexpected g ∅ expected = (errors, st')) : st'.ids = [] := by
  have htakes := (st.takes_unexpected g ∅ expected).1
  have hall : st.ids.takeWhile (fun id => !(∅ : TokenSet).contains id) = st.ids := by
    rw [List.takeWhile_eq_self_iff]
    intro id _
    rw [TokenSet.contains_empty]
    rfl
  rw [hu, ParseState.damageLength, hdamage, if_neg Bool.false_ne_true, ParseState.skipLength, hall]
    at htakes
  rw [htakes.ids, List.drop_length]

/-- A rule whose alternative is known begins with its steps. -/
theorem step_of_choose_eq {as : List Alternative} {a : Alternative} {st : ParseState}
    (hb : p.grammar.body r = .sequence as) (hchoose : ParseState.choose as st.ids = some a)
    (follow : TokenSet) (frames : List Frame) (nodes : List NodeId) :
    p.step ⟨.rule r follow, frames, nodes, st⟩
      = ⟨.steps a.steps follow .proceeding, .rule r st.consumed nodes :: frames, [],
        (st.select p.grammar r as).2⟩ := by
  have hfst := st.fst_select p.grammar r as
  rw [hchoose] at hfst
  show p.enterRule r follow frames nodes st = _
  unfold enterRule
  rcases hs : st.select p.grammar r as with ⟨a', st'⟩
  rw [hs] at hfst
  cases hfst
  simp only [hb, hs]

theorem step_of_choose {as : List Alternative} {a : Alternative} {st : ParseState}
    (hb : p.grammar.body r = .sequence as) (hchoose : ParseState.choose as st.ids = some a)
    (follow : TokenSet) (frames : List Frame) (nodes : List NodeId) :
    ∃ st', st.Stays st' ∧ p.step ⟨.rule r follow, frames, nodes, st⟩
      = ⟨.steps a.steps follow .proceeding, .rule r st.consumed nodes :: frames, [], st'⟩ :=
  ⟨_, st.stays_select p.grammar r as, step_of_choose_eq hb hchoose follow frames nodes⟩

/-- The first token that is not the end of the input is skipped with all that follow. -/
theorem circling_of_begin {s s' : Step} {rest : List Step} {follow : TokenSet} {frames : List Frame}
    {nodes : List NodeId} {st : ParseState} (hsync : p.sync = ∅) (hdamage : st.atDamage = false)
    (hnext : st.next ≠ .eof) (hs : s.symbol = .token .eof) (hback : s'.symbol = .rule r)
    (hmove : p.Move ⟨.steps (s :: s' :: rest) follow .proceeding, frames, nodes, st⟩ m) :
    p.Circling r [] m := by
  have hlap : p.grammar.Lap r [] (.token .eof) .proceeding := ⟨.finish rfl, nofun⟩
  cases hmove with
  | @enter _ _ _ _ _ _ _ st₁ _ hst _ he =>
    have hstays := (stays_of_filled hst).trans (st₁.stays_fill 0)
    have hskip : ∀ {errors st₂}, (st₁.fill 0).unexpected p.grammar p.sync (.single .eof)
        = (errors, st₂) → st₂.ids = [] := by
      intro errors st₂ hu
      rw [hsync] at hu
      exact ids_unexpected (hstays.atDamage.trans hdamage) hu
    rw [hs] at he
    cases he with
    | token hid => exact absurd ((stays_of_filled hst).next.symm.trans hid) hnext
    | late _ hu _ => exact .done (ids_takeLeaf_of_end (hskip hu)) hlap hback
    | absent _ hu hid => exact absurd (by rw [ParseState.next, hskip hu]; rfl) hid

end Parser

/-! ## Two grammars without an end -/

namespace Grammar

/-- A rule that expects the end of the input, and then itself. -/
def endlessDecls : List GrammarDecl :=
  [.declare "rule", .define 0 [⟨[.token .eof, .rule 0], []⟩], .start 0]

/-- The grammar of these declarations. -/
def endless : Grammar := (GrammarDraft.ofDecls endlessDecls).finished 0

theorem ofDecls_endless : ofDecls endlessDecls = .ok endless := by
  refine GrammarDraft.build_eq_ok_iff.2 ⟨0, ?_, ?_, ?_, rfl⟩
  · decide +kernel
  · decide +kernel
  · cbv

theorem body_endless (r : Nat) :
    endless.body r = (match r with
      | 0 => .sequence [⟨[.token .eof, .rule 0], []⟩]
      | _ => .undefined : RuleBody Production).map
        (Analysis.alternative endless.nullable endless.first) := by
  have hrules : (GrammarDraft.ofDecls endlessDecls).rules
      = #[⟨"rule", .sequence [⟨[.token .eof, .rule 0], []⟩], false⟩] := by decide +kernel
  rw [endless, GrammarDraft.body_finished, hrules]
  rcases r with _ | r <;> rfl

theorem within_endless : endless.Within ⟨false, false, true⟩ where
  guards := by
    intro _ r as a hb ha
    rw [body_endless] at hb
    rcases r with _ | r
    · cases hb
      rw [List.map_cons, List.map_nil, List.mem_singleton] at ha
      rw [ha]
      rfl
    · cases hb
  gaps := by
    intro _ r hr
    have hsize : endless.size = 1 := by decide +kernel
    rw [hsize, Nat.lt_one_iff] at hr
    subst hr
    rw [body_endless]
    nofun
  ends := nofun

theorem circles_endless : endless.Circles 0 [] :=
  ⟨_, _, _, _, _, body_endless 0, ParseState.choose_singleton _ _, rfl, ⟨.finish rfl, nofun⟩⟩

/-- A rule that goes on, by its guard, with a rule without productions and then with itself. -/
def gappedDecls : List GrammarDecl :=
  [.declare "rule", .declare "gap",
    .define 0 [⟨[.rule 1, .rule 0], [.kind 0]⟩, ⟨[.token (.kind 0)], []⟩], .start 0]

/-- The grammar of these declarations. -/
def gapped : Grammar := (GrammarDraft.ofDecls gappedDecls).finished 0

theorem ofDecls_gapped : ofDecls gappedDecls = .ok gapped := by
  refine GrammarDraft.build_eq_ok_iff.2 ⟨0, ?_, ?_, ?_, rfl⟩
  · decide +kernel
  · decide +kernel
  · cbv

theorem body_gapped (r : Nat) :
    gapped.body r = (match r with
      | 0 => .sequence [⟨[.rule 1, .rule 0], [.kind 0]⟩, ⟨[.token (.kind 0)], []⟩]
      | _ => .undefined : RuleBody Production).map
        (Analysis.alternative gapped.nullable gapped.first) := by
  have hrules : (GrammarDraft.ofDecls gappedDecls).rules
      = #[⟨"rule", .sequence [⟨[.rule 1, .rule 0], [.kind 0]⟩, ⟨[.token (.kind 0)], []⟩], false⟩,
        ⟨"gap", .undefined, false⟩] := by decide +kernel
  rw [gapped, GrammarDraft.body_finished, hrules]
  rcases r with _ | _ | r <;> rfl

theorem within_gapped : gapped.Within ⟨true, true, false⟩ where
  guards := nofun
  gaps := nofun
  ends := by
    intro _
    constructor
    · intro r as a hb ha
      rw [body_gapped] at hb
      rcases r with _ | r
      · cases hb
        simp only [List.map_cons, List.map_nil, List.mem_cons, List.not_mem_nil, or_false] at ha
        rcases ha with rfl | rfl
        · simp [Analysis.alternative]
        · simp [Analysis.alternative]
      · cases hb
    · intro r ops hb
      rw [body_gapped] at hb
      rcases r with _ | r <;> cases hb

/-- The guard keeps the rule going wherever its token is next. -/
theorem circles_gapped (ids : List TokenId) : gapped.Circles 0 (.kind 0 :: ids) := by
  have hfirst : (gapped.firstOf 0).contains (.kind 0) = true := by decide +kernel
  exact ⟨_, _, _, _, _, body_gapped 0, rfl, rfl, .missing (body_gapped 1), fun _ => hfirst⟩

end Grammar

namespace Parser

variable {table : TokenTable} {text : List Char}

/-- No text with a token in it is parsed to an end, if nothing ends the skipping. -/
theorem not_answers_endless (depth : Nat) (hne : Lexer.textIds table text ≠ []) (q : Parse) :
    ¬ Parser.Answers ⟨.endless, ∅⟩ (.ofText table text depth) q := by
  have hc := Grammar.checked_of_ofDecls Grammar.ofDecls_endless
  obtain ⟨htask, -⟩ := task_start ⟨.endless, ∅⟩ depth hne
  have hids := ids_start ⟨.endless, ∅⟩ table text depth
  have hdamage : (start ⟨.endless, ∅⟩ (.ofText table text depth)).state.atDamage = false := rfl
  have hnext : (start ⟨.endless, ∅⟩ (.ofText table text depth)).state.next ≠ .eof := by
    rw [ParseState.next, hids]
    exact headD_textIds_ne_eof hne
  -- The first token is no end of the input, so that it is skipped with all others.
  refine not_answers_of_circles hc Grammar.circles_endless ⟨2, rfl⟩ ?_ q
  show Circling _ 0 [] (step _ (step _ (start _ _)))
  generalize start ⟨.endless, ∅⟩ (.ofText table text depth) = m at htask hdamage hnext
  obtain ⟨task, frames, nodes, st⟩ := m
  cases htask
  obtain ⟨st', hstays, hstep⟩ := step_of_choose (p := ⟨.endless, ∅⟩) (Grammar.body_endless 0)
    (ParseState.choose_singleton _ st.ids) (.single .eof) frames nodes
  show Circling _ 0 [] (step _ (step _ ⟨.rule 0 (.single .eof), frames, nodes, st⟩))
  rw [hstep]
  refine circling_of_begin rfl (hstays.atDamage.trans hdamage) ?_ rfl rfl (step_move _ _)
  rwa [hstays.next]

/-- No text that begins with the token of the guard is parsed to an end. -/
theorem not_answers_gapped (sync : TokenSet) (depth : Nat) {rest : List TokenId}
    (hids : Lexer.textIds table text = .kind 0 :: rest) (q : Parse) :
    ¬ Parser.Answers ⟨.gapped, sync⟩ (.ofText table text depth) q := by
  have hc := Grammar.checked_of_ofDecls Grammar.ofDecls_gapped
  have hne : Lexer.textIds table text ≠ [] := by
    rw [hids]
    nofun
  obtain ⟨htask, -⟩ := task_start ⟨.gapped, sync⟩ depth hne
  have hstart := ids_start ⟨.gapped, sync⟩ table text depth
  refine not_answers_of_circles (p := ⟨.gapped, sync⟩) hc (Grammar.circles_gapped rest) ⟨0, rfl⟩ ?_ q
  show Circling _ 0 _ (start _ _)
  generalize start ⟨.gapped, sync⟩ (.ofText table text depth) = m at htask hstart
  obtain ⟨task, frames, nodes, st⟩ := m
  cases htask
  exact .enter (hstart.trans hids)

/-! ## All grammars -/

/-- All parses with the grammars of certain features end just when the end of the input is no symbol
of theirs, and guards do not meet rules without productions. -/
theorem always_answers_iff (features : Grammar.Features) :
    (∀ decls g, Grammar.ofDecls decls = .ok g → g.Within features → ∀ sync table text depth,
        ∃ q, Parser.Answers ⟨g, sync⟩ (.ofText table text depth) q) ↔
      features.ends = false ∧ (features.guards = false ∨ features.gaps = false) := by
  constructor
  · intro hall
    -- Each half is refuted by a grammar that has just the features at fault.
    constructor
    · by_contra hends
      rw [Bool.not_eq_false] at hends
      obtain ⟨hguards, hgaps, -⟩ := Grammar.within_endless
      have hwithin : Grammar.endless.Within features :=
        ⟨fun _ => hguards rfl, fun _ => hgaps rfl, fun h => absurd (hends.symm.trans h) nofun⟩
      obtain ⟨q, hq⟩ := hall _ _ Grammar.ofDecls_endless hwithin ∅ sampleTable ['x'] 1
      exact not_answers_endless 1 (by rw [textIds_sampleTable_name]; nofun) q hq
    · by_contra hboth
      rw [not_or, Bool.not_eq_false, Bool.not_eq_false] at hboth
      obtain ⟨-, -, hends⟩ := Grammar.within_gapped
      have hwithin : Grammar.gapped.Within features :=
        ⟨fun h => absurd (hboth.1.symm.trans h) nofun, fun h => absurd (hboth.2.symm.trans h) nofun,
          fun _ => hends rfl⟩
      obtain ⟨q, hq⟩ := hall _ _ Grammar.ofDecls_gapped hwithin ∅ sampleTable ['x'] 1
      exact not_answers_gapped ∅ 1 textIds_sampleTable_name q hq
  · rintro ⟨hends, hfeatures⟩ decls g hg hwithin sync table text depth
    have hc := Grammar.checked_of_ofDecls hg
    have hlacks := hwithin.ends hends
    rcases hfeatures with hguards | hgaps
    · exact exists_answer_of_unguarded (p := ⟨g, sync⟩) hc hlacks (hwithin.guards hguards) _
    · exact exists_answer_of_complete (p := ⟨g, sync⟩) hc hlacks (hwithin.gaps hgaps) _

/-- The rule that waits behind the end of the input can be built, and the parse of one name with it
does not end. -/
theorem endless_never_answers :
    Grammar.ofDecls Grammar.endlessDecls = .ok .endless ∧
      ∀ q, ¬ Parser.Answers ⟨.endless, ∅⟩ (.ofText sampleTable ['x'] 1) q := by
  refine ⟨Grammar.ofDecls_endless, not_answers_endless 1 ?_⟩
  rw [textIds_sampleTable_name]
  nofun

end Parser

end FrontEnd
