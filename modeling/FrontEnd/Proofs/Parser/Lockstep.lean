import FrontEnd.Proofs.Parser.Mirrors

/-!
# Two parses in lockstep

Two moments that have the same to do, in mirrored states, have the same to do one step later, and so
on to the end. The only condition is on the states in which a report is made.

- `Parser.Reports`: **the states in which a step can make a report**;
- `Machine.Mirrors`: moments that differ as their states do;
- `Parser.step_mirrors`, `Parser.run_mirrors`: one step, and a run of steps;
- `Parser.finish_mirrors`: the answers differ in places only.
-/

namespace FrontEnd

/-! ## Mirrored moments -/

/-- The same task; nodes are compared where they can be. -/
inductive Task.Mirrors (k : Nat) : Task → Task → Prop where
  | rule (r : Nat) (follow : TokenSet) : Mirrors k (.rule r follow) (.rule r follow)
  | steps (rest : List Step) (follow : TokenSet) (flow : Flow) :
    Mirrors k (.steps rest follow flow) (.steps rest follow flow)
  | repetition (r : Nat) (follow : TokenSet) :
    Mirrors k (.repetition r follow) (.repetition r follow)
  | expression (ctx : ExpressionContext) : Mirrors k (.expression ctx) (.expression ctx)
  | climb (ctx : ExpressionContext) {lhs lhs' : NodeId} (hlhs : k = 0 → lhs = lhs') :
    Mirrors k (.climb ctx lhs) (.climb ctx lhs')
  | done (flow : Flow) : Mirrors k (.done flow) (.done flow)

/-- The same frame; the tokens that were taken before a round are more by `k`. -/
inductive Frame.Mirrors (k : Nat) : Frame → Frame → Prop where
  | rule (r entered entered' : Nat) {nodes nodes' : List NodeId}
    (hnodes : k = 0 → nodes = nodes') : Mirrors k (.rule r entered nodes) (.rule r entered' nodes')
  | steps (rest : List Step) (follow : TokenSet) :
    Mirrors k (.steps rest follow) (.steps rest follow)
  | repetition (r : Nat) (follow : TokenSet) (before : Nat) :
    Mirrors k (.repetition r follow before) (.repetition r follow (before + k))
  | operand (ctx : ExpressionContext) {nodes nodes' : List NodeId}
    (hnodes : k = 0 → nodes = nodes') : Mirrors k (.operand ctx nodes) (.operand ctx nodes')
  | unary (ctx : ExpressionContext) {op op' : Token} (hop : op.lexeme = op'.lexeme)
    {nodes nodes' : List NodeId} (hnodes : k = 0 → nodes = nodes') :
    Mirrors k (.unary ctx op nodes) (.unary ctx op' nodes')
  | binary (ctx : ExpressionContext) {op op' : Token} (hop : op.lexeme = op'.lexeme)
    {nodes nodes' : List NodeId} (hnodes : k = 0 → nodes = nodes') :
    Mirrors k (.binary ctx op nodes) (.binary ctx op' nodes')

/-- The same is to be done, in mirrored states. -/
structure Machine.Mirrors (k : Nat) (m m' : Machine) : Prop where
  task : m.task.Mirrors k m'.task
  frames : List.Forall₂ (Frame.Mirrors k) m.frames m'.frames
  nodes : k = 0 → m.nodes = m'.nodes
  state : m.state.Mirrors k m'.state

/-- The answers differ in places only. -/
structure Parse.Mirrors (k : Nat) (q q' : Parse) : Prop where
  diagnostics : q.diagnostics.map Diagnostic.unplaced = q'.diagnostics.map Diagnostic.unplaced
  arena : k = 0 → q.tree.toArena.Alike q'.tree.toArena
  root : k = 0 → q.tree.root = q'.tree.root

theorem Machine.Mirrors.halted {k : Nat} {m m' : Machine} (h : m.Mirrors k m') :
    m.halted = m'.halted := by
  obtain ⟨task, frames, nodes, st⟩ := m
  obtain ⟨task', frames', nodes', st'⟩ := m'
  obtain ⟨htask, hframes, -, -⟩ := h
  cases htask <;> cases hframes <;> rfl

namespace Parser

/-! ## Where reports are made -/

/-- In the step from the moment a report may be made about the next token of the state. -/
inductive Reports (p : Parser) : Machine → ParseState → Prop where
  | missing {r : Nat} {follow : TokenSet} {frames : List Frame} {nodes : List NodeId}
    {st : ParseState} (hb : p.grammar.body r = .undefined) :
    Reports p ⟨.rule r follow, frames, nodes, st⟩ st
  | ambiguous {r : Nat} {follow : TokenSet} {frames : List Frame} {nodes : List NodeId}
    {st : ParseState} {as : List Alternative} (hb : p.grammar.body r = .sequence as)
    (hc : 1 < (ParseState.candidates as st.next).length) :
    Reports p ⟨.rule r follow, frames, nodes, st⟩ (st.selectGuarded as).2
  | refused {r : Nat} {follow : TokenSet} {frames : List Frame} {nodes : List NodeId}
    {st st₁ : ParseState} {as : List Alternative} (hb : p.grammar.body r = .sequence as)
    (hs : st.select p.grammar r as = (none, st₁)) :
    Reports p ⟨.rule r follow, frames, nodes, st⟩ st₁
  /-- A choice between alternatives after a skip. -/
  | undecided {r : Nat} {follow : TokenSet} {frames : List Frame} {nodes errors : List NodeId}
    {st st₁ st₂ : ParseState} {as : List Alternative} (hb : p.grammar.body r = .sequence as)
    (hs : st.select p.grammar r as = (none, st₁))
    (hu : st₁.unexpected p.grammar p.sync (p.grammar.firstOf r) = (errors, st₂))
    (hc : 1 < (ParseState.candidates as st₂.next).length) :
    Reports p ⟨.rule r follow, frames, nodes, st⟩ ((st₂.fill 0).selectGuarded as).2
  | absent {s : Step} {rest : List Step} {follow : TokenSet} {flow : Flow} {frames : List Frame}
    {nodes : List NodeId} {st : ParseState} {id : TokenId} (hs : s.symbol = .token id)
    (hid : st.next ≠ id) :
    Reports p ⟨.steps (s :: rest) follow flow, frames, nodes, st⟩ st
  | stray {r : Nat} {follow : TokenSet} {frames : List Frame} {nodes : List NodeId}
    {st : ParseState} (hf : (p.grammar.firstOf r).contains st.next = false) :
    Reports p ⟨.repetition r follow, frames, nodes, st⟩ st
  | lack {ctx : ExpressionContext} {frames : List Frame} {nodes : List NodeId} {st : ParseState}
    (hop : ctx.ops.prefixPrecedence? st.next = none)
    (hf : (p.grammar.firstOf ctx.ops.operand).contains st.next = false) :
    Reports p ⟨.expression ctx, frames, nodes, st⟩ st

/-- Every report of the step comes behind what the lexer has to say up to the next token. -/
def Timely (p : Parser) (m : Machine) : Prop := ∀ st, p.Reports m st → st.Prompt

variable {p : Parser} {k : Nat} {m m' : Machine} {st st' : ParseState} {frames frames' : List Frame}
  {nodes nodes' : List NodeId}

/-! ## One step -/

section Steps

variable (hst : st.Mirrors k st') (hframes : List.Forall₂ (Frame.Mirrors k) frames frames')
  (hnodes : k = 0 → nodes = nodes')

include hnodes

theorem cons_nodes {node node' : NodeId} (hnode : k = 0 → node = node') (hk : k = 0) :
    node :: nodes = node' :: nodes' := by
  rw [hnode hk, hnodes hk]

theorem append_nodes {errors errors' : List NodeId} (herrors : k = 0 → errors = errors')
    (hk : k = 0) : errors ++ nodes = errors' ++ nodes' := by
  rw [herrors hk, hnodes hk]

include hst hframes

theorem enterRule_mirrors (r : Nat) (follow : TokenSet)
    (hm : p.Timely ⟨.rule r follow, frames, nodes, st⟩)
    (hm' : p.Timely ⟨.rule r follow, frames', nodes', st'⟩) :
    (p.enterRule r follow frames nodes st).Mirrors k
      (p.enterRule r follow frames' nodes' st') := by
  have hframe : Frame.Mirrors k (.rule r st.consumed nodes) (.rule r st'.consumed nodes') :=
    .rule r _ _ hnodes
  -- Both choose the same alternative at every look, so that the branches of the two are taken
  -- together.
  unfold enterRule
  match hb : p.grammar.body r with
  | .undefined =>
    have hmissing := hst.missingRule p.grammar r (hm _ (.missing hb)) (hm' _ (.missing hb))
    exact ⟨.done _, hframes, cons_nodes hnodes hmissing.fst, hmissing.snd⟩
  | .expression ops => exact ⟨.expression _, .cons hframe hframes, fun _ => rfl, hst⟩
  | .sequence as =>
    obtain ⟨hfst, hselect⟩ := hst.select p.grammar r as (fun hc => hm _ (.ambiguous hb hc))
      (fun hc => hm' _ (.ambiguous hb hc))
    rcases hs : st.select p.grammar r as with ⟨a, st₁⟩
    rcases hs' : st'.select p.grammar r as with ⟨a', st₁'⟩
    rw [hs, hs'] at hfst hselect
    cases hfst
    cases a with
    | some a =>
      simp only [hs, hs']
      exact ⟨.steps .., .cons hframe hframes, fun _ => rfl, hselect⟩
    | none =>
      have hunexpected := hselect.unexpected p.grammar p.sync (p.grammar.firstOf r)
        (fun _ => hm _ (.refused hb hs)) (fun _ => hm' _ (.refused hb hs'))
      rcases hu : st₁.unexpected p.grammar p.sync (p.grammar.firstOf r) with ⟨errors, st₂⟩
      rcases hu' : st₁'.unexpected p.grammar p.sync (p.grammar.firstOf r) with ⟨errors', st₂'⟩
      rw [hu, hu'] at hunexpected
      obtain ⟨herrors, hskipped⟩ := hunexpected
      obtain ⟨hfst, hagain⟩ := (hskipped.fill 0).select p.grammar r as
        (fun hc => hm _ (.undecided hb hs hu (by simpa using hc)))
        (fun hc => hm' _ (.undecided hb hs' hu' (by simpa using hc)))
      rcases hs₂ : (st₂.fill 0).select p.grammar r as with ⟨b, st₃⟩
      rcases hs₂' : (st₂'.fill 0).select p.grammar r as with ⟨b', st₃'⟩
      rw [hs₂, hs₂'] at hfst hagain
      cases hfst
      simp only [hs, hs', hu, hu', hs₂, hs₂', ParseState.id_current_fill, ← hselect.atDamage,
        ← hskipped.next]
      cases b with
      | none => exact ⟨.done _, .cons hframe hframes, herrors, hagain⟩
      | some b =>
        dsimp only
        split
        · exact ⟨.steps .., .cons hframe hframes, herrors, hagain⟩
        · exact ⟨.done _, .cons hframe hframes, herrors, hagain⟩

theorem expect_mirrors (id : TokenId) (hprompt : st.next ≠ id → st.Prompt)
    (hprompt' : st'.next ≠ id → st'.Prompt) :
    (p.expect id frames nodes st).Mirrors k (p.expect id frames' nodes' st') := by
  simp only [expect, ParseState.id_current_fill, ← hst.next]
  split
  · have htake := (hst.fill 0).takeLeaf
    exact ⟨.done _, hframes, cons_nodes hnodes htake.fst, htake.snd⟩
  · next hid =>
    obtain ⟨herrors, hskipped⟩ := (hst.fill 0).unexpected p.grammar p.sync (.single id)
      (fun _ => (hprompt hid).fill) (fun _ => (hprompt' (hst.next ▸ hid)).fill)
    have happend := append_nodes hnodes herrors
    simp only [← hskipped.next]
    split
    · have htake := (hskipped.fill 0).takeLeaf
      exact ⟨.done _, hframes, cons_nodes happend htake.fst, htake.snd⟩
    · exact ⟨.done _, hframes, happend, hskipped.fill 0⟩

theorem enterSymbol_mirrors (symbol : Symbol) (follow : TokenSet)
    (hprompt : ∀ id, symbol = .token id → st.next ≠ id → st.Prompt)
    (hprompt' : ∀ id, symbol = .token id → st'.next ≠ id → st'.Prompt) :
    (p.enterSymbol symbol follow frames nodes st).Mirrors k
      (p.enterSymbol symbol follow frames' nodes' st') := by
  cases symbol with
  | token id => exact expect_mirrors hst hframes hnodes id (hprompt id rfl) (hprompt' id rfl)
  | rule r => exact ⟨.rule .., hframes, hnodes, hst⟩
  | opt r =>
    simp only [enterSymbol, ParseState.id_current_fill, ← hst.next]
    split
    · exact ⟨.rule .., hframes, hnodes, hst.fill 0⟩
    · exact ⟨.done _, hframes, hnodes, hst.fill 0⟩
  | many r => exact ⟨.repetition .., hframes, hnodes, hst⟩

theorem enterSteps_mirrors (steps : List Step) (follow : TokenSet) (flow : Flow)
    (hm : p.Timely ⟨.steps steps follow flow, frames, nodes, st⟩)
    (hm' : p.Timely ⟨.steps steps follow flow, frames', nodes', st'⟩) :
    (p.enterSteps steps follow flow frames nodes st).Mirrors k
      (p.enterSteps steps follow flow frames' nodes' st') := by
  match steps, flow with
  | [], flow => exact ⟨.done _, hframes, hnodes, hst⟩
  | s :: rest, .proceeding =>
    exact enterSymbol_mirrors hst (.cons (.steps ..) hframes) hnodes s.symbol _
      (fun id hs hid => hm _ (.absent hs hid)) (fun id hs hid => hm' _ (.absent hs hid))
  | s :: rest, .recovering =>
    simp only [enterSteps, ParseState.id_current_fill, ← hst.next]
    split
    · exact enterSymbol_mirrors (hst.fill 0) (.cons (.steps ..) hframes) hnodes s.symbol _
        (fun id hs hid => (hm _ (.absent hs (by simpa using hid))).fill)
        (fun id hs hid => (hm' _ (.absent hs (by simpa using hid))).fill)
    · exact ⟨.steps .., hframes, hnodes, hst.fill 0⟩

theorem enterRepetition_mirrors (r : Nat) (follow : TokenSet)
    (hm : p.Timely ⟨.repetition r follow, frames, nodes, st⟩)
    (hm' : p.Timely ⟨.repetition r follow, frames', nodes', st'⟩) :
    (p.enterRepetition r follow frames nodes st).Mirrors k
      (p.enterRepetition r follow frames' nodes' st') := by
  have hrepetition : Frame.Mirrors k (.repetition r follow st.consumed)
      (.repetition r follow st'.consumed) := hst.consumed ▸ .repetition r follow st.consumed
  simp only [enterRepetition, ParseState.id_current_fill, ParseState.consumed_fill, ← hst.next]
  split
  · exact ⟨.done _, hframes, hnodes, hst.fill 0⟩
  split
  · exact ⟨.rule .., .cons hrepetition hframes, hnodes, hst.fill 0⟩
  split
  · exact ⟨.done _, hframes, hnodes, hst.fill 0⟩
  next hf _ =>
    rw [Bool.not_eq_true] at hf
    have hunexpected := (hst.fill 0).unexpected p.grammar p.sync
      ((p.grammar.firstOf r).union follow) (fun _ => (hm _ (.stray hf)).fill)
      (fun _ => (hm' _ (.stray (hst.next ▸ hf))).fill)
    exact ⟨.repetition .., hframes, append_nodes hnodes hunexpected.fst, hunexpected.snd⟩

theorem enterExpression_mirrors (ctx : ExpressionContext)
    (hm : p.Timely ⟨.expression ctx, frames, nodes, st⟩)
    (hm' : p.Timely ⟨.expression ctx, frames', nodes', st'⟩) :
    (p.enterExpression ctx frames nodes st).Mirrors k
      (p.enterExpression ctx frames' nodes' st') := by
  simp only [enterExpression, ParseState.id_current_fill, ← hst.next]
  split
  · have htake := (hst.fill 0).takeLeaf
    exact ⟨.expression _, .cons (.unary ctx hst.current hnodes) hframes,
      fun hk => congrArg (fun i => [i]) (htake.fst hk), htake.snd⟩
  next hop =>
    split
    · exact ⟨.rule .., .cons (.operand ctx hnodes) hframes, fun _ => rfl, hst.fill 0⟩
    next hf =>
      rw [Bool.not_eq_true] at hf
      have hunexpected := (hst.fill 0).unexpected p.grammar p.sync (p.grammar.firstOf ctx.rule)
        (fun _ => (hm _ (.lack hop hf)).fill)
        (fun _ => (hm' _ (.lack (hst.next ▸ hop) (hst.next ▸ hf))).fill)
      exact ⟨.done _, hframes, append_nodes hnodes hunexpected.fst, hunexpected.snd⟩

theorem climb_mirrors (ctx : ExpressionContext) {lhs lhs' : NodeId} (hlhs : k = 0 → lhs = lhs') :
    (climb ctx lhs frames nodes st).Mirrors k (climb ctx lhs' frames' nodes' st') := by
  have htop := cons_nodes hnodes hlhs
  simp only [climb, ParseState.id_current_fill, ← hst.next]
  split
  · exact ⟨.done _, hframes, htop, hst.fill 0⟩
  split
  · exact ⟨.done _, hframes, htop, hst.fill 0⟩
  · have htake := (hst.fill 0).takeLeaf
    exact ⟨.expression _, .cons (.binary ctx hst.current hnodes) hframes,
      cons_nodes (fun hk => congrArg (fun i => [i]) (hlhs hk)) htake.fst, htake.snd⟩

theorem leaveOperand_mirrors (ctx : ExpressionContext) (flow : Flow) {node node' : NodeId}
    (hnode : k = 0 → node = node') :
    (leaveOperand ctx flow node frames nodes st).Mirrors k
      (leaveOperand ctx flow node' frames' nodes' st') := by
  cases flow with
  | proceeding => exact ⟨.climb ctx hnode, hframes, hnodes, hst⟩
  | recovering => exact ⟨.done _, hframes, cons_nodes hnodes hnode, hst⟩

theorem leaveRule_mirrors (r : Nat) (flow : Flow) {outer outer' : List NodeId}
    (houter : k = 0 → outer = outer') :
    (p.leaveRule r flow outer frames nodes st).Mirrors k
      (p.leaveRule r flow outer' frames' nodes' st') := by
  unfold leaveRule
  split
  · have hnode := (hst.fill 0).pushNode (.rule r) (fun hk => congrArg List.reverse (hnodes hk))
      (st.fill 0).current.position (st'.fill 0).current.position
    exact ⟨.done _, hframes, cons_nodes houter hnode.fst, hnode.snd⟩
  · exact ⟨.done _, hframes, append_nodes houter hnodes, hst⟩

omit hframes in
theorem operandNode_mirrors (r : Nat) :
    ParseState.Echoes k (operandNode r nodes st) (operandNode r nodes' st') := by
  by_cases hk : k = 0
  · cases hnodes hk
    unfold operandNode
    split
    · exact ⟨fun _ => rfl, hst⟩
    · exact (hst.fill 0).pushNode (.rule r) (fun _ => rfl) _ _
  · -- The trees are not compared, and a node that is made or not is all the difference there is.
    have hlook : ∀ (s : ParseState) (ns : List NodeId), ∃ s₁ arena,
        s.Proceeds 0 s₁ ∧ (operandNode r ns s).2 = { s₁ with arena } := by
      intro s ns
      unfold operandNode
      split
      · exact ⟨s, s.arena, .refl s, rfl⟩
      · exact ⟨_, _, .fill s 0, rfl⟩
    obtain ⟨s, arena, hs, heq⟩ := hlook st nodes
    obtain ⟨s', arena', hs', heq'⟩ := hlook st' nodes'
    refine ⟨fun h => absurd h hk, ?_⟩
    rw [heq, heq']
    exact { hst.proceed hs hs' with arena := fun h => absurd h hk }

theorem leave_mirrors {frame frame' : Frame} (hframe : frame.Mirrors k frame') (flow : Flow) :
    (p.leave frame flow frames nodes st).Mirrors k (p.leave frame' flow frames' nodes' st') := by
  have hreverse : k = 0 → nodes.reverse = nodes'.reverse := fun hk =>
    congrArg List.reverse (hnodes hk)
  cases hframe with
  | rule r entered entered' houter => exact leaveRule_mirrors hst hframes hnodes r flow houter
  | steps rest follow => exact ⟨.steps .., hframes, hnodes, hst⟩
  | repetition r follow before =>
    have hbefore : st'.consumed = before + k ↔ st.consumed = before := by
      rw [hst.consumed, Nat.add_right_cancel_iff]
    simp only [leave, hbefore]
    split
    · exact ⟨.repetition .., hframes, append_nodes hnodes hst.absorb.fst, hst.absorb.snd⟩
    · exact ⟨.repetition .., hframes, hnodes, hst⟩
  | operand ctx houter =>
    have hnode := operandNode_mirrors hst hnodes ctx.ops.operand
    exact leaveOperand_mirrors hnode.snd hframes houter ctx flow hnode.fst
  | @unary ctx op op' hop outer outer' houter =>
    have hid : op.id = op'.id := congrArg Lexeme.id hop
    have hnode := hst.pushNode (.unary op.id) hreverse op.position op'.position
    simp only [leave, ← hid]
    exact leaveOperand_mirrors hnode.snd hframes houter ctx flow hnode.fst
  | @binary ctx op op' hop outer outer' houter =>
    have hid : op.id = op'.id := congrArg Lexeme.id hop
    have hnode := hst.pushNode (.binary op.id) hreverse op.position op'.position
    simp only [leave, ← hid]
    exact leaveOperand_mirrors hnode.snd hframes houter ctx flow hnode.fst

end Steps

/-- Mirrored moments are followed by mirrored moments. -/
theorem step_mirrors (h : m.Mirrors k m') (hm : p.Timely m) (hm' : p.Timely m') :
    (p.step m).Mirrors k (p.step m') := by
  obtain ⟨task, frames, nodes, st⟩ := m
  obtain ⟨task', frames', nodes', st'⟩ := m'
  obtain ⟨htask, hframes, hnodes, hst⟩ := h
  cases htask with
  | rule r follow => exact enterRule_mirrors hst hframes hnodes r follow hm hm'
  | steps rest follow flow => exact enterSteps_mirrors hst hframes hnodes rest follow flow hm hm'
  | repetition r follow => exact enterRepetition_mirrors hst hframes hnodes r follow hm hm'
  | expression ctx => exact enterExpression_mirrors hst hframes hnodes ctx hm hm'
  | climb ctx hlhs => exact climb_mirrors hst hframes hnodes ctx hlhs
  | done flow =>
    cases hframes with
    | nil => exact ⟨.done flow, .nil, hnodes, hst⟩
    | cons hframe hframes => exact leave_mirrors hst hframes hnodes hframe flow

/-! ## Runs and answers -/

/-- And so it goes on. -/
theorem run_mirrors (h : m.Mirrors k m') (hm : ∀ n, p.Timely (p.run n m))
    (hm' : ∀ n, p.Timely (p.run n m')) (n : Nat) : (p.run n m).Mirrors k (p.run n m') := by
  induction n with
  | zero => exact h
  | succ n ih =>
    rw [run_succ, run_succ]
    exact step_mirrors ih (hm n) (hm' n)

/-- Where nothing is to come any more, the answers are made alike. -/
theorem answer_mirrors (hst : st.Mirrors k st') (hnodes : k = 0 → nodes = nodes')
    (hend : st.stream.upcoming = []) (place place' : Position) :
    Parse.Mirrors k ⟨st.arena.finish nodes.reverse place, st.allReports⟩
      ⟨st'.arena.finish nodes'.reverse place', st'.allReports⟩ where
  diagnostics := by
    rw [ParseState.allReports_eq, ParseState.allReports_eq]
    exact hst.filed hend
  arena := fun hk => by
    rw [hnodes hk]
    exact (hst.arena hk).pushNode .root nodes'.reverse place place'
  root := fun hk => (hst.arena hk).nextId

/-- What is left at the end is put away, all of it. -/
theorem upcoming_trailing (st : ParseState) : (st.trailing.2.fill 0).stream.upcoming = [] := by
  have hall : ∀ s : TokenStream, (s.synchronize ∅ []).2.upcoming = [] := by
    intro s
    obtain ⟨-, read, hadv⟩ := TokenStream.synchronize_spec ∅ [] s
    have htaken : (s.upcoming.takeWhile fun t => !(∅ : TokenSet).contains t.id) = s.upcoming :=
      List.takeWhile_eq_self_iff.2 fun t _ => by rw [TokenSet.contains_empty]; rfl
    rw [hadv.upcoming, htaken, List.drop_length]
  exact (TokenStream.upcoming_fill _ 0).trans (hall _)

/-- Parses that end in mirrored moments have mirrored answers. -/
theorem finish_mirrors (h : m.Mirrors k m')
    (hend : m.state.next = .eof → m.state.stream.upcoming = [])
    (hprompt : m.state.next ≠ .eof → m.state.Prompt)
    (hprompt' : m'.state.next ≠ .eof → m'.state.Prompt) :
    (finish m).Mirrors k (finish m') := by
  unfold finish
  simp only [ParseState.id_current_fill, ← h.state.next]
  split
  · next hnext =>
    exact answer_mirrors (h.state.fill 0) h.nodes
      ((m.state.stream.upcoming_fill 0).trans (hend hnext)) _ _
  · next hnext =>
    have htrailing := h.state.trailing (fun _ => hprompt hnext)
      (fun _ => hprompt' (h.state.next ▸ hnext))
    exact answer_mirrors (htrailing.snd.fill 0) (cons_nodes h.nodes htrailing.fst)
      (upcoming_trailing _) _ _

end Parser

end FrontEnd
