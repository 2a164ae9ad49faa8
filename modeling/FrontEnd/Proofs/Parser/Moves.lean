import FrontEnd.Proofs.Parser.State
import FrontEnd.Parser.Machine
import Mathlib.Algebra.Group.Nat.Defs

/-!
# What one step can do

The step function is opened once, here. `Move` lists the steps by name with their guards, and
everything that is said of all steps is proved by going through the list.

- `Parser.Enter`, `Parser.Move`: the steps;
- `Parser.step_move`: **a step is one of them**;
- `Parser.Move.takes`, `Parser.Move.framing`: a step takes tokens from the front, and pushes or pops
  at most one frame;
- `Parser.run_invariant`: what one step keeps, every run keeps;
- `Parser.Reaches.induction`: the moments of a parse, from the first one on.
-/

namespace FrontEnd

namespace Parser

/-! ## Steps by name -/

/-- Beginning a symbol behind which one of `follow` may come. -/
inductive Enter (p : Parser) (frames : List Frame) (nodes : List NodeId) (st : ParseState)
    (follow : TokenSet) : Symbol → Machine → Prop where
  /-- The token is there. -/
  | token {id : TokenId} (hid : st.next = id) :
    Enter p frames nodes st follow (.token id)
      ⟨.done .proceeding, frames, (st.fill 0).takeLeaf.1 :: nodes, (st.fill 0).takeLeaf.2⟩
  /-- The token is where skipping stopped. -/
  | late {id : TokenId} {errors : List NodeId} {st₁ : ParseState} (hid : st.next ≠ id)
    (hu : (st.fill 0).unexpected p.grammar p.sync (.single id) = (errors, st₁))
    (hid₁ : st₁.next = id) :
    Enter p frames nodes st follow (.token id)
      ⟨.done .proceeding, frames, (st₁.fill 0).takeLeaf.1 :: (errors ++ nodes),
        (st₁.fill 0).takeLeaf.2⟩
  /-- The token is not there. -/
  | absent {id : TokenId} {errors : List NodeId} {st₁ : ParseState} (hid : st.next ≠ id)
    (hu : (st.fill 0).unexpected p.grammar p.sync (.single id) = (errors, st₁))
    (hid₁ : st₁.next ≠ id) :
    Enter p frames nodes st follow (.token id)
      ⟨.done .recovering, frames, errors ++ nodes, st₁.fill 0⟩
  | rule {r : Nat} : Enter p frames nodes st follow (.rule r) ⟨.rule r follow, frames, nodes, st⟩
  /-- The optional rule can begin with the next token. -/
  | opt {r : Nat} (hf : (p.grammar.firstOf r).contains st.next = true) :
    Enter p frames nodes st follow (.opt r) ⟨.rule r follow, frames, nodes, st.fill 0⟩
  /-- The optional rule is left out. -/
  | skip {r : Nat} (hf : (p.grammar.firstOf r).contains st.next = false) :
    Enter p frames nodes st follow (.opt r) ⟨.done .proceeding, frames, nodes, st.fill 0⟩
  | many {r : Nat} :
    Enter p frames nodes st follow (.many r) ⟨.repetition r follow, frames, nodes, st⟩

/-- The steps of the machine. -/
inductive Move (p : Parser) : Machine → Machine → Prop where
  /-- A rule without productions. -/
  | missing {r : Nat} {follow : TokenSet} {frames : List Frame} {nodes : List NodeId}
    {st : ParseState} (hb : p.grammar.body r = .undefined) :
    Move p ⟨.rule r follow, frames, nodes, st⟩
      ⟨.done .recovering, frames, (st.missingRule p.grammar r).1 :: nodes,
        (st.missingRule p.grammar r).2⟩
  /-- A rule of operands and operators. -/
  | express {r : Nat} {follow : TokenSet} {frames : List Frame} {nodes : List NodeId}
    {st : ParseState} {ops : Operators} (hb : p.grammar.body r = .expression ops) :
    Move p ⟨.rule r follow, frames, nodes, st⟩
      ⟨.expression ⟨r, ops, 0, follow.union ops.binaryTokens⟩,
        .rule r st.consumed nodes :: frames, [], st⟩
  /-- A rule with an alternative for the tokens to come. -/
  | choose {r : Nat} {follow : TokenSet} {frames : List Frame} {nodes : List NodeId}
    {st st₁ : ParseState} {as : List Alternative} {a : Alternative}
    (hb : p.grammar.body r = .sequence as) (hs : st.select p.grammar r as = (some a, st₁)) :
    Move p ⟨.rule r follow, frames, nodes, st⟩
      ⟨.steps a.steps follow .proceeding, .rule r st.consumed nodes :: frames, [], st₁⟩
  /-- A rule with an alternative for the token where skipping stopped. -/
  | retry {r : Nat} {follow : TokenSet} {frames : List Frame} {nodes errors : List NodeId}
    {st st₁ st₂ st₃ : ParseState} {as : List Alternative} {a : Alternative}
    (hb : p.grammar.body r = .sequence as) (hs : st.select p.grammar r as = (none, st₁))
    (hd : st₁.atDamage = false)
    (hu : st₁.unexpected p.grammar p.sync (p.grammar.firstOf r) = (errors, st₂))
    (hs₂ : (st₂.fill 0).select p.grammar r as = (some a, st₃))
    (ha : a.first.contains st₂.next = true) :
    Move p ⟨.rule r follow, frames, nodes, st⟩
      ⟨.steps a.steps follow .proceeding, .rule r st.consumed nodes :: frames, errors, st₃⟩
  /-- A rule without an alternative for the tokens to come. -/
  | refuse {r : Nat} {follow : TokenSet} {frames : List Frame} {nodes errors : List NodeId}
    {st st₁ st₂ st₃ : ParseState} {as : List Alternative} {a : Option Alternative}
    (hb : p.grammar.body r = .sequence as) (hs : st.select p.grammar r as = (none, st₁))
    (hu : st₁.unexpected p.grammar p.sync (p.grammar.firstOf r) = (errors, st₂))
    (hs₂ : (st₂.fill 0).select p.grammar r as = (a, st₃))
    (ha : ∀ b, a = some b → st₁.atDamage = false → b.first.contains st₂.next = false) :
    Move p ⟨.rule r follow, frames, nodes, st⟩
      ⟨.done .recovering, .rule r st.consumed nodes :: frames, errors, st₃⟩
  /-- A production at its end. -/
  | finish {follow : TokenSet} {flow : Flow} {frames : List Frame} {nodes : List NodeId}
    {st : ParseState} :
    Move p ⟨.steps [] follow flow, frames, nodes, st⟩ ⟨.done flow, frames, nodes, st⟩
  /-- A symbol that is left out after skipping. -/
  | pass {s : Step} {rest : List Step} {follow : TokenSet} {frames : List Frame}
    {nodes : List NodeId} {st : ParseState} (hc : p.grammar.canStart s.symbol st.next = false) :
    Move p ⟨.steps (s :: rest) follow .recovering, frames, nodes, st⟩
      ⟨.steps rest follow .recovering, frames, nodes, st.fill 0⟩
  /-- A symbol that is parsed. -/
  | enter {s : Step} {rest : List Step} {follow : TokenSet} {flow : Flow} {frames : List Frame}
    {nodes : List NodeId} {st st₁ : ParseState} {m : Machine}
    (hst : st₁ = st ∨ st₁ = st.fill 0)
    (hc : flow = .recovering → p.grammar.canStart s.symbol st.next = true)
    (he : Enter p (.steps rest follow :: frames) nodes st₁ (followOf s follow) s.symbol m) :
    Move p ⟨.steps (s :: rest) follow flow, frames, nodes, st⟩ m
  /-- A repetition that ends. -/
  | close {r : Nat} {follow : TokenSet} {frames : List Frame} {nodes : List NodeId}
    {st : ParseState} (hn : st.next = .eof ∨
      (p.grammar.firstOf r).contains st.next = false ∧ follow.contains st.next = true) :
    Move p ⟨.repetition r follow, frames, nodes, st⟩ ⟨.done .proceeding, frames, nodes, st.fill 0⟩
  /-- Another round. -/
  | round {r : Nat} {follow : TokenSet} {frames : List Frame} {nodes : List NodeId}
    {st : ParseState} (hn : st.next ≠ .eof)
    (hf : (p.grammar.firstOf r).contains st.next = true) :
    Move p ⟨.repetition r follow, frames, nodes, st⟩
      ⟨.rule r ((p.grammar.firstOf r).union follow), .repetition r follow st.consumed :: frames,
        nodes, st.fill 0⟩
  /-- A token that begins no round and cannot follow either. -/
  | stray {r : Nat} {follow : TokenSet} {frames : List Frame} {nodes errors : List NodeId}
    {st st₁ : ParseState} (hn : st.next ≠ .eof)
    (hf : (p.grammar.firstOf r).contains st.next = false) (hfollow : follow.contains st.next = false)
    (hu : (st.fill 0).unexpected p.grammar p.sync ((p.grammar.firstOf r).union follow)
      = (errors, st₁)) :
    Move p ⟨.repetition r follow, frames, nodes, st⟩
      ⟨.repetition r follow, frames, errors ++ nodes, st₁⟩
  /-- A prefix operator. -/
  | sign {ctx : ExpressionContext} {frames : List Frame} {nodes : List NodeId} {st : ParseState}
    {level : Fin 256} (hop : ctx.ops.prefixPrecedence? st.next = some level) :
    Move p ⟨.expression ctx, frames, nodes, st⟩
      ⟨.expression { ctx with level := level.val }, .unary ctx (st.fill 0).current nodes :: frames,
        [(st.fill 0).takeLeaf.1], (st.fill 0).takeLeaf.2⟩
  /-- An operand. -/
  | operand {ctx : ExpressionContext} {frames : List Frame} {nodes : List NodeId}
    {st : ParseState} (hop : ctx.ops.prefixPrecedence? st.next = none)
    (hf : (p.grammar.firstOf ctx.ops.operand).contains st.next = true) :
    Move p ⟨.expression ctx, frames, nodes, st⟩
      ⟨.rule ctx.ops.operand ctx.follow, .operand ctx nodes :: frames, [], st.fill 0⟩
  /-- No operand. -/
  | lack {ctx : ExpressionContext} {frames : List Frame} {nodes errors : List NodeId}
    {st st₁ : ParseState} (hop : ctx.ops.prefixPrecedence? st.next = none)
    (hf : (p.grammar.firstOf ctx.ops.operand).contains st.next = false)
    (hu : (st.fill 0).unexpected p.grammar p.sync (p.grammar.firstOf ctx.rule) = (errors, st₁)) :
    Move p ⟨.expression ctx, frames, nodes, st⟩
      ⟨.done .recovering, frames, errors ++ nodes, st₁⟩
  /-- A binary operator. -/
  | climb {ctx : ExpressionContext} {lhs : NodeId} {frames : List Frame} {nodes : List NodeId}
    {st : ParseState} {op : BinaryOperator} (hop : ctx.ops.binary? st.next = some op)
    (hlevel : ctx.level ≤ op.precedence.val) :
    Move p ⟨.climb ctx lhs, frames, nodes, st⟩
      ⟨.expression { ctx with level := op.rightLevel },
        .binary ctx (st.fill 0).current nodes :: frames, [(st.fill 0).takeLeaf.1, lhs],
        (st.fill 0).takeLeaf.2⟩
  /-- No operator that belongs to this expression. -/
  | top {ctx : ExpressionContext} {lhs : NodeId} {frames : List Frame} {nodes : List NodeId}
    {st : ParseState}
    (hop : ∀ op, ctx.ops.binary? st.next = some op → op.precedence.val < ctx.level) :
    Move p ⟨.climb ctx lhs, frames, nodes, st⟩
      ⟨.done .proceeding, frames, lhs :: nodes, st.fill 0⟩
  /-- A rule gets a node of its own. -/
  | wrap {r entered : Nat} {flow : Flow} {frames : List Frame} {nodes outer : List NodeId}
    {st : ParseState} (hnode : p.hasNode r = true) :
    Move p ⟨.done flow, .rule r entered outer :: frames, nodes, st⟩
      ⟨.done flow, frames,
        ((st.fill 0).pushNode (.rule r) nodes.reverse (st.fill 0).current.position).1 :: outer,
        ((st.fill 0).pushNode (.rule r) nodes.reverse (st.fill 0).current.position).2⟩
  /-- A rule leaves its nodes to the surrounding part. -/
  | splice {r entered : Nat} {flow : Flow} {frames : List Frame} {nodes outer : List NodeId}
    {st : ParseState} (hnode : p.hasNode r = false) :
    Move p ⟨.done flow, .rule r entered outer :: frames, nodes, st⟩
      ⟨.done flow, frames, nodes ++ outer, st⟩
  /-- The next symbol of a production. -/
  | resume {rest : List Step} {follow : TokenSet} {flow : Flow} {frames : List Frame}
    {nodes : List NodeId} {st : ParseState} :
    Move p ⟨.done flow, .steps rest follow :: frames, nodes, st⟩
      ⟨.steps rest follow flow, frames, nodes, st⟩
  /-- A round that took nothing. -/
  | stall {r before : Nat} {follow : TokenSet} {flow : Flow} {frames : List Frame}
    {nodes : List NodeId} {st : ParseState} (hb : st.consumed = before) :
    Move p ⟨.done flow, .repetition r follow before :: frames, nodes, st⟩
      ⟨.repetition r follow, frames, st.absorb.1 ++ nodes, st.absorb.2⟩
  /-- A round that took tokens. -/
  | again {r before : Nat} {follow : TokenSet} {flow : Flow} {frames : List Frame}
    {nodes : List NodeId} {st : ParseState} (hb : st.consumed ≠ before) :
    Move p ⟨.done flow, .repetition r follow before :: frames, nodes, st⟩
      ⟨.repetition r follow, frames, nodes, st⟩
  /-- An operand is done. -/
  | leaf {ctx : ExpressionContext} {flow : Flow} {frames : List Frame} {nodes outer : List NodeId}
    {st : ParseState} :
    Move p ⟨.done flow, .operand ctx outer :: frames, nodes, st⟩
      (leaveOperand ctx flow (operandNode ctx.ops.operand nodes st).1 frames outer
        (operandNode ctx.ops.operand nodes st).2)
  /-- The operand of a prefix operator is done. -/
  | unary {ctx : ExpressionContext} {op : Token} {flow : Flow} {frames : List Frame}
    {nodes outer : List NodeId} {st : ParseState} :
    Move p ⟨.done flow, .unary ctx op outer :: frames, nodes, st⟩
      (leaveOperand ctx flow (st.pushNode (.unary op.id) nodes.reverse op.position).1 frames outer
        (st.pushNode (.unary op.id) nodes.reverse op.position).2)
  /-- The right operand of a binary operator is done. -/
  | binary {ctx : ExpressionContext} {op : Token} {flow : Flow} {frames : List Frame}
    {nodes outer : List NodeId} {st : ParseState} :
    Move p ⟨.done flow, .binary ctx op outer :: frames, nodes, st⟩
      (leaveOperand ctx flow (st.pushNode (.binary op.id) nodes.reverse op.position).1 frames outer
        (st.pushNode (.binary op.id) nodes.reverse op.position).2)
  /-- The parse has ended. -/
  | rest {flow : Flow} {nodes : List NodeId} {st : ParseState} :
    Move p ⟨.done flow, [], nodes, st⟩ ⟨.done flow, [], nodes, st⟩

/-! ## The step function -/

variable {p : Parser}

theorem enterRule_move (r : Nat) (follow : TokenSet) (frames : List Frame) (nodes : List NodeId)
    (st : ParseState) :
    p.Move ⟨.rule r follow, frames, nodes, st⟩ (p.enterRule r follow frames nodes st) := by
  unfold enterRule
  cases hb : p.grammar.body r with
  | undefined => exact .missing hb
  | expression ops => exact .express hb
  | sequence as =>
    rcases hs : st.select p.grammar r as with ⟨_ | a, st₁⟩
    · rcases hu : st₁.unexpected p.grammar p.sync (p.grammar.firstOf r) with ⟨errors, st₂⟩
      rcases hs₂ : (st₂.fill 0).select p.grammar r as with ⟨_ | a, st₃⟩
      · simp only [hs, hu, hs₂]
        exact .refuse hb hs hu hs₂ (fun b hb' => nomatch hb')
      · simp only [hs, hu, hs₂, ParseState.id_current_fill]
        by_cases hretry : (!st₁.atDamage && a.first.contains st₂.next) = true
        · rw [if_pos hretry]
          obtain ⟨hd, ha⟩ := Bool.and_eq_true_iff.1 hretry
          exact .retry hb hs (by simpa using hd) hu hs₂ ha
        · rw [if_neg hretry]
          refine .refuse hb hs hu hs₂ fun b hb' hd => ?_
          cases hb'
          simpa [hd] using hretry
    · simp only [hs]
      exact .choose hb hs

theorem expect_enter (id : TokenId) (frames : List Frame) (nodes : List NodeId) (st : ParseState)
    (follow : TokenSet) :
    p.Enter frames nodes st follow (.token id) (p.expect id frames nodes st) := by
  simp only [expect, ParseState.id_current_fill]
  by_cases hid : st.next = id
  · rw [if_pos hid]
    exact .token hid
  · rw [if_neg hid]
    rcases hu : (st.fill 0).unexpected p.grammar p.sync (.single id) with ⟨errors, st₁⟩
    simp only
    by_cases hid₁ : st₁.next = id
    · rw [if_pos hid₁]
      exact .late hid hu hid₁
    · rw [if_neg hid₁]
      exact .absent hid hu hid₁

theorem enterSymbol_enter (symbol : Symbol) (follow : TokenSet) (frames : List Frame)
    (nodes : List NodeId) (st : ParseState) :
    p.Enter frames nodes st follow symbol (p.enterSymbol symbol follow frames nodes st) := by
  cases symbol with
  | token id => exact expect_enter id frames nodes st follow
  | rule r => exact .rule
  | many r => exact .many
  | opt r =>
    simp only [enterSymbol, ParseState.id_current_fill]
    cases hf : (p.grammar.firstOf r).contains st.next with
    | true => exact .opt hf
    | false => exact .skip hf

theorem enterSteps_move (steps : List Step) (follow : TokenSet) (flow : Flow)
    (frames : List Frame) (nodes : List NodeId) (st : ParseState) :
    p.Move ⟨.steps steps follow flow, frames, nodes, st⟩
      (p.enterSteps steps follow flow frames nodes st) := by
  match steps, flow with
  | [], flow => exact .finish
  | s :: rest, .proceeding =>
    exact .enter (.inl rfl) (fun h => nomatch h) (enterSymbol_enter ..)
  | s :: rest, .recovering =>
    simp only [enterSteps, ParseState.id_current_fill]
    cases hc : p.grammar.canStart s.symbol st.next with
    | true => exact .enter (.inr rfl) (fun _ => hc) (enterSymbol_enter ..)
    | false => exact .pass hc

theorem enterRepetition_move (r : Nat) (follow : TokenSet) (frames : List Frame)
    (nodes : List NodeId) (st : ParseState) :
    p.Move ⟨.repetition r follow, frames, nodes, st⟩
      (p.enterRepetition r follow frames nodes st) := by
  simp only [enterRepetition, ParseState.id_current_fill, ParseState.consumed_fill]
  by_cases hn : st.next = .eof
  · rw [if_pos hn]
    exact .close (.inl hn)
  · rw [if_neg hn]
    cases hf : (p.grammar.firstOf r).contains st.next with
    | true => exact .round hn hf
    | false =>
      cases hfollow : follow.contains st.next with
      | true => exact .close (.inr ⟨hf, hfollow⟩)
      | false => exact .stray hn hf hfollow rfl

theorem enterExpression_move (ctx : ExpressionContext) (frames : List Frame)
    (nodes : List NodeId) (st : ParseState) :
    p.Move ⟨.expression ctx, frames, nodes, st⟩ (p.enterExpression ctx frames nodes st) := by
  simp only [enterExpression, ParseState.id_current_fill]
  cases hop : ctx.ops.prefixPrecedence? st.next with
  | some level => exact .sign hop
  | none =>
    cases hf : (p.grammar.firstOf ctx.ops.operand).contains st.next with
    | true => exact .operand hop hf
    | false => exact .lack hop hf rfl

theorem climb_move (ctx : ExpressionContext) (lhs : NodeId) (frames : List Frame)
    (nodes : List NodeId) (st : ParseState) :
    p.Move ⟨.climb ctx lhs, frames, nodes, st⟩ (Parser.climb ctx lhs frames nodes st) := by
  simp only [Parser.climb, ParseState.id_current_fill]
  cases hop : ctx.ops.binary? st.next with
  | none => exact .top fun op h => nomatch hop ▸ h
  | some op =>
    by_cases hlevel : op.precedence.val < ctx.level
    · simp only [if_pos hlevel]
      refine .top fun op' h => ?_
      rw [hop] at h
      cases h
      exact hlevel
    · simp only [if_neg hlevel]
      exact .climb hop (Nat.le_of_not_lt hlevel)

theorem leave_move (frame : Frame) (flow : Flow) (frames : List Frame) (nodes : List NodeId)
    (st : ParseState) :
    p.Move ⟨.done flow, frame :: frames, nodes, st⟩ (p.leave frame flow frames nodes st) := by
  cases frame with
  | rule r entered outer =>
    simp only [leave, leaveRule]
    cases hnode : p.hasNode r with
    | true => exact .wrap hnode
    | false => exact .splice hnode
  | steps rest follow => exact .resume
  | repetition r follow before =>
    simp only [leave]
    by_cases hb : st.consumed = before
    · rw [if_pos hb]
      exact .stall hb
    · rw [if_neg hb]
      exact .again hb
  | operand ctx outer => exact .leaf
  | unary ctx op outer => exact .unary
  | binary ctx op outer => exact .binary

theorem step_move (p : Parser) (m : Machine) : p.Move m (p.step m) := by
  match m with
  | ⟨.rule r follow, frames, nodes, st⟩ => exact enterRule_move ..
  | ⟨.steps rest follow flow, frames, nodes, st⟩ => exact enterSteps_move ..
  | ⟨.repetition r follow, frames, nodes, st⟩ => exact enterRepetition_move ..
  | ⟨.expression ctx, frames, nodes, st⟩ => exact enterExpression_move ..
  | ⟨.climb ctx lhs, frames, nodes, st⟩ => exact climb_move ..
  | ⟨.done flow, frame :: frames, nodes, st⟩ => exact leave_move ..
  | ⟨.done flow, [], nodes, st⟩ => exact .rest

/-! ## What all steps have in common -/

theorem takes_unexpected_of_eq {st st₁ : ParseState} {errors : List NodeId} {expected : TokenSet}
    (hu : st.unexpected p.grammar p.sync expected = (errors, st₁)) :
    st.Takes (st.damageLength p.sync) st₁ ∧ st₁.atDamage = true := by
  have h := st.takes_unexpected p.grammar p.sync expected
  rwa [hu] at h

theorem stays_select_of_eq {st st₁ : ParseState} {r : Nat} {as : List Alternative}
    {a : Option Alternative} (hs : st.select p.grammar r as = (a, st₁)) : st.Stays st₁ := by
  have h := st.stays_select p.grammar r as
  rwa [hs] at h

/-- A symbol is begun in the same state, or after a look at the next token. -/
theorem stays_of_filled {st st₁ : ParseState} (hst : st₁ = st ∨ st₁ = st.fill 0) : st.Stays st₁ := by
  rcases hst with rfl | rfl
  · exact .refl _
  · exact st.stays_fill 0

theorem Enter.takes {frames : List Frame} {nodes : List NodeId} {st : ParseState}
    {follow : TokenSet} {symbol : Symbol} {m : Machine}
    (h : p.Enter frames nodes st follow symbol m) : ∃ n, st.Takes n m.state := by
  cases h with
  | token _ => exact ⟨_, (st.stays_fill 0).takes (ParseState.takes_takeLeaf _)⟩
  | late _ hu _ =>
    have hunexp := (st.stays_fill 0).takes (takes_unexpected_of_eq hu).1
    exact ⟨_, (hunexp.stays (ParseState.stays_fill _ 0)).trans (ParseState.takes_takeLeaf _)⟩
  | absent _ hu _ =>
    have hunexp := (st.stays_fill 0).takes (takes_unexpected_of_eq hu).1
    exact ⟨_, hunexp.stays (ParseState.stays_fill _ 0)⟩
  | rule => exact ⟨_, (ParseState.Stays.refl st).toTakes⟩
  | opt _ => exact ⟨_, (st.stays_fill 0).toTakes⟩
  | skip _ => exact ⟨_, (st.stays_fill 0).toTakes⟩
  | many => exact ⟨_, (ParseState.Stays.refl st).toTakes⟩

theorem takes_leaveOperand {st st₁ : ParseState} (ctx : ExpressionContext) (flow : Flow)
    (node : NodeId) (frames : List Frame) (nodes : List NodeId) (h : st.Stays st₁) :
    st.Stays (leaveOperand ctx flow node frames nodes st₁).state := by
  cases flow with
  | proceeding => exact h
  | recovering => exact h

theorem stays_operandNode (r : Nat) (nodes : List NodeId) (st : ParseState) :
    st.Stays (operandNode r nodes st).2 := by
  unfold operandNode
  split
  · exact .refl st
  · exact (st.stays_fill 0).trans (ParseState.stays_pushNode ..)

/-- A step takes tokens from the front, loses no report and stays honest. -/
theorem Move.takes {m m' : Machine} (h : p.Move m m') : ∃ n, m.state.Takes n m'.state := by
  cases h with
  | missing _ => exact ⟨_, (ParseState.takes_missingRule ..).1⟩
  | express _ => exact ⟨_, (ParseState.Stays.refl _).toTakes⟩
  | choose _ hs => exact ⟨_, (stays_select_of_eq hs).toTakes⟩
  | retry _ hs _ hu hs₂ _ | refuse _ hs hu hs₂ _ =>
    have hunexp := (stays_select_of_eq hs).takes (takes_unexpected_of_eq hu).1
    exact ⟨_, hunexp.stays ((ParseState.stays_fill _ 0).trans (stays_select_of_eq hs₂))⟩
  | finish | resume | again _ | splice _ | rest => exact ⟨_, (ParseState.Stays.refl _).toTakes⟩
  | pass _ | close _ | round _ _ | operand _ _ | top _ =>
    exact ⟨_, (ParseState.stays_fill _ 0).toTakes⟩
  | enter hst _ he =>
    obtain ⟨n, htakes⟩ := he.takes
    exact ⟨n, (stays_of_filled hst).takes htakes⟩
  | stray _ _ _ hu | lack _ _ hu =>
    exact ⟨_, (ParseState.stays_fill _ 0).takes (takes_unexpected_of_eq hu).1⟩
  | sign _ | climb _ _ =>
    exact ⟨_, (ParseState.stays_fill _ 0).takes (ParseState.takes_takeLeaf _)⟩
  | wrap _ => exact ⟨_, ((ParseState.stays_fill _ 0).trans (ParseState.stays_pushNode ..)).toTakes⟩
  | stall _ => exact ParseState.exists_takes_absorb _
  | leaf => exact ⟨_, (takes_leaveOperand _ _ _ _ _ (stays_operandNode ..)).toTakes⟩
  | unary | binary =>
    exact ⟨_, (takes_leaveOperand _ _ _ _ _ (ParseState.stays_pushNode ..)).toTakes⟩

/-- What a step does to the stack. -/
inductive Framing (m m' : Machine) : Prop where
  | keep (h : m'.frames = m.frames)
  /-- A frame that remembers how many tokens had been taken remembers it of this moment; a frame of
  a rule comes from the task, and a round begins before the end only. -/
  | push (frame : Frame) (h : m'.frames = frame :: m.frames)
    (hrule : ∀ r entered nodes, frame = .rule r entered nodes →
      entered = m.state.consumed ∧ ∃ follow, m.task = .rule r follow)
    (hround : ∀ r follow before, frame = .repetition r follow before →
      before = m.state.consumed ∧ m.state.next ≠ .eof)
  | pop (frame : Frame) (h : m.frames = frame :: m'.frames)

theorem frames_leaveOperand (ctx : ExpressionContext) (flow : Flow) (node : NodeId)
    (frames : List Frame) (nodes : List NodeId) (st : ParseState) :
    (leaveOperand ctx flow node frames nodes st).frames = frames := by
  cases flow <;> rfl

theorem Enter.frames_eq {frames : List Frame} {nodes : List NodeId} {st : ParseState}
    {follow : TokenSet} {symbol : Symbol} {m : Machine}
    (h : p.Enter frames nodes st follow symbol m) : m.frames = frames := by
  cases h <;> rfl

/-- A step pushes or pops at most one frame. -/
theorem Move.framing {m m' : Machine} (h : p.Move m m') : Framing m m' := by
  cases h with
  | missing _ | finish | pass _ | close _ | stray _ _ _ _ | lack _ _ _ | top _ | rest =>
    exact .keep rfl
  | express _ | choose _ _ | retry _ _ _ _ _ _ | refuse _ _ _ _ _ =>
    exact .push _ rfl (fun _ _ _ h => by cases h; exact ⟨rfl, _, rfl⟩) (fun _ _ _ h => nomatch h)
  | enter _ _ he =>
    exact .push _ he.frames_eq (fun _ _ _ h => nomatch h) (fun _ _ _ h => nomatch h)
  | round hn _ =>
    exact .push _ rfl (fun _ _ _ h => nomatch h) (fun _ _ _ h => by cases h; exact ⟨rfl, hn⟩)
  | sign _ | operand _ _ | climb _ _ =>
    exact .push _ rfl (fun _ _ _ h => nomatch h) (fun _ _ _ h => nomatch h)
  | wrap _ | splice _ | resume | stall _ | again _ => exact .pop _ rfl
  | leaf | unary | binary => exact .pop _ (by rw [frames_leaveOperand])

/-! ## Runs -/

theorem run_add (p : Parser) (i j : Nat) (m : Machine) : p.run (i + j) m = p.run j (p.run i m) := by
  induction i generalizing m with
  | zero => rw [Nat.zero_add]; rfl
  | succ i ih =>
    rw [Nat.succ_add]
    exact ih (p.step m)

theorem run_succ (p : Parser) (n : Nat) (m : Machine) : p.run (n + 1) m = p.step (p.run n m) :=
  run_add p n 1 m

/-- What one step keeps, every run keeps. -/
theorem run_invariant {I : Machine → Prop} (hstep : ∀ m m', p.Move m m' → I m → I m')
    {m : Machine} (hm : I m) (n : Nat) : I (p.run n m) := by
  induction n with
  | zero => exact hm
  | succ n ih =>
    rw [run_succ]
    exact hstep _ _ (step_move p _) ih

theorem step_of_halted {m : Machine} (h : m.halted = true) : p.step m = m := by
  obtain ⟨task, frames, nodes, st⟩ := m
  rw [Machine.halted, Bool.and_eq_true, List.isEmpty_iff] at h
  obtain ⟨rfl, htask⟩ := h
  cases task with
  | done flow => rfl
  | _ => cases htask

theorem run_of_halted {m : Machine} (h : m.halted = true) (n : Nat) : p.run n m = m := by
  induction n with
  | zero => rfl
  | succ n ih => rw [run_succ, ih, step_of_halted h]

theorem run_of_halted_le {m : Machine} {i j : Nat} (h : (p.run i m).halted = true) (hij : i ≤ j) :
    p.run j m = p.run i m := by
  obtain ⟨d, rfl⟩ := Nat.exists_eq_add_of_le hij
  rw [run_add, run_of_halted h]

theorem run_takes (p : Parser) (n : Nat) (m : Machine) : ∃ k, m.state.Takes k (p.run n m).state := by
  induction n with
  | zero => exact ⟨0, (ParseState.Stays.refl _).toTakes⟩
  | succ n ih =>
    obtain ⟨k, hk⟩ := ih
    obtain ⟨l, hl⟩ := (step_move p (p.run n m)).takes
    rw [run_succ]
    exact ⟨k + l, hk.trans hl⟩

/-- Doubling skips nothing but moments after the end. -/
theorem runDoubling_eq (p : Parser) (k : Nat) (m : Machine) :
    p.runDoubling k m = p.run (2 ^ k) m := by
  induction k generalizing m with
  | zero => rfl
  | succ k ih =>
    rw [runDoubling, Nat.pow_succ, Nat.mul_two, run_add, ih]
    by_cases h : (p.run (2 ^ k) m).halted = true
    · rw [if_pos h, run_of_halted h]
    · rw [if_neg h, ih]

theorem parseWithin_eq (p : Parser) (k : Nat) (stream : TokenStream) :
    p.parseWithin k stream =
      if (p.run (2 ^ k) (p.start stream)).halted then
        some (finish (p.run (2 ^ k) (p.start stream)))
      else none := by
  rw [parseWithin, runDoubling_eq]

/-- At the end all reports are in the answer, and what is left of the input is reported unless
tokens were skipped right before. -/
theorem finish_spec (m : Machine) :
    m.state.filed ⊆ (finish m).diagnostics ∧
      (m.state.next ≠ .eof → m.state.atDamage = false →
        ∃ d ∈ (finish m).diagnostics, d.code ≠ .ambiguousRule) := by
  have hfill := m.state.stays_fill 0
  unfold finish
  simp only [ParseState.id_current_fill]
  by_cases hend : m.state.next = .eof
  · rw [if_pos hend]
    simp only [ParseState.allReports_eq]
    exact ⟨hfill.filed, fun h => absurd hend h⟩
  · rw [if_neg hend]
    simp only [ParseState.allReports_eq]
    obtain ⟨⟨n, htakes⟩, hreport⟩ := (m.state.fill 0).takes_trailing
    have hlast := (m.state.fill 0).trailing.2.stays_fill 0
    refine ⟨fun d hd => hlast.filed (htakes.filed (hfill.filed hd)), fun _ hdamage => ?_⟩
    obtain ⟨d, hd, hcode⟩ := hreport (hfill.atDamage.trans hdamage)
    exact ⟨d, hlast.filed hd, hcode⟩

/-- A moment of the parse of the stream. -/
def Reaches (p : Parser) (stream : TokenStream) (m : Machine) : Prop :=
  ∃ n, m = p.run n (p.start stream)

theorem Reaches.run {stream : TokenStream} {m : Machine} (hm : p.Reaches stream m) (n : Nat) :
    p.Reaches stream (p.run n m) := by
  obtain ⟨k, rfl⟩ := hm
  exact ⟨k + n, (run_add p k n _).symm⟩

theorem Reaches.step {stream : TokenStream} {m : Machine} (hm : p.Reaches stream m) :
    p.Reaches stream (p.step m) :=
  hm.run 1

/-- A moment of a parse is the first one, or the next after a moment of the parse. -/
@[elab_as_elim]
theorem Reaches.induction {stream : TokenStream} {motive : ∀ m, p.Reaches stream m → Prop}
    (start : motive (p.start stream) ⟨0, rfl⟩)
    (step : ∀ m (hm : p.Reaches stream m), motive m hm → motive (p.step m) hm.step)
    {m : Machine} (hm : p.Reaches stream m) : motive m hm := by
  obtain ⟨n, rfl⟩ := hm
  induction n with
  | zero => exact start
  | succ n ih =>
    have hnext := step _ ⟨n, rfl⟩ ih
    simp only [← run_succ] at hnext
    exact hnext

/-- The parse of the stream ends, with this answer. -/
def Answers (p : Parser) (stream : TokenStream) (q : Parse) : Prop :=
  ∃ k, p.parseWithin k stream = some q

theorem answers_iff (p : Parser) (stream : TokenStream) (q : Parse) :
    p.Answers stream q ↔
      ∃ n, (p.run n (p.start stream)).halted = true ∧ q = finish (p.run n (p.start stream)) := by
  constructor
  · rintro ⟨k, hk⟩
    rw [parseWithin_eq] at hk
    split at hk
    · next h => exact ⟨2 ^ k, h, (Option.some.inj hk).symm⟩
    · cases hk
  · rintro ⟨n, h, rfl⟩
    have hrun := run_of_halted_le h (Nat.le_of_lt (Nat.lt_two_pow_self (n := n)))
    refine ⟨n, ?_⟩
    rw [parseWithin_eq, hrun, if_pos h]

end Parser

end FrontEnd
