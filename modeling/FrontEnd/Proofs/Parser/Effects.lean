import FrontEnd.Proofs.Parser.Fruitful
import FrontEnd.Proofs.Tree.Slots
import Mathlib.Data.List.TakeWhile

/-!
# What a parse does to its state and to the nodes it has made

A machine carries nodes that have no parent yet: on the stack, in the part that is being parsed, and
as the left operand of an expression. From the bottom of the stack to the top they are one row, from
left to right in the text. Each step either adds a node at the right end of the row or puts the last
nodes of the row under a new one, so that what a whole parse leaves behind is said by going through
a handful of effects and not through all the steps.

- `Machine.loose`: the row of nodes without a parent;
- `Parser.Effect`: **what can happen to a state and its row**;
- `Parser.Move.effects`: a step is a few effects;
- `Parser.Answers.effects`: and so is a whole parse, from the first look to the tree.
-/

namespace FrontEnd

/-! ## Nodes without a parent -/

/-- The nodes of the part around a frame, latest first. -/
def Frame.outer : Frame → List NodeId
  | .rule _ _ nodes | .operand _ nodes | .unary _ _ nodes | .binary _ _ nodes => nodes
  | .steps _ _ | .repetition _ _ _ => []

/-- The nodes on the stack, from left to right. -/
def stacked : List Frame → List NodeId
  | [] => []
  | frame :: below => stacked below ++ frame.outer.reverse

/-- The left operand that a task holds. -/
def Task.held : Task → List NodeId
  | .climb _ lhs => [lhs]
  | _ => []

/-- The nodes without a parent, from left to right. -/
def Machine.loose (m : Machine) : List NodeId :=
  stacked m.frames ++ m.nodes.reverse ++ m.task.held

/-- A state of a parse, and the nodes without a parent. -/
structure Workpiece where
  state : ParseState
  loose : List NodeId

/-- What the machine is working on. -/
def Machine.workpiece (m : Machine) : Workpiece := ⟨m.state, m.loose⟩

/-- The kinds of nodes that stand for something of the grammar. -/
def NodeKind.Inner : NodeKind → Prop
  | .rule _ | .binary _ | .unary _ => True
  | .root | .leaf _ | .error => False

/-- With no token to stop at, all tokens are taken. -/
theorem TokenStream.advances_synchronize_empty (s : TokenStream) :
    ∃ read, s.Advances read s.upcoming.length (s.synchronize ∅ []).2 := by
  obtain ⟨-, read, hadv⟩ := synchronize_spec ∅ [] s
  rw [List.takeWhile_eq_self_iff.2 (by simp)] at hadv
  exact ⟨read, hadv⟩

namespace ParseState

/-- A failure leaves one node at most. -/
theorem reverse_absorb (st : ParseState) : st.absorb.1.reverse = st.absorb.1 := by
  unfold absorb
  dsimp only
  split <;> rfl

theorem reverse_unexpected (g : Grammar) (sync expected : TokenSet) (st : ParseState) :
    (st.unexpected g sync expected).1.reverse = (st.unexpected g sync expected).1 := by
  rw [unexpected_eq]
  split
  · exact reverse_absorb _
  · rfl

/-- Nothing is left of the input when what is left has been put away. -/
theorem next_trailing (st : ParseState) : st.trailing.2.next = .eof := by
  obtain ⟨st₁, hst₁⟩ : ∃ st₁, st₁ = (if st.atDamage then st
    else st.report (.trailingInput (st.describe st.current) (.ofToken st.current))) := ⟨_, rfl⟩
  obtain ⟨read, hadv⟩ := st₁.stream.advances_synchronize_empty
  have hend : (st₁.stream.synchronize ∅ []).2.upcoming = [] := by
    rw [hadv.upcoming, List.drop_length]
  have htrailing : st.trailing.2.stream = (st₁.stream.synchronize ∅ []).2 := by
    rw [hst₁]
    rfl
  rw [next, ids, htrailing, hend]
  rfl

end ParseState

namespace Parser

/-- What can happen to a state and the row of its nodes. -/
inductive Effect (p : Parser) : Workpiece → Workpiece → Prop where
  /-- A look at the next token. -/
  | look (st : ParseState) (loose : List NodeId) : Effect p ⟨st, loose⟩ ⟨st.fill 0, loose⟩
  /-- A choice between alternatives. -/
  | choose {r : Nat} {as : List Alternative} (hb : p.grammar.body r = .sequence as)
    (st : ParseState) (loose : List NodeId) :
    Effect p ⟨st, loose⟩ ⟨(st.select p.grammar r as).2, loose⟩
  /-- A token that the grammar has a use for. -/
  | take {st : ParseState} (loose : List NodeId) (hnext : ¬ p.grammar.Lacks st.next) :
    Effect p ⟨st, loose⟩ ⟨(st.fill 0).takeLeaf.2, loose ++ [(st.fill 0).takeLeaf.1]⟩
  /-- A token that cannot be used. -/
  | blame (expected : TokenSet) (st : ParseState) (loose : List NodeId) :
    Effect p ⟨st, loose⟩ ⟨(st.unexpected p.grammar p.sync expected).2,
      loose ++ (st.unexpected p.grammar p.sync expected).1⟩
  /-- A token that a round did not get on with, after something was reported. -/
  | absorb {st : ParseState} (hreported : ¬ st.Clean) (loose : List NodeId) :
    Effect p ⟨st, loose⟩ ⟨st.absorb.2, loose ++ st.absorb.1⟩
  /-- A rule without productions. -/
  | missing (r : Nat) (st : ParseState) (loose : List NodeId) :
    Effect p ⟨st, loose⟩ ⟨(st.missingRule p.grammar r).2,
      loose ++ [(st.missingRule p.grammar r).1]⟩
  /-- The last nodes of the row get a parent. One without a slot for an operator stands where the
  next token does if it has no children. -/
  | wrap (kind : NodeKind) (hkind : kind.Inner) (children : List NodeId) (place : Position)
    (st : ParseState) (before : List NodeId)
    (hplace : children = [] → kind.slot? = none → st.stream.Sees place) :
    Effect p ⟨st, before ++ children⟩ ⟨(st.pushNode kind children place).2,
      before ++ [(st.pushNode kind children place).1]⟩
  /-- What is left of the input when the start rule is done. -/
  | trail {st : ParseState} (loose : List NodeId) (hnext : st.next ≠ .eof) :
    Effect p ⟨st, loose⟩ ⟨(st.fill 0).trailing.2, loose ++ [(st.fill 0).trailing.1]⟩

/-- Effects one after the other. -/
def Effects (p : Parser) : Workpiece → Workpiece → Prop := Relation.ReflTransGen p.Effect

namespace Effects

variable {p : Parser} {w w' w'' : Workpiece}

theorem refl (w : Workpiece) : p.Effects w w := Relation.ReflTransGen.refl

theorem single (h : p.Effect w w') : p.Effects w w' := Relation.ReflTransGen.single h

theorem trans (h : p.Effects w w') (h' : p.Effects w' w'') : p.Effects w w'' :=
  Relation.ReflTransGen.trans h h'

theorem tail (h : p.Effects w w') (h' : p.Effect w' w'') : p.Effects w w'' :=
  Relation.ReflTransGen.tail h h'

/-- What every effect keeps, all of them keep. -/
theorem invariant {I : Workpiece → Prop} (hI : ∀ w w', p.Effect w w' → I w → I w')
    (h : p.Effects w w') (hw : I w) : I w' := by
  induction h with
  | refl => exact hw
  | tail _ heffect ih => exact hI _ _ heffect ih

end Effects

variable {p : Parser} {m m' : Machine} {st st₁ st₂ : ParseState} {errors : List NodeId}

/-! ## Steps -/

theorem effect_blame {expected : TokenSet} (loose : List NodeId)
    (hu : st.unexpected p.grammar p.sync expected = (errors, st₁)) :
    p.Effect ⟨st, loose⟩ ⟨st₁, loose ++ errors.reverse⟩ := by
  have h := Effect.blame (p := p) expected st loose
  have hreverse := st.reverse_unexpected p.grammar p.sync expected
  rw [hu] at h hreverse
  rwa [hreverse]

theorem effect_choose {r : Nat} {as : List Alternative} {a : Option Alternative}
    (hb : p.grammar.body r = .sequence as) (loose : List NodeId)
    (hs : st.select p.grammar r as = (a, st₁)) : p.Effect ⟨st, loose⟩ ⟨st₁, loose⟩ := by
  have h := Effect.choose hb st loose
  rwa [hs] at h

theorem effects_filled (hst : st₁ = st ∨ st₁ = st.fill 0) (loose : List NodeId) :
    p.Effects ⟨st, loose⟩ ⟨st₁, loose⟩ := by
  rcases hst with rfl | rfl
  · exact .refl _
  · exact .single (.look st loose)

theorem Enter.effects {frames : List Frame} {nodes : List NodeId} {follow : TokenSet}
    {symbol : Symbol} (hsymbol : ∀ t, symbol = .token t → ¬ p.grammar.Lacks t)
    (h : p.Enter frames nodes st follow symbol m) :
    p.Effects ⟨st, stacked frames ++ nodes.reverse⟩ m.workpiece := by
  cases h with
  | token hid =>
    have hnext : ¬ p.grammar.Lacks st.next := hid ▸ hsymbol _ rfl
    simpa [Machine.workpiece, Machine.loose, Task.held] using
      Effects.single (Effect.take (stacked frames ++ nodes.reverse) hnext)
  | @late id errors st₁ hid hu hid₁ =>
    have hnext : ¬ p.grammar.Lacks st₁.next := hid₁ ▸ hsymbol _ rfl
    have hlook := Effects.single (Effect.look (p := p) st (stacked frames ++ nodes.reverse))
    have hblame := hlook.tail (effect_blame _ hu)
    simpa [Machine.workpiece, Machine.loose, Task.held] using hblame.tail (Effect.take _ hnext)
  | @absent id errors st₁ hid hu hid₁ =>
    have hlook := Effects.single (Effect.look (p := p) st (stacked frames ++ nodes.reverse))
    have hblame := hlook.tail (effect_blame _ hu)
    simpa [Machine.workpiece, Machine.loose, Task.held] using hblame.tail (.look _ _)
  | rule | many => simpa [Machine.workpiece, Machine.loose, Task.held] using Effects.refl _
  | opt _ | skip _ =>
    simpa [Machine.workpiece, Machine.loose, Task.held] using Effects.single (Effect.look _ _)

theorem loose_leaveOperand (ctx : ExpressionContext) (flow : Flow) (node : NodeId)
    (frames : List Frame) (nodes : List NodeId) (st : ParseState) :
    (leaveOperand ctx flow node frames nodes st).workpiece
      = ⟨st, stacked frames ++ nodes.reverse ++ [node]⟩ := by
  cases flow <;> simp [leaveOperand, Machine.workpiece, Machine.loose, Task.held]

/-- The nodes of an operand become one node, unless they are one already. -/
theorem effects_operandNode (r : Nat) (nodes : List NodeId) (st : ParseState)
    (before : List NodeId) :
    p.Effects ⟨st, before ++ nodes.reverse⟩
      ⟨(operandNode r nodes st).2, before ++ [(operandNode r nodes st).1]⟩ := by
  unfold operandNode
  split
  · exact .refl _
  · exact (Effects.single (.look _ _)).tail (.wrap _ (by trivial) _ _ _ _ fun _ _ =>
      st.stream.sees_fill)

theorem Move.effects (h : p.Move m m') (hm : m.Belongs p.grammar)
    (hthriving : m.state.Clean → p.Thriving m) : p.Effects m.workpiece m'.workpiece := by
  obtain ⟨htask, hframes⟩ := hm
  -- What a step takes, reports or makes is an effect. Where nodes only move between the task and
  -- the frames there is none, since all that is loose is counted together.
  cases h with
  | @missing r follow frames nodes st hb =>
    simpa [Machine.workpiece, Machine.loose, Task.held] using
      Effects.single (Effect.missing r st (stacked frames ++ nodes.reverse))
  | express hb =>
    simpa [Machine.workpiece, Machine.loose, Task.held, stacked, Frame.outer] using Effects.refl _
  | choose hb hs =>
    simpa [Machine.workpiece, Machine.loose, Task.held, stacked, Frame.outer] using
      Effects.single (effect_choose hb _ hs)
  | @retry _ _ frames nodes _ _ _ _ _ _ _ hb hs _ hu hs₂ _
  | @refuse _ _ frames nodes _ _ _ _ _ _ _ hb hs hu hs₂ _ =>
    have hchoose := Effects.single (effect_choose hb (stacked frames ++ nodes.reverse) hs)
    have hblame := (hchoose.tail (effect_blame _ hu)).tail (.look _ _)
    simpa [Machine.workpiece, Machine.loose, Task.held, stacked, Frame.outer] using
      hblame.tail (effect_choose hb _ hs₂)
  | finish => simpa [Machine.workpiece, Machine.loose, Task.held] using Effects.refl _
  | pass _ | close _ =>
    simpa [Machine.workpiece, Machine.loose, Task.held] using Effects.single (Effect.look _ _)
  | @enter s rest follow flow frames nodes st st₁ m hst hc he =>
    have hsymbol : ∀ t, s.symbol = .token t → ¬ p.grammar.Lacks t :=
      fun t ht hlacks => Grammar.Remains.id_ne htask hlacks ht rfl
    have hbegin := (effects_filled hst _).trans (he.effects hsymbol)
    simpa [Machine.workpiece, Machine.loose, Task.held, stacked, Frame.outer] using hbegin
  | round _ _ | operand _ _ =>
    simpa [Machine.workpiece, Machine.loose, Task.held, stacked, Frame.outer] using
      Effects.single (Effect.look _ _)
  | @stray _ _ frames nodes _ st _ _ _ _ hu | @lack _ frames nodes _ st _ _ _ hu =>
    have hlook := Effects.single (Effect.look (p := p) st (stacked frames ++ nodes.reverse))
    simpa [Machine.workpiece, Machine.loose, Task.held] using hlook.tail (effect_blame _ hu)
  | @sign ctx frames nodes st level hop =>
    have htake := Effect.take (stacked frames ++ nodes.reverse)
      fun hlacks => ExpressionContext.Belongs.sign_ne htask hlacks hop rfl
    simpa [Machine.workpiece, Machine.loose, Task.held, stacked, Frame.outer] using
      Effects.single htake
  | @climb ctx lhs frames nodes st op hop hlevel =>
    have htake := Effect.take (stacked frames ++ nodes.reverse ++ [lhs])
      fun hlacks => ExpressionContext.Belongs.link_ne htask hlacks hop rfl
    simpa [Machine.workpiece, Machine.loose, Task.held, stacked, Frame.outer] using
      Effects.single htake
  | top _ =>
    simpa [Machine.workpiece, Machine.loose, Task.held] using Effects.single (Effect.look _ _)
  | @wrap r entered flow frames nodes outer st hnode =>
    have hlook := Effects.single (Effect.look (p := p) st
      (stacked frames ++ outer.reverse ++ nodes.reverse))
    have hwrap := hlook.tail (.wrap (.rule r) (by trivial) nodes.reverse
      (st.fill 0).current.position _ _ fun _ _ => st.stream.sees_fill)
    simpa [Machine.workpiece, Machine.loose, Task.held, stacked, Frame.outer] using hwrap
  | splice _ | resume | again _ =>
    simpa [Machine.workpiece, Machine.loose, Task.held, stacked, Frame.outer] using Effects.refl _
  | @stall r before follow flow frames nodes st hb =>
    have hreported : ¬ st.Clean := fun hclean => (hthriving hclean).not_stalled hb
    simpa [Machine.workpiece, Machine.loose, Task.held, stacked, Frame.outer,
      ParseState.reverse_absorb] using
      Effects.single (Effect.absorb hreported (stacked frames ++ nodes.reverse))
  | @leaf ctx flow frames nodes outer st =>
    rw [loose_leaveOperand]
    simpa [Machine.workpiece, Machine.loose, Task.held, stacked, Frame.outer] using
      effects_operandNode (p := p) ctx.ops.operand nodes st (stacked frames ++ outer.reverse)
  | @unary ctx op flow frames nodes outer st =>
    rw [loose_leaveOperand]
    have hwrap := Effect.wrap (p := p) (.unary op.id) (by trivial) nodes.reverse op.position
      st (stacked frames ++ outer.reverse) nofun
    simpa [Machine.workpiece, Machine.loose, Task.held, stacked, Frame.outer] using
      Effects.single hwrap
  | @binary ctx op flow frames nodes outer st =>
    rw [loose_leaveOperand]
    have hwrap := Effect.wrap (p := p) (.binary op.id) (by trivial) nodes.reverse op.position
      st (stacked frames ++ outer.reverse) nofun
    simpa [Machine.workpiece, Machine.loose, Task.held, stacked, Frame.outer] using
      Effects.single hwrap
  | rest => exact .refl _

/-! ## Whole parses -/

theorem run_effects (hc : p.grammar.Checked) (hm : p.Thriving m) {i j : Nat} (hij : i ≤ j) :
    p.Effects (p.run i m).workpiece (p.run j m).workpiece := by
  induction hij with
  | refl => exact .refl _
  | @step j _ ih =>
    have hbelongs := run_invariant (fun _ _ hmove h => hmove.belongs hc h) hm.belongs j
    rw [run_succ]
    exact ih.trans ((step_move p _).effects hbelongs (thriving_run hc hm j))

/-- The end of a parse: what is left goes under an error node, and then nothing is left. -/
theorem finish_effects {m : Machine} (hm : m.halted = true) :
    ∃ w, p.Effects m.workpiece w ∧ w.state.next = .eof ∧
      w.state.stream.Sees w.state.current.position ∧
      finish m = ⟨w.state.arena.finish w.loose w.state.current.position, w.state.filed⟩ := by
  obtain ⟨task, frames, nodes, st⟩ := m
  rw [Machine.halted, Bool.and_eq_true, List.isEmpty_iff] at hm
  obtain ⟨rfl, htask⟩ := hm
  have hloose : Machine.workpiece ⟨task, [], nodes, st⟩ = ⟨st, nodes.reverse⟩ := by
    cases task with
    | done flow => simp [Machine.workpiece, Machine.loose, Task.held, stacked]
    | _ => cases htask
  rw [hloose, finish]
  simp only [ParseState.id_current_fill, ParseState.allReports_eq]
  by_cases hend : st.next = .eof
  · rw [if_pos hend]
    exact ⟨_, .single (.look st _), by rwa [ParseState.next_fill], st.stream.sees_fill, rfl⟩
  · rw [if_neg hend]
    refine ⟨⟨(st.fill 0).trailing.2.fill 0, nodes.reverse ++ [(st.fill 0).trailing.1]⟩,
      (Effects.single (.trail _ hend)).tail (.look _ _), ?_, TokenStream.sees_fill _, ?_⟩
    · rw [ParseState.next_fill, ParseState.next_trailing]
    · simp

theorem start_effects (p : Parser) (stream : TokenStream) :
    p.Effects ⟨.ofStream stream, []⟩ (p.start stream).workpiece := by
  have hlook := Effects.single (Effect.look (p := p) (.ofStream stream) [])
  unfold start
  dsimp only
  split <;> simpa [Machine.workpiece, Machine.loose, Task.held, stacked] using hlook

section Reached

variable {lexer : Lexer} {depth : Nat} {q : Parse}

/-- Effects lead to every moment of a parse. -/
theorem Reaches.effects (hc : p.grammar.Checked) (hm : p.Reaches (.ofLexer lexer depth) m) :
    p.Effects ⟨.ofStream (.ofLexer lexer depth), []⟩ m.workpiece := by
  obtain ⟨n, rfl⟩ := hm
  have hthriving := thriving_start hc lexer depth
  exact (start_effects p _).trans (run_effects hc hthriving (Nat.zero_le n))

/-- From every moment of a parse effects lead to the end of the input. -/
theorem Reaches.effects_answer (hc : p.grammar.Checked)
    (hm : p.Reaches (.ofLexer lexer depth) m) (hq : p.Answers (.ofLexer lexer depth) q) :
    ∃ w, p.Effects m.workpiece w ∧ w.state.next = .eof ∧
      q = ⟨w.state.arena.finish w.loose w.state.current.position, w.state.filed⟩ := by
  obtain ⟨n, hhalted, rfl⟩ := (answers_iff ..).1 hq
  obtain ⟨w, hend, hnext, -, hfinish⟩ := finish_effects (p := p) hhalted
  refine ⟨w, ?_, hnext, hfinish⟩
  obtain ⟨i, rfl⟩ := hm
  rcases Nat.le_total i n with hin | hni
  · exact (run_effects hc (thriving_start hc lexer depth) hin).trans hend
  · rwa [run_of_halted_le hhalted hni]

/-- A parse that answers is a row of effects from the first look to the end of the input. -/
theorem Answers.effects (hc : p.grammar.Checked) (hq : p.Answers (.ofLexer lexer depth) q) :
    ∃ w, p.Effects ⟨.ofStream (.ofLexer lexer depth), []⟩ w ∧ w.state.next = .eof ∧
      q = ⟨w.state.arena.finish w.loose w.state.current.position, w.state.filed⟩ := by
  obtain ⟨w, heffects, h⟩ := Reaches.effects_answer hc ⟨0, rfl⟩ hq
  exact ⟨w, (start_effects p _).trans heffects, h⟩

end Reached

end Parser

end FrontEnd
