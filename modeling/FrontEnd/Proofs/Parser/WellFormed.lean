import FrontEnd.Proofs.Parser.Damage
import FrontEnd.Proofs.Tree.Slots

/-!
# A parse makes one tree

Whatever a text is like, the nodes that a parse makes end up in one tree. That each of them has one
place in it follows from the row of nodes without a parent, which grows at its right end only. That
operators are in their slots is seen on the stack: an open operator has its leaf among the nodes of
its part, and nodes are only added behind it.

- `Parser.Tidy`: **open operators on the stack have their leaves in their slots**;
- `Parser.Move.tidy`: each step keeps a machine tidy;
- `Parser.Reaches.tidy`: so every moment of a parse is;
- `Parser.wellFormed_of_answers`: the tree of a parse is well-formed.
-/

namespace FrontEnd

/-! ## Operations of a state -/

namespace ParseState

variable {st st' : ParseState}

theorem gains_takeLeaf (st : ParseState) : st.arena.Gains st.takeLeaf.2.arena :=
  Arena.Gains.refl.leaf st.stream.consume.1

theorem gains_pushError (st : ParseState) (tokens : List Token) (place : Position) :
    st.arena.Gains (st.pushError tokens place).2.arena :=
  (Arena.Gains.refl.leaves tokens).error _ place

theorem gains_absorb (st : ParseState) : st.arena.Gains st.absorb.2.arena := by
  unfold absorb
  dsimp only
  split
  · exact .refl
  · exact (gains_takeLeaf (st.fill 0)).error _ _

theorem gains_unexpected {g : Grammar} {sync expected : TokenSet} {errors : List NodeId}
    (hu : st.unexpected g sync expected = (errors, st')) : st.arena.Gains st'.arena := by
  have harena : ((st.fill 0).reportUnexpected g expected).arena = st.arena := by
    rw [reportUnexpected]
    split <;> rfl
  rw [unexpected_eq] at hu
  split at hu
  · have hgains := gains_absorb (st.fill 0)
    rwa [hu] at hgains
  · obtain ⟨-, rfl⟩ := Prod.mk.inj hu
    exact (Arena.Gains.of_eq harena).trans (gains_pushError
      { (st.fill 0).reportUnexpected g expected with
        stream := (((st.fill 0).reportUnexpected g expected).stream.synchronize sync []).2 } _ _)

theorem gains_missingRule (g : Grammar) (r : Nat) (st : ParseState) :
    st.arena.Gains (st.missingRule g r).2.arena := by
  have harena : ((st.fill 0).reportMissing g r).arena = st.arena := by
    rw [reportMissing]
    split <;> rfl
  exact (Arena.Gains.of_eq harena).error [] (st.fill 0).current.position

theorem gains_trailing (st : ParseState) : st.arena.Gains st.trailing.2.arena := by
  unfold trailing
  dsimp only
  split <;> exact gains_pushError { st with stream := _ } _ _

theorem gains_select {g : Grammar} {r : Nat} {as : List Alternative} {a : Option Alternative}
    (hs : st.select g r as = (a, st')) : st.arena.Gains st'.arena := by
  have harena := (st.select_same g r as).1
  rw [hs] at harena
  exact .of_eq harena

end ParseState

/-! ## Operators on the stack -/

/-- The operator of a frame, and the place of its leaf among the nodes of the part. -/
def Frame.slot? : Frame → Option (Nat × TokenId)
  | .unary _ op _ => some (0, op.id)
  | .binary _ op _ => some (1, op.id)
  | _ => none

/-- The nodes of the part around a frame, latest first, when those of the part inside are `nodes`.
Symbols and rounds of one production have one part. -/
def Frame.around : Frame → List NodeId → List NodeId
  | .steps _ _, nodes | .repetition _ _ _, nodes => nodes
  | frame, _ => frame.outer

namespace Parser

/-- Every operator on the stack has its leaf in its slot. -/
def Slotted (a : Arena) : List Frame → List NodeId → Prop
  | [], _ => True
  | frame :: frames, nodes =>
    (∀ slot op, frame.slot? = some (slot, op) → a.HasOperator nodes.reverse slot op) ∧
      Slotted a frames (frame.around nodes)

variable {p : Parser} {a a' : Arena} {frame : Frame} {frames : List Frame} {nodes : List NodeId}
  {st st' : ParseState}

theorem Slotted.later (h : Slotted a frames nodes) (hlater : a.Later a') :
    Slotted a' frames nodes := by
  induction frames generalizing nodes with
  | nil => trivial
  | cons frame frames ih => exact ⟨fun slot op hslot => (h.1 slot op hslot).later hlater, ih h.2⟩

/-- Nodes that are added stand behind the slots. -/
theorem Slotted.append (h : Slotted a frames nodes) (new : List NodeId) :
    Slotted a frames (new ++ nodes) := by
  induction frames generalizing nodes with
  | nil => trivial
  | cons frame frames ih =>
    refine ⟨fun slot op hslot => ?_, ?_⟩
    · rw [List.reverse_append]
      exact (h.1 slot op hslot).append _
    · cases frame with
      | steps | repetition => exact ih h.2
      | rule | operand | unary | binary => exact h.2

/-- The nodes that were made are in order, and so are those that belong to open operators. -/
structure Tidy (a : Arena) (frames : List Frame) (nodes : List NodeId) : Prop where
  formed : a.Formed
  slotted : Slotted a frames nodes

namespace Tidy

theorem gain (h : Tidy a frames nodes) (hgains : a.Gains a') (new : List NodeId) :
    Tidy a' frames (new ++ nodes) :=
  ⟨hgains.formed h.formed, (h.slotted.later hgains.later).append new⟩

/-- The part inside a frame begins. -/
theorem push (h : Tidy a frames (frame.around nodes))
    (hslot : ∀ slot op, frame.slot? = some (slot, op) → a.HasOperator nodes.reverse slot op) :
    Tidy a (frame :: frames) nodes :=
  ⟨h.formed, hslot, h.slotted⟩

/-- The part inside a frame is left. -/
theorem pop (h : Tidy a (frame :: frames) nodes) : Tidy a frames (frame.around nodes) :=
  ⟨h.formed, h.slotted.2⟩

/-- The part inside a frame gets a node that has a slot if the frame has one. -/
theorem close {kind : NodeKind} (h : Tidy st.arena (frame :: frames) nodes)
    (hkind : kind.slot? = frame.slot?) (hne : kind ≠ .root)
    (hheld : ∀ id ∈ nodes, id < st.arena.nodes.size) (place : Position) :
    Tidy (st.pushNode kind nodes.reverse place).2.arena frames (frame.around nodes) := by
  refine ⟨h.formed.pushNode hne place fun slot op hslot => ?_,
    h.slotted.2.later (.pushNode st.arena kind _ place)⟩
  exact ⟨fun id hid => hheld id (List.mem_reverse.1 hid), h.slotted.1 slot op (hkind ▸ hslot)⟩

end Tidy

/-- A leaf that is taken stands in the slot behind the nodes that are there. -/
theorem hasOperator_takeLeaf (st : ParseState) (before : List NodeId) :
    (st.fill 0).takeLeaf.2.arena.HasOperator (before ++ [(st.fill 0).takeLeaf.1]) before.length
      (st.fill 0).current.id := by
  obtain ⟨t, harena, hid, hnext, -⟩ := (st.fill 0).takeLeaf_same
  refine ⟨t, ?_, ?_⟩
  · rw [List.getElem?_append_right (Nat.le_refl _), Nat.sub_self, List.getElem?_cons_zero,
      Option.bind_some, harena, hid]
    exact Arena.leafToken?_pushLeaf _ t
  · rw [hnext, ParseState.next_fill, ParseState.id_current_fill]

/-! ## Steps -/

variable {m m' : Machine}

theorem tidy_leaveOperand (ctx : ExpressionContext) (flow : Flow) (node : NodeId)
    (h : Tidy st.arena frames nodes) :
    Tidy (leaveOperand ctx flow node frames nodes st).state.arena
      (leaveOperand ctx flow node frames nodes st).frames
      (leaveOperand ctx flow node frames nodes st).nodes := by
  cases flow with
  | proceeding => exact h
  | recovering => exact h.gain .refl [node]

theorem gains_operandNode (r : Nat) (nodes : List NodeId) (st : ParseState) :
    st.arena.Gains (operandNode r nodes st).2.arena := by
  unfold operandNode
  split
  · exact .refl
  · exact Arena.Gains.refl.rule r _ _

theorem Enter.tidy {follow : TokenSet} {symbol : Symbol}
    (h : p.Enter frames nodes st follow symbol m) (htidy : Tidy st.arena frames nodes) :
    Tidy m.state.arena m.frames m.nodes := by
  cases h with
  | token hid => exact htidy.gain (ParseState.gains_takeLeaf (st.fill 0)) [_]
  | @late id errors st₁ hid hu hid₁ =>
    have hgains := ParseState.gains_unexpected hu
    exact (htidy.gain hgains errors).gain (ParseState.gains_takeLeaf (st₁.fill 0)) [_]
  | absent hid hu hid₁ =>
    have hgains := ParseState.gains_unexpected hu
    exact htidy.gain hgains _
  | rule | many | opt _ | skip _ => exact htidy

/-- Each step keeps what was made in order. -/
theorem Move.tidy (h : p.Move m m') (hheld : ∀ id ∈ m.nodes, id < m.state.arena.nodes.size)
    (htidy : Tidy m.state.arena m.frames m.nodes) : Tidy m'.state.arena m'.frames m'.nodes := by
  cases h with
  | missing hb => exact htidy.gain (ParseState.gains_missingRule _ _ _) [_]
  | express hb => exact Tidy.push htidy nofun
  | choose hb hs => exact Tidy.push (htidy.gain (ParseState.gains_select hs) []) nofun
  | retry hb hs _ hu hs₂ _ | refuse hb hs hu hs₂ _ =>
    have hblamed := (ParseState.gains_select hs).trans (ParseState.gains_unexpected hu)
    have hretried := ParseState.gains_select hs₂
    exact Tidy.push (htidy.gain (hblamed.trans hretried) []) nofun
  | finish | pass _ | close _ => exact htidy
  | top _ => exact htidy.gain .refl [_]
  | @enter s rest follow flow frames nodes st st₁ m hst hc he =>
    have harena : st₁.arena = st.arena := by
      rcases hst with rfl | rfl <;> rfl
    exact he.tidy (Tidy.push (htidy.gain (.of_eq harena) []) nofun)
  | round _ _ => exact Tidy.push htidy nofun
  | stray _ _ _ hu | lack _ _ hu =>
    have hgains := ParseState.gains_unexpected hu
    exact htidy.gain hgains _
  | @sign ctx _ nodes st level hop =>
    refine Tidy.push (htidy.gain (ParseState.gains_takeLeaf (st.fill 0)) []) fun slot op hslot => ?_
    cases hslot
    exact hasOperator_takeLeaf st []
  | operand _ _ => exact Tidy.push htidy nofun
  | @climb ctx lhs _ nodes st op hop hlevel =>
    refine Tidy.push (htidy.gain (ParseState.gains_takeLeaf (st.fill 0)) []) fun slot op hslot => ?_
    cases hslot
    exact hasOperator_takeLeaf st [lhs]
  | @wrap r entered flow frames nodes outer st hnode =>
    exact htidy.pop.gain (Arena.Gains.refl.rule r _ _) [_]
  | splice hnode => exact htidy.pop.gain .refl _
  | resume => exact htidy.pop
  | @stall _ _ _ _ _ _ st hb => exact htidy.pop.gain st.gains_absorb _
  | again hb => exact htidy.pop
  | leaf => exact tidy_leaveOperand _ _ _ (htidy.pop.gain (gains_operandNode _ _ _) [])
  | unary => exact tidy_leaveOperand _ _ _ (htidy.close rfl (by simp) hheld _)
  | binary => exact tidy_leaveOperand _ _ _ (htidy.close rfl (by simp) hheld _)
  | rest => exact htidy

/-! ## Whole parses -/

section Reached

variable {lexer : Lexer} {depth : Nat} {q : Parse}

/-- The nodes of a machine are there at every moment. -/
theorem Reaches.held (hc : p.grammar.Checked) (hm : p.Reaches (.ofLexer lexer depth) m) :
    ∀ id ∈ m.nodes, id < m.state.arena.nodes.size := by
  have hheld : m.workpiece.Held :=
    (hm.effects hc).invariant (fun _ _ heffect h => heffect.held h) nofun
  intro id hid
  refine hheld id ?_
  show id ∈ stacked m.frames ++ m.nodes.reverse ++ m.task.held
  simp [hid]

/-- Every moment of a parse is tidy. -/
theorem Reaches.tidy (hc : p.grammar.Checked) (hm : p.Reaches (.ofLexer lexer depth) m) :
    Tidy m.state.arena m.frames m.nodes := by
  induction hm using Reaches.induction with
  | start => exact ⟨.empty, trivial⟩
  | step m hm ih => exact (step_move p m).tidy (Reaches.held hc hm) ih

/-- What is left of the input makes no difference: under the root the nodes are in order. -/
theorem exists_formed_finish (htidy : Tidy m.state.arena m.frames m.nodes) :
    ∃ a children place, a.Formed ∧ (finish m).tree = Arena.finish a children place := by
  unfold finish
  dsimp only
  split
  · exact ⟨_, _, _, htidy.formed, rfl⟩
  · exact ⟨_, _, _, (ParseState.gains_trailing (m.state.fill 0)).formed htidy.formed, rfl⟩

/-- The tree of a parse is one tree, whatever the lexer reads and however it treats trivia: every
node but the root is a child of one later node and is met once, operators are in their slots, and a
careful builder finds nothing to complain about. -/
theorem wellFormed_of_answers {decls : List GrammarDecl} {g : Grammar}
    (hg : Grammar.ofDecls decls = .ok g) {sync : TokenSet}
    (hq : Parser.Answers ⟨g, sync⟩ (.ofLexer lexer depth) q) : q.tree.WellFormed := by
  have hc := Grammar.checked_of_ofDecls hg
  have hfits : ∀ id kind, q.tree.kind? id = some kind → id ≠ q.tree.root →
      q.tree.Fits id kind := by
    obtain ⟨n, -, hfinish⟩ := (answers_iff ..).1 hq
    obtain ⟨a, children, place, hformed, htree⟩ :=
      exists_formed_finish (Reaches.tidy (p := ⟨g, sync⟩) hc ⟨n, rfl⟩)
    rw [hfinish, htree]
    exact fun _ _ hkind hid => hformed.fits_finish hkind hid
  obtain ⟨w, hacts, -, hw⟩ := hq.acts hc
  obtain ⟨taken, hgrows, -⟩ := hacts.feeds
  have htree : q.tree = w.state.arena.finish w.loose w.state.current.position := by rw [hw]
  rw [htree] at hfits ⊢
  exact Arena.Grows.wellFormed hgrows hfits

/-- A text with both kinds of operators, and with a name missing at its end. -/
theorem wellFormed_of_answers_sample :
    ∃ q, Parser.Answers ⟨.sample, ∅⟩ (.ofText sampleTable ['-', 'x', '+', 'x', '+'] 1) q ∧
      q.tree.WellFormed := by
  obtain ⟨q, hanswers⟩ := exists_answer_of_complete (p := ⟨.sample, ∅⟩) Grammar.checked_sample
    (Grammar.lacks_sample nofun) Grammar.defined_sample
    (.ofText sampleTable ['-', 'x', '+', 'x', '+'] 1)
  exact ⟨q, hanswers, wellFormed_of_answers Grammar.ofDecls_sample hanswers⟩

end Reached

end Parser

end FrontEnd
