import FrontEnd.Proofs.Parser.Completeness
import FrontEnd.Proofs.Parser.Limits
import FrontEnd.Proofs.Parser.Returns

/-!
# What the operators of an expression group

An expression is parsed with one call for each right operand, and each call returns for a reason of
its own: the next token is no binary operator, or one that binds too loosely. That reason is what
keeps the tree in order, since **the token that a call stopped at is the token behind every tree on
the right edge of what it returns**.

- `OperatorTree`: an expression with its operands left closed;
- `OperatorTree.Obeys`: **operators are where the table of precedences puts them**;
- `OperatorTree.Climbs`: **a tree that climbing builds in front of a token, at some level**;
- `OperatorTree.Fits`: a tree that may be returned there, if no level is cut off;
- `Arena.Shows`: the nodes of an arena are such a tree;
- `Parser.operandsMade`: the operands that are made in a part of a run;
- `Parser.Returns.climbs`: an expression that is parsed without errors is built by climbing;
- `Parser.Returns.obeys`: so it obeys the table, and its leaves are the tokens that were taken.
- `Parser.exists_returns_errorFree`: and in a text of the language there are no errors.
-/

namespace FrontEnd

/-! ## Operator trees -/

/-- Operators of lower precedence than this do not belong to the right operand. -/
def BinaryOperator.rightBound (op : BinaryOperator) : Nat :=
  match op.associativity with
  | .left => op.precedence.val + 1
  | .right => op.precedence.val

/-- No operator that groups to the left has the highest precedence there is. -/
def Operators.LeavesRoom (ops : Operators) : Prop :=
  ∀ op ∈ ops.binaries, op.associativity = .left → op.precedence.val ≠ 255

/-- An expression, as its operators group it. The operands are nodes that are not looked into. -/
inductive OperatorTree where
  | operand (node : NodeId)
  | unary (op : PrefixOperator) (inner : OperatorTree)
  | binary (op : BinaryOperator) (left right : OperatorTree)

namespace OperatorTree

/-- The operands from left to right. -/
def operands : OperatorTree → List NodeId
  | operand node => [node]
  | unary _ inner => inner.operands
  | binary _ left right => left.operands ++ right.operands

/-- The binary operators on the left edge. Behind a prefix operator there is no left edge. -/
def leftSpine : OperatorTree → List BinaryOperator
  | operand _ | unary _ _ => []
  | binary op left _ => op :: left.leftSpine

/-- The binary operators on the right edge. -/
def rightSpine : OperatorTree → List BinaryOperator
  | operand _ => []
  | unary _ inner => inner.rightSpine
  | binary op _ right => op :: right.rightSpine

/-- The prefix operators on the right edge. -/
def rightSigns : OperatorTree → List PrefixOperator
  | operand _ => []
  | unary op inner => op :: inner.rightSigns
  | binary _ _ right => right.rightSigns

/-- No binary operator on the left edge binds more loosely than at the level. -/
def LeftAbove (level : Nat) (t : OperatorTree) : Prop :=
  ∀ op ∈ t.leftSpine, level ≤ op.precedence.val

/-- No operator on the right edge would take a binary operator of the precedence into its right
operand. -/
def RightAbove (precedence : Nat) (t : OperatorTree) : Prop :=
  (∀ op ∈ t.rightSpine, precedence < op.rightBound) ∧
    ∀ op ∈ t.rightSigns, precedence < op.precedence.val

/-- Every operator of the tree has the operands that its precedence gives it. -/
def Obeys : OperatorTree → Prop
  | operand _ => True
  | unary op inner => inner.LeftAbove op.precedence.val ∧ inner.Obeys
  | binary op left right =>
    left.RightAbove op.precedence.val ∧ right.LeftAbove op.rightBound ∧ left.Obeys ∧ right.Obeys

/-- The tree may stand in front of the token: it is in order, and if the token is a binary operator,
no operator on the right edge would have taken it. -/
structure Fits (t : OperatorTree) (ops : Operators) (level : Nat) (next : TokenId) : Prop where
  obeys : t.Obeys
  left : t.LeftAbove level
  right : ∀ op, ops.binary? next = some op → t.RightAbove op.precedence.val

/-- A binary operator in front belongs to somebody around the level. -/
def Stops (ops : Operators) (level : Nat) (next : TokenId) : Prop :=
  ∀ op, ops.binary? next = some op → op.precedence.val < level

namespace Fits

variable {t left right : OperatorTree} {ops : Operators} {level : Nat} {next next' : TokenId}

theorem operand (node : NodeId) (ops : Operators) (level : Nat) (next : TokenId) :
    (OperatorTree.operand node).Fits ops level next :=
  ⟨trivial, nofun, fun _ _ => ⟨nofun, nofun⟩⟩

theorem unary {op : PrefixOperator} (h : t.Fits ops op.precedence.val next)
    (hstops : Stops ops op.precedence.val next) (level : Nat) :
    (OperatorTree.unary op t).Fits ops level next where
  obeys := ⟨h.left, h.obeys⟩
  left := nofun
  right := by
    intro b hb
    obtain ⟨hspine, hsigns⟩ := h.right b hb
    exact ⟨hspine, List.forall_mem_cons.2 ⟨hstops b hb, hsigns⟩⟩

theorem binary {op : BinaryOperator} (hl : left.Fits ops level next)
    (hop : ops.binary? next = some op) (hlevel : level ≤ op.precedence.val)
    (hr : right.Fits ops op.rightBound next') (hstops : Stops ops op.rightBound next') :
    (OperatorTree.binary op left right).Fits ops level next' where
  obeys := ⟨hl.right op hop, hr.left, hl.obeys, hr.obeys⟩
  left := List.forall_mem_cons.2 ⟨hlevel, hl.left⟩
  right := by
    intro b hb
    obtain ⟨hspine, hsigns⟩ := hr.right b hb
    exact ⟨List.forall_mem_cons.2 ⟨hstops b hb, hspine⟩, hsigns⟩

end Fits

end OperatorTree

theorem Operators.token_of_binary? {ops : Operators} {id : TokenId} {op : BinaryOperator}
    (h : ops.binary? id = some op) : op.token = id := by
  rw [binary?] at h
  exact beq_iff_eq.1 (List.find?_some (p := fun b : BinaryOperator => b.token == id) h)

/-- The tree is one that climbing builds from the level on, in front of the token: the right operand
of an operator is built from the level that the operator sets, and ends where that level does. -/
inductive OperatorTree.Climbs (ops : Operators) : OperatorTree → Nat → TokenId → Prop where
  | operand (node : NodeId) (level : Nat) (next : TokenId) :
    Climbs ops (.operand node) level next
  | unary {op : PrefixOperator} {inner : OperatorTree} {level : Nat} {next : TokenId}
    (h : Climbs ops inner op.precedence.val next) (hstops : Stops ops op.precedence.val next) :
    Climbs ops (.unary op inner) level next
  | binary {op : BinaryOperator} {left right : OperatorTree} {level : Nat} {next next' : TokenId}
    (hl : Climbs ops left level next) (hop : ops.binary? next = some op)
    (hlevel : level ≤ op.precedence.val) (hr : Climbs ops right op.rightLevel next')
    (hstops : Stops ops op.rightLevel next') : Climbs ops (.binary op left right) level next'

/-- The level at which a right operand is parsed is not cut off. -/
theorem BinaryOperator.rightLevel_eq {ops : Operators} (hroom : ops.LeavesRoom)
    {id : TokenId} {op : BinaryOperator} (hop : ops.binary? id = some op) :
    op.rightLevel = op.rightBound := by
  have hmem : op ∈ ops.binaries := List.mem_of_find?_eq_some hop
  have hlt := op.precedence.isLt
  cases hassoc : op.associativity with
  | left =>
    have hne := hroom op hmem hassoc
    simp only [rightLevel, rightBound, hassoc]
    omega
  | right => simp only [rightLevel, rightBound, hassoc]

/-- What climbing builds is in order, if no level is cut off. -/
theorem OperatorTree.Climbs.fits {ops : Operators} {t : OperatorTree} {level : Nat}
    {next : TokenId} (h : t.Climbs ops level next) (hroom : ops.LeavesRoom) :
    t.Fits ops level next := by
  induction h with
  | operand node level next => exact .operand node ops level next
  | unary _ hstops ih => exact ih.unary hstops _
  | binary _ hop hlevel _ hstops ihl ihr =>
    rw [BinaryOperator.rightLevel_eq hroom hop] at ihr hstops
    exact ihl.binary hop hlevel ihr hstops

/-! ## Trees in an arena -/

namespace Arena

/-- The node is a leaf with a token of this kind. -/
def IsLeafOf (a : Arena) (leaf : NodeId) (op : TokenId) : Prop :=
  ∃ t, a.leafToken? leaf = some t ∧ t.id = op

/-- The node is the root of the tree: nodes of operators stand over their leaf and their operands,
in order, and have the precedences of the table. -/
def Shows (a : Arena) (ops : Operators) : OperatorTree → NodeId → Prop
  | .operand node, id => id = node
  | .unary op inner, id =>
    ops.prefixPrecedence? op.token = some op.precedence ∧ a.kind? id = some (.unary op.token) ∧
      ∃ leaf child, a.children id = [leaf, child] ∧ a.IsLeafOf leaf op.token ∧
        a.Shows ops inner child
  | .binary op left right, id =>
    ops.binary? op.token = some op ∧ a.kind? id = some (.binary op.token) ∧
      ∃ lhs leaf rhs, a.children id = [lhs, leaf, rhs] ∧ a.IsLeafOf leaf op.token ∧
        a.Shows ops left lhs ∧ a.Shows ops right rhs

variable {a a' : Arena} {ops : Operators} {t left right : OperatorTree} {id leaf child : NodeId}
  {op : TokenId}

theorem IsLeafOf.later (h : a.IsLeafOf leaf op) (hlater : a.Later a') : a'.IsLeafOf leaf op := by
  obtain ⟨t, ht, hid⟩ := h
  exact ⟨t, hlater.leafToken? ht, hid⟩

theorem IsLeafOf.lt (h : a.IsLeafOf leaf op) : leaf < a.nodes.size := by
  obtain ⟨t, ht, -⟩ := h
  unfold leafToken? at ht
  split at ht
  · next hkind => exact lt_of_kind? hkind
  · cases ht

theorem Shows.later (h : a.Shows ops t id) (hlater : a.Later a') : a'.Shows ops t id := by
  induction t generalizing id with
  | operand node => exact h
  | unary op inner ih =>
    obtain ⟨hop, hkind, leaf, child, hchildren, hleaf, hinner⟩ := h
    have hid := lt_of_kind? hkind
    exact ⟨hop, (hlater.kind?_eq hid).trans hkind, leaf, child,
      (hlater.children_eq hid).trans hchildren, hleaf.later hlater, ih hinner⟩
  | binary op left right ihl ihr =>
    obtain ⟨hop, hkind, lhs, leaf, rhs, hchildren, hleaf, hleft, hright⟩ := h
    have hid := lt_of_kind? hkind
    exact ⟨hop, (hlater.kind?_eq hid).trans hkind, lhs, leaf, rhs,
      (hlater.children_eq hid).trans hchildren, hleaf.later hlater, ihl hleft, ihr hright⟩

theorem Shows.pushUnary (op : PrefixOperator)
    (hop : ops.prefixPrecedence? op.token = some op.precedence)
    (hleaf : a.IsLeafOf leaf op.token) (hchild : child < a.nodes.size) (h : a.Shows ops t child)
    (place : Position) :
    (a.pushNode (.unary op.token) [leaf, child] place).Shows ops (.unary op t) a.nextId := by
  have hlater := Later.pushNode a (.unary op.token) [leaf, child] place
  have hpresent : ∀ c ∈ [leaf, child], c < a.nodes.size := by
    simpa using ⟨hleaf.lt, hchild⟩
  exact ⟨hop, kind?_pushNode .., leaf, child, children_pushNode _ place hpresent,
    hleaf.later hlater, h.later hlater⟩

theorem Shows.pushBinary {op : BinaryOperator} {lhs rhs : NodeId}
    (hop : ops.binary? op.token = some op) (hleaf : a.IsLeafOf leaf op.token)
    (hlhs : lhs < a.nodes.size) (hrhs : rhs < a.nodes.size) (hl : a.Shows ops left lhs)
    (hr : a.Shows ops right rhs) (place : Position) :
    (a.pushNode (.binary op.token) [lhs, leaf, rhs] place).Shows ops (.binary op left right)
      a.nextId := by
  have hlater := Later.pushNode a (.binary op.token) [lhs, leaf, rhs] place
  have hpresent : ∀ c ∈ [lhs, leaf, rhs], c < a.nodes.size := by
    simpa using ⟨hlhs, hleaf.lt, hrhs⟩
  exact ⟨hop, kind?_pushNode .., lhs, leaf, rhs, children_pushNode _ place hpresent,
    hleaf.later hlater, hl.later hlater, hr.later hlater⟩

end Arena

/-! ## Operands that are made -/

/-- Does the frame wait for the right operand of an operator? -/
def Frame.isOperator : Frame → Bool
  | .unary _ _ _ | .binary _ _ _ => true
  | _ => false

/-- The operand that is made in this moment, for the expression that has so many frames below its
operators. -/
def Machine.operand? (depth : Nat) (m : Machine) : Option NodeId :=
  match m.task, m.frames with
  | .done _, .operand ctx _ :: frames =>
    if (frames.dropWhile Frame.isOperator).length = depth then
      some (Parser.operandNode ctx.ops.operand m.nodes m.state).1
    else none
  | _, _ => none

namespace Parser

/-- The operands that are made in the next `n` steps, for the expression that has so many frames
below its operators. -/
def operandsMade (p : Parser) (depth n : Nat) (m : Machine) : List NodeId :=
  (List.range n).filterMap fun k => (p.run k m).operand? depth

variable {p : Parser} {depth n i j : Nat} {m m' m₁ : Machine} {frames : List Frame}

theorem operandsMade_succ (p : Parser) (depth n : Nat) (m : Machine) :
    p.operandsMade depth (n + 1) m
      = (m.operand? depth).toList ++ p.operandsMade depth n (p.step m) := by
  have hshift : (fun k => (p.run k m).operand? depth) ∘ Nat.succ
      = fun k => (p.run k (p.step m)).operand? depth := rfl
  rw [operandsMade, List.range_succ_eq_map, List.filterMap_cons, List.filterMap_map, hshift]
  cases h : m.operand? depth with
  | none => simp [operandsMade, run, h]
  | some node => simp [operandsMade, run, h]

theorem operandsMade_add (p : Parser) (depth i j : Nat) (m : Machine) :
    p.operandsMade depth (i + j) m
      = p.operandsMade depth i m ++ p.operandsMade depth j (p.run i m) := by
  induction i generalizing m with
  | zero => simp [operandsMade, run]
  | succ i ih =>
    rw [Nat.succ_add, operandsMade_succ, operandsMade_succ, ih, List.append_assoc]
    rfl

/-- What is made in a run that is split at a frame. -/
theorem Returns.operandsMade_split (h : p.Returns i (p.step m) m₁) (depth j : Nat) :
    p.operandsMade depth (i + j + 2) m = (m.operand? depth).toList ++
      (p.operandsMade depth i (p.step m) ++ ((m₁.operand? depth).toList ++
        p.operandsMade depth j (p.step m₁))) := by
  rw [show i + j + 2 = i + (j + 1) + 1 by omega, operandsMade_succ, operandsMade_add, h.run,
    operandsMade_succ]

/-- A row that goes on below an element which is not dropped. -/
theorem lt_length_dropWhile {frame : Frame} {above : List Frame}
    (hsuffix : frame :: frames <:+ above) (hframe : frame.isOperator = false) :
    frames.length < (above.dropWhile Frame.isOperator).length := by
  obtain ⟨more, rfl⟩ := hsuffix
  rw [List.dropWhile_append]
  split
  · rw [List.dropWhile_cons_of_neg (by simp [hframe]), List.length_cons]
    exact Nat.lt_succ_self _
  · rw [List.length_append, List.length_cons]
    omega

/-- Inside of an operand no operand is made for the expression around. -/
theorem Returns.operandsMade_nil (h : p.Returns i m m₁) {ctx : ExpressionContext}
    {nodes : List NodeId} (hframes : m.frames = .operand ctx nodes :: frames)
    (hdepth : (frames.dropWhile Frame.isOperator).length = depth) :
    p.operandsMade depth i m = [] := by
  have hle := (List.dropWhile_sublist Frame.isOperator (l := frames)).length_le
  refine List.filterMap_eq_nil_iff.2 fun k hk => ?_
  have hk := List.mem_range.1 hk
  have hsuffix := h.suffix (Nat.le_of_lt hk)
  rw [hframes] at hsuffix
  unfold Machine.operand?
  split
  · next flow ctx' outer above hdone habove =>
    rw [habove, List.suffix_cons_iff] at hsuffix
    rcases hsuffix with heq | hsuffix
    · exact absurd ⟨habove.trans (heq.symm.trans hframes.symm), flow, hdone⟩ (h.first k hk)
    · have hlt := lt_length_dropWhile hsuffix rfl
      rw [if_neg (by omega)]
  · rfl

/-! ## Runs -/

/-- A task has put one node in front of those of the surrounding part. The node is the root of a
tree that stops in front of the next token, with the operands `before` and those that were made. -/
def Builds (p : Parser) (ops : Operators) (level depth n : Nat) (before : List NodeId)
    (m m' : Machine) : Prop :=
  ∃ node tree, m'.nodes = node :: m.nodes ∧ m'.state.arena.Shows ops tree node ∧
    tree.operands = before ++ p.operandsMade depth n m ∧ tree.Climbs ops level m'.state.next ∧
    OperatorTree.Stops ops level m'.state.next

/-- What is built behind an operand is built by the whole task. -/
theorem Builds.behind {ops : Operators} {level : Nat} {before before' : List NodeId}
    (h : p.Builds ops level depth j before' m₁ m') (hnodes : m₁.nodes = m.nodes)
    (hmade : before' ++ p.operandsMade depth j m₁ = before ++ p.operandsMade depth n m) :
    p.Builds ops level depth n before m m' := by
  obtain ⟨node, tree, hnodes', hshows, hoperands, hclimbs, hstops⟩ := h
  exact ⟨node, tree, hnodes ▸ hnodes', hshows, hoperands.trans hmade, hclimbs, hstops⟩

theorem isLeafOf_takeLeaf (st : ParseState) :
    (st.fill 0).takeLeaf.2.arena.IsLeafOf (st.fill 0).takeLeaf.1 (st.fill 0).current.id := by
  obtain ⟨t, ht, hid⟩ := hasOperator_takeLeaf st []
  exact ⟨t, by simpa using ht, hid⟩

/-- Above a frame of an expression the task ends well, and what comes behind it is gone on with. -/
theorem Returns.split_proceeding (h : p.Returns n m m') (hm : ∀ flow, m.task ≠ .done flow)
    (hends : m'.task = .done .proceeding) {frame : Frame}
    (hframes : (p.step m).frames = frame :: m.frames)
    (hleave : ∀ flow inner st₁, ∃ ctx node outer st₂, p.leave frame flow m.frames inner st₁
      = leaveOperand ctx flow node m.frames outer st₂) :
    ∃ i j inner st₁, n = i + j + 2 ∧
      p.Returns i (p.step m) ⟨.done .proceeding, frame :: m.frames, inner, st₁⟩ ∧
      p.Returns j (p.leave frame .proceeding m.frames inner st₁) m' := by
  obtain ⟨i, j, m₁, flow, rfl, hi, hframes₁, hdone₁, hj⟩ := h.split hm hframes
  obtain ⟨task, above, inner, st₁⟩ := m₁
  dsimp only at hframes₁ hdone₁
  subst hframes₁ hdone₁
  change p.Returns j (p.leave frame flow m.frames inner st₁) m' at hj
  obtain ⟨ctx, node, outer, st₂, hleave⟩ := hleave flow inner st₁
  cases flow with
  | proceeding => exact ⟨i, j, inner, st₁, rfl, hi, hj⟩
  | recovering =>
    rw [hleave] at hj
    obtain ⟨-, rfl⟩ := hj.of_done rfl
    cases hends

/-- Shorter runs build trees, from the beginning of an expression and from behind a left operand. -/
def BuildsBelow (p : Parser) (ops : Operators) (depth n : Nat) (stream : TokenStream) : Prop :=
  ∀ n₁ < n, ∀ m m', p.Reaches stream m → p.Returns n₁ m m' → m'.task = .done .proceeding →
    (m.frames.dropWhile Frame.isOperator).length = depth →
    (∀ ctx, m.task = .expression ctx → ctx.ops = ops →
      p.Builds ops ctx.level depth n₁ [] m m') ∧
    ∀ ctx lhs tree, m.task = .climb ctx lhs → ctx.ops = ops →
      m.state.arena.Shows ops tree lhs → tree.Climbs ops ctx.level m.state.next →
      p.Builds ops ctx.level depth n₁ tree.operands m m'

section Calls

variable {ctx : ExpressionContext} {nodes : List NodeId} {st : ParseState} {lexer : Lexer}
  {window : Nat} (hdepth : (frames.dropWhile Frame.isOperator).length = depth)

include hdepth

theorem Returns.builds_sign (hc : p.grammar.Checked) {level : Fin 256}
    (hm : p.Reaches (.ofLexer lexer window) ⟨.expression ctx, frames, nodes, st⟩)
    (h : p.Returns n ⟨.expression ctx, frames, nodes, st⟩ m') (hends : m'.task = .done .proceeding)
    (ih : p.BuildsBelow ctx.ops depth n (.ofLexer lexer window))
    (hop : ctx.ops.prefixPrecedence? st.next = some level)
    (hstep : p.step ⟨.expression ctx, frames, nodes, st⟩
      = ⟨.expression { ctx with level := level.val },
      .unary ctx (st.fill 0).current nodes :: frames, [(st.fill 0).takeLeaf.1],
      (st.fill 0).takeLeaf.2⟩) :
    p.Builds ctx.ops ctx.level depth n [] ⟨.expression ctx, frames, nodes, st⟩ m' := by
  obtain ⟨i, j, inner, st₁, rfl, hi, hj⟩ := h.split_proceeding nofun hends
    (congrArg Machine.frames hstep) fun _ _ _ => ⟨_, _, _, _, rfl⟩
  have hmade := hi.operandsMade_split depth j
  have hm₁ := hi.run ▸ hm.step.run i
  rw [hstep] at hi hmade
  have hid := st.id_current_fill
  -- The operand is parsed at the precedence of the operator.
  obtain ⟨node, tree, hnodes, hshows, hoperands, hclimbs, hstops⟩ :=
    (ih i (by omega) _ _ (hstep ▸ hm.step) hi rfl hdepth).1 _ rfl rfl
  dsimp only at hnodes hshows hclimbs hstops
  subst hnodes
  have hleaf := (isLeafOf_takeLeaf st).later (hi.run ▸ run_later p i _)
  have hnode := Reaches.held hc hm₁ node List.mem_cons_self
  have hroot := hshows.pushUnary ⟨(st.fill 0).current.id, level⟩ (by rw [hid]; exact hop)
    hleaf hnode (st.fill 0).current.position
  -- What comes behind the node of the operator is climbed with.
  have hrest := (ih j (by omega) _ _ hm₁.step hj hends hdepth).2 ctx _ _ rfl rfl hroot
    (.unary hclimbs hstops)
  refine hrest.behind rfl ?_
  rw [hmade]
  exact congrArg (· ++ _) hoperands

theorem Returns.builds_operand
    (hm : p.Reaches (.ofLexer lexer window) ⟨.expression ctx, frames, nodes, st⟩)
    (h : p.Returns n ⟨.expression ctx, frames, nodes, st⟩ m') (hends : m'.task = .done .proceeding)
    (ih : p.BuildsBelow ctx.ops depth n (.ofLexer lexer window))
    (hstep : p.step ⟨.expression ctx, frames, nodes, st⟩
      = ⟨.rule ctx.ops.operand ctx.follow, .operand ctx nodes :: frames, [], st.fill 0⟩) :
    p.Builds ctx.ops ctx.level depth n [] ⟨.expression ctx, frames, nodes, st⟩ m' := by
  obtain ⟨i, j, inner, st₁, rfl, hi, hj⟩ := h.split_proceeding nofun hends
    (congrArg Machine.frames hstep) fun _ _ _ => ⟨_, _, _, _, rfl⟩
  have hmade := hi.operandsMade_split depth j
  have hm₁ := hi.run ▸ hm.step.run i
  rw [hstep] at hi hmade
  have hoperand : Machine.operand? depth
      ⟨.done .proceeding, .operand ctx nodes :: frames, inner, st₁⟩
        = some (operandNode ctx.ops.operand inner st₁).1 := if_pos hdepth
  have hrest := (ih j (by omega) _ _ hm₁.step hj hends hdepth).2 ctx _ (.operand _) rfl rfl rfl
    (.operand _ ctx.level _)
  refine hrest.behind rfl ?_
  rw [hmade, hi.operandsMade_nil rfl hdepth, hoperand]
  rfl

theorem Returns.builds_climb (hc : p.grammar.Checked) {lhs : NodeId} {tree : OperatorTree}
    {op : BinaryOperator}
    (hm : p.Reaches (.ofLexer lexer window) ⟨.climb ctx lhs, frames, nodes, st⟩)
    (h : p.Returns n ⟨.climb ctx lhs, frames, nodes, st⟩ m') (hends : m'.task = .done .proceeding)
    (ih : p.BuildsBelow ctx.ops depth n (.ofLexer lexer window))
    (hshows : st.arena.Shows ctx.ops tree lhs) (hclimbs : tree.Climbs ctx.ops ctx.level st.next)
    (hop : ctx.ops.binary? st.next = some op) (hlevel : ctx.level ≤ op.precedence.val)
    (hstep : p.step ⟨.climb ctx lhs, frames, nodes, st⟩
      = ⟨.expression { ctx with level := op.rightLevel },
        .binary ctx (st.fill 0).current nodes :: frames, [(st.fill 0).takeLeaf.1, lhs],
        (st.fill 0).takeLeaf.2⟩) :
    p.Builds ctx.ops ctx.level depth n tree.operands ⟨.climb ctx lhs, frames, nodes, st⟩ m' := by
  obtain ⟨i, j, inner, st₁, rfl, hi, hj⟩ := h.split_proceeding nofun hends
    (congrArg Machine.frames hstep) fun _ _ _ => ⟨_, _, _, _, rfl⟩
  have hmade := hi.operandsMade_split depth j
  have hm₁ := hi.run ▸ hm.step.run i
  rw [hstep] at hi hmade
  have hid : (st.fill 0).current.id = op.token :=
    st.id_current_fill.trans (Operators.token_of_binary? hop).symm
  -- The right operand is parsed at the level of the operator.
  obtain ⟨node, right, hnodes, hshows₁, hoperands, hclimbs₁, hstops⟩ :=
    (ih i (by omega) _ _ (hstep ▸ hm.step) hi rfl hdepth).1 _ rfl rfl
  dsimp only at hnodes hshows₁ hclimbs₁ hstops
  subst hnodes
  have hlater := run_later p i (p.step ⟨.climb ctx lhs, frames, nodes, st⟩)
  rw [hstep, hi.run] at hlater
  have hleaf := (isLeafOf_takeLeaf st).later hlater
  have hleft := hshows.later ((ParseState.gains_takeLeaf (st.fill 0)).later.trans hlater)
  have hnode := Reaches.held hc hm₁ node List.mem_cons_self
  have hlhs := Reaches.held hc hm₁ lhs (by simp)
  have hlink : ctx.ops.binary? op.token = some op := by
    rw [← hid, st.id_current_fill]
    exact hop
  have hroot := Arena.Shows.pushBinary hlink (hid ▸ hleaf) hlhs hnode hleft hshows₁
    (st.fill 0).current.position
  rw [← hid] at hroot
  -- The node of the operator is the next left operand.
  have hrest := (ih j (by omega) _ _ hm₁.step hj hends hdepth).2 ctx _ _ rfl rfl hroot
    (.binary hclimbs hop hlevel hclimbs₁ hstops)
  refine hrest.behind rfl ?_
  rw [hmade]
  show (tree.operands ++ right.operands) ++ _ = tree.operands ++ (p.operandsMade depth i _ ++ _)
  rw [hoperands, List.nil_append, List.append_assoc]
  rfl

end Calls

/-- Every run of a task of an expression builds a tree. -/
theorem buildsBelow (hc : p.grammar.Checked) (ops : Operators) (depth n : Nat) (lexer : Lexer)
    (window : Nat) :
    p.BuildsBelow ops depth n (.ofLexer lexer window) := by
  -- By induction on a bound for the steps: what a task begins with comes back after fewer of them.
  induction n with
  | zero => exact fun _ hn => absurd hn (Nat.not_lt_zero _)
  | succ n ih =>
    intro n₁ hn m m' hm h hends hdepth
    have ih : p.BuildsBelow ops depth n₁ (.ofLexer lexer window) := fun k hk =>
      ih k (Nat.lt_of_lt_of_le hk (Nat.le_of_lt_succ hn))
    obtain ⟨task, frames, nodes, st⟩ := m
    refine ⟨?_, ?_⟩
    · rintro ctx rfl rfl
      have hmove := step_move p ⟨.expression ctx, frames, nodes, st⟩
      generalize hstep : p.step ⟨.expression ctx, frames, nodes, st⟩ = m₁ at hmove
      cases hmove with
      | sign hop => exact h.builds_sign hdepth hc hm hends ih hop hstep
      | operand _ _ => exact h.builds_operand hdepth hm hends ih hstep
      | lack _ _ _ =>
        obtain ⟨l, -, htail⟩ := h.tail nofun (by rw [hstep])
        rw [hstep] at htail
        obtain ⟨-, rfl⟩ := htail.of_done rfl
        cases hends
    · rintro ctx lhs tree rfl rfl hshows hclimbs
      have hmove := step_move p ⟨.climb ctx lhs, frames, nodes, st⟩
      generalize hstep : p.step ⟨.climb ctx lhs, frames, nodes, st⟩ = m₁ at hmove
      cases hmove with
      | climb hop hlevel =>
        exact h.builds_climb hdepth hc hm hends ih hshows hclimbs hop hlevel hstep
      | top hop =>
        obtain ⟨l, rfl, htail⟩ := h.tail nofun (by rw [hstep])
        rw [hstep] at htail
        obtain ⟨rfl, rfl⟩ := htail.of_done rfl
        have hnext := st.next_fill 0
        refine ⟨lhs, tree, rfl, hshows, (List.append_nil _).symm, ?_, ?_⟩
        · exact hnext.symm ▸ hclimbs
        · exact hnext.symm ▸ hop

/-- From any moment of a parse where a rule of operands and operators begins, to the moment when it
is done without errors: one node has been put in front, and it is the root of a tree that climbing
builds over the operands that were made on the way. The leaves below the node are the tokens that
were taken. -/
theorem Returns.climbs (hc : p.grammar.Checked) {lexer : Lexer} {window : Nat}
    (hm : p.Reaches (.ofLexer lexer window) m) {r : Nat} {follow : TokenSet} {ops : Operators}
    (htask : m.task = .rule r follow) (hb : p.grammar.body r = .expression ops)
    (h : p.Returns n m m') (hfree : m.ErrorFree m') :
    m'.task = .done .proceeding ∧ ∃ node tree, m'.nodes = node :: m.nodes ∧
      m'.state.arena.Shows ops tree node ∧
      tree.operands = p.operandsMade (m.frames.length + 1) n m ∧
      tree.Climbs ops 0 m'.state.next ∧
      m.state.stream.upcoming.filter Token.isText
        = (m'.state.arena.leafTokens node ++ m'.state.stream.upcoming).filter Token.isText := by
  have hends := h.proceeding hm.markedBehind (by rw [htask]; trivial) hfree
  refine ⟨hends, ?_⟩
  have hheld : m.task.held = [] := by rw [htask]; rfl
  obtain ⟨task, frames, nodes, st⟩ := m
  dsimp only at htask
  subst htask
  have hmove := step_move p ⟨.rule r follow, frames, nodes, st⟩
  generalize hstep : p.step ⟨.rule r follow, frames, nodes, st⟩ = m₁ at hmove
  cases hmove with
  | express hb' =>
    cases hb.symm.trans hb'
    obtain ⟨i, j, m₁, flow, rfl, hi, hframes₁, hdone₁, hj⟩ :=
      h.split nofun (congrArg Machine.frames hstep)
    obtain ⟨task, above, inner, st₁⟩ := m₁
    dsimp only at hframes₁ hdone₁
    subst hframes₁ hdone₁
    have hmade := hi.operandsMade_split (frames.length + 1) j
    -- The rule has no node of its own, so that its task ends like the expression.
    have hsplice : p.step ⟨.done flow, .rule r st.consumed nodes :: frames, inner, st₁⟩
        = ⟨.done flow, frames, inner ++ nodes, st₁⟩ := by
      have hnode : p.hasNode r = false := by
        rw [Parser.hasNode, hb, Bool.not_true, Bool.and_false]
      show p.leaveRule r flow nodes frames inner st₁ = _
      rw [Parser.leaveRule, hnode, if_neg Bool.false_ne_true]
    rw [hsplice] at hj hmade
    obtain ⟨rfl, rfl⟩ := hj.of_done rfl
    cases hends
    rw [hstep] at hi hmade
    obtain ⟨node, tree, hnodes, hshows, hoperands, hclimbs, -⟩ :=
      (buildsBelow hc ops (frames.length + 1) (i + 1) lexer window i
        (Nat.lt_succ_self i) _ _ (hstep ▸ hm.step) hi rfl rfl).1 _ rfl rfl
    dsimp only at hnodes hshows
    subst hnodes
    refine ⟨node, tree, rfl, hshows, ?_, hclimbs, h.leafTokens hc hm hheld rfl⟩
    rw [hmade, hoperands]
    exact (List.append_nil _).symm
  | missing hb' | choose hb' _ | retry hb' _ _ _ _ _ | refuse hb' _ _ _ _ =>
    cases hb.symm.trans hb'

/-- **Expressions obey the table of precedences.** From any moment of a parse where a rule of
operands and operators begins, to the moment when it is done without errors: one node has been put
in front, and it is the root of a tree over the operands that were made on the way, in which every
operator has the operands that its precedence gives it. The leaves below the node are the tokens
that were taken. -/
theorem Returns.obeys {decls : List GrammarDecl} {g : Grammar}
    (hg : Grammar.ofDecls decls = .ok g) {sync : TokenSet} {lexer : Lexer} {window : Nat}
    (hm : Parser.Reaches ⟨g, sync⟩ (.ofLexer lexer window) m) {r : Nat} {follow : TokenSet}
    {ops : Operators} (htask : m.task = .rule r follow) (hb : g.body r = .expression ops)
    (hroom : ops.LeavesRoom) (h : Parser.Returns ⟨g, sync⟩ n m m') (hfree : m.ErrorFree m') :
    m'.task = .done .proceeding ∧ ∃ node tree, m'.nodes = node :: m.nodes ∧
      m'.state.arena.Shows ops tree node ∧
      tree.operands = Parser.operandsMade ⟨g, sync⟩ (m.frames.length + 1) n m ∧ tree.Obeys ∧
      m.state.stream.upcoming.filter Token.isText
        = (m'.state.arena.leafTokens node ++ m'.state.stream.upcoming).filter Token.isText := by
  obtain ⟨hends, node, tree, hnodes, hshows, hoperands, hclimbs, hleaves⟩ :=
    h.climbs (Grammar.checked_of_ofDecls hg) hm htask hb hfree
  exact ⟨hends, node, tree, hnodes, hshows, hoperands, (hclimbs.fits hroom).obeys, hleaves⟩

end Parser

/-! ## Without errors -/

namespace Parser

/-- In the parse of a text of the language every task is done at some moment, and nothing is skipped
until then. -/
theorem exists_returns_errorFree {p : Parser} (hc : p.grammar.Checked) (hplain : p.grammar.Plain)
    {table : TokenTable} {text : List Char} {depth k l : Nat}
    (hne : Lexer.textIds table text ≠ [])
    (hd : p.grammar.Derives [.rule p.grammar.start] (Lexer.textIds table text))
    (hhalted : (p.run l (p.start (.ofText table text depth))).halted = true) :
    ∃ n m', p.Returns n (p.run k (p.start (.ofText table text depth))) m' ∧
      Machine.ErrorFree (p.run k (p.start (.ofText table text depth))) m' := by
  have hmoments := promising_moments hc hplain depth hne hd
  generalize p.start (.ofText table text depth) = m at hhalted hmoments
  have hends : (p.run l (p.run k m)).halted = true := by
    rw [← run_add, run_of_halted_le hhalted (Nat.le_add_left l k)]
    exact hhalted
  obtain ⟨n, m', hreturns⟩ := exists_returns_of_halted hends
  refine ⟨n, m', hreturns, .inr ⟨?_, ?_⟩⟩
  · rw [ParseState.atDamage, (hmoments k).1.recoveredAt]
    rfl
  · rintro ⟨id, -, hkind⟩
    obtain ⟨node, hnode, herror⟩ := Option.map_eq_some_iff.1 hkind
    have hspotless := (hmoments (k + n)).2.quiet.spotless
    rw [run_add, hreturns.run] at hspotless
    exact hspotless node (Array.mem_of_getElem? hnode) herror

/-! ## A sum with a product -/

/-- The list of sums begins with a sum. -/
theorem task_start_sample {p : Parser} (hp : p.grammar = .sample) {follow : TokenSet}
    {frames : List Frame} {nodes : List NodeId} {st : ParseState} (hnext : st.next = .kind 1) :
    ∃ follow', (p.run 3 ⟨.rule 0 follow, frames, nodes, st⟩).task = .rule 1 follow' := by
  have hb : p.grammar.body 0 = .sequence [Analysis.alternative Grammar.sample.nullable
      Grammar.sample.first ⟨[.many 1], []⟩] := hp ▸ Grammar.body_sample 0
  obtain ⟨st₁, hstays, hstep⟩ := step_of_choose hb (ParseState.choose_singleton _ st.ids) follow
    frames nodes
  have hfirst : (p.grammar.firstOf 1).contains st₁.next = true := by
    rw [hp, hstays.next, hnext]
    decide +kernel
  have hne : st₁.next ≠ .eof := by
    rw [hstays.next, hnext]
    nofun
  refine ⟨(p.grammar.firstOf 1).union (followOf ⟨.many 1, ∅, true⟩ follow), ?_⟩
  show (p.step (p.step (p.step _))).task = _
  rw [hstep]
  show (p.enterRepetition 1 (followOf ⟨.many 1, ∅, true⟩ follow) _ _ st₁).task = _
  simp only [enterRepetition, ParseState.id_current_fill, if_neg hne, if_pos hfirst]

/-- A sum of a name behind a sign and of a product: each operator has the operands that its
precedence gives it. -/
theorem Returns.obeys_sample :
    ∃ n m m' follow ops, Parser.Reaches ⟨.sample, ∅⟩ (.ofText sampleTable sampleText 1) m ∧
      m.task = .rule 1 follow ∧ Grammar.sample.body 1 = .expression ops ∧ ops.LeavesRoom ∧
      Parser.Returns ⟨.sample, ∅⟩ n m m' ∧ m.ErrorFree m' ∧
      m'.task = .done .proceeding ∧ ∃ node tree, m'.nodes = node :: m.nodes ∧
        m'.state.arena.Shows ops tree node ∧
        tree.operands = Parser.operandsMade ⟨.sample, ∅⟩ (m.frames.length + 1) n m ∧ tree.Obeys ∧
        m.state.stream.upcoming.filter Token.isText
          = (m'.state.arena.leafTokens node ++ m'.state.stream.upcoming).filter Token.isText := by
  have hids := textIds_sampleText
  have hne : Lexer.textIds sampleTable sampleText ≠ [] := by rw [hids]; nofun
  -- The sum is a part of the parse, which ends.
  have hsum : ∃ follow, (Parser.run ⟨.sample, ∅⟩ 3
      (Parser.start ⟨.sample, ∅⟩ (.ofText sampleTable sampleText 1))).task = .rule 1 follow := by
    obtain ⟨htask, -⟩ := task_start ⟨.sample, ∅⟩ 1 hne
    have hnext := ids_start ⟨.sample, ∅⟩ sampleTable sampleText 1
    rw [hids] at hnext
    generalize Parser.start ⟨.sample, ∅⟩ (.ofText sampleTable sampleText 1) = m at htask hnext
    obtain ⟨task, frames, nodes, st⟩ := m
    dsimp only at htask
    subst htask
    exact task_start_sample rfl (congrArg (·.headD .eof) hnext)
  obtain ⟨follow, hsum⟩ := hsum
  obtain ⟨q, hq⟩ := exists_answer_of_complete (p := ⟨.sample, ∅⟩) Grammar.checked_sample
    (Grammar.lacks_sample nofun) Grammar.defined_sample (.ofText sampleTable sampleText 1)
  obtain ⟨l, hhalted, -⟩ := (answers_iff ..).1 hq
  obtain ⟨n, m', hreturns, hfree⟩ := exists_returns_errorFree (p := ⟨.sample, ∅⟩) (k := 3)
    Grammar.checked_sample Grammar.plain_sample hne (hids ▸ Grammar.derives_sample) hhalted
  have hroom : Grammar.sampleOps.LeavesRoom := by
    have hall : ∀ op ∈ Grammar.sampleOps.binaries, op.precedence.val ≠ 255 := by decide
    exact fun op hop _ => hall op hop
  have hreaches : Parser.Reaches ⟨.sample, ∅⟩ (.ofText sampleTable sampleText 1)
    (Parser.run ⟨.sample, ∅⟩ 3 _) := ⟨3, rfl⟩
  exact ⟨n, _, m', follow, _, hreaches, hsum, Grammar.body_sample 1, hroom, hreturns, hfree,
    hreturns.obeys Grammar.ofDecls_sample hreaches hsum (Grammar.body_sample 1) hroom hfree⟩

end Parser

end FrontEnd
