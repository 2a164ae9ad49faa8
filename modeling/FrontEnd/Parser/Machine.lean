import FrontEnd.Parser.State

/-!
# The parsing machine

Parsing goes from the start rule down, without going back. What is being parsed and what comes
afterwards are data: a task, and a stack of frames. One step does one thing, so input may be nested
as deeply as memory allows, and every moment of a parse is a value.

- `Task`, `Frame`, `Machine`: the moment of a parse;
- `Parser.step`: the next moment;
- `Parser.runDoubling`: many moments later;
- `Parser.parseWithin`: the tree and the reports, if the parse ends in time.
-/

namespace FrontEnd

/-- Did the part that was just parsed end well? -/
inductive Flow where
  | proceeding
  /-- Tokens were skipped; symbols that cannot start with the next token are left out. -/
  | recovering
  deriving DecidableEq, Repr, Inhabited

/-- Where an expression is parsed. -/
structure ExpressionContext where
  /-- The rule of the expression. -/
  rule : Nat
  ops : Operators
  /-- Binary operators of lower precedence belong to somebody else. -/
  level : Nat
  /-- What may come behind an operand. -/
  follow : TokenSet

/-- What is to be done next. -/
inductive Task where
  /-- Parse a rule, behind which one of `follow` may come. -/
  | rule (r : Nat) (follow : TokenSet)
  /-- Parse the symbols that are left of a production. -/
  | steps (rest : List Step) (follow : TokenSet) (flow : Flow)
  /-- Parse a rule as often as the input allows. -/
  | repetition (r : Nat) (follow : TokenSet)
  /-- Parse an expression. -/
  | expression (ctx : ExpressionContext)
  /-- Go on behind an operand. -/
  | climb (ctx : ExpressionContext) (lhs : NodeId)
  /-- Go back to the frame on top. -/
  | done (flow : Flow)

/-- What comes behind a task that is done. `nodes` are the nodes of the surrounding part, latest
first. -/
inductive Frame where
  /-- Finish a rule that was entered when so many tokens had been taken. -/
  | rule (r : Nat) (entered : Nat) (nodes : List NodeId)
  /-- Parse the symbols that are left. -/
  | steps (rest : List Step) (follow : TokenSet)
  /-- Repeat; so many tokens had been taken before. -/
  | repetition (r : Nat) (follow : TokenSet) (before : Nat)
  /-- Make an operand. -/
  | operand (ctx : ExpressionContext) (nodes : List NodeId)
  /-- Make a node of a prefix operator. -/
  | unary (ctx : ExpressionContext) (op : Token) (nodes : List NodeId)
  /-- Make a node of a binary operator. -/
  | binary (ctx : ExpressionContext) (op : Token) (nodes : List NodeId)

/-- A moment of a parse. -/
structure Machine where
  task : Task
  frames : List Frame
  /-- The nodes of the part that is being parsed, latest first. -/
  nodes : List NodeId
  state : ParseState

/-- A grammar, and the tokens at which skipping ends. -/
structure Parser where
  grammar : Grammar
  sync : TokenSet

/-- A tree, and what there is to say about the input. -/
structure Parse where
  tree : SyntaxTree
  diagnostics : List Diagnostic

namespace Machine

/-- Is nothing left to do? -/
def halted (m : Machine) : Bool := m.frames.isEmpty && (m.task matches .done _)

end Machine

/-- The level of the right operand: equal operators group to the left or to the right. -/
def BinaryOperator.rightLevel (op : BinaryOperator) : Nat :=
  match op.associativity with
  | .left => min (op.precedence.val + 1) 255
  | .right => op.precedence.val

namespace Parser

/-! ## One step -/

/-- Begins a rule. -/
def enterRule (p : Parser) (r : Nat) (follow : TokenSet) (frames : List Frame)
    (nodes : List NodeId) (st : ParseState) : Machine :=
  let frame := Frame.rule r st.consumed nodes
  match p.grammar.body r with
  | .undefined =>
    let (node, st) := st.missingRule p.grammar r
    ⟨.done .recovering, frames, node :: nodes, st⟩
  | .expression ops =>
    ⟨.expression ⟨r, ops, 0, follow.union ops.binaryTokens⟩, frame :: frames, [], st⟩
  | .sequence alternatives =>
    match st.select p.grammar r alternatives with
    | (some a, st) => ⟨.steps a.steps follow .proceeding, frame :: frames, [], st⟩
    | (none, st) =>
      let wasDamaged := st.atDamage
      let (errors, st) := st.unexpected p.grammar p.sync (p.grammar.firstOf r)
      let st := st.fill 0
      let id := st.current.id
      match st.select p.grammar r alternatives with
      | (some a, st) =>
        if !wasDamaged && a.first.contains id then
          ⟨.steps a.steps follow .proceeding, frame :: frames, errors, st⟩
        else ⟨.done .recovering, frame :: frames, errors, st⟩
      | (none, st) => ⟨.done .recovering, frame :: frames, errors, st⟩

/-- Parses a token, also one on which skipping stopped. -/
def expect (p : Parser) (id : TokenId) (frames : List Frame) (nodes : List NodeId)
    (st : ParseState) : Machine :=
  let st := st.fill 0
  if st.current.id = id then
    let (leaf, st) := st.takeLeaf
    ⟨.done .proceeding, frames, leaf :: nodes, st⟩
  else
    let (errors, st) := st.unexpected p.grammar p.sync (.single id)
    let st := st.fill 0
    if st.current.id = id then
      let (leaf, st) := st.takeLeaf
      ⟨.done .proceeding, frames, leaf :: (errors ++ nodes), st⟩
    else ⟨.done .recovering, frames, errors ++ nodes, st⟩

/-- Parses a symbol behind which one of `follow` may come. -/
def enterSymbol (p : Parser) (symbol : Symbol) (follow : TokenSet) (frames : List Frame)
    (nodes : List NodeId) (st : ParseState) : Machine :=
  match symbol with
  | .token id => p.expect id frames nodes st
  | .rule r => ⟨.rule r follow, frames, nodes, st⟩
  | .opt r =>
    let st := st.fill 0
    if (p.grammar.firstOf r).contains st.current.id then ⟨.rule r follow, frames, nodes, st⟩
    else ⟨.done .proceeding, frames, nodes, st⟩
  | .many r => ⟨.repetition r follow, frames, nodes, st⟩

/-- What may come behind a symbol, when `follow` may come behind its production. -/
def followOf (s : Step) (follow : TokenSet) : TokenSet :=
  if s.restNullable then s.restFirst.union follow else s.restFirst

/-- Goes on with a production. After skipping, symbols that the next token cannot start are left
out. -/
def enterSteps (p : Parser) (steps : List Step) (follow : TokenSet) (flow : Flow)
    (frames : List Frame) (nodes : List NodeId) (st : ParseState) : Machine :=
  match steps, flow with
  | [], flow => ⟨.done flow, frames, nodes, st⟩
  | s :: rest, .proceeding =>
    p.enterSymbol s.symbol (followOf s follow) (.steps rest follow :: frames) nodes st
  | s :: rest, .recovering =>
    let st := st.fill 0
    if p.grammar.canStart s.symbol st.current.id then
      p.enterSymbol s.symbol (followOf s follow) (.steps rest follow :: frames) nodes st
    else ⟨.steps rest follow .recovering, frames, nodes, st⟩

/-- Begins another round of a repetition, or ends it. -/
def enterRepetition (p : Parser) (r : Nat) (follow : TokenSet) (frames : List Frame)
    (nodes : List NodeId) (st : ParseState) : Machine :=
  let st := st.fill 0
  let id := st.current.id
  let first := p.grammar.firstOf r
  if id = .eof then ⟨.done .proceeding, frames, nodes, st⟩
  else if first.contains id then
    ⟨.rule r (first.union follow), .repetition r follow st.consumed :: frames, nodes, st⟩
  else if follow.contains id then ⟨.done .proceeding, frames, nodes, st⟩
  else
    let (errors, st) := st.unexpected p.grammar p.sync (first.union follow)
    ⟨.repetition r follow, frames, errors ++ nodes, st⟩

/-- Begins an expression: a prefix operator or an operand. -/
def enterExpression (p : Parser) (ctx : ExpressionContext) (frames : List Frame)
    (nodes : List NodeId) (st : ParseState) : Machine :=
  let st := st.fill 0
  let t := st.current
  match ctx.ops.prefixPrecedence? t.id with
  | some precedence =>
    let (leaf, st) := st.takeLeaf
    ⟨.expression { ctx with level := precedence.val }, .unary ctx t nodes :: frames, [leaf], st⟩
  | none =>
    if (p.grammar.firstOf ctx.ops.operand).contains t.id then
      ⟨.rule ctx.ops.operand ctx.follow, .operand ctx nodes :: frames, [], st⟩
    else
      let (errors, st) := st.unexpected p.grammar p.sync (p.grammar.firstOf ctx.rule)
      ⟨.done .recovering, frames, errors ++ nodes, st⟩

/-- Goes on behind an operand: with a binary operator, or not at all. -/
def climb (ctx : ExpressionContext) (lhs : NodeId) (frames : List Frame) (nodes : List NodeId)
    (st : ParseState) : Machine :=
  let st := st.fill 0
  let t := st.current
  match ctx.ops.binary? t.id with
  | none => ⟨.done .proceeding, frames, lhs :: nodes, st⟩
  | some op =>
    if op.precedence.val < ctx.level then ⟨.done .proceeding, frames, lhs :: nodes, st⟩
    else
      let (leaf, st) := st.takeLeaf
      ⟨.expression { ctx with level := op.rightLevel }, .binary ctx t nodes :: frames,
        [leaf, lhs], st⟩

/-- An operand is there: go on behind it, unless tokens were skipped inside. -/
def leaveOperand (ctx : ExpressionContext) (flow : Flow) (node : NodeId) (frames : List Frame)
    (nodes : List NodeId) (st : ParseState) : Machine :=
  match flow with
  | .proceeding => ⟨.climb ctx node, frames, nodes, st⟩
  | .recovering => ⟨.done .recovering, frames, node :: nodes, st⟩

/-- Does a rule have a node of its own? -/
def hasNode (p : Parser) (r : Nat) : Bool :=
  !p.grammar.isTransparent r && !(p.grammar.body r matches .expression _)

/-- Finishes a rule: its nodes go under a node of its own or to the surrounding part. -/
def leaveRule (p : Parser) (r : Nat) (flow : Flow) (outer : List NodeId) (frames : List Frame)
    (nodes : List NodeId) (st : ParseState) : Machine :=
  if p.hasNode r then
    let st := st.fill 0
    let (node, st) := st.pushNode (.rule r) nodes.reverse st.current.position
    ⟨.done flow, frames, node :: outer, st⟩
  else ⟨.done flow, frames, nodes ++ outer, st⟩

/-- The node of an operand: its only node, or one made for it. -/
def operandNode (r : Nat) (nodes : List NodeId) (st : ParseState) : NodeId × ParseState :=
  match nodes with
  | [node] => (node, st)
  | _ =>
    let st := st.fill 0
    st.pushNode (.rule r) nodes.reverse st.current.position

/-- Goes back to a frame. -/
def leave (p : Parser) (frame : Frame) (flow : Flow) (frames : List Frame) (nodes : List NodeId)
    (st : ParseState) : Machine :=
  match frame with
  | .rule r _ outer => p.leaveRule r flow outer frames nodes st
  | .steps rest follow => ⟨.steps rest follow flow, frames, nodes, st⟩
  | .repetition r follow before =>
    if st.consumed = before then
      let (errors, st) := st.absorb
      ⟨.repetition r follow, frames, errors ++ nodes, st⟩
    else ⟨.repetition r follow, frames, nodes, st⟩
  | .operand ctx outer =>
    let (node, st) := operandNode ctx.ops.operand nodes st
    leaveOperand ctx flow node frames outer st
  | .unary ctx op outer =>
    let (node, st) := st.pushNode (.unary op.id) nodes.reverse op.position
    leaveOperand ctx flow node frames outer st
  | .binary ctx op outer =>
    let (node, st) := st.pushNode (.binary op.id) nodes.reverse op.position
    leaveOperand ctx flow node frames outer st

/-- The next moment. A parse that has ended stays as it is. -/
def step (p : Parser) (m : Machine) : Machine :=
  match m with
  | ⟨.rule r follow, frames, nodes, st⟩ => p.enterRule r follow frames nodes st
  | ⟨.steps rest follow flow, frames, nodes, st⟩ => p.enterSteps rest follow flow frames nodes st
  | ⟨.repetition r follow, frames, nodes, st⟩ => p.enterRepetition r follow frames nodes st
  | ⟨.expression ctx, frames, nodes, st⟩ => p.enterExpression ctx frames nodes st
  | ⟨.climb ctx lhs, frames, nodes, st⟩ => climb ctx lhs frames nodes st
  | ⟨.done flow, frame :: frames, nodes, st⟩ => p.leave frame flow frames nodes st
  | ⟨.done flow, [], nodes, st⟩ => ⟨.done flow, [], nodes, st⟩

/-! ## Whole parses -/

/-- The first moment: the start rule, unless there is no token at all. -/
def start (p : Parser) (stream : TokenStream) : Machine :=
  let st := (ParseState.ofStream stream).fill 0
  let task : Task :=
    if st.current.id = .eof then .done .proceeding
    else .rule p.grammar.start (.single .eof)
  ⟨task, [], [], st⟩

/-- The moment `n` steps later. -/
def run (p : Parser) : Nat → Machine → Machine
  | 0, m => m
  | n + 1, m => p.run n (p.step m)

/-- The moment up to `2 ^ k` steps later: as many, or the end of the parse. -/
def runDoubling (p : Parser) : Nat → Machine → Machine
  | 0, m => p.step m
  | k + 1, m =>
    let m := p.runDoubling k m
    if m.halted then m else p.runDoubling k m

/-- The tree of a parse that has ended. Tokens that are left go under an error node. -/
def finish (m : Machine) : Parse :=
  let st := m.state.fill 0
  let (nodes, st) :=
    if st.current.id = .eof then (m.nodes, st)
    else
      let (node, st) := st.trailing
      (node :: m.nodes, st.fill 0)
  ⟨st.arena.finish nodes.reverse st.current.position, st.allReports⟩

/-- The parse of a stream, if it ends within `2 ^ k` steps. -/
def parseWithin (p : Parser) (k : Nat) (stream : TokenStream) : Option Parse :=
  let m := p.runDoubling k (p.start stream)
  if m.halted then some (finish m) else none

/-- Twice as many steps, so many times, are more than a machine can do. -/
def patience : Nat := 64

/-- The parse of a stream, if it ends. -/
def parse? (p : Parser) (stream : TokenStream) : Option Parse := p.parseWithin patience stream

end Parser

end FrontEnd
