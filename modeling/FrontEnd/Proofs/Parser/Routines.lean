import FrontEnd.Proofs.Parser.Moves
import FrontEnd.Proofs.Stream.Readers

/-!
# A parser as a reader of its stream

What a parse has done so far is a stream and a desk: the nodes, the reports, and what is remembered
of both. Here the parser is written down once more as a program that has the desk before it and
nothing of the stream but the answers to its requests. **It comes to the same trees and reports**,
so that whatever the parser sees of the tokens to come, it has asked for.

- `Desk`, `Routine`: a parse without its stream, and a program that works at it;
- `Routine.play`: what a routine does to a parse;
- `Parser.proceed`, `Parser.conclude`, `Parser.reader`: one step, the end of a parse, and the whole;
- `Parser.arrive_proceed`: a step comes to the next moment of the machine, with the same stream;
- `Parser.read_reader`: **the whole comes to the answer of the parser**;
- `Parser.exists_visit_of_run`: every moment of the machine is one of a request.
-/

namespace FrontEnd

open TokenStream (Reader Request)

/-! ## Desks -/

/-- What a parse has done so far, apart from its stream. -/
structure Desk where
  arena : Arena
  reports : DiagnosticLog
  pending : List Diagnostic
  recoveredAt : Option Nat
  ambiguous : List Nat
  undefined : List Nat

namespace Desk

/-- Before the first token. -/
def empty : Desk := ⟨.empty, .empty, [], none, [], []⟩

/-- The parse with this desk and this stream. -/
def on (desk : Desk) (stream : TokenStream) : ParseState :=
  { stream
    arena := desk.arena
    reports := desk.reports
    pending := desk.pending
    recoveredAt := desk.recoveredAt
    ambiguous := desk.ambiguous
    undefined := desk.undefined }

end Desk

/-- The parse without its stream. -/
def ParseState.desk (st : ParseState) : Desk :=
  ⟨st.arena, st.reports, st.pending, st.recoveredAt, st.ambiguous, st.undefined⟩

/-- What is to be done, apart from the state of the parse. -/
structure Agenda where
  task : Task
  frames : List Frame
  nodes : List NodeId

/-- Is nothing left to do? -/
def Agenda.halted (a : Agenda) : Bool := a.frames.isEmpty && (a.task matches .done _)

/-- The moment with this to be done. -/
def Agenda.on (a : Agenda) (st : ParseState) : Machine := ⟨a.task, a.frames, a.nodes, st⟩

theorem Agenda.halted_on (a : Agenda) (st : ParseState) : (a.on st).halted = a.halted := rfl

/-- A program that works at a desk and asks a stream. -/
abbrev Routine := StateT Desk Reader

namespace Routine

variable {α β : Type}

/-- The answer to a request. -/
def ask (r : Request) : Routine r.Reply := fun desk => .ask r fun answer => .done (answer, desk)

/-- The names of the tokens. -/
def table : Routine TokenTable := fun desk => .table fun t => .done (t, desk)

/-- The token `k` places ahead. -/
def peek (k : Nat) : Routine Token := ask (.peek k)

/-- The next token. -/
def look : Routine Token := peek 0

/-- Takes the next token. -/
def consume : Routine Token := ask .consume

/-- Number of tokens taken. -/
def consumed : Routine Nat := ask .consumed

/-- Takes tokens up to one of the set. -/
def synchronize (sync : TokenSet) : Routine (List Token) := ask (.synchronize sync)

/-- Takes the reports of the lexer. -/
def takeDiagnostics : Routine (List Diagnostic) := ask .takeDiagnostics

/-! ## Nodes and reports -/

/-- Adds a leaf for a token. -/
def pushLeaf (t : Token) : Routine NodeId :=
  modifyGet fun desk => (desk.arena.nextId, { desk with arena := desk.arena.pushLeaf t })

/-- Takes the next token into a leaf. -/
def takeLeaf : Routine NodeId := do
  let t ← consume
  pushLeaf t

/-- Adds a node over children. -/
def pushNode (kind : NodeKind) (children : List NodeId) (place : Position) : Routine NodeId :=
  modifyGet fun desk =>
    (desk.arena.nextId, { desk with arena := desk.arena.pushNode kind children place })

/-- Adds leaves for tokens, and one error node over them. -/
def pushError (tokens : List Token) (place : Position) : Routine NodeId := do
  let desk ← get
  set { desk with arena := tokens.foldl Arena.pushLeaf desk.arena }
  pushNode .error (List.range' desk.arena.nextId tokens.length) place

/-- Is this the place where tokens were last skipped? -/
def atDamage : Routine Bool := do
  let taken ← consumed
  let desk ← get
  return desk.recoveredAt == some taken

/-- Remembers this place as one where tokens were skipped. -/
def markDamage : Routine Unit := do
  let taken ← consumed
  modify fun desk => { desk with recoveredAt := some taken }

end Routine

/-- How a token reads in a message. -/
def TokenTable.describe (table : TokenTable) (t : Token) : String :=
  match t.id with
  | .eof => TokenTable.endName
  | .unknown => "`" ++ Escape.text t.text ++ "`"
  | id =>
    if (table.literal? id).isSome then table.name id
    else table.name id ++ " `" ++ Escape.text t.text ++ "`"

namespace Routine

/-- Adds a report behind those of the lexer that point at or before it. -/
def report (d : Diagnostic) : Routine Unit := do
  let found ← takeDiagnostics
  let isReady (p : Diagnostic) : Bool := p.location.start.offset ≤ d.location.start.offset
  modify fun desk =>
    { desk with
      reports := (desk.reports.extend ((desk.pending ++ found).takeWhile isReady)).record d
      pending := (desk.pending ++ found).dropWhile isReady }

/-- All reports, those of the lexer that are left at the end. -/
def allReports : Routine (List Diagnostic) := do
  let found ← takeDiagnostics
  let desk ← get
  return desk.reports.toList ++ (desk.pending ++ found)

/-! ## Recovery -/

/-- Puts the next token under an error node, unless the input has ended. -/
def absorb : Routine (List NodeId) := do
  let t ← look
  if t.id = .eof then return []
  else
    let leaf ← takeLeaf
    let node ← pushNode .error [leaf] t.position
    markDamage
    return [node]

/-- Reports that the next token is none of `expected`, unless the lexer has. -/
def reportUnexpected (g : Grammar) (expected : TokenSet) (t : Token) : Routine Unit := do
  if t.id = .unknown then return ()
  else
    let table ← table
    report (.unexpectedToken (expected.expectation ⟨table.name, g.ruleName⟩) (table.describe t)
      (.ofToken t))

/-- Puts the tokens before the next one of `sync` under an error node. -/
def skipTo (sync : TokenSet) (place : Position) : Routine NodeId := do
  let skipped ← synchronize sync
  let node ← pushError skipped place
  markDamage
  return node

/-- The next token is none of `expected`: the nodes that stand for the damage. -/
def unexpected (g : Grammar) (sync expected : TokenSet) : Routine (List NodeId) := do
  let t ← look
  if ← atDamage then absorb
  else
    reportUnexpected g expected t
    let node ← skipTo sync t.position
    return [node]

/-- Reports once that a rule has no productions. -/
def reportMissing (g : Grammar) (r : Nat) (t : Token) : Routine Unit := do
  let desk ← get
  if desk.undefined.contains r then return ()
  else
    report (.undefinedRule (g.ruleName r) (.ofToken t))
    modify fun desk => { desk with undefined := r :: desk.undefined }

/-- A rule without productions was reached. -/
def missingRule (g : Grammar) (r : Nat) : Routine NodeId := do
  let t ← look
  reportMissing g r t
  let node ← pushNode .error [] t.position
  markDamage
  return node

/-- Reports tokens behind the end of the start rule, unless they belong to old damage. -/
def reportTrailing (t : Token) : Routine Unit := do
  if ← atDamage then return ()
  else
    let table ← table
    report (.trailingInput (table.describe t) (.ofToken t))

/-- Tokens behind the end of the start rule go under an error node. -/
def trailing : Routine NodeId := do
  let t ← look
  reportTrailing t
  let rest ← synchronize ∅
  pushError rest t.position

/-! ## Choice -/

/-- Are the tokens from the `k`-th on exactly those of the guard? -/
def matchesGuard (k : Nat) : List TokenId → Routine Bool
  | [] => return true
  | id :: guard => do
    let t ← peek k
    if t.id = id then matchesGuard (k + 1) guard else return false

/-- The first alternative whose guard is there. -/
def selectGuarded : List Alternative → Routine (Option Alternative)
  | [] => return none
  | a :: rest =>
    if a.guard.isEmpty then selectGuarded rest
    else do
      if ← matchesGuard 0 a.guard then return some a else selectGuarded rest

/-- Reports once that one token cannot tell the alternatives of a rule apart. -/
def reportAmbiguous (g : Grammar) (r : Nat) (t : Token) : Routine Unit := do
  let desk ← get
  if desk.ambiguous.contains r then return ()
  else
    report (.ambiguousRule (g.ruleName r) (.ofToken t))
    modify fun desk => { desk with ambiguous := r :: desk.ambiguous }

/-- The alternative to parse a rule with. -/
def select (g : Grammar) (r : Nat) (alternatives : List Alternative) :
    Routine (Option Alternative) := do
  match ← selectGuarded alternatives with
  | some a => return some a
  | none =>
    let t ← look
    match ParseState.candidates alternatives t.id with
    | [] => return ParseState.fallback alternatives t.id
    | [a] => return some a
    | a :: _ :: _ =>
      reportAmbiguous g r t
      return some a

end Routine

/-! ## Steps -/

namespace Parser

open Routine

/-- Begins a rule. -/
def beginRule (p : Parser) (r : Nat) (follow : TokenSet) (frames : List Frame)
    (nodes : List NodeId) : Routine Agenda := do
  match p.grammar.body r with
  | .undefined =>
    let node ← missingRule p.grammar r
    return ⟨.done .recovering, frames, node :: nodes⟩
  | .expression ops =>
    let taken ← consumed
    let frame := Frame.rule r taken nodes
    return ⟨.expression ⟨r, ops, 0, follow.union ops.binaryTokens⟩, frame :: frames, []⟩
  | .sequence alternatives =>
    let taken ← consumed
    let frame := Frame.rule r taken nodes
    match ← select p.grammar r alternatives with
    | some a => return ⟨.steps a.steps follow .proceeding, frame :: frames, []⟩
    | none =>
      let wasDamaged ← atDamage
      let errors ← unexpected p.grammar p.sync (p.grammar.firstOf r)
      let t ← look
      match ← select p.grammar r alternatives with
      | some a =>
        if !wasDamaged && a.first.contains t.id then
          return ⟨.steps a.steps follow .proceeding, frame :: frames, errors⟩
        else return ⟨.done .recovering, frame :: frames, errors⟩
      | none => return ⟨.done .recovering, frame :: frames, errors⟩

/-- Parses a token, also one on which skipping stopped. -/
def beginToken (p : Parser) (id : TokenId) (frames : List Frame) (nodes : List NodeId) :
    Routine Agenda := do
  let t ← look
  if t.id = id then
    let leaf ← takeLeaf
    return ⟨.done .proceeding, frames, leaf :: nodes⟩
  else
    let errors ← unexpected p.grammar p.sync (.single id)
    let t ← look
    if t.id = id then
      let leaf ← takeLeaf
      return ⟨.done .proceeding, frames, leaf :: (errors ++ nodes)⟩
    else return ⟨.done .recovering, frames, errors ++ nodes⟩

/-- Parses a symbol behind which one of `follow` may come. -/
def beginSymbol (p : Parser) (symbol : Symbol) (follow : TokenSet) (frames : List Frame)
    (nodes : List NodeId) : Routine Agenda := do
  match symbol with
  | .token id => p.beginToken id frames nodes
  | .rule r => return ⟨.rule r follow, frames, nodes⟩
  | .opt r =>
    let t ← look
    if (p.grammar.firstOf r).contains t.id then return ⟨.rule r follow, frames, nodes⟩
    else return ⟨.done .proceeding, frames, nodes⟩
  | .many r => return ⟨.repetition r follow, frames, nodes⟩

/-- Goes on with a production. -/
def beginSteps (p : Parser) (steps : List Step) (follow : TokenSet) (flow : Flow)
    (frames : List Frame) (nodes : List NodeId) : Routine Agenda := do
  match steps, flow with
  | [], flow => return ⟨.done flow, frames, nodes⟩
  | s :: rest, .proceeding =>
    p.beginSymbol s.symbol (followOf s follow) (.steps rest follow :: frames) nodes
  | s :: rest, .recovering =>
    let t ← look
    if p.grammar.canStart s.symbol t.id then
      p.beginSymbol s.symbol (followOf s follow) (.steps rest follow :: frames) nodes
    else return ⟨.steps rest follow .recovering, frames, nodes⟩

/-- Begins another round of a repetition, or ends it. -/
def beginRound (p : Parser) (r : Nat) (follow : TokenSet) (frames : List Frame)
    (nodes : List NodeId) : Routine Agenda := do
  let t ← look
  let first := p.grammar.firstOf r
  if t.id = .eof then return ⟨.done .proceeding, frames, nodes⟩
  else if first.contains t.id then
    let taken ← consumed
    return ⟨.rule r (first.union follow), .repetition r follow taken :: frames, nodes⟩
  else if follow.contains t.id then return ⟨.done .proceeding, frames, nodes⟩
  else
    let errors ← unexpected p.grammar p.sync (first.union follow)
    return ⟨.repetition r follow, frames, errors ++ nodes⟩

/-- Begins an expression: a prefix operator or an operand. -/
def beginExpression (p : Parser) (ctx : ExpressionContext) (frames : List Frame)
    (nodes : List NodeId) : Routine Agenda := do
  let t ← look
  match ctx.ops.prefixPrecedence? t.id with
  | some precedence =>
    let leaf ← takeLeaf
    return ⟨.expression { ctx with level := precedence.val }, .unary ctx t nodes :: frames, [leaf]⟩
  | none =>
    if (p.grammar.firstOf ctx.ops.operand).contains t.id then
      return ⟨.rule ctx.ops.operand ctx.follow, .operand ctx nodes :: frames, []⟩
    else
      let errors ← unexpected p.grammar p.sync (p.grammar.firstOf ctx.rule)
      return ⟨.done .recovering, frames, errors ++ nodes⟩

/-- Goes on behind an operand: with a binary operator, or not at all. -/
def beginOperator (ctx : ExpressionContext) (lhs : NodeId) (frames : List Frame)
    (nodes : List NodeId) : Routine Agenda := do
  let t ← look
  match ctx.ops.binary? t.id with
  | none => return ⟨.done .proceeding, frames, lhs :: nodes⟩
  | some op =>
    if op.precedence.val < ctx.level then return ⟨.done .proceeding, frames, lhs :: nodes⟩
    else
      let leaf ← takeLeaf
      return ⟨.expression { ctx with level := op.rightLevel }, .binary ctx t nodes :: frames,
        [leaf, lhs]⟩

/-- What comes behind an operand, unless tokens were skipped inside. -/
def behindOperand (ctx : ExpressionContext) (flow : Flow) (node : NodeId) (frames : List Frame)
    (nodes : List NodeId) : Agenda :=
  match flow with
  | .proceeding => ⟨.climb ctx node, frames, nodes⟩
  | .recovering => ⟨.done .recovering, frames, node :: nodes⟩

/-- The node of an operand: its only node, or one made for it. -/
def soleNode (r : Nat) (nodes : List NodeId) : Routine NodeId := do
  match nodes with
  | [node] => return node
  | _ =>
    let t ← look
    pushNode (.rule r) nodes.reverse t.position

/-- Goes back to a frame. -/
def goBack (p : Parser) (frame : Frame) (flow : Flow) (frames : List Frame) (nodes : List NodeId) :
    Routine Agenda := do
  match frame with
  | .rule r _ outer =>
    if p.hasNode r then
      let t ← look
      let node ← pushNode (.rule r) nodes.reverse t.position
      return ⟨.done flow, frames, node :: outer⟩
    else return ⟨.done flow, frames, nodes ++ outer⟩
  | .steps rest follow => return ⟨.steps rest follow flow, frames, nodes⟩
  | .repetition r follow before =>
    let taken ← consumed
    if taken = before then
      let errors ← absorb
      return ⟨.repetition r follow, frames, errors ++ nodes⟩
    else return ⟨.repetition r follow, frames, nodes⟩
  | .operand ctx outer =>
    let node ← soleNode ctx.ops.operand nodes
    return behindOperand ctx flow node frames outer
  | .unary ctx op outer =>
    let node ← pushNode (.unary op.id) nodes.reverse op.position
    return behindOperand ctx flow node frames outer
  | .binary ctx op outer =>
    let node ← pushNode (.binary op.id) nodes.reverse op.position
    return behindOperand ctx flow node frames outer

/-- The next moment. A parse that has ended stays as it is. -/
def proceed (p : Parser) (a : Agenda) : Routine Agenda :=
  match a with
  | ⟨.rule r follow, frames, nodes⟩ => p.beginRule r follow frames nodes
  | ⟨.steps rest follow flow, frames, nodes⟩ => p.beginSteps rest follow flow frames nodes
  | ⟨.repetition r follow, frames, nodes⟩ => p.beginRound r follow frames nodes
  | ⟨.expression ctx, frames, nodes⟩ => p.beginExpression ctx frames nodes
  | ⟨.climb ctx lhs, frames, nodes⟩ => beginOperator ctx lhs frames nodes
  | ⟨.done flow, frame :: frames, nodes⟩ => p.goBack frame flow frames nodes
  | ⟨.done flow, [], nodes⟩ => return ⟨.done flow, [], nodes⟩

/-! ## Whole parses -/

/-- The first moment. -/
def embark (p : Parser) : Routine Agenda := do
  let t ← look
  let task : Task := if t.id = .eof then .done .proceeding else .rule p.grammar.start (.single .eof)
  return ⟨task, [], []⟩

/-- The moment `n` steps later. -/
def advance (p : Parser) : Nat → Agenda → Routine Agenda
  | 0, a => return a
  | n + 1, a => do p.advance n (← p.proceed a)

/-- Puts away the tokens that are left, if there are any. -/
def clear (nodes : List NodeId) : Routine (List NodeId) := do
  let t ← look
  if t.id = .eof then return nodes
  else
    let node ← trailing
    return node :: nodes

/-- The tree of a parse that has ended. -/
def conclude (nodes : List NodeId) : Routine Parse := do
  let nodes ← clear nodes
  let t ← look
  let desk ← get
  let reports ← allReports
  return ⟨desk.arena.finish nodes.reverse t.position, reports⟩

/-- The parse, if it has ended. -/
def answer (a : Agenda) : Routine (Option Parse) := do
  if a.halted then
    let q ← conclude a.nodes
    return some q
  else return none

/-- The parse, if it ends within `n` steps. -/
def routine (p : Parser) (n : Nat) : Routine (Option Parse) := do
  answer (← p.advance n (← p.embark))

/-- The parse of a stream, if it ends within `2 ^ k` steps, as a reader of the stream. -/
def reader (p : Parser) (k : Nat) : Reader (Option Parse) := do
  let played ← (p.routine (2 ^ k)).run .empty
  return played.1

end Parser

/-! ## Playing a routine -/

namespace Routine

variable {α β : Type}

/-- What comes out of a routine, and what it makes of a parse. -/
def play (x : Routine α) (st : ParseState) : α × ParseState :=
  let played := (x st.desk).read st.stream
  (played.1.1, played.1.2.on played.2)

@[simp] theorem play_pure (x : α) (st : ParseState) :
    (pure x : Routine α).play st = (x, st) := by rfl

/-- A routine behind another finds the desk and the stream that the other has left. -/
@[simp] theorem play_bind (x : Routine α) (f : α → Routine β) (st : ParseState) :
    (x >>= f).play st = (f (x.play st).1).play (x.play st).2 := by
  have hread := TokenStream.Reader.read_bind (x st.desk) (fun y => f y.1 y.2) st.stream
  exact congrArg (fun played => (played.1.1, played.1.2.on played.2)) hread

@[simp] theorem play_get (st : ParseState) : (get : Routine Desk).play st = (st.desk, st) := by rfl

@[simp] theorem play_peek (k : Nat) (st : ParseState) :
    (peek k).play st = ((st.fill k).stream.ahead k, st.fill k) := by rfl

@[simp] theorem play_look (st : ParseState) :
    look.play st = ((st.fill 0).current, st.fill 0) := by rfl

@[simp] theorem play_consumed (st : ParseState) : consumed.play st = (st.consumed, st) := by rfl

@[simp] theorem play_synchronize (sync : TokenSet) (st : ParseState) :
    (synchronize sync).play st = ((st.stream.synchronize sync []).1,
      { st with stream := (st.stream.synchronize sync []).2 }) := by rfl

@[simp] theorem play_takeLeaf (st : ParseState) : takeLeaf.play st = st.takeLeaf := by rfl

@[simp] theorem play_pushNode (kind : NodeKind) (children : List NodeId) (place : Position)
    (st : ParseState) :
    (pushNode kind children place).play st = st.pushNode kind children place := by rfl

@[simp] theorem play_pushError (tokens : List Token) (place : Position) (st : ParseState) :
    (pushError tokens place).play st = st.pushError tokens place := by rfl

@[simp] theorem play_atDamage (st : ParseState) : atDamage.play st = (st.atDamage, st) := by rfl

@[simp] theorem play_markDamage (st : ParseState) :
    markDamage.play st = ((), st.markDamage) := by rfl

@[simp] theorem play_ite (c : Prop) [Decidable c] (x y : Routine α) (st : ParseState) :
    (if c then x else y).play st = if c then x.play st else y.play st :=
  apply_ite (Routine.play · st) c x y

@[simp] theorem play_absorb (st : ParseState) : absorb.play st = st.absorb := by
  simp only [absorb, play_bind, play_look, play_ite, play_pure, play_takeLeaf, play_pushNode,
    play_markDamage]
  rfl

@[simp] theorem play_reportUnexpected (g : Grammar) (expected : TokenSet) (st : ParseState) :
    (reportUnexpected g expected st.current).play st = ((), st.reportUnexpected g expected) := by
  simp only [reportUnexpected, play_ite]
  rw [ParseState.reportUnexpected]
  split <;> rfl

/-- A report does not move the place. -/
theorem current_reportUnexpected (g : Grammar) (expected : TokenSet) (st : ParseState) :
    (st.reportUnexpected g expected).current = st.current := by
  rw [ParseState.reportUnexpected]
  split <;> rfl

theorem play_skipTo (sync : TokenSet) (st : ParseState) :
    (skipTo sync st.current.position).play st = st.skipTo sync := by rfl

@[simp] theorem play_unexpected (g : Grammar) (sync expected : TokenSet) (st : ParseState) :
    (unexpected g sync expected).play st = st.unexpected g sync expected := by
  -- the token before the report is the token behind it, so the node gets the same place
  have hskip := play_skipTo sync ((st.fill 0).reportUnexpected g expected)
  rw [current_reportUnexpected] at hskip
  simp only [unexpected, play_bind, play_look, play_atDamage, play_ite, play_absorb,
    play_reportUnexpected, play_pure, hskip]
  rfl

@[simp] theorem play_reportMissing (g : Grammar) (r : Nat) (st : ParseState) :
    (reportMissing g r st.current).play st = ((), st.reportMissing g r) := by
  have hdesk : st.desk.undefined = st.undefined := rfl
  simp only [reportMissing, play_bind, play_get, play_ite, hdesk]
  rw [ParseState.reportMissing]
  split <;> rfl

@[simp] theorem play_missingRule (g : Grammar) (r : Nat) (st : ParseState) :
    (missingRule g r).play st = st.missingRule g r := by
  simp only [missingRule, play_bind, play_look, play_reportMissing, play_pushNode, play_markDamage,
    play_pure]
  rfl

theorem play_reportTrailing (st : ParseState) :
    (reportTrailing st.current).play st = ((), if st.atDamage then st else
      st.report (.trailingInput (st.describe st.current) (.ofToken st.current))) := by
  simp only [reportTrailing, play_bind, play_atDamage, play_ite]
  split <;> rfl

@[simp] theorem play_trailing (st : ParseState) : trailing.play st = (st.fill 0).trailing := by
  simp only [trailing, play_bind, play_look, play_reportTrailing, play_synchronize, play_pushError]
  rfl

@[simp] theorem play_matchesGuard (k : Nat) (guard : List TokenId) (st : ParseState) :
    (matchesGuard k guard).play st = st.matchesGuard k guard := by
  induction guard generalizing k st with
  | nil => rfl
  | cons id guard ih =>
    simp only [matchesGuard, play_bind, play_peek, play_ite, ih, play_pure, ParseState.matchesGuard]

@[simp] theorem play_selectGuarded (as : List Alternative) (st : ParseState) :
    (selectGuarded as).play st = st.selectGuarded as := by
  induction as generalizing st with
  | nil => rfl
  | cons a rest ih =>
    simp only [selectGuarded, play_ite, ih, play_bind, play_matchesGuard, play_pure]
    rw [ParseState.selectGuarded]
    rcases st.matchesGuard 0 a.guard with ⟨_ | _, st'⟩ <;> rfl

@[simp] theorem play_reportAmbiguous (g : Grammar) (r : Nat) (st : ParseState) :
    (reportAmbiguous g r st.current).play st = ((), st.reportAmbiguous g r) := by
  have hdesk : st.desk.ambiguous = st.ambiguous := rfl
  simp only [reportAmbiguous, play_bind, play_get, play_ite, hdesk]
  rw [ParseState.reportAmbiguous]
  split <;> rfl

@[simp] theorem play_select (g : Grammar) (r : Nat) (as : List Alternative) (st : ParseState) :
    (select g r as).play st = st.select g r as := by
  simp only [select, play_bind, play_selectGuarded]
  rw [ParseState.select]
  rcases st.selectGuarded as with ⟨_ | a, st'⟩
  · simp only [play_bind, play_look]
    rcases ParseState.candidates as (st'.fill 0).current.id with _ | ⟨a, _ | ⟨b, rest⟩⟩
    · rfl
    · rfl
    · simp only [play_bind, play_reportAmbiguous, play_pure]
  · rfl

@[simp] theorem play_allReports (st : ParseState) :
    (allReports.play st).1 = st.allReports := by rfl

/-- The moment to which a routine comes. -/
def arrive (x : Routine Agenda) (st : ParseState) : Machine := (x.play st).1.on (x.play st).2

@[simp] theorem arrive_pure (a : Agenda) (st : ParseState) :
    (pure a : Routine Agenda).arrive st = a.on st := by rfl

@[simp] theorem arrive_bind (x : Routine α) (f : α → Routine Agenda) (st : ParseState) :
    (x >>= f).arrive st = (f (x.play st).1).arrive (x.play st).2 := by
  rw [arrive, play_bind, arrive]

@[simp] theorem arrive_ite (c : Prop) [Decidable c] (x y : Routine Agenda) (st : ParseState) :
    (if c then x else y).arrive st = if c then x.arrive st else y.arrive st :=
  apply_ite (Routine.arrive · st) c x y

end Routine

/-! ## Steps -/

namespace Parser

open Routine

theorem arrive_beginRule (p : Parser) (r : Nat) (follow : TokenSet) (frames : List Frame)
    (nodes : List NodeId) (st : ParseState) :
    (p.beginRule r follow frames nodes).arrive st = p.enterRule r follow frames nodes st := by
  rw [beginRule, enterRule]
  dsimp only
  rcases p.grammar.body r with _ | as | ops
  · simp only [arrive_bind, play_missingRule, arrive_pure]
    rfl
  · simp only [arrive_bind, play_consumed, play_select]
    rcases st.select p.grammar r as with ⟨_ | a, st₁⟩
    · -- no alternative: tokens are skipped, and the choice is made once more
      simp only [arrive_bind, play_atDamage, play_unexpected, play_look, play_select]
      generalize (st₁.unexpected p.grammar p.sync (p.grammar.firstOf r)) = skipped
      rcases (skipped.2.fill 0).select p.grammar r as with ⟨_ | a, st₂⟩
      · rfl
      · simp only [arrive_ite]
        split <;> rfl
    · rfl
  · simp only [arrive_bind, play_consumed, arrive_pure]
    rfl

theorem arrive_beginToken (p : Parser) (id : TokenId) (frames : List Frame)
    (nodes : List NodeId) (st : ParseState) :
    (p.beginToken id frames nodes).arrive st = p.expect id frames nodes st := by
  simp only [beginToken, arrive_bind, play_look, arrive_ite, play_takeLeaf, play_unexpected,
    arrive_pure]
  rfl

theorem arrive_beginSymbol (p : Parser) (symbol : Symbol) (follow : TokenSet) (frames : List Frame)
    (nodes : List NodeId) (st : ParseState) :
    (p.beginSymbol symbol follow frames nodes).arrive st =
      p.enterSymbol symbol follow frames nodes st := by
  cases symbol with
  | token id => exact p.arrive_beginToken id frames nodes st
  | rule r | many r => rfl
  | opt r =>
    simp only [beginSymbol, arrive_bind, play_look, arrive_ite, arrive_pure]
    rfl

theorem arrive_beginSteps (p : Parser) (steps : List Step) (follow : TokenSet) (flow : Flow)
    (frames : List Frame) (nodes : List NodeId) (st : ParseState) :
    (p.beginSteps steps follow flow frames nodes).arrive st =
      p.enterSteps steps follow flow frames nodes st := by
  match steps, flow with
  | [], flow => rfl
  | s :: rest, .proceeding => exact p.arrive_beginSymbol _ _ _ _ _
  | s :: rest, .recovering =>
    simp only [beginSteps, arrive_bind, play_look, arrive_ite, arrive_beginSymbol, arrive_pure]
    rfl

theorem arrive_beginRound (p : Parser) (r : Nat) (follow : TokenSet) (frames : List Frame)
    (nodes : List NodeId) (st : ParseState) :
    (p.beginRound r follow frames nodes).arrive st =
      p.enterRepetition r follow frames nodes st := by
  simp only [beginRound, arrive_bind, play_look, arrive_ite, play_consumed, play_unexpected,
    arrive_pure]
  rfl

theorem arrive_beginExpression (p : Parser) (ctx : ExpressionContext) (frames : List Frame)
    (nodes : List NodeId) (st : ParseState) :
    (p.beginExpression ctx frames nodes).arrive st = p.enterExpression ctx frames nodes st := by
  rw [beginExpression, enterExpression]
  simp only [arrive_bind, play_look]
  rcases ctx.ops.prefixPrecedence? (st.fill 0).current.id with _ | precedence
  · simp only [arrive_ite, arrive_bind, play_unexpected, arrive_pure]
    rfl
  · simp only [arrive_bind, play_takeLeaf, arrive_pure]
    rfl

theorem arrive_beginOperator (ctx : ExpressionContext) (lhs : NodeId) (frames : List Frame)
    (nodes : List NodeId) (st : ParseState) :
    (beginOperator ctx lhs frames nodes).arrive st = climb ctx lhs frames nodes st := by
  rw [beginOperator, climb]
  simp only [arrive_bind, play_look]
  rcases ctx.ops.binary? (st.fill 0).current.id with _ | op
  · rfl
  · simp only [arrive_ite, arrive_bind, play_takeLeaf, arrive_pure]
    rfl

theorem behindOperand_on (ctx : ExpressionContext) (flow : Flow) (node : NodeId)
    (frames : List Frame) (nodes : List NodeId) (st : ParseState) :
    (behindOperand ctx flow node frames nodes).on st =
      leaveOperand ctx flow node frames nodes st := by
  cases flow <;> rfl

theorem play_soleNode (r : Nat) (nodes : List NodeId) (st : ParseState) :
    (soleNode r nodes).play st = operandNode r nodes st := by
  match nodes with
  | [node] => rfl
  | [] => rfl
  | _ :: _ :: _ => rfl

theorem arrive_goBack (p : Parser) (frame : Frame) (flow : Flow) (frames : List Frame)
    (nodes : List NodeId) (st : ParseState) :
    (p.goBack frame flow frames nodes).arrive st = p.leave frame flow frames nodes st := by
  cases frame with
  | rule r entered outer =>
    simp only [goBack, arrive_ite, arrive_bind, play_look, play_pushNode, arrive_pure]
    rfl
  | steps rest follow => rfl
  | repetition r follow before =>
    simp only [goBack, arrive_bind, play_consumed, arrive_ite, play_absorb, arrive_pure]
    rfl
  | operand ctx outer =>
    simp only [goBack, arrive_bind, play_soleNode, arrive_pure, behindOperand_on]
    rfl
  | unary ctx op outer | binary ctx op outer =>
    simp only [goBack, arrive_bind, play_pushNode, arrive_pure, behindOperand_on]
    rfl

/-- A step at the desk is a step of the machine. -/
theorem arrive_proceed (p : Parser) (a : Agenda) (st : ParseState) :
    (p.proceed a).arrive st = p.step (a.on st) := by
  obtain ⟨task, frames, nodes⟩ := a
  cases task with
  | rule r follow => exact p.arrive_beginRule r follow frames nodes st
  | steps rest follow flow => exact p.arrive_beginSteps rest follow flow frames nodes st
  | repetition r follow => exact p.arrive_beginRound r follow frames nodes st
  | expression ctx => exact p.arrive_beginExpression ctx frames nodes st
  | climb ctx lhs => exact arrive_beginOperator ctx lhs frames nodes st
  | done flow =>
    cases frames with
    | nil => rfl
    | cons frame frames => exact p.arrive_goBack frame flow frames nodes st

/-! ## Whole parses -/

theorem arrive_advance (p : Parser) (n : Nat) (a : Agenda) (st : ParseState) :
    (p.advance n a).arrive st = p.run n (a.on st) := by
  induction n generalizing a st with
  | zero => rfl
  | succ n ih =>
    rw [advance, arrive_bind, ih, run, ← arrive_proceed, arrive]

theorem arrive_embark (p : Parser) (stream : TokenStream) :
    p.embark.arrive (.ofStream stream) = p.start stream := by rfl

/-- A second look finds what the first has found. -/
theorem play_clear (nodes : List NodeId) (st : ParseState) :
    (clear nodes).play st =
      if (st.fill 0).current.id = .eof then (nodes, st.fill 0)
      else ((st.fill 0).trailing.1 :: nodes, (st.fill 0).trailing.2) := by
  have hagain : (st.fill 0).fill 0 = st.fill 0 :=
    congrArg (fun s => { st with stream := s }) (st.stream.fill_fill 0)
  simp only [clear, play_bind, play_look, play_ite, play_trailing, play_pure, hagain]

theorem play_conclude (a : Agenda) (st : ParseState) :
    ((conclude a.nodes).play st).1 = finish (a.on st) := by
  have hagain : (st.fill 0).fill 0 = st.fill 0 :=
    congrArg (fun s => { st with stream := s }) (st.stream.fill_fill 0)
  have hstate : (a.on st).state = st := rfl
  rw [finish, hstate]
  simp only [conclude, play_bind, play_look, play_clear, play_get, play_pure, play_allReports]
  split
  · rw [hagain]
    rfl
  · rfl

theorem play_routine (p : Parser) (n : Nat) (stream : TokenStream) :
    ((p.routine n).play (.ofStream stream)).1 =
      if (p.run n (p.start stream)).halted then some (finish (p.run n (p.start stream)))
      else none := by
  have harrive := p.arrive_advance n (p.embark.play (.ofStream stream)).1
    (p.embark.play (.ofStream stream)).2
  rw [← arrive, arrive_embark] at harrive
  rw [← harrive, arrive, ← play_conclude, Agenda.halted_on]
  simp only [routine, answer, play_bind, play_ite, play_pure]
  split <;> rfl

/-- **The parser comes to its answer by asking.** -/
theorem read_reader (p : Parser) (k : Nat) (stream : TokenStream) :
    ((p.reader k).read stream).1 = p.parseWithin k stream := by
  rw [reader, TokenStream.Reader.read_bind, parseWithin_eq, ← play_routine]
  rfl

theorem advance_add (p : Parser) (n m : Nat) (a : Agenda) :
    p.advance (n + m) a = p.advance n a >>= p.advance m := by
  induction n generalizing a with
  | zero => rw [Nat.zero_add, advance, pure_bind]
  | succ n ih =>
    rw [Nat.succ_add, advance, advance, bind_assoc]
    exact congrArg (p.proceed a >>= ·) (funext ih)

/-- A parse begins with its first steps. -/
theorem routine_add (p : Parser) (n m : Nat) :
    p.routine (n + m) = (p.embark >>= p.advance n) >>= fun a => p.advance m a >>= answer := by
  rw [routine, bind_assoc]
  refine congrArg (p.embark >>= ·) (funext fun a => ?_)
  rw [advance_add, bind_assoc]

/-- **Every moment of the machine is one of a request.** -/
theorem exists_visit_of_run (p : Parser) {k n : Nat} (hn : n ≤ 2 ^ k) (stream : TokenStream) :
    ∃ v ∈ (p.reader k).visits stream, (p.run n (p.start stream)).state.stream ∈ v.moments := by
  obtain ⟨m, hm⟩ := Nat.exists_eq_add_of_le hn
  obtain ⟨first, hfirst⟩ : ∃ first, first = (p.embark >>= p.advance n) .empty := ⟨_, rfl⟩
  have hvisits : ∃ later, (p.reader k).visits stream = first.visits stream ++ later := by
    rw [reader, TokenStream.Reader.visits_bind, hm, routine_add, hfirst]
    exact ⟨_, (congrArg (· ++ _) (TokenStream.Reader.visits_bind _ _ stream)).trans
      (List.append_assoc _ _ _)⟩
  have hleft : (p.run n (p.start stream)).state.stream = (first.read stream).2 := by
    rw [hfirst, ← arrive_embark, arrive, ← arrive_advance, ← arrive_bind]
    rfl
  obtain ⟨later, hlater⟩ := hvisits
  rw [hlater, hleft]
  rcases first.read_eq_or_mem stream with hsame | ⟨v, hv, hmem⟩
  · -- nothing has changed since the look with which every parse begins
    rw [hsame]
    refine ⟨⟨stream, .peek 0⟩, List.mem_append_left _ ?_, stream.mem_moments (.peek 0)⟩
    rw [hfirst]
    exact List.mem_cons_self
  · exact ⟨v, List.mem_append_left _ hv, hmem⟩

end Parser

end FrontEnd
