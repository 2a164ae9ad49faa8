import FrontEnd.Proofs.Grammar.Lookups
import FrontEnd.Proofs.Parser.WellFormed
import FrontEnd.Proofs.Stream.Slices

/-!
# A parse finds all that it looks up

The machine looks up rules by number and what can begin them, what may come behind a symbol by its
place, nodes by id, and tokens in the text. Here it is written down once more with **lookups that
give no result where nothing is**.

- `ParseState.unexpected?`, `ParseState.select?`: operations on the state of a parse;
- `ParseState.Finds`: an operation finds what it looks up, and leaves a state that can be read on;
- `Parser.step?`: the next moment;
- `Parser.finds_step`: **from a moment that the grammar allows, with nodes that are there, a step
  finds all it looks up**.
-/

noncomputable section

namespace FrontEnd

/-! ## Operations on a state -/

namespace ParseState

/-- Reads until the token `k` places ahead is there. -/
def fill? (text : List Char) (st : ParseState) (k : Nat) : Option ParseState := do
  let stream ← st.stream.fill? text k
  some { st with stream }

/-- Takes the next token into a leaf. -/
def takeLeaf? (text : List Char) (st : ParseState) : Option (NodeId × ParseState) := do
  let (t, stream) ← st.stream.consume? text
  some ({ st with stream }.pushLeaf t)

/-- Adds a node over children that are there. -/
def pushNode? (st : ParseState) (kind : NodeKind) (children : List NodeId) (place : Position) :
    Option (NodeId × ParseState) :=
  if ∀ id ∈ children, id < st.arena.nodes.size then some (st.pushNode kind children place) else none

/-- Adds leaves for tokens, and one error node over them. -/
def pushError? (st : ParseState) (tokens : List Token) (place : Position) :
    Option (NodeId × ParseState) :=
  let arena := tokens.foldl Arena.pushLeaf st.arena
  { st with arena }.pushNode? .error (List.range' st.arena.nextId tokens.length) place

/-- Puts the next token under an error node, unless the input has ended. -/
def absorb? (text : List Char) (st : ParseState) : Option (List NodeId × ParseState) := do
  let st ← st.fill? text 0
  let t := st.current
  if t.id = .eof then some ([], st)
  else
    let (leaf, st) ← st.takeLeaf? text
    let (node, st) ← st.pushNode? .error [leaf] t.position
    some ([node], st.markDamage)

/-- Puts the tokens before the next one of `sync` under an error node. -/
def skipTo? (text : List Char) (sync : TokenSet) (st : ParseState) :
    Option (NodeId × ParseState) := do
  let (skipped, stream) ← st.stream.synchronize? text sync []
  let (node, st') ← { st with stream }.pushError? skipped st.current.position
  some (node, st'.markDamage)

/-- The next token is none of `expected`: the nodes that stand for the damage. -/
def unexpected? (text : List Char) (g : Grammar) (sync expected : TokenSet) (st : ParseState) :
    Option (List NodeId × ParseState) := do
  let st ← st.fill? text 0
  if st.atDamage then st.absorb? text
  else
    let (node, st) ← (st.reportUnexpected g expected).skipTo? text sync
    some ([node], st)

/-- A rule without productions was reached. -/
def missingRule? (text : List Char) (g : Grammar) (r : Nat) (st : ParseState) :
    Option (NodeId × ParseState) := do
  let st ← st.fill? text 0
  let (node, st) ← (st.reportMissing g r).pushNode? .error [] st.current.position
  some (node, st.markDamage)

/-- Reports tokens behind the end of the start rule, unless they belong to old damage. -/
def reportTrailing (st : ParseState) : ParseState :=
  if st.atDamage then st
  else st.report (.trailingInput (st.describe st.current) (.ofToken st.current))

/-- Tokens behind the end of the start rule go under an error node. -/
def trailing? (text : List Char) (st : ParseState) : Option (NodeId × ParseState) := do
  let st' := st.reportTrailing
  let (rest, stream) ← st'.stream.synchronize? text ∅ []
  { st' with stream }.pushError? rest st.current.position

/-- Are the tokens from the `k`-th on exactly those of the guard? -/
def matchesGuard? (text : List Char) (st : ParseState) (k : Nat) :
    List TokenId → Option (Bool × ParseState)
  | [] => some (true, st)
  | id :: guard => do
    let st ← st.fill? text k
    if (st.stream.ahead k).id = id then st.matchesGuard? text (k + 1) guard else some (false, st)

/-- The first alternative whose guard is there. -/
def selectGuarded? (text : List Char) (st : ParseState) :
    List Alternative → Option (Option Alternative × ParseState)
  | [] => some (none, st)
  | a :: rest =>
    if a.guard.isEmpty then st.selectGuarded? text rest
    else do
      match ← st.matchesGuard? text 0 a.guard with
      | (true, st) => some (some a, st)
      | (false, st) => st.selectGuarded? text rest

/-- The alternative to parse a rule with. -/
def select? (text : List Char) (g : Grammar) (r : Nat) (alternatives : List Alternative)
    (st : ParseState) : Option (Option Alternative × ParseState) := do
  match ← st.selectGuarded? text alternatives with
  | (some a, st) => some (some a, st)
  | (none, st) =>
    let st ← st.fill? text 0
    match candidates alternatives st.current.id with
    | [] => some (fallback alternatives st.current.id, st)
    | [a] => some (some a, st)
    | a :: _ :: _ => some (some a, st.reportAmbiguous g r)

/-- The state reads the text. -/
def Reading (text : List Char) (st : ParseState) : Prop := st.stream.lexer.Reading text

/-- The operation comes to `x`, with a state that reads the text. -/
structure Finds {α : Type} (text : List Char) (found : Option (α × ParseState))
    (x : α × ParseState) : Prop where
  eq : found = some x
  reading : x.2.Reading text

variable {text : List Char} {st : ParseState}

theorem Reading.report (h : st.Reading text) (d : Diagnostic) : (st.report d).Reading text :=
  ⟨h.indexed, h.within⟩

theorem Reading.fill (h : st.Reading text) (k : Nat) : (st.fill k).Reading text :=
  (TokenStream.fill?_eq h k).2

theorem Reading.fill?_eq (h : st.Reading text) (k : Nat) : st.fill? text k = some (st.fill k) := by
  rw [ParseState.fill?, (TokenStream.fill?_eq h k).1]
  rfl

theorem Reading.finds_takeLeaf (h : st.Reading text) :
    Finds text (st.takeLeaf? text) st.takeLeaf := by
  obtain ⟨hconsume, hreading⟩ := TokenStream.consume?_eq h
  refine ⟨?_, hreading⟩
  rw [takeLeaf?, hconsume]
  rfl

theorem Reading.finds_pushNode (h : st.Reading text) {children : List NodeId}
    (hchildren : ∀ id ∈ children, id < st.arena.nodes.size) (kind : NodeKind) (place : Position) :
    Finds text (st.pushNode? kind children place) (st.pushNode kind children place) :=
  ⟨if_pos hchildren, h⟩

theorem size_pushLeaves (a : Arena) (tokens : List Token) :
    (tokens.foldl Arena.pushLeaf a).nodes.size = a.nodes.size + tokens.length := by
  induction tokens generalizing a with
  | nil => rfl
  | cons t tokens ih =>
    rw [List.foldl_cons, ih, Arena.size_pushLeaf, List.length_cons]
    omega

/-- The leaves under an error node have just been made. -/
theorem Reading.finds_pushError (h : st.Reading text) (tokens : List Token) (place : Position) :
    Finds text (st.pushError? tokens place) (st.pushError tokens place) := by
  have hleaves : Reading text { st with arena := tokens.foldl Arena.pushLeaf st.arena } := h
  refine hleaves.finds_pushNode (fun id hid => ?_) .error place
  have hlt := (List.mem_range'_1.1 hid).2
  rwa [size_pushLeaves]

theorem Reading.finds_absorb (h : st.Reading text) : Finds text (st.absorb? text) st.absorb := by
  have hfill := h.fill 0
  rw [absorb?, absorb, h.fill?_eq, Option.bind_eq_bind, Option.bind_some]
  by_cases hend : (st.fill 0).current.id = .eof
  · rw [if_pos hend, if_pos hend]
    exact ⟨rfl, hfill⟩
  · rw [if_neg hend, if_neg hend]
    obtain ⟨hleaf, hreading⟩ := hfill.finds_takeLeaf
    have hlast : (st.fill 0).takeLeaf.1 < (st.fill 0).takeLeaf.2.arena.nodes.size := by
      show _ < (Arena.pushLeaf _ _).nodes.size
      rw [Arena.size_pushLeaf]
      exact Nat.lt_succ_self _
    obtain ⟨hnode, hreading⟩ := hreading.finds_pushNode (List.forall_mem_singleton.2 hlast) .error
      (st.fill 0).current.position
    rw [hleaf, Option.bind_eq_bind, Option.bind_some]
    exact ⟨congrArg (Option.bind · _) hnode, hreading⟩

theorem Reading.finds_skipTo (h : st.Reading text) (sync : TokenSet) :
    Finds text (st.skipTo? text sync) (st.skipTo sync) := by
  obtain ⟨hskip, hreading⟩ := TokenStream.synchronize?_eq h sync []
  have hskipped : Reading text { st with stream := (st.stream.synchronize sync []).2 } := hreading
  obtain ⟨hnode, hreading⟩ := hskipped.finds_pushError (st.stream.synchronize sync []).1
    st.current.position
  rw [skipTo?, hskip, Option.bind_eq_bind, Option.bind_some]
  exact ⟨congrArg (Option.bind · _) hnode, hreading⟩

theorem Reading.finds_unexpected (h : st.Reading text) (g : Grammar) (sync expected : TokenSet) :
    Finds text (st.unexpected? text g sync expected) (st.unexpected g sync expected) := by
  have hfill := h.fill 0
  rw [unexpected?, h.fill?_eq, Option.bind_eq_bind, Option.bind_some, unexpected_eq, atDamage_fill]
  by_cases hdamage : st.atDamage = true
  · rw [if_pos hdamage, if_pos hdamage]
    exact hfill.finds_absorb
  · rw [if_neg hdamage, if_neg hdamage]
    have hreport : ((st.fill 0).reportUnexpected g expected).Reading text := by
      rw [reportUnexpected]
      split
      · exact hfill
      · exact hfill.report _
    obtain ⟨hskip, hreading⟩ := hreport.finds_skipTo sync
    rw [hskip]
    exact ⟨rfl, hreading⟩

theorem Reading.finds_missingRule (h : st.Reading text) (g : Grammar) (r : Nat) :
    Finds text (st.missingRule? text g r) (st.missingRule g r) := by
  have hfill := h.fill 0
  have hreport : ((st.fill 0).reportMissing g r).Reading text := by
    rw [reportMissing]
    split
    · exact hfill
    · exact ⟨hfill.indexed, hfill.within⟩
  obtain ⟨hnode, hreading⟩ := hreport.finds_pushNode (List.forall_mem_nil _) .error
    (st.fill 0).current.position
  rw [missingRule?, h.fill?_eq, Option.bind_eq_bind, Option.bind_some]
  exact ⟨congrArg (Option.bind · _) hnode, hreading⟩

theorem trailing_eq (st : ParseState) :
    st.trailing = { st.reportTrailing with
        stream := (st.reportTrailing.stream.synchronize ∅ []).2 }.pushError
      (st.reportTrailing.stream.synchronize ∅ []).1 st.current.position := rfl

theorem Reading.finds_trailing (h : st.Reading text) :
    Finds text (st.trailing? text) st.trailing := by
  have hreport : st.reportTrailing.Reading text := by
    rw [reportTrailing]
    split
    · exact h
    · exact h.report _
  obtain ⟨hskip, hreading⟩ := TokenStream.synchronize?_eq hreport ∅ []
  rw [trailing?, trailing_eq]
  dsimp only
  rw [hskip, Option.bind_eq_bind, Option.bind_some]
  have hskipped : Reading text { st.reportTrailing with
      stream := (st.reportTrailing.stream.synchronize ∅ []).2 } := hreading
  exact hskipped.finds_pushError _ _

theorem Reading.finds_matchesGuard (h : st.Reading text) (k : Nat) (guard : List TokenId) :
    Finds text (st.matchesGuard? text k guard) (st.matchesGuard k guard) := by
  induction guard generalizing st k with
  | nil => exact ⟨rfl, h⟩
  | cons id guard ih =>
    rw [matchesGuard?, matchesGuard, h.fill?_eq, Option.bind_eq_bind, Option.bind_some]
    by_cases hid : ((st.fill k).stream.ahead k).id = id
    · rw [if_pos hid, if_pos hid]
      exact ih (h.fill k) (k + 1)
    · rw [if_neg hid, if_neg hid]
      exact ⟨rfl, h.fill k⟩

theorem Reading.finds_selectGuarded (h : st.Reading text) (as : List Alternative) :
    Finds text (st.selectGuarded? text as) (st.selectGuarded as) := by
  induction as generalizing st with
  | nil => exact ⟨rfl, h⟩
  | cons a rest ih =>
    rw [selectGuarded?, selectGuarded]
    by_cases hplain : a.guard.isEmpty = true
    · rw [if_pos hplain, if_pos hplain]
      exact ih h
    · rw [if_neg hplain, if_neg hplain]
      obtain ⟨hmatch, hreading⟩ := h.finds_matchesGuard 0 a.guard
      rw [hmatch, Option.bind_eq_bind, Option.bind_some]
      rcases hm : st.matchesGuard 0 a.guard with ⟨_ | _, st'⟩
      · rw [hm] at hreading
        exact ih hreading
      · rw [hm] at hreading
        exact ⟨rfl, hreading⟩

theorem Reading.finds_select (h : st.Reading text) (g : Grammar) (r : Nat)
    (as : List Alternative) : Finds text (st.select? text g r as) (st.select g r as) := by
  obtain ⟨hguarded, hreading⟩ := h.finds_selectGuarded as
  rw [select?, select, hguarded, Option.bind_eq_bind, Option.bind_some]
  rcases hs : st.selectGuarded as with ⟨_ | a, st'⟩
  · rw [hs] at hreading
    dsimp only
    rw [Reading.fill?_eq hreading, Option.bind_eq_bind, Option.bind_some]
    have hfill := Reading.fill hreading 0
    rcases candidates as (st'.fill 0).current.id with _ | ⟨a, _ | ⟨a', rest⟩⟩
    · exact ⟨rfl, hfill⟩
    · exact ⟨rfl, hfill⟩
    · refine ⟨rfl, ?_⟩
      show ((st'.fill 0).reportAmbiguous g r).Reading text
      rw [reportAmbiguous]
      split
      · exact hfill
      · exact ⟨hfill.indexed, hfill.within⟩
  · rw [hs] at hreading
    exact ⟨rfl, hreading⟩

theorem mem_of_select {g : Grammar} {r : Nat} {as : List Alternative} {a : Alternative}
    (h : (st.select g r as).1 = some a) : a ∈ as :=
  mem_of_choose ((fst_select ..).symm.trans h)

end ParseState

/-! ## Steps -/

namespace Parser

/-- Begins a rule. -/
def enterRule? (p : Parser) (text : List Char) (r : Nat) (follow : TokenSet) (frames : List Frame)
    (nodes : List NodeId) (st : ParseState) : Option Machine := do
  let frame := Frame.rule r st.consumed nodes
  match ← p.grammar.bodyAt? r with
  | .undefined =>
    let (node, st) ← st.missingRule? text p.grammar r
    some ⟨.done .recovering, frames, node :: nodes, st⟩
  | .expression ops =>
    some ⟨.expression ⟨r, ops, 0, follow.union ops.binaryTokens⟩, frame :: frames, [], st⟩
  | .sequence alternatives =>
    match ← st.select? text p.grammar r alternatives with
    | (some a, st) =>
      let steps ← a.steps?
      some ⟨.steps steps follow .proceeding, frame :: frames, [], st⟩
    | (none, st) =>
      let wasDamaged := st.atDamage
      let expected ← p.grammar.firstAt? r
      let (errors, st) ← st.unexpected? text p.grammar p.sync expected
      let st ← st.fill? text 0
      let id := st.current.id
      match ← st.select? text p.grammar r alternatives with
      | (some a, st) =>
        if !wasDamaged && a.first.contains id then
          let steps ← a.steps?
          some ⟨.steps steps follow .proceeding, frame :: frames, errors, st⟩
        else some ⟨.done .recovering, frame :: frames, errors, st⟩
      | (none, st) => some ⟨.done .recovering, frame :: frames, errors, st⟩

/-- Parses a token, also one on which skipping stopped. -/
def expect? (p : Parser) (text : List Char) (id : TokenId) (frames : List Frame)
    (nodes : List NodeId) (st : ParseState) : Option Machine := do
  let st ← st.fill? text 0
  if st.current.id = id then
    let (leaf, st) ← st.takeLeaf? text
    some ⟨.done .proceeding, frames, leaf :: nodes, st⟩
  else
    let (errors, st) ← st.unexpected? text p.grammar p.sync (.single id)
    let st ← st.fill? text 0
    if st.current.id = id then
      let (leaf, st) ← st.takeLeaf? text
      some ⟨.done .proceeding, frames, leaf :: (errors ++ nodes), st⟩
    else some ⟨.done .recovering, frames, errors ++ nodes, st⟩

/-- Parses a symbol behind which one of `follow` may come. -/
def enterSymbol? (p : Parser) (text : List Char) (symbol : Symbol) (follow : TokenSet)
    (frames : List Frame) (nodes : List NodeId) (st : ParseState) : Option Machine :=
  match symbol with
  | .token id => p.expect? text id frames nodes st
  | .rule r => some ⟨.rule r follow, frames, nodes, st⟩
  | .opt r => do
    let st ← st.fill? text 0
    let first ← p.grammar.firstAt? r
    if first.contains st.current.id then some ⟨.rule r follow, frames, nodes, st⟩
    else some ⟨.done .proceeding, frames, nodes, st⟩
  | .many r => some ⟨.repetition r follow, frames, nodes, st⟩

/-- Goes on with a production. -/
def enterSteps? (p : Parser) (text : List Char) (steps : List Step) (follow : TokenSet)
    (flow : Flow) (frames : List Frame) (nodes : List NodeId) (st : ParseState) :
    Option Machine :=
  match steps, flow with
  | [], flow => some ⟨.done flow, frames, nodes, st⟩
  | s :: rest, .proceeding =>
    p.enterSymbol? text s.symbol (followOf s follow) (.steps rest follow :: frames) nodes st
  | s :: rest, .recovering => do
    let st ← st.fill? text 0
    if ← p.grammar.canStartAt? s.symbol st.current.id then
      p.enterSymbol? text s.symbol (followOf s follow) (.steps rest follow :: frames) nodes st
    else some ⟨.steps rest follow .recovering, frames, nodes, st⟩

/-- Begins another round of a repetition, or ends it. -/
def enterRepetition? (p : Parser) (text : List Char) (r : Nat) (follow : TokenSet)
    (frames : List Frame) (nodes : List NodeId) (st : ParseState) : Option Machine := do
  let first ← p.grammar.firstAt? r
  let st ← st.fill? text 0
  let id := st.current.id
  if id = .eof then some ⟨.done .proceeding, frames, nodes, st⟩
  else if first.contains id then
    some ⟨.rule r (first.union follow), .repetition r follow st.consumed :: frames, nodes, st⟩
  else if follow.contains id then some ⟨.done .proceeding, frames, nodes, st⟩
  else
    let (errors, st) ← st.unexpected? text p.grammar p.sync (first.union follow)
    some ⟨.repetition r follow, frames, errors ++ nodes, st⟩

/-- Begins an expression: a prefix operator or an operand. -/
def enterExpression? (p : Parser) (text : List Char) (ctx : ExpressionContext)
    (frames : List Frame) (nodes : List NodeId) (st : ParseState) : Option Machine := do
  let st ← st.fill? text 0
  let t := st.current
  match ctx.ops.prefixPrecedence? t.id with
  | some precedence =>
    let (leaf, st) ← st.takeLeaf? text
    some ⟨.expression { ctx with level := precedence.val }, .unary ctx t nodes :: frames, [leaf],
      st⟩
  | none =>
    let first ← p.grammar.firstAt? ctx.ops.operand
    if first.contains t.id then
      some ⟨.rule ctx.ops.operand ctx.follow, .operand ctx nodes :: frames, [], st⟩
    else
      let expected ← p.grammar.firstAt? ctx.rule
      let (errors, st) ← st.unexpected? text p.grammar p.sync expected
      some ⟨.done .recovering, frames, errors ++ nodes, st⟩

/-- Goes on behind an operand: with a binary operator, or not at all. -/
def climb? (text : List Char) (ctx : ExpressionContext) (lhs : NodeId) (frames : List Frame)
    (nodes : List NodeId) (st : ParseState) : Option Machine := do
  let st ← st.fill? text 0
  let t := st.current
  match ctx.ops.binary? t.id with
  | none => some ⟨.done .proceeding, frames, lhs :: nodes, st⟩
  | some op =>
    if op.precedence.val < ctx.level then some ⟨.done .proceeding, frames, lhs :: nodes, st⟩
    else
      let (leaf, st) ← st.takeLeaf? text
      some ⟨.expression { ctx with level := op.rightLevel }, .binary ctx t nodes :: frames,
        [leaf, lhs], st⟩

/-- Finishes a rule. -/
def leaveRule? (p : Parser) (text : List Char) (r : Nat) (flow : Flow) (outer : List NodeId)
    (frames : List Frame) (nodes : List NodeId) (st : ParseState) : Option Machine :=
  if p.hasNode r then do
    let st ← st.fill? text 0
    let (node, st) ← st.pushNode? (.rule r) nodes.reverse st.current.position
    some ⟨.done flow, frames, node :: outer, st⟩
  else some ⟨.done flow, frames, nodes ++ outer, st⟩

/-- The node of an operand: its only node, or one made for it. -/
def operandNode? (text : List Char) (r : Nat) (nodes : List NodeId) (st : ParseState) :
    Option (NodeId × ParseState) :=
  match nodes with
  | [node] => some (node, st)
  | _ => do
    let st ← st.fill? text 0
    st.pushNode? (.rule r) nodes.reverse st.current.position

/-- Goes back to a frame. -/
def leave? (p : Parser) (text : List Char) (frame : Frame) (flow : Flow) (frames : List Frame)
    (nodes : List NodeId) (st : ParseState) : Option Machine :=
  match frame with
  | .rule r _ outer => p.leaveRule? text r flow outer frames nodes st
  | .steps rest follow => some ⟨.steps rest follow flow, frames, nodes, st⟩
  | .repetition r follow before =>
    if st.consumed = before then do
      let (errors, st) ← st.absorb? text
      some ⟨.repetition r follow, frames, errors ++ nodes, st⟩
    else some ⟨.repetition r follow, frames, nodes, st⟩
  | .operand ctx outer => do
    let (node, st) ← operandNode? text ctx.ops.operand nodes st
    some (leaveOperand ctx flow node frames outer st)
  | .unary ctx op outer => do
    let (node, st) ← st.pushNode? (.unary op.id) nodes.reverse op.position
    some (leaveOperand ctx flow node frames outer st)
  | .binary ctx op outer => do
    let (node, st) ← st.pushNode? (.binary op.id) nodes.reverse op.position
    some (leaveOperand ctx flow node frames outer st)

/-- The next moment. -/
def step? (p : Parser) (text : List Char) (m : Machine) : Option Machine :=
  match m with
  | ⟨.rule r follow, frames, nodes, st⟩ => p.enterRule? text r follow frames nodes st
  | ⟨.steps rest follow flow, frames, nodes, st⟩ =>
    p.enterSteps? text rest follow flow frames nodes st
  | ⟨.repetition r follow, frames, nodes, st⟩ => p.enterRepetition? text r follow frames nodes st
  | ⟨.expression ctx, frames, nodes, st⟩ => p.enterExpression? text ctx frames nodes st
  | ⟨.climb ctx lhs, frames, nodes, st⟩ => climb? text ctx lhs frames nodes st
  | ⟨.done flow, frame :: frames, nodes, st⟩ => p.leave? text frame flow frames nodes st
  | ⟨.done flow, [], nodes, st⟩ => some ⟨.done flow, [], nodes, st⟩

/-- The step comes to `m`, with a state that reads the text. -/
structure Finds (text : List Char) (found : Option Machine) (m : Machine) : Prop where
  eq : found = some m
  reading : m.state.Reading text

section Steps

variable {p : Parser} {text : List Char} {r : Nat} {follow : TokenSet} {frames : List Frame}
  {nodes : List NodeId} {st : ParseState}

theorem finds_enterRule (hc : p.grammar.Checked) (hfirst : p.grammar.first.size = p.grammar.size)
    (hr : r < p.grammar.size) (h : st.Reading text) :
    Finds text (p.enterRule? text r follow frames nodes st)
      (p.enterRule r follow frames nodes st) := by
  rw [enterRule?, enterRule, Grammar.bodyAt?_eq hr, Option.bind_eq_bind, Option.bind_some]
  dsimp only
  -- Branch by branch, each part is found, and what is found reads the text.
  cases hb : p.grammar.body r with
  | undefined =>
    obtain ⟨hmissing, hreading⟩ := h.finds_missingRule p.grammar r
    dsimp only
    rw [hmissing]
    exact ⟨rfl, hreading⟩
  | expression ops => exact ⟨rfl, h⟩
  | sequence as =>
    obtain ⟨hselect, hreading⟩ := h.finds_select p.grammar r as
    dsimp only
    rw [hselect, Option.bind_eq_bind, Option.bind_some]
    rcases hs : st.select p.grammar r as with ⟨_ | a, st₁⟩
    · rw [hs] at hreading
      obtain ⟨hu, hreading⟩ := ParseState.Reading.finds_unexpected hreading p.grammar p.sync
        (p.grammar.firstOf r)
      have hfill := hreading.fill 0
      dsimp only
      rw [Grammar.firstAt?_eq hfirst hr, Option.bind_eq_bind, Option.bind_some, hu,
        Option.bind_eq_bind, Option.bind_some]
      generalize st₁.unexpected p.grammar p.sync (p.grammar.firstOf r) = u at hreading hfill ⊢
      obtain ⟨errors, st₂⟩ := u
      obtain ⟨hselect, hagain⟩ := ParseState.Reading.finds_select hfill p.grammar r as
      dsimp only
      rw [ParseState.Reading.fill?_eq hreading, Option.bind_eq_bind, Option.bind_some, hselect,
        Option.bind_eq_bind, Option.bind_some]
      rcases hs₂ : (st₂.fill 0).select p.grammar r as with ⟨_ | a, st₃⟩
      · rw [hs₂] at hagain
        exact ⟨rfl, hagain⟩
      · rw [hs₂] at hagain
        have ha := ParseState.mem_of_select (congrArg Prod.fst hs₂)
        dsimp only
        split
        · rw [Alternative.steps?_eq hc hb ha]
          exact ⟨rfl, hagain⟩
        · exact ⟨rfl, hagain⟩
    · rw [hs] at hreading
      have ha := ParseState.mem_of_select (congrArg Prod.fst hs)
      dsimp only
      rw [Alternative.steps?_eq hc hb ha]
      exact ⟨rfl, hreading⟩

theorem finds_expect (id : TokenId) (h : st.Reading text) :
    Finds text (p.expect? text id frames nodes st) (p.expect id frames nodes st) := by
  have hfill := h.fill 0
  rw [expect?, expect, h.fill?_eq, Option.bind_eq_bind, Option.bind_some]
  dsimp only
  split
  · obtain ⟨hleaf, hreading⟩ := hfill.finds_takeLeaf
    rw [hleaf]
    exact ⟨rfl, hreading⟩
  · obtain ⟨hu, hreading⟩ := hfill.finds_unexpected p.grammar p.sync (.single id)
    rw [hu, Option.bind_eq_bind, Option.bind_some]
    generalize (st.fill 0).unexpected p.grammar p.sync (.single id) = u at hreading ⊢
    obtain ⟨errors, st₁⟩ := u
    have hfill := ParseState.Reading.fill hreading 0
    dsimp only
    rw [ParseState.Reading.fill?_eq hreading, Option.bind_eq_bind, Option.bind_some]
    split
    · obtain ⟨hleaf, hreading⟩ := ParseState.Reading.finds_takeLeaf hfill
      rw [hleaf]
      exact ⟨rfl, hreading⟩
    · exact ⟨rfl, hfill⟩

theorem finds_enterSymbol (hfirst : p.grammar.first.size = p.grammar.size) {symbol : Symbol}
    (hsymbol : ∀ r, symbol.rule? = some r → r < p.grammar.size) (h : st.Reading text) :
    Finds text (p.enterSymbol? text symbol follow frames nodes st)
      (p.enterSymbol symbol follow frames nodes st) := by
  cases symbol with
  | token id => exact finds_expect id h
  | rule r | many r => exact ⟨rfl, h⟩
  | opt r =>
    rw [enterSymbol?, enterSymbol, h.fill?_eq, Option.bind_eq_bind, Option.bind_some,
      Grammar.firstAt?_eq hfirst (hsymbol r rfl), Option.bind_eq_bind, Option.bind_some]
    split
    · exact ⟨rfl, h.fill 0⟩
    · exact ⟨rfl, h.fill 0⟩

theorem finds_enterSteps (hc : p.grammar.Checked) (hfirst : p.grammar.first.size = p.grammar.size)
    {steps : List Step} (hsteps : p.grammar.Remains steps) (flow : Flow) (h : st.Reading text) :
    Finds text (p.enterSteps? text steps follow flow frames nodes st)
      (p.enterSteps steps follow flow frames nodes st) := by
  cases steps with
  | nil => exact ⟨rfl, h⟩
  | cons s rest =>
    obtain ⟨r, as, a, hb, ha, hmem⟩ := hsteps.symbol
    have hsymbol : ∀ r, s.symbol.rule? = some r → r < p.grammar.size :=
      fun r hr => hc.rule_lt hb ha hmem hr
    cases flow with
    | proceeding => exact finds_enterSymbol hfirst hsymbol h
    | recovering =>
      rw [enterSteps?, enterSteps, h.fill?_eq, Option.bind_eq_bind, Option.bind_some,
        Grammar.canStartAt?_eq hfirst hsymbol, Option.bind_eq_bind, Option.bind_some]
      split
      · exact finds_enterSymbol hfirst hsymbol (h.fill 0)
      · exact ⟨rfl, h.fill 0⟩

theorem finds_enterRepetition (hfirst : p.grammar.first.size = p.grammar.size)
    (hr : r < p.grammar.size) (h : st.Reading text) :
    Finds text (p.enterRepetition? text r follow frames nodes st)
      (p.enterRepetition r follow frames nodes st) := by
  have hfill := h.fill 0
  rw [enterRepetition?, enterRepetition, Grammar.firstAt?_eq hfirst hr, Option.bind_eq_bind,
    Option.bind_some, h.fill?_eq, Option.bind_eq_bind, Option.bind_some]
  dsimp only
  split
  · exact ⟨rfl, hfill⟩
  split
  · exact ⟨rfl, hfill⟩
  split
  · exact ⟨rfl, hfill⟩
  · obtain ⟨hu, hreading⟩ := hfill.finds_unexpected p.grammar p.sync
      ((p.grammar.firstOf r).union follow)
    rw [hu]
    exact ⟨rfl, hreading⟩

theorem finds_enterExpression (hfirst : p.grammar.first.size = p.grammar.size)
    {ctx : ExpressionContext} (hrule : ctx.rule < p.grammar.size)
    (hoperand : ctx.ops.operand < p.grammar.size) (h : st.Reading text) :
    Finds text (p.enterExpression? text ctx frames nodes st)
      (p.enterExpression ctx frames nodes st) := by
  have hfill := h.fill 0
  rw [enterExpression?, enterExpression, h.fill?_eq, Option.bind_eq_bind, Option.bind_some]
  dsimp only
  cases ctx.ops.prefixPrecedence? (st.fill 0).current.id with
  | some precedence =>
    obtain ⟨hleaf, hreading⟩ := hfill.finds_takeLeaf
    dsimp only
    rw [hleaf]
    exact ⟨rfl, hreading⟩
  | none =>
    dsimp only
    rw [Grammar.firstAt?_eq hfirst hoperand, Option.bind_eq_bind, Option.bind_some]
    split
    · exact ⟨rfl, hfill⟩
    · obtain ⟨hu, hreading⟩ := hfill.finds_unexpected p.grammar p.sync (p.grammar.firstOf ctx.rule)
      rw [Grammar.firstAt?_eq hfirst hrule, Option.bind_eq_bind, Option.bind_some, hu]
      exact ⟨rfl, hreading⟩

theorem finds_climb (ctx : ExpressionContext) (lhs : NodeId) (h : st.Reading text) :
    Finds text (climb? text ctx lhs frames nodes st) (climb ctx lhs frames nodes st) := by
  have hfill := h.fill 0
  rw [climb?, climb, h.fill?_eq, Option.bind_eq_bind, Option.bind_some]
  dsimp only
  cases ctx.ops.binary? (st.fill 0).current.id with
  | none => exact ⟨rfl, hfill⟩
  | some op =>
    dsimp only
    split
    · exact ⟨rfl, hfill⟩
    · obtain ⟨hleaf, hreading⟩ := hfill.finds_takeLeaf
      rw [hleaf]
      exact ⟨rfl, hreading⟩

/-- Nodes that are there, in whatever order, get a parent. -/
theorem finds_parent (hnodes : ∀ id ∈ nodes, id < st.arena.nodes.size) (h : st.Reading text)
    (kind : NodeKind) (place : Position) :
    ParseState.Finds text (st.pushNode? kind nodes.reverse place)
      (st.pushNode kind nodes.reverse place) :=
  h.finds_pushNode (fun id hid => hnodes id (List.mem_reverse.1 hid)) kind place

theorem finds_leaveRule (hnodes : ∀ id ∈ nodes, id < st.arena.nodes.size) (flow : Flow)
    (outer : List NodeId) (h : st.Reading text) :
    Finds text (p.leaveRule? text r flow outer frames nodes st)
      (p.leaveRule r flow outer frames nodes st) := by
  rw [leaveRule?, leaveRule]
  split
  · have hfilled : ∀ id ∈ nodes, id < (st.fill 0).arena.nodes.size := hnodes
    obtain ⟨hnode, hreading⟩ := finds_parent hfilled (h.fill 0) (.rule r)
      (st.fill 0).current.position
    rw [h.fill?_eq, Option.bind_eq_bind, Option.bind_some, hnode]
    exact ⟨rfl, hreading⟩
  · exact ⟨rfl, h⟩

theorem finds_operandNode (hnodes : ∀ id ∈ nodes, id < st.arena.nodes.size)
    (h : st.Reading text) :
    ParseState.Finds text (operandNode? text r nodes st) (operandNode r nodes st) := by
  have hfilled : ∀ id ∈ nodes, id < (st.fill 0).arena.nodes.size := hnodes
  have hparent := finds_parent hfilled (h.fill 0) (.rule r) (st.fill 0).current.position
  rcases nodes with _ | ⟨node, _ | ⟨node', rest⟩⟩
  · rw [operandNode?, h.fill?_eq]
    · exact hparent
    · exact fun node hnode => List.cons_ne_nil node [] hnode.symm
  · exact ⟨rfl, h⟩
  · rw [operandNode?, h.fill?_eq]
    · exact hparent
    · exact fun node hnode => List.cons_ne_nil _ _ (List.cons.inj hnode).2

theorem finds_leaveOperand (ctx : ExpressionContext) (flow : Flow) {outer : List NodeId}
    {found : Option (NodeId × ParseState)} {x : NodeId × ParseState}
    (h : ParseState.Finds text found x) :
    Finds text (do
      let (node, st) ← found
      some (leaveOperand ctx flow node frames outer st))
      (leaveOperand ctx flow x.1 frames outer x.2) := by
  obtain ⟨hfound, hreading⟩ := h
  rw [hfound]
  refine ⟨rfl, ?_⟩
  cases flow with
  | proceeding => exact hreading
  | recovering => exact hreading

theorem finds_leave (frame : Frame) (flow : Flow) (hnodes : ∀ id ∈ nodes, id < st.arena.nodes.size)
    (h : st.Reading text) :
    Finds text (p.leave? text frame flow frames nodes st) (p.leave frame flow frames nodes st) := by
  cases frame with
  | rule r entered outer => exact finds_leaveRule hnodes flow outer h
  | steps rest follow => exact ⟨rfl, h⟩
  | repetition r follow before =>
    rw [leave?, leave]
    split
    · obtain ⟨habsorb, hreading⟩ := h.finds_absorb
      rw [habsorb]
      exact ⟨rfl, hreading⟩
    · exact ⟨rfl, h⟩
  | operand ctx outer => exact finds_leaveOperand ctx flow (finds_operandNode hnodes h)
  | unary ctx op outer => exact finds_leaveOperand ctx flow (finds_parent hnodes h _ _)
  | binary ctx op outer => exact finds_leaveOperand ctx flow (finds_parent hnodes h _ _)

end Steps

variable {p : Parser} {text : List Char} {m : Machine}

/-- From a moment that the grammar allows, with nodes that are there, a step finds all it looks
up. -/
theorem finds_step (hc : p.grammar.Checked) (hfirst : p.grammar.first.size = p.grammar.size)
    (hm : m.Belongs p.grammar) (hnodes : ∀ id ∈ m.nodes, id < m.state.arena.nodes.size)
    (h : m.state.Reading text) : Finds text (p.step? text m) (p.step m) := by
  obtain ⟨task, frames, nodes, st⟩ := m
  have htask := hm.task
  cases task with
  | rule r follow => exact finds_enterRule hc hfirst htask h
  | steps rest follow flow => exact finds_enterSteps hc hfirst htask flow h
  | repetition r follow => exact finds_enterRepetition hfirst (Grammar.Repeats.lt_size hc htask) h
  | expression ctx =>
    have hrule : ctx.rule < p.grammar.size := Grammar.lt_size_of_body fun hnone => by
      rw [htask.1] at hnone
      cases hnone
    exact finds_enterExpression hfirst hrule (hc.operand_lt htask.1) h
  | climb ctx lhs => exact finds_climb ctx lhs h
  | done flow =>
    cases frames with
    | nil => exact ⟨rfl, h⟩
    | cons frame frames => exact finds_leave frame flow hnodes h

end Parser

end FrontEnd

end
