import FrontEnd.Grammar.Basic
import FrontEnd.TokenStream
import FrontEnd.Tree.Basic

/-!
# The state of a parse

What a parse has done so far: the tokens it has taken, the nodes it has made, and the reports. A
token that cannot be used is reported, tokens up to one of the synchronization set are put under an
error node, and the place is remembered: **a second failure at the same place is the same damage**
and takes one token without a report.

- `ParseState.takeLeaf`, `ParseState.pushNode`: tokens and nodes;
- `ParseState.report`: a report, behind the reports of the lexer that point at or before it;
- `ParseState.unexpected`: what happens to a token that cannot be used;
- `ParseState.select`: the choice between the alternatives of a rule.
-/

namespace FrontEnd

/-- What a parse has done so far. -/
structure ParseState where
  stream : TokenStream
  arena : Arena
  /-- The reports in their final order. -/
  reports : DiagnosticLog
  /-- Reports of the lexer that have no place among the others yet. -/
  pending : List Diagnostic
  /-- The number of tokens taken when tokens were last skipped. -/
  recoveredAt : Option Nat
  /-- The rules whose ambiguity has been reported. -/
  ambiguous : List Nat
  /-- The rules whose absence has been reported. -/
  undefined : List Nat

namespace ParseState

/-- Before the first token. -/
def ofStream (stream : TokenStream) : ParseState := ⟨stream, .empty, .empty, [], none, [], []⟩

/-- Number of tokens taken. -/
def consumed (st : ParseState) : Nat := st.stream.consumed

/-- Reads until the token `k` places ahead is there. -/
def fill (st : ParseState) (k : Nat) : ParseState := { st with stream := st.stream.fill k }

/-- The next token, as far as the state has been filled. -/
def current (st : ParseState) : Token := st.stream.ahead 0

/-- Is the state at the place where tokens were last skipped? -/
def atDamage (st : ParseState) : Bool := st.recoveredAt == some st.consumed

/-- Remembers this place as one where tokens were skipped. -/
def markDamage (st : ParseState) : ParseState := { st with recoveredAt := some st.consumed }

/-- What tokens and rules are called in messages. -/
def names (g : Grammar) (st : ParseState) : Names := ⟨st.stream.lexer.table.name, g.ruleName⟩

/-! ## Tokens and nodes -/

/-- Adds a leaf for a token. -/
def pushLeaf (st : ParseState) (t : Token) : NodeId × ParseState :=
  (st.arena.nextId, { st with arena := st.arena.pushLeaf t })

/-- Takes the next token into a leaf. -/
def takeLeaf (st : ParseState) : NodeId × ParseState :=
  let (t, stream) := st.stream.consume
  { st with stream }.pushLeaf t

/-- Adds a node over children. -/
def pushNode (st : ParseState) (kind : NodeKind) (children : List NodeId) (place : Position) :
    NodeId × ParseState :=
  (st.arena.nextId, { st with arena := st.arena.pushNode kind children place })

/-- Adds leaves for tokens, and one error node over them. -/
def pushError (st : ParseState) (tokens : List Token) (place : Position) : NodeId × ParseState :=
  let first := st.arena.nextId
  let arena := tokens.foldl Arena.pushLeaf st.arena
  { st with arena }.pushNode .error (List.range' first tokens.length) place

/-! ## Reports -/

/-- How a token reads in a message: a literal by its name, other lexemes by name and text. -/
def describe (st : ParseState) (t : Token) : String :=
  let table := st.stream.lexer.table
  match t.id with
  | .eof => TokenTable.endName
  | .unknown => "`" ++ Escape.text t.text ++ "`"
  | id =>
    if (table.literal? id).isSome then table.name id
    else table.name id ++ " `" ++ Escape.text t.text ++ "`"

/-- Takes over what the lexer has reported. -/
def collect (st : ParseState) : ParseState :=
  let (found, stream) := st.stream.takeDiagnostics
  { st with stream, pending := st.pending ++ found }

/-- Adds a report behind those of the lexer that point at or before it. -/
def report (st : ParseState) (d : Diagnostic) : ParseState :=
  let st := st.collect
  let isReady (p : Diagnostic) : Bool := p.location.start.offset ≤ d.location.start.offset
  { st with
    reports := (st.reports.extend (st.pending.takeWhile isReady)).record d
    pending := st.pending.dropWhile isReady }

/-- All reports, those of the lexer that are left at the end. -/
def allReports (st : ParseState) : List Diagnostic :=
  let st := st.collect
  st.reports.toList ++ st.pending

/-! ## Recovery -/

/-- Puts the next token under an error node, unless the input has ended. -/
def absorb (st : ParseState) : List NodeId × ParseState :=
  let st := st.fill 0
  let t := st.current
  if t.id = .eof then ([], st)
  else
    let (leaf, st) := st.takeLeaf
    let (node, st) := st.pushNode .error [leaf] t.position
    ([node], st.markDamage)

/-- Reports that the next token is none of `expected`. A character that no rule matches has been
reported already. -/
def reportUnexpected (g : Grammar) (expected : TokenSet) (st : ParseState) : ParseState :=
  let t := st.current
  if t.id = .unknown then st
  else
    st.report (.unexpectedToken (expected.expectation (st.names g)) (st.describe t) (.ofToken t))

/-- Puts the tokens before the next one of `sync` under an error node. -/
def skipTo (sync : TokenSet) (st : ParseState) : NodeId × ParseState :=
  let place := st.current.position
  let (skipped, stream) := st.stream.synchronize sync []
  let (node, st) := { st with stream }.pushError skipped place
  (node, st.markDamage)

/-- The next token is none of `expected`: the nodes that stand for the damage. -/
def unexpected (g : Grammar) (sync expected : TokenSet) (st : ParseState) :
    List NodeId × ParseState :=
  let st := st.fill 0
  if st.atDamage then st.absorb
  else
    let (node, st) := (st.reportUnexpected g expected).skipTo sync
    ([node], st)

/-- A rule without productions was reached; it is reported once. -/
def missingRule (g : Grammar) (r : Nat) (st : ParseState) : NodeId × ParseState :=
  let st := st.fill 0
  let t := st.current
  let st :=
    if st.undefined.contains r then st
    else { st.report (.undefinedRule (g.ruleName r) (.ofToken t)) with
      undefined := r :: st.undefined }
  let (node, st) := st.pushNode .error [] t.position
  (node, st.markDamage)

/-- Tokens behind the end of the start rule go under an error node. -/
def trailing (st : ParseState) : NodeId × ParseState :=
  let t := st.current
  let st := if st.atDamage then st else st.report (.trailingInput (st.describe t) (.ofToken t))
  let (rest, stream) := st.stream.synchronize ∅ []
  { st with stream }.pushError rest t.position

/-! ## Choice -/

/-- Are the tokens from the `k`-th on exactly those of the guard? Nothing is read behind the first
that differs. -/
def matchesGuard (st : ParseState) (k : Nat) : List TokenId → Bool × ParseState
  | [] => (true, st)
  | id :: guard =>
    let st := st.fill k
    if (st.stream.ahead k).id = id then st.matchesGuard (k + 1) guard else (false, st)

/-- The first alternative whose guard is there. -/
def selectGuarded (st : ParseState) : List Alternative → Option Alternative × ParseState
  | [] => (none, st)
  | a :: rest =>
    if a.guard.isEmpty then st.selectGuarded rest
    else
      match st.matchesGuard 0 a.guard with
      | (true, st) => (some a, st)
      | (false, st) => st.selectGuarded rest

/-- Reports once that one token cannot tell the alternatives of a rule apart. -/
def reportAmbiguous (g : Grammar) (r : Nat) (st : ParseState) : ParseState :=
  if st.ambiguous.contains r then st
  else { st.report (.ambiguousRule (g.ruleName r) (.ofToken st.current)) with
    ambiguous := r :: st.ambiguous }

/-- The alternatives without a guard that can begin with the token. -/
def candidates (alternatives : List Alternative) (id : TokenId) : List Alternative :=
  alternatives.filter fun a => a.guard.isEmpty && a.first.contains id

/-- The alternative when the token begins none without a guard: one that can be empty, or one
inside of which the token will be reported. -/
def fallback (alternatives : List Alternative) (id : TokenId) : Option Alternative :=
  (alternatives.find? fun a => a.guard.isEmpty && a.nullable).or <|
    (alternatives.find? fun a => a.first.contains id).or <|
      match alternatives with
      | [only] => some only
      | _ => none

/-- The alternative to parse a rule with. -/
def select (g : Grammar) (r : Nat) (alternatives : List Alternative) (st : ParseState) :
    Option Alternative × ParseState :=
  match st.selectGuarded alternatives with
  | (some a, st) => (some a, st)
  | (none, st) =>
    let st := st.fill 0
    match candidates alternatives st.current.id with
    | [] => (fallback alternatives st.current.id, st)
    | [a] => (some a, st)
    | a :: _ :: _ => (some a, st.reportAmbiguous g r)

end ParseState

end FrontEnd
