import FrontEnd.Proofs.Parser.Moves
import FrontEnd.Proofs.Stream.Upcoming

/-!
# Where a token cannot be used

Four steps can meet a token that they have no use for: a token of a production that is not there, a
rule without an alternative for what comes next, an expression without an operand, and a token
between the rounds of a repetition. Each of them says what it expected instead. Everything else that
a step does is the same wherever it is done, so what is kept by that is followed past such a token
in two halves: up to it, and from behind it.

- `Mismatch`, `Parser.mismatch?`: the token that a step cannot use, and what it expected;
- `Parser.Kept`: what the other operations of a state keep;
- `Parser.Move.kept`: **what holds of a state before a step, and what holds of it behind**.
-/

namespace FrontEnd

/-- The next token is none of those that are expected. -/
structure Mismatch where
  expected : TokenSet
  /-- The state in which this is found out. -/
  state : ParseState

namespace Mismatch

/-- The token that is there instead. -/
def token (x : Mismatch) : Token := (x.state.fill 0).current

/-- Is it reported? Next to tokens that were skipped it is not, and neither is a character without a
rule. -/
def isReported (x : Mismatch) : Bool := !x.state.atDamage && x.token.id != .unknown

/-- The report about it. -/
def report (g : Grammar) (x : Mismatch) : Diagnostic :=
  .unexpectedToken (x.expected.expectation ((x.state.fill 0).names g))
    ((x.state.fill 0).describe x.token) (.ofToken x.token)

end Mismatch

namespace Parser

/-- The mismatch where a token is parsed that is not next. -/
def absent? (symbol : Symbol) (st : ParseState) : Option Mismatch :=
  match symbol with
  | .token id => if st.next = id then none else some ⟨.single id, st.fill 0⟩
  | _ => none

/-- The mismatch that a step meets. Behind tokens that were skipped a symbol is only parsed if it
can start with the next token. -/
def mismatch? (p : Parser) (m : Machine) : Option Mismatch :=
  match m.task with
  | .rule r _ =>
    match p.grammar.body r with
    | .sequence as =>
      let (a, st) := m.state.select p.grammar r as
      if a.isSome then none else some ⟨p.grammar.firstOf r, st⟩
    | _ => none
  | .steps (s :: _) _ .proceeding => absent? s.symbol m.state
  | .repetition r follow =>
    if m.state.next = .eof ∨ (p.grammar.firstOf r).contains m.state.next = true ∨
      follow.contains m.state.next = true then none
    else some ⟨(p.grammar.firstOf r).union follow, m.state.fill 0⟩
  | .expression ctx =>
    if (ctx.ops.prefixPrecedence? m.state.next).isSome = true ∨
      (p.grammar.firstOf ctx.ops.operand).contains m.state.next = true then none
    else some ⟨p.grammar.firstOf ctx.rule, m.state.fill 0⟩
  | _ => none

variable {p : Parser} {m m' : Machine} {st st₁ : ParseState} {I J : ParseState → Prop}
  {x : Mismatch} {symbol : Symbol}

theorem absent?_fill (symbol : Symbol) (st : ParseState) :
    absent? symbol (st.fill 0) = absent? symbol st := by
  cases symbol with
  | token id =>
    have hfill : (st.fill 0).fill 0 = st.fill 0 :=
      congrArg (fun s => { st with stream := s }) (st.stream.fill_fill 0)
    rw [absent?, absent?, ParseState.next_fill, hfill]
  | rule | opt | many => rfl

theorem absent?_of_canStart (h : p.grammar.canStart symbol st.next = true) :
    absent? symbol st = none := by
  cases symbol with
  | token id => exact if_pos (eq_of_beq h).symm
  | rule | opt | many => rfl

/-! ## Steps -/

/-- The predicate is kept by what a step does to a state, when it begins no rule and there is no
mismatch. -/
structure Kept (I : ParseState → Prop) : Prop where
  fill : ∀ {st}, I st → I (st.fill 0)
  takeLeaf : ∀ {st}, I st → I st.takeLeaf.2
  pushNode : ∀ {st} kind children place, I st → I (st.pushNode kind children place).2
  absorb : ∀ {st}, I st → I st.absorb.2

/-- One predicate leads to the other over a mismatch, and where there is none. -/
structure Bridges (p : Parser) (x? : Option Mismatch) (I J : ParseState → Prop) : Prop where
  none : x? = none → ∀ {st}, I st → J st
  some : ∀ x, x? = some x → I x.state → J (x.state.unexpected p.grammar p.sync x.expected).2

theorem Enter.kept {frames : List Frame} {nodes : List NodeId} {follow : TokenSet} (hI : Kept I)
    (hJ : Kept J) (hIJ : p.Bridges (absent? symbol st) I J)
    (he : p.Enter frames nodes st follow symbol m) (h : I st) : J m.state := by
  cases he with
  | token hid => exact hJ.takeLeaf (hJ.fill (hIJ.none (if_pos hid) h))
  | late hid hu =>
    have hbehind := hIJ.some _ (if_neg hid) (hI.fill h)
    rw [hu] at hbehind
    exact hJ.takeLeaf (hJ.fill hbehind)
  | absent hid hu =>
    have hbehind := hIJ.some _ (if_neg hid) (hI.fill h)
    rw [hu] at hbehind
    exact hJ.fill hbehind
  | rule | many => exact hIJ.none rfl h
  | opt | skip => exact hJ.fill (hIJ.none rfl h)

theorem state_leaveOperand (ctx : ExpressionContext) (flow : Flow) (node : NodeId)
    (frames : List Frame) (nodes : List NodeId) (st : ParseState) :
    (leaveOperand ctx flow node frames nodes st).state = st := by
  cases flow <;> rfl

/-- When no rule is begun, a step leads from what holds before a mismatch to what holds behind. -/
theorem Move.kept (hI : Kept I) (hJ : Kept J) (hIJ : p.Bridges (p.mismatch? m) I J)
    (hmove : p.Move m m') (htask : ∀ r follow, m.task ≠ .rule r follow) (h : I m.state) :
    J m'.state := by
  cases hmove with
  | missing | express | choose | retry | refuse => exact absurd rfl (htask _ _)
  | finish => exact hIJ.none rfl h
  | splice | resume | again | rest => exact hIJ.none rfl h
  | pass => exact hJ.fill (hIJ.none rfl h)
  | top => exact hJ.fill (hIJ.none rfl h)
  | @enter s rest follow flow frames nodes st st₁ m hst hc he =>
    have hfilled : I st₁ ∧ absent? s.symbol st₁ = absent? s.symbol st := by
      rcases hst with rfl | rfl
      · exact ⟨h, rfl⟩
      · exact ⟨hI.fill h, absent?_fill ..⟩
    refine he.kept hI hJ ?_ hfilled.1
    rw [hfilled.2]
    cases flow with
    | proceeding => exact hIJ
    | recovering =>
      rw [absent?_of_canStart (hc rfl)]
      exact ⟨fun _ => hIJ.none rfl, nofun⟩
  | close hn =>
    refine hJ.fill (hIJ.none (if_pos ?_) h)
    exact hn.imp_right fun hfollow => .inr hfollow.2
  | round hn hf => exact hJ.fill (hIJ.none (if_pos (.inr (.inl hf))) h)
  | stray hn hf hfollow hu =>
    have hbehind := hIJ.some _ (if_neg (by simp [hn, hf, hfollow])) (hI.fill h)
    rwa [hu] at hbehind
  | sign hop => exact hJ.takeLeaf (hJ.fill (hIJ.none (if_pos (.inl (by rw [hop]; rfl))) h))
  | operand hop hf => exact hJ.fill (hIJ.none (if_pos (.inr hf)) h)
  | lack hop hf hu =>
    have hbehind := hIJ.some _ (if_neg (by simp [hop, hf])) (hI.fill h)
    rwa [hu] at hbehind
  | climb => exact hJ.takeLeaf (hJ.fill (hIJ.none rfl h))
  | wrap => exact hJ.pushNode _ _ _ (hJ.fill (hIJ.none rfl h))
  | stall => exact hJ.absorb (hIJ.none rfl h)
  | @leaf ctx flow frames nodes outer st =>
    have hbehind : J st := hIJ.none rfl h
    rw [state_leaveOperand]
    match nodes with
    | [_] => exact hbehind
    | [] | _ :: _ :: _ => exact hJ.pushNode _ _ _ (hJ.fill hbehind)
  | unary | binary =>
    rw [state_leaveOperand]
    exact hJ.pushNode _ _ _ (hIJ.none rfl h)

end Parser

end FrontEnd
