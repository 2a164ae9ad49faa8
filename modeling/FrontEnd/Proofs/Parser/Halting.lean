import Mathlib.Data.Prod.Lex
import Mathlib.Order.WellFounded
import FrontEnd.Proofs.Parser.Nesting

/-!
# Bounded nesting makes a parse end

A parse that goes on for ever would at some point take no token and mark no place any more. From
there on it only goes through rules that were entered at one place, and when these are bounded, so
is the work: what a rule may cost is set by how many rules may still be entered inside it.

- `weight`: the cost of a rule by the number of rules that may be entered;
- `potential`: the cost of all that is left to be done without taking a token;
- `Parser.Move.progress`: **a step takes a token, marks the place, or lowers the potential**;
- `Parser.exists_halted`: so a parse ends whose rules are boundedly nested.
-/

namespace FrontEnd

/-! ## Costs -/

/-- What a rule may cost when so many rules may be entered, itself included, and productions have
at most `width` symbols. -/
def weight (width : Nat) : Nat → Nat
  | 0 => 0
  | budget + 1 => width * (weight width budget + 4) + weight width budget + 6

/-- What a frame may cost. A round that has taken nothing is not gone back to without a token. -/
def Frame.cost (width budget c : Nat) : Frame → Nat
  | .rule _ _ _ => 1
  | .steps rest _ => rest.length * (weight width budget + 4) + 2
  | .repetition _ _ before => if before = c then 1 else weight width budget + 3
  | .operand _ _ | .unary _ _ _ | .binary _ _ _ => 3

/-- What a task may cost. -/
def Task.cost (width budget : Nat) : Task → Nat
  | .rule _ _ => weight width budget
  | .steps rest _ _ => rest.length * (weight width budget + 4) + 1
  | .repetition _ _ => weight width budget + 2
  | .expression _ => weight width budget + 4
  | .climb _ _ => 2
  | .done _ => 0

/-- What a stack may cost when `limit` rules may be entered at this place. -/
def stackCost (width limit c : Nat) : List Frame → Nat
  | [] => 0
  | frame :: below =>
    frame.cost width (limit - enteredAt c below) c + stackCost width limit c below

/-- What a task on a stack may cost. -/
def potential (width limit c : Nat) (task : Task) (frames : List Frame) : Nat :=
  task.cost width (limit - enteredAt c frames) + stackCost width limit c frames

/-- The order in which moments come: tokens are taken, a place is marked, work is done. -/
def Machine.order (width limit : Nat) (m : Machine) : ℕ ×ₗ ℕ ×ₗ ℕ :=
  toLex (m.state.ids.length, toLex (if m.state.atDamage then 0 else 1,
    potential width limit m.state.consumed m.task m.frames))

variable {width limit n : Nat} {m m' : Machine} {st st' : ParseState} {rank : Nat → Nat}

theorem order_lt_of_taken (htakes : m.state.Takes n m'.state) (hpos : 0 < n) :
    m'.order width limit < m.order width limit := by
  refine Prod.Lex.toLex_lt_toLex.2 (.inl ?_)
  have hle := htakes.le_length
  have hids := congrArg List.length htakes.ids
  rw [List.length_drop] at hids
  dsimp only
  omega

theorem order_lt_of_marked (htakes : m.state.Takes 0 m'.state)
    (hdamage : m'.state.atDamage = true)
    (h : m.state.atDamage = true →
      potential width limit m.state.consumed m'.task m'.frames
        < potential width limit m.state.consumed m.task m.frames) :
    m'.order width limit < m.order width limit := by
  refine Prod.Lex.toLex_lt_toLex.2 (.inr ⟨?_, Prod.Lex.toLex_lt_toLex.2 ?_⟩)
  · dsimp only
    rw [htakes.ids, List.drop_zero]
  · dsimp only
    rw [htakes.consumed, Nat.add_zero]
    cases hd : m.state.atDamage with
    | false =>
      left
      simp [hdamage]
    | true =>
      right
      exact ⟨by simp [hdamage], h hd⟩

theorem order_lt_of_stays (hstays : st.Stays m'.state) (hst : m.state = st)
    (h : potential width limit st.consumed m'.task m'.frames
      < potential width limit st.consumed m.task m.frames) :
    m'.order width limit < m.order width limit := by
  subst hst
  refine Prod.Lex.toLex_lt_toLex.2 (.inr ⟨?_, Prod.Lex.toLex_lt_toLex.2 (.inr ⟨?_, ?_⟩)⟩)
  · dsimp only
    rw [hstays.ids_eq]
  · dsimp only
    rw [hstays.atDamage]
  · dsimp only
    rwa [hstays.consumed_eq]

/-! ## Costs of single steps -/

variable {c : Nat} {frames below : List Frame} {task task' : Task} {frame : Frame}

theorem potential_pop {flow : Flow}
    (h : task.cost width (limit - enteredAt c below)
      < frame.cost width (limit - enteredAt c below) c) :
    potential width limit c task below
      < potential width limit c (.done flow) (frame :: below) := by
  show task.cost _ _ + stackCost _ _ _ below < 0 + (frame.cost _ _ c + stackCost _ _ _ below)
  omega

theorem potential_push (hframe : frame.enteredAt c = false)
    (h : task'.cost width (limit - enteredAt c frames)
        + frame.cost width (limit - enteredAt c frames) c
      < task.cost width (limit - enteredAt c frames)) :
    potential width limit c task' (frame :: frames)
      < potential width limit c task frames := by
  rw [potential, potential, stackCost, enteredAt_cons, hframe, if_neg Bool.false_ne_true,
    Nat.add_zero]
  omega

/-- Entering a rule leaves one rule less to be entered inside. -/
theorem potential_enter {r : Nat} {follow : TokenSet} {nodes : List NodeId}
    (hlimit : enteredAt c frames < limit)
    (h : ∀ budget, task'.cost width budget + 1 < weight width (budget + 1)) :
    potential width limit c task' (.rule r c nodes :: frames)
      < potential width limit c (.rule r follow) frames := by
  obtain ⟨budget, hbudget⟩ : ∃ budget, limit - enteredAt c frames = budget + 1 :=
    ⟨limit - enteredAt c frames - 1, by omega⟩
  have hinside : limit - (enteredAt c frames + 1) = budget := by omega
  have hcost := h budget
  have hentered : (Frame.rule r c nodes).enteredAt c = true := beq_self_eq_true c
  rw [potential, potential, stackCost, enteredAt_cons, hentered, if_pos rfl, hinside, hbudget]
  show _ + (1 + _) < weight _ _ + _
  omega

theorem potential_keep
    (h : task'.cost width (limit - enteredAt c frames)
      < task.cost width (limit - enteredAt c frames)) :
    potential width limit c task' frames < potential width limit c task frames :=
  Nat.add_lt_add_right h _

theorem cost_steps_lt {rest : List Step} {follow : TokenSet} {flow : Flow} (budget : Nat)
    (hlen : rest.length ≤ width) :
    (Task.steps rest follow flow).cost width budget + 1 < weight width (budget + 1) := by
  have hmul := Nat.mul_le_mul_right (weight width budget + 4) hlen
  simp only [Task.cost, weight]
  omega

/-- Where a symbol of a production is left out, or begins, the production has one symbol less. -/
theorem cost_steps_cons (s : Step) (rest : List Step) (follow : TokenSet) (flow : Flow)
    (budget : Nat) :
    (Task.steps (s :: rest) follow flow).cost width budget
      = rest.length * (weight width budget + 4) + weight width budget + 5 := by
  simp only [Task.cost, List.length_cons, Nat.succ_mul]
  omega

namespace Parser

variable {p : Parser}

/-! ## Steps -/

/-- A failure takes a token, or is the first at its place, or the input has ended. -/
theorem order_lt_of_unexpected {expected : TokenSet} {errors : List NodeId}
    (hst : m.state.Stays st) (hu : st.unexpected p.grammar p.sync expected = (errors, st'))
    (htail : st'.Stays m'.state)
    (h : m.state.next = .eof →
      potential width limit m.state.consumed m'.task m'.frames
        < potential width limit m.state.consumed m.task m.frames) :
    m'.order width limit < m.order width limit := by
  obtain ⟨htakes, hdamage⟩ := takes_unexpected_of_eq hu
  have htakes' := (hst.takes htakes).stays htail
  rcases Nat.eq_zero_or_pos (st.damageLength p.sync) with hzero | hpos
  · rw [hzero] at htakes'
    refine order_lt_of_marked htakes' (htail.atDamage.trans hdamage) fun hd => h ?_
    -- A later failure would have taken a token.
    by_contra hnext
    rw [ParseState.damageLength, if_pos (hst.atDamage.trans hd),
      if_neg (by rwa [hst.next])] at hzero
    cases hzero
  · exact order_lt_of_taken htakes' hpos

/-- A symbol of a production. -/
theorem Enter.progress (hend : p.grammar.Lacks .eof) {nodes : List NodeId} {follow : TokenSet}
    {flow : Flow} {s : Step} {rest : List Step}
    (hremains : p.grammar.Remains (s :: rest)) (hst : st' = st ∨ st' = st.fill 0)
    (he : p.Enter (.steps rest follow :: frames) nodes st' (followOf s follow) s.symbol m) :
    m.order width limit
      < (⟨.steps (s :: rest) follow flow, frames, nodes, st⟩ : Machine).order width limit := by
  have hstays := stays_of_filled hst
  have hfill := hstays.trans (st'.stays_fill 0)
  have htoken : ∀ {id}, s.symbol = .token id → id ≠ .eof := hremains.id_ne hend
  -- A step costs more than the rest of its production together with what its symbol begins.
  have hsteps : ∀ task : Task,
      (∀ budget, task.cost width budget ≤ weight width budget + 2) →
      potential width limit st.consumed task (.steps rest follow :: frames)
        < potential width limit st.consumed (.steps (s :: rest) follow flow) frames := by
    intro task htask
    refine potential_push rfl ?_
    have hcost := htask (limit - enteredAt st.consumed frames)
    rw [cost_steps_cons, Frame.cost]
    omega
  generalize s.symbol = symbol at he htoken
  cases he with
  | token hid =>
    obtain ⟨htakes, -, -⟩ := takes_takeLeaf_fill hid (htoken rfl)
    exact order_lt_of_taken (hstays.takes htakes) Nat.one_pos
  | late _ hu hid =>
    obtain ⟨htakes, -, -⟩ := takes_takeLeaf_fill hid (htoken rfl)
    have hunexp := hfill.takes (takes_unexpected_of_eq hu).1
    exact order_lt_of_taken (hunexp.trans htakes) (Nat.succ_pos _)
  | absent _ hu _ =>
    exact order_lt_of_unexpected hfill hu (ParseState.stays_fill _ 0) fun _ =>
      hsteps _ fun _ => Nat.zero_le _
  | rule => exact order_lt_of_stays hstays rfl (hsteps _ fun _ => Nat.le_add_right _ _)
  | opt _ => exact order_lt_of_stays hfill rfl (hsteps _ fun _ => Nat.le_add_right _ _)
  | skip _ => exact order_lt_of_stays hfill rfl (hsteps _ fun _ => Nat.zero_le _)
  | many => exact order_lt_of_stays hstays rfl (hsteps _ fun _ => Nat.le_refl _)

/-- An operand that is done has a frame less. -/
theorem progress_leaveOperand {ctx : ExpressionContext} {flow : Flow} {node : NodeId}
    {nodes outer : List NodeId} (hstays : st.Stays st')
    (hframe : ∀ budget, frame.cost width budget st.consumed = 3) :
    (leaveOperand ctx flow node below outer st').order width limit
      < (⟨.done flow, frame :: below, nodes, st⟩ : Machine).order width limit := by
  refine order_lt_of_stays (takes_leaveOperand ctx flow node below outer hstays) rfl ?_
  rw [frames_leaveOperand]
  refine potential_pop ?_
  rw [hframe]
  cases flow with
  | proceeding => exact Nat.lt_succ_self 2
  | recovering => exact Nat.succ_pos 2

/-- A step takes a token, marks the place, or lowers the potential. -/
theorem Move.progress (hc : p.grammar.Checked) (hend : p.grammar.Lacks .eof)
    (hwidth : ∀ rest, p.grammar.Remains rest → rest.length ≤ width) (hmove : p.Move m m')
    (h : Nested p.grammar rank m) (hlimit : m.activeAt m.state.consumed ≤ limit) :
    m.halted = true ∨ m'.order width limit < m.order width limit := by
  have htask := h.belongs.task
  by_cases hhalted : m.halted = true
  · exact .inl hhalted
  right
  have hroom : ∀ r follow, m.task = .rule r follow →
      enteredAt m.state.consumed m.frames < limit := by
    intro r follow hrule
    rw [Machine.activeAt, hrule] at hlimit
    exact Nat.lt_of_succ_le (by simpa using hlimit)
  cases hmove with
  | @missing r follow frames nodes st hb =>
    obtain ⟨htakes, hdamage⟩ := st.takes_missingRule p.grammar r
    refine order_lt_of_marked htakes hdamage fun _ => potential_keep ?_
    -- The rule that is missing is one of those that may still be entered.
    obtain ⟨budget, hbudget⟩ := Nat.exists_eq_succ_of_ne_zero
      (Nat.sub_ne_zero_of_lt (hroom r follow rfl))
    rw [hbudget]
    exact Nat.succ_pos _
  | @express r follow frames nodes st ops hb =>
    refine order_lt_of_stays (.refl st) rfl (potential_enter (hroom r follow rfl) fun budget => ?_)
    simp only [Task.cost, weight]
    omega
  | @choose r follow frames nodes st st₁ as a hb hs =>
    have ha := ParseState.mem_of_choose
      ((ParseState.fst_select ..).symm.trans (congrArg Prod.fst hs))
    have hlen := hwidth _ (Grammar.remains_steps hc hb ha)
    exact order_lt_of_stays (stays_select_of_eq hs) rfl
      (potential_enter (hroom r follow rfl) fun budget => cost_steps_lt budget hlen)
  | @retry r follow frames nodes errors st st₁ st₂ st₃ as a hb hs hd hu hs₂ ha =>
    have hstays := stays_select_of_eq hs
    obtain ⟨htakes, hdamage⟩ := takes_unexpected_of_eq hu
    have hlast := (st₂.stays_fill 0).trans (stays_select_of_eq hs₂)
    have htakes' := (hstays.takes htakes).stays hlast
    -- Only the first failure at a place is tried again.
    rcases Nat.eq_zero_or_pos (st₁.damageLength p.sync) with hzero | hpos
    · rw [hzero] at htakes'
      refine order_lt_of_marked htakes' (hlast.atDamage.trans hdamage) fun hdamaged => ?_
      rw [hstays.atDamage, hdamaged] at hd
      cases hd
    · exact order_lt_of_taken htakes' hpos
  | @refuse r follow frames nodes errors st st₁ st₂ st₃ as a hb hs hu hs₂ _ =>
    refine order_lt_of_unexpected (stays_select_of_eq hs) hu
      ((ParseState.stays_fill _ 0).trans (stays_select_of_eq hs₂)) fun _ =>
        potential_enter (hroom r follow rfl) fun budget => ?_
    simp only [Task.cost, weight]
    omega
  | finish => exact order_lt_of_stays (.refl _) rfl (potential_keep (Nat.succ_pos _))
  | @pass s rest follow frames nodes st hcan =>
    refine order_lt_of_stays (st.stays_fill 0) rfl (potential_keep ?_)
    rw [cost_steps_cons, Task.cost]
    omega
  | enter hst hcan he => exact he.progress hend htask hst
  | close hn =>
    exact order_lt_of_stays (ParseState.stays_fill _ 0) rfl (potential_keep (Nat.succ_pos _))
  | round hn hf =>
    refine order_lt_of_stays (ParseState.stays_fill _ 0) rfl (potential_push rfl ?_)
    rw [Frame.cost, if_pos rfl]
    exact Nat.lt_succ_self _
  | stray hn _ _ hu =>
    exact order_lt_of_unexpected (ParseState.stays_fill _ 0) hu (.refl _) fun heq => absurd heq hn
  | sign hop =>
    have hne := htask.sign_ne hend hop
    exact order_lt_of_taken (takes_takeLeaf_fill rfl hne).1 Nat.one_pos
  | operand hop hf =>
    exact order_lt_of_stays (ParseState.stays_fill _ 0) rfl
      (potential_push rfl (Nat.lt_succ_self _))
  | lack _ _ hu =>
    exact order_lt_of_unexpected (ParseState.stays_fill _ 0) hu (.refl _) fun _ =>
      potential_keep (Nat.succ_pos _)
  | climb hop hlevel =>
    have hne := htask.link_ne hend hop
    exact order_lt_of_taken (takes_takeLeaf_fill rfl hne).1 Nat.one_pos
  | top hop =>
    exact order_lt_of_stays (ParseState.stays_fill _ 0) rfl (potential_keep (Nat.succ_pos _))
  | wrap hnode =>
    exact order_lt_of_stays ((ParseState.stays_fill _ 0).trans (ParseState.stays_pushNode ..)) rfl
      (potential_pop Nat.one_pos)
  | splice hnode => exact order_lt_of_stays (.refl _) rfl (potential_pop Nat.one_pos)
  | resume => exact order_lt_of_stays (.refl _) rfl (potential_pop (Nat.lt_succ_self _))
  | @stall r before follow flow frames nodes st hb =>
    have hnext : st.next ≠ .eof :=
      (h.rounds r follow before List.mem_cons_self).resolve_left (by rw [← hb]; exact lt_irrefl _)
    exact order_lt_of_taken (ParseState.takes_absorb hnext).1 Nat.one_pos
  | again hb =>
    refine order_lt_of_stays (.refl _) rfl (potential_pop ?_)
    rw [Frame.cost, if_neg (Ne.symm hb)]
    exact Nat.lt_succ_self _
  | leaf => exact progress_leaveOperand (stays_operandNode ..) fun _ => rfl
  | unary | binary => exact progress_leaveOperand (ParseState.stays_pushNode ..) fun _ => rfl
  | rest => exact absurd rfl hhalted

/-! ## Whole parses -/

/-- No production is longer than the longest. -/
theorem exists_width (g : Grammar) : ∃ width, ∀ rest, g.Remains rest → rest.length ≤ width := by
  let productions := g.rules.toList.flatMap fun rule => rule.body.alternatives
  refine ⟨(productions.map fun a => a.symbols.length).max?.getD 0, ?_⟩
  rintro rest ⟨r, as, a, symbols, hb, ha, hsuffix, rfl⟩
  have hmem : a ∈ productions := by
    rw [Grammar.body] at hb
    cases hrule : g.rules[r]? with
    | none =>
      rw [hrule] at hb
      cases hb
    | some rule =>
      rw [hrule] at hb
      have hbody : rule.body = .sequence as := hb
      refine List.mem_flatMap.2 ⟨rule, ?_, ?_⟩
      · exact Array.mem_toList_iff.2 (Array.mem_of_getElem? hrule)
      · rwa [hbody]
  have hlen := List.le_max?_getD_of_mem (k := 0)
    (List.mem_map_of_mem (f := fun a : Alternative => a.symbols.length) hmem)
  rw [← List.length_map (f := Step.symbol), Analysis.map_symbol_steps]
  exact Nat.le_trans hsuffix.length_le hlen

/-- A parse ends whose moments are all boundedly nested. -/
theorem exists_halted (hc : p.grammar.Checked) (hend : p.grammar.Lacks .eof)
    (hrank : p.grammar.Ranks rank) (h : ∀ n, Nested p.grammar rank (p.run n m)) :
    ∃ n, (p.run n m).halted = true := by
  obtain ⟨width, hwidth⟩ := exists_width p.grammar
  -- By induction on the order, for all moments of the parse at once.
  have hfrom : ∀ order : ℕ ×ₗ ℕ ×ₗ ℕ, ∀ n,
      (p.run n m).order width (2 * p.grammar.size) = order → ∃ k, (p.run k m).halted = true := by
    intro order
    induction order using WellFoundedLT.induction with
    | ind order ih =>
      rintro n rfl
      have hmove := step_move p (p.run n m)
      rw [← run_succ] at hmove
      rcases hmove.progress hc hend hwidth (h n) ((h n).active_le hrank) with hhalted | hlt
      · exact ⟨n, hhalted⟩
      · exact ih _ hlt (n + 1) rfl
  exact hfrom _ 0 rfl

end Parser

end FrontEnd
