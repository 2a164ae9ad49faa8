import FrontEnd.Proofs.Parser.Loops
import FrontEnd.Proofs.Parser.Resuming
import FrontEnd.Proofs.Parser.WellFormed
import Mathlib.Data.Nat.Find

/-!
# From a task to the moment when it is done

What a task pushes onto the stack is popped again before the task is done, and nothing below is
touched in between. So the run from a task to its end falls into the runs above each frame that is
pushed, one after the other.

- `Parser.Returns`: from a task to the first moment when nothing is left of it;
- `Parser.Returns.suffix`: **until then the stack is not shorter than it was**;
- `Parser.Returns.split`, `Parser.Returns.around`: what is done above a frame, and what is done
  behind it;
- `Machine.ErrorFree`: nothing was skipped in between;
- `Parser.Returns.proceeding`: **without an error node the task ends well**, unless it began where
  tokens had been skipped.
-/

namespace FrontEnd

/-- Is everything done that was above the frames? -/
def Machine.Returned (m : Machine) (frames : List Frame) : Prop :=
  m.frames = frames ∧ ∃ flow, m.task = .done flow

theorem Machine.halted_iff {m : Machine} :
    m.halted = true ↔ m.frames = [] ∧ ∃ flow, m.task = .done flow := by
  rw [Machine.halted, Bool.and_eq_true, List.isEmpty_iff]
  cases m.task <;> simp

namespace Parser

/-- `m'` is the first moment from `m` on, `n` steps later, when the task of `m` is done. -/
structure Returns (p : Parser) (n : Nat) (m m' : Machine) : Prop where
  run : p.run n m = m'
  returned : m'.Returned m.frames
  first : ∀ k < n, ¬ (p.run k m).Returned m.frames

variable {p : Parser} {n : Nat} {m m' : Machine} {frames : List Frame}

/-! ## The stack in between -/

/-- As long as something is left to be done above the frames, they stay where they are. -/
theorem suffix_of_not_returned (h : frames <:+ m.frames)
    (hfirst : ∀ k < n, ¬ (p.run k m).Returned frames) : frames <:+ (p.run n m).frames := by
  induction n with
  | zero => exact h
  | succ n ih =>
    have hsuffix := ih fun k hk => hfirst k (Nat.lt_succ_of_lt hk)
    have hmove := step_move p (p.run n m)
    rw [run_succ]
    by_cases hlen : frames.length ≤ (p.step (p.run n m)).frames.length
    · exact hmove.framing.suffix hsuffix hlen
    · -- Nothing was above the frames, and the topmost one has been popped.
      have hle := hsuffix.length_le
      obtain ⟨flow, hdone⟩ := hmove.done_of_pop (by omega)
      have heq : frames.length = (p.run n m).frames.length := by
        cases hmove.framing with
        | keep hkeep => rw [hkeep] at hlen; omega
        | push _ hpush _ _ => rw [hpush, List.length_cons] at hlen; omega
        | pop _ hpop => rw [hpop, List.length_cons] at hle ⊢; omega
      exact absurd ⟨(hsuffix.eq_of_length heq).symm, flow, hdone⟩ (hfirst n (Nat.lt_succ_self n))

theorem Returns.suffix (h : p.Returns n m m') {k : Nat} (hk : k ≤ n) :
    m.frames <:+ (p.run k m).frames :=
  suffix_of_not_returned List.suffix_rfl fun l hl => h.first l (Nat.lt_of_lt_of_le hl hk)

/-! ## Parts of a run -/

/-- A task that is done is left alone. -/
theorem Returns.of_done (h : p.Returns n m m') {flow : Flow} (hdone : m.task = .done flow) :
    n = 0 ∧ m' = m := by
  cases n with
  | zero => exact ⟨rfl, h.run.symm⟩
  | succ n => exact absurd ⟨rfl, flow, hdone⟩ (h.first 0 (Nat.succ_pos n))

/-- A task that is not done makes a step. -/
theorem Returns.succ (h : p.Returns n m m') (hm : ∀ flow, m.task ≠ .done flow) :
    ∃ l, n = l + 1 ∧ p.run l (p.step m) = m' ∧
      ∀ k < l, ¬ (p.run k (p.step m)).Returned m.frames := by
  cases n with
  | zero =>
    obtain ⟨-, flow, hdone⟩ := h.returned
    rw [← h.run] at hdone
    exact absurd hdone (hm flow)
  | succ l => exact ⟨l, rfl, h.run, fun k hk => h.first (k + 1) (Nat.succ_lt_succ hk)⟩

/-- A step that leaves the stack as it is. -/
theorem Returns.tail (h : p.Returns n m m') (hm : ∀ flow, m.task ≠ .done flow)
    (hframes : (p.step m).frames = m.frames) : ∃ l, n = l + 1 ∧ p.Returns l (p.step m) m' := by
  obtain ⟨l, rfl, hrun, hfirst⟩ := h.succ hm
  exact ⟨l, rfl, hrun, hframes ▸ h.returned, hframes ▸ hfirst⟩

/-- Where nothing is left to be done above a frame, the frame is popped. -/
theorem frames_step_of_done {frame : Frame} {flow : Flow} (hdone : m.task = .done flow)
    (hframes : m.frames = frame :: frames) : (p.step m).frames = frames := by
  obtain ⟨task, above, nodes, st⟩ := m
  dsimp only at hdone hframes
  subst hdone hframes
  have hmove := step_move p ⟨.done flow, frame :: frames, nodes, st⟩
  generalize p.step ⟨.done flow, frame :: frames, nodes, st⟩ = m' at hmove
  cases hmove with
  | leaf | unary | binary => exact frames_leaveOperand ..
  | _ => rfl

/-- A step that pushes a frame: what is above the frame comes to its end, and then the frame is
popped. -/
theorem Returns.split (h : p.Returns n m m') (hm : ∀ flow, m.task ≠ .done flow) {frame : Frame}
    (hframes : (p.step m).frames = frame :: m.frames) :
    ∃ i j m₁ flow, n = i + j + 2 ∧ p.Returns i (p.step m) m₁ ∧
      m₁.frames = frame :: m.frames ∧ m₁.task = .done flow ∧ p.Returns j (p.step m₁) m' := by
  classical
  obtain ⟨l, rfl, hrun, hfirst⟩ := h.succ hm
  have hdone : ∃ i, i < l ∧ (p.run i (p.step m)).Returned (frame :: m.frames) := by
    by_contra hnone
    push Not at hnone
    have hsuffix : frame :: m.frames <:+ m'.frames :=
      hrun ▸ suffix_of_not_returned (hframes ▸ List.suffix_rfl) hnone
    have hle := hsuffix.length_le
    rw [h.returned.1, List.length_cons] at hle
    omega
  obtain ⟨hi, hreturned⟩ := Nat.find_spec hdone
  have hleast := fun k hk => Nat.find_min hdone (m := k) hk
  generalize Nat.find hdone = i at hi hreturned hleast
  obtain ⟨hframes₁, flow, hdone₁⟩ := hreturned
  have hpop := frames_step_of_done (p := p) hdone₁ hframes₁
  obtain ⟨j, rfl⟩ := Nat.exists_eq_add_of_le hi
  refine ⟨i, j, p.run i (p.step m), flow, by omega, ⟨rfl, hframes ▸ ⟨hframes₁, flow, hdone₁⟩,
    fun k hk hk' => hleast k hk ⟨by omega, hframes ▸ hk'⟩⟩, hframes₁, hdone₁, ?_, ?_, ?_⟩
  · rw [← run_succ, ← run_add]
    exact hrun
  · rw [hpop]
    exact h.returned
  · intro k hk hk'
    rw [hpop, ← run_succ, ← run_add] at hk'
    exact hfirst _ (by omega) hk'

/-- A step that leaves the stack as it is, before a run. -/
theorem Returns.before (h : p.Returns n (p.step m) m') (hm : ∀ flow, m.task ≠ .done flow)
    (hframes : (p.step m).frames = m.frames) : p.Returns (n + 1) m m' := by
  refine ⟨h.run, hframes ▸ h.returned, fun k hk hk' => ?_⟩
  cases k with
  | zero =>
    obtain ⟨-, flow, hdone⟩ := hk'
    exact hm flow hdone
  | succ k => exact h.first k (Nat.lt_of_succ_lt_succ hk) (hframes ▸ hk')

/-- A step that pushes a frame, a run above the frame, and a run from there when it is popped. -/
theorem Returns.around {i j : Nat} {m₁ : Machine} {frame : Frame} (hi : p.Returns i (p.step m) m₁)
    (hj : p.Returns j (p.step m₁) m') (hm : ∀ flow, m.task ≠ .done flow)
    (hframes : (p.step m).frames = frame :: m.frames) : p.Returns (i + j + 2) m m' := by
  obtain ⟨hframes₁, flow, hdone₁⟩ := hi.returned
  have hpop := frames_step_of_done (p := p) hdone₁ (hframes₁.trans hframes)
  have hrest : ∀ l, p.run (i + l + 1) (p.step m) = p.run l (p.step m₁) := by
    intro l
    rw [show i + l + 1 = i + (l + 1) by omega, run_add, hi.run]
    rfl
  refine ⟨(hrest j).trans hj.run, hpop ▸ hj.returned, fun k hk hk' => ?_⟩
  obtain _ | k := k
  · obtain ⟨-, flow, hdone⟩ := hk'
    exact hm flow hdone
  · change (p.run k (p.step m)).Returned m.frames at hk'
    rcases Nat.lt_or_ge i k with hlt | hle
    · obtain ⟨l, rfl⟩ := Nat.exists_eq_add_of_lt hlt
      rw [hrest] at hk'
      exact hj.first l (by omega) (hpop ▸ hk')
    · -- As long as the frame is there, the stack is longer than it was.
      have hlen := (hi.suffix hle).length_le
      rw [hframes, hk'.1, List.length_cons] at hlen
      omega

/-- A task above which the stack comes to lie bare is done at some moment. -/
theorem exists_returns (h : ∃ k, (p.run k m).Returned m.frames) : ∃ n m', p.Returns n m m' := by
  classical
  exact ⟨Nat.find h, _, rfl, Nat.find_spec h, fun k hk => Nat.find_min h hk⟩

/-- In a parse that ends every task is done at some moment. -/
theorem exists_returns_of_halted {k : Nat} (h : (p.run k m).halted = true) :
    ∃ n m', p.Returns n m m' := by
  refine exists_returns (by_contra fun hnone => ?_)
  rw [not_exists] at hnone
  obtain ⟨hframes, flow, hdone⟩ := Machine.halted_iff.1 h
  have hsuffix := suffix_of_not_returned List.suffix_rfl fun l (_ : l < k) => hnone l
  rw [hframes, List.suffix_nil] at hsuffix
  exact hnone k ⟨hframes.trans hsuffix.symm, flow, hdone⟩

/-! ## Nodes -/

theorem Enter.later {nodes : List NodeId} {st : ParseState} {follow : TokenSet} {symbol : Symbol}
    (h : p.Enter frames nodes st follow symbol m) : st.arena.Later m.state.arena := by
  cases h with
  | token _ => exact (ParseState.gains_takeLeaf (st.fill 0)).later
  | @late _ _ st₁ _ hu _ =>
    have hblame := (ParseState.gains_unexpected hu).later
    exact hblame.trans (ParseState.gains_takeLeaf (st₁.fill 0)).later
  | absent _ hu _ => exact (ParseState.gains_unexpected hu).later
  | rule | many | opt _ | skip _ => exact .refl _

/-- A step changes no node and no token of a leaf. -/
theorem Move.later (h : p.Move m m') : m.state.arena.Later m'.state.arena := by
  cases h with
  | missing _ => exact (ParseState.gains_missingRule _ _ _).later
  | choose _ hs => exact (ParseState.gains_select hs).later
  | retry _ hs _ hu hs₂ _ | refuse _ hs hu hs₂ _ =>
    have hblame := (ParseState.gains_select hs).trans (ParseState.gains_unexpected hu)
    have hretry := ParseState.gains_select hs₂
    exact (hblame.trans hretry).later
  | express _ | finish | pass _ | close _ | round _ _ | operand _ _ | top _ | splice _ | resume
  | again _ | rest => exact .refl _
  | enter hst _ he =>
    rcases hst with rfl | rfl <;> exact he.later
  | stray _ _ _ hu | lack _ _ hu => exact (ParseState.gains_unexpected hu).later
  | @sign _ _ _ st _ _ | @climb _ _ _ _ st _ _ _ =>
    exact (ParseState.gains_takeLeaf (st.fill 0)).later
  | wrap _ => exact .pushNode _ _ _ _
  | @stall _ _ _ _ _ _ st _ => exact st.gains_absorb.later
  | @leaf _ flow _ _ _ _ => cases flow <;> exact (gains_operandNode _ _ _).later
  | @unary _ _ flow _ _ _ _ | @binary _ _ flow _ _ _ _ => cases flow <;> exact .pushNode _ _ _ _

theorem run_later (p : Parser) (n : Nat) (m : Machine) :
    m.state.arena.Later (p.run n m).state.arena := by
  induction n with
  | zero => exact .refl _
  | succ n ih =>
    rw [run_succ]
    exact ih.trans (step_move p _).later

end Parser

/-! ## Leaves -/

namespace Arena

variable {a a' : Arena} {row : List NodeId} {id : NodeId} {taken : List Token}

/-- The tokens on the leaves below a node, from left to right. -/
def leafTokens (a : Arena) (id : NodeId) : List Token := (a.preorder id).filterMap a.leafToken?

theorem leafTokens_eq (a : Arena) (id : NodeId) :
    a.leafTokens id
      = ((a.kinds [id]).filterMap NodeKind.token?).filterMap fun k => a.tokens[k]? := by
  rw [leafTokens, kinds, List.flatMap_singleton, List.filterMap_filterMap,
    List.filterMap_filterMap]
  refine List.filterMap_congr fun c _ => ?_
  rw [leafToken?, kind?]
  cases a.nodes[c]?.map Node.kind with
  | none => rfl
  | some kind => cases kind <;> rfl

theorem filterMap_getElem?_range (taken : List Token) :
    (List.range taken.length).filterMap (fun k => taken[k]?) = taken := by
  induction taken with
  | nil => rfl
  | cons t taken ih =>
    rw [List.length_cons, List.range_succ_eq_map, List.filterMap_cons, List.filterMap_map]
    exact congrArg (t :: ·) ih

/-- A row that has got one more tree has got it for the tokens that were taken. -/
theorem Grows.leafTokens (h : a.Grows row taken a' (row ++ [id])) (hrow : a.Complete row)
    (hlater : a.Later a') : a'.leafTokens id = taken := by
  have hleaves := (h.complete hrow).leaves
  have htokens := h.tokens
  have hsize : a'.tokens.size = a.tokens.size + taken.length := by
    rw [← Array.length_toList, htokens, List.length_append, Array.length_toList]
  rw [kinds_append, hlater.kinds hrow.lt, List.filterMap_append, hrow.leaves, hsize,
    List.range_add, List.append_cancel_left_eq] at hleaves
  have hget : (fun k => a'.tokens[k]?) ∘ (a.tokens.size + ·) = fun k => taken[k]? := by
    funext k
    rw [Function.comp_apply, ← Array.getElem?_toList, htokens, ← Array.length_toList,
      List.getElem?_append_right (Nat.le_add_right _ _), Nat.add_sub_cancel_left]
  rw [leafTokens_eq, hleaves, List.filterMap_map, hget, filterMap_getElem?_range]

end Arena

namespace Parser

variable {p : Parser} {n : Nat} {m m' : Machine} {lexer : Lexer} {window : Nat}

/-- The leaves of the node that a task puts in front are the tokens that it takes. -/
theorem Returns.leafTokens (h : p.Returns n m m') (hc : p.grammar.Checked)
    (hm : p.Reaches (.ofLexer lexer window) m) (hheld : m.task.held = []) {node : NodeId}
    (hnodes : m'.nodes = node :: m.nodes) :
    m.state.stream.upcoming.filter Token.isText
      = (m'.state.arena.leafTokens node ++ m'.state.stream.upcoming).filter Token.isText := by
  obtain ⟨hframes, flow, hdone⟩ := h.returned
  have hloose : m'.loose = m.loose ++ [node] := by
    rw [Machine.loose, Machine.loose, hframes, hnodes, hdone, hheld]
    simp [Task.held]
  obtain ⟨before, hbefore, -⟩ := (hm.effects hc).acts.feeds
  have hcomplete := hbefore.complete ⟨List.forall_mem_nil _, rfl⟩
  obtain ⟨k, rfl⟩ := hm
  obtain ⟨taken, hgrows, -, hup⟩ :=
    (run_effects hc (thriving_start hc lexer window) (Nat.le_add_right k n)).acts.feeds
  have hlater := run_later p n (p.run k (p.start (.ofLexer lexer window)))
  rw [run_add, h.run] at hgrows hup
  rw [h.run] at hlater
  change Arena.Grows _ _ _ m'.state.arena m'.loose at hgrows
  rw [hloose] at hgrows
  rw [hgrows.leafTokens hcomplete hlater]
  exact hup

end Parser

/-! ## Parts without errors -/

/-- An error node was made when so many nodes were there already. -/
def Arena.ErrorFrom (a : Arena) (size : Nat) : Prop := ∃ id, size ≤ id ∧ a.kind? id = some .error

/-- Nothing was skipped from `m` to `m'`: the task ended well, or it did not begin right behind
tokens that had been skipped, and no error node was made. -/
def Machine.ErrorFree (m m' : Machine) : Prop :=
  m'.task = .done .proceeding ∨
    m.state.atDamage = false ∧ ¬ m'.state.arena.ErrorFrom m.state.arena.nodes.size

namespace Arena.ErrorFrom

variable {a a' : Arena} {size : Nat}

theorem later (h : a.ErrorFrom size) (hlater : a.Later a') : a'.ErrorFrom size := by
  obtain ⟨id, hid, herror⟩ := h
  exact ⟨id, hid, (hlater.kind?_eq (lt_of_kind? herror)).trans herror⟩

/-- The node that was pushed last is an error node. -/
theorem pushNode (h : size ≤ a.nodes.size) (children : List NodeId) (place : Position) :
    (a.pushNode .error children place).ErrorFrom size :=
  ⟨a.nextId, h, kind?_pushNode a .error children place⟩

end Arena.ErrorFrom

namespace ParseState

variable {st st' : ParseState}

theorem errorFrom_absorb (h : st.next ≠ .eof) :
    st.absorb.2.arena.ErrorFrom st.arena.nodes.size := by
  rw [absorb_of_ne h]
  exact .pushNode (gains_takeLeaf (st.fill 0)).later.size_le _ _

/-- A failure that is not the second one at its place leaves an error node. -/
theorem errorFrom_unexpected {g : Grammar} {sync expected : TokenSet} {errors : List NodeId}
    (hu : st.unexpected g sync expected = (errors, st')) (hd : st.atDamage = false) :
    st'.arena.ErrorFrom st.arena.nodes.size := by
  have harena : ((st.fill 0).reportUnexpected g expected).arena = st.arena := by
    rw [reportUnexpected]
    split <;> rfl
  rw [unexpected_eq, hd, if_neg Bool.false_ne_true] at hu
  obtain ⟨-, rfl⟩ := Prod.mk.inj hu
  have hleaves := (Arena.Gains.of_eq harena).leaves
    (((st.fill 0).reportUnexpected g expected).stream.synchronize sync []).1
  exact .pushNode hleaves.later.size_le _ _

theorem errorFrom_missingRule (g : Grammar) (r : Nat) (st : ParseState) :
    (st.missingRule g r).2.arena.ErrorFrom st.arena.nodes.size := by
  have harena : ((st.fill 0).reportMissing g r).arena = st.arena := by
    rw [reportMissing]
    split <;> rfl
  exact .pushNode (Arena.Gains.of_eq harena).later.size_le [] (st.fill 0).current.position

end ParseState

namespace Parser

variable {p : Parser} {n : Nat} {m m' : Machine} {frames : List Frame} {st st' : ParseState}

/-- What a step does to what is remembered of failures. -/
inductive Marking (m m' : Machine) : Prop where
  | keep (hrecovered : m'.state.recoveredAt = m.state.recoveredAt)
    (hproceeds : m.task.Proceeds → m'.task.Proceeds)
  /-- A failure, with an error node unless it is the second one at its place. -/
  | mark (st : ParseState) (hdamage : st.atDamage = true) (htakes : st.consumed ≤ m'.state.consumed)
    (hrecovered : m'.state.recoveredAt = st.recoveredAt)
    (herror : m.state.atDamage = false → m'.state.arena.ErrorFrom m.state.arena.nodes.size)

theorem marking_of_stays (h : m.state.Stays m'.state) (hp : m'.task.Proceeds) : Marking m m' :=
  .keep h.recoveredAt fun _ => hp

/-- A failure, behind which nothing is taken. -/
theorem marking_of_unexpected {expected : TokenSet} {errors : List NodeId}
    (hst : m.state.Stays st) (harena : st.arena = m.state.arena)
    (hu : st.unexpected p.grammar p.sync expected = (errors, st'))
    (hst' : st'.Stays m'.state) (hlater : st'.arena.Later m'.state.arena) : Marking m m' := by
  refine .mark st' (takes_unexpected_of_eq hu).2 (Nat.le_of_eq hst'.consumed_eq.symm)
    hst'.recoveredAt fun hd => ?_
  have herror := ParseState.errorFrom_unexpected hu (hst.atDamage.trans hd)
  rw [harena] at herror
  exact herror.later hlater

theorem Enter.marking {nodes : List NodeId} {follow : TokenSet} {symbol : Symbol}
    (h : p.Enter frames nodes st follow symbol m') (hst : m.state.Stays st)
    (harena : st.arena = m.state.arena) : Marking m m' := by
  cases h with
  | token _ => exact .keep hst.recoveredAt fun _ => trivial
  | @late _ errors st₁ hid hu hid₁ =>
    have htakes := (st₁.stays_fill 0).takes (st₁.fill 0).takes_takeLeaf
    refine .mark st₁ (takes_unexpected_of_eq hu).2 ?_ rfl fun hd => ?_
    · rw [htakes.consumed]
      exact Nat.le_add_right _ _
    · have herror := ParseState.errorFrom_unexpected hu
        ((ParseState.atDamage_fill st 0).trans (hst.atDamage.trans hd))
      rw [show (st.fill 0).arena = m.state.arena from harena] at herror
      exact herror.later (ParseState.gains_takeLeaf (st₁.fill 0)).later
  | absent hid hu hid₁ =>
    exact marking_of_unexpected (hst.trans (st.stays_fill 0)) harena hu (ParseState.stays_fill _ 0)
      (.refl _)
  | rule | many => exact marking_of_stays hst trivial
  | opt _ | skip _ => exact marking_of_stays (hst.trans (st.stays_fill 0)) trivial

theorem marking_leaveOperand {ctx : ExpressionContext} {flow : Flow} {node : NodeId}
    {nodes : List NodeId} (hdone : m.task = .done flow) (hst : m.state.Stays st) :
    Marking m (leaveOperand ctx flow node frames nodes st) := by
  cases flow with
  | proceeding => exact marking_of_stays hst trivial
  | recovering =>
    refine .keep hst.recoveredAt fun hp => ?_
    rw [hdone] at hp
    exact hp

theorem Move.marking (h : p.Move m m') : Marking m m' := by
  -- The place of the damage is set only where tokens are skipped or put away, and an error node is
  -- made there.
  cases h with
  | @missing r _ _ _ st hb =>
    exact .mark _ (st.takes_missingRule p.grammar r).2 (Nat.le_refl _) rfl fun _ =>
      st.errorFrom_missingRule p.grammar r
  | express _ => exact .keep rfl fun _ => trivial
  | choose _ hs => exact marking_of_stays (stays_select_of_eq hs) trivial
  | @retry r _ _ _ _ st _ _ _ as _ _ hs _ hu hs₂ _
  | @refuse r _ _ _ _ st _ _ _ as _ _ hs hu hs₂ _ =>
    have hlook := (ParseState.stays_fill _ 0).trans (stays_select_of_eq hs₂)
    have hlater := (ParseState.gains_select hs₂).later
    have harena := (st.select_same p.grammar r as).1
    rw [hs] at harena
    exact marking_of_unexpected (stays_select_of_eq hs) harena hu hlook hlater
  | @finish _ flow _ _ _ | @resume _ _ flow _ _ _ => cases flow <;> exact .keep rfl fun hp => hp
  | pass _ => exact .keep rfl fun hp => hp
  | @enter s rest follow flow frames nodes st st₁ m' hst hc he =>
    have harena : st₁.arena = st.arena := by
      rcases hst with rfl | rfl <;> rfl
    exact he.marking (m := ⟨.steps (s :: rest) follow flow, frames, nodes, st⟩)
      (stays_of_filled hst) harena
  | close _ | round _ _ | operand _ _ | top _ =>
    exact marking_of_stays (ParseState.stays_fill _ 0) trivial
  | stray _ _ _ hu | lack _ _ hu =>
    exact marking_of_unexpected (ParseState.stays_fill _ 0) rfl hu (.refl _) (.refl _)
  | sign _ | climb _ _ | again _ => exact .keep rfl fun _ => trivial
  | wrap _ | splice _ => exact .keep rfl fun hp => hp
  | @stall _ _ _ flow _ _ st _ =>
    by_cases hend : st.next = .eof
    · refine marking_of_stays ?_ trivial
      show st.Stays st.absorb.2
      rw [ParseState.absorb_of_end hend]
      exact st.stays_fill 0
    · exact .mark _ (ParseState.takes_absorb hend).2 (Nat.le_refl _) rfl fun _ =>
        ParseState.errorFrom_absorb hend
  | leaf => exact marking_leaveOperand rfl (stays_operandNode ..)
  | unary | binary => exact marking_leaveOperand rfl (ParseState.stays_pushNode ..)
  | rest => exact .keep rfl fun hp => hp

/-- No place that is still to come is marked, at any moment of a parse. -/
theorem Reaches.markedBehind {stream : TokenStream} (hm : p.Reaches stream m) :
    m.state.MarkedBehind := by
  induction hm using Reaches.induction with
  | start =>
    have hstart : (p.start stream).state.recoveredAt = none := rfl
    exact fun v hv => nomatch hstart.symm.trans hv
  | step m _ hbehind =>
    intro v hv
    obtain ⟨k, htakes⟩ := (step_move p m).takes
    have hconsumed := htakes.consumed
    cases (step_move p m).marking with
    | keep hrecovered _ =>
      have hle := hbehind v (hrecovered ▸ hv)
      omega
    | mark st hdamage hle hrecovered _ =>
      have hv := ParseState.markedBehind_of_atDamage hdamage v (hrecovered ▸ hv)
      omega

/-- Without an error node nothing is skipped, and the task that was begun ends well. -/
theorem Returns.proceeding (h : p.Returns n m m') (hbehind : m.state.MarkedBehind)
    (hproceeds : m.task.Proceeds) (hfree : m.ErrorFree m') : m'.task = .done .proceeding := by
  obtain hdone | ⟨hdamage, hclean⟩ := hfree
  · exact hdone
  -- Nothing has been marked at the place of a moment, and tokens are taken from there on.
  have hrun : ∀ k ≤ n, (∀ v, (p.run k m).state.recoveredAt = some v →
      v < (p.run k m).state.consumed) ∧ (p.run k m).task.Proceeds := by
    intro k hk
    induction k with
    | zero =>
      rw [ParseState.atDamage, beq_eq_false_iff_ne] at hdamage
      refine ⟨fun v hv => Nat.lt_of_le_of_ne (hbehind v hv) ?_, hproceeds⟩
      rintro rfl
      exact hdamage hv
    | succ k ih =>
      obtain ⟨hpast, hgoes⟩ := ih (Nat.le_of_succ_le hk)
      have hmove := step_move p (p.run k m)
      obtain ⟨l, htakes⟩ := hmove.takes
      have hconsumed := htakes.consumed
      rw [run_succ]
      cases hmove.marking with
      | keep hrecovered hkeeps =>
        refine ⟨fun v hv => ?_, hkeeps hgoes⟩
        have hlt := hpast v (hrecovered ▸ hv)
        omega
      | mark st _ _ _ herror =>
        have hundamaged : (p.run k m).state.atDamage = false := by
          rw [ParseState.atDamage, beq_eq_false_iff_ne]
          exact fun hv => Nat.lt_irrefl _ (hpast _ hv)
        obtain ⟨id, hid, hkind⟩ := herror hundamaged
        have hmade : (p.run (k + 1) m).state.arena.ErrorFrom m.state.arena.nodes.size := by
          rw [run_succ]
          exact ⟨id, Nat.le_trans (run_later p k m).size_le hid, hkind⟩
        obtain ⟨j, rfl⟩ := Nat.exists_eq_add_of_le hk
        have hlater := run_later p j (p.run (k + 1) m)
        rw [← run_add, h.run] at hlater
        exact absurd (hmade.later hlater) hclean
  obtain ⟨-, hgoes⟩ := hrun n (Nat.le_refl n)
  obtain ⟨-, flow, hdone⟩ := h.returned
  rw [h.run, hdone] at hgoes
  cases flow with
  | proceeding => exact hdone
  | recovering => exact hgoes.elim

end Parser

end FrontEnd
