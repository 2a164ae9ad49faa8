import FrontEnd.Proofs.Grammar.Checked
import FrontEnd.Proofs.Grammar.Language
import FrontEnd.Proofs.Parser.Moves

/-!
# Everything on the stack comes from the grammar

A machine is begun with a rule of the grammar and goes on with what the grammar says. So the steps
that are left are the end of a production, what is repeated is repeated there, and an expression
stands inside its rule, under operators of the same rule.

- `Grammar.Remains`: steps at the end of a production;
- `Machine.Belongs`: **the task and every frame come from the grammar**;
- `Parser.Move.belongs`, `Parser.Reaches.belongs`: so they do in every moment.
-/

namespace FrontEnd

namespace Grammar

variable {g : Grammar} {s : Step} {rest : List Step}

/-- The steps end a production of the grammar. -/
def Remains (g : Grammar) (rest : List Step) : Prop :=
  ∃ r as a symbols, g.body r = .sequence as ∧ a ∈ as ∧ symbols <:+ a.symbols ∧
    rest = Analysis.steps g.nullable g.first symbols

theorem remains_steps (hc : g.Checked) {r : Nat} {as : List Alternative} {a : Alternative}
    (hb : g.body r = .sequence as) (ha : a ∈ as) : g.Remains a.steps := by
  refine ⟨r, as, a, a.symbols, hb, ha, List.suffix_rfl, ?_⟩
  conv => lhs; rw [hc.analysed hb ha]
  rfl

theorem Remains.tail (h : g.Remains (s :: rest)) : g.Remains rest := by
  obtain ⟨r, as, a, symbols, hb, ha, hsuffix, heq⟩ := h
  cases symbols with
  | nil => cases heq
  | cons symbol symbols =>
    exact ⟨r, as, a, symbols, hb, ha, (List.suffix_cons ..).trans hsuffix, (List.cons.inj heq).2⟩

/-- A step that is left is a symbol of some production. -/
theorem Remains.symbol (h : g.Remains (s :: rest)) :
    ∃ r as a, g.body r = .sequence as ∧ a ∈ as ∧ s.symbol ∈ a.symbols := by
  obtain ⟨r, as, a, symbols, hb, ha, hsuffix, heq⟩ := h
  cases symbols with
  | nil => cases heq
  | cons symbol symbols =>
    refine ⟨r, as, a, hb, ha, hsuffix.subset ?_⟩
    rw [(List.cons.inj heq).1]
    exact List.mem_cons_self

/-- A token that the grammar lacks is not asked for. -/
theorem Remains.id_ne (h : g.Remains (s :: rest)) {t : TokenId} (hlacks : g.Lacks t) {id : TokenId}
    (hid : s.symbol = .token id) : id ≠ t := by
  rintro rfl
  obtain ⟨r, as, a, hb, ha, hmem⟩ := h.symbol
  exact hlacks.1 r as a hb ha (hid ▸ hmem)

/-- A step knows what the steps behind it can begin with. -/
theorem Remains.rest_eq (h : g.Remains (s :: rest)) :
    (s.restFirst, s.restNullable)
      = Analysis.sequenceFirst g.nullable g.first (rest.map Step.symbol) := by
  obtain ⟨r, as, a, symbols, -, -, -, heq⟩ := h
  cases symbols with
  | nil => cases heq
  | cons symbol symbols =>
    obtain ⟨rfl, rfl⟩ := List.cons.inj heq
    rw [Analysis.map_symbol_steps]

/-- The rule is repeated in some production. -/
def Repeats (g : Grammar) (r : Nat) : Prop :=
  ∃ r₀ as a, g.body r₀ = .sequence as ∧ a ∈ as ∧ .many r ∈ a.symbols

theorem Repeats.lt_size (hc : g.Checked) {r : Nat} (h : g.Repeats r) : r < g.size := by
  obtain ⟨r₀, as, a, hb, ha, hmem⟩ := h
  exact hc.rule_lt hb ha hmem rfl

/-- What is repeated cannot be empty. -/
theorem Repeats.solid (hc : g.Checked) {r : Nat} (h : g.Repeats r) : g.isNullable r = false := by
  obtain ⟨r₀, as, a, hb, ha, hmem⟩ := h
  exact hc.solid hb ha (.inr hmem)

end Grammar

/-! ## Stacks -/

/-- An expression stands directly in its rule, or under an operator of it. -/
def ExpressionContext.Fits (ctx : ExpressionContext) : List Frame → Prop
  | .rule r _ _ :: _ => ctx.rule = r ∧ ctx.level = 0
  | .unary outer _ _ :: _ | .binary outer _ _ :: _ =>
    outer.rule = ctx.rule ∧ outer.ops = ctx.ops ∧ outer.follow = ctx.follow
  | _ => False

/-- The expression is of the grammar and stands where it should. -/
def ExpressionContext.Belongs (g : Grammar) (ctx : ExpressionContext) (below : List Frame) : Prop :=
  g.body ctx.rule = .expression ctx.ops ∧ ctx.Fits below

/-- The frame is of the grammar. -/
def Frame.Belongs (g : Grammar) (below : List Frame) : Frame → Prop
  | .rule r _ _ => r < g.size
  | .steps rest _ => g.Remains rest
  | .repetition r _ _ => g.Repeats r
  | .operand ctx _ | .unary ctx _ _ | .binary ctx _ _ => ctx.Belongs g below

/-- The task is of the grammar. -/
def Task.Belongs (g : Grammar) (below : List Frame) : Task → Prop
  | .rule r _ => r < g.size
  | .steps rest _ _ => g.Remains rest
  | .repetition r _ => g.Repeats r
  | .expression ctx | .climb ctx _ => ctx.Belongs g below
  | .done _ => True

/-- Every frame is of the grammar. -/
def Belong (g : Grammar) : List Frame → Prop
  | [] => True
  | frame :: below => frame.Belongs g below ∧ Belong g below

/-- The machine is in a moment that the grammar allows. -/
structure Machine.Belongs (g : Grammar) (m : Machine) : Prop where
  task : m.task.Belongs g m.frames
  frames : Belong g m.frames

namespace Parser

variable {p : Parser} {m m' : Machine}

theorem belongs_leaveOperand {g : Grammar} {ctx : ExpressionContext} {flow : Flow} {node : NodeId}
    {frames : List Frame} {nodes : List NodeId} {st : ParseState} (hctx : ctx.Belongs g frames)
    (hframes : Belong g frames) : (leaveOperand ctx flow node frames nodes st).Belongs g := by
  cases flow with
  | proceeding => exact ⟨hctx, hframes⟩
  | recovering => exact ⟨trivial, hframes⟩

theorem Enter.belongs (hc : p.grammar.Checked) {frames : List Frame} {nodes : List NodeId}
    {st : ParseState} {follow : TokenSet} {s : Step} {rest : List Step}
    (hrest : p.grammar.Remains (s :: rest)) (hframes : Belong p.grammar frames)
    (h : p.Enter frames nodes st follow s.symbol m) : m.Belongs p.grammar := by
  obtain ⟨r, as, a, hb, ha, hmem⟩ := hrest.symbol
  generalize s.symbol = symbol at h hmem
  cases h with
  | token _ | late _ _ _ | absent _ _ _ | skip _ => exact ⟨trivial, hframes⟩
  | rule | opt _ => exact ⟨hc.rule_lt hb ha hmem rfl, hframes⟩
  | many => exact ⟨⟨r, as, a, hb, ha, hmem⟩, hframes⟩

theorem Move.belongs (hc : p.grammar.Checked) (h : p.Move m m') (hm : m.Belongs p.grammar) :
    m'.Belongs p.grammar := by
  obtain ⟨htask, hframes⟩ := hm
  cases h with
  | missing _ => exact ⟨trivial, hframes⟩
  | express hb => exact ⟨⟨hb, rfl, rfl⟩, htask, hframes⟩
  | choose hb hs =>
    have ha := ParseState.mem_of_choose
      ((ParseState.fst_select ..).symm.trans (congrArg Prod.fst hs))
    exact ⟨Grammar.remains_steps hc hb ha, htask, hframes⟩
  | retry hb _ _ _ hs₂ _ =>
    have ha := ParseState.mem_of_choose
      ((ParseState.fst_select ..).symm.trans (congrArg Prod.fst hs₂))
    exact ⟨Grammar.remains_steps hc hb ha, htask, hframes⟩
  | refuse _ _ _ _ _ => exact ⟨trivial, htask, hframes⟩
  | finish => exact ⟨trivial, hframes⟩
  | pass _ => exact ⟨htask.tail, hframes⟩
  | @enter s rest follow _ frames _ _ _ _ _ _ he =>
    have hpushed : Belong p.grammar (.steps rest follow :: frames) := ⟨htask.tail, hframes⟩
    exact he.belongs hc htask hpushed
  | close _ => exact ⟨trivial, hframes⟩
  | round _ _ => exact ⟨htask.lt_size hc, htask, hframes⟩
  | stray _ _ _ _ => exact ⟨htask, hframes⟩
  | sign _ | climb _ _ => exact ⟨⟨htask.1, rfl, rfl, rfl⟩, htask, hframes⟩
  | operand _ _ => exact ⟨hc.operand_lt htask.1, htask, hframes⟩
  | lack _ _ _ | top _ => exact ⟨trivial, hframes⟩
  | wrap _ | splice _ => exact ⟨trivial, hframes.2⟩
  | resume => exact ⟨hframes.1, hframes.2⟩
  | stall _ | again _ => exact ⟨hframes.1, hframes.2⟩
  | leaf | unary | binary => exact belongs_leaveOperand hframes.1 hframes.2
  | rest => exact ⟨trivial, hframes⟩

theorem belongs_start (hc : p.grammar.Checked) (stream : TokenStream) :
    (p.start stream).Belongs p.grammar := by
  unfold start
  dsimp only
  split
  · exact ⟨trivial, trivial⟩
  · exact ⟨hc.start_lt, trivial⟩

theorem Reaches.belongs {stream : TokenStream} (hc : p.grammar.Checked)
    (hm : p.Reaches stream m) : m.Belongs p.grammar := by
  induction hm using Reaches.induction with
  | start => exact belongs_start hc stream
  | step m _ ih => exact (step_move p m).belongs hc ih

end Parser

end FrontEnd
