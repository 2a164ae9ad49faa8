import FrontEnd.Proofs.Parser.Passing
import FrontEnd.Proofs.Parser.Precedence

/-!
# Which way operators of one precedence group

Operators of the same precedence group to the left when the right operand is parsed at the next
higher level, and to the right when it is parsed at the level itself. There are levels up to 255
only, and the level above the highest one is cut off: **operators of precedence 255 group to the
right whatever is said of them**.

- `OperatorTree.NestsLeft`, `OperatorTree.NestsRight`: which way a tree leans;
- `OperatorTree.Climbs.nestsLeft`, `OperatorTree.Climbs.nestsRight`: what decides it;
- `Parser.Returns.nests`: which way an expression with operators of one precedence leans;
- `Parser.towering_leans_right`: three names between operators of the highest precedence.
-/

namespace FrontEnd

namespace OperatorTree

/-- The binary operators from left to right. -/
def links : OperatorTree → List BinaryOperator
  | operand _ => []
  | unary _ inner => inner.links
  | binary op left right => left.links ++ op :: right.links

/-- The prefix operators from left to right. -/
def signs : OperatorTree → List PrefixOperator
  | operand _ => []
  | unary op inner => op :: inner.signs
  | binary _ left right => left.signs ++ right.signs

/-- Every right operand is a single one. -/
def NestsLeft : OperatorTree → Prop
  | operand _ => True
  | unary _ _ => False
  | binary _ left right => left.NestsLeft ∧ ∃ node, right = operand node

/-- Every left operand is a single one. -/
def NestsRight : OperatorTree → Prop
  | operand _ => True
  | unary _ _ => False
  | binary _ left right => (∃ node, left = operand node) ∧ right.NestsRight

variable {t left right : OperatorTree} {ops : Operators} {op : BinaryOperator} {level : Nat}
  {next : TokenId} {p : Fin 256}

theorem length_operands (t : OperatorTree) : t.operands.length = t.links.length + 1 := by
  induction t with
  | operand node => rfl
  | unary op inner ih => exact ih
  | binary op left right ihl ihr =>
    simp only [operands, links, List.length_append, List.length_cons, ihl, ihr]
    omega

/-- A tree with two operators leans one way only. -/
theorem NestsLeft.not_nestsRight (h : t.NestsLeft) (hlen : 2 ≤ t.links.length) :
    ¬ t.NestsRight := by
  intro h'
  cases t with
  | operand node => exact Nat.not_succ_le_zero 1 hlen
  | unary op inner => exact h
  | binary op left right =>
    obtain ⟨-, node, rfl⟩ := h
    obtain ⟨⟨node', rfl⟩, -⟩ := h'
    exact Nat.not_succ_le_self 1 hlen

/-! ## What decides -/

theorem signs_binary (h : (binary op left right).signs = []) :
    left.signs = [] ∧ right.signs = [] :=
  List.append_eq_nil_iff.1 h

theorem links_binary {P : BinaryOperator → Prop} (h : ∀ b ∈ (binary op left right).links, P b) :
    (∀ b ∈ left.links, P b) ∧ P op ∧ ∀ b ∈ right.links, P b := by
  obtain ⟨hl, hr⟩ := List.forall_mem_append.1 h
  exact ⟨hl, List.forall_mem_cons.1 hr⟩

/-- Above the level of the operators there are only operands. -/
theorem Climbs.eq_operand (h : t.Climbs ops level next) (hsigns : t.signs = [])
    (hlinks : ∀ op ∈ t.links, op.precedence = p) (hlevel : p.val < level) :
    ∃ node, t = .operand node := by
  cases h with
  | operand node => exact ⟨node, rfl⟩
  | unary _ _ => cases hsigns
  | binary _ _ hbelow _ _ =>
    obtain ⟨-, hp, -⟩ := links_binary hlinks
    rw [hp] at hbelow
    omega

/-- What stops in front of an operator of the same level, without giving it to a right operand, is
an operand. -/
theorem Climbs.eq_operand_of_next (h : t.Climbs ops level next) (hsigns : t.signs = [])
    (hlinks : ∀ op ∈ t.links, op.precedence = p)
    (hup : ∀ op ∈ ops.binaries, op.precedence = p → op.rightLevel = p.val)
    (hop : ops.binary? next = some op) (hp : op.precedence = p) : ∃ node, t = .operand node := by
  cases h with
  | operand node => exact ⟨node, rfl⟩
  | unary _ _ => cases hsigns
  | binary _ hop' _ _ hstops =>
    obtain ⟨-, hp', -⟩ := links_binary hlinks
    have hlt := hstops op hop
    rw [hup _ (List.mem_of_find?_eq_some hop') hp', hp] at hlt
    exact absurd hlt (Nat.lt_irrefl _)

/-- Operators whose right operand is parsed at the next level group to the left. -/
theorem Climbs.nestsLeft (h : t.Climbs ops level next) (hsigns : t.signs = [])
    (hlinks : ∀ op ∈ t.links, op.precedence = p)
    (hup : ∀ op ∈ ops.binaries, op.precedence = p → op.rightLevel = p.val + 1) :
    t.NestsLeft := by
  induction h with
  | operand node level next => trivial
  | unary _ _ => cases hsigns
  | binary _ hop _ hr _ ihl _ =>
    obtain ⟨hsl, hsr⟩ := signs_binary hsigns
    obtain ⟨hll, hp, hlr⟩ := links_binary hlinks
    have hup := hup _ (List.mem_of_find?_eq_some hop) hp
    exact ⟨ihl hsl hll, hr.eq_operand hsr hlr (hup ▸ Nat.lt_succ_self p.val)⟩

/-- Operators whose right operand is parsed at their own level group to the right. -/
theorem Climbs.nestsRight (h : t.Climbs ops level next) (hsigns : t.signs = [])
    (hlinks : ∀ op ∈ t.links, op.precedence = p)
    (hup : ∀ op ∈ ops.binaries, op.precedence = p → op.rightLevel = p.val) : t.NestsRight := by
  induction h with
  | operand node level next => trivial
  | unary _ _ => cases hsigns
  | binary hl hop _ _ _ _ ihr =>
    obtain ⟨hsl, hsr⟩ := signs_binary hsigns
    obtain ⟨hll, hp, hlr⟩ := links_binary hlinks
    exact ⟨hl.eq_operand_of_next hsl hll hup hop hp, ihr hsr hlr⟩

end OperatorTree

namespace BinaryOperator

variable {op : BinaryOperator} {p : Fin 256}

theorem rightLevel_of_left (h : op.associativity = .left) (hp : op.precedence = p)
    (hroom : p.val ≠ 255) : op.rightLevel = p.val + 1 := by
  have hlt := p.isLt
  simp only [rightLevel, h, hp]
  omega

theorem rightLevel_of_left_highest (h : op.associativity = .left) (hp : op.precedence = p)
    (hhighest : p.val = 255) : op.rightLevel = p.val := by
  simp only [rightLevel, h, hp]
  omega

theorem rightLevel_of_right (h : op.associativity = .right) (hp : op.precedence = p) :
    op.rightLevel = p.val := by
  simp only [rightLevel, h, hp]

end BinaryOperator

namespace Parser

variable {p : Parser} {n : Nat} {m m' : Machine}

/-- **Operators of one precedence group as declared, except at the highest.** From any moment of a
parse where a rule of operands and operators begins, to the moment when it is done without errors:
one node has been put in front, and it is the root of a tree over the operands that were made on the
way, with the tokens that were taken as leaves. If the tree has two operators at least, all of one
precedence, and none in front of an operand, then it leans to the right when all operators of this
precedence are declared so; and when all are declared to group to the left, it leans to the left if
and only if the precedence is not 255, and at 255 to the right. -/
theorem Returns.nests {decls : List GrammarDecl} {g : Grammar}
    (hg : Grammar.ofDecls decls = .ok g) {sync : TokenSet} {lexer : Lexer} {window : Nat}
    (hm : Parser.Reaches ⟨g, sync⟩ (.ofLexer lexer window) m) {r : Nat} {follow : TokenSet}
    {ops : Operators} (htask : m.task = .rule r follow) (hb : g.body r = .expression ops)
    (h : Parser.Returns ⟨g, sync⟩ n m m') (hfree : m.ErrorFree m') :
    m'.task = .done .proceeding ∧ ∃ node tree, m'.nodes = node :: m.nodes ∧
      m'.state.arena.Shows ops tree node ∧
      tree.operands = Parser.operandsMade ⟨g, sync⟩ (m.frames.length + 1) n m ∧
      m.state.stream.upcoming.filter Token.isText
        = (m'.state.arena.leafTokens node ++ m'.state.stream.upcoming).filter Token.isText ∧
      ∀ precedence : Fin 256, tree.signs = [] → 2 ≤ tree.links.length →
        (∀ op ∈ tree.links, op.precedence = precedence) →
        ((∀ op ∈ ops.binaries, op.precedence = precedence → op.associativity = .left) →
          (tree.NestsLeft ↔ precedence.val ≠ 255) ∧ (tree.NestsRight ↔ precedence.val = 255)) ∧
        ((∀ op ∈ ops.binaries, op.precedence = precedence → op.associativity = .right) →
          tree.NestsRight ∧ ¬ tree.NestsLeft) := by
  obtain ⟨hends, node, tree, hnodes, hshows, hoperands, hclimbs, hleaves⟩ :=
    h.climbs (Grammar.checked_of_ofDecls hg) hm htask hb hfree
  refine ⟨hends, node, tree, hnodes, hshows, hoperands, hleaves, ?_⟩
  intro precedence hsigns hlen hlinks
  refine ⟨fun hleft => ?_, fun hright => ?_⟩
  · -- At the highest precedence there is no higher level for the operand to the right.
    by_cases hhighest : precedence.val = 255
    · have hnests := hclimbs.nestsRight hsigns hlinks fun op hop hp =>
        BinaryOperator.rightLevel_of_left_highest (hleft op hop hp) hp hhighest
      have hnot : ¬ tree.NestsLeft := fun hl => hl.not_nestsRight hlen hnests
      exact ⟨iff_of_false hnot (not_not_intro hhighest), iff_of_true hnests hhighest⟩
    · have hnests := hclimbs.nestsLeft hsigns hlinks fun op hop hp =>
        BinaryOperator.rightLevel_of_left (hleft op hop hp) hp hhighest
      exact ⟨iff_of_true hnests hhighest, iff_of_false (hnests.not_nestsRight hlen) hhighest⟩
  · have hnests := hclimbs.nestsRight hsigns hlinks fun op hop hp =>
      BinaryOperator.rightLevel_of_right (hright op hop hp) hp
    exact ⟨hnests, fun hl => hl.not_nestsRight hlen hnests⟩

end Parser

/-! ## Names between operators of the highest precedence -/

namespace Grammar

/-- Plus, at the highest precedence, to group to the left. -/
def toweringOps : Operators := ⟨0, [], [⟨.kind 2, 255, .left⟩]⟩

/-- Sums of names. -/
def toweringDecls : List GrammarDecl :=
  [.rule "item" [⟨[.token (.kind 0)], []⟩], .declare "sum", .defineExpression 1 toweringOps,
    .start 1]

/-- The grammar of these declarations. -/
def towering : Grammar := (GrammarDraft.ofDecls toweringDecls).finished 1

theorem ofDecls_towering : ofDecls toweringDecls = .ok towering := by
  refine GrammarDraft.build_eq_ok_iff.2 ⟨1, ?_, ?_, ?_, rfl⟩
  · decide +kernel
  · decide +kernel
  · cbv

theorem body_towering :
    towering.body 0 = .sequence
        [Analysis.alternative towering.nullable towering.first ⟨[.token (.kind 0)], []⟩] ∧
      towering.body 1 = .expression toweringOps := by
  have hrules : (GrammarDraft.ofDecls toweringDecls).rules =
      #[⟨"item", .sequence [⟨[.token (.kind 0)], []⟩], false⟩,
        ⟨"sum", .expression toweringOps, false⟩] := by decide +kernel
  rw [towering, GrammarDraft.body_finished, GrammarDraft.body_finished, hrules]
  exact ⟨rfl, rfl⟩

end Grammar

namespace Parser

/-- The parser of the sums. -/
def towering : Parser := ⟨.towering, ∅⟩

/-- Behind a name: so many times an operator and a name. -/
def summands : Nat → List TokenId
  | 0 => []
  | n + 1 => .kind 2 :: .kind 0 :: summands n

/-- Wherever the task is taken up quietly inside of an expression, in front of `ids`, it takes all
of them and ends well, and so many operands are made. -/
def Gathers (p : Parser) (depth : Nat) (task : Task) (ids : List TokenId) (count : Nat) : Prop :=
  ∀ (frames : List Frame) (nodes : List NodeId) (st : ParseState),
    (frames.dropWhile Frame.isOperator).length = depth → st.Quiet → st.ids = ids →
    ∃ n node st', p.Returns n ⟨task, frames, nodes, st⟩
      ⟨.done .proceeding, frames, node :: nodes, st'⟩ ∧ st'.Quiet ∧ st'.ids = [] ∧
        (p.operandsMade depth n ⟨task, frames, nodes, st⟩).length = count

theorem passes_name (follow : TokenSet) (ids : List TokenId) :
    towering.Passes (.rule 0 follow) (.kind 0 :: ids) ids := by
  have hb := Grammar.body_towering.1
  refine passes_of_choose hb (by simp [Analysis.alternative]) (List.length_filter_le ..)
    (ParseState.choose_singleton ..) ?_
  exact passes_cons (enters_token _ _ _ _) (passes_nil _ _ _)

variable {ctx : ExpressionContext} {depth n : Nat} {ids : List TokenId} {lhs : NodeId}

/-- Behind the last name the expression is done. -/
theorem gathers_end (hops : ctx.ops = Grammar.toweringOps) :
    towering.Gathers depth (.climb ctx lhs) [] 0 := by
  intro frames nodes st hdepth hquiet hids
  have hstep : towering.step ⟨.climb ctx lhs, frames, nodes, st⟩
      = ⟨.done .proceeding, frames, lhs :: nodes, st.fill 0⟩ := by
    show climb ctx lhs frames nodes st = _
    simp only [climb, ParseState.id_current_fill, ParseState.next, hids, hops]
    rfl
  refine ⟨1, lhs, st.fill 0, Returns.before ?_ (by simp) (by rw [hstep]), hquiet.fill 0, ?_, rfl⟩
  · rw [hstep]
    exact .of_done_task ..
  · rw [ParseState.ids_fill, hids]

/-- An operand is made of a name, and what is behind it is gathered. -/
theorem gathers_operand (ctx : ExpressionContext) (hops : ctx.ops = Grammar.toweringOps)
    (h : ∀ lhs, towering.Gathers depth (.climb ctx lhs) ids n) :
    towering.Gathers depth (.expression ctx) (.kind 0 :: ids) (n + 1) := by
  intro frames nodes st hdepth hquiet hids
  have hfirst : (towering.grammar.firstOf 0).contains (.kind 0) = true := by decide +kernel
  have hstep : towering.step ⟨.expression ctx, frames, nodes, st⟩
      = ⟨.rule 0 ctx.follow, .operand ctx nodes :: frames, [], st.fill 0⟩ := by
    show towering.enterExpression ctx frames nodes st = _
    simp only [enterExpression, ParseState.id_current_fill, ParseState.next, hids, hops]
    exact if_pos hfirst
  have hids' : (st.fill 0).ids = .kind 0 :: ids := by rw [ParseState.ids_fill, hids]
  obtain ⟨i, made, st₁, hi, hquiet₁, hids₁⟩ := passes_name ctx.follow ids
    (.operand ctx nodes :: frames) [] (st.fill 0) (hquiet.fill 0) hids'
  obtain ⟨j, node, st₂, hj, hquiet₂, hids₂, hmade⟩ :=
    h (operandNode ctx.ops.operand (made ++ []) st₁).1 frames nodes
      (operandNode ctx.ops.operand (made ++ []) st₁).2 hdepth (quiet_operandNode hquiet₁ ..)
      ((stays_operandNode ..).ids_eq.trans hids₁)
  rw [← hstep] at hi
  refine ⟨i + j + 2, node, st₂, hi.around hj (by simp) (congrArg Machine.frames hstep), hquiet₂,
    hids₂, ?_⟩
  have hoperand : Machine.operand? depth
      ⟨.done .proceeding, .operand ctx nodes :: frames, made ++ [], st₁⟩
        = some (operandNode ctx.ops.operand (made ++ []) st₁).1 := if_pos hdepth
  rw [hi.operandsMade_split depth j, hoperand,
    hi.operandsMade_nil (congrArg Machine.frames hstep) hdepth]
  exact congrArg Nat.succ hmade

/-- Each operator takes everything behind it. -/
theorem gathers_summands (n : Nat) : ∀ (ctx : ExpressionContext) (lhs : NodeId),
    ctx.ops = Grammar.toweringOps → ctx.level ≤ 255 →
      towering.Gathers depth (.climb ctx lhs) (summands n) n := by
  induction n with
  | zero => exact fun ctx lhs hops _ => gathers_end hops
  | succ n ih =>
    intro ctx lhs hops hlevel frames nodes st hdepth hquiet hids
    have hstep : towering.step ⟨.climb ctx lhs, frames, nodes, st⟩
        = ⟨.expression { ctx with level := 255 }, .binary ctx (st.fill 0).current nodes :: frames,
          [(st.fill 0).takeLeaf.1, lhs], (st.fill 0).takeLeaf.2⟩ := by
      show climb ctx lhs frames nodes st = _
      have hop : ctx.ops.binary? (st.fill 0).current.id = some ⟨.kind 2, 255, .left⟩ := by
        rw [ParseState.id_current_fill, ParseState.next, hids, hops]
        rfl
      simp only [climb, hop]
      exact if_neg (Nat.not_lt.2 hlevel)
    obtain ⟨hquiet₁, hids₁⟩ := quiet_takeLeaf hquiet hids
    -- The right operand begins with a name, and has all operators that are left.
    obtain ⟨i, right, st₁, hi, hquiet₂, hids₂, hmade⟩ :=
      gathers_operand { ctx with level := 255 } hops
        (fun lhs => ih { ctx with level := 255 } lhs hops (Nat.le_refl 255))
        (.binary ctx (st.fill 0).current nodes :: frames) [(st.fill 0).takeLeaf.1, lhs]
        (st.fill 0).takeLeaf.2 hdepth hquiet₁ hids₁
    obtain ⟨j, node, st₂, hj, hquiet₃, hids₃, hmade'⟩ := gathers_end hops frames nodes
      (st₁.pushNode (.binary (st.fill 0).current.id) [lhs, (st.fill 0).takeLeaf.1, right]
        (st.fill 0).current.position).2 hdepth (hquiet₂.pushNode (by simp) _ _)
      ((ParseState.stays_pushNode ..).ids_eq.trans hids₂)
    rw [← hstep] at hi hmade
    refine ⟨i + j + 2, node, st₂, hi.around hj (by simp) (congrArg Machine.frames hstep), hquiet₃,
      hids₃, ?_⟩
    have hlast : (towering.operandsMade depth j (towering.step ⟨.done .proceeding,
        .binary ctx (st.fill 0).current nodes :: frames, [right, (st.fill 0).takeLeaf.1, lhs],
        st₁⟩)).length = 0 := hmade'
    have hnone : Machine.operand? depth ⟨.climb ctx lhs, frames, nodes, st⟩ = none ∧
        Machine.operand? depth ⟨.done .proceeding, .binary ctx (st.fill 0).current nodes :: frames,
          [right, (st.fill 0).takeLeaf.1, lhs], st₁⟩ = none := ⟨rfl, rfl⟩
    simp only [hi.operandsMade_split depth j, hnone, Option.toList_none, List.length_append,
      List.length_nil, hmade, hlast]
    omega

/-- Three names and two operators between them. -/
def sums : List Char := ['x', '+', 'x', '+', 'x']

theorem textIds_sums : Lexer.textIds sampleTable sums = .kind 0 :: summands 2 :=
  textIds_sampleTable
    (show [('x', 0), ('+', 2), ('x', 0), ('+', 2), ('x', 0)] ⊆ sampleTokens by decide)

/-- The sum is parsed as a whole, without errors, and three operands are made. -/
theorem returns_sums :
    ∃ n m m', towering.Reaches (.ofText sampleTable sums 1) m ∧ m.task = .rule 1 (.single .eof) ∧
      m.nodes = [] ∧ towering.Returns n m m' ∧ m.ErrorFree m' ∧
      (towering.operandsMade (m.frames.length + 1) n m).length = 3 ∧
      towering.Answers (.ofText sampleTable sums 1) (finish m') ∧
      (finish m').diagnostics = [] ∧ (finish m').tree.errorNodes = [] := by
  have htext := textIds_sums
  have hne : Lexer.textIds sampleTable sums ≠ [] := by
    rw [htext]
    nofun
  obtain ⟨htask, hframes⟩ := task_start towering 1 hne
  change _ = Task.rule 1 (.single .eof) at htask
  have hknown : .unknown ∉ Lexer.textIds sampleTable sums := by
    rw [htext]
    decide
  have hquiet := quiet_start towering 1 hknown
  have hids := ids_start towering sampleTable sums 1
  have hnodes : (towering.start (.ofText sampleTable sums 1)).nodes = [] := rfl
  have hanswers := answers_iff towering (.ofText sampleTable sums 1)
  have hreaches : towering.Reaches (.ofText sampleTable sums 1)
    (towering.start (.ofText sampleTable sums 1)) := ⟨0, rfl⟩
  generalize towering.start (.ofText sampleTable sums 1) = m
    at htask hframes hquiet hids hnodes hanswers hreaches
  obtain ⟨task, frames, nodes, st⟩ := m
  dsimp only at htask hframes hnodes
  subst htask hframes hnodes
  rw [htext] at hids
  have hb : towering.grammar.body 1 = .expression Grammar.toweringOps := Grammar.body_towering.2
  have hstep : towering.step ⟨.rule 1 (.single .eof), [], [], st⟩
      = ⟨.expression ⟨1, Grammar.toweringOps, 0,
          (TokenSet.single .eof).union Grammar.toweringOps.binaryTokens⟩,
        [.rule 1 st.consumed []], [], st⟩ := by
    show towering.enterRule 1 (.single .eof) [] [] st = _
    rw [enterRule, hb]
  -- The operands are gathered without errors; the rule has nothing left to do but to pass their
  -- node on.
  have hgathers : towering.Gathers 1 (.expression ⟨1, Grammar.toweringOps, 0,
      (TokenSet.single .eof).union Grammar.toweringOps.binaryTokens⟩) (.kind 0 :: summands 2) 3 :=
    gathers_operand _ rfl fun lhs => gathers_summands 2 _ lhs rfl (Nat.zero_le 255)
  obtain ⟨n, node, st', hn, hquiet', hids', hmade⟩ :=
    hgathers [.rule 1 st.consumed []] [] st rfl hquiet hids
  rw [← hstep] at hn hmade
  have hdone : towering.Returns 0 (towering.step ⟨.done .proceeding, [.rule 1 st.consumed []],
      [node], st'⟩) ⟨.done .proceeding, [], [node], st'⟩ := by
    have hnode : towering.hasNode 1 = false := by rw [hasNode, hb]; simp
    have hsplice : towering.step ⟨.done .proceeding, [.rule 1 st.consumed []], [node], st'⟩
        = ⟨.done .proceeding, [], [node], st'⟩ := by
      show towering.leaveRule 1 .proceeding [] [] [node] st' = _
      rw [leaveRule, hnode, if_neg Bool.false_ne_true]
      rfl
    rw [hsplice]
    exact .of_done_task ..
  have hreturns := hn.around hdone (by simp) (congrArg Machine.frames hstep)
  refine ⟨n + 0 + 2, _, _, hreaches, rfl, rfl, hreturns, .inl rfl, ?_,
    (hanswers _).2 ⟨n + 0 + 2, ?_, (congrArg finish hreturns.run).symm⟩, hquiet'.finish ?_⟩
  · have hsplit := congrArg List.length (hn.operandsMade_split 1 0)
    rw [List.length_append, List.length_append, hmade] at hsplit
    exact hsplit
  · rw [hreturns.run]
    rfl
  · rw [ParseState.next, hids']
    rfl

/-- A tree over this table has no prefix operators, and binary ones of the highest precedence. -/
theorem towers_of_shows {a : Arena} {tree : OperatorTree} {node : NodeId}
    (h : a.Shows Grammar.toweringOps tree node) :
    tree.signs = [] ∧ ∀ op ∈ tree.links, op.precedence = 255 := by
  induction tree generalizing node with
  | operand id => exact ⟨rfl, nofun⟩
  | unary op inner ih => exact absurd h.1 nofun
  | binary op left right ihl ihr =>
    obtain ⟨hop, -, lhs, leaf, rhs, -, -, hl, hr⟩ := h
    obtain ⟨hsl, hll⟩ := ihl hl
    obtain ⟨hsr, hlr⟩ := ihr hr
    have hmem : op ∈ Grammar.toweringOps.binaries := List.mem_of_find?_eq_some hop
    refine ⟨List.append_eq_nil_iff.2 ⟨hsl, hsr⟩, List.forall_mem_append.2 ⟨hll, ?_⟩⟩
    exact List.forall_mem_cons.2 ⟨(List.mem_singleton.1 hmem) ▸ rfl, hlr⟩

/-- In a sum of three names the first operator stands over the second, although both are to group to
the left. -/
theorem Returns.nests_sums :
    ∃ n m m', towering.Reaches (.ofText sampleTable sums 1) m ∧ m.task = .rule 1 (.single .eof) ∧
      towering.grammar.body 1 = .expression Grammar.toweringOps ∧ towering.Returns n m m' ∧
      m.ErrorFree m' ∧
      (∀ op ∈ Grammar.toweringOps.binaries, op.precedence = 255 → op.associativity = .left) ∧
      ∃ node tree, m'.nodes = node :: m.nodes ∧
        m'.state.arena.Shows Grammar.toweringOps tree node ∧ tree.signs = [] ∧
        2 ≤ tree.links.length ∧ (∀ op ∈ tree.links, op.precedence = 255) ∧
        tree.NestsRight ∧ ¬ tree.NestsLeft := by
  obtain ⟨n, m, m', hm, htask, -, hreturns, hfree, hmade, -⟩ := returns_sums
  have hb : towering.grammar.body 1 = .expression Grammar.toweringOps := Grammar.body_towering.2
  have hleft : ∀ op ∈ Grammar.toweringOps.binaries, op.precedence = 255 →
      op.associativity = .left := by decide
  obtain ⟨-, node, tree, hnodes, hshows, hoperands, -, hall⟩ :=
    hreturns.nests Grammar.ofDecls_towering hm htask hb hfree
  obtain ⟨hsigns, hlinks⟩ := towers_of_shows hshows
  have hlen := tree.length_operands
  rw [hoperands] at hlen
  have htwo : 2 ≤ tree.links.length := Nat.le_of_succ_le_succ (hmade.symm.trans hlen).le
  obtain ⟨hnestsLeft, hnestsRight⟩ := (hall 255 hsigns htwo hlinks).1 hleft
  exact ⟨n, m, m', hm, htask, hb, hreturns, hfree, hleft, node, tree, hnodes, hshows, hsigns, htwo,
    hlinks, hnestsRight.2 rfl, fun h => hnestsLeft.1 h rfl⟩

/-- Three names between operators of the highest precedence, which are to group to the left, are
answered without reports and error nodes, and do not lean to the left. -/
theorem towering_leans_right :
    (∀ op ∈ Grammar.toweringOps.binaries, op.precedence = 255 → op.associativity = .left) ∧
      ∃ m, towering.Answers (.ofText sampleTable sums 1) (finish m) ∧
        (finish m).diagnostics = [] ∧ (finish m).tree.errorNodes = [] ∧
        ∃ node tree, m.nodes = [node] ∧ m.state.arena.Shows Grammar.toweringOps tree node ∧
          tree.signs = [] ∧ tree.links.length = 2 ∧ (∀ op ∈ tree.links, op.precedence = 255) ∧
          ¬ tree.NestsLeft := by
  obtain ⟨n, m, m', hm, htask, hnone, hreturns, hfree, hmade, hanswers, hreports, herrors⟩ :=
    returns_sums
  refine ⟨by decide, m', hanswers, hreports, herrors, ?_⟩
  obtain ⟨-, node, tree, hnodes, hshows, hoperands, hclimbs, -⟩ :=
    hreturns.climbs (Grammar.checked_of_ofDecls Grammar.ofDecls_towering) hm htask
      Grammar.body_towering.2 hfree
  obtain ⟨hsigns, hlinks⟩ := towers_of_shows hshows
  have hlen := tree.length_operands
  rw [hoperands, hmade] at hlen
  have hlen : tree.links.length = 2 := (Nat.succ.inj hlen).symm
  have hnests : tree.NestsRight := hclimbs.nestsRight hsigns hlinks (by decide)
  rw [hnone] at hnodes
  exact ⟨node, tree, hnodes, hshows, hsigns, hlen, hlinks,
    fun hl => hl.not_nestsRight hlen.ge hnests⟩

end Parser

end FrontEnd
