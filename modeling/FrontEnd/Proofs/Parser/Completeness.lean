import FrontEnd.Proofs.Grammar.LL1
import FrontEnd.Proofs.Parser.Follow
import FrontEnd.Proofs.Parser.Quiet
import FrontEnd.Proofs.Parser.Termination

/-!
# Texts of the language are parsed without complaints

Where one token decides, the parser decides as the derivation does: what is pending always derives
the tokens to come, and no step has a reason to complain.

- `Parser.Promising`: what is pending derives what is to come, and nothing was wrong so far;
- `Parser.Move.promising`: every step keeps this;
- `Parser.answers_quietly_of_derives`: **every text of the language has an answer without reports
  and error nodes**.
-/

namespace FrontEnd

namespace Parser

/-- What is pending derives the tokens to come, and nothing was wrong so far. -/
structure Promising (p : Parser) (m : Machine) : Prop where
  quiet : m.state.Quiet
  derives : p.grammar.Derives (m.task.form m.frames ++ pending m.frames) m.state.ids

variable {p : Parser} {m m' : Machine} {input : List TokenId} {st st' : ParseState}

/-! ## Choice -/

theorem length_filter_le_one {α : Type} {P : α → Prop} {q : α → Bool} {xs : List α}
    (h : xs.Pairwise fun x y => ¬ (P x ∧ P y)) (hq : ∀ x ∈ xs, q x = true → P x) :
    (xs.filter q).length ≤ 1 := by
  have hpairs := h.filter q
  have hmem : ∀ x ∈ xs.filter q, P x := by
    intro x hx
    obtain ⟨hx, hqx⟩ := List.mem_filter.1 hx
    exact hq x hx hqx
  match hf : xs.filter q with
  | [] => exact Nat.zero_le 1
  | [x] => exact Nat.le_refl 1
  | x :: y :: rest =>
    rw [hf] at hpairs hmem
    have hnot := (List.pairwise_cons.1 hpairs).1 y List.mem_cons_self
    exact absurd ⟨hmem x List.mem_cons_self, hmem y (by simp)⟩ hnot

/-- The alternative that is chosen derives the tokens to come, and no other is a candidate. -/
theorem exists_chosen (hc : p.grammar.Checked) (hplain : p.grammar.Plain) {r : Nat}
    {as : List Alternative} (hr : r < p.grammar.size) (hb : p.grammar.body r = .sequence as)
    {lead form : List Part} (hreach : p.grammar.Yields [.rule p.grammar.start]
      (lead ++ .rule r :: form))
    {ids : List TokenId} (hd : p.grammar.Derives (.rule r :: form) ids) :
    (ParseState.candidates as (ids.headD .eof)).length ≤ 1 ∧
      ∃ a, a ∈ as ∧ ParseState.choose as ids = some a ∧
        p.grammar.Derives (a.symbols.map Symbol.part ++ form) ids := by
  have hguard := fun a => hplain.unguarded r as a hb
  have hbegins : ∀ {a t}, a ∈ as →
      (a.first.contains t = true ↔ p.grammar.Begins (a.symbols.map Symbol.part) t) := by
    intro a t ha
    rw [hc.first_eq hb ha, hc.begins_iff (hplain.solidOperands hc)]
  have hempties : ∀ {a}, a ∈ as →
      (a.nullable = true ↔ p.grammar.Empties (a.symbols.map Symbol.part)) := by
    intro a ha
    rw [hc.nullable_eq hb ha, hc.empties_iff]
  have hexp : ∀ {a}, a ∈ as → a.symbols.map Symbol.part ∈ p.grammar.expansions (.rule r) :=
    fun ha => (Grammar.mem_expansions_sequence hb).2 ⟨_, ha, rfl⟩
  have hoccurs : p.grammar.Occurs (.rule r) := .rule hr
  constructor
  · have hpairs := hplain.ll1.disjoint _ hoccurs
    have halternatives : p.grammar.expansions (.rule r)
        = as.map fun a => a.symbols.map Symbol.part := by rw [Grammar.expansions_rule, hb]
    rw [halternatives, List.pairwise_map] at hpairs
    refine length_filter_le_one (hpairs.imp fun h => h (ids.headD .eof)) fun a ha hq => ?_
    exact (hbegins ha).1 (Bool.and_eq_true_iff.1 hq).2
  · obtain ⟨body, hbody, hd, hnext⟩ := hplain.ll1.predict hoccurs hreach hd
    obtain ⟨a₀, ha₀, rfl⟩ := (Grammar.mem_expansions_sequence hb).1 hbody
    rcases hnext with ⟨hfirst, honly⟩ | ⟨hblank, -, hnone⟩
    · -- The next token begins the alternative, and no other.
      obtain ⟨a, hchoose, ht⟩ :=
        ParseState.exists_choose_of_first hguard ha₀ ((hbegins ha₀).2 hfirst)
      have ha := ParseState.mem_of_choose hchoose
      have heq := honly _ (hexp ha) ((hbegins ha).1 ht)
      exact ⟨a, ha, hchoose, heq ▸ hd⟩
    · -- The next token begins none, and one alternative is left that can be empty.
      have hno : ∀ a ∈ as, a.first.contains (ids.headD .eof) = false :=
        fun a ha => Bool.eq_false_iff.2 fun ht => hnone _ (hexp ha) ((hbegins ha).1 ht)
      obtain ⟨a, hchoose, hnull⟩ :=
        ParseState.exists_choose_of_nullable hguard hno ha₀ ((hempties ha₀).2 hblank)
      have ha := ParseState.mem_of_choose hchoose
      have heq := hplain.ll1.eq_of_empties hoccurs (hexp ha₀) (hexp ha) hblank
        ((hempties ha).1 hnull)
      exact ⟨a, ha, hchoose, heq ▸ hd⟩

/-! ## Steps -/

/-- A step that takes the token in front. -/
theorem promising_takeLeaf {t : TokenId} {form : List Part} (hquiet : st.Quiet)
    (hd : p.grammar.Derives (.token t :: form) st.ids) :
    (st.fill 0).takeLeaf.2.Quiet ∧ st.next = t ∧
      p.grammar.Derives form (st.fill 0).takeLeaf.2.ids := by
  obtain ⟨text, hids, hrest⟩ := Grammar.derives_token.1 hd
  have htakes := (st.stays_fill 0).takes (st.fill 0).takes_takeLeaf
  refine ⟨(hquiet.fill 0).takeLeaf, ?_, ?_⟩
  · rw [ParseState.next, hids]
    rfl
  · have hlen : min 1 (st.fill 0).ids.length = 1 := by
      rw [ParseState.ids_fill, hids]
      simp
    rw [htakes.ids, hlen, hids]
    exact hrest

theorem Enter.promising (hc : p.grammar.Checked) (hplain : p.grammar.Plain) {frames : List Frame}
    {nodes : List NodeId} {follow : TokenSet} {flow : Flow} {s : Step} {rest : List Step}
    (htracing : p.Tracing input ⟨.steps (s :: rest) follow flow, frames, nodes, st⟩)
    (h : p.Promising ⟨.steps (s :: rest) follow flow, frames, nodes, st⟩)
    (hst : st' = st ∨ st' = st.fill 0)
    (he : p.Enter (.steps rest follow :: frames) nodes st' (followOf s follow) s.symbol m) :
    p.Promising m := by
  have hreach := htracing.traces.yields
  obtain ⟨r₀, as, a, hb, ha, hmem⟩ := htracing.belongs.task.symbol
  have hids : st'.ids = st.ids := (stays_of_filled hst).ids_eq
  have hquiet : st'.Quiet := by
    rcases hst with rfl | rfl
    · exact h.quiet
    · exact h.quiet.fill 0
  have hd : p.grammar.Derives (s.symbol.part :: pending (.steps rest follow :: frames)) st'.ids := by
    rw [hids]
    exact h.derives
  have hreach : p.grammar.Yields [.rule p.grammar.start] ((input.take st.consumed).map .token ++
      s.symbol.part :: pending (.steps rest follow :: frames)) := hreach
  generalize s.symbol = symbol at he hd hreach hmem
  cases he with
  | token _ =>
    obtain ⟨hquiet, -, hd⟩ := promising_takeLeaf hquiet hd
    exact ⟨hquiet, hd⟩
  | late hid _ _ | absent hid _ _ =>
    -- The text has the token here.
    obtain ⟨-, hnext, -⟩ := promising_takeLeaf hquiet hd
    exact absurd hnext hid
  | rule => exact ⟨hquiet, hd⟩
  | many => exact ⟨hquiet, hd⟩
  | @opt r hf =>
    refine ⟨hquiet.fill 0, ?_⟩
    rw [ParseState.ids_fill]
    rcases hplain.decide_round hc (.opt hb ha hmem) rfl (hc.solid hb ha (.inl hmem)) hreach hd
      with ⟨-, hd⟩ | ⟨hno, -⟩
    · exact hd
    · exact absurd (hno.symm.trans hf) Bool.false_ne_true
  | @skip r hf =>
    refine ⟨hquiet.fill 0, ?_⟩
    rw [ParseState.ids_fill]
    rcases hplain.decide_round hc (.opt hb ha hmem) rfl (hc.solid hb ha (.inl hmem)) hreach hd
      with ⟨hyes, -⟩ | ⟨-, -, hd⟩
    · exact absurd (hf.symm.trans hyes) Bool.false_ne_true
    · exact hd

/-- Whether another round of a repetition is there. -/
theorem decide_many {g : Grammar} (hc : g.Checked) (hplain : g.Plain) {r : Nat}
    (hrepeats : g.Repeats r) {lead form : List Part}
    (hreach : g.Yields [.rule g.start] (lead ++ .many r :: form)) {ids : List TokenId}
    (hd : g.Derives (.many r :: form) ids) :
    (g.firstOf r).contains (ids.headD .eof) = true ∧ g.Derives (.rule r :: .many r :: form) ids ∨
      (g.firstOf r).contains (ids.headD .eof) = false ∧ g.Expects form (ids.headD .eof) ∧
        g.Derives form ids := by
  have hsolid := hrepeats.solid hc
  obtain ⟨r₀, as, a, hb, ha, hmem⟩ := hrepeats
  exact hplain.decide_round hc (.many hb ha hmem) rfl hsolid hreach hd

theorem quiet_operandNode (hquiet : st.Quiet) (r : Nat) (nodes : List NodeId) :
    (operandNode r nodes st).2.Quiet := by
  unfold operandNode
  split
  · exact hquiet
  · exact (hquiet.fill 0).pushNode (by simp) _ _

theorem promising_leaveOperand {ctx : ExpressionContext} {node : NodeId} {frame : Frame}
    {frames : List Frame} {flow : Flow} {nodes outer : List NodeId}
    (htracing : p.Tracing input ⟨.done flow, frame :: frames, nodes, st⟩)
    (h : p.Promising ⟨.done flow, frame :: frames, nodes, st⟩)
    (hframe : frame.form frames = ctx.form frames) (hstays : st.Stays st') (hquiet : st'.Quiet) :
    p.Promising (leaveOperand ctx flow node frames outer st') := by
  have hproceeds := htracing.proceeds
  have hd := h.derives
  cases flow with
  | recovering => exact hproceeds.elim
  | proceeding =>
    refine ⟨hquiet, ?_⟩
    show p.grammar.Derives (ctx.form frames ++ pending frames) st'.ids
    rw [hstays.ids_eq, ← hframe]
    exact hd

theorem Move.promising (hc : p.grammar.Checked) (hplain : p.grammar.Plain) (hmove : p.Move m m')
    (htracing : p.Tracing input m) (hinformed : m.Informed p.grammar) (h : p.Promising m) :
    p.Promising m' := by
  have hreach := htracing.traces.yields
  have htask := htracing.belongs.task
  have hframes := htracing.belongs.frames
  have hproceeds := htracing.proceeds
  have hquiet := h.quiet
  have hd := h.derives
  cases hmove with
  | missing hb => exact absurd hb (hplain.defined _ htask)
  | @express r follow frames nodes st ops hb =>
    refine ⟨hquiet, ?_⟩
    obtain ⟨body, hbody, hd⟩ := (Grammar.derives_cons (Grammar.Occurs.rule htask).ne_token).1 hd
    rcases Grammar.mem_expansions_rule.1 hbody with ⟨as, a, hb', -, -⟩ | ⟨ops', -, rfl⟩
    · rw [hb] at hb'
      cases hb'
    · exact hd
  | @choose r follow frames nodes st st₁ as a hb hs =>
    obtain ⟨hone, a', ha', hchoose, hd⟩ := exists_chosen hc hplain htask hb hreach hd
    have hsome := (ParseState.fst_select ..).symm.trans (congrArg Prod.fst hs)
    rw [hchoose] at hsome
    cases hsome
    have hselect := hquiet.select p.grammar r (fun a => hplain.unguarded r as a hb) hone
    rw [hs] at hselect
    refine ⟨hselect, ?_⟩
    rw [(stays_select_of_eq hs).ids_eq]
    rw [← hc.map_symbol_steps hb ha', List.map_map] at hd
    exact hd
  | retry hb hs _ _ _ _ | refuse hb hs _ _ _ =>
    obtain ⟨-, a', -, hchoose, -⟩ := exists_chosen hc hplain htask hb hreach hd
    have hnone := (ParseState.fst_select ..).symm.trans (congrArg Prod.fst hs)
    rw [hchoose] at hnone
    cases hnone
  | finish => exact ⟨hquiet, hd⟩
  | pass _ => exact hproceeds.elim
  | enter hst _ he => exact he.promising hc hplain htracing h hst
  | @close r follow frames nodes st hn =>
    refine ⟨hquiet.fill 0, ?_⟩
    rw [ParseState.ids_fill]
    rcases decide_many hc hplain htask hreach hd with ⟨hyes, -⟩ | ⟨-, -, hd⟩
    · -- The end of the input begins no rule.
      rcases hn with hn | ⟨hno, -⟩
      · have hlacks := hc.firstOf_lacks hplain.lacks_eof r
        rw [← hn] at hlacks
        exact absurd (hlacks.symm.trans hyes) Bool.false_ne_true
      · exact absurd (hno.symm.trans hyes) Bool.false_ne_true
    · exact hd
  | @round r follow frames nodes st hn hf =>
    refine ⟨hquiet.fill 0, ?_⟩
    rw [ParseState.ids_fill]
    rcases decide_many hc hplain htask hreach hd with ⟨-, hd⟩ | ⟨hno, -⟩
    · exact hd
    · exact absurd (hno.symm.trans hf) Bool.false_ne_true
  | @stray r follow frames nodes errors st st₁ hn hf hfollow hu =>
    rcases decide_many hc hplain htask hreach hd with ⟨hyes, -⟩ | ⟨-, hexpects, -⟩
    · exact absurd (hf.symm.trans hyes) Bool.false_ne_true
    · rcases hexpects with hbegins | ⟨heof, -⟩
      · rw [hc.begins_iff (hplain.solidOperands hc)] at hbegins
        -- What comes behind the repetition is announced to it, so that it would have been closed.
        have hannounced := (hinformed.task st.next).2 (.inl hbegins)
        exact absurd (hfollow.symm.trans hannounced) Bool.false_ne_true
      · exact absurd heof hn
  | @sign ctx frames nodes st level hop =>
    rcases hplain.decide_unary hc htask.1 hreach hd with ⟨-, hd⟩ | ⟨hno, -⟩
    · obtain ⟨hquiet, -, hd⟩ := promising_takeLeaf hquiet hd
      exact ⟨hquiet, hd⟩
    · exact absurd (Operators.mem_signs hop) hno
  | @operand ctx frames nodes st hop hf =>
    refine ⟨hquiet.fill 0, ?_⟩
    rw [ParseState.ids_fill]
    rcases hplain.decide_unary hc htask.1 hreach hd with ⟨hyes, -⟩ | ⟨-, -, hd⟩
    · exact absurd hyes (Operators.not_mem_signs hop)
    · exact hd
  | @lack ctx frames nodes errors st st₁ hop hf hu =>
    rcases hplain.decide_unary hc htask.1 hreach hd with ⟨hyes, -⟩ | ⟨-, hyes, -⟩
    · exact absurd hyes (Operators.not_mem_signs hop)
    · exact absurd (hf.symm.trans hyes) Bool.false_ne_true
  | @climb ctx lhs frames nodes st op hop hlevel =>
    -- Inside an operand the operators that may follow are still those of the expression rule.
    have hhome := pending_home htask hframes
    simp only [Task.form, hhome] at hd hreach
    rcases hplain.decide_tail htask.1 hreach hd with ⟨-, hd⟩ | ⟨hno, -⟩
    · rw [← hhome] at hd
      obtain ⟨hquiet, -, hd⟩ := promising_takeLeaf hquiet hd
      exact ⟨hquiet, hd⟩
    · exact absurd (Operators.mem_links hop) hno
  | @top ctx lhs frames nodes st hop =>
    refine ⟨hquiet.fill 0, ?_⟩
    rw [ParseState.ids_fill]
    obtain ⟨hb, hfits⟩ := htask
    -- An operator that binds too weakly is taken further down; directly in the rule none does.
    cases frames with
    | nil => exact hfits.elim
    | cons frame below =>
      cases frame with
      | unary _ _ _ | binary _ _ _ => exact hd
      | rule r entered outer =>
        rcases hplain.decide_tail hb hreach hd with ⟨hyes, -⟩ | ⟨-, hd⟩
        · exact absurd hyes (not_mem_links_of_top hfits.2 hop)
        · exact hd
      | steps _ _ | repetition _ _ _ | operand _ _ => exact hfits.elim
  | wrap _ =>
    refine ⟨(hquiet.fill 0).pushNode (by simp) _ _, ?_⟩
    rw [(ParseState.stays_pushNode ..).ids_eq, ParseState.ids_fill]
    exact hd
  | splice _ => exact ⟨hquiet, hd⟩
  | resume => exact ⟨hquiet, hd⟩
  | stall hb => exact absurd hb (htracing.not_stalled hc)
  | again _ => exact ⟨hquiet, hd⟩
  | leaf =>
    exact promising_leaveOperand htracing h rfl (stays_operandNode ..)
      (quiet_operandNode hquiet ..)
  | unary | binary =>
    exact promising_leaveOperand htracing h rfl (ParseState.stays_pushNode ..)
      (hquiet.pushNode (by simp) _ _)
  | rest => exact h

/-! ## Whole parses -/

theorem Promising.clean (h : p.Promising m) : m.state.Clean := by
  intro d hd
  rw [h.quiet.filed] at hd
  cases hd

/-- All moments of the parse of a text of the language are promising. -/
theorem promising_run (hc : p.grammar.Checked) (hplain : p.grammar.Plain)
    (htracing : p.Tracing input m) (hinformed : m.Informed p.grammar) (h : p.Promising m) (n : Nat) :
    p.Tracing input (p.run n m) ∧ (p.run n m).Informed p.grammar ∧ p.Promising (p.run n m) := by
  refine run_invariant (I := fun m => p.Tracing input m ∧ m.Informed p.grammar ∧ p.Promising m) ?_
    ⟨htracing, hinformed, h⟩ n
  rintro m m' hmove ⟨htracing, hinformed, h⟩
  have hnext := hmove.promising hc hplain htracing hinformed h
  exact ⟨hmove.tracing hc hplain.lacks_eof htracing hnext.clean,
    hmove.informed htracing.belongs hinformed, hnext⟩

theorem quiet_start {table : TokenTable} {text : List Char} (p : Parser) (depth : Nat)
    (h : .unknown ∉ Lexer.textIds table text) :
    (p.start (.ofText table text depth)).state.Quiet := by
  have hknown : .unknown ∉ (ParseState.ofStream (.ofText table text depth)).ids := by
    rwa [← (stays_start p _).ids_eq, ids_start]
  have hquiet : (ParseState.ofStream (.ofText table text depth)).Quiet :=
    ⟨rfl, hknown, fun node hnode => absurd hnode (Array.not_mem_empty node)⟩
  exact hquiet.fill 0

/-- From its first moment on the parse of a text of the language is promising. -/
theorem promising_moments (hc : p.grammar.Checked) (hplain : p.grammar.Plain)
    {table : TokenTable} {text : List Char} (depth : Nat) (hne : Lexer.textIds table text ≠ [])
    (hd : p.grammar.Derives [.rule p.grammar.start] (Lexer.textIds table text)) (n : Nat) :
    p.Tracing (Lexer.textIds table text) (p.run n (p.start (.ofText table text depth))) ∧
      p.Promising (p.run n (p.start (.ofText table text depth))) := by
  obtain ⟨htask, hframes⟩ := task_start p depth hne
  have hstart : p.Promising (p.start (.ofText table text depth)) := by
    constructor
    · exact quiet_start p depth (hd.not_mem hplain.lacks_unknown (by simp))
    · rw [htask, hframes, ids_start]
      exact hd
  have h := promising_run hc hplain (tracing_start hc hne) (informed_start p _) hstart n
  exact ⟨h.1, h.2.2⟩

/-- The parse of a text of the language ends at the end of the text, and nothing was wrong. -/
theorem exists_promising_end (hc : p.grammar.Checked) (hplain : p.grammar.Plain)
    {table : TokenTable} {text : List Char} (depth : Nat) (hne : Lexer.textIds table text ≠ [])
    (hd : p.grammar.Derives [.rule p.grammar.start] (Lexer.textIds table text)) :
    ∃ m, p.Answers (.ofText table text depth) (finish m) ∧ m.state.Quiet ∧ m.state.next = .eof := by
  obtain ⟨rank, hrank⟩ := hc.ranked
  have hnested := nested_run hc hplain.lacks_eof hrank (.ofText table text depth)
    fun n r follow _ hr hb => absurd hb (hplain.defined r hr)
  obtain ⟨n, hhalted⟩ := exists_halted hc hplain.lacks_eof hrank hnested
  refine ⟨_, (answers_iff ..).2 ⟨n, hhalted, rfl⟩, ?_⟩
  obtain ⟨-, h⟩ := promising_moments hc hplain depth hne hd n
  generalize p.run n (p.start (.ofText table text depth)) = m at hhalted h
  refine ⟨h.quiet, ?_⟩
  obtain ⟨task, frames, nodes, st⟩ := m
  rw [Machine.halted, Bool.and_eq_true, List.isEmpty_iff] at hhalted
  obtain ⟨rfl, hdone⟩ := hhalted
  cases task with
  | done flow =>
    -- Nothing is pending, so that nothing is left of the text.
    have hids := Grammar.derives_nil.1 h.derives
    show st.next = .eof
    rw [ParseState.next, hids]
    rfl
  | _ => cases hdone

/-- In a grammar in which one token decides, a text that is derivable from the start rule is parsed
without reports, into a tree without error nodes. -/
theorem answers_quietly_of_derives {decls : List GrammarDecl}
    (hg : Grammar.ofDecls decls = .ok p.grammar) (hplain : p.grammar.Plain) {table : TokenTable}
    {text : List Char} (hne : Lexer.textIds table text ≠ [])
    (hd : p.grammar.Derives [.rule p.grammar.start] (Lexer.textIds table text)) (depth : Nat) :
    ∃ q, p.Answers (.ofText table text depth) q ∧ q.diagnostics = [] ∧ q.tree.errorNodes = [] := by
  obtain ⟨m, hanswers, hquiet, hend⟩ :=
    exists_promising_end (Grammar.checked_of_ofDecls hg) hplain depth hne hd
  exact ⟨finish m, hanswers, hquiet.finish hend⟩

/-- A text with operators and parentheses is parsed without complaints. -/
theorem answers_quietly_sample :
    ∃ q, Parser.Answers ⟨.sample, ∅⟩ (.ofText sampleTable sampleText 1) q ∧ q.diagnostics = [] ∧
      q.tree.errorNodes = [] := by
  have hne : Lexer.textIds sampleTable sampleText ≠ [] := by rw [textIds_sampleText]; nofun
  have hd : Grammar.sample.Derives [.rule Grammar.sample.start]
      (Lexer.textIds sampleTable sampleText) := textIds_sampleText ▸ Grammar.derives_sample
  exact answers_quietly_of_derives (p := ⟨.sample, ∅⟩) Grammar.ofDecls_sample Grammar.plain_sample
    hne hd 1

end Parser

end FrontEnd
