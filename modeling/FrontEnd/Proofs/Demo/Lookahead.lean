import FrontEnd.Proofs.Parser.Hearing

/-!
# How far the demonstration language looks ahead

Only the guard of an assignment looks behind the next token, and only behind an identifier. No rule
on the way from there to the identifier reports anything, so that whenever a report is made, the
parser has looked no further than the next token.

- `Demo.Toward`: what is done on the way to the identifier;
- `Demo.Near`: **the second token has been looked at on this way only**;
- `Demo.shortsighted_of_reaches`: it is so in every moment;
- `Demo.punctual`: every report comes in the right order, in texts of any size.
-/

namespace FrontEnd

namespace Demo

variable {table : TokenTable} {text : List Char} {depth : Nat} {m m' : Machine} {r : Nat}
  {as : List Alternative} {follow : TokenSet} {frames : List Frame} {nodes : List NodeId}
  {st st₁ : ParseState} {id : TokenId}

/-! ## Choices -/

/-- Only statements are chosen by a guard. -/
theorem unguarded_of_ne (hr : r ≠ stmt) (hb : parser.grammar.body r = .sequence as) :
    ∀ a ∈ as, a.guard = [] := by
  have hall : ∀ i < 14, i ≠ stmt → ∀ a ∈ (bodies[i]?.getD .undefined).alternatives,
      a.guard = [] := by decide
  rw [body_grammar] at hb
  rcases Nat.lt_or_ge r 14 with hlt | hge
  · have halternatives := hall r hlt hr
    rwa [hb] at halternatives
  · have hnone : bodies[r]? = none := Array.getElem?_eq_none hge
    rw [hnone] at hb
    cases hb

/-- A statement that can begin with the next token has an alternative. -/
theorem exists_choose_stmt (h : stmtFirst.contains id = true) (ids : List TokenId) :
    ∃ a, ParseState.choose stmtAlternatives (id :: ids) = some a := by
  rcases keyword_or_value h with ⟨r, hr⟩ | hvalue
  · exact ⟨_, choose_keyword hr ids⟩
  · exact ⟨_, choose_value ids hvalue⟩

theorem exists_ids (h : st.next = id) (hid : id ≠ .eof) : ∃ ids, st.ids = id :: ids := by
  rw [ParseState.next] at h
  cases hids : st.ids with
  | nil => exact absurd (h.symm.trans (congrArg (·.headD .eof) hids)) hid
  | cons id' ids =>
    rw [hids] at h
    exact ⟨ids, congrArg (· :: ids) h⟩

theorem select_stmt_ne_none (h : stmtFirst.contains st.next = true) :
    st.select parser.grammar stmt stmtAlternatives ≠ (none, st₁) := by
  intro hs
  have hnext : st.next ≠ .eof := fun heof => absurd (heof ▸ h) (by decide)
  obtain ⟨ids, hids⟩ := exists_ids rfl hnext
  obtain ⟨a, ha⟩ := exists_choose_stmt h ids
  have hchoose := ParseState.fst_select parser.grammar stmt stmtAlternatives st
  rw [hs, hids, ha] at hchoose
  cases hchoose

/-! ## On the way to an identifier -/

/-- The rules on the way from a statement to an identifier at its start. -/
def leaders : List Nat := [assignStmt, exprStmt, expr, primary]

/-- The symbol is the identifier or is on the way to it. -/
def Leads (s : Symbol) : Prop := s = .token identifier ∨ ∃ r ∈ leaders, s = .rule r

/-- The task is on the way to an identifier. -/
inductive Toward : Task → Prop where
  | rule {r : Nat} {follow : TokenSet} (hr : r ∈ leaders) : Toward (.rule r follow)
  | symbol {s : Step} {rest : List Step} {follow : TokenSet} (hs : Leads s.symbol) :
    Toward (.steps (s :: rest) follow .proceeding)
  | expression {ctx : ExpressionContext} (hops : ctx.ops = operatorTable) :
    Toward (.expression ctx)

/-- A rule on the way goes on to the next one. -/
theorem choose_leader (hr : r ∈ leaders) (hb : parser.grammar.body r = .sequence as)
    (ids : List TokenId) : ∃ a s rest, ParseState.choose as (identifier :: ids) = some a ∧
      a.steps = s :: rest ∧ Leads s.symbol := by
  rw [body_grammar] at hb
  simp only [leaders, List.mem_cons, List.not_mem_nil, or_false] at hr
  rcases hr with rfl | rfl | rfl | rfl
  · cases hb
    exact ⟨_, _, _, ParseState.choose_singleton _ _, rfl, .inl rfl⟩
  · cases hb
    exact ⟨_, _, _, ParseState.choose_singleton _ _, rfl, .inr ⟨expr, by decide, rfl⟩⟩
  · cases hb
  · cases hb
    refine ⟨leaf identifier, _, _, ?_, rfl, .inl rfl⟩
    rw [ParseState.choose_of_unguarded (by decide), List.headD_cons]
    decide

theorem select_leader (hr : r ∈ leaders) (hb : parser.grammar.body r = .sequence as)
    (hnext : st.next = identifier) {a : Option Alternative}
    (hs : st.select parser.grammar r as = (a, st₁)) :
    ∃ b s rest, a = some b ∧ b.steps = s :: rest ∧ Leads s.symbol := by
  obtain ⟨ids, hids⟩ := exists_ids hnext (by decide)
  obtain ⟨b, s, rest, hchoose, hb'⟩ := choose_leader hr hb ids
  have hfst := ParseState.fst_select parser.grammar r as st
  rw [hs, hids, hchoose] at hfst
  exact ⟨b, s, rest, hfst, hb'⟩

/-- A second token has been looked at only on the way to an identifier. -/
def Near (m : Machine) : Prop :=
  m.state.window ≤ 1 ∨ m.state.window ≤ 2 ∧ m.state.next = identifier ∧ Toward m.task

/-- In this moment no more has been looked at, and a statement is begun with a token that begins
one. -/
structure Shortsighted (m : Machine) : Prop where
  begins : ∀ follow, m.task = .rule stmt follow → stmtFirst.contains m.state.next = true
  window : Near m

/-! ## One step -/

/-- Statements are only repeated. -/
theorem symbol_ne_stmt {s : Step} {rest : List Step} (h : parser.grammar.Remains (s :: rest)) :
    s.symbol ≠ .rule stmt ∧ s.symbol ≠ .opt stmt := by
  have hall : ∀ body ∈ RuleBody.undefined :: bodies.toList, ∀ a ∈ body.alternatives,
      .rule stmt ∉ a.symbols ∧ .opt stmt ∉ a.symbols := by decide
  obtain ⟨r, as, a, hb, ha, hmem⟩ := h.symbol
  have hbody := hall _ (mem_bodies r)
  rw [hb] at hbody
  obtain ⟨hrule, hopt⟩ := hbody a ha
  exact ⟨fun heq => hrule (heq ▸ hmem), fun heq => hopt (heq ▸ hmem)⟩

/-- Statements are no operands. -/
theorem operand_ne_stmt {ops : Operators} (h : parser.grammar.body r = .expression ops) :
    ops.operand ≠ stmt := by
  have hall : ∀ body ∈ RuleBody.undefined :: bodies.toList, ∀ ops, body = .expression ops →
      ops.operand ≠ stmt := by
    intro body hbody ops hops
    obtain rfl : ops = operatorTable := by simpa [bodies, hops] using hbody
    decide
  exact hall _ (mem_bodies r) ops h

/-- A step comes to a statement where it begins. -/
theorem begins_of_move (h : parser.Move m m') (hm : m.Belongs parser.grammar) :
    ∀ follow, m'.task = .rule stmt follow → stmtFirst.contains m'.state.next = true := by
  have hleave : ∀ ctx flow node frames nodes st follow,
      (Parser.leaveOperand ctx flow node frames nodes st).task ≠ .rule stmt follow := by
    intro ctx flow node frames nodes st follow htask
    cases flow <;> cases htask
  intro follow htask
  cases h with
  | round hn hf =>
    cases htask
    rwa [firstOf_stmt, ← ParseState.next_fill _ 0] at hf
  | operand hop hf =>
    have heq : _ = stmt := (Task.rule.inj htask).1
    exact absurd heq (operand_ne_stmt hm.task.1)
  | enter hst hc he =>
    obtain ⟨hrule, hopt⟩ := symbol_ne_stmt hm.task
    generalize Step.symbol _ = symbol at he hrule hopt
    cases he with
    | rule => cases htask; exact absurd rfl hrule
    | opt => cases htask; exact absurd rfl hopt
    | token | late | absent | skip | many => cases htask
  | leaf | unary | binary => exact (hleave _ _ _ _ _ _ _ htask).elim
  | _ => cases htask

/-- The guard of an assignment looks at the second token only behind an identifier. -/
theorem window_selectGuarded_stmt (st : ParseState) :
    (st.selectGuarded stmtAlternatives).2.window ≤ max st.window 2 ∧
      (st.next ≠ identifier →
        (st.selectGuarded stmtAlternatives).2.window ≤ max st.window 1) := by
  have hrest : ∀ s : ParseState, s.selectGuarded [relay letStmt (.single letWord),
      relay printStmt (.single printWord), relay ifStmt (.single ifWord),
      relay whileStmt (.single whileWord), relay block (.single openBrace),
      relay exprStmt exprFirst] = (none, s) := fun s =>
    s.selectGuarded_of_unguarded (by decide)
  have hguard : ¬ assignAlternative.guard.isEmpty = true := by decide
  have htwo := st.window_matchesGuard_le 0 assignAlternative.guard
  have hone : st.next ≠ identifier →
      (st.matchesGuard 0 assignAlternative.guard).2.window ≤ max st.window 1 :=
    st.window_matchesGuard_of_ne [equalsSign]
  rw [stmtAlternatives, ParseState.selectGuarded, if_neg hguard]
  rcases hm : st.matchesGuard 0 assignAlternative.guard with ⟨_ | _, s⟩
  · rw [hm] at htwo hone
    dsimp only
    rw [hrest]
    exact ⟨htwo, hone⟩
  · rw [hm] at htwo hone
    exact ⟨htwo, hone⟩

/-- The choice of a statement looks at a second token only if the first is an identifier. -/
theorem near_stmt (h : parser.Move ⟨.rule stmt follow, frames, nodes, st⟩ m')
    (hfirst : stmtFirst.contains st.next = true) (hwindow : st.window ≤ 1) : Near m' := by
  have hbody : parser.grammar.body stmt = .sequence stmtAlternatives := body_grammar stmt
  cases h with
  | missing hb | express hb => rw [hbody] at hb; cases hb
  | retry hb hs | refuse hb hs =>
    rw [hbody] at hb
    cases hb
    -- The repetition has looked before the statement was begun.
    exact absurd hs (select_stmt_ne_none hfirst)
  | @choose _ _ _ _ _ st₁ _ a hb hs =>
    rw [hbody] at hb
    cases hb
    have hselect := st.window_select_le parser.grammar stmt stmtAlternatives
    obtain ⟨htwo, hone⟩ := window_selectGuarded_stmt st
    rw [hs] at hselect
    by_cases hnext : st.next = identifier
    · right
      have hstays := Parser.stays_select_of_eq hs
      have hchoose := ParseState.fst_select parser.grammar stmt stmtAlternatives st
      obtain ⟨ids, hids⟩ := exists_ids hnext (by decide)
      rw [hs, hids, choose_value ids (by decide)] at hchoose
      refine ⟨by dsimp only at hselect ⊢; omega, hstays.next.trans hnext, ?_⟩
      rw [Option.some.inj hchoose]
      split
      · exact .symbol (.inr ⟨assignStmt, by decide, rfl⟩)
      · exact .symbol (.inr ⟨exprStmt, by decide, rfl⟩)
    · left
      have hnear := hone hnext
      dsimp only at hselect ⊢
      omega

/-! ### On the way

Nothing else is looked at, and the identifier is taken in the end. -/

section Way

variable (hnext : st.next = identifier) (hwindow : st.window ≤ 2)

include hnext hwindow

theorem near_rule (hr : r ∈ leaders) (h : parser.Move ⟨.rule r follow, frames, nodes, st⟩ m')
    (hrule : r < parser.grammar.size) : Near m' := by
  have hother : r ≠ stmt := by
    rintro rfl
    exact absurd hr (by decide)
  cases h with
  | missing hb => exact absurd hb (decisive.defined r hrule)
  | express hb =>
    refine .inr ⟨hwindow, hnext, .expression ?_⟩
    rw [body_grammar] at hb
    simp only [leaders, List.mem_cons, List.not_mem_nil, or_false] at hr
    rcases hr with rfl | rfl | rfl | rfl <;> cases hb
    rfl
  | @choose _ _ _ _ _ st₁ as a hb hs =>
    obtain ⟨b, s, rest, hsome, hsteps, hleads⟩ := select_leader hr hb hnext hs
    cases hsome
    have hselect := st.window_select_le parser.grammar r as
    rw [hs, st.selectGuarded_of_unguarded (unguarded_of_ne hother hb)] at hselect
    refine .inr ⟨?_, (Parser.stays_select_of_eq hs).next.trans hnext, hsteps ▸ .symbol hleads⟩
    dsimp only at hselect ⊢
    omega
  | retry hb hs | refuse hb hs =>
    obtain ⟨b, s, rest, hsome, -⟩ := select_leader hr hb hnext hs
    cases hsome

theorem near_symbol {s : Step} {rest : List Step} (hs : Leads s.symbol)
    (h : parser.Move ⟨.steps (s :: rest) follow .proceeding, frames, nodes, st⟩ m') : Near m' := by
  cases h with
  | @enter _ _ _ _ _ _ _ st₁ _ hst hc he =>
    have hst₁ : st₁.window ≤ 2 ∧ st₁.next = identifier := by
      rcases hst with rfl | rfl
      · exact ⟨hwindow, hnext⟩
      · have hfill := st.window_fill_le 0
        exact ⟨by omega, (st.next_fill 0).trans hnext⟩
    generalize s.symbol = symbol at he hs
    rcases hs with rfl | ⟨r, hr, rfl⟩
    · cases he with
      | token hid =>
        left
        have hfill := st₁.window_fill_le 0
        have htake := (st₁.fill 0).window_takeLeaf_le
        dsimp only
        omega
      | late hid | absent hid => exact absurd hst₁.2 hid
    · cases he
      exact .inr ⟨hst₁.1, hst₁.2, .rule hr⟩

theorem near_expression {ctx : ExpressionContext} (hops : ctx.ops = operatorTable)
    (h : parser.Move ⟨.expression ctx, frames, nodes, st⟩ m') : Near m' := by
  have hsigns : ctx.ops.prefixPrecedence? st.next = none := by
    rw [hops, hnext]
    decide
  have hfirst : (parser.grammar.firstOf ctx.ops.operand).contains st.next = true := by
    rw [hops, hnext, Grammar.firstOf, parser, first_built]
    decide
  cases h with
  | sign hop =>
    rw [hsigns] at hop
    cases hop
  | operand hop hf =>
    have hfill := st.window_fill_le 0
    refine .inr ⟨by dsimp only; omega, (st.next_fill 0).trans hnext, .rule ?_⟩
    rw [hops]
    decide
  | lack hop hf =>
    rw [hfirst] at hf
    cases hf

end Way

theorem Shortsighted.move (h : Shortsighted m) (hm : m.Belongs parser.grammar)
    (hmove : parser.Move m m') : Shortsighted m' where
  begins := begins_of_move hmove hm
  window := by
    rcases h.window with hone | ⟨htwo, hnext, htoward⟩
    · by_cases hstmt : ∃ follow, m.task = .rule stmt follow
      · obtain ⟨follow, htask⟩ := hstmt
        obtain ⟨task, frames, nodes, st⟩ := m
        dsimp only at htask
        subst htask
        exact near_stmt hmove (h.begins follow rfl) hone
      · left
        have hle := hmove.window_le fun r follow as htask hb => unguarded_of_ne
          (fun hr => hstmt ⟨follow, hr ▸ htask⟩) hb
        omega
    · obtain ⟨task, frames, nodes, st⟩ := m
      cases htoward with
      | rule hr => exact near_rule hnext htwo hr hmove hm.task
      | symbol hs => exact near_symbol hnext htwo hs hmove
      | expression hops => exact near_expression hnext htwo hops hmove

/-! ## Every moment -/

theorem shortsighted_of_reaches (hm : parser.Reaches (.ofText table text depth) m) :
    Shortsighted m := by
  induction hm using Parser.Reaches.induction with
  | start =>
    refine ⟨fun follow htask => ?_, .inl ((ParseState.ofStream _).window_fill_le 0)⟩
    have hstart : (parser.start (.ofText table text depth)).task = .done .proceeding ∨
        (parser.start (.ofText table text depth)).task = .rule program (.single .eof) := by
      unfold Parser.start
      dsimp only
      split
      · exact .inl rfl
      · exact .inr rfl
    change (parser.start (.ofText table text depth)).task = _ at htask
    rcases hstart with heq | heq <;> rw [heq] at htask <;> cases htask
  | step m hm ih => exact ih.move (hm.belongs checked_grammar) (Parser.step_move ..)

/-- Every report of a parse comes behind what the lexer has to say up to the next token, in texts
of any size. -/
theorem timely_of_reaches (hm : parser.Reaches (.ofText table text depth) m) :
    parser.Timely m := by
  have hbelongs := hm.belongs checked_grammar
  obtain ⟨hbegins, hwindow⟩ := shortsighted_of_reaches hm
  intro st hst
  refine (hst.attends (Parser.attends_of_reaches hm)).prompt ?_
  cases hst with
  | missing hb => exact absurd hb (decisive.defined _ hbelongs.task)
  | ambiguous hb hc | undecided hb _ _ hc =>
    -- One token tells the alternatives apart, so that no ambiguity is reported.
    exact absurd hc (Nat.not_lt_of_le (decisive.one _ _ hb _))
  | @refused r follow _ _ st₀ _ as hb hs =>
    by_cases hstmt : r = stmt
    · subst hstmt
      obtain rfl : as = stmtAlternatives :=
        RuleBody.sequence.inj (hb.symm.trans (body_grammar stmt))
      exact absurd hs (select_stmt_ne_none (hbegins follow rfl))
    · have hselect := st₀.window_select_le parser.grammar r as
      rw [hs, st₀.selectGuarded_of_unguarded (unguarded_of_ne hstmt hb)] at hselect
      rcases hwindow with hone | ⟨-, hnext, ⟨hr⟩⟩
      · dsimp only at hselect hone
        omega
      · obtain ⟨b, s, rest, hsome, -⟩ := select_leader hr hb hnext hs
        cases hsome
  | absent hs hid =>
    rcases hwindow with hone | ⟨-, hnext, htoward⟩
    · exact hone
    · cases htoward with
      | symbol hleads =>
        rw [hs] at hleads
        rcases hleads with heq | ⟨r, -, heq⟩
        · exact absurd (hnext.trans (Symbol.token.inj heq).symm) hid
        · cases heq
  | stray hf =>
    rcases hwindow with hone | ⟨-, -, htoward⟩
    · exact hone
    · cases htoward
  | lack hop hf =>
    rcases hwindow with hone | ⟨-, hnext, htoward⟩
    · exact hone
    · cases htoward with
      | expression hops =>
        dsimp only at hnext
        rw [hops, hnext, Grammar.firstOf, parser, first_built] at hf
        exact absurd hf (by decide)

/-- And so does what is reported at the end. -/
theorem prompt_of_halted (hm : parser.Reaches (.ofText table text depth) m)
    (hhalted : m.halted = true) : m.state.Prompt := by
  refine (Parser.attends_of_reaches hm).prompt ?_
  rcases (shortsighted_of_reaches hm).window with hone | ⟨-, -, htoward⟩
  · exact hone
  · obtain ⟨task, frames, nodes, st⟩ := m
    rw [Machine.halted, Bool.and_eq_true] at hhalted
    cases htoward <;> cases hhalted.2

/-- The parser of the demonstration language is never late, in texts of any size. -/
theorem punctual (table : TokenTable) (text : List Char) (depth : Nat) :
    parser.Punctual (.ofText table text depth) :=
  fun _ hm => ⟨timely_of_reaches hm, prompt_of_halted hm⟩

end Demo

end FrontEnd
