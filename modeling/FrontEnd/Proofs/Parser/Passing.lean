import FrontEnd.Proofs.Parser.Completeness
import FrontEnd.Proofs.Parser.Returns

/-!
# Parts of a parse without complaints

Whether a task ends well is often seen from the tokens in front of it alone, whatever lies on the
stack. Such parts are put together here like the productions that they come from.

- `Parser.Passes`: **a task ends well and quietly, and these tokens are left**;
- `Parser.Enters`: so does what a symbol begins;
- `Parser.passes_cons`, `Parser.passes_of_choose`: the parts of a production, and of a rule;
- `Parser.answers_quietly_of_passes`: a text that is left behind quietly has a quiet answer.
-/

namespace FrontEnd

namespace Parser

variable {p : Parser} {r : Nat} {t : TokenId} {follow : TokenSet} {ids ids₁ ids' : List TokenId}
  {s : Step} {rest : List Step} {symbol : Symbol}

/-- Wherever the task is taken up quietly in front of `ids`, it ends well and quietly in front of
`ids'`. -/
def Passes (p : Parser) (task : Task) (ids ids' : List TokenId) : Prop :=
  ∀ (frames : List Frame) (nodes : List NodeId) (st : ParseState), st.Quiet → st.ids = ids →
    ∃ n made st', p.Returns n ⟨task, frames, nodes, st⟩
      ⟨.done .proceeding, frames, made ++ nodes, st'⟩ ∧ st'.Quiet ∧ st'.ids = ids'

/-- Wherever the symbol is begun quietly in front of `ids`, this leads to a task that passes. -/
def Enters (p : Parser) (symbol : Symbol) (follow : TokenSet) (ids ids' : List TokenId) : Prop :=
  ∀ (frames : List Frame) (nodes : List NodeId) (st : ParseState), st.Quiet → st.ids = ids →
    ∃ task made st₁ ids₁, p.enterSymbol symbol follow frames nodes st
      = ⟨task, frames, made ++ nodes, st₁⟩ ∧ st₁.Quiet ∧ st₁.ids = ids₁ ∧ p.Passes task ids₁ ids'

/-- What is done is left alone. -/
theorem Returns.of_done_task (p : Parser) (flow : Flow) (frames : List Frame) (nodes : List NodeId)
    (st : ParseState) :
    p.Returns 0 ⟨.done flow, frames, nodes, st⟩ ⟨.done flow, frames, nodes, st⟩ :=
  ⟨rfl, ⟨rfl, flow, rfl⟩, fun _ hk => absurd hk (Nat.not_lt_zero _)⟩

theorem passes_done (p : Parser) (ids : List TokenId) : p.Passes (.done .proceeding) ids ids :=
  fun _ _ st hquiet hids => ⟨0, [], st, .of_done_task .., hquiet, hids⟩

/-! ## Symbols -/

/-- What is left when the next token is taken quietly. -/
theorem quiet_takeLeaf {st : ParseState} (hquiet : st.Quiet) (hids : st.ids = t :: ids) :
    (st.fill 0).takeLeaf.2.Quiet ∧ (st.fill 0).takeLeaf.2.ids = ids := by
  have htakes := (st.stays_fill 0).takes (st.fill 0).takes_takeLeaf
  have hlen : min 1 (st.fill 0).ids.length = 1 := by
    rw [ParseState.ids_fill, hids]
    simp
  refine ⟨(hquiet.fill 0).takeLeaf, ?_⟩
  rw [htakes.ids, hlen, hids]
  rfl

/-- A token that is there is taken. -/
theorem enters_token (p : Parser) (t : TokenId) (follow : TokenSet) (ids : List TokenId) :
    p.Enters (.token t) follow (t :: ids) ids := by
  intro frames nodes st hquiet hids
  have hnext : (st.fill 0).current.id = t := by
    rw [ParseState.id_current_fill, ParseState.next, hids]
    rfl
  obtain ⟨hquiet', hids'⟩ := quiet_takeLeaf hquiet hids
  refine ⟨.done .proceeding, [(st.fill 0).takeLeaf.1], (st.fill 0).takeLeaf.2, ids, ?_, hquiet',
    hids', passes_done p ids⟩
  show p.expect t frames nodes st = _
  rw [expect, if_pos hnext]
  rfl

theorem enters_rule (h : p.Passes (.rule r follow) ids ids') :
    p.Enters (.rule r) follow ids ids' :=
  fun _ _ st hquiet hids => ⟨.rule r follow, [], st, ids, rfl, hquiet, hids, h⟩

/-- An optional rule that the next token does not begin is left out. -/
theorem enters_opt (hf : (p.grammar.firstOf r).contains (ids.headD .eof) = false)
    (follow : TokenSet) : p.Enters (.opt r) follow ids ids := by
  intro frames nodes st hquiet hids
  refine ⟨.done .proceeding, [], st.fill 0, ids, ?_, hquiet.fill 0, ?_, passes_done p ids⟩
  · have hno : ¬ (p.grammar.firstOf r).contains (st.fill 0).current.id = true := by
      rw [ParseState.id_current_fill, ParseState.next, hids, hf]
      exact Bool.false_ne_true
    exact if_neg hno
  · rw [ParseState.ids_fill, hids]

/-- A repetition ends in front of a token that may follow and begins no round. -/
theorem passes_close (hf : (p.grammar.firstOf r).contains (ids.headD .eof) = false)
    (hfollow : follow.contains (ids.headD .eof) = true) :
    p.Passes (.repetition r follow) ids ids := by
  intro frames nodes st hquiet hids
  have hstep : p.step ⟨.repetition r follow, frames, nodes, st⟩
      = ⟨.done .proceeding, frames, nodes, st.fill 0⟩ := by
    show p.enterRepetition r follow frames nodes st = _
    rw [← hids] at hf hfollow
    simp only [enterRepetition, ParseState.id_current_fill, ParseState.next, hf, hfollow,
      Bool.false_eq_true, if_false, if_true, ite_self]
  refine ⟨1, [], st.fill 0, Returns.before ?_ (by simp) (by rw [hstep]), hquiet.fill 0, ?_⟩
  · rw [hstep]
    exact .of_done_task ..
  · rw [ParseState.ids_fill, hids]

theorem enters_many (h : p.Passes (.repetition r follow) ids ids') :
    p.Enters (.many r) follow ids ids' :=
  fun _ _ st hquiet hids => ⟨.repetition r follow, [], st, ids, rfl, hquiet, hids, h⟩

/-! ## Productions -/

theorem passes_nil (p : Parser) (follow : TokenSet) (ids : List TokenId) :
    p.Passes (.steps [] follow .proceeding) ids ids :=
  fun _ _ st hquiet hids => ⟨1, [], st, (Returns.of_done_task ..).before nofun rfl, hquiet, hids⟩

/-- Behind a symbol that is entered quietly the production goes on. -/
theorem Enters.goes_on (h : p.Enters s.symbol (followOf s follow) ids ids₁) (rest : List Step)
    (frames : List Frame) (nodes : List NodeId) {st : ParseState} (hquiet : st.Quiet)
    (hids : st.ids = ids) :
    (p.step ⟨.steps (s :: rest) follow .proceeding, frames, nodes, st⟩).frames
        = .steps rest follow :: frames ∧
      ∃ n made st', p.Returns n (p.step ⟨.steps (s :: rest) follow .proceeding, frames, nodes, st⟩)
          ⟨.done .proceeding, .steps rest follow :: frames, made ++ nodes, st'⟩ ∧
        st'.Quiet ∧ st'.ids = ids₁ := by
  obtain ⟨task, made, st₁, ids₂, henter, hquiet₁, hids₁, hpasses⟩ :=
    h (.steps rest follow :: frames) nodes st hquiet hids
  have hstep : p.step ⟨.steps (s :: rest) follow .proceeding, frames, nodes, st⟩
      = ⟨task, .steps rest follow :: frames, made ++ nodes, st₁⟩ := henter
  obtain ⟨n, made₁, st₂, hn, hquiet₂, hids₂⟩ :=
    hpasses (.steps rest follow :: frames) (made ++ nodes) st₁ hquiet₁ hids₁
  rw [← List.append_assoc] at hn
  rw [hstep]
  exact ⟨rfl, n, made₁ ++ made, st₂, hn, hquiet₂, hids₂⟩

theorem passes_cons (h : p.Enters s.symbol (followOf s follow) ids ids₁)
    (h' : p.Passes (.steps rest follow .proceeding) ids₁ ids') :
    p.Passes (.steps (s :: rest) follow .proceeding) ids ids' := by
  intro frames nodes st hquiet hids
  obtain ⟨hframes, i, made, st₁, hi, hquiet₁, hids₁⟩ := h.goes_on rest frames nodes hquiet hids
  obtain ⟨j, made', st₂, hj, hquiet₂, hids₂⟩ := h' frames (made ++ nodes) st₁ hquiet₁ hids₁
  rw [← List.append_assoc] at hj
  exact ⟨i + j + 2, made' ++ made, st₂, hi.around hj nofun hframes, hquiet₂, hids₂⟩

/-- The alternative that is chosen is begun quietly, when no other one is a candidate. -/
theorem step_of_choose_quietly {as : List Alternative} {a : Alternative}
    (hb : p.grammar.body r = .sequence as) (hguard : ∀ a ∈ as, a.guard = [])
    (hone : (ParseState.candidates as (ids.headD .eof)).length ≤ 1)
    (hchoose : ParseState.choose as ids = some a) (follow : TokenSet) (frames : List Frame)
    (nodes : List NodeId) {st : ParseState} (hquiet : st.Quiet) (hids : st.ids = ids) :
    ∃ st₁, p.step ⟨.rule r follow, frames, nodes, st⟩
        = ⟨.steps a.steps follow .proceeding, .rule r st.consumed nodes :: frames, [], st₁⟩ ∧
      st₁.Quiet ∧ st₁.ids = ids := by
  subst hids
  obtain ⟨st₁, hs⟩ : ∃ st₁, st.select p.grammar r as = (some a, st₁) :=
    ⟨_, Prod.ext ((st.fst_select p.grammar r as).trans hchoose) rfl⟩
  have hquiet₁ := hquiet.select p.grammar r hguard hone
  rw [hs] at hquiet₁
  refine ⟨st₁, ?_, hquiet₁, (stays_select_of_eq hs).ids_eq⟩
  show p.enterRule r follow frames nodes st = _
  simp only [enterRule, hb, hs]

/-- A rule passes when the alternative that is chosen does, and no other one is a candidate. -/
theorem passes_of_choose {as : List Alternative} {a : Alternative}
    (hb : p.grammar.body r = .sequence as) (hguard : ∀ a ∈ as, a.guard = [])
    (hone : (ParseState.candidates as (ids.headD .eof)).length ≤ 1)
    (hchoose : ParseState.choose as ids = some a)
    (h : p.Passes (.steps a.steps follow .proceeding) ids ids') :
    p.Passes (.rule r follow) ids ids' := by
  intro frames nodes st hquiet hids
  obtain ⟨st₁, hstep, hquiet₁, hids₁⟩ :=
    step_of_choose_quietly hb hguard hone hchoose follow frames nodes hquiet hids
  obtain ⟨i, made, st₂, hi, hquiet₂, hids₂⟩ :=
    h (.rule r st.consumed nodes :: frames) [] st₁ hquiet₁ hids₁
  rw [List.append_nil, ← hstep] at hi
  have hleave : ∃ made' st₃,
      p.step ⟨.done .proceeding, .rule r st.consumed nodes :: frames, made, st₂⟩
        = ⟨.done .proceeding, frames, made' ++ nodes, st₃⟩ ∧ st₃.Quiet ∧ st₃.ids = st₂.ids := by
    show ∃ made' st₃, p.leaveRule r .proceeding nodes frames made st₂ = _ ∧ _
    unfold leaveRule
    split
    · exact ⟨[_], _, rfl, (hquiet₂.fill 0).pushNode (by simp) _ _,
        (ParseState.stays_pushNode ..).ids_eq.trans (st₂.ids_fill 0)⟩
    · exact ⟨made, st₂, rfl, hquiet₂, rfl⟩
  obtain ⟨made', st₃, hleave, hquiet₃, hids₃⟩ := hleave
  refine ⟨i + 0 + 2, made', st₃, hi.around ?_ nofun (congrArg Machine.frames hstep), hquiet₃,
    hids₃.trans hids₂⟩
  rw [hleave]
  exact .of_done_task ..

/-! ## Whole parses -/

/-- Where the start rule passes and leaves nothing of a text, the answer is quiet. -/
theorem answers_quietly_of_passes {table : TokenTable} {text : List Char} (depth : Nat)
    (hne : Lexer.textIds table text ≠ []) (hknown : .unknown ∉ Lexer.textIds table text)
    (h : p.Passes (.rule p.grammar.start (.single .eof)) (Lexer.textIds table text) []) :
    ∃ q, p.Answers (.ofText table text depth) q ∧ q.diagnostics = [] ∧ q.tree.errorNodes = [] := by
  obtain ⟨htask, hframes⟩ := task_start p depth hne
  have hquiet := quiet_start p depth hknown
  have hids := ids_start p table text depth
  have hnodes : (p.start (.ofText table text depth)).nodes = [] := rfl
  generalize hm : p.start (.ofText table text depth) = m at htask hframes hquiet hids hnodes
  obtain ⟨task, frames, nodes, st⟩ := m
  dsimp only at htask hframes hnodes
  subst htask hframes hnodes
  obtain ⟨n, made, st', hreturns, hquiet', hids'⟩ := h [] [] st hquiet hids
  refine ⟨finish ⟨.done .proceeding, [], made ++ [], st'⟩, (answers_iff ..).2 ⟨n, ?_, ?_⟩,
    hquiet'.finish ?_⟩
  · rw [hm, hreturns.run]
    rfl
  · rw [hm, hreturns.run]
  · rw [ParseState.next, hids']
    rfl

end Parser

end FrontEnd
