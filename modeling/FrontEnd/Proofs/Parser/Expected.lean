import FrontEnd.Proofs.Grammar.Conflicts
import FrontEnd.Proofs.Grammar.FirstSets
import FrontEnd.Proofs.Parser.Start
import FrontEnd.Proofs.Parser.Telling

/-!
# What is found is not expected

A report of an unexpected token names the tokens that were expected instead. Each of the steps that
can meet such a token takes them from elsewhere: a token from the production, the tokens that begin
a rule from the analysis of the grammar, and what may come behind a repetition from the stack. The
token that was found is never among them, since there would have been a way to go on with it.

- `ParseState.not_first_of_choose`: no alternative is left out;
- `Parser.not_contains_of_mismatch?`: **what is found is not expected**;
- `Parser.Move.told`: a step reports the mismatch that it meets;
- `Parser.mismatchesWithin`, `Parser.told_run`: and so does a run;
- `Parser.found_not_expected`: the reports of unexpected tokens, and what they expect.
-/

namespace FrontEnd

/-- Does the report say that a token was not expected? -/
def Diagnostic.isMismatch (d : Diagnostic) : Bool := d.code == .unexpectedToken

theorem Diagnostic.isMismatch_of_isLexical {d : Diagnostic} (h : d.isLexical = true) :
    d.isMismatch = false := by
  rw [isLexical, beq_iff_eq] at h
  rw [isMismatch, h]
  rfl

/-- If there is no alternative to parse, none begins with the next token, whatever its guard. -/
theorem ParseState.not_first_of_choose {as : List Alternative} {ids : List TokenId}
    (h : choose as ids = none) : ∀ a ∈ as, a.first.contains (ids.headD .eof) = false := by
  rw [choose, Option.or_eq_none_iff, Option.or_eq_none_iff] at h
  have hfallback := h.2.2
  unfold fallback at hfallback
  rw [Option.or_eq_none_iff, Option.or_eq_none_iff] at hfallback
  obtain ⟨-, hfirst, -⟩ := hfallback
  exact fun a ha => Bool.eq_false_iff.2 (List.find?_eq_none.1 hfirst a ha)

theorem Operators.prefixPrecedence?_isSome {ops : Operators} {id : TokenId}
    (h : id ∈ ops.prefixes.map PrefixOperator.token) :
    (ops.prefixPrecedence? id).isSome = true := by
  obtain ⟨op, hop, rfl⟩ := List.mem_map.1 h
  rw [prefixPrecedence?, Option.isSome_map, List.find?_isSome]
  exact ⟨op, hop, beq_self_eq_true _⟩

namespace Mismatch

theorem id_token (x : Mismatch) : x.token.id = x.state.next := x.state.id_current_fill

end Mismatch

namespace Parser

variable {p : Parser} {m m' : Machine} {x : Mismatch} {said : List Diagnostic}

/-! ## The sets of expected tokens -/

theorem not_contains_of_absent? {symbol : Symbol} {st : ParseState}
    (hx : absent? symbol st = some x) : x.expected.contains x.token.id = false := by
  cases symbol with
  | token id =>
    rw [absent?, Option.ite_none_left_eq_some] at hx
    obtain ⟨hid, ⟨⟩⟩ := hx
    rw [Mismatch.id_token, ParseState.next_fill, TokenSet.contains_single]
    exact beq_false_of_ne (Ne.symm hid)
  | rule | opt | many => cases hx

/-- What is found is none of what is expected. -/
theorem not_contains_of_mismatch? (hc : p.grammar.Checked) (hm : m.Belongs p.grammar)
    (hx : p.mismatch? m = some x) : x.expected.contains x.token.id = false := by
  obtain ⟨task, frames, nodes, st⟩ := m
  cases task with
  | rule r follow =>
    rw [mismatch?] at hx
    cases hb : p.grammar.body r with
    | undefined => simp [hb] at hx
    | expression ops => simp [hb] at hx
    | sequence as =>
      simp only [hb, Option.ite_none_left_eq_some] at hx
      obtain ⟨hnone, ⟨⟩⟩ := hx
      rw [Mismatch.id_token, (st.stays_select p.grammar r as).next, Bool.eq_false_iff]
      intro hfirst
      rw [Option.not_isSome_iff_eq_none, ParseState.fst_select] at hnone
      -- A token that begins the rule begins one of its alternatives.
      rcases hc.exists_reason_of_first hfirst with ⟨as', hb', a, ha, ht⟩ | ⟨ops, hb', -⟩
      · cases hb.symm.trans hb'
        exact absurd ht (Bool.eq_false_iff.1 (ParseState.not_first_of_choose hnone a ha))
      · cases hb.symm.trans hb'
  | steps rest follow flow =>
    cases rest with
    | nil => cases hx
    | cons s rest =>
      cases flow with
      | proceeding => exact not_contains_of_absent? hx
      | recovering => cases hx
  | repetition r follow =>
    rw [mismatch?, Option.ite_none_left_eq_some] at hx
    obtain ⟨hother, ⟨⟩⟩ := hx
    rw [not_or, not_or, Bool.not_eq_true, Bool.not_eq_true] at hother
    rw [Mismatch.id_token, ParseState.next_fill, TokenSet.contains_union, Bool.or_eq_false_iff]
    exact hother.2
  | expression ctx =>
    rw [mismatch?, Option.ite_none_left_eq_some] at hx
    obtain ⟨hother, ⟨⟩⟩ := hx
    rw [not_or] at hother
    have hbody : p.grammar.body ctx.rule = .expression ctx.ops := hm.task.1
    rw [Mismatch.id_token, ParseState.next_fill, Bool.eq_false_iff]
    intro hfirst
    rcases hc.exists_reason_of_first hfirst with ⟨as, hb, -⟩ | ⟨ops, hb, ht⟩
    · cases hbody.symm.trans hb
    · cases hbody.symm.trans hb
      rcases ht with ht | ht
      · exact hother.2 ht
      · exact hother.1 (Operators.prefixPrecedence?_isSome ht)
  | climb ctx lhs => cases hx
  | done flow => cases hx

/-! ## The reports of a run -/

/-- What a list of mismatches has reported. -/
def reportsOf (g : Grammar) (xs : List Mismatch) : List Diagnostic :=
  (xs.filter Mismatch.isReported).map (Mismatch.report g)

theorem bridges_mismatch (p : Parser) (x? : Option Mismatch) (said : List Diagnostic) :
    p.Bridges x? (ParseState.Told Diagnostic.isMismatch said)
      (ParseState.Told Diagnostic.isMismatch (said ++ reportsOf p.grammar x?.toList)) where
  none := by
    rintro rfl st h
    rw [Option.toList_none, reportsOf, List.filter_nil, List.map_nil, List.append_nil]
    exact h
  some := by
    rintro x rfl h
    have hreported := h.unexpected (g := p.grammar) p.sync x.expected
    rw [Option.toList_some, reportsOf]
    cases hx : x.isReported with
    | true =>
      rw [hx] at hreported
      rw [List.filter_cons_of_pos hx]
      exact hreported
    | false =>
      rw [hx] at hreported
      rw [List.filter_cons_of_neg (ne_true_of_eq_false hx)]
      exact hreported

/-- **A step reports the mismatch that it meets**, and no other unexpected token. -/
theorem Move.told (hmove : p.Move m m') (h : m.state.Told Diagnostic.isMismatch said) :
    m'.state.Told Diagnostic.isMismatch (said ++ reportsOf p.grammar (p.mismatch? m).toList) := by
  have hbridge := bridges_mismatch p (p.mismatch? m) said
  have hselect : ∀ {st st₁ : ParseState} {r as a said}, st.Told Diagnostic.isMismatch said →
      st.select p.grammar r as = (a, st₁) → st₁.Told Diagnostic.isMismatch said := by
    intro st st₁ r as a said h hs
    have hst := h.select (g := p.grammar) (r := r) (fun _ => rfl) as
    rwa [hs] at hst
  by_cases htask : ∀ r follow, m.task ≠ .rule r follow
  · exact hmove.kept (ParseState.Told.kept ..) (ParseState.Told.kept ..) hbridge htask h
  obtain ⟨task, frames, nodes, st⟩ := m
  cases task with
  | rule r follow =>
    cases hmove with
    | missing hb => exact (hbridge.none (by simp [mismatch?, hb]) h).missingRule fun _ => rfl
    | express hb => exact hbridge.none (by simp [mismatch?, hb]) h
    | choose hb hs => exact hselect (hbridge.none (by simp [mismatch?, hb, hs]) h) hs
    | @retry _ _ _ _ _ _ st₁ _ _ _ _ hb hs _ hu hs₂
    | @refuse _ _ _ _ _ _ st₁ _ _ _ _ hb hs hu hs₂ =>
      have hfound : p.mismatch? ⟨.rule r follow, frames, nodes, st⟩
          = some ⟨p.grammar.firstOf r, st₁⟩ := by simp [mismatch?, hb, hs]
      have hbehind := hbridge.some _ hfound (hselect h hs)
      rw [hu] at hbehind
      exact hselect (hbehind.fill 0) hs₂
  | steps | repetition | expression | climb | done => exact absurd (fun _ _ => nofun) htask

/-- The mismatches that so many steps meet, in their order. -/
def mismatchesWithin (p : Parser) (n : Nat) (m : Machine) : List Mismatch :=
  (List.range n).filterMap fun i => p.mismatch? (p.run i m)

theorem mismatchesWithin_succ (p : Parser) (n : Nat) (m : Machine) :
    p.mismatchesWithin (n + 1) m
      = p.mismatchesWithin n m ++ (p.mismatch? (p.run n m)).toList := by
  rw [mismatchesWithin, List.range_succ, List.filterMap_append, List.filterMap_cons,
    List.filterMap_nil]
  cases p.mismatch? (p.run n m) <;> rfl

variable {decls : List GrammarDecl} {g : Grammar}

/-- **A run reports the mismatches that it meets.** -/
theorem told_run (p : Parser) (table : TokenTable) (mode : TriviaMode) (text : List Char)
    (depth n : Nat) :
    (p.run n (p.start (.ofLexer (.ofText table mode text) depth))).state.Told Diagnostic.isMismatch
      (reportsOf p.grammar
        (p.mismatchesWithin n (p.start (.ofLexer (.ofText table mode text) depth)))) := by
  induction n with
  | zero =>
    have hstart := ParseState.told_ofStream
      (fun _ hd => Diagnostic.isMismatch_of_isLexical hd) table mode text depth
    exact hstart.fill 0
  | succ n ih =>
    have hstep := (step_move p _).told ih
    rw [run_succ, mismatchesWithin_succ, reportsOf, List.filter_append, List.map_append]
    exact hstep

/-- For every grammar that was built: where a parse meets a token that it cannot use, the token is
none of those that it expects instead, and these are the tokens that the report names. There is such
a report for each such token, in their order, unless tokens were skipped right before or the token
is a character without a rule, and no other report says that a token was not expected. -/
theorem found_not_expected (hg : Grammar.ofDecls decls = .ok g) (sync : TokenSet)
    (table : TokenTable) (mode : TriviaMode) (text : List Char) (depth n : Nat) :
    let start := Parser.start ⟨g, sync⟩ (.ofLexer (.ofText table mode text) depth)
    let found := mismatchesWithin ⟨g, sync⟩ n start
    (∀ x ∈ found, x.expected.contains x.token.id = false) ∧
      (run ⟨g, sync⟩ n start).state.reports.toList.filter Diagnostic.isMismatch
        = (found.filter Mismatch.isReported).map (Mismatch.report g) ∧
      ∀ q, Parser.Answers ⟨g, sync⟩ (.ofLexer (.ofText table mode text) depth) q →
        (run ⟨g, sync⟩ n start).halted = true →
          q.diagnostics.filter Diagnostic.isMismatch
            = (found.filter Mismatch.isReported).map (Mismatch.report g) := by
  intro start found
  have hc := Grammar.checked_of_ofDecls hg
  have htold := told_run ⟨g, sync⟩ table mode text depth n
  refine ⟨fun x hx => ?_, htold.told, fun q hq hn => ?_⟩
  · obtain ⟨i, -, hi⟩ := List.mem_filterMap.1 hx
    have hreaches : Parser.Reaches ⟨g, sync⟩ (.ofLexer (.ofText table mode text) depth)
      (run ⟨g, sync⟩ i start) := ⟨i, rfl⟩
    exact not_contains_of_mismatch? hc (hreaches.belongs hc) hi
  · rw [finish_of_reaches ⟨n, rfl⟩ hn hq]
    exact told_finish htold fun _ _ => rfl

/-- A sign where both alternatives begin with a name. -/
theorem found_not_expected_forked :
    ∃ x, mismatchesWithin ⟨.forked, ∅⟩ 1
        (start ⟨.forked, ∅⟩ (.ofLexer (.ofText sampleTable .skip ['+']) 1)) = [x] ∧
      x.isReported = true ∧ x.token.id = .kind 2 ∧ x.expected.contains (.kind 0) = true ∧
      x.expected.contains (.kind 2) = false := by
  have hids := ids_start ⟨.forked, ∅⟩ sampleTable ['+'] 1
  have hplus : Lexer.textIds sampleTable ['+'] = [.kind 2] :=
    textIds_sampleTable (show [('+', 2)] ⊆ sampleTokens by decide)
  have hne : Lexer.textIds sampleTable ['+'] ≠ [] := by
    rw [hplus]
    exact List.cons_ne_nil _ _
  obtain ⟨htask, -⟩ := task_start ⟨.forked, ∅⟩ 1 hne
  have hdamage : (start ⟨.forked, ∅⟩ (.ofText sampleTable ['+'] 1)).state.atDamage = false := rfl
  have hexpected := (found_not_expected Grammar.ofDecls_forked ∅ sampleTable .skip ['+'] 1 1).1
  rw [hplus] at hids
  rw [mismatchesWithin_succ] at hexpected ⊢
  generalize hstart : start ⟨.forked, ∅⟩ (.ofText sampleTable ['+'] 1) = m at htask hdamage hids
  have hstart' : start ⟨.forked, ∅⟩ (.ofLexer (.ofText sampleTable .skip ['+']) 1) = m := hstart
  rw [hstart'] at hexpected ⊢
  have hbody := Grammar.body_forked 0
  rw [if_pos rfl] at hbody
  generalize has : [Analysis.alternative .., Analysis.alternative ..] = as at hbody
  -- A sign begins neither alternative.
  have hnone : (m.state.select .forked 0 as).1 = none := by
    rw [ParseState.fst_select, hids, ← has]
    rfl
  have hstays := m.state.stays_select .forked 0 as
  have hfound : mismatch? ⟨.forked, ∅⟩ (run ⟨.forked, ∅⟩ 0 m)
      = some ⟨Grammar.forked.firstOf 0, (m.state.select .forked 0 as).2⟩ := by
    show mismatch? _ m = _
    have hstart₀ : Grammar.forked.start = 0 := rfl
    simp [mismatch?, htask, hstart₀, hbody, hnone]
  rw [hfound] at hexpected ⊢
  have hid : (Mismatch.mk (Grammar.forked.firstOf 0)
      (m.state.select .forked 0 as).2).token.id = .kind 2 := by
    rw [Mismatch.id_token, hstays.next, ParseState.next, hids]
    rfl
  have hnot := hexpected _ (List.mem_append_right _ List.mem_cons_self)
  rw [hid] at hnot
  have hname : (Grammar.forked.firstOf 0).contains (.kind 0) = true := by decide +kernel
  refine ⟨_, rfl, ?_, hid, ?_, hnot⟩
  · rw [Mismatch.isReported, hid, hstays.atDamage, hdamage]
    rfl
  · dsimp only
    exact hname

end Parser

end FrontEnd
