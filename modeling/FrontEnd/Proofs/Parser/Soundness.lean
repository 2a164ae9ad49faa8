import FrontEnd.Proofs.Parser.Completeness

/-!
# Parses without complaints are parses of the language

- `Parser.tracing_run`: a parse that reports nothing but ambiguities is a derivation from its first
  moment to its last;
- `Parser.derives_of_answers`: **when every report of an answer is about an ambiguity, the tokens
  of the text are derivable from the start rule**.
-/

namespace FrontEnd

namespace Parser

variable {p : Parser}

/-- A moment that is clean comes after clean moments only, and all of them trace a derivation. -/
theorem tracing_run (hc : p.grammar.Checked) (hend : p.grammar.Lacks .eof)
    {input : List TokenId} {m : Machine} (hm : p.Tracing input m) (n : Nat)
    (hclean : (p.run n m).state.Clean) : p.Tracing input (p.run n m) :=
  run_invariant_of_clean (fun _ _ hmove h hclean => hmove.tracing hc hend h hclean) hm n hclean

/-- A derivation that ends where the input ends has derived the input. -/
theorem Tracing.derives {input : List TokenId} {m : Machine} (h : p.Tracing input m)
    (hhalted : m.halted = true) (hend : m.state.ids = []) :
    p.grammar.Derives [.rule p.grammar.start] input := by
  obtain ⟨task, frames, nodes, st⟩ := m
  rw [Machine.halted, Bool.and_eq_true, List.isEmpty_iff] at hhalted
  obtain ⟨rfl, htask⟩ := hhalted
  have hall : input.length ≤ st.consumed := by
    have hids := h.ids
    rw [hend] at hids
    exact List.drop_eq_nil_iff.1 hids.symm
  have hyields := h.traces.yields
  cases task with
  | done flow =>
    simp only [Task.form, pending, List.append_nil] at hyields
    refine hyields.derives ?_
    rw [List.take_of_length_le hall]
    exact Grammar.derives_tokens ..
  | _ => cases htask

/-- When every report of an answer is about an ambiguity, the tokens of the text are derivable from
the start rule. -/
theorem derives_of_answers {decls : List GrammarDecl} {g : Grammar}
    (hg : Grammar.ofDecls decls = .ok g) (hend : g.Lacks .eof) {sync : TokenSet}
    {table : TokenTable} {text : List Char} (hne : Lexer.textIds table text ≠ []) {depth : Nat}
    {q : Parse} (hq : Parser.Answers ⟨g, sync⟩ (.ofText table text depth) q)
    (hclean : ∀ d ∈ q.diagnostics, d.code = .ambiguousRule) :
    g.Derives [.rule g.start] (Lexer.textIds table text) := by
  have hc := Grammar.checked_of_ofDecls hg
  obtain ⟨n, hhalted, rfl⟩ := (answers_iff _ _ _).1 hq
  generalize hm : Parser.run ⟨g, sync⟩ n (start ⟨g, sync⟩ (.ofText table text depth)) = m at *
  obtain ⟨hfiled, htrailing⟩ := finish_spec m
  have htracing : Parser.Tracing ⟨g, sync⟩ (Lexer.textIds table text) m := by
    rw [← hm]
    refine tracing_run hc hend (tracing_start hc hne) n fun d hd => hclean d (hfiled ?_)
    rwa [← hm]
  refine htracing.derives hhalted ?_
  -- Tokens that are left behind would be reported.
  have hnext : m.state.next = .eof := by
    by_contra hne
    have hdamage : m.state.atDamage = false := by
      rw [ParseState.atDamage, htracing.recoveredAt]
      rfl
    obtain ⟨d, hd, hcode⟩ := htrailing hne hdamage
    exact hcode (hclean d hd)
  cases hids : m.state.ids with
  | nil => rfl
  | cons t rest =>
    have hmem : t ∈ Lexer.textIds table text := by
      refine List.mem_of_mem_drop (i := m.state.consumed) ?_
      rw [← htracing.ids, hids]
      exact List.mem_cons_self
    rw [ParseState.next, hids] at hnext
    exact absurd hnext (ne_eof_of_mem_textIds hmem)

/-- A parse with operators and parentheses reports nothing, and the text is one of the small
grammar. -/
theorem derives_of_answers_sample :
    ∃ q, Parser.Answers ⟨.sample, ∅⟩ (.ofText sampleTable sampleText 1) q ∧
      (∀ d ∈ q.diagnostics, d.code = .ambiguousRule) ∧
      Grammar.sample.Derives [.rule Grammar.sample.start] (Lexer.textIds sampleTable sampleText) := by
  have hne : Lexer.textIds sampleTable sampleText ≠ [] := by rw [textIds_sampleText]; nofun
  obtain ⟨m, hanswers, hquiet, hend⟩ := exists_promising_end (p := ⟨.sample, ∅⟩)
    Grammar.checked_sample Grammar.plain_sample 1 hne (textIds_sampleText ▸ Grammar.derives_sample)
  have hclean : ∀ d ∈ (finish m).diagnostics, d.code = .ambiguousRule := by
    rw [(hquiet.finish hend).1]
    nofun
  exact ⟨finish m, hanswers, hclean,
    derives_of_answers Grammar.ofDecls_sample (Grammar.lacks_sample nofun) hne hanswers hclean⟩

end Parser

end FrontEnd
