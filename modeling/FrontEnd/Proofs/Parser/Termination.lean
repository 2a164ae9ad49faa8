import FrontEnd.Proofs.Parser.Halting
import FrontEnd.Proofs.Parser.Loops
import FrontEnd.Proofs.Parser.Start

/-!
# Parses with complete grammars end

Where every rule is defined and nobody waits for the end of the input, rules are boundedly nested in
every moment, so that every parse ends.

- `Parser.nested_run`: **the bound holds from the first moment on**, as long as rules that are
  missing are met before a failure or at the end of the input only;
- `Parser.exists_answer`: then the parse has an answer;
- `Parser.bounded_nesting`: all that is bounded in a parse with a complete grammar.
-/

namespace FrontEnd

namespace Parser

variable {p : Parser} {rank : Nat → Nat}

theorem nested_run (hc : p.grammar.Checked) (hend : p.grammar.Lacks .eof)
    (hrank : p.grammar.Ranks rank) (stream : TokenStream)
    (hmissing : ∀ n r follow, (p.run n (p.start stream)).task = .rule r follow → r < p.grammar.size →
      p.grammar.body r = .undefined → (p.run n (p.start stream)).state.atDamage = false ∨
        (p.run n (p.start stream)).state.next = .eof) (n : Nat) :
    Nested p.grammar rank (p.run n (p.start stream)) := by
  induction n with
  | zero => exact nested_start hc stream
  | succ n ih =>
    have hmove := step_move p (p.run n (p.start stream))
    rw [← run_succ] at hmove
    refine hmove.nested hc hend hrank ih fun r follow htask hb => ?_
    have hbelongs := ih.belongs.task
    rw [htask] at hbelongs
    exact hmissing n r follow htask hbelongs hb

/-- A parse with boundedly nested rules has an answer. -/
theorem exists_answer {stream : TokenStream} (hc : p.grammar.Checked)
    (hend : p.grammar.Lacks .eof) (hrank : p.grammar.Ranks rank)
    (hnested : ∀ n, Nested p.grammar rank (p.run n (p.start stream))) :
    ∃ q, p.Answers stream q := by
  obtain ⟨n, hhalted⟩ := exists_halted hc hend hrank hnested
  exact ⟨_, (answers_iff ..).2 ⟨n, hhalted, rfl⟩⟩

/-- With every rule defined and without the end of the input as a symbol, in every moment of a
parse: for every number of tokens, at most twice as many rules as there are have been entered there
and are still being parsed; two rounds of a repetition take a token together; and a turn of the
operators takes a token. The parse ends with an answer. -/
theorem bounded_nesting {decls : List GrammarDecl} (hg : Grammar.ofDecls decls = .ok p.grammar)
    (hdefined : ∀ r < p.grammar.size, p.grammar.body r ≠ .undefined)
    (hend : p.grammar.Lacks .eof) (table : TokenTable) (text : List Char) (depth : Nat) :
    (∀ m, p.Reaches (.ofText table text depth) m →
      (∀ v, m.activeAt v ≤ 2 * p.grammar.size) ∧
      (∀ r follow m₁ m₂, m.task = .repetition r follow →
        p.Turn m m₁ → m₁.task = .repetition r follow →
        p.Turn m₁ m₂ → m₂.task = .repetition r follow → m.state.consumed < m₂.state.consumed) ∧
      ∀ ctx lhs m₁, m.task = .climb ctx lhs → p.Turn m m₁ → m₁.task ≠ .done .proceeding →
        m.state.consumed < m₁.state.consumed) ∧
    ∃ q, p.Answers (.ofText table text depth) q := by
  have hc := Grammar.checked_of_ofDecls hg
  obtain ⟨rank, hrank⟩ := hc.ranked
  have hnested : ∀ n, Nested p.grammar rank (p.run n (p.start (.ofText table text depth))) :=
    nested_run hc hend hrank _ fun n r follow _ hr hb => absurd hb (hdefined r hr)
  constructor
  · rintro m ⟨n, rfl⟩
    have hlater : ∀ k,
        Nested p.grammar rank (p.run k (p.run n (p.start (.ofText table text depth)))) := by
      intro k
      rw [← run_add]
      exact hnested (n + k)
    refine ⟨activeAt_le (hnested n) hrank, ?_, ?_⟩
    · intro r follow m₁ m₂ htask hturn htask₁ hturn' htask₂
      exact hturn.round_taken hlater hturn' htask htask₁ htask₂
    · intro ctx lhs m₁ htask hturn hgoes
      exact hturn.operator_taken hend (hnested n).belongs htask hgoes
  · exact exists_answer hc hend hrank hnested

/-- A parse with operators and parentheses ends, no more than six rules are ever entered at one
place, and each turn of the operators takes a token. -/
theorem bounded_nesting_sample :
    (∀ m, Parser.Reaches ⟨.sample, ∅⟩ (.ofText sampleTable sampleText 1) m →
        (∀ v, m.activeAt v ≤ 6) ∧
        ∀ ctx lhs m₁, m.task = .climb ctx lhs → Parser.Turn ⟨.sample, ∅⟩ m m₁ →
          m₁.task ≠ .done .proceeding → m.state.consumed < m₁.state.consumed) ∧
      ∃ q, Parser.Answers ⟨.sample, ∅⟩ (.ofText sampleTable sampleText 1) q := by
  have h := bounded_nesting (p := ⟨.sample, ∅⟩) Grammar.ofDecls_sample Grammar.defined_sample
    (Grammar.lacks_sample nofun) sampleTable sampleText 1
  refine ⟨fun m hm => ?_, h.2⟩
  obtain ⟨hactive, -, hoperators⟩ := h.1 m hm
  rw [Grammar.size_sample] at hactive
  exact ⟨hactive, hoperators⟩

end Parser

end FrontEnd
