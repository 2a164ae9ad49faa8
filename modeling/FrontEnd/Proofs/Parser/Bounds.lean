import FrontEnd.Proofs.Parser.Layout
import FrontEnd.Proofs.Parser.Lookups
import FrontEnd.Proofs.Stream.Division
import FrontEnd.Proofs.Tree.Memory

/-!
# No input leads out of range

A grammar that could be built, a table that could be built and a text are given. From the
declarations of the grammar to the writing of the tree, whatever is looked up is there.

- `Parser.start?`, `Parser.finish?`, `Parser.answer?`: whole parses, with lookups that can fail;
- `Parser.Answers.answer?_eq`: **a parse that answers finds all that it looks up**;
- `Parser.lookups_of_answers`: so do the analysis of the grammar, the building of the tree in
  memory, and its writing.
-/

noncomputable section

namespace FrontEnd

namespace Parser

/-! ## Whole parses -/

/-- The first moment. -/
def start? (p : Parser) (text : List Char) (stream : TokenStream) : Option Machine := do
  let st ← (ParseState.ofStream stream).fill? text 0
  let task : Task :=
    if st.current.id = .eof then .done .proceeding
    else .rule p.grammar.start (.single .eof)
  some ⟨task, [], [], st⟩

/-- Puts nodes that are there under the root. -/
def root? (nodes : List NodeId) (st : ParseState) : Option Parse :=
  if ∀ id ∈ nodes, id < st.arena.nodes.size then
    some ⟨st.arena.finish nodes.reverse st.current.position, st.allReports⟩
  else none

/-- The tree of a parse that has ended. -/
def finish? (text : List Char) (m : Machine) : Option Parse := do
  let st ← m.state.fill? text 0
  if st.current.id = .eof then root? m.nodes st
  else
    let (node, st) ← st.trailing? text
    let st ← st.fill? text 0
    root? (node :: m.nodes) st

/-- Takes a step, unless the parse has ended. -/
def advance? (p : Parser) (text : List Char) (m : Machine) : Option (Machine × Bool) :=
  if m.halted then some (m, false) else (p.step? text m).map (·, true)

/-- The parse of a stream. -/
def answer? (p : Parser) (text : List Char) (stream : TokenStream) : Option Parse := do
  let m ← p.start? text stream
  let m ← loop? (p.advance? text) m
  finish? text m

variable {p : Parser} {text : List Char} {m : Machine} {lexer : Lexer} {depth : Nat} {q : Parse}

theorem finds_start (hlexer : lexer.Reading text) :
    Finds text (p.start? text (.ofLexer lexer depth)) (p.start (.ofLexer lexer depth)) := by
  have hreading : (ParseState.ofStream (.ofLexer lexer depth)).Reading text := hlexer
  refine ⟨?_, hreading.fill 0⟩
  rw [start?, start, hreading.fill?_eq, Option.bind_eq_bind, Option.bind_some]

/-- Every moment of a parse reads the text, and from each the next one is found. -/
theorem Reaches.finds (hc : p.grammar.Checked) (hfirst : p.grammar.first.size = p.grammar.size)
    (hlexer : lexer.Reading text) (hm : p.Reaches (.ofLexer lexer depth) m) :
    m.state.Reading text ∧ Finds text (p.step? text m) (p.step m) := by
  have hstep : ∀ m, p.Reaches (.ofLexer lexer depth) m → m.state.Reading text →
      Finds text (p.step? text m) (p.step m) := fun m hm h =>
    finds_step hc hfirst (hm.belongs hc) (Reaches.held hc hm) h
  suffices hreading : m.state.Reading text from ⟨hreading, hstep m hm hreading⟩
  induction hm using Reaches.induction with
  | start => exact (finds_start hlexer).reading
  | step m hm ih => exact (hstep m hm ih).reading

theorem root?_eq {nodes : List NodeId} {st : ParseState}
    (h : ∀ id ∈ nodes, id < st.arena.nodes.size) :
    root? nodes st = some ⟨st.arena.finish nodes.reverse st.current.position, st.allReports⟩ :=
  if_pos h

theorem Reaches.finish?_eq (hc : p.grammar.Checked)
    (hfirst : p.grammar.first.size = p.grammar.size) (hlexer : lexer.Reading text)
    (hm : p.Reaches (.ofLexer lexer depth) m) : finish? text m = some (finish m) := by
  have hreading := (hm.finds hc hfirst hlexer).1
  have hheld := Reaches.held hc hm
  obtain ⟨task, frames, nodes, st⟩ := m
  have hfill := hreading.fill 0
  rw [finish?, finish, hreading.fill?_eq, Option.bind_eq_bind, Option.bind_some]
  dsimp only
  by_cases hend : (st.fill 0).current.id = .eof
  · rw [if_pos hend, if_pos hend]
    exact root?_eq hheld
  · rw [if_neg hend, if_neg hend]
    obtain ⟨htrailing, hreading⟩ := hfill.finds_trailing
    have hnodes : Workpiece.Held ⟨(st.fill 0).trailing.2, nodes ++ [(st.fill 0).trailing.1]⟩ := by
      rw [ParseState.id_current_fill] at hend
      exact (Effect.trail (p := p) nodes hend).held hheld
    rw [htrailing, Option.bind_eq_bind, Option.bind_some]
    dsimp only
    rw [hreading.fill?_eq]
    refine root?_eq fun id hid => hnodes id ?_
    rcases List.mem_cons.1 hid with rfl | hid
    · exact List.mem_append_right _ (List.mem_singleton_self _)
    · exact List.mem_append_left _ hid

/-- A parse that answers finds all that it looks up. -/
theorem Answers.answer?_eq (hc : p.grammar.Checked)
    (hfirst : p.grammar.first.size = p.grammar.size) (hlexer : lexer.Reading text)
    (hq : p.Answers (.ofLexer lexer depth) q) :
    p.answer? text (.ofLexer lexer depth) = some q := by
  obtain ⟨n, hhalted, rfl⟩ := (answers_iff ..).1 hq
  have hend : ∀ m : Machine, m.halted = true → loop? (p.advance? text) m = some m :=
    fun m hm => loop?_done (if_pos hm)
  have hloop : ∀ n m, p.Reaches (.ofLexer lexer depth) m → (p.run n m).halted = true →
      loop? (p.advance? text) m = some (p.run n m) := by
    intro n
    induction n with
    | zero => exact fun m _ hhalted => hend m hhalted
    | succ n ih =>
      intro m hm hlater
      by_cases hhalted : m.halted = true
      · rw [hend m hhalted, run_of_halted hhalted]
      · have hstep : p.advance? text m = some (p.step m, true) := by
          rw [advance?, if_neg hhalted, (hm.finds hc hfirst hlexer).2.eq]
          rfl
        rw [loop?_more hstep]
        exact ih _ hm.step hlater
  rw [answer?, (finds_start hlexer).eq, Option.bind_eq_bind, Option.bind_some,
    hloop n (p.start _) ⟨0, rfl⟩ hhalted]
  exact Reaches.finish?_eq hc hfirst hlexer ⟨n, rfl⟩

/-! ## From the declarations to the text of the tree -/

/-- Whatever the declarations, the table, the text and the set of tokens at which skipping ends are:
no lookup fails while the grammar is analysed and while the text is read and parsed, and by whatever
calls the tree is made, they can be made in memory, and the tree can be written from there. -/
theorem lookups_of_answers {decls : List GrammarDecl} {g : Grammar}
    (hg : Grammar.ofDecls decls = .ok g) {rules : List LexemeDecl} {table : TokenTable}
    (htable : TokenTable.ofDecls rules = .ok table) {sync : TokenSet} {mode : TriviaMode}
    (hq : Parser.Answers ⟨g, sync⟩ (.ofLexer (.ofText table mode text) depth) q)
    (hsize : q.tree.size < 2 ^ 32) :
    Grammar.ofDecls? decls = some (.ok g) ∧
      Parser.answer? ⟨g, sync⟩ text (.ofLexer (.ofText table mode text) depth) = some q ∧
      (∃ calls children place, TreeBuilder.build false calls children place = some q.tree) ∧
      ∀ calls children place, TreeBuilder.build false calls children place = some q.tree →
        ∃ f, FlatBuilder.build? calls children place = some f ∧ ∀ names,
          f.expression? names = some (q.tree.expression names) ∧
          f.expressionWithoutErrors? names = some (q.tree.expressionWithoutErrors names) ∧
          f.dump? names = some (q.tree.dump? names) := by
  have hc := Grammar.checked_of_ofDecls hg
  have hlexer := Lexer.Reading.ofText (TokenTable.indexed_of_ofDecls htable).1 mode text
  have hformed := wellFormed_of_answers hg hq
  have hroot : q.tree.root < q.tree.nodes.size := by
    show q.tree.root < q.tree.size
    rw [hformed.size_eq]
    exact Nat.lt_succ_self _
  have hlimit : q.tree.size ≤ Position.limit := Nat.le_of_lt_succ hsize
  have hattached : q.tree.attached.length ≤ Position.limit := by
    rw [hformed.attached.length_eq, List.length_range]
    exact Nat.le_of_lt (Nat.lt_of_lt_of_le hroot hlimit)
  refine ⟨?_, hq.answer?_eq hc (Grammar.size_first hg) hlexer, hformed.built,
    fun calls children place hbuild => ?_⟩
  · rw [Grammar.ofDecls?_eq, hg]
  · obtain ⟨f, hf, hholds, heq⟩ := FlatBuilder.exists_build hbuild hlimit hattached
    exact ⟨f, hf, fun names => ⟨FlatTree.expression?_eq hholds heq hroot names,
      FlatTree.expressionWithoutErrors?_eq hholds heq hroot names,
      FlatTree.dump?_eq hholds heq hroot names⟩⟩

/-! ## A text with operators -/

/-- The tokens of the small grammar as rules of a table, in the order of their numbers. -/
def signDecls : List LexemeDecl := ["x", "-", "+", "(", ")", "*"].map .ofLiteral

theorem compiles_signs : List.Forall₂ TokenTable.Compiles signDecls
    (['x', '-', '+', '(', ')', '*'].map fun c => .literal [c]) :=
  .cons rfl (.cons rfl (.cons rfl (.cons rfl (.cons rfl (.cons rfl .nil)))))

/-- The table of these rules. -/
def signTable : TokenTable := (TokenTable.ofDecls signDecls).toOption.getD .empty

theorem ofDecls_signTable : TokenTable.ofDecls signDecls = .ok signTable := by
  obtain ⟨t, ht⟩ := TokenTable.exists_ofDecls (by decide) (by decide) compiles_signs
  rw [signTable, ht]
  rfl

/-- The tokens of the text, one behind the other. -/
def sampleRowTokens : List Token :=
  sampleRow.zipIdx.map fun (x, i) => ⟨.kind x.2, String.ofList [x.1], ⟨1, i + 1, i⟩⟩

theorem lexemes_signTable : lexemes signTable sampleText = sampleRowTokens.map Token.lexeme := by
  obtain ⟨ht, hdeclares⟩ := TokenTable.indexed_of_ofDecls ofDecls_signTable
  have hrules := TokenTable.rules_of_declares hdeclares compiles_signs
  have hlasts : Lexer.Lasts signTable sampleText :=
    Lexer.lasts_of_decls ofDecls_signTable (by decide)
  refine (Lexer.lexes_tokenize ht .skip hlasts).unique ht ?_
  exact TokenTable.lexes_characters ofDecls_signTable compiles_signs (by decide)
    (hrules ▸ by decide) .skip (show ∀ x ∈ sampleRow, _ by decide)

/-- The parse of the text as a row of tokens, when it has ended. -/
theorem halted_sampleRow : (Parser.run ⟨.sample, ∅⟩ 100 (Parser.start ⟨.sample, ∅⟩
    (.ofTokens signTable sampleText sampleRowTokens ⟨1, 11, 10⟩))).halted = true := by
  decide +kernel

theorem size_sampleRow : (finish (Parser.run ⟨.sample, ∅⟩ 100 (Parser.start ⟨.sample, ∅⟩
    (.ofTokens signTable sampleText sampleRowTokens ⟨1, 11, 10⟩)))).tree.size = 22 := by
  decide +kernel

/-- A text with a sign, operators and parentheses. -/
theorem lookups_of_answers_sample :
    ∃ q, TokenTable.ofDecls signDecls = .ok signTable ∧
      Parser.Answers ⟨.sample, ∅⟩ (.ofLexer (.ofText signTable .skip sampleText) 1) q ∧
      q.tree.size < 2 ^ 32 ∧
      Parser.answer? ⟨.sample, ∅⟩ sampleText (.ofLexer (.ofText signTable .skip sampleText) 1)
        = some q := by
  obtain ⟨q, hq⟩ := exists_answer_of_complete (p := ⟨.sample, ∅⟩) Grammar.checked_sample
    (Grammar.lacks_sample nofun) Grammar.defined_sample (.ofText signTable sampleText 1)
  have hsize : q.tree.size < 2 ^ 32 := by
    have hplace : (⟨1, 11, 10⟩ : Position).offset = Text.size sampleText := by decide
    obtain ⟨q', hq', hmirrors⟩ := hq.mirrors_tokens (by decide) hplace (by decide) (by decide)
      (by decide) lexemes_signTable
    have hend := finish_of_reaches ⟨100, rfl⟩ halted_sampleRow hq'
    have hsame : q.tree.size = q'.tree.size := (hmirrors.arena rfl).nextId
    rw [hsame, hend, size_sampleRow]
    decide
  exact ⟨q, ofDecls_signTable, hq, hsize,
    (lookups_of_answers Grammar.ofDecls_sample ofDecls_signTable hq hsize).2.1⟩

end Parser

end FrontEnd

end
