import FrontEnd.Proofs.Demo.Lookahead
import FrontEnd.Proofs.Demo.Words

/-!
# Programs one behind the other

A program without a fault leaves the parser as if it had just begun: nothing is reported or held
back, no token behind the program has been used, and only the count of the tokens is another. So a
text behind it, with or without faults, is read as it would be alone.

- `Demo.Spelled.precedes`: statements in front of others;
- `ParseState.Fresh`: **the parser is at the beginning of the lexemes to come**;
- `Demo.arrives`: so it is behind statements without a fault;
- `Demo.composes_lines`: what becomes of two texts with a line feed between them;
- `Demo.composes_lines_exhausted`: two texts that have stamps enough only each by itself.
-/

namespace FrontEnd

/-! ## Beginnings -/

/-- Nothing is said about a character that belongs to a lexeme. -/
theorem Lexeme.flatMap_complaints {ls : List Lexeme} (h : .unknown ∉ ls.map Lexeme.id) :
    ls.flatMap Lexeme.complaints = [] :=
  List.flatMap_eq_nil_iff.2 fun l hl => if_neg fun hid : l.id = .unknown =>
    h (hid ▸ List.mem_map_of_mem hl)

/-- A report is the lexer's wherever it points. -/
theorem Diagnostic.countP_unplaced (ds : List Diagnostic) :
    (ds.map unplaced).countP isLexical = ds.countP isLexical := by
  rw [List.countP_map]
  rfl

/-- Nothing has happened to the lexemes to come but that `k` others were taken before them. -/
structure ParseState.Fresh (table : TokenTable) (ahead : List Lexeme) (k : Nat) (st : ParseState) :
    Prop where
  table : st.stream.lexer.table = table
  lexemes : st.lexemes = ahead
  consumed : st.consumed = k
  undamaged : ∀ n, k ≤ n → st.recoveredAt ≠ some n
  ambiguous : st.ambiguous = []
  undefined : st.undefined = []
  reports : st.reports.toList = []
  outstanding : st.outstanding.map Diagnostic.unplaced = ahead.flatMap Lexeme.complaints

/-- At the beginning of the same lexemes all states are alike, but for their trees. -/
theorem ParseState.Fresh.mirrors {table : TokenTable} {ahead : List Lexeme} {k : Nat}
    {st st' : ParseState} (h : st.Fresh table ahead 0) (h' : st'.Fresh table ahead k)
    (hk : k ≠ 0) : st.Mirrors k st' where
  table := h.table.trans h'.table.symm
  lexemes := h.lexemes.trans h'.lexemes.symm
  consumed := by rw [h.consumed, h'.consumed, Nat.zero_add]
  recoveredAt := fun n _ => iff_of_false (h.undamaged n (Nat.zero_le n))
    (h'.undamaged (n + k) (Nat.le_add_left k n))
  ambiguous := h.ambiguous.trans h'.ambiguous.symm
  undefined := h.undefined.trans h'.undefined.symm
  reports := by rw [h.reports, h'.reports]
  outstanding := h.outstanding.trans h'.outstanding.symm
  arena := fun hzero => absurd hzero hk

namespace Parser

variable {p : Parser} {names : Names} {table : TokenTable} {text : List Char} {depth : Nat}
  {w ahead : List Lexeme} {made : List NodeId} {o : Errand.Outcome} {st : ParseState}

/-- A state that the parse comes to without a report is at the beginning of what is left. -/
theorem fresh_of_brings (hlexemes : lexemes table text = w ++ ahead)
    (hknown : .unknown ∉ w.map Lexeme.id)
    (h : (p.start (.ofText table text depth)).state.Brings names made o st)
    (hafter : o.after = ⟨ahead, false⟩) (hquiet : o.reports = 0) :
    st.Fresh table ahead w.length := by
  obtain ⟨read, hadv⟩ := (TokenStream.ofText table text depth).advances_fill 0
  obtain ⟨hreports, hout⟩ := h.calm hquiet
  have hahead : st.prospect = ⟨ahead, false⟩ := h.after.trans hafter
  have hlength : st.ids.length = ahead.length := by
    rw [← ParseState.ids_prospect, hahead, Prospect.ids, List.length_map]
  have hall : (p.start (.ofText table text depth)).state.ids.length = w.length + ahead.length := by
    rw [← ParseState.ids_prospect, prospect_start, hlexemes, Prospect.ids, List.length_map,
      List.length_append]
  have hconsumed : st.consumed = w.length := by
    have hsum := h.consumed
    rw [consumed_start, hlength, hall] at hsum
    omega
  exact {
    table := h.keeps.table.trans hadv.table
    lexemes := congrArg Prospect.ahead hahead
    consumed := hconsumed
    undamaged := by
      intro n hle hn
      have hbehind := h.orderly.behind n hn
      -- No skip has stopped further on than here, and none has stopped here.
      obtain rfl : n = st.consumed := by omega
      have hdamage : st.atDamage = false := congrArg Prospect.damaged hahead
      rw [ParseState.atDamage, hn] at hdamage
      exact absurd hdamage (by simp)
    ambiguous := h.keeps.ambiguous
    undefined := h.keeps.undefined
    reports := by
      rw [hreports]
      rfl
    outstanding := by
      have hstart : (p.start (.ofText table text depth)).state.outstanding
          = (ParseState.ofStream (.ofText table text depth)).outstanding :=
        ParseState.outstanding_of_advances hadv rfl
      rw [hout, hstart, outstanding_ofText, hlexemes, List.flatMap_append,
        Lexeme.flatMap_complaints hknown, List.nil_append] }

end Parser

namespace Demo

variable {names : Names} {table : TokenTable} {text text' : List Char} {depth depth' n : Nat}
  {c : Config} {w ahead : List Lexeme} {follow : TokenSet} {frames : List Frame}
  {nodes : List NodeId} {st : ParseState} {p q r : Parse} {first second joined : SourceBuffer}

/-! ## Statements in front of others -/

/-- Statements are read in front of what does not begin with `else`, and what is behind them is read
as without them. -/
theorem Spelled.precedes (h : Spelled names .statements w) :
    ∃ items, ∀ follow ahead o, (⟨ahead, false⟩ : Prospect).next ≠ elseWord →
      parser.Performs names (.repetition stmt follow) ⟨ahead, false⟩ o →
      parser.Performs names (.repetition stmt follow) ⟨w ++ ahead, false⟩
        (.andThen ⟨.proceeding, items, ⟨ahead, false⟩, 0⟩ o) := by
  generalize hphrase : Phrase.statements = phrase at h
  -- Statement by statement: each is read in front of the others and of what is behind them.
  induction h with
  | nothing =>
    refine ⟨[], fun follow ahead o _ ho => ?_⟩
    simpa [Errand.Outcome.andThen] using ho
  | @more s w hs hw _ ih =>
    obtain ⟨item, hfirst, hread⟩ := hs.reads
    obtain ⟨items, hprecedes⟩ := ih rfl
    refine ⟨items ++ [item], fun follow ahead o hahead ho => ?_⟩
    have hnext := next_of_statement hfirst (w ++ ahead) (d := false)
    have hround : parser.Performs names (.repetition stmt follow) ⟨s ++ (w ++ ahead), false⟩ _ :=
      .round (fun heof => absurd (heof ▸ hnext) (by decide)) (by rwa [firstOf_stmt])
        (hread _ (w ++ ahead) false (.inl (Demo.next_ne_else hw.begins hahead)))
        (by simpa using hs.nonempty) (hprecedes follow ahead o hahead ho)
    rw [List.append_assoc]
    simpa [Errand.Outcome.andThen] using hround
  | _ => cases hphrase

/-- The machine gets behind the statements. -/
theorem passes_statements (h : parser.Ready n ⟨.repetition stmt follow, frames, nodes, st⟩)
    (hw : Spelled names .statements w) (hst : st.prospect = ⟨w ++ ahead, false⟩)
    (hahead : (⟨ahead, false⟩ : Prospect).next ≠ elseWord) :
    ∃ k made st₁ items,
      parser.run k ⟨.repetition stmt follow, frames, nodes, st⟩
        = ⟨.repetition stmt follow, frames, made ++ nodes, st₁⟩ ∧
      st.Brings names made ⟨.proceeding, items, ⟨ahead, false⟩, 0⟩ st₁ := by
  generalize hphrase : Phrase.statements = phrase at hw
  -- The same induction over the machine: a round for each statement, and the outcome of a round is
  -- the one that the statement is read with.
  induction hw generalizing n nodes st with
  | nothing =>
    refine ⟨0, [], st, [], rfl, ?_⟩
    rw [← List.nil_append ahead, ← hst]
    exact .refl h.orderly names .proceeding
  | @more s w hs hw _ ih =>
    obtain ⟨item, hfirst, hread⟩ := hs.reads
    have hnext := next_of_statement hfirst (w ++ ahead) (d := false)
    rw [← List.append_assoc, ← hst, ParseState.next_prospect] at hnext
    have hbelow : parser.DeliversBelow names n := fun _ _ _ _ h hasks =>
      h.delivers checked_grammar lacks_grammar decisive hasks
    obtain ⟨n₁, made, st₁, o, o', -, hspends, hperf, hcase, hbrings⟩ := h.round checked_grammar
      hbelow (fun heof => absurd (heof ▸ hnext) (by decide)) (by rwa [firstOf_stmt])
    have hready := h.spends checked_grammar hspends hbrings.orderly
    rw [hst, List.append_assoc] at hperf
    obtain rfl := hperf.unique
      (hread _ (w ++ ahead) false (.inl (next_ne_else hw.begins hahead)))
    rcases hcase with ⟨-, rfl⟩ | ⟨hsame, -⟩
    · obtain ⟨k, made', st₂, items, hrun, hbrings'⟩ := ih hready hbrings.after rfl
      obtain ⟨k₁, -, hrun₁⟩ := hspends
      refine ⟨k₁ + k, made' ++ made, st₂, _, ?_, hbrings.trans hbrings'⟩
      rw [Parser.run_add, hrun₁, hrun, List.append_assoc]
    · -- A statement takes tokens.
      rw [hst] at hsame
      simp [hs.nonempty] at hsame
  | _ => cases hphrase

/-- The machine gets to the statements of a text. -/
theorem reaches_statements (depth : Nat) (hne : Lexer.textIds table text ≠ []) (names : Names) :
    ∃ entered st, parser.run 2 (parser.start (.ofText table text depth))
        = ⟨.repetition stmt programFollow,
          [.steps [] (.single .eof), .rule program entered []], [], st⟩ ∧
      (parser.start (.ofText table text depth)).state.Brings names []
        ((parser.start (.ofText table text depth)).state.prospect.idle []) st := by
  obtain ⟨htask, hframes⟩ := Parser.task_start parser depth hne
  have horderly := Parser.orderly_start parser table text depth
  have hstart : parser.start (.ofText table text depth) = ⟨.rule program (.single .eof), [], [],
      (parser.start (.ofText table text depth)).state⟩ := by
    rw [← hframes]
    exact congrArg (fun task => (⟨task, _, [], _⟩ : Machine)) htask
  generalize (parser.start (.ofText table text depth)).state = st₀ at hstart horderly ⊢
  rw [hstart]
  let a : Alternative := ⟨plain [.many stmt], stmtFirst, true, [⟨.many stmt, ∅, true⟩]⟩
  have hbody : parser.grammar.body program = .sequence [a] := body_grammar program
  rcases hs : st₀.select parser.grammar program [a] with ⟨b, st₁⟩
  obtain ⟨hchoose, hbrings⟩ := Parser.select_of_eq decisive hbody horderly names hs
  obtain rfl : some a = b := (Parser.choose_singleton rfl _).symm.trans hchoose
  have hselect : parser.step ⟨.rule program (.single .eof), [], [], st₀⟩
      = ⟨.steps [⟨.many stmt, ∅, true⟩] (.single .eof) .proceeding,
        [.rule program st₀.consumed []], [], st₁⟩ := by
    simp only [Parser.step, Parser.enterRule, hbody, hs]
    rfl
  exact ⟨st₀.consumed, st₁, congrArg parser.step hselect, hbrings⟩

/-- Behind statements without a fault the parse is at the beginning of what is left. -/
theorem arrives (depth : Nat) (hw : Spelled names .statements w)
    (hknown : .unknown ∉ w.map Lexeme.id) (hlexemes : Parser.lexemes table text = w ++ ahead)
    (hne : w ++ ahead ≠ []) (hahead : (⟨ahead, false⟩ : Prospect).next ≠ elseWord) :
    ∃ i made entered st, parser.run i (parser.start (.ofText table text depth))
        = ⟨.repetition stmt programFollow,
          [.steps [] (.single .eof), .rule program entered []], made, st⟩ ∧
      st.Fresh table ahead w.length := by
  have hids : Lexer.textIds table text ≠ [] := by
    rwa [textIds_of_lexemes hlexemes, ne_eq, List.map_eq_nil_iff]
  obtain ⟨entered, st, hrun, hlook⟩ := reaches_statements depth hids names
  obtain ⟨q, hq⟩ := Parser.exists_answer_of_complete checked_grammar lacks_grammar
    decisive.defined (.ofText table text depth)
  obtain ⟨n, hhalted, -⟩ := (Parser.answers_iff ..).1 hq
  have hready : parser.Ready n ⟨.repetition stmt programFollow,
      [.steps [] (.single .eof), .rule program entered []], [], st⟩ := by
    rw [← hrun]
    refine ⟨?_, Parser.Reaches.belongs checked_grammar ⟨2, rfl⟩, hrun ▸ hlook.orderly⟩
    -- The whole parse ends, and what ends earlier stays as it is.
    rw [← Parser.run_add, Nat.add_comm, Parser.run_add, Parser.run_of_halted hhalted]
    exact hhalted
  have hprospect : st.prospect = ⟨w ++ ahead, false⟩ := by
    rw [hlook.after, Prospect.idle, Parser.prospect_start, hlexemes]
  obtain ⟨k, made, st₁, items, hrun', hbrings⟩ := passes_statements hready hw hprospect hahead
  rw [List.append_nil] at hrun'
  refine ⟨2 + k, made, entered, st₁, by rw [Parser.run_add, hrun, hrun'], ?_⟩
  exact Parser.fresh_of_brings hlexemes hknown (hlook.after_look hbrings) rfl rfl

/-- What is behind statements without a fault is parsed as it is alone, from some moment on. -/
theorem meets (depth depth' : Nat) (hw : Spelled names .statements w)
    (hknown : .unknown ∉ w.map Lexeme.id)
    (hlexemes : Parser.lexemes table text' = w ++ Parser.lexemes table text)
    (hne : Parser.lexemes table text ≠ [])
    (hahead : (⟨Parser.lexemes table text, false⟩ : Prospect).next ≠ elseWord) :
    ∃ i j, (parser.run i (parser.start (.ofText table text depth))).Mirrors w.length
      (parser.run j (parser.start (.ofText table text' depth'))) := by
  -- Nodes are counted from the beginning. They are compared when nothing is in front, and then the
  -- texts are begun alike.
  by_cases hnil : w = []
  · subst hnil
    exact ⟨0, 0, Parser.start_mirrors parser depth depth' hlexemes.symm⟩
  have hlength : w.length ≠ 0 := mt List.length_eq_zero_iff.1 hnil
  have hnothing : Spelled names .statements [] := .nothing
  obtain ⟨i, made, entered, st, hrun, hfresh⟩ :=
    arrives depth hnothing List.not_mem_nil (List.nil_append _).symm hne hahead
  obtain ⟨j, made', entered', st', hrun', hfresh'⟩ := arrives depth' hw hknown hlexemes
    (fun happend => hne (List.append_eq_nil_iff.1 happend).2) hahead
  refine ⟨i, j, ?_⟩
  rw [hrun, hrun']
  exact ⟨.repetition .., .cons (.steps ..) (.cons (.rule _ _ _ fun _ => rfl) .nil),
    fun hzero => absurd hzero hlength, hfresh.mirrors hfresh' hlength⟩

/-! ## Answers -/

/-- The reports about a text behind statements without a fault are those about the text, but for
their places. -/
theorem unplaced_of_precedes (hw : Spelled names .statements w)
    (hknown : .unknown ∉ w.map Lexeme.id)
    (hlexemes : Parser.lexemes table text' = w ++ Parser.lexemes table text)
    (hahead : (⟨Parser.lexemes table text, false⟩ : Prospect).next ≠ elseWord)
    (hq : parser.Answers (.ofText table text depth) q)
    (hr : parser.Answers (.ofText table text' depth') r) :
    r.diagnostics.map Diagnostic.unplaced = q.diagnostics.map Diagnostic.unplaced := by
  -- A parse without tokens is over at once, and has no moment in common with the other.
  by_cases hne : Parser.lexemes table text = []
  · rw [hne, List.append_nil] at hlexemes
    rw [quiet_of_spelled hr hlexemes hknown hw, (hq.of_no_tokens (textIds_of_lexemes hne) names).1]
  · obtain ⟨i, j, hmeet⟩ := meets depth depth' hw hknown hlexemes hne hahead
    obtain ⟨r', hr', hmirrors⟩ := hq.mirrors hmeet (punctual _ _ _) (punctual _ _ _)
    obtain ⟨n, hhalted, rfl⟩ := (Parser.answers_iff ..).1 hr'
    rw [Parser.finish_of_reaches ⟨n, rfl⟩ hhalted hr]
    exact hmirrors.diagnostics.symm

/-- The branches of a text behind statements without a fault come behind those of the statements. -/
theorem branches_of_precedes (hw : Spelled names .statements w)
    (hlexemes : Parser.lexemes table text' = w ++ Parser.lexemes table text)
    (hahead : (⟨Parser.lexemes table text, false⟩ : Prospect).next ≠ elseWord)
    (hp : ∀ o, parser.Performs names (.repetition stmt programFollow) ⟨w, false⟩ o →
      p.tree.branches names = o.items.reverse.map Item.text)
    (hq : parser.Answers (.ofText table text depth) q)
    (hr : parser.Answers (.ofText table text' depth') r) :
    r.tree.branches names = p.tree.branches names ++ q.tree.branches names := by
  obtain ⟨items, hprecedes⟩ := hw.precedes
  obtain ⟨o, hperf, -, hbranches⟩ := answers_program hq rfl names
  obtain ⟨o', hperf', -, hbranches'⟩ := answers_program hr hlexemes names
  obtain rfl := hperf'.unique (hprecedes programFollow _ o hahead hperf)
  have halone := hprecedes programFollow [] _ (by decide) (.close (.inl rfl))
  rw [List.append_nil] at halone
  rw [hbranches', hbranches, hp _ halone]
  simp [Errand.Outcome.andThen, Prospect.idle]

/-- A text without a fault, a line feed and a text that does not begin with `else`: the top-level
nodes are those of the first and then those of the second, and the reports are those about the
second, but for their places. There have to be stamps enough for each of the three texts. -/
theorem composes_lines (hc : config = .ok c)
    (hjoined : joined.text = first.text ++ "\n" ++ second.text)
    (hfirst : Lexer.Lasts c.table first.chars) (hsecond : Lexer.Lasts c.table second.chars)
    (hboth : Lexer.Lasts c.table joined.chars)
    (hp : c.parser.Answers (c.stream first) p) (hquiet : p.diagnostics = [])
    (hq : c.parser.Answers (c.stream second) q)
    (helse : ∀ l ∈ (Parser.lexemes c.table second.chars).head?, l.text ≠ "else") :
    ∃ r, c.parser.Answers (c.stream joined) r ∧
      r.tree.branches c.names = p.tree.branches c.names ++ q.tree.branches c.names ∧
      r.diagnostics.map Diagnostic.unplaced = q.diagnostics.map Diagnostic.unplaced := by
  obtain ⟨ht, hparser, -⟩ := of_config hc
  obtain ⟨r, hr⟩ := exists_answer_config hc joined
  rw [hparser] at hp hq hr ⊢
  have hindexed := indexed_table ht
  have hlexes := Lexer.lexes_tokenize hindexed .skip hfirst
  have hlexes' := Lexer.lexes_tokenize hindexed .skip hsecond
  have hknown := hp.known_of_quiet checked_grammar hquiet
  have hchars : joined.chars = first.chars ++ '\n' :: second.chars := by
    simp [SourceBuffer.chars, hjoined]
  have hlexemes : Parser.lexemes c.table joined.chars
      = Parser.lexemes c.table first.chars ++ Parser.lexemes c.table second.chars := by
    rw [hchars] at hboth ⊢
    exact (Lexer.lexes_tokenize hindexed .skip hboth).unique hindexed
      (lexes_lines ht hlexes hknown hlexes')
  have hahead : (⟨Parser.lexemes c.table second.chars, false⟩ : Prospect).next ≠ elseWord := by
    intro hnext
    obtain ⟨l, rest, heq⟩ := exists_cons_of_next hnext (by decide)
    have hl : l ∈ Parser.lexemes c.table second.chars := heq ▸ List.mem_cons_self
    rw [heq] at helse hnext
    have hid : l.id = elseWord := hnext
    rcases hlexes'.takes_of_mem hl with hunknown | ⟨n, hn, htakes⟩
    · exact absurd (hid.symm.trans hunknown) (by decide)
    · exact helse l rfl (text_of_elseWord ht htakes hn hid)
  obtain ⟨hw, hbranches⟩ := spelled_of_answers hp hquiet rfl hknown c.names
  exact ⟨r, hr, branches_of_precedes hw hlexemes hahead hbranches hq hr,
    unplaced_of_precedes hw hknown hlexemes hahead hq hr⟩

/-- A block without statements. -/
def blockSource : SourceBuffer := .ofText none "\x7b \x7d"

/-- A parenthesis. -/
def parenSource : SourceBuffer := .ofText none ")"

/-- The block, and the parenthesis on the next line. -/
def linesSource : SourceBuffer := .ofText none "\x7b \x7d\n)"

theorem text_blockSource : blockSource.text = spaced emptyBlock := rfl

theorem text_parenSource : parenSource.text = spaced [fixedWord ")"] := rfl

theorem text_linesSource : linesSource.text = blockSource.text ++ "\n" ++ parenSource.text := rfl

/-- What is said about the parenthesis is all that is said about both. -/
theorem composes_lines_block : ∃ c p q r, config = .ok c ∧
    c.parser.Answers (c.stream blockSource) p ∧ p.diagnostics = [] ∧
    c.parser.Answers (c.stream parenSource) q ∧ q.diagnostics ≠ [] ∧
    (∀ l ∈ (Parser.lexemes c.table parenSource.chars).head?, l.text ≠ "else") ∧
    c.parser.Answers (c.stream linesSource) r ∧
    r.tree.branches c.names = p.tree.branches c.names ++ q.tree.branches c.names ∧
    r.diagnostics.map Diagnostic.unplaced = q.diagnostics.map Diagnostic.unplaced := by
  obtain ⟨c, hc⟩ := exists_config
  obtain ⟨ht, hparser, hsync⟩ := of_config hc
  have hlasts : Lexer.Lasts c.table blockSource.chars := Lexer.lasts_of_decls ht (by decide)
  have hlasts' : Lexer.Lasts c.table parenSource.chars :=
    Lexer.lasts_of_decls ht (by decide)
  have hboth : Lexer.Lasts c.table linesSource.chars := Lexer.lasts_of_decls ht (by decide)
  have hblock := lexemes_source ht text_blockSource
    (isLexeme_fixedWords ht ["\x7b", "\x7d"] (by decide)) hlasts
  have hparen := lexemes_source ht text_parenSource (isLexeme_fixedWords ht [")"] (by decide))
    hlasts'
  have hspelled : Spelled c.names .statements (emptyBlock ++ []) :=
    .more (spelled_emptyBlock _) .nothing
  obtain ⟨p, hp⟩ := exists_answer_config hc blockSource
  obtain ⟨q, hq⟩ := exists_answer_config hc parenSource
  have hquiet : p.diagnostics = [] :=
    quiet_of_spelled (hparser ▸ hp) hblock (by decide) hspelled
  have hfault : q.diagnostics ≠ [] := by
    intro hnone
    obtain ⟨hs, -⟩ := spelled_of_answers (hparser ▸ hq) hnone hparen (by decide) c.names
    rcases hs.begins with hnil | hfirst
    · cases hnil
    · exact absurd hfirst (by decide)
  have helse : ∀ l ∈ (Parser.lexemes c.table parenSource.chars).head?, l.text ≠ "else" := by
    rw [hparen]
    rintro l ⟨⟩
    decide
  obtain ⟨r, hr, hbranches, hreports⟩ :=
    composes_lines hc text_linesSource hlasts hlasts' hboth hp hquiet hq helse
  exact ⟨c, p, q, r, hc, hp, hquiet, hq, hfault, helse, hr, hbranches, hreports⟩

/-- A line of so many blanks. -/
def blanksSource (m : Nat) : SourceBuffer := .ofText none (String.ofList (List.replicate m ' '))

/-- A string with an escape. -/
def stringSource : SourceBuffer := .ofText none (String.ofList escapeText)

/-- The blanks, and the string on the next line. -/
def blanksAndString (m : Nat) : SourceBuffer :=
  .ofText none ((blanksSource m).text ++ "\n" ++ stringSource.text)

theorem lexemes_blanksSource {t : TokenTable} (ht : Demo.table = .ok t) {m : Nat}
    (hroom : m + 2 ≤ Workspace.counterMax) :
    Parser.lexemes t (blanksSource (m + 1)).chars = [] := by
  have hblanks : t.Lexes .skip (' ' :: List.replicate m ' ' ++ []) [] :=
    (lexes_blank ht (blank_spaces m) (by simp)).2 .nil
  rw [List.append_nil, ← List.replicate_succ] at hblanks
  rw [blanksSource, SourceBuffer.chars, SourceBuffer.ofText, String.toList_ofList]
  exact (Lexer.lexes_tokenize (indexed_table ht) .skip (lasts_spaces ht hroom)).unique
    (indexed_table ht) hblanks

theorem lexemes_stringSource {t : TokenTable} (ht : Demo.table = .ok t) :
    Parser.lexemes t stringSource.chars = [escapeWord] :=
  lexemes_source ht (w := [escapeWord]) rfl (List.forall_mem_singleton.2 (isLexeme_escape ht))
    (Lexer.lasts_of_decls ht (by decide))

theorem chars_blanksAndString (m : Nat) : (blanksAndString m).chars
    = List.replicate m ' ' ++ '\n' :: '"' :: '\\' :: ['a', '"'] := by
  simp [blanksAndString, blanksSource, stringSource, SourceBuffer.chars, SourceBuffer.ofText,
    escapeText]

/-- There are stamps for the blanks and for the string, but not for both and the line feed. Neither
text alone has a character that belongs to no rule, and two are reported where they are joined. -/
theorem composes_lines_exhausted : ∃ c p q r, config = .ok c ∧
    c.parser.Answers (c.stream (blanksSource 4294967290)) p ∧ p.diagnostics = [] ∧
    c.parser.Answers (c.stream stringSource) q ∧
    (∀ l ∈ (Parser.lexemes c.table stringSource.chars).head?, l.text ≠ "else") ∧
    c.parser.Answers (c.stream (blanksAndString 4294967290)) r ∧
    r.diagnostics.map Diagnostic.unplaced ≠ q.diagnostics.map Diagnostic.unplaced := by
  obtain ⟨c, hc⟩ := exists_config
  obtain ⟨ht, hparser, -⟩ := of_config hc
  have hroom : 4294967289 + 6 = Workspace.counterMax := by decide
  have hbelow : 4294967289 + 6 < 2 ^ 32 := by decide
  have hblanks : 4294967290 = 4294967289 + 1 := by decide
  rw [hblanks]
  generalize 4294967289 = m at hroom hbelow
  obtain ⟨p, hp⟩ := exists_answer_config hc (blanksSource (m + 1))
  obtain ⟨q, hq⟩ := exists_answer_config hc stringSource
  obtain ⟨r, hr⟩ := exists_answer_config hc (blanksAndString (m + 1))
  have hquiet : p.diagnostics = [] :=
    ((hparser ▸ hp : parser.Answers _ p).of_no_tokens
      (textIds_of_lexemes (lexemes_blanksSource ht (by omega))) c.names).1
  have hstring := lexemes_stringSource ht
  refine ⟨c, p, q, r, hc, hp, hquiet, hq, ?_, hr, fun hsame => ?_⟩
  · rw [hstring]
    rintro l ⟨⟩
    decide
  -- No report of the lexer is in the answer for the string, and two are in the other.
  · have hnone : q.diagnostics.countP Diagnostic.isLexical = 0 := by
      have hcount := congrArg (List.countP (·.id = .unknown)) hstring
      rw [Parser.lexemes, List.countP_map] at hcount
      exact (countP_isLexical (hparser ▸ hq) (by decide)).trans hcount
    have htwo : 2 ≤ r.diagnostics.countP Diagnostic.isLexical := by
      have hanswer : parser.Answers (.ofText c.table _ c.lookahead) r := hparser ▸ hr
      rw [chars_blanksAndString] at hanswer
      have hunknown := unknown_behind_blanks ht hroom .skip ['a', '"']
      rwa [← countP_isLexical hanswer] at hunknown
      rw [Text.size_append, Text.size_replicate rfl]
      exact hbelow
    have hcounts := congrArg (List.countP Diagnostic.isLexical) hsame
    rw [Diagnostic.countP_unplaced, Diagnostic.countP_unplaced] at hcounts
    omega

end Demo

end FrontEnd
