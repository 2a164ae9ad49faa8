import FrontEnd.Proofs.Demo.Words
import FrontEnd.Proofs.Parser.Lockstep

/-!
# Layout

Blanks, comments and line ends are between the tokens. In texts below the limit of positions they
have no say in what is parsed and what is reported: only the order of the tokens counts, and it is
the same.

- `ParseState.Sited`: the reports are merged, and the tokens to come are the last of the text;
- `ParseState.Sited.prompt`: **then a report comes behind what the lexer has to say up to the next
  token**;
- `Parser.Punctual`: it is so whenever a report is made in the parse of a text;
- `Parser.Answers.mirrors`: then parses that get to mirrored moments have mirrored answers;
- `Parser.answers_of_same_lexemes`: texts with the same lexemes have answers that differ in places
  only;
- `Parser.Answers.mirrors_tokens`: a row of tokens has the answer of the text that they are read from.
-/

namespace FrontEnd

/-- A list of reports is cut in two at a place in one way only. -/
theorem Diagnostic.filter_of_cut {place : Nat} {ds ds' : List Diagnostic}
    (hds : ∀ d ∈ ds, d.offset ≤ place) (hds' : ∀ d ∈ ds', place < d.offset) :
    (ds ++ ds').filter (fun d => decide (place < d.offset)) = ds' := by
  have hnone : ds.filter (fun d => decide (place < d.offset)) = [] :=
    List.filter_eq_nil_iff.2 fun d hd => by simpa using hds d hd
  have hall : ds'.filter (fun d => decide (place < d.offset)) = ds' :=
    List.filter_eq_self.2 fun d hd => by simpa using hds' d hd
  rw [List.filter_append, hnone, hall, List.nil_append]

/-- Where the tokens stand one behind the other, what points behind the first of the rest is about
the others of the rest. -/
theorem Token.filter_complaints {before rest : List Token} {stop : Nat}
    (hsorted : (before ++ rest).Pairwise fun t t' => t.offset < t'.offset)
    (hbelow : ∀ t ∈ before ++ rest, t.offset < stop) :
    ((before ++ rest).flatMap complaints).filter
        (fun d => decide ((rest.head?.map Token.offset).getD stop < d.offset))
      = rest.tail.flatMap complaints := by
  cases rest with
  | nil =>
    refine List.filter_eq_nil_iff.2 fun x hx => ?_
    obtain ⟨⟨t, ht, hoffset⟩, -⟩ := mem_flatMap_complaints hx
    have hlt := hbelow t ht
    simpa [hoffset] using Nat.le_of_lt hlt
  | cons t ts =>
    rw [List.append_cons] at hsorted ⊢
    obtain ⟨hfront, -, hbetween⟩ := List.pairwise_append.1 hsorted
    rw [List.flatMap_append]
    refine Diagnostic.filter_of_cut (fun x hx => ?_) (fun x hx => ?_)
    · obtain ⟨⟨u, hu, hoffset⟩, -⟩ := mem_flatMap_complaints hx
      rw [hoffset]
      rcases List.mem_append.1 hu with hu | hu
      · exact Nat.le_of_lt ((List.pairwise_append.1 hfront).2.2 u hu t List.mem_cons_self)
      · rw [List.mem_singleton.1 hu]
        exact Nat.le_refl _
    · obtain ⟨⟨u, hu, hoffset⟩, -⟩ := mem_flatMap_complaints hx
      rw [hoffset]
      exact hbetween t (by simp) u hu

namespace ParseState

/-- The reports of the lexer about the tokens are merged with the others, and the tokens to come are
the last of them. -/
structure Sited (tokens : List Token) (stop : Nat) (st : ParseState) : Prop where
  merged : st.Merged (tokens.flatMap Token.complaints) stop
  suffix : st.stream.upcoming <:+ tokens

variable {tokens : List Token} {stop : Nat} {st : ParseState}

/-- Where the tokens stand one behind the other, what is outstanding after a report is what there is
to say about the tokens behind the next. -/
theorem Sited.prompt (h : st.Sited tokens stop)
    (hsorted : tokens.Pairwise fun t t' => t.offset < t'.offset)
    (hbelow : ∀ t ∈ tokens, t.offset < stop) : st.Prompt := by
  intro d hd
  have hunread := h.merged.place_lt_unread
  have hoffset : d.offset = (st.fill 0).place stop :=
    (congrArg Position.offset hd).trans (place_eq_of_fill h.merged)
  have hmerged := h.merged.fill 0
  have hup : (st.fill 0).stream.upcoming = st.stream.upcoming := st.stream.upcoming_fill 0
  have hascend := (Token.ascend_complaints hsorted).sublist hmerged.outstanding_sublist
  have hread : (st.fill 0).stream.upcoming <:+ tokens := hup ▸ h.suffix
  rw [← hup]
  generalize st.fill 0 = s at hunread hoffset hmerged hascend hread
  have hfiled : ∀ x ∈ s.reports.toList.filter Diagnostic.isLexical ++ s.due d,
      x.offset ≤ s.place stop := by
    intro x hx
    rcases List.mem_append.1 hx with hx | hx
    · exact hmerged.behind x (List.mem_filter.1 hx).1
    · exact hoffset ▸ offset_le_of_mem_due hx
  have hlater : ∀ x ∈ (s.report d).outstanding, s.place stop < x.offset := by
    intro x hx
    rw [outstanding_report] at hx
    rcases List.mem_append.1 hx with hx | hx
    · rw [← hoffset]
      exact Diagnostic.lt_of_mem_dropWhile (hascend.sublist (List.sublist_append_left ..)) _ hx
    · obtain ⟨⟨t, ht, hoffset⟩, -⟩ := Token.mem_flatMap_complaints hx
      exact hoffset ▸ hunread t ht
  -- All there is to say is cut at the next token, once by the reports and once by the tokens.
  have hcut := Diagnostic.filter_of_cut hfiled hlater
  rw [List.append_assoc, due_append_outstanding, hmerged.whole] at hcut
  obtain ⟨before, rfl⟩ := hread
  rw [← hcut]
  exact Token.filter_complaints hsorted hbelow

end ParseState

namespace Parser

variable {p : Parser} {tokens : List Token} {stop : Nat} {w w' : Workpiece} {m : Machine}
  {st : ParseState} {table : TokenTable} {text text' : List Char} {depth depth' : Nat} {q : Parse}

/-! ## Every moment -/

theorem Act.sited (hsorted : tokens.Pairwise fun t t' => t.offset < t'.offset)
    (hact : Act w w') (h : w.state.Sited tokens stop) : w'.state.Sited tokens stop := by
  obtain ⟨taken, -, hsuffix, -⟩ := hact.feeds
  exact ⟨hact.merged (Token.ascend_complaints hsorted)
    (fun x hx => (Token.mem_flatMap_complaints hx).2) h.merged, hsuffix.trans h.suffix⟩

theorem Acts.sited (hsorted : tokens.Pairwise fun t t' => t.offset < t'.offset)
    (hacts : Acts w w') (h : w.state.Sited tokens stop) : w'.state.Sited tokens stop :=
  hacts.invariant (I := fun w => w.state.Sited tokens stop)
    (fun _ _ hact => hact.sited hsorted) h

theorem preserved_sited (p : Parser) (hsorted : tokens.Pairwise fun t t' => t.offset < t'.offset) :
    p.Preserved (ParseState.Sited tokens stop) := by
  refine .of_acts (fun hact => hact.sited hsorted) (fun h => ?_) fun kind children place h => ?_
  · obtain ⟨read, hadv⟩ := TokenStream.advances_consume _
    exact ⟨h.merged.takeLeaf, hadv.upcoming ▸ (List.drop_suffix ..).trans h.suffix⟩
  · exact ⟨h.merged.advance (.refl _) h.merged.placed rfl rfl, h.suffix⟩

/-- A report is made in a state that the acts of the step come by. -/
theorem Reports.acts (h : p.Reports m st) : ∃ loose, Acts ⟨m.state, []⟩ ⟨st, loose⟩ := by
  cases h with
  | missing | absent | stray | lack => exact ⟨[], .refl _⟩
  | ambiguous => exact ⟨[], acts_selectGuarded _ _ []⟩
  | @refused r _ _ _ st₀ _ as hb hs =>
    have hselect := acts_select p.grammar r as st₀ []
    rw [hs] at hselect
    exact ⟨[], hselect⟩
  | @undecided r _ _ _ errors st₀ st₁ st₂ as hb hs hu =>
    have hselect := acts_select p.grammar r as st₀ []
    have hunexpected := acts_unexpected p.grammar p.sync (p.grammar.firstOf r) st₁ []
    rw [hs] at hselect
    rw [hu] at hunexpected
    have hlook := (hselect.trans hunexpected).tail (.look 0 st₂ _)
    exact ⟨_, hlook.trans (acts_selectGuarded _ as _)⟩

/-- Every report of the parse comes behind what the lexer has to say up to the next token. -/
def Punctual (p : Parser) (stream : TokenStream) : Prop :=
  ∀ m, p.Reaches stream m → p.Timely m ∧ (m.halted = true → m.state.Prompt)

/-- Where the tokens of a stream stand one behind the other every report comes in time. -/
theorem punctual_of_sited {stream : TokenStream}
    (h : (ParseState.ofStream stream).Sited tokens stop)
    (hsorted : tokens.Pairwise fun t t' => t.offset < t'.offset)
    (hbelow : ∀ t ∈ tokens, t.offset < stop) : p.Punctual stream := by
  intro m hm
  have hsited := hm.preserved (preserved_sited p hsorted) h
  refine ⟨fun st hst => ?_, fun _ => hsited.prompt hsorted hbelow⟩
  obtain ⟨loose, hacts⟩ := hst.acts
  exact (hacts.sited hsorted hsited).prompt hsorted hbelow

/-- In a text below the limit of positions they do. -/
theorem punctual_of_size (hsize : Text.size text < 2 ^ 32) :
    p.Punctual (.ofText table text depth) := by
  have hends : (Lexer.ofText table .skip text).cursor.EndsAt (Text.size text) :=
    Cursor.endsAt_ofText (Nat.le_of_lt_succ hsize)
  obtain ⟨hsorted, hbounds⟩ := Lexer.sorted_tokens hends
  have hup : (ParseState.ofStream (.ofText table text depth)).stream.upcoming
      = (Lexer.ofText table .skip text).tokens := TokenStream.upcoming_ofLexer _ depth
  exact punctual_of_sited ⟨merged_ofStream depth (Nat.le_of_lt_succ hsize), hup ▸ List.suffix_rfl⟩
    hsorted fun t ht => (hbounds t ht).2

/-! ## The beginning and the end -/

/-- At first all lexemes of the text are to come. -/
theorem lexemes_ofText (table : TokenTable) (text : List Char) (depth : Nat) :
    (ParseState.ofStream (.ofText table text depth)).lexemes = lexemes table text :=
  congrArg (List.map Token.lexeme) (TokenStream.upcoming_ofLexer _ depth)

/-- At first the lexer has to say what there is to say about all lexemes. -/
theorem outstanding_ofText (table : TokenTable) (text : List Char) (depth : Nat) :
    (ParseState.ofStream (.ofText table text depth)).outstanding.map Diagnostic.unplaced
      = (lexemes table text).flatMap Lexeme.complaints :=
  Token.map_unplaced_flatMap_complaints (Lexer.ofText table .skip text).tokens

/-- Streams with the same lexemes are begun alike. -/
theorem start_mirrors_of_stream (p : Parser) {stream stream' : TokenStream}
    (htable : stream.lexer.table = stream'.lexer.table)
    (hlexemes : (ParseState.ofStream stream).lexemes = (ParseState.ofStream stream').lexemes)
    (hconsumed : stream'.consumed = stream.consumed)
    (houtstanding : (ParseState.ofStream stream).outstanding.map Diagnostic.unplaced
      = (ParseState.ofStream stream').outstanding.map Diagnostic.unplaced) :
    (p.start stream).Mirrors 0 (p.start stream') := by
  have hst : (ParseState.ofStream stream).Mirrors 0 (ParseState.ofStream stream') :=
    { table := htable
      lexemes := hlexemes
      consumed := hconsumed
      recoveredAt := fun _ _ => ⟨nofun, nofun⟩
      ambiguous := rfl
      undefined := rfl
      reports := rfl
      outstanding := houtstanding
      arena := fun _ => .refl _ }
  unfold start
  simp only [ParseState.id_current_fill, ← hst.next]
  split
  · exact ⟨.done _, .nil, fun _ => rfl, hst.fill 0⟩
  · exact ⟨.rule .., .nil, fun _ => rfl, hst.fill 0⟩

/-- Texts with the same lexemes are begun alike. -/
theorem start_mirrors (p : Parser) (depth depth' : Nat)
    (hlexemes : lexemes table text = lexemes table text') :
    (p.start (.ofText table text depth)).Mirrors 0 (p.start (.ofText table text' depth')) :=
  start_mirrors_of_stream p rfl (by rw [lexemes_ofText, lexemes_ofText, hlexemes]) rfl
    (by rw [outstanding_ofText, outstanding_ofText, hlexemes])

/-- Parses that get to mirrored moments have mirrored answers. -/
theorem Answers.mirrors {i j k : Nat} {stream' : TokenStream}
    (hmeet : (p.run i (p.start (.ofText table text depth))).Mirrors k (p.run j (p.start stream')))
    (hpunctual : p.Punctual (.ofText table text depth)) (hpunctual' : p.Punctual stream')
    (hq : p.Answers (.ofText table text depth) q) :
    ∃ q', p.Answers stream' q' ∧ q.Mirrors k q' := by
  obtain ⟨n, hhalted, rfl⟩ := (answers_iff ..).1 hq
  have hreaches : ∀ (stream : TokenStream) (a b : Nat),
      p.Reaches stream (p.run b (p.run a (p.start stream))) :=
    fun stream a b => ⟨a + b, (run_add ..).symm⟩
  have hrun := run_mirrors hmeet (fun b => (hpunctual _ (hreaches _ i b)).1)
    (fun b => (hpunctual' _ (hreaches _ j b)).1) n
  have hlast : p.run n (p.run i (p.start (.ofText table text depth)))
      = p.run n (p.start (.ofText table text depth)) := by
    rw [← run_add, Nat.add_comm, run_add, run_of_halted hhalted]
  have hfinish := finish_mirrors hrun
    (upcoming_of_next_eof (hreaches (.ofText table text depth) i n).sparing.suffix)
    (fun _ => (hpunctual _ (hreaches _ i n)).2 (by rwa [hlast]))
    (fun _ => (hpunctual' _ (hreaches _ j n)).2 (by rwa [← hrun.halted, hlast]))
  rw [hlast] at hfinish hrun
  exact ⟨_, (answers_iff ..).2 ⟨j + n, by rw [run_add, ← hrun.halted, hhalted], rfl⟩,
    by rwa [run_add]⟩

/-- Two texts with the same lexemes, in the same order, are parsed alike, whatever stands between
the tokens: if one has an answer, so has the other, the trees are written in the same way, and the
reports differ in their places only. -/
theorem answers_of_same_lexemes (hsize : Text.size text < 2 ^ 32)
    (hsize' : Text.size text' < 2 ^ 32)
    (hlexemes : (Lexer.tokenize table .skip text).1.toList.map Token.lexeme
      = (Lexer.tokenize table .skip text').1.toList.map Token.lexeme)
    (hq : p.Answers (.ofText table text depth) q) :
    ∃ q', p.Answers (.ofText table text' depth') q' ∧
      (∀ names, q.tree.expression names = q'.tree.expression names ∧
        q.tree.expressionWithoutErrors names = q'.tree.expressionWithoutErrors names) ∧
      q.diagnostics.map Diagnostic.unplaced = q'.diagnostics.map Diagnostic.unplaced := by
  obtain ⟨q', hq', hmirrors⟩ := hq.mirrors (i := 0) (j := 0) (start_mirrors p depth depth' hlexemes)
    (punctual_of_size hsize) (punctual_of_size hsize')
  refine ⟨q', hq', fun names => ⟨?_, ?_⟩, hmirrors.diagnostics⟩
  · rw [SyntaxTree.expression, SyntaxTree.expression, Arena.expression, Arena.expression,
      hmirrors.root rfl, (hmirrors.arena rfl).write]
  · rw [SyntaxTree.expressionWithoutErrors, SyntaxTree.expressionWithoutErrors,
      hmirrors.root rfl, (hmirrors.arena rfl).write]

/-- A block without statements, and the same behind a blank. -/
theorem answers_of_same_lexemes_block : ∃ t, Demo.table = .ok t ∧
    Text.size ['\x7b', ' ', '\x7d'] < 2 ^ 32 ∧ Text.size [' ', '\x7b', ' ', '\x7d'] < 2 ^ 32 ∧
    (Lexer.tokenize t .skip ['\x7b', ' ', '\x7d']).1.toList.map Token.lexeme
      = (Lexer.tokenize t .skip [' ', '\x7b', ' ', '\x7d']).1.toList.map Token.lexeme ∧
    ∃ q q', Demo.parser.Answers (.ofText t ['\x7b', ' ', '\x7d'] 1) q ∧
      Demo.parser.Answers (.ofText t [' ', '\x7b', ' ', '\x7d'] 1) q' ∧
      (∀ names, q.tree.expression names = q'.tree.expression names ∧
        q.tree.expressionWithoutErrors names = q'.tree.expressionWithoutErrors names) ∧
      q.diagnostics.map Diagnostic.unplaced = q'.diagnostics.map Diagnostic.unplaced := by
  obtain ⟨t, ht⟩ := Demo.exists_table
  have hsize : Text.size ['\x7b', ' ', '\x7d'] < 2 ^ 32 := by decide
  have hsize' : Text.size [' ', '\x7b', ' ', '\x7d'] < 2 ^ 32 := by decide
  have hlexes : t.Lexes .skip ['\x7b', ' ', '\x7d'] _ :=
    Demo.lexes_spaced ht (Demo.isLexeme_fixedWords ht ["\x7b", "\x7d"] (by decide))
  have hlexes' : t.Lexes .skip [' ', '\x7b', ' ', '\x7d'] _ :=
    Demo.lexes_blanks ht (Demo.blank_singleton (c := ' ') (by decide)) hlexes
  have hlexemes : (Lexer.tokenize t .skip ['\x7b', ' ', '\x7d']).1.toList.map Token.lexeme
      = (Lexer.tokenize t .skip [' ', '\x7b', ' ', '\x7d']).1.toList.map Token.lexeme := by
    have hindexed := Demo.indexed_table ht
    have hlasts : Lexer.Lasts t ['\x7b', ' ', '\x7d'] := Lexer.lasts_of_decls ht (by decide)
    have hlasts' : Lexer.Lasts t [' ', '\x7b', ' ', '\x7d'] := Lexer.lasts_of_decls ht (by decide)
    have htokens := Lexer.lexes_tokenize hindexed .skip hlasts
    have htokens' := Lexer.lexes_tokenize hindexed .skip hlasts'
    exact (htokens.unique hindexed hlexes).trans (htokens'.unique hindexed hlexes').symm
  obtain ⟨q, hq⟩ := exists_answer_of_complete (p := Demo.parser) Demo.checked_grammar
    Demo.lacks_grammar Demo.decisive.defined (.ofText t ['\x7b', ' ', '\x7d'] 1)
  obtain ⟨q', hq', halike⟩ := answers_of_same_lexemes hsize hsize' hlexemes hq
  exact ⟨t, ht, hsize, hsize', hlexemes, q, q', hq, hq', halike⟩

end Parser

/-! ## Rows of tokens -/

/-- The stream of a text whose tokens have all been looked at. -/
def TokenStream.ofTokens (table : TokenTable) (text : List Char) (ts : List Token)
    (place : Position) : TokenStream :=
  ⟨.ofText table .skip text, ts, 1, some place, 0⟩

/-- A text is parsed like a row of tokens with its lexemes, which stand one behind the other. -/
theorem Parser.Answers.mirrors_tokens {p : Parser} {table : TokenTable} {text : List Char}
    {depth : Nat} {q : Parse} {ts : List Token} {place : Position} (hsize : Text.size text < 2 ^ 32)
    (hplace : place.offset = Text.size text)
    (hsorted : ts.Pairwise fun t t' => t.offset < t'.offset)
    (hbelow : ∀ t ∈ ts, t.offset < Text.size text) (hknown : ∀ t ∈ ts, t.id ≠ .unknown)
    (hlexemes : lexemes table text = ts.map Token.lexeme)
    (hq : p.Answers (.ofText table text depth) q) :
    ∃ q', p.Answers (.ofTokens table text ts place) q' ∧ q.Mirrors 0 q' := by
  have hsilent : ts.flatMap Token.complaints = [] :=
    List.flatMap_eq_nil_iff.2 fun t ht => if_neg (hknown t ht)
  have hup : (TokenStream.ofTokens table text ts place).upcoming = ts := List.append_nil ts
  have hsited :
      (ParseState.ofStream (.ofTokens table text ts place)).Sited ts (Text.size text) := by
    refine ⟨⟨⟨Cursor.endsAt_ofText (Nat.le_of_lt_succ hsize), ?_⟩, hup.symm ▸ hsorted,
      hup.symm ▸ hbelow, hsilent.symm, .nil, nofun, nofun⟩, hup.symm ▸ List.suffix_rfl⟩
    rintro _ ⟨⟩
    exact hplace
  refine hq.mirrors (i := 0) (j := 0) (start_mirrors_of_stream p rfl ?_ rfl ?_)
    (punctual_of_size hsize) (punctual_of_sited hsited hsorted hbelow)
  · rw [lexemes_ofText, hlexemes]
    exact congrArg (List.map Token.lexeme) hup.symm
  · rw [outstanding_ofText, hlexemes, ← Token.map_unplaced_flatMap_complaints, hsilent]
    rfl

end FrontEnd
