import FrontEnd.Proofs.Parser.Blame
import FrontEnd.Proofs.Parser.Damage
import FrontEnd.Proofs.Parser.Limits
import FrontEnd.Proofs.Parser.Mismatches
import FrontEnd.Proofs.Stream.Seams

/-!
# Characters that no rule matches

The lexer complains about each of them, and a token that stands for one is skipped without a second
report. That is so wherever a token is blamed in the course of the parse. What is left at the end of
the start rule is blamed all the same, even if it begins with such a character, unless tokens were
skipped right up to it.

- `Parser.Preserved`: what the operations of a state keep, which every step keeps then;
- `ParseState.Sparing`: **no report that was filed blames a token that stands for such a
  character**;
- `Parser.sparing_of_answers`: the one exception, and when it is met.
-/

namespace FrontEnd

namespace Diagnostic

/-- The report blames no token that stands for a character without a rule, and nothing that is left
at the end. -/
structure Spares (tokens : List Token) (d : Diagnostic) : Prop where
  code : d.code ≠ .trailingInput
  /-- What is blamed is a token of the text, or the end of the input. -/
  token : d.code = .unexpectedToken → ∃ t, t.id ≠ .unknown ∧
    (t ∈ tokens ∨ ∃ place, t = .endOfInput place) ∧ d.location = .ofToken t

theorem Spares.of_code {tokens : List Token} {d : Diagnostic} (h : d.isBlame = false) :
    d.Spares tokens := by
  rw [isBlame, Bool.or_eq_false_iff, beq_eq_false_iff_ne, beq_eq_false_iff_ne] at h
  exact ⟨h.2, fun hcode => absurd hcode h.1⟩

end Diagnostic

namespace ParseState

/-- No report blames a token that stands for a character without a rule. -/
structure Sparing (tokens : List Token) (st : ParseState) : Prop where
  suffix : st.stream.upcoming <:+ tokens
  lexical : ∀ d ∈ st.outstanding, d.isLexical = true
  reports : ∀ d ∈ st.reports.toList, d.Spares tokens

namespace Sparing

variable {tokens read : List Token} {st st' : ParseState} {d : Diagnostic} {n : Nat}

/-- The next token is one of the text, or it is the end of the input. -/
theorem current (h : st.Sparing tokens) :
    (st.fill 0).current ∈ tokens ∨ ∃ place, (st.fill 0).current = .endOfInput place := by
  have hcurrent : (st.fill 0).current = _ := st.stream.ahead_fill 0
  rw [hcurrent]
  cases hup : st.stream.upcoming[0]? with
  | none => exact .inr ⟨_, rfl⟩
  | some t => exact .inl (h.suffix.subset (List.mem_of_getElem? hup))

theorem advance (h : st.Sparing tokens) (hstream : st.stream.Advances read n st'.stream)
    (hreports : st'.reports = st.reports) (hpending : st'.pending = st.pending) :
    st'.Sparing tokens where
  suffix := hstream.upcoming ▸ (List.drop_suffix ..).trans h.suffix
  lexical := outstanding_of_advances hstream hpending ▸ h.lexical
  reports := hreports ▸ h.reports

theorem fill (h : st.Sparing tokens) (k : Nat) : (st.fill k).Sparing tokens := by
  obtain ⟨read, hadv⟩ := st.stream.advances_fill k
  exact h.advance hadv rfl rfl

theorem takeLeaf (h : st.Sparing tokens) : st.takeLeaf.2.Sparing tokens := by
  obtain ⟨read, hadv⟩ := st.stream.advances_consume
  exact h.advance hadv rfl rfl

theorem pushNode (h : st.Sparing tokens) (kind : NodeKind) (children : List NodeId)
    (place : Position) : (st.pushNode kind children place).2.Sparing tokens :=
  ⟨h.suffix, h.lexical, h.reports⟩

theorem markDamage (h : st.Sparing tokens) : st.markDamage.Sparing tokens :=
  ⟨h.suffix, h.lexical, h.reports⟩

theorem report (h : st.Sparing tokens) (hd : d.Spares tokens) : (st.report d).Sparing tokens where
  suffix := Parser.upcoming_report st d ▸ h.suffix
  lexical := fun x hx => h.lexical x (st.due_append_outstanding d ▸ List.mem_append_right _ hx)
  reports := by
    intro x hx
    rw [reports_report] at hx
    rcases List.mem_append.1 hx with hx | hx
    · exact h.reports x hx
    rcases List.mem_append.1 hx with hx | hx
    · refine .of_code (Diagnostic.isBlame_of_lexical (h.lexical x ?_))
      exact st.due_append_outstanding d ▸ List.mem_append_left _ hx
    · rwa [List.mem_singleton.1 hx]

theorem absorb (h : st.Sparing tokens) : st.absorb.2.Sparing tokens :=
  absorb_keeps (fun h => h.fill 0) takeLeaf (fun _ _ _ h => h.pushNode ..) markDamage h

theorem skipTo (h : st.Sparing tokens) (sync : TokenSet) : (st.skipTo sync).2.Sparing tokens := by
  obtain ⟨⟨read, n, hadv⟩, hreports, -⟩ := st.advances_skipTo sync
  exact h.advance hadv hreports rfl

/-- Where a token is blamed it stands for a rule. -/
theorem reportUnexpected (h : st.Sparing tokens) (g : Grammar) (expected : TokenSet) :
    ((st.fill 0).reportUnexpected g expected).Sparing tokens := by
  rw [ParseState.reportUnexpected]
  split
  · exact h.fill 0
  · next hid =>
    exact (h.fill 0).report
      ⟨by simp [Diagnostic.unexpectedToken], fun _ => ⟨_, hid, h.current, rfl⟩⟩

theorem unexpected (h : st.Sparing tokens) (g : Grammar) (sync expected : TokenSet) :
    (st.unexpected g sync expected).2.Sparing tokens := by
  rw [unexpected_eq]
  split
  · exact (h.fill 0).absorb
  · exact (h.reportUnexpected g expected).skipTo sync

theorem missingRule (h : st.Sparing tokens) (g : Grammar) (r : Nat) :
    (st.missingRule g r).2.Sparing tokens := by
  have hreport : ((st.fill 0).reportMissing g r).Sparing tokens := by
    rw [reportMissing]
    split
    · exact h.fill 0
    · have hsparing := (h.fill 0).report
        (d := .undefinedRule (g.ruleName r) (.ofToken (st.fill 0).current)) (.of_code rfl)
      exact ⟨hsparing.suffix, hsparing.lexical, hsparing.reports⟩
  exact (hreport.pushNode .error [] (st.fill 0).current.position).markDamage

theorem select (h : st.Sparing tokens) (g : Grammar) (r : Nat) (as : List Alternative) :
    (st.select g r as).2.Sparing tokens := by
  refine ParseState.select_invariant (I := fun st => st.Sparing tokens) (fun _ k h => h.fill k)
    (fun st h => ?_) h as
  rw [reportAmbiguous]
  split
  · exact h.fill 0
  · have hsparing := (h.fill 0).report
      (d := .ambiguousRule (g.ruleName r) (.ofToken (st.fill 0).current)) (.of_code rfl)
    exact ⟨hsparing.suffix, hsparing.lexical, hsparing.reports⟩

end Sparing

end ParseState

namespace Parser

/-! ## Steps -/

/-- The predicate is kept by all that a step does to a state when it begins no rule. -/
structure Upheld (p : Parser) (I : ParseState → Prop) : Prop extends Kept I where
  unexpected : ∀ {st} expected, I st → I (st.unexpected p.grammar p.sync expected).2

/-- The predicate is kept by all that a step does to a state. -/
structure Preserved (p : Parser) (I : ParseState → Prop) : Prop extends Upheld p I where
  missingRule : ∀ {st} r, I st → I (st.missingRule p.grammar r).2
  select : ∀ {st} r as, I st → I (st.select p.grammar r as).2

variable {p : Parser} {m m' : Machine} {st st₁ : ParseState} {I : ParseState → Prop}

/-- What every act keeps is kept by the operations, since these consist of acts. -/
theorem Preserved.of_acts (hact : ∀ {w w'}, Act w w' → I w.state → I w'.state)
    (htake : ∀ {st}, I st → I st.takeLeaf.2)
    (hpush : ∀ {st} kind children place, I st → I (st.pushNode kind children place).2) :
    p.Preserved I := by
  have hacts : ∀ {w w'}, Acts w w' → I w.state → I w'.state := fun h =>
    h.invariant (I := fun w => I w.state) fun _ _ => hact
  exact {
    fill := hact (.look 0 _ [])
    takeLeaf := htake
    pushNode := hpush
    absorb := hacts (acts_absorb _ [])
    unexpected := fun _ => hacts (acts_unexpected _ _ _ _ [])
    missingRule := fun r => hacts (acts_missingRule _ r _ [])
    select := fun r as => hacts (acts_select _ r as _ []) }

theorem Upheld.of_unexpected (hI : p.Upheld I) {expected : TokenSet} {errors : List NodeId}
    (hu : st.unexpected p.grammar p.sync expected = (errors, st₁)) (h : I st) : I st₁ := by
  have hst := hI.unexpected expected h
  rwa [hu] at hst

theorem Preserved.of_select (hI : p.Preserved I) {r : Nat} {as : List Alternative}
    {a : Option Alternative} (hs : st.select p.grammar r as = (a, st₁)) (h : I st) : I st₁ := by
  have hst := hI.select r as h
  rwa [hs] at hst

theorem Move.upheld (hI : p.Upheld I) (hmove : p.Move m m')
    (htask : ∀ r follow, m.task ≠ .rule r follow) (h : I m.state) : I m'.state :=
  hmove.kept hI.toKept hI.toKept ⟨fun _ _ h => h, fun x _ => hI.unexpected x.expected⟩ htask h

theorem Move.preserved (hI : p.Preserved I) (hmove : p.Move m m') (h : I m.state) :
    I m'.state := by
  obtain ⟨task, frames, nodes, st⟩ := m
  cases task with
  | rule r follow =>
    cases hmove with
    | missing => exact hI.missingRule r h
    | express => exact h
    | choose _ hs => exact hI.of_select hs h
    | retry _ hs _ hu hs₂ | refuse _ hs hu hs₂ =>
      exact hI.of_select hs₂ (hI.fill (hI.of_unexpected hu (hI.of_select hs h)))
  | _ => exact hmove.upheld hI.toUpheld (fun _ _ => nofun) h

theorem Reaches.preserved (hI : p.Preserved I) {stream : TokenStream}
    (hstart : I (.ofStream stream)) (hm : p.Reaches stream m) : I m.state := by
  induction hm using Reaches.induction with
  | start => exact hI.fill hstart
  | step m _ ih => exact (step_move p m).preserved hI ih

/-! ## Answers -/

theorem preserved_sparing (p : Parser) (tokens : List Token) :
    p.Preserved (ParseState.Sparing tokens) where
  fill := fun h => h.fill 0
  takeLeaf := fun h => h.takeLeaf
  pushNode := fun kind children place h => h.pushNode kind children place
  absorb := fun h => h.absorb
  unexpected := fun expected h => h.unexpected p.grammar p.sync expected
  missingRule := fun r h => h.missingRule p.grammar r
  select := fun r as h => h.select p.grammar r as

/-- A parse that has ended answers in one way. -/
theorem finish_of_reaches {stream : TokenStream} {q : Parse} (hm : p.Reaches stream m)
    (hhalted : m.halted = true) (hq : p.Answers stream q) : q = finish m := by
  obtain ⟨n, hn, rfl⟩ := (answers_iff ..).1 hq
  obtain ⟨i, rfl⟩ := hm
  rcases Nat.le_total i n with hle | hle
  · rw [run_of_halted_le hhalted hle]
  · rw [run_of_halted_le hn hle]

theorem diagnostics_finish (m : Machine) :
    (finish m).diagnostics =
      if m.state.next = .eof then (m.state.fill 0).filed
      else ((m.state.fill 0).trailing.2.fill 0).filed := by
  rw [finish]
  simp only [ParseState.id_current_fill, ParseState.allReports_eq]
  split <;> rfl

end Parser

namespace ParseState

variable {tokens : List Token} {st : ParseState} {d : Diagnostic}

theorem Sparing.spares_of_mem_filed (h : st.Sparing tokens) (hd : d ∈ st.filed) :
    d.Spares tokens := by
  rw [filed, List.append_assoc] at hd
  rcases List.mem_append.1 hd with hd | hd
  · exact h.reports d hd
  · refine .of_code (Diagnostic.isBlame_of_lexical (h.lexical d ?_))
    exact List.mem_append_left _ hd

/-- The report about what is left at the end of the start rule. -/
def leftover (st : ParseState) : Diagnostic :=
  .trailingInput (st.describe st.current) (.ofToken st.current)

/-- The state with what is left put away, its report made unless tokens were skipped before. -/
theorem trailing_continues (st : ParseState) :
    ∃ read n, ((if st.atDamage then st else st.report st.leftover).stream).Advances read n
        (st.trailing.2.fill 0).stream ∧
      (st.trailing.2.fill 0).reports = (if st.atDamage then st else st.report st.leftover).reports ∧
      (st.trailing.2.fill 0).pending
        = (if st.atDamage then st else st.report st.leftover).pending := by
  obtain ⟨-, read, hadv⟩ := TokenStream.synchronize_spec ∅ []
    (if st.atDamage then st else st.report st.leftover).stream
  obtain ⟨read', hfill⟩ := st.trailing.2.stream.advances_fill 0
  exact ⟨_, _, hadv.trans hfill, rfl, rfl⟩

/-- What is left at the end is blamed at its first token, whatever that stands for. -/
theorem Sparing.spares_of_mem_trailing (h : st.Sparing tokens)
    (hd : d ∈ (st.trailing.2.fill 0).filed) :
    d.Spares tokens ∨ st.atDamage = false ∧ d = st.leftover := by
  obtain ⟨read, n, hstream, hreports, hpending⟩ := st.trailing_continues
  cases hdamage : st.atDamage with
  | true =>
    rw [hdamage] at hstream hreports hpending
    exact .inl ((h.advance hstream hreports hpending).spares_of_mem_filed hd)
  | false =>
    rw [hdamage, if_neg Bool.false_ne_true] at hstream hreports hpending
    have hout := outstanding_of_advances hstream hpending
    have hlexical : ∀ x ∈ st.outstanding, x.Spares tokens := fun x hx =>
      .of_code (Diagnostic.isBlame_of_lexical (h.lexical x hx))
    have hdue := st.due_append_outstanding st.leftover
    rw [filed, List.append_assoc, hreports, reports_report] at hd
    rcases List.mem_append.1 hd with hd | hd
    · rcases List.mem_append.1 hd with hd | hd
      · exact .inl (h.reports d hd)
      rcases List.mem_append.1 hd with hd | hd
      · exact .inl (hlexical d (hdue ▸ List.mem_append_left _ hd))
      · exact .inr ⟨rfl, List.mem_singleton.1 hd⟩
    · refine .inl (hlexical d (hdue ▸ List.mem_append_right _ ?_))
      exact hout ▸ List.mem_append_left _ hd

theorem leftover_mem_trailing (h : st.atDamage = false) :
    st.leftover ∈ (st.trailing.2.fill 0).filed := by
  obtain ⟨read, n, -, hreports, -⟩ := st.trailing_continues
  rw [h, if_neg Bool.false_ne_true] at hreports
  rw [filed, List.append_assoc, hreports, reports_report]
  simp

end ParseState

namespace Parser

section Answer

variable {g : Grammar} {sync : TokenSet} {table : TokenTable} {text : List Char} {depth : Nat}
  {q : Parse} {m : Machine} {d : Diagnostic}

theorem Reaches.sparing (hm : Parser.Reaches ⟨g, sync⟩ (.ofText table text depth) m) :
    m.state.Sparing (Lexer.ofText table .skip text).tokens := by
  refine hm.preserved (preserved_sparing _ _) ⟨?_, ?_, nofun⟩
  · exact (TokenStream.upcoming_ofLexer _ depth).symm ▸ List.suffix_rfl
  · exact fun d hd => (Token.mem_flatMap_complaints hd).2

/-- Every report of an answer blames a token that stands for a rule, or it is the one about what is
left at the end. -/
theorem spares_of_mem_finish (hm : Parser.Reaches ⟨g, sync⟩ (.ofText table text depth) m)
    (hd : d ∈ (finish m).diagnostics) :
    d.Spares (Lexer.ofText table .skip text).tokens ∨
      m.state.atDamage = false ∧ d = (m.state.fill 0).leftover := by
  rw [diagnostics_finish] at hd
  split at hd
  · exact .inl ((hm.sparing.fill 0).spares_of_mem_filed hd)
  · rw [← ParseState.atDamage_fill m.state 0]
    exact (hm.sparing.fill 0).spares_of_mem_trailing hd

/-- In a text below the limit of positions a token is known by its place. -/
theorem token_eq_of_location (hsize : Text.size text < 2 ^ 32) {t t' : Token}
    (ht : t ∈ (Lexer.ofText table .skip text).tokens)
    (ht' : t' ∈ (Lexer.ofText table .skip text).tokens)
    (h : Location.ofToken t = Location.ofToken t') : t = t' := by
  have hends : (Lexer.ofText table .skip text).cursor.EndsAt (Text.size text) :=
    Cursor.endsAt_ofText (Nat.le_of_lt_succ hsize)
  have hsorted := (Lexer.sorted_tokens hends).1
  have hnodup : ((Lexer.ofText table .skip text).tokens.map Token.offset).Nodup :=
    List.pairwise_map.2 (hsorted.imp Nat.ne_of_lt)
  exact List.inj_on_of_nodup_map hnodup ht ht' (congrArg (fun l => l.start.offset) h)

/-- A character without a rule that is next when the start rule is done is blamed, unless tokens
were skipped right before it. -/
theorem leftover_mem_of_unknown (hq : Parser.Answers ⟨g, sync⟩ (.ofText table text depth) q)
    (hm : Parser.Reaches ⟨g, sync⟩ (.ofText table text depth) m) (hhalted : m.halted = true)
    (hnext : m.state.next = .unknown) (hdamage : m.state.atDamage = false) :
    (m.state.fill 0).leftover ∈ q.diagnostics ∧
      (m.state.fill 0).current ∈ (Lexer.ofText table .skip text).tokens ∧
        (m.state.fill 0).current.id = .unknown := by
  have hne : m.state.next ≠ .eof := by
    rw [hnext]
    nofun
  have hbuffer := ParseState.current_mem_buffer hne
  refine ⟨?_, (hm.sparing.fill 0).suffix.subset (List.mem_append_left _ hbuffer),
    m.state.id_current_fill.trans hnext⟩
  rw [finish_of_reaches hm hhalted hq, diagnostics_finish, if_neg hne]
  exact ParseState.leftover_mem_trailing (by rwa [ParseState.atDamage_fill])

end Answer

/-- A token that cannot be used is blamed only if it stands for a rule. What is left at the end is
blamed at a character that no rule matches exactly if such a character is next when the start rule
is done, and no tokens were skipped right before it. -/
theorem sparing_of_answers {g : Grammar} {sync : TokenSet} {table : TokenTable} {text : List Char}
    {depth : Nat} {q : Parse} (hq : Parser.Answers ⟨g, sync⟩ (.ofText table text depth) q) :
    (∀ d ∈ q.diagnostics, d.code = .unexpectedToken → ∃ t, t.id ≠ .unknown ∧
      (t ∈ (Lexer.tokenize table .skip text).1.toList ∨ ∃ place, t = .endOfInput place) ∧
        d.location = .ofToken t) ∧
    (Text.size text < 2 ^ 32 →
      ((∀ d ∈ q.diagnostics, d.isBlame = true →
          ∀ t ∈ (Lexer.tokenize table .skip text).1.toList, t.id = .unknown →
            d.location ≠ .ofToken t) ↔
        ∀ m, Parser.Reaches ⟨g, sync⟩ (.ofText table text depth) m → m.halted = true →
          m.state.next = .unknown → m.state.atDamage = true)) := by
  rw [Lexer.tokenize_toList]
  obtain ⟨n, hhalted, hfinish⟩ := (answers_iff ..).1 hq
  have hreached : Parser.Reaches ⟨g, sync⟩ (.ofText table text depth)
      (Parser.run ⟨g, sync⟩ n (Parser.start ⟨g, sync⟩ (.ofText table text depth))) := ⟨n, rfl⟩
  generalize Parser.run _ n _ = m at hhalted hfinish hreached
  have hspares := fun d (hd : d ∈ q.diagnostics) => spares_of_mem_finish hreached (hfinish ▸ hd)
  refine ⟨fun d hd hcode => ?_, fun hsize => ⟨fun hclean m' hreached' hhalted' hnext => ?_,
    fun hdamage d hd hblame t ht hunknown hlocation => ?_⟩⟩
  · rcases hspares d hd with hspares | ⟨-, rfl⟩
    · exact hspares.token hcode
    · cases hcode
  · -- What is next when the start rule is done would be blamed.
    rw [← Bool.not_eq_false]
    intro hundamaged
    obtain ⟨hblamed, hmem, hid⟩ :=
      leftover_mem_of_unknown hq hreached' hhalted' hnext hundamaged
    exact hclean _ hblamed rfl _ hmem hid rfl
  · -- Whatever was blamed, it stands at another place.
    have htext := Lexer.length_pos_of_mem_tokens ht
    have hother : ∀ t', t' ∈ (Lexer.ofText table .skip text).tokens ∨
        (∃ place, t' = .endOfInput place) → Location.ofToken t' = Location.ofToken t → t' = t := by
      rintro t' (ht' | ⟨place, rfl⟩) hsame
      · exact token_eq_of_location hsize ht' ht hsame
      · have hlength : 0 = t.length := congrArg Location.length hsame
        omega
    rcases hspares d hd with hspares | ⟨hundamaged, rfl⟩
    · have hcode : d.code = .unexpectedToken := by
        rw [Diagnostic.isBlame, Bool.or_eq_true, beq_iff_eq, beq_iff_eq] at hblame
        exact hblame.resolve_right hspares.code
      obtain ⟨t', hid, hplace, hsame⟩ := hspares.token hcode
      exact hid (hother t' hplace (hsame.symm.trans hlocation) ▸ hunknown)
    · have hcurrent := hother _ hreached.sparing.current hlocation
      rw [hdamage m hreached hhalted (by rw [← m.state.id_current_fill, hcurrent, hunknown])]
        at hundamaged
      cases hundamaged

/-- A text with a character that is no token, and with one name too many. -/
theorem sparing_of_answers_sample :
    Text.size ['x', '?', 'x'] < 2 ^ 32 ∧
      ∃ q, Parser.Answers ⟨.sample, ∅⟩ (.ofText sampleTable ['x', '?', 'x'] 1) q ∧
        (∀ d ∈ q.diagnostics, d.code = .unexpectedToken → ∃ t, t.id ≠ .unknown ∧
          (t ∈ (Lexer.tokenize sampleTable .skip ['x', '?', 'x']).1.toList ∨
            ∃ place, t = .endOfInput place) ∧ d.location = .ofToken t) ∧
        ((∀ d ∈ q.diagnostics, d.isBlame = true →
            ∀ t ∈ (Lexer.tokenize sampleTable .skip ['x', '?', 'x']).1.toList, t.id = .unknown →
              d.location ≠ .ofToken t) ↔
          ∀ m, Parser.Reaches ⟨.sample, ∅⟩ (.ofText sampleTable ['x', '?', 'x'] 1) m →
            m.halted = true → m.state.next = .unknown → m.state.atDamage = true) := by
  have hsize : Text.size ['x', '?', 'x'] < 2 ^ 32 := by decide
  obtain ⟨q, hanswers⟩ := exists_answer_of_complete (p := ⟨.sample, ∅⟩) Grammar.checked_sample
    (Grammar.lacks_sample nofun) Grammar.defined_sample (.ofText sampleTable ['x', '?', 'x'] 1)
  obtain ⟨hunexpected, htrailing⟩ := sparing_of_answers hanswers
  exact ⟨hsize, q, hanswers, hunexpected, htrailing hsize⟩

/-! ## A rule for the empty text -/

/-- A rule for the empty text makes one empty node and takes nothing. -/
theorem run_of_empty {p : Parser} {r : Nat} {a : Alternative}
    (hb : p.grammar.body r = .sequence [a]) (hsteps : a.steps = []) (hnode : p.hasNode r = true)
    (follow : TokenSet) (frames : List Frame) (nodes : List NodeId) (st : ParseState) :
    ∃ place last, p.run 3 ⟨.rule r follow, frames, nodes, st⟩
        = ⟨.done .proceeding, frames, st.arena.nextId :: nodes, last⟩ ∧
      last.arena = st.arena.pushNode (.rule r) [] place ∧ last.ids = st.ids := by
  have hstep := step_of_choose_eq hb (ParseState.choose_singleton a st.ids) follow frames nodes
  have hstays := st.stays_select p.grammar r [a]
  have hsame := (st.select_same p.grammar r [a]).1
  rw [hsteps] at hstep
  generalize (st.select p.grammar r [a]).2 = st' at hstep hstays hsame
  refine ⟨_, ((st'.fill 0).pushNode (.rule r) [] (st'.fill 0).current.position).2, ?_,
    congrArg (Arena.pushNode · (.rule r) [] _) hsame, ?_⟩
  · show step _ (step _ (step _ _)) = _
    rw [hstep, ← hsame]
    show leaveRule p r .proceeding nodes frames [] st' = _
    rw [leaveRule, if_pos hnode]
    rfl
  · rw [(ParseState.stays_pushNode ..).ids_eq, ParseState.ids_fill, hstays.ids_eq]

end Parser

/-! ## A start rule that ends at once -/

namespace Grammar

/-- A rule for the empty text. -/
def idleDecls : List GrammarDecl := [.declare "rule", .define 0 [⟨[], []⟩], .start 0]

/-- The grammar of these declarations. -/
def idle : Grammar := (GrammarDraft.ofDecls idleDecls).finished 0

theorem ofDecls_idle : ofDecls idleDecls = .ok idle := by
  refine GrammarDraft.build_eq_ok_iff.2 ⟨0, ?_, ?_, ?_, rfl⟩
  · decide +kernel
  · decide +kernel
  · cbv

theorem body_idle : idle.body 0
    = (RuleBody.sequence [⟨[], []⟩]).map (Analysis.alternative idle.nullable idle.first) := by
  have hrules : (GrammarDraft.ofDecls idleDecls).rules
      = #[⟨"rule", .sequence [⟨[], []⟩], false⟩] := by decide +kernel
  rw [idle, GrammarDraft.body_finished, hrules]
  rfl

end Grammar

theorem textIds_sampleTable_unknown : Lexer.textIds sampleTable ['?'] = [.unknown] := by
  have hliterals : sampleTable.literals.getD 0x3f #[] = #[] := by
    exact Std.HashMap.getD_ofList_of_contains_eq_false (by decide)
  have hfound : ∀ w, sampleTable.longestMatch w ['?'] = (none, w) := by
    intro w
    have h : sampleTable.longestMatch w ['?'] = ((sampleTable.literals.getD 0x3f #[]).foldl
        (sampleTable.offerLiteral ['?']) none, w) := rfl
    rw [h, hliterals]
    rfl
  have hnext := Lexer.next_unknown (l := .ofText sampleTable .skip ['?']) rfl (hfound _)
  rw [Lexer.textIds, Lexer.tokenize_toList, Lexer.tokens_of_next_some hnext,
    Lexer.tokens_of_next_none (Lexer.next_nil rfl)]
  rfl

namespace Parser

/-- The start rule for the empty text is done before anything is skipped. -/
theorem reaches_idle :
    ∃ m, Parser.Reaches ⟨.idle, ∅⟩ (.ofText sampleTable ['?'] 1) m ∧ m.halted = true ∧
      m.state.next = .unknown ∧ m.state.atDamage = false := by
  have hids := ids_start ⟨.idle, ∅⟩ sampleTable ['?'] 1
  have htokens : Lexer.textIds sampleTable ['?'] ≠ [] := by
    rw [textIds_sampleTable_unknown]
    nofun
  obtain ⟨htask, hframes⟩ := task_start ⟨.idle, ∅⟩ 1 htokens
  have hdamage : (start ⟨.idle, ∅⟩ (.ofText sampleTable ['?'] 1)).state.atDamage = false := rfl
  refine ⟨_, ⟨3, rfl⟩, ?_⟩
  rw [textIds_sampleTable_unknown] at hids
  generalize start ⟨.idle, ∅⟩ (.ofText sampleTable ['?'] 1) = m at htask hframes hdamage hids
  obtain ⟨task, frames, nodes, st⟩ := m
  cases htask
  cases hframes
  obtain ⟨st', hstays, hstep⟩ := step_of_choose (p := ⟨.idle, ∅⟩) Grammar.body_idle
    (ParseState.choose_singleton _ st.ids) (.single .eof) [] nodes
  have hrun : run ⟨.idle, ∅⟩ 3 ⟨.rule 0 (.single .eof), [], nodes, st⟩
      = step ⟨.idle, ∅⟩ ⟨.done .proceeding, [.rule 0 st.consumed nodes], [], st'⟩ := by
    show step _ (step _ (step _ _)) = _
    rw [hstep]
    rfl
  have hend : st'.next = .unknown ∧ st'.atDamage = false :=
    ⟨hstays.next.trans (congrArg (·.headD .eof) hids), hstays.atDamage.trans hdamage⟩
  -- Only the node of the rule is left to be made.
  have hlast : ∀ m, Parser.Move ⟨.idle, ∅⟩
      ⟨.done .proceeding, [.rule 0 st.consumed nodes], [], st'⟩ m →
      m.halted = true ∧ m.state.next = .unknown ∧ m.state.atDamage = false := by
    intro m hmove
    cases hmove with
    | wrap hnode =>
      refine ⟨rfl, ?_⟩
      show (st'.fill 0).next = .unknown ∧ (st'.fill 0).atDamage = false
      rwa [ParseState.next_fill, ParseState.atDamage_fill]
    | splice hnode => exact ⟨rfl, hend⟩
  have hhalted := hlast _ (step_move _ _)
  rwa [← hrun] at hhalted

/-- A character without a rule is blamed as what is left, although the lexer has complained about
it. -/
theorem leftover_blamed_idle :
    Grammar.ofDecls Grammar.idleDecls = .ok .idle ∧
      ∃ q, Parser.Answers ⟨.idle, ∅⟩ (.ofText sampleTable ['?'] 1) q ∧
        ∃ d ∈ q.diagnostics, d.code = .trailingInput ∧
          ∃ t ∈ (Lexer.tokenize sampleTable .skip ['?']).1.toList, t.id = .unknown ∧
            d.location = .ofToken t := by
  obtain ⟨m, hm, hhalted, hnext, hdamage⟩ := reaches_idle
  have hq : Parser.Answers ⟨.idle, ∅⟩ (.ofText sampleTable ['?'] 1) (finish m) := by
    obtain ⟨n, rfl⟩ := hm
    exact (answers_iff ..).2 ⟨n, hhalted, rfl⟩
  obtain ⟨hblamed, hmem, hid⟩ := leftover_mem_of_unknown hq hm hhalted hnext hdamage
  rw [Lexer.tokenize_toList]
  exact ⟨Grammar.ofDecls_idle, _, hq, _, hblamed, rfl, _, hmem, hid, rfl⟩

end Parser

end FrontEnd
