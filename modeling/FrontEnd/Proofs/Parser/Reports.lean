import FrontEnd.Proofs.Parser.Leaves
import FrontEnd.Proofs.Stream.Offsets

/-!
# The order of reports

The lexer reports when it reads, which may be long before the parser comes to the place. Its reports
wait until the parser reports something at or behind their places, or until the end. In a text that
stays below the limit of positions the answer is sorted all the same.

- `ParseState.outstanding`: the reports of the lexer that are still to be placed, those about text
  that has not been read among them;
- `ParseState.Merged`: **what is filed is sorted, and what is outstanding points behind it**;
- `Parser.Act.merged`: every act keeps it;
- `Parser.Answers.merged`: so the answer is sorted, and all reports of the lexer are in it.
-/

namespace FrontEnd

namespace Diagnostic

/-- Does the report come from the lexer? -/
def isLexical (d : Diagnostic) : Bool := d.code == .unrecognizedCharacter

/-- The reports may stand in this order: by offset, and those of the lexer first. -/
structure Precedes (d d' : Diagnostic) : Prop where
  le : d.offset ≤ d'.offset
  lexical : d.offset = d'.offset → d'.isLexical = true → d.isLexical = true

theorem Precedes.of_lt {d d' : Diagnostic} (h : d.offset < d'.offset) : d.Precedes d' :=
  ⟨Nat.le_of_lt h, fun heq => absurd heq (Nat.ne_of_lt h)⟩

/-- A report that is not the lexer's may come behind all that point at or before it. -/
theorem Precedes.of_le {d d' : Diagnostic} (h : d.offset ≤ d'.offset) (hd' : d'.isLexical = false) :
    d.Precedes d' :=
  ⟨h, fun _ hlexical => absurd (hd'.symm.trans hlexical) nofun⟩

/-- The reports point at different places, one behind the other. -/
def Ascend (ds : List Diagnostic) : Prop := ds.Pairwise fun d d' => d.offset < d'.offset

end Diagnostic

/-! ## Complaints -/

namespace Token

theorem offset_of_mem_complaints {t : Token} {d : Diagnostic} (h : d ∈ t.complaints) :
    d.offset = t.offset ∧ d.isLexical = true := by
  unfold complaints at h
  split at h
  · rw [List.mem_singleton.1 h]
    exact ⟨rfl, rfl⟩
  · cases h

theorem mem_flatMap_complaints {ts : List Token} {d : Diagnostic}
    (h : d ∈ ts.flatMap complaints) : (∃ t ∈ ts, d.offset = t.offset) ∧ d.isLexical = true := by
  obtain ⟨t, ht, hd⟩ := List.mem_flatMap.1 h
  obtain ⟨hoffset, hlexical⟩ := offset_of_mem_complaints hd
  exact ⟨⟨t, ht, hoffset⟩, hlexical⟩

theorem ascend_complaints {ts : List Token} (h : ts.Pairwise fun t t' => t.offset < t'.offset) :
    Diagnostic.Ascend (ts.flatMap complaints) := by
  refine List.pairwise_flatMap.2 ⟨fun t _ => ?_, h.imp fun hlt d hd d' hd' => ?_⟩
  · unfold complaints
    split
    · exact List.pairwise_singleton ..
    · exact .nil
  · rw [(offset_of_mem_complaints hd).1, (offset_of_mem_complaints hd').1]
    exact hlt

end Token

/-- Behind the reports that point at or before a place come those that point behind it. -/
theorem Diagnostic.lt_of_mem_dropWhile {ds : List Diagnostic} (h : Ascend ds) (place : Nat)
    {d : Diagnostic} (hd : d ∈ ds.dropWhile fun x => decide (x.offset ≤ place)) :
    place < d.offset := by
  induction ds with
  | nil => cases hd
  | cons x ds ih =>
    obtain ⟨hlt, hrest⟩ := List.pairwise_cons.1 h
    rw [List.dropWhile_cons] at hd
    split at hd
    · exact ih hrest hd
    · next hx =>
      have hplace : place < x.offset := by simpa using hx
      rcases List.mem_cons.1 hd with rfl | hd
      · exact hplace
      · exact Nat.lt_trans hplace (hlt d hd)

namespace ParseState

/-- The reports of the lexer that have no place among the others yet. Some are still to be made. -/
def outstanding (st : ParseState) : List Diagnostic :=
  st.pending ++ st.stream.reported ++ st.stream.unread.flatMap Token.complaints

/-- Where the next token stands, or the end of the input. -/
def place (stop : Nat) (st : ParseState) : Nat :=
  (st.stream.upcoming.head?.map Token.offset).getD stop

/-- The reports are sorted as far as they go, and nothing gets lost. `all` are the reports of the
lexer about the whole text, which ends at `stop`. -/
structure Merged (all : List Diagnostic) (stop : Nat) (st : ParseState) : Prop where
  placed : st.stream.Placed stop
  sorted : st.stream.upcoming.Pairwise fun t t' => t.offset < t'.offset
  below : ∀ t ∈ st.stream.upcoming, t.offset < stop
  whole : st.reports.toList.filter Diagnostic.isLexical ++ st.outstanding = all
  ordered : st.reports.toList.Pairwise Diagnostic.Precedes
  /-- What is outstanding points behind what is filed. -/
  ahead : ∀ d ∈ st.reports.toList, ∀ x ∈ st.outstanding, d.offset < x.offset
  /-- Nothing points behind the next token. -/
  behind : ∀ d ∈ st.reports.toList, d.offset ≤ st.place stop

variable {all : List Diagnostic} {stop n : Nat} {st st' : ParseState} {read : List Token}
  {d : Diagnostic}

/-- Reading moves reports from one place to the next. -/
theorem outstanding_of_advances (h : st.stream.Advances read n st'.stream)
    (hpending : st'.pending = st.pending) : st'.outstanding = st.outstanding := by
  rw [outstanding, outstanding, hpending, h.reported, h.unread, List.flatMap_append]
  simp only [List.append_assoc]

theorem Merged.place_le (h : st.Merged all stop) (hstream : st.stream.Advances read n st'.stream) :
    st.place stop ≤ st'.place stop := by
  rw [place, place, hstream.upcoming]
  cases hlater : (st.stream.upcoming.drop n).head? with
  | none =>
    cases hup : st.stream.upcoming.head? with
    | none => exact Nat.le_refl _
    | some t => exact Nat.le_of_lt (h.below t (List.mem_of_mem_head? hup))
  | some t' =>
    have hmem := List.mem_of_mem_drop (List.mem_of_mem_head? hlater)
    match hup : st.stream.upcoming with
    | [] => rw [hup] at hmem; cases hmem
    | t :: ts =>
      have hsorted := h.sorted
      rw [hup] at hmem hsorted
      rcases List.mem_cons.1 hmem with rfl | hmem
      · exact Nat.le_refl _
      · exact Nat.le_of_lt ((List.pairwise_cons.1 hsorted).1 t' hmem)

/-- Looking and taking change nothing about the reports. -/
theorem Merged.advance (h : st.Merged all stop) (hstream : st.stream.Advances read n st'.stream)
    (hplaced : st'.stream.Placed stop) (hreports : st'.reports = st.reports)
    (hpending : st'.pending = st.pending) : st'.Merged all stop := by
  have hout := outstanding_of_advances hstream hpending
  have hsuffix : st'.stream.upcoming <:+ st.stream.upcoming :=
    hstream.upcoming ▸ List.drop_suffix ..
  refine ⟨hplaced, h.sorted.sublist hsuffix.sublist, fun t ht => h.below t (hsuffix.subset ht),
    ?_, ?_, ?_, fun d hd => ?_⟩
  · rw [hreports, hout]
    exact h.whole
  · rw [hreports]
    exact h.ordered
  · rw [hreports, hout]
    exact h.ahead
  · rw [hreports] at hd
    exact Nat.le_trans (h.behind d hd) (h.place_le hstream)

theorem Merged.fill (h : st.Merged all stop) (k : Nat) : (st.fill k).Merged all stop := by
  obtain ⟨read, hadv⟩ := st.stream.advances_fill k
  exact h.advance hadv (h.placed.fill k) rfl rfl

theorem Merged.takeLeaf (h : st.Merged all stop) : st.takeLeaf.2.Merged all stop := by
  obtain ⟨read, hadv⟩ := st.stream.advances_consume
  exact h.advance hadv h.placed.consume rfl rfl

/-- What is outstanding is the end of all reports of the lexer. -/
theorem Merged.outstanding_sublist (h : st.Merged all stop) : st.outstanding.Sublist all :=
  h.whole ▸ List.sublist_append_right ..

theorem place_eq_of_fill (h : st.Merged all stop) :
    (st.fill 0).current.offset = (st.fill 0).place stop := by
  have hplace := TokenStream.offset_ahead_fill h.placed
  rw [← st.stream.upcoming_fill 0] at hplace
  exact hplace

/-- At the end of the input everything has been read. -/
theorem filed_of_upcoming_nil (hend : st.stream.upcoming = []) :
    st.filed = st.reports.toList ++ st.outstanding := by
  rw [TokenStream.upcoming_eq, List.append_eq_nil_iff] at hend
  rw [filed, outstanding, hend.2, List.flatMap_nil, List.append_nil, List.append_assoc]

/-- A look at the next token leaves unread only what stands behind it. -/
theorem Merged.place_lt_unread (h : st.Merged all stop) :
    ∀ t ∈ (st.fill 0).stream.unread, (st.fill 0).place stop < t.offset := by
  intro t ht
  have hfill : (st.fill 0).stream.upcoming = st.stream.upcoming := st.stream.upcoming_fill 0
  have hmem : t ∈ (st.fill 0).stream.upcoming := List.mem_append_right _ ht
  match hup : st.stream.upcoming with
  | [] => rw [hfill, hup] at hmem; cases hmem
  | u :: us =>
    obtain ⟨rest, hbuffer⟩ := TokenStream.buffer_fill_zero_cons hup
    have hbuffer' : (st.fill 0).stream.buffer = u :: rest := hbuffer
    have hsorted := (h.fill 0).sorted
    have hall := (st.fill 0).stream.upcoming_eq
    rw [hbuffer', List.cons_append] at hall
    rw [place, hall]
    rw [hall] at hsorted
    exact (List.pairwise_cons.1 hsorted).1 t (List.mem_append_right _ ht)

/-- The reports of the lexer that a report at this place has to come behind. -/
def due (st : ParseState) (d : Diagnostic) : List Diagnostic :=
  (st.pending ++ st.stream.reported).takeWhile fun x => decide (x.offset ≤ d.offset)

theorem reports_report (st : ParseState) (d : Diagnostic) :
    (st.report d).reports.toList = st.reports.toList ++ (st.due d ++ [d]) := by
  simp only [report, DiagnosticLog.toList_record, DiagnosticLog.toList_extend, List.append_assoc]
  rfl

/-- What is outstanding after a report: what is not due, and what has not been read. -/
theorem outstanding_report (st : ParseState) (d : Diagnostic) :
    (st.report d).outstanding
      = (st.pending ++ st.stream.reported).dropWhile (fun x => decide (x.offset ≤ d.offset))
        ++ st.stream.unread.flatMap Token.complaints := by
  rw [← st.stream.unread_takeDiagnostics]
  show _ ++ st.stream.takeDiagnostics.2.reported ++ _ = _
  rw [TokenStream.reported_takeDiagnostics, List.append_nil]
  rfl

theorem due_append_outstanding (st : ParseState) (d : Diagnostic) :
    st.due d ++ (st.report d).outstanding = st.outstanding := by
  rw [outstanding_report, due, ← List.append_assoc, List.takeWhile_append_dropWhile]
  rfl

theorem offset_le_of_mem_due {st : ParseState} {d x : Diagnostic} (h : x ∈ st.due d) :
    x.offset ≤ d.offset :=
  of_decide_eq_true (List.mem_takeWhile_imp (p := fun x : Diagnostic => decide (x.offset ≤ d.offset)) h)

/-- A report at the next token goes behind the reports of the lexer that point at or before it. -/
theorem Merged.report (h : st.Merged all stop) (hall : Diagnostic.Ascend all)
    (hlexical : ∀ x ∈ all, x.isLexical = true)
    (hplace : d.location.start = (st.fill 0).current.position) (hd : d.isLexical = false) :
    ((st.fill 0).report d).Merged all stop := by
  have hunread := h.place_lt_unread
  have hcurrent := place_eq_of_fill h
  replace h := h.fill 0
  generalize st.fill 0 = st at h hplace hunread hcurrent
  have hoffset : d.offset = st.place stop :=
    (congrArg Position.offset hplace).trans hcurrent
  have hsplit := st.due_append_outstanding d
  have hascend : Diagnostic.Ascend (st.due d ++ (st.report d).outstanding) :=
    hsplit ▸ hall.sublist h.outstanding_sublist
  have hdueLexical : ∀ x ∈ st.due d, x.isLexical = true := fun x hx =>
    hlexical x (h.outstanding_sublist.subset (hsplit ▸ List.mem_append_left _ hx))
  have hup : (st.report d).stream.upcoming = st.stream.upcoming := Parser.upcoming_report st d
  have hplaceEq : (st.report d).place stop = st.place stop := by rw [place, place, hup]
  refine ⟨h.placed.takeDiagnostics, hup ▸ h.sorted, hup ▸ h.below, ?whole, ?ordered, ?ahead, ?behind⟩
  case whole =>
    rw [reports_report, List.filter_append, List.filter_append, List.filter_eq_self.2 hdueLexical,
      List.filter_cons_of_neg (by simp [hd]), List.filter_nil, List.append_nil, List.append_assoc,
      hsplit]
    exact h.whole
  case ordered =>
    rw [reports_report]
    refine List.pairwise_append.2 ⟨h.ordered, List.pairwise_append.2 ⟨?_, List.pairwise_singleton ..,
      ?_⟩, ?_⟩
    · exact (List.pairwise_append.1 hascend).1.imp Diagnostic.Precedes.of_lt
    · intro x hx y hy
      rw [List.mem_singleton.1 hy]
      exact .of_le (offset_le_of_mem_due hx) hd
    · intro x hx y hy
      rcases List.mem_append.1 hy with hy | hy
      · exact .of_lt (h.ahead x hx y (hsplit ▸ List.mem_append_left _ hy))
      · rw [List.mem_singleton.1 hy]
        exact .of_le (hoffset ▸ h.behind x hx) hd
  case ahead =>
    intro x hx y hy
    rw [reports_report] at hx
    rcases List.mem_append.1 hx with hx | hx
    · exact h.ahead x hx y (hsplit ▸ List.mem_append_right _ hy)
    · rcases List.mem_append.1 hx with hx | hx
      · exact (List.pairwise_append.1 hascend).2.2 x hx y hy
      · rw [List.mem_singleton.1 hx]
        rw [outstanding_report] at hy
        -- What was read and is not due points behind the place, and so does what was not read.
        rcases List.mem_append.1 hy with hy | hy
        · refine Diagnostic.lt_of_mem_dropWhile ?_ d.offset hy
          exact (hall.sublist h.outstanding_sublist).sublist (List.sublist_append_left ..)
        · obtain ⟨⟨t, ht, hty⟩, -⟩ := Token.mem_flatMap_complaints hy
          rw [hoffset, hty]
          exact hunread t ht
  case behind =>
    intro x hx
    rw [reports_report] at hx
    rw [hplaceEq]
    rcases List.mem_append.1 hx with hx | hx
    · exact h.behind x hx
    · rcases List.mem_append.1 hx with hx | hx
      · exact hoffset ▸ offset_le_of_mem_due hx
      · rw [List.mem_singleton.1 hx, hoffset]

end ParseState

namespace Parser

variable {all : List Diagnostic} {stop : Nat} {w w' : Workpiece}

theorem Act.merged (hall : Diagnostic.Ascend all) (hlexical : ∀ x ∈ all, x.isLexical = true)
    (hact : Act w w') (h : w.state.Merged all stop) : w'.state.Merged all stop := by
  cases hact with
  | look k st loose => exact h.fill k
  | @note st st' hnotes loose =>
    obtain ⟨hstream, -, hreports, hpending⟩ := hnotes
    have hadv : st.stream.Advances [] 0 st'.stream := by
      rw [hstream]
      exact .refl _
    exact h.advance hadv (hstream ▸ h.placed) hreports hpending
  | report st d hplace hcode loose =>
    exact h.report hall hlexical hplace (by simpa [Diagnostic.isLexical] using hcode)
  | take st loose => exact (h.fill 0).takeLeaf
  | skip sync place st loose =>
    obtain ⟨-, read, hadv⟩ := TokenStream.synchronize_spec sync [] st.stream
    exact h.advance hadv (h.placed.synchronize sync []) rfl rfl
  | wrap kind hkind children place st before =>
    exact h.advance (.refl st.stream) h.placed rfl rfl

/-- The lexer complains about one token after the other. -/
theorem ascend_complaints_ofText (table : TokenTable) {text : List Char}
    (hsize : Text.size text ≤ Position.limit) :
    Diagnostic.Ascend ((Lexer.ofText table .skip text).tokens.flatMap Token.complaints) :=
  Token.ascend_complaints (Lexer.sorted_tokens (Cursor.endsAt_ofText hsize)).1

/-- Before the first token nothing is filed, and everything is outstanding. -/
theorem merged_ofStream {table : TokenTable} {text : List Char} (depth : Nat)
    (hsize : Text.size text ≤ Position.limit) :
    (ParseState.ofStream (.ofText table text depth)).Merged
      ((Lexer.ofText table .skip text).tokens.flatMap Token.complaints) (Text.size text) := by
  have hends : (Lexer.ofText table .skip text).cursor.EndsAt (Text.size text) :=
    Cursor.endsAt_ofText hsize
  obtain ⟨hsorted, hbounds⟩ := Lexer.sorted_tokens hends
  have hup : (ParseState.ofStream (.ofText table text depth)).stream.upcoming
      = (Lexer.ofText table .skip text).tokens := TokenStream.upcoming_ofLexer _ depth
  exact ⟨⟨hends, nofun⟩, hup ▸ hsorted, fun t ht => (hbounds t (hup ▸ ht)).2, rfl, .nil, nofun, nofun⟩

/-- All reports of the lexer are in an answer, and it is sorted. -/
theorem Answers.merged {p : Parser} (hg : p.grammar.Checked) {table : TokenTable}
    {text : List Char} (hsize : Text.size text < 2 ^ 32) {depth : Nat} {q : Parse}
    (hq : p.Answers (.ofText table text depth) q) :
    q.diagnostics.filter Diagnostic.isLexical = (Lexer.tokenize table .skip text).2.log.toList ∧
      q.diagnostics.Pairwise Diagnostic.Precedes := by
  obtain ⟨w, hacts, hend, rfl⟩ := hq.acts hg
  have hlimit : Text.size text ≤ Position.limit := Nat.le_of_lt_succ hsize
  have hall := ascend_complaints_ofText table hlimit
  have hlexical : ∀ x ∈ (Lexer.ofText table .skip text).tokens.flatMap Token.complaints,
      x.isLexical = true := fun x hx => (Token.mem_flatMap_complaints hx).2
  have h := hacts.invariant (I := fun w => w.state.Merged _ _)
    (fun _ _ hact => hact.merged hall hlexical) (merged_ofStream depth hlimit)
  rw [ParseState.filed_of_upcoming_nil (upcoming_of_next_eof hacts.suffix hend)]
  constructor
  · rw [List.filter_append, List.filter_eq_self.2 fun x hx =>
      hlexical x (h.outstanding_sublist.subset hx), h.whole, Lexer.log_tokenize]
  · refine List.pairwise_append.2 ⟨h.ordered, ?_, fun x hx y hy => .of_lt (h.ahead x hx y hy)⟩
    exact (hall.sublist h.outstanding_sublist).imp Diagnostic.Precedes.of_lt

/-- In a text below the limit of positions, the answer is sorted, at equal places with the reports of
the lexer first, and the reports of the lexer in it are those about the text, in the same order. -/
theorem merged_of_answers {decls : List GrammarDecl} {g : Grammar}
    (hg : Grammar.ofDecls decls = .ok g) {sync : TokenSet} {table : TokenTable}
    {text : List Char} (hsize : Text.size text < 2 ^ 32) {depth : Nat} {q : Parse}
    (hq : Parser.Answers ⟨g, sync⟩ (.ofText table text depth) q) :
    q.diagnostics.filter Diagnostic.isLexical = (Lexer.tokenize table .skip text).2.log.toList ∧
      q.diagnostics.Pairwise Diagnostic.Precedes :=
  hq.merged (Grammar.checked_of_ofDecls hg) hsize

/-- A text with a character that is no token, and with one name too many. -/
theorem merged_of_answers_sample :
    Text.size ['x', '?', 'x'] < 2 ^ 32 ∧
      ∃ q, Parser.Answers ⟨.sample, ∅⟩ (.ofText sampleTable ['x', '?', 'x'] 1) q ∧
        q.diagnostics.filter Diagnostic.isLexical
          = (Lexer.tokenize sampleTable .skip ['x', '?', 'x']).2.log.toList ∧
        q.diagnostics.Pairwise Diagnostic.Precedes := by
  have hsize : Text.size ['x', '?', 'x'] < 2 ^ 32 := by decide
  obtain ⟨q, hanswers⟩ := exists_answer_of_complete (p := ⟨.sample, ∅⟩) Grammar.checked_sample
    (Grammar.lacks_sample nofun) Grammar.defined_sample (.ofText sampleTable ['x', '?', 'x'] 1)
  exact ⟨hsize, q, hanswers, merged_of_answers Grammar.ofDecls_sample hsize hanswers⟩

end Parser

end FrontEnd
