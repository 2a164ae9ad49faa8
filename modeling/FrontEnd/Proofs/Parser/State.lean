import FrontEnd.Proofs.Stream.Upcoming
import FrontEnd.Parser.State
import Mathlib.Data.List.Find

/-!
# What the operations of a parse do

The course of a parse depends on three things: the ids of the tokens to come, the number of tokens
taken, and the place where tokens were last skipped. Here each operation on the state of a parse is
said in these terms, and in terms of the reports that have been filed, in whatever order.

- `ParseState.ids`, `ParseState.next`, `ParseState.filed`: the view;
- `ParseState.Takes`, `ParseState.Stays`: **tokens are taken from the front, reports are never
  lost, and a token that was looked at has been complained about**;
- `ParseState.takes_unexpected`, `ParseState.stays_select` and their neighbours: one operation each;
- `ParseState.fst_select`: the choice of an alternative is a function of the ids to come.
-/

namespace FrontEnd

namespace ParseState

/-- The ids of the tokens to come. -/
def ids (st : ParseState) : List TokenId := st.stream.upcoming.map Token.id

/-- The id of the next token. -/
def next (st : ParseState) : TokenId := st.ids.headD .eof

/-- All reports so far. -/
def filed (st : ParseState) : List Diagnostic :=
  st.reports.toList ++ st.pending ++ st.stream.reported

/-- What the state knows to be wrong has been reported. -/
structure Honest (st : ParseState) : Prop where
  /-- Every complaint about a token that has been looked at. -/
  looked : ∀ t ∈ st.stream.buffer, t.complaints ⊆ st.filed
  /-- A rule that was missing. -/
  missing : st.undefined ≠ [] → ∃ d ∈ st.filed, d.code = .undefinedRule

/-- `st'` is what becomes of `st` when `n` tokens are taken. -/
structure Takes (st : ParseState) (n : Nat) (st' : ParseState) : Prop where
  le_length : n ≤ st.ids.length
  ids : st'.ids = st.ids.drop n
  consumed : st'.consumed = st.consumed + n
  filed : st.filed ⊆ st'.filed
  honest : st.Honest → st'.Honest

/-- Nothing is taken, and no place is marked. -/
structure Stays (st st' : ParseState) : Prop extends Takes st 0 st' where
  recoveredAt : st'.recoveredAt = st.recoveredAt

variable {st st' st'' : ParseState} {n n' : Nat}

theorem Takes.trans (h : st.Takes n st') (h' : st'.Takes n' st'') : st.Takes (n + n') st'' where
  le_length := by
    have hle := h.le_length
    have hle' := h'.le_length
    rw [h.ids, List.length_drop] at hle'
    omega
  ids := by rw [h'.ids, h.ids, List.drop_drop]
  consumed := by rw [h'.consumed, h.consumed, Nat.add_assoc]
  filed := fun _ hd => h'.filed (h.filed hd)
  honest := fun hh => h'.honest (h.honest hh)

namespace Stays

theorem refl (st : ParseState) : st.Stays st :=
  ⟨⟨Nat.zero_le _, rfl, rfl, fun _ h => h, id⟩, rfl⟩

theorem ids_eq (h : st.Stays st') : st'.ids = st.ids := h.toTakes.ids

theorem consumed_eq (h : st.Stays st') : st'.consumed = st.consumed := h.toTakes.consumed

theorem next (h : st.Stays st') : st'.next = st.next := congrArg (·.headD .eof) h.ids_eq

theorem atDamage (h : st.Stays st') : st'.atDamage = st.atDamage := by
  rw [ParseState.atDamage, ParseState.atDamage, h.recoveredAt, h.consumed_eq]

theorem trans (h : st.Stays st') (h' : st'.Stays st'') : st.Stays st'' :=
  ⟨h.toTakes.trans h'.toTakes, h'.recoveredAt.trans h.recoveredAt⟩

theorem takes (h : st.Stays st') (h' : st'.Takes n st'') : st.Takes n st'' := by
  simpa using h.toTakes.trans h'

end Stays

theorem Takes.stays (h : st.Takes n st') (h' : st'.Stays st'') : st.Takes n st'' :=
  h.trans h'.toTakes

/-! ## The stream inside -/

theorem filed_subset_of_advances {s : TokenStream} {read : List Token}
    (h : st.stream.Advances read n s) : st.filed ⊆ { st with stream := s }.filed := by
  intro d hd
  rcases List.mem_append.1 hd with hd | hd
  · exact List.mem_append_left _ hd
  · refine List.mem_append_right _ ?_
    show d ∈ s.reported
    rw [h.reported]
    exact List.mem_append_left _ hd

/-- What happens to the stream alone happens to the parse. -/
theorem takes_stream {s : TokenStream} {read : List Token} (h : st.stream.Advances read n s) :
    st.Takes n { st with stream := s } where
  le_length := by
    rw [ParseState.ids, List.length_map]
    exact h.le_upcoming
  ids := by rw [ParseState.ids, ParseState.ids, h.upcoming, List.map_drop]
  consumed := h.consumed
  filed := filed_subset_of_advances h
  honest := by
    refine fun hh => ⟨fun t ht d hd => ?_, fun hmiss => ?_⟩
    · rcases h.mem_buffer ht with hold | hnew
      · exact filed_subset_of_advances h (hh.looked t hold hd)
      · exact List.mem_append_right _ (hnew hd)
    · obtain ⟨d, hd, hcode⟩ := hh.missing hmiss
      exact ⟨d, filed_subset_of_advances h hd, hcode⟩

theorem stays_fill (st : ParseState) (k : Nat) : st.Stays (st.fill k) := by
  obtain ⟨read, h⟩ := st.stream.advances_fill k
  exact ⟨takes_stream h, rfl⟩

@[simp] theorem ids_fill (st : ParseState) (k : Nat) : (st.fill k).ids = st.ids :=
  (st.stays_fill k).ids_eq

@[simp] theorem next_fill (st : ParseState) (k : Nat) : (st.fill k).next = st.next :=
  (st.stays_fill k).next

@[simp] theorem consumed_fill (st : ParseState) (k : Nat) : (st.fill k).consumed = st.consumed :=
  (st.stays_fill k).consumed_eq

@[simp] theorem atDamage_fill (st : ParseState) (k : Nat) : (st.fill k).atDamage = st.atDamage :=
  (st.stays_fill k).atDamage

theorem id_ahead_fill (st : ParseState) (k : Nat) :
    ((st.fill k).stream.ahead k).id = st.ids[k]?.getD .eof := by
  rw [fill, TokenStream.ahead_fill, ids, List.getElem?_map]
  cases st.stream.upcoming[k]? <;> rfl

theorem id_current_fill (st : ParseState) : (st.fill 0).current.id = st.next := by
  rw [current, id_ahead_fill, next, List.headD_eq_head?_getD, List.head?_eq_getElem?]

/-- The next token, once it has been looked at, is in the buffer. -/
theorem current_mem_buffer (h : st.next ≠ .eof) : (st.fill 0).current ∈ (st.fill 0).stream.buffer := by
  match hup : st.stream.upcoming with
  | [] => simp [next, ids, hup] at h
  | t :: ts =>
    obtain ⟨rest, hb⟩ := TokenStream.buffer_fill_zero_cons hup
    have hb' : (st.fill 0).stream.buffer = t :: rest := hb
    simp [current, TokenStream.ahead, hb']

/-! ## Nodes -/

theorem stays_pushNode (st : ParseState) (kind : NodeKind) (children : List NodeId)
    (place : Position) : st.Stays (st.pushNode kind children place).2 :=
  ⟨⟨Nat.zero_le _, rfl, rfl, fun _ h => h, fun hh => ⟨hh.looked, hh.missing⟩⟩, rfl⟩

theorem stays_pushError (st : ParseState) (tokens : List Token) (place : Position) :
    st.Stays (st.pushError tokens place).2 :=
  ⟨⟨Nat.zero_le _, rfl, rfl, fun _ h => h, fun hh => ⟨hh.looked, hh.missing⟩⟩, rfl⟩

theorem takes_takeLeaf (st : ParseState) : st.Takes (min 1 st.ids.length) st.takeLeaf.2 := by
  obtain ⟨read, h⟩ := st.stream.advances_consume
  rw [ids, List.length_map]
  have h := takes_stream h
  exact ⟨h.le_length, h.ids, h.consumed, h.filed, fun hh => ⟨(h.honest hh).looked, (h.honest hh).missing⟩⟩

/-! ## Reports -/

theorem filed_collect (st : ParseState) : st.collect.filed = st.filed := by
  simp [filed, collect, TokenStream.fst_takeDiagnostics]

theorem stays_collect (st : ParseState) : st.Stays st.collect := by
  have hids : st.collect.ids = st.ids := by
    rw [ids, ids]
    exact congrArg (List.map Token.id) st.stream.upcoming_takeDiagnostics
  refine ⟨⟨Nat.zero_le _, hids, rfl, fun d hd => ?_, fun hh => ?_⟩, rfl⟩
  · rwa [filed_collect]
  · refine ⟨fun t ht => ?_, fun hmiss => ?_⟩
    · rw [filed_collect]
      exact hh.looked t ht
    · rw [filed_collect]
      exact hh.missing hmiss

theorem mem_filed_report {st : ParseState} {d x : Diagnostic} :
    x ∈ (st.report d).filed ↔ x ∈ st.filed ∨ x = d := by
  rw [← filed_collect st]
  have hsplit : st.collect.pending.takeWhile
        (fun p => decide (p.location.start.offset ≤ d.location.start.offset))
      ++ st.collect.pending.dropWhile
        (fun p => decide (p.location.start.offset ≤ d.location.start.offset))
      = st.collect.pending := List.takeWhile_append_dropWhile
  have hmem : x ∈ st.collect.pending ↔ _ := hsplit ▸ List.mem_append
  simp only [filed, report, DiagnosticLog.toList_record, DiagnosticLog.toList_extend,
    List.mem_append, List.mem_singleton]
  rw [hmem]
  grind

theorem stays_report (st : ParseState) (d : Diagnostic) : st.Stays (st.report d) := by
  have hc := st.stays_collect
  have hfiled : st.filed ⊆ (st.report d).filed := fun x hx => mem_filed_report.2 (.inl hx)
  refine ⟨⟨Nat.zero_le _, hc.ids_eq, hc.consumed_eq, hfiled, fun hh => ?_⟩, rfl⟩
  refine ⟨fun t ht x hx => hfiled (hh.looked t ht hx), fun hmiss => ?_⟩
  obtain ⟨x, hx, hcode⟩ := hh.missing hmiss
  exact ⟨x, hfiled hx, hcode⟩

theorem mem_filed_of_report (st : ParseState) (d : Diagnostic) : d ∈ (st.report d).filed :=
  mem_filed_report.2 (.inr rfl)

/-- At the end every report is in the answer. -/
theorem allReports_eq (st : ParseState) : st.allReports = st.filed := by
  rw [← filed_collect]
  simp [allReports, filed, collect]

/-! ## Recovery -/

theorem atDamage_markDamage (st : ParseState) : st.markDamage.atDamage = true := by
  simp [atDamage, markDamage, consumed]

theorem takes_markDamage (st : ParseState) : st.Takes 0 st.markDamage :=
  ⟨Nat.zero_le _, rfl, rfl, fun _ h => h, fun hh => ⟨hh.looked, hh.missing⟩⟩

/-- At the end of the input there is nothing to put under an error node. -/
theorem absorb_of_end (h : st.next = .eof) : st.absorb = ([], st.fill 0) := by
  rw [absorb, if_pos (by rwa [id_current_fill])]

/-- Otherwise the next token is put under one. -/
theorem absorb_of_ne (h : st.next ≠ .eof) :
    st.absorb =
      let node := (st.fill 0).takeLeaf.2.pushNode .error [(st.fill 0).takeLeaf.1]
        (st.fill 0).current.position
      ([node.1], node.2.markDamage) := by
  rw [absorb, if_neg (by rwa [id_current_fill])]

theorem takes_absorb (h : st.next ≠ .eof) :
    st.Takes 1 st.absorb.2 ∧ st.absorb.2.atDamage = true := by
  rw [absorb_of_ne h]
  refine ⟨?_, atDamage_markDamage _⟩
  have hne : st.ids ≠ [] := by
    intro hnil
    exact h (by rw [next, hnil]; rfl)
  have htake := (st.fill 0).takes_takeLeaf
  have hlen : min 1 (st.fill 0).ids.length = 1 := by
    rw [ids_fill]
    have := List.length_pos_iff.2 hne
    omega
  rw [hlen] at htake
  have hnode := (st.fill 0).takeLeaf.2.stays_pushNode .error [(st.fill 0).takeLeaf.1]
    (st.fill 0).current.position
  exact ((st.stays_fill 0).takes (htake.stays hnode)).trans (takes_markDamage _)

/-- What the parts of it keep, putting a token under an error node keeps. -/
theorem absorb_keeps {I : ParseState → Prop} (hfill : ∀ {st}, I st → I (st.fill 0))
    (htake : ∀ {st}, I st → I st.takeLeaf.2)
    (hpush : ∀ {st} kind children place, I st → I (st.pushNode kind children place).2)
    (hmark : ∀ {st}, I st → I st.markDamage) (h : I st) : I st.absorb.2 := by
  by_cases hend : st.next = .eof
  · rw [absorb_of_end hend]
    exact hfill h
  · rw [absorb_of_ne hend]
    exact hmark (hpush _ _ _ (htake (hfill h)))

theorem exists_takes_absorb (st : ParseState) : ∃ n, st.Takes n st.absorb.2 := by
  by_cases h : st.next = .eof
  · rw [absorb_of_end h]
    exact ⟨0, (st.stays_fill 0).toTakes⟩
  · exact ⟨1, (takes_absorb h).1⟩

/-- The number of tokens that a skip takes. -/
def skipLength (sync : TokenSet) (st : ParseState) : Nat :=
  (st.ids.takeWhile fun id => !sync.contains id).length

theorem takes_skipTo (sync : TokenSet) (st : ParseState) :
    st.Takes (st.skipLength sync) (st.skipTo sync).2 ∧ (st.skipTo sync).2.atDamage = true := by
  refine ⟨?_, atDamage_markDamage _⟩
  obtain ⟨-, read, hadv⟩ := TokenStream.synchronize_spec sync [] st.stream
  have hlen : (st.stream.upcoming.takeWhile fun t => !sync.contains t.id).length
      = st.skipLength sync := by
    rw [skipLength, ids, List.takeWhile_map, List.length_map]
    rfl
  rw [hlen] at hadv
  exact ((takes_stream hadv).stays (stays_pushError ..)).trans (takes_markDamage _)

theorem stays_reportUnexpected (g : Grammar) (expected : TokenSet) (st : ParseState) :
    st.Stays (st.reportUnexpected g expected) := by
  rw [reportUnexpected]
  by_cases h : st.current.id = .unknown
  · rw [if_pos h]
    exact .refl st
  · rw [if_neg h]
    exact st.stays_report _

/-- Where tokens were skipped before, one token goes without a report; elsewhere a report and a
skip. -/
theorem unexpected_eq (g : Grammar) (sync expected : TokenSet) (st : ParseState) :
    st.unexpected g sync expected =
      if st.atDamage then (st.fill 0).absorb
      else
        ([(((st.fill 0).reportUnexpected g expected).skipTo sync).1],
          (((st.fill 0).reportUnexpected g expected).skipTo sync).2) := by
  rw [← atDamage_fill st 0]
  rfl

/-- The number of tokens that end up under the error node of an unexpected token. -/
def damageLength (sync : TokenSet) (st : ParseState) : Nat :=
  if st.atDamage then if st.next = .eof then 0 else 1 else st.skipLength sync

theorem takes_unexpected (g : Grammar) (sync expected : TokenSet) (st : ParseState) :
    st.Takes (st.damageLength sync) (st.unexpected g sync expected).2 ∧
      (st.unexpected g sync expected).2.atDamage = true := by
  have hfill := st.stays_fill 0
  rw [unexpected_eq, damageLength]
  by_cases hdamage : st.atDamage = true
  · rw [if_pos hdamage, if_pos hdamage]
    by_cases hend : st.next = .eof
    · rw [if_pos hend, absorb_of_end (by rwa [next_fill])]
      have hstays := hfill.trans ((st.fill 0).stays_fill 0)
      exact ⟨hstays.toTakes, hstays.atDamage.trans hdamage⟩
    · rw [if_neg hend]
      have hnext : (st.fill 0).next ≠ .eof := by rwa [next_fill]
      have habsorb := takes_absorb hnext
      exact ⟨hfill.takes habsorb.1, habsorb.2⟩
  · rw [if_neg hdamage, if_neg hdamage]
    have hreport := hfill.trans ((st.fill 0).stays_reportUnexpected g expected)
    have hskip := ((st.fill 0).reportUnexpected g expected).takes_skipTo sync
    rw [skipLength, hreport.ids_eq] at hskip
    exact ⟨hreport.takes hskip.1, hskip.2⟩

/-- The first failure at a place is on record: as a report, or as the complaint about the
unknown token. -/
theorem exists_filed_of_unexpected (g : Grammar) (sync expected : TokenSet) {st : ParseState}
    (hh : st.Honest) (hd : st.atDamage = false) :
    ∃ d ∈ (st.unexpected g sync expected).2.filed, d.code ≠ .ambiguousRule := by
  rw [unexpected_eq, hd, if_neg Bool.false_ne_true]
  have hskip := (((st.fill 0).reportUnexpected g expected).takes_skipTo sync).1
  rw [reportUnexpected] at hskip ⊢
  by_cases h : (st.fill 0).current.id = .unknown
  · rw [if_pos h] at hskip ⊢
    have hnext : st.next ≠ .eof := by
      rw [← id_current_fill, h]
      nofun
    have hbuf := current_mem_buffer hnext
    have hfiled := ((st.stays_fill 0).honest hh).looked _ hbuf
    rw [Token.complaints, if_pos h] at hfiled
    exact ⟨_, hskip.filed (hfiled (List.mem_singleton_self _)), by simp [Diagnostic.unrecognizedCharacter]⟩
  · rw [if_neg h] at hskip ⊢
    exact ⟨_, hskip.filed (mem_filed_of_report _ _), by simp [Diagnostic.unexpectedToken]⟩

/-- Reports that a rule has no productions, unless that was done before. -/
def reportMissing (g : Grammar) (r : Nat) (st : ParseState) : ParseState :=
  if st.undefined.contains r then st
  else { st.report (.undefinedRule (g.ruleName r) (.ofToken st.current)) with
    undefined := r :: st.undefined }

theorem stays_reportMissing (g : Grammar) (r : Nat) (st : ParseState) :
    st.Stays (st.reportMissing g r) ∧ (st.Honest → (st.reportMissing g r).undefined ≠ []) := by
  rw [reportMissing]
  by_cases h : st.undefined.contains r = true
  · rw [if_pos h]
    refine ⟨.refl st, fun _ hnil => ?_⟩
    rw [hnil] at h
    simp at h
  · rw [if_neg h]
    have hreport := st.stays_report (.undefinedRule (g.ruleName r) (.ofToken st.current))
    refine ⟨⟨⟨Nat.zero_le _, hreport.ids_eq, hreport.consumed_eq, hreport.filed, fun hh => ?_⟩, rfl⟩,
      fun _ => List.cons_ne_nil _ _⟩
    exact ⟨(hreport.honest hh).looked, fun _ => ⟨_, mem_filed_of_report _ _, rfl⟩⟩

theorem takes_missingRule (g : Grammar) (r : Nat) (st : ParseState) :
    st.Takes 0 (st.missingRule g r).2 ∧ (st.missingRule g r).2.atDamage = true := by
  refine ⟨?_, atDamage_markDamage _⟩
  have hreport := (st.stays_fill 0).trans ((st.fill 0).stays_reportMissing g r).1
  exact (hreport.takes (stays_pushNode ..).toTakes).trans (takes_markDamage _)

theorem exists_filed_of_missingRule {g : Grammar} {r : Nat} {st : ParseState} (hh : st.Honest) :
    ∃ d ∈ (st.missingRule g r).2.filed, d.code ≠ .ambiguousRule := by
  have hreport := (st.fill 0).stays_reportMissing g r
  have hhonest := (st.stays_fill 0).honest hh
  obtain ⟨d, hd, hcode⟩ := (hreport.1.honest hhonest).missing (hreport.2 hhonest)
  exact ⟨d, hd, by simp [hcode]⟩

/-- What is left goes under an error node, with a report unless tokens were skipped right before. -/
theorem takes_trailing (st : ParseState) :
    (∃ n, st.Takes n st.trailing.2) ∧
      (st.atDamage = false → ∃ d ∈ st.trailing.2.filed, d.code ≠ .ambiguousRule) := by
  obtain ⟨st₁, hst₁⟩ : ∃ st₁, st₁ = (if st.atDamage then st
    else st.report (.trailingInput (st.describe st.current) (.ofToken st.current))) := ⟨_, rfl⟩
  have hreport : st.Stays st₁ ∧
      (st.atDamage = false → ∃ d ∈ st₁.filed, d.code ≠ .ambiguousRule) := by
    rw [hst₁]
    by_cases h : st.atDamage = true
    · rw [if_pos h]
      exact ⟨.refl st, fun hf => absurd (h.symm.trans hf) nofun⟩
    · rw [if_neg h]
      exact ⟨st.stays_report _, fun _ => ⟨_, mem_filed_of_report _ _, by simp [Diagnostic.trailingInput]⟩⟩
  obtain ⟨-, read, hadv⟩ := TokenStream.synchronize_spec ∅ [] st₁.stream
  have htakes := (takes_stream hadv).stays (stays_pushError _
    (st₁.stream.synchronize ∅ []).1 st.current.position)
  have htrailing : st.trailing.2 = ({ st₁ with stream := (st₁.stream.synchronize ∅ []).2 }.pushError
      (st₁.stream.synchronize ∅ []).1 st.current.position).2 := by
    rw [hst₁]
    rfl
  rw [htrailing]
  refine ⟨⟨_, hreport.1.takes htakes⟩, fun hd => ?_⟩
  obtain ⟨d, hd, hcode⟩ := hreport.2 hd
  exact ⟨d, htakes.filed hd, hcode⟩

/-! ## Choice -/

/-- Do the ids begin with the guard? Behind the last id stands the end of the input. -/
def guardAhead : List TokenId → List TokenId → Bool
  | _, [] => true
  | ids, id :: guard => ids.headD .eof == id && guardAhead ids.tail guard

/-- The alternative that the ids to come call for. -/
def choose (alternatives : List Alternative) (ids : List TokenId) : Option Alternative :=
  (alternatives.find? fun a => !a.guard.isEmpty && guardAhead ids a.guard).or <|
    (candidates alternatives (ids.headD .eof)).head?.or <|
      fallback alternatives (ids.headD .eof)

section Invariant

variable {I : ParseState → Prop} {st : ParseState} (hfill : ∀ st k, I st → I (st.fill k))

include hfill

/-- What looking at tokens keeps, looking for a guard keeps. -/
theorem matchesGuard_invariant (h : I st) (k : Nat) (guard : List TokenId) :
    I (st.matchesGuard k guard).2 := by
  induction guard generalizing st k with
  | nil => exact h
  | cons id guard ih =>
    rw [matchesGuard]
    split
    · exact ih (hfill st k h) (k + 1)
    · exact hfill st k h

theorem selectGuarded_invariant (h : I st) (alternatives : List Alternative) :
    I (st.selectGuarded alternatives).2 := by
  induction alternatives generalizing st with
  | nil => exact h
  | cons a rest ih =>
    rw [selectGuarded]
    split
    · exact ih h
    · have hmatch := matchesGuard_invariant hfill h 0 a.guard
      rcases hm : st.matchesGuard 0 a.guard with ⟨_ | _, st'⟩
      · rw [hm] at hmatch
        exact ih hmatch
      · rwa [hm] at hmatch

/-- A choice looks at tokens, and reports an ambiguity at most. -/
theorem select_invariant {g : Grammar} {r : Nat}
    (hreport : ∀ st, I st → I ((st.fill 0).reportAmbiguous g r)) (h : I st)
    (alternatives : List Alternative) : I (st.select g r alternatives).2 := by
  have hguard := selectGuarded_invariant hfill h alternatives
  rw [select]
  rcases hsel : st.selectGuarded alternatives with ⟨_ | a, st'⟩
  · rw [hsel] at hguard
    dsimp only
    split
    · exact hfill st' 0 hguard
    · exact hfill st' 0 hguard
    · exact hreport st' hguard
  · rwa [hsel] at hguard

end Invariant

theorem matchesGuard_spec (st : ParseState) (k : Nat) (guard : List TokenId) :
    (st.matchesGuard k guard).1 = guardAhead (st.ids.drop k) guard ∧
      st.Stays (st.matchesGuard k guard).2 := by
  induction guard generalizing st k with
  | nil => exact ⟨rfl, .refl st⟩
  | cons id guard ih =>
    have hfill := st.stays_fill k
    have hhead : (st.ids.drop k).headD .eof = ((st.fill k).stream.ahead k).id := by
      rw [id_ahead_fill, List.headD_eq_head?_getD, List.head?_drop]
    obtain ⟨hrest, hstays⟩ := ih (st.fill k) (k + 1)
    rw [matchesGuard, guardAhead, hhead, List.tail_drop]
    by_cases h : ((st.fill k).stream.ahead k).id = id
    · rw [if_pos h, hrest, ids_fill]
      exact ⟨by simp [h], hfill.trans hstays⟩
    · rw [if_neg h]
      exact ⟨by simp [h], hfill⟩

theorem selectGuarded_spec (st : ParseState) (alternatives : List Alternative) :
    (st.selectGuarded alternatives).1
        = alternatives.find? (fun a => !a.guard.isEmpty && guardAhead st.ids a.guard) ∧
      st.Stays (st.selectGuarded alternatives).2 := by
  induction alternatives generalizing st with
  | nil => exact ⟨rfl, .refl st⟩
  | cons a rest ih =>
    rw [selectGuarded, List.find?_cons]
    by_cases h : a.guard.isEmpty = true
    · rw [if_pos h]
      simpa [h] using ih st
    · rw [if_neg h]
      obtain ⟨hmatch, hstays⟩ := st.matchesGuard_spec 0 a.guard
      rw [List.drop_zero] at hmatch
      rw [Bool.not_eq_true] at h
      match hm : st.matchesGuard 0 a.guard with
      | (true, st') =>
        rw [hm] at hmatch hstays
        rw [h, ← hmatch]
        exact ⟨rfl, hstays⟩
      | (false, st') =>
        rw [hm] at hmatch hstays
        obtain ⟨hrest, hstays'⟩ := ih st'
        rw [h, ← hmatch]
        rw [hstays.ids_eq] at hrest
        exact ⟨hrest, hstays.trans hstays'⟩

theorem stays_reportAmbiguous (g : Grammar) (r : Nat) (st : ParseState) :
    st.Stays (st.reportAmbiguous g r) := by
  rw [reportAmbiguous]
  by_cases h : st.ambiguous.contains r = true
  · rw [if_pos h]
    exact .refl st
  · rw [if_neg h]
    have hreport := st.stays_report (.ambiguousRule (g.ruleName r) (.ofToken st.current))
    exact ⟨⟨Nat.zero_le _, hreport.ids_eq, hreport.consumed_eq, hreport.filed,
      fun hh => ⟨(hreport.honest hh).looked, (hreport.honest hh).missing⟩⟩, rfl⟩

/-- Choosing takes nothing, and what is chosen is a function of the ids to come. -/
theorem select_spec (g : Grammar) (r : Nat) (alternatives : List Alternative) (st : ParseState) :
    (st.select g r alternatives).1 = choose alternatives st.ids ∧
      st.Stays (st.select g r alternatives).2 := by
  obtain ⟨hguard, hstays⟩ := st.selectGuarded_spec alternatives
  rw [select, choose, ← hguard]
  match hsel : st.selectGuarded alternatives with
  | (some a, st') =>
    rw [hsel] at hstays
    exact ⟨rfl, hstays⟩
  | (none, st') =>
    rw [hsel] at hstays
    have hfill := hstays.trans (st'.stays_fill 0)
    have hid : (st'.fill 0).current.id = st.ids.headD .eof := by
      rw [id_current_fill, hstays.next, next]
    simp only [hid, Option.none_or]
    match hc : candidates alternatives (st.ids.headD .eof) with
    | [] => exact ⟨rfl, hfill⟩
    | [a] => exact ⟨rfl, hfill⟩
    | a :: b :: rest => exact ⟨rfl, hfill.trans (stays_reportAmbiguous g r _)⟩

theorem fst_select (g : Grammar) (r : Nat) (alternatives : List Alternative) (st : ParseState) :
    (st.select g r alternatives).1 = choose alternatives st.ids :=
  (st.select_spec g r alternatives).1

theorem stays_select (g : Grammar) (r : Nat) (alternatives : List Alternative) (st : ParseState) :
    st.Stays (st.select g r alternatives).2 :=
  (st.select_spec g r alternatives).2

theorem mem_of_choose {alternatives : List Alternative} {ids : List TokenId} {a : Alternative}
    (h : choose alternatives ids = some a) : a ∈ alternatives := by
  rw [choose, Option.or_eq_some_iff, Option.or_eq_some_iff] at h
  rcases h with h | ⟨-, h | ⟨-, h⟩⟩
  · exact List.mem_of_find?_eq_some h
  · exact (List.mem_filter.1 (List.mem_of_mem_head? h)).1
  · unfold fallback at h
    rw [Option.or_eq_some_iff, Option.or_eq_some_iff] at h
    rcases h with h | ⟨-, h | ⟨-, h⟩⟩
    · exact List.mem_of_find?_eq_some h
    · exact List.mem_of_find?_eq_some h
    · split at h
      · cases h
        exact List.mem_singleton_self _
      · cases h

/-- An alternative without others is always chosen. -/
theorem choose_singleton (a : Alternative) (ids : List TokenId) : choose [a] ids = some a := by
  have hall : ∀ x, choose [a] ids = some x → x = a := fun x h => List.mem_singleton.1 (mem_of_choose h)
  cases hchoose : choose [a] ids with
  | some x => rw [hall x hchoose]
  | none =>
    rw [choose, Option.or_eq_none_iff, Option.or_eq_none_iff] at hchoose
    have hfallback := hchoose.2.2
    unfold fallback at hfallback
    rw [Option.or_eq_none_iff, Option.or_eq_none_iff] at hfallback
    exact absurd hfallback.2.2 nofun

/-! ### Without guards -/

theorem choose_of_unguarded {alternatives : List Alternative}
    (hguard : ∀ a ∈ alternatives, a.guard = []) (ids : List TokenId) :
    choose alternatives ids = (candidates alternatives (ids.headD .eof)).head?.or
      (fallback alternatives (ids.headD .eof)) := by
  have hnone : (alternatives.find? fun a => !a.guard.isEmpty && guardAhead ids a.guard) = none := by
    refine List.find?_eq_none.2 fun a ha => ?_
    rw [hguard a ha]
    exact Bool.false_ne_true
  rw [choose, hnone, Option.none_or]

/-- Without guards, an alternative that the next token begins is chosen if there is one. -/
theorem exists_choose_of_first {alternatives : List Alternative} {ids : List TokenId}
    (hguard : ∀ a ∈ alternatives, a.guard = []) {a₀ : Alternative} (ha₀ : a₀ ∈ alternatives)
    (hfirst : a₀.first.contains (ids.headD .eof) = true) :
    ∃ a, choose alternatives ids = some a ∧ a.first.contains (ids.headD .eof) = true := by
  have hmem : a₀ ∈ candidates alternatives (ids.headD .eof) := by
    refine List.mem_filter.2 ⟨ha₀, ?_⟩
    rw [hguard a₀ ha₀, hfirst]
    rfl
  rw [choose_of_unguarded hguard]
  cases hcand : candidates alternatives (ids.headD .eof) with
  | nil =>
    rw [hcand] at hmem
    cases hmem
  | cons a rest =>
    have ha : a ∈ candidates alternatives (ids.headD .eof) := hcand ▸ List.mem_cons_self
    exact ⟨a, rfl, (Bool.and_eq_true_iff.1 (List.mem_filter.1 ha).2).2⟩

theorem candidates_eq_nil {alternatives : List Alternative} {t : TokenId}
    (hnone : ∀ a ∈ alternatives, a.first.contains t = false) : candidates alternatives t = [] := by
  refine List.filter_eq_nil_iff.2 fun a ha hq => ?_
  exact absurd ((Bool.and_eq_true_iff.1 hq).2.symm.trans (hnone a ha)) nofun

theorem length_candidates_le_one {alternatives : List Alternative} {t : TokenId}
    (hnone : ∀ a ∈ alternatives, a.first.contains t = false) :
    (candidates alternatives t).length ≤ 1 := by
  rw [candidates_eq_nil hnone]
  exact Nat.zero_le 1

/-- Where the next token begins none, the first alternative that can be empty is chosen. -/
theorem choose_eq_of_find? {alternatives : List Alternative} {ids : List TokenId}
    (hguard : ∀ a ∈ alternatives, a.guard = [])
    (hnone : ∀ a ∈ alternatives, a.first.contains (ids.headD .eof) = false) {a : Alternative}
    (hfind : alternatives.find? (·.nullable) = some a) : choose alternatives ids = some a := by
  have hsame : alternatives.find? (fun a => a.guard.isEmpty && a.nullable) = some a := by
    rw [← hfind]
    refine List.find?_congr fun a ha => ?_
    rw [hguard a ha]
    rfl
  rw [choose_of_unguarded hguard, candidates_eq_nil hnone]
  unfold fallback
  rw [hsame]
  rfl

/-- Where the next token begins none, an alternative that can be empty is chosen if there is
one. -/
theorem exists_choose_of_nullable {alternatives : List Alternative} {ids : List TokenId}
    (hguard : ∀ a ∈ alternatives, a.guard = [])
    (hnone : ∀ a ∈ alternatives, a.first.contains (ids.headD .eof) = false) {a₀ : Alternative}
    (ha₀ : a₀ ∈ alternatives) (hnull : a₀.nullable = true) :
    ∃ a, choose alternatives ids = some a ∧ a.nullable = true := by
  have hfind : (alternatives.find? (·.nullable)).isSome = true :=
    List.find?_isSome.2 ⟨a₀, ha₀, hnull⟩
  obtain ⟨a, hfind⟩ := Option.isSome_iff_exists.1 hfind
  exact ⟨a, choose_eq_of_find? hguard hnone hfind,
    List.find?_some (p := fun a : Alternative => a.nullable) hfind⟩

end ParseState

end FrontEnd
