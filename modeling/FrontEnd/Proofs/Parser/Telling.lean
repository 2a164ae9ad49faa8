import FrontEnd.Proofs.Parser.Unknown

/-!
# Reports of one kind

What the parser reports goes behind what it has reported before, with reports of the lexer between.
So the reports of a kind that is none of the lexer's are in the order in which they are made, and
they are known from the operations that make them.

- `ParseState.Told`: the reports of a kind that have been made;
- `ParseState.Told.report`: **one more report**;
- `Parser.told_finish`: what an answer tells.
-/

namespace FrontEnd

namespace ParseState

/-- The reports of the kind `f` are those in `said`. Those of the lexer, which have no place yet,
are of another kind. -/
structure Told (f : Diagnostic → Bool) (said : List Diagnostic) (st : ParseState) : Prop where
  foreign : ∀ d, d.isLexical = true → f d = false
  lexical : ∀ d ∈ st.outstanding, d.isLexical = true
  told : st.reports.toList.filter f = said

namespace Told

variable {f : Diagnostic → Bool} {said : List Diagnostic} {st st' : ParseState}
  {read : List Token} {d : Diagnostic} {n : Nat} {g : Grammar}

theorem advance (h : st.Told f said) (hstream : st.stream.Advances read n st'.stream)
    (hreports : st'.reports = st.reports) (hpending : st'.pending = st.pending) :
    st'.Told f said where
  foreign := h.foreign
  lexical := outstanding_of_advances hstream hpending ▸ h.lexical
  told := hreports ▸ h.told

theorem fill (h : st.Told f said) (k : Nat) : (st.fill k).Told f said := by
  obtain ⟨read, hadv⟩ := st.stream.advances_fill k
  exact h.advance hadv rfl rfl

theorem takeLeaf (h : st.Told f said) : st.takeLeaf.2.Told f said := by
  obtain ⟨read, hadv⟩ := st.stream.advances_consume
  exact h.advance hadv rfl rfl

theorem pushNode (h : st.Told f said) (kind : NodeKind) (children : List NodeId)
    (place : Position) : (st.pushNode kind children place).2.Told f said :=
  h.advance (.refl _) rfl rfl

theorem markDamage (h : st.Told f said) : st.markDamage.Told f said :=
  h.advance (.refl _) rfl rfl

theorem absorb (h : st.Told f said) : st.absorb.2.Told f said :=
  absorb_keeps (fun h => h.fill 0) takeLeaf (fun _ _ _ h => h.pushNode ..) markDamage h

theorem skipTo (h : st.Told f said) (sync : TokenSet) : (st.skipTo sync).2.Told f said := by
  obtain ⟨⟨read, n, hadv⟩, hreports, -⟩ := st.advances_skipTo sync
  exact h.advance hadv hreports rfl

theorem kept (f : Diagnostic → Bool) (said : List Diagnostic) :
    Parser.Kept (ParseState.Told f said) where
  fill := fun h => h.fill 0
  takeLeaf := fun h => h.takeLeaf
  pushNode := fun kind children place h => h.pushNode kind children place
  absorb := fun h => h.absorb

/-! ## Reports -/

/-- What is reported goes behind what has been reported, but for reports of the lexer. -/
theorem report (h : st.Told f said) (d : Diagnostic) :
    (st.report d).Told f (said ++ [d].filter f) where
  foreign := h.foreign
  lexical := fun x hx => h.lexical x (st.due_append_outstanding d ▸ List.mem_append_right _ hx)
  told := by
    have hdue : (st.due d).filter f = [] := by
      refine List.filter_eq_nil_iff.2 fun x hx => ?_
      have hlexical := h.lexical x (st.due_append_outstanding d ▸ List.mem_append_left _ hx)
      rw [h.foreign x hlexical]
      exact Bool.false_ne_true
    rw [reports_report, List.filter_append, List.filter_append, hdue, List.nil_append, h.told]

/-- A report of another kind. -/
theorem report_other (h : st.Told f said) (hd : f d = false) : (st.report d).Told f said := by
  have hreport := h.report d
  rwa [List.filter_cons_of_neg (ne_true_of_eq_false hd), List.filter_nil, List.append_nil]
    at hreport

theorem missingRule (h : st.Told f said) {r : Nat}
    (hr : ∀ place, f (.undefinedRule (g.ruleName r) place) = false) :
    (st.missingRule g r).2.Told f said := by
  have hreport : ((st.fill 0).reportMissing g r).Told f said := by
    rw [reportMissing]
    split
    · exact h.fill 0
    · exact ((h.fill 0).report_other (hr _)).advance (.refl _) rfl rfl
  exact (hreport.pushNode .error [] (st.fill 0).current.position).markDamage

theorem select (h : st.Told f said) {r : Nat}
    (hr : ∀ place, f (.ambiguousRule (g.ruleName r) place) = false) (as : List Alternative) :
    (st.select g r as).2.Told f said := by
  refine ParseState.select_invariant (I := ParseState.Told f said) (fun _ k h => h.fill k)
    (fun st h => ?_) h as
  rw [reportAmbiguous]
  split
  · exact h.fill 0
  · exact ((h.fill 0).report_other (hr _)).advance (.refl _) rfl rfl

/-- Where a token cannot be used, that is reported unless tokens were skipped right before or the
token stands for no rule. -/
theorem unexpected (h : st.Told f said) (sync expected : TokenSet) :
    (st.unexpected g sync expected).2.Told f (said ++
      ((if (Mismatch.mk expected st).isReported then [(Mismatch.mk expected st).report g]
        else []).filter f)) := by
  rw [unexpected_eq]
  cases hdamage : st.atDamage with
  | true =>
    have hsilent : (Mismatch.mk expected st).isReported = false := by
      rw [Mismatch.isReported, hdamage]
      rfl
    rw [if_pos rfl, hsilent]
    simpa using (h.fill 0).absorb
  | false =>
    rw [if_neg Bool.false_ne_true]
    refine skipTo ?_ sync
    rw [reportUnexpected]
    by_cases hid : (st.fill 0).current.id = .unknown
    · have hsilent : (Mismatch.mk expected st).isReported = false := by
        rw [Mismatch.isReported, Mismatch.token, hid]
        exact Bool.and_false _
      rw [if_pos hid, hsilent]
      simpa using h.fill 0
    · have hreported : (Mismatch.mk expected st).isReported = true := by
        rw [Mismatch.isReported, Mismatch.token, hdamage]
        simpa using hid
      rw [if_neg hid, hreported]
      exact (h.fill 0).report ((Mismatch.mk expected st).report g)

/-! ## Answers -/

/-- Reports of the lexer that have no place yet are of another kind. -/
theorem filter_filed (h : st.Told f said) : st.filed.filter f = said := by
  rw [filed, List.append_assoc, List.filter_append, h.told, List.filter_eq_nil_iff.2,
    List.append_nil]
  intro d hd
  rw [h.foreign d (h.lexical d (List.mem_append_left _ hd))]
  exact Bool.false_ne_true

/-- The report about what is left at the end may be of another kind too. -/
theorem trailing (h : st.Told f said) (hd : f st.leftover = false) :
    (st.trailing.2.fill 0).Told f said := by
  obtain ⟨read, n, hstream, hreports, hpending⟩ := st.trailing_continues
  have hreport : (if st.atDamage then st else st.report st.leftover).Told f said := by
    split
    · exact h
    · exact h.report_other hd
  exact hreport.advance hstream hreports hpending

end Told

/-- Before the first token nothing has been told. -/
theorem told_ofStream {f : Diagnostic → Bool} (hf : ∀ d, d.isLexical = true → f d = false)
    (table : TokenTable) (mode : TriviaMode) (text : List Char) (depth : Nat) :
    (ofStream (.ofLexer (.ofText table mode text) depth)).Told f [] where
  foreign := hf
  lexical := fun _ hd => (Token.mem_flatMap_complaints hd).2
  told := rfl

end ParseState

/-- An answer tells what has been told in the end. -/
theorem Parser.told_finish {f : Diagnostic → Bool} {said : List Diagnostic} {m : Machine}
    (h : m.state.Told f said) (hf : ∀ token place, f (.trailingInput token place) = false) :
    (finish m).diagnostics.filter f = said := by
  rw [diagnostics_finish]
  split
  · exact (h.fill 0).filter_filed
  · exact ((h.fill 0).trailing (hf ..)).filter_filed

end FrontEnd
