import FrontEnd.Proofs.Parser.Unknown
import FrontEnd.Proofs.Tree.Outlines

/-!
# Parses of texts with the same lexemes

Two states of a parse that have the same lexemes before them do the same. Where the lexemes stand
matters in one place only: a report of the parser goes behind those of the lexer that point at or
before it. As long as these are the ones about the tokens up to the next, the order of the reports
is the same as well.

- `Diagnostic.unplaced`: a report without its place;
- `ParseState.Prompt`: what the lexer has to say comes in the order of the tokens;
- `ParseState.Mirrors`: **states that differ in places, and in how many tokens were taken before**;
- `ParseState.Mirrors.report`, `ParseState.Mirrors.unexpected` and their neighbours: what one
  operation makes of two such states.
-/

namespace FrontEnd

/-! ## Reports without places -/

/-- The report without its place; how long the place is still counts. -/
def Diagnostic.unplaced (d : Diagnostic) : Diagnostic :=
  { d with location := ⟨.start, d.location.length⟩ }

/-- The end of the input without its place. -/
def Lexeme.eof : Lexeme := (Token.endOfInput .start).lexeme

/-- What a lexer reports about the lexeme, wherever it stands. -/
def Lexeme.complaints (l : Lexeme) : List Diagnostic := Token.complaints ⟨l.id, l.text, .start⟩

namespace Token

theorem map_unplaced_complaints (t : Token) :
    t.complaints.map Diagnostic.unplaced = t.lexeme.complaints := by
  unfold Lexeme.complaints complaints
  show _ = if t.id = .unknown then _ else _
  split <;> rfl

theorem map_unplaced_flatMap_complaints (ts : List Token) :
    (ts.flatMap complaints).map Diagnostic.unplaced
      = (ts.map lexeme).flatMap Lexeme.complaints := by
  rw [List.map_flatMap, List.flatMap_map]
  exact List.flatMap_congr fun t _ => t.map_unplaced_complaints

theorem length_location {t t' : Token} (h : t.lexeme = t'.lexeme) :
    (Location.ofToken t).length = (Location.ofToken t').length :=
  congrArg (fun l : Lexeme => Position.bounded l.text.utf8ByteSize) h

end Token

/-- Taking the next token of a stream gives its first lexeme. -/
theorem TokenStream.lexeme_consume (s : TokenStream) :
    s.consume.1.lexeme = (s.upcoming.map Token.lexeme).headD .eof := by
  match h : s.upcoming with
  | [] =>
    rw [consume_of_nil h]
    rfl
  | t :: ts =>
    rw [consume_of_cons h]
    rfl

namespace ParseState

/-- The lexemes to come. -/
def lexemes (st : ParseState) : List Lexeme := st.stream.upcoming.map Token.lexeme

theorem ids_eq (st : ParseState) : st.ids = st.lexemes.map Lexeme.id := by
  rw [lexemes, List.map_map]
  rfl

theorem lexeme_current (st : ParseState) :
    (st.fill 0).current.lexeme = st.lexemes.headD .eof := by
  have hcurrent : (st.fill 0).current = _ := st.stream.ahead_fill 0
  rw [hcurrent, lexemes]
  cases st.stream.upcoming <;> rfl

/-- After a report about the next token, the lexer has still to say what it has to say about the
tokens behind that one. -/
def Prompt (st : ParseState) : Prop :=
  ∀ d : Diagnostic, d.location.start = (st.fill 0).current.position →
    ((st.fill 0).report d).outstanding = st.stream.upcoming.tail.flatMap Token.complaints

theorem Prompt.fill {st : ParseState} (h : st.Prompt) : (st.fill 0).Prompt := by
  have hsame : (st.fill 0).fill 0 = st.fill 0 :=
    congrArg (fun s => { st with stream := s }) (st.stream.fill_fill 0)
  have hup : (st.fill 0).stream.upcoming = st.stream.upcoming := st.stream.upcoming_fill 0
  rwa [Prompt, hsame, hup]

/-- Tokens are taken from the stream, and nothing else happens. -/
structure Proceeds (st : ParseState) (n : Nat) (st₁ : ParseState) : Prop where
  stream : ∃ read, st.stream.Advances read n st₁.stream
  rest : st₁ = { st with stream := st₁.stream }

/-- The second state is like the first, with other places and `k` more tokens taken before. The
trees can be compared only where none were: nodes are counted from the beginning. -/
structure Mirrors (k : Nat) (st st' : ParseState) : Prop where
  table : st.stream.lexer.table = st'.stream.lexer.table
  lexemes : st.lexemes = st'.lexemes
  consumed : st'.consumed = st.consumed + k
  recoveredAt : ∀ n, st.consumed ≤ n → (st.recoveredAt = some n ↔ st'.recoveredAt = some (n + k))
  ambiguous : st.ambiguous = st'.ambiguous
  undefined : st.undefined = st'.undefined
  reports : st.reports.toList.map Diagnostic.unplaced = st'.reports.toList.map Diagnostic.unplaced
  outstanding : st.outstanding.map Diagnostic.unplaced = st'.outstanding.map Diagnostic.unplaced
  arena : k = 0 → st.arena.Alike st'.arena

/-- Two answers of an operation: mirrored states, and the same nodes where they can be compared. -/
structure Echoes {α : Type} (k : Nat) (r r' : α × ParseState) : Prop where
  fst : k = 0 → r.1 = r'.1
  snd : r.2.Mirrors k r'.2

variable {k n : Nat} {st st' st₁ st₂ st₁' : ParseState}

/-! ## One state that goes on -/

namespace Proceeds

theorem refl (st : ParseState) : st.Proceeds 0 st := ⟨⟨[], .refl _⟩, rfl⟩

theorem trans (h : st.Proceeds 0 st₁) (h' : st₁.Proceeds 0 st₂) : st.Proceeds 0 st₂ := by
  obtain ⟨read, hadv⟩ := h.stream
  obtain ⟨read', hadv'⟩ := h'.stream
  refine ⟨⟨_, hadv.trans hadv'⟩, ?_⟩
  rw [h'.rest, h.rest]

theorem fill (st : ParseState) (i : Nat) : st.Proceeds 0 (st.fill i) :=
  ⟨st.stream.advances_fill i, rfl⟩

theorem selectGuarded (st : ParseState) (as : List Alternative) :
    st.Proceeds 0 (st.selectGuarded as).2 :=
  selectGuarded_invariant (I := st.Proceeds 0) (fun st' i h => h.trans (.fill st' i)) (.refl st) as

end Proceeds

namespace Mirrors

/-! ## What mirrored states have in common -/

theorem ids (h : st.Mirrors k st') : st.ids = st'.ids := by
  rw [ids_eq, ids_eq, h.lexemes]

theorem next (h : st.Mirrors k st') : st.next = st'.next := congrArg (·.headD .eof) h.ids

theorem length_upcoming (h : st.Mirrors k st') :
    st.stream.upcoming.length = st'.stream.upcoming.length := by
  have hlength := congrArg List.length h.lexemes
  rwa [ParseState.lexemes, ParseState.lexemes, List.length_map, List.length_map] at hlength

theorem atDamage (h : st.Mirrors k st') : st.atDamage = st'.atDamage := by
  rw [ParseState.atDamage, ParseState.atDamage, Bool.eq_iff_iff, beq_iff_eq, beq_iff_eq, h.consumed]
  exact h.recoveredAt st.consumed (Nat.le_refl _)

theorem current (h : st.Mirrors k st') :
    (st.fill 0).current.lexeme = (st'.fill 0).current.lexeme := by
  rw [lexeme_current, lexeme_current, h.lexemes]

theorem names (h : st.Mirrors k st') (g : Grammar) : st.names g = st'.names g := by
  rw [ParseState.names, ParseState.names, h.table]

theorem describe (h : st.Mirrors k st') {t t' : Token} (ht : t.lexeme = t'.lexeme) :
    st.describe t = st'.describe t' := by
  obtain ⟨hid, htext⟩ := Lexeme.mk.inj ht
  unfold ParseState.describe
  rw [h.table, hid, htext]

/-! ## Looking and taking -/

theorem proceed (h : st.Mirrors k st') (hst : st.Proceeds n st₁) (hst' : st'.Proceeds n st₁') :
    st₁.Mirrors k st₁' := by
  obtain ⟨⟨read, hadv⟩, hrest⟩ := hst
  obtain ⟨⟨read', hadv'⟩, hrest'⟩ := hst'
  have hout := outstanding_of_advances hadv (by rw [hrest])
  have hout' := outstanding_of_advances hadv' (by rw [hrest'])
  rw [hrest] at hout ⊢
  rw [hrest'] at hout' ⊢
  exact {
    table := by
      show st₁.stream.lexer.table = st₁'.stream.lexer.table
      rw [hadv.table, hadv'.table, h.table]
    lexemes := by
      show st₁.stream.upcoming.map _ = st₁'.stream.upcoming.map _
      rw [hadv.upcoming, hadv'.upcoming, List.map_drop, List.map_drop]
      exact congrArg (List.drop n) h.lexemes
    consumed := by
      have hconsumed := h.consumed
      show st₁'.stream.consumed = st₁.stream.consumed + k
      rw [ParseState.consumed, ParseState.consumed] at hconsumed
      rw [hadv.consumed, hadv'.consumed, hconsumed]
      omega
    recoveredAt := by
      intro i hi
      refine h.recoveredAt i (Nat.le_trans ?_ hi)
      show st.stream.consumed ≤ st₁.stream.consumed
      rw [hadv.consumed]
      exact Nat.le_add_right ..
    ambiguous := h.ambiguous
    undefined := h.undefined
    reports := h.reports
    outstanding := by rw [hout, hout', h.outstanding]
    arena := h.arena }

theorem fill (h : st.Mirrors k st') (i : Nat) : (st.fill i).Mirrors k (st'.fill i) :=
  h.proceed (.fill st i) (.fill st' i)

theorem selectGuarded (h : st.Mirrors k st') (as : List Alternative) :
    (st.selectGuarded as).2.Mirrors k (st'.selectGuarded as).2 :=
  h.proceed (.selectGuarded st as) (.selectGuarded st' as)

theorem markDamage (h : st.Mirrors k st') : st.markDamage.Mirrors k st'.markDamage :=
  { h with
    recoveredAt := by
      intro n _
      rw [ParseState.markDamage, ParseState.markDamage, h.consumed, Option.some.injEq,
        Option.some.injEq, Nat.add_right_cancel_iff] }

/-! ## Nodes -/

theorem pushNode (h : st.Mirrors k st') (kind : NodeKind) {children children' : List NodeId}
    (hchildren : k = 0 → children = children') (place place' : Position) :
    Echoes k (st.pushNode kind children place) (st'.pushNode kind children' place') where
  fst := fun hk => (h.arena hk).nextId
  snd := { h with
    arena := fun hk => hchildren hk ▸ (h.arena hk).pushNode kind children place place' }

theorem pushError (h : st.Mirrors k st') {tokens tokens' : List Token}
    (htokens : tokens.map Token.lexeme = tokens'.map Token.lexeme) (place place' : Position) :
    Echoes k (st.pushError tokens place) (st'.pushError tokens' place') := by
  have hlength : tokens.length = tokens'.length := by
    simpa using congrArg List.length htokens
  have hleaves : Mirrors k { st with arena := tokens.foldl Arena.pushLeaf st.arena }
      { st' with arena := tokens'.foldl Arena.pushLeaf st'.arena } :=
    { h with arena := fun hk => (h.arena hk).pushLeaves htokens }
  refine hleaves.pushNode .error (fun hk => ?_) place place'
  rw [(h.arena hk).nextId, hlength]

theorem takeLeaf (h : st.Mirrors k st') : Echoes k st.takeLeaf st'.takeLeaf := by
  obtain ⟨read, hadv⟩ := st.stream.advances_consume
  obtain ⟨read', hadv'⟩ := st'.stream.advances_consume
  rw [← h.length_upcoming] at hadv'
  have hstream : Mirrors k { st with stream := st.stream.consume.2 }
      { st' with stream := st'.stream.consume.2 } :=
    h.proceed ⟨⟨read, hadv⟩, rfl⟩ ⟨⟨read', hadv'⟩, rfl⟩
  have hlexeme : st.stream.consume.1.lexeme = st'.stream.consume.1.lexeme := by
    rw [TokenStream.lexeme_consume, TokenStream.lexeme_consume]
    exact congrArg (·.headD .eof) h.lexemes
  exact ⟨fun hk => (h.arena hk).nextId,
    { hstream with arena := fun hk => (h.arena hk).pushLeaf hlexeme }⟩

/-- Skipping stops at the same lexeme. -/
theorem skip (h : st.Mirrors k st') (sync : TokenSet) (place place' : Position) :
    Echoes k
      ({ st with stream := (st.stream.synchronize sync []).2 }.pushError
        (st.stream.synchronize sync []).1 place)
      ({ st' with stream := (st'.stream.synchronize sync []).2 }.pushError
        (st'.stream.synchronize sync []).1 place') := by
  obtain ⟨htaken, read, hadv⟩ := TokenStream.synchronize_spec sync [] st.stream
  obtain ⟨htaken', read', hadv'⟩ := TokenStream.synchronize_spec sync [] st'.stream
  have hlexemes : (st.stream.upcoming.takeWhile fun t => !sync.contains t.id).map Token.lexeme
      = (st'.stream.upcoming.takeWhile fun t => !sync.contains t.id).map Token.lexeme := by
    have hboth := congrArg (List.takeWhile fun l : Lexeme => !sync.contains l.id) h.lexemes
    rwa [ParseState.lexemes, ParseState.lexemes, List.takeWhile_map, List.takeWhile_map] at hboth
  have hlength := congrArg List.length hlexemes
  rw [List.length_map, List.length_map] at hlength
  rw [← hlength] at hadv'
  have hstream : Mirrors k { st with stream := (st.stream.synchronize sync []).2 }
      { st' with stream := (st'.stream.synchronize sync []).2 } :=
    h.proceed ⟨⟨read, hadv⟩, rfl⟩ ⟨⟨read', hadv'⟩, rfl⟩
  exact hstream.pushError (by rw [htaken, htaken']; exact hlexemes) place place'

theorem skipTo (h : st.Mirrors k st') (sync : TokenSet) :
    Echoes k (st.skipTo sync) (st'.skipTo sync) := by
  have hskip := h.skip sync st.current.position st'.current.position
  exact ⟨hskip.fst, hskip.snd.markDamage⟩

theorem absorb (h : st.Mirrors k st') : Echoes k st.absorb st'.absorb := by
  by_cases hend : st.next = .eof
  · rw [absorb_of_end hend, absorb_of_end (h.next ▸ hend)]
    exact ⟨fun _ => rfl, h.fill 0⟩
  · rw [absorb_of_ne hend, absorb_of_ne (h.next ▸ hend)]
    have htake := (h.fill 0).takeLeaf
    have hnode := htake.snd.pushNode .error (fun hk => congrArg (fun i => [i]) (htake.fst hk))
      (st.fill 0).current.position (st'.fill 0).current.position
    exact ⟨fun hk => congrArg (fun i => [i]) (hnode.fst hk), hnode.snd.markDamage⟩

/-! ## Reports -/

/-- A report goes to the same place among those of the lexer. -/
theorem report (h : st.Mirrors k st') (d d' : Diagnostic) (hd : d.unplaced = d'.unplaced)
    (hprompt : st.Prompt) (hprompt' : st'.Prompt)
    (hplace : d.location.start = (st.fill 0).current.position)
    (hplace' : d'.location.start = (st'.fill 0).current.position) :
    ((st.fill 0).report d).Mirrors k ((st'.fill 0).report d') := by
  have hlater : ((st.fill 0).report d).outstanding.map Diagnostic.unplaced
      = ((st'.fill 0).report d').outstanding.map Diagnostic.unplaced := by
    rw [hprompt d hplace, hprompt' d' hplace', Token.map_unplaced_flatMap_complaints,
      Token.map_unplaced_flatMap_complaints, List.map_tail, List.map_tail]
    exact congrArg (fun ls => ls.tail.flatMap Lexeme.complaints) h.lexemes
  have hall := (h.fill 0).outstanding
  rw [← due_append_outstanding (st.fill 0) d, ← due_append_outstanding (st'.fill 0) d',
    List.map_append, List.map_append, hlater] at hall
  have hdue := List.append_cancel_right hall
  have hlexemes : ∀ (s : ParseState) (x : Diagnostic),
      ((s.fill 0).report x).lexemes = (s.fill 0).lexemes := fun s x => by
    rw [ParseState.lexemes, Parser.upcoming_report]
    rfl
  exact { h.fill 0 with
    lexemes := by rw [hlexemes, hlexemes, (h.fill 0).lexemes]
    reports := by
      rw [reports_report, reports_report]
      simp only [List.map_append, (h.fill 0).reports, hdue, List.map_cons, List.map_nil, hd]
    outstanding := hlater }

theorem unexpected (h : st.Mirrors k st') (g : Grammar) (sync expected : TokenSet)
    (hprompt : st.atDamage = false → st.Prompt) (hprompt' : st'.atDamage = false → st'.Prompt) :
    Echoes k (st.unexpected g sync expected) (st'.unexpected g sync expected) := by
  rw [unexpected_eq, unexpected_eq, ← h.atDamage]
  cases hdamage : st.atDamage with
  | true => exact (h.fill 0).absorb
  | false =>
    have hreport : ((st.fill 0).reportUnexpected g expected).Mirrors k
        ((st'.fill 0).reportUnexpected g expected) := by
      have hid : (st.fill 0).current.id = (st'.fill 0).current.id := congrArg Lexeme.id h.current
      rw [reportUnexpected, reportUnexpected, ← hid]
      split
      · exact h.fill 0
      · refine h.report _ _ ?_ (hprompt hdamage) (hprompt' (h.atDamage ▸ hdamage)) rfl rfl
        rw [(h.fill 0).names, (h.fill 0).describe h.current]
        simp only [Diagnostic.unplaced, Diagnostic.unexpectedToken, Token.length_location h.current]
    have hskip := hreport.skipTo sync
    exact ⟨fun hk => congrArg (fun i => [i]) (hskip.fst hk), hskip.snd⟩

theorem missingRule (h : st.Mirrors k st') (g : Grammar) (r : Nat) (hprompt : st.Prompt)
    (hprompt' : st'.Prompt) : Echoes k (st.missingRule g r) (st'.missingRule g r) := by
  have hreport : ((st.fill 0).reportMissing g r).Mirrors k ((st'.fill 0).reportMissing g r) := by
    have hundefined : (st.fill 0).undefined = (st'.fill 0).undefined := h.undefined
    rw [reportMissing, reportMissing, ← hundefined]
    split
    · exact h.fill 0
    · have hfiled := h.report (.undefinedRule (g.ruleName r) (.ofToken (st.fill 0).current))
        (.undefinedRule (g.ruleName r) (.ofToken (st'.fill 0).current))
        (by simp only [Diagnostic.unplaced, Diagnostic.undefinedRule,
          Token.length_location h.current]) hprompt hprompt' rfl rfl
      exact { hfiled with undefined := by simp only [hundefined] }
  have hnode := hreport.pushNode .error (fun _ => (rfl : ([] : List NodeId) = []))
    (st.fill 0).current.position (st'.fill 0).current.position
  exact ⟨hnode.fst, hnode.snd.markDamage⟩

theorem trailing (h : st.Mirrors k st') (hprompt : st.atDamage = false → st.Prompt)
    (hprompt' : st'.atDamage = false → st'.Prompt) :
    Echoes k (st.fill 0).trailing (st'.fill 0).trailing := by
  unfold ParseState.trailing
  rw [atDamage_fill, atDamage_fill, ← h.atDamage]
  cases hdamage : st.atDamage with
  | true => exact (h.fill 0).skip ∅ _ _
  | false =>
    have hreport := h.report
      (.trailingInput ((st.fill 0).describe (st.fill 0).current)
        (.ofToken (st.fill 0).current))
      (.trailingInput ((st'.fill 0).describe (st'.fill 0).current)
        (.ofToken (st'.fill 0).current))
      (by simp only [(h.fill 0).describe h.current, Diagnostic.unplaced, Diagnostic.trailingInput,
        Token.length_location h.current])
      (hprompt hdamage) (hprompt' (h.atDamage ▸ hdamage)) rfl rfl
    exact hreport.skip ∅ _ _

/-- At the end of the input what is filed is the same. -/
theorem filed (h : st.Mirrors k st') (hend : st.stream.upcoming = []) :
    st.filed.map Diagnostic.unplaced = st'.filed.map Diagnostic.unplaced := by
  have hend' : st'.stream.upcoming = [] := by
    rw [← List.length_eq_zero_iff, ← h.length_upcoming, hend, List.length_nil]
  rw [filed_of_upcoming_nil hend, filed_of_upcoming_nil hend', List.map_append, List.map_append,
    h.reports, h.outstanding]

/-! ## Choice -/

theorem select (h : st.Mirrors k st') (g : Grammar) (r : Nat) (as : List Alternative)
    (hprompt : 1 < (candidates as st.next).length → (st.selectGuarded as).2.Prompt)
    (hprompt' : 1 < (candidates as st'.next).length → (st'.selectGuarded as).2.Prompt) :
    (st.select g r as).1 = (st'.select g r as).1 ∧
      (st.select g r as).2.Mirrors k (st'.select g r as).2 := by
  refine ⟨by rw [fst_select, fst_select, h.ids], ?_⟩
  have hguarded := h.selectGuarded as
  have hfst : (st.selectGuarded as).1 = (st'.selectGuarded as).1 := by
    rw [(st.selectGuarded_spec as).1, (st'.selectGuarded_spec as).1, h.ids]
  have hnext : (st.selectGuarded as).2.next = st.next := (st.selectGuarded_spec as).2.next
  have hnext' : (st'.selectGuarded as).2.next = st'.next := (st'.selectGuarded_spec as).2.next
  unfold ParseState.select
  rcases hs : st.selectGuarded as with ⟨a, s⟩
  rcases hs' : st'.selectGuarded as with ⟨a', s'⟩
  rw [hs] at hguarded hfst hnext hprompt
  rw [hs'] at hguarded hfst hnext' hprompt'
  cases hfst
  cases a with
  | some a => exact hguarded
  | none =>
    simp only [id_current_fill, hnext, hnext', ← h.next] at hprompt' ⊢
    -- With one candidate or none nothing is reported.
    match hc : candidates as st.next with
    | [] => exact hguarded.fill 0
    | [_] => exact hguarded.fill 0
    | _ :: _ :: _ =>
      rw [hc] at hprompt hprompt'
      have hambiguous : (s.fill 0).ambiguous = (s'.fill 0).ambiguous := hguarded.ambiguous
      simp only [reportAmbiguous, ← hambiguous]
      split
      · exact hguarded.fill 0
      · have hfiled := hguarded.report
          (.ambiguousRule (g.ruleName r) (.ofToken (s.fill 0).current))
          (.ambiguousRule (g.ruleName r) (.ofToken (s'.fill 0).current))
          (by simp only [Diagnostic.unplaced, Diagnostic.ambiguousRule,
            Token.length_location hguarded.current])
          (hprompt (by simp)) (hprompt' (by simp)) rfl rfl
        exact { hfiled with ambiguous := by simp only [hambiguous] }

end Mirrors

end ParseState

end FrontEnd
