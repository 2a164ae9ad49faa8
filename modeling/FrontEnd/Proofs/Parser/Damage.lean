import FrontEnd.Proofs.Parser.Leaves

/-!
# What is reported is in the tree

Error nodes are made at many places, and some of them without a report: at a place where tokens were
skipped before, for a token that the lexer has reported, or for a round that took nothing. Each of
them comes after a report. The other way round, every report except that of an ambiguity is about
something that ends up under an error node.

- `Parser.Harmless`: nothing that is wrong is met;
- `Parser.Effect.outcome`: **an effect is harmless, or it leaves an error node, and then something
  is on record**;
- `Parser.Candid`: the reports and the tree say the same;
- `Parser.hasErrors_iff_of_answers`: so they do at the end of every parse.
-/

namespace FrontEnd

namespace ParseState

variable {st st' : ParseState} {s : TokenStream} {read : List Token} {n : Nat} {d : Diagnostic}

/-- Using the stream files what the lexer complains about on the way, and nothing else. -/
theorem mem_filed_of_advances (h : st.stream.Advances read n st'.stream)
    (hreports : st'.reports = st.reports) (hpending : st'.pending = st.pending)
    (hd : d ∈ st'.filed) :
    d ∈ st.filed ∨ ∃ t ∈ st.stream.upcoming, d ∈ t.complaints := by
  rw [filed, hreports, hpending, h.reported, ← List.append_assoc] at hd
  rcases List.mem_append.1 hd with hd | hd
  · exact .inl hd
  · obtain ⟨t, ht, hd⟩ := List.mem_flatMap.1 hd
    exact .inr ⟨t, h.read_subset ht, hd⟩

/-- No more is filed than before, apart from ambiguities and characters without a rule. -/
def Spares (st st' : ParseState) : Prop :=
  ∀ d ∈ st'.filed, d ∈ st.filed ∨ d.code = .ambiguousRule ∨ d.code = .unrecognizedCharacter

theorem Spares.trans {st'' : ParseState} (h : st.Spares st') (h' : st'.Spares st'') :
    st.Spares st'' := by
  intro d hd
  rcases h' d hd with hd | hcode
  · exact h d hd
  · exact .inr hcode

theorem spares_of_advances (h : st.stream.Advances read n st'.stream)
    (hreports : st'.reports = st.reports) (hpending : st'.pending = st.pending) :
    st.Spares st' := by
  intro d hd
  rcases mem_filed_of_advances h hreports hpending hd with hd | ⟨t, -, hd⟩
  · exact .inl hd
  · unfold Token.complaints at hd
    split at hd
    · rw [List.mem_singleton.1 hd]
      exact .inr (.inr rfl)
    · cases hd

theorem spares_fill (st : ParseState) (k : Nat) : st.Spares (st.fill k) := by
  obtain ⟨read, hadv⟩ := st.stream.advances_fill k
  exact spares_of_advances hadv rfl rfl

/-- A choice makes no node and reports an ambiguity at most. -/
theorem select_same (g : Grammar) (r : Nat) (as : List Alternative) (st : ParseState) :
    (st.select g r as).2.arena = st.arena ∧ st.Spares (st.select g r as).2 := by
  refine select_invariant (I := fun st' => st'.arena = st.arena ∧ st.Spares st')
    (fun st' k h => ⟨h.1, h.2.trans (st'.spares_fill k)⟩) (fun st' h => ?_)
    ⟨rfl, fun _ hd => .inl hd⟩ as
  have hfill := h.2.trans (st'.spares_fill 0)
  rw [reportAmbiguous]
  split
  · exact ⟨h.1, hfill⟩
  · refine ⟨h.1, hfill.trans fun d hd => ?_⟩
    rcases mem_filed_report.1 hd with hd | rfl
    · exact .inl hd
    · exact .inr (.inl rfl)

/-- A token that is taken hangs on a new leaf. -/
theorem takeLeaf_same (st : ParseState) :
    ∃ t, st.takeLeaf.2.arena = st.arena.pushLeaf t ∧ st.takeLeaf.1 = st.arena.nextId ∧
      t.id = st.next ∧ st.Spares st.takeLeaf.2 := by
  obtain ⟨read, hadv⟩ := st.stream.advances_consume
  refine ⟨st.stream.consume.1, rfl, rfl, ?_, spares_of_advances hadv rfl rfl⟩
  match hup : st.stream.upcoming with
  | [] =>
    rw [TokenStream.consume_of_nil hup, next, ids, hup]
    rfl
  | t :: ts =>
    rw [TokenStream.consume_of_cons hup, next, ids, hup]
    rfl

end ParseState

/-! ## Error nodes -/

/-- The nodes of the row are there. -/
def Workpiece.Held (w : Workpiece) : Prop := ∀ id ∈ w.loose, id < w.state.arena.nodes.size

theorem Workpiece.Held.of_arena {st st' : ParseState} {loose : List NodeId}
    (h : Workpiece.Held ⟨st, loose⟩) (harena : st'.arena = st.arena) :
    Workpiece.Held ⟨st', loose⟩ := by
  intro id hid
  show id < st'.arena.nodes.size
  rw [harena]
  exact h id hid

/-- A walk over the row meets an error node. -/
def Workpiece.Damaged (w : Workpiece) : Prop := .error ∈ w.state.arena.kinds w.loose

namespace Parser

variable {p : Parser} {w w' : Workpiece} {st st' : ParseState} {loose : List NodeId}

theorem Effect.held (h : p.Effect w w') (hheld : w.Held) : w'.Held := by
  obtain ⟨taken, hgrows, -⟩ := h.acts.feeds
  exact hgrows.lt hheld

theorem Effect.damaged (h : p.Effect w w') (hheld : w.Held) (hdamaged : w.Damaged) :
    w'.Damaged := by
  obtain ⟨taken, hgrows, -⟩ := h.acts.feeds
  exact (hgrows.sublist_kinds hheld).subset hdamaged

theorem damaged_pushError (hheld : Workpiece.Held ⟨st, loose⟩) (tokens : List Token)
    (place : Position) :
    Workpiece.Damaged ⟨(st.pushError tokens place).2, loose ++ [(st.pushError tokens place).1]⟩ := by
  have hempty : st.arena.Grows loose [] st.arena loose := .refl
  have hleaves := (hempty.leaves tokens).lt hheld
  exact Arena.mem_kinds_pushNode _ .error place hleaves

theorem damaged_absorb (hheld : Workpiece.Held ⟨st, loose⟩) (hnext : st.next ≠ .eof) :
    Workpiece.Damaged ⟨st.absorb.2, loose ++ st.absorb.1⟩ := by
  rw [ParseState.absorb, if_neg (by rw [ParseState.id_current_fill]; exact hnext)]
  have hempty : st.arena.Grows loose [] st.arena loose := .refl
  have hleaf := (hempty.leaf (st.fill 0).stream.consume.1).lt hheld
  exact Arena.mem_kinds_pushNode _ .error (st.fill 0).current.position hleaf

/-! ## Effects -/

/-- Nothing that is wrong is met. -/
structure Harmless (w w' : Workpiece) : Prop where
  damaged : w.Held → w'.Damaged → w.Damaged
  spares : w.state.Spares w'.state
  recoveredAt : w'.state.recoveredAt = w.state.recoveredAt
  tokens : ∀ t ∈ w'.state.arena.tokens, t ∈ w.state.arena.tokens ∨ t.id ≠ .unknown

theorem Harmless.of_same (harena : st'.arena = st.arena) (hspares : st.Spares st')
    (hrecovered : st'.recoveredAt = st.recoveredAt) : Harmless ⟨st, loose⟩ ⟨st', loose⟩ := by
  refine ⟨fun _ hdamaged => ?_, hspares, hrecovered, fun t ht => .inl ?_⟩
  · rwa [Workpiece.Damaged, harena] at hdamaged
  · rwa [harena] at ht

theorem harmless_take (hunknown : p.grammar.Lacks .unknown) (hnext : ¬ p.grammar.Lacks st.next) :
    Harmless ⟨st, loose⟩ ⟨(st.fill 0).takeLeaf.2, loose ++ [(st.fill 0).takeLeaf.1]⟩ := by
  obtain ⟨t, harena, hid, hnextId, hspares⟩ := (st.fill 0).takeLeaf_same
  rw [ParseState.next_fill] at hnextId
  refine ⟨fun hheld hdamaged => ?_, (st.spares_fill 0).trans hspares, rfl, fun u hu => ?_⟩
  · have hheld' : ∀ id ∈ loose, id < (st.fill 0).arena.nodes.size := hheld
    rw [Workpiece.Damaged, harena, hid, Arena.kinds_append] at hdamaged
    rcases List.mem_append.1 hdamaged with hdamaged | hdamaged
    · rwa [(Arena.Extends.pushLeaf _ t).kinds hheld'] at hdamaged
    · rw [Arena.kinds_pushLeaf] at hdamaged
      simp at hdamaged
  · have htokens : (st.arena.pushLeaf t).tokens = st.arena.tokens.push t := rfl
    rw [harena] at hu
    rcases Array.mem_push.1 (htokens ▸ hu) with hu | rfl
    · exact .inl hu
    · exact .inr fun heq => hnext (hnextId.symm.trans heq ▸ hunknown)

theorem harmless_wrap {kind : NodeKind} (hkind : kind.Inner) (children : List NodeId)
    (place : Position) (before : List NodeId) :
    Harmless ⟨st, before ++ children⟩ ⟨(st.pushNode kind children place).2,
      before ++ [(st.pushNode kind children place).1]⟩ := by
  refine ⟨fun hheld hdamaged => ?_, fun d hd => .inl hd, rfl, fun t ht => .inl ht⟩
  have hbefore : ∀ id ∈ before, id < st.arena.nodes.size :=
    fun id hid => hheld id (List.mem_append_left _ hid)
  have hchildren : ∀ id ∈ children, id < st.arena.nodes.size :=
    fun id hid => hheld id (List.mem_append_right _ hid)
  have hkinds : (st.arena.pushNode kind children place).kinds (before ++ [st.arena.nextId])
      = st.arena.kinds before ++ kind :: st.arena.kinds children := by
    rw [Arena.kinds_append, (Arena.Extends.pushNode ..).kinds hbefore,
      Arena.kinds_pushNode _ _ place hchildren]
  have hdamaged' : NodeKind.error ∈ st.arena.kinds before ++ kind :: st.arena.kinds children :=
    hkinds ▸ hdamaged
  show NodeKind.error ∈ st.arena.kinds (before ++ children)
  rw [Arena.kinds_append]
  rcases List.mem_append.1 hdamaged' with h | h
  · exact List.mem_append_left _ h
  · rcases List.mem_cons.1 h with rfl | h
    · exact hkind.elim
    · exact List.mem_append_right _ h

/-- The state is honest, and was not damaged before something was reported. -/
structure Careful (st : ParseState) : Prop where
  honest : st.Honest
  recoveredAt : st.Clean → st.recoveredAt = none

theorem Careful.not_clean (h : Careful st) (hdamage : st.atDamage = true) : ¬ st.Clean := by
  intro hclean
  rw [ParseState.atDamage, h.recoveredAt hclean] at hdamage
  cases hdamage

/-- An effect is harmless, or it leaves an error node, and then something is on record. -/
theorem Effect.outcome (h : p.Effect w w') (hunknown : p.grammar.Lacks .unknown) (hheld : w.Held)
    (hcareful : Careful w.state) : Harmless w w' ∨ (w'.Damaged ∧ ¬ w'.state.Clean) := by
  -- An error node is made where tokens cannot be used; each time there is a report then, or there
  -- was one when the damage began.
  cases h with
  | look st loose => exact .inl (.of_same rfl (st.spares_fill 0) rfl)
  | @choose r as hb st loose =>
    obtain ⟨harena, hspares⟩ := st.select_same p.grammar r as
    exact .inl (.of_same harena hspares (st.stays_select p.grammar r as).recoveredAt)
  | take loose hnext => exact .inl (harmless_take hunknown hnext)
  | wrap kind hkind children place st before => exact .inl (harmless_wrap hkind children place before)
  | blame expected st loose =>
    by_cases hdamage : st.atDamage = true
    · rw [ParseState.unexpected_eq, if_pos hdamage]
      by_cases hnext : st.next = .eof
      · have hnext' : (st.fill 0).next = .eof := by rwa [ParseState.next_fill]
        rw [ParseState.absorb_of_end hnext', List.append_nil]
        exact .inl (.of_same rfl ((st.spares_fill 0).trans (ParseState.spares_fill _ 0)) rfl)
      · have hnext' : (st.fill 0).next ≠ .eof := by rwa [ParseState.next_fill]
        have htakes := (st.stays_fill 0).takes (ParseState.takes_absorb hnext').1
        exact .inr ⟨damaged_absorb hheld hnext',
          fun hclean => hcareful.not_clean hdamage (hclean.of_takes htakes)⟩
    · have hfiled := ParseState.exists_filed_of_unexpected p.grammar p.sync expected hcareful.honest
        (Bool.not_eq_true _ ▸ hdamage)
      obtain ⟨d, hd, hcode⟩ := hfiled
      refine .inr ⟨?_, fun hclean => hcode (hclean d hd)⟩
      rw [ParseState.unexpected_eq, if_neg hdamage]
      have harena : ((st.fill 0).reportUnexpected p.grammar expected).arena = st.arena := by
        rw [ParseState.reportUnexpected]
        split <;> rfl
      exact damaged_pushError (hheld.of_arena harena) _ _
  | @absorb st hreported loose =>
    obtain ⟨n, htakes⟩ := st.exists_takes_absorb
    by_cases hnext : st.next = .eof
    · rw [ParseState.absorb_of_end hnext, List.append_nil]
      exact .inl (.of_same rfl (st.spares_fill 0) rfl)
    · exact .inr ⟨damaged_absorb hheld hnext, fun hclean => hreported (hclean.of_takes htakes)⟩
  | missing r st loose =>
    obtain ⟨d, hd, hcode⟩ :=
      ParseState.exists_filed_of_missingRule (g := p.grammar) (r := r) hcareful.honest
    refine .inr ⟨?_, fun hclean => hcode (hclean d hd)⟩
    have harena : ((st.fill 0).reportMissing p.grammar r).arena = st.arena := by
      rw [ParseState.reportMissing]
      split <;> rfl
    have hheld' := hheld.of_arena harena
    rw [← List.append_nil loose] at hheld'
    exact Arena.mem_kinds_pushNode _ .error (st.fill 0).current.position hheld'
  | @trail st loose hnext =>
    obtain ⟨⟨n, htakes⟩, hreport⟩ := (st.fill 0).takes_trailing
    refine .inr ⟨?_, fun hclean => ?_⟩
    · have harena : (if (st.fill 0).atDamage then st.fill 0 else
          (st.fill 0).report (.trailingInput ((st.fill 0).describe (st.fill 0).current)
            (.ofToken (st.fill 0).current))).arena = st.arena := by
        split <;> rfl
      exact damaged_pushError (hheld.of_arena harena) _ _
    · by_cases hdamage : st.atDamage = true
      · exact hcareful.not_clean hdamage (hclean.of_takes ((st.stays_fill 0).takes htakes))
      · rw [Bool.not_eq_true, ← ParseState.atDamage_fill st 0] at hdamage
        obtain ⟨d, hd, hcode⟩ := hreport hdamage
        exact hcode (hclean d hd)

theorem Effect.takes (h : p.Effect w w') : ∃ n, w.state.Takes n w'.state := by
  cases h with
  | look st loose => exact ⟨_, (st.stays_fill 0).toTakes⟩
  | choose hb st loose => exact ⟨_, (st.stays_select _ _ _).toTakes⟩
  | take loose hnext => exact ⟨_, (ParseState.stays_fill _ 0).takes (ParseState.takes_takeLeaf _)⟩
  | blame expected st loose => exact ⟨_, (st.takes_unexpected _ _ _).1⟩
  | absorb hreported loose => exact ParseState.exists_takes_absorb _
  | missing r st loose => exact ⟨_, (st.takes_missingRule _ r).1⟩
  | wrap kind hkind children place st before => exact ⟨_, (st.stays_pushNode ..).toTakes⟩
  | @trail st loose hnext =>
    obtain ⟨n, htakes⟩ := (st.fill 0).takes_trailing.1
    exact ⟨n, (st.stays_fill 0).takes htakes⟩

/-- The reports and the tree say the same. -/
structure Candid (w : Workpiece) : Prop where
  held : w.Held
  careful : Careful w.state
  spotless : w.state.Clean → ¬ w.Damaged
  /-- What the parser reports, ambiguities apart, is shown by an error node. -/
  shown : ∀ d ∈ w.state.filed, d.code ≠ .ambiguousRule → d.code ≠ .unrecognizedCharacter → w.Damaged
  /-- So is a character without a rule. -/
  unknown : ∀ t ∈ w.state.arena.tokens, t.id = .unknown → w.Damaged

theorem Effect.candid (h : p.Effect w w') (hunknown : p.grammar.Lacks .unknown)
    (hcandid : Candid w) : Candid w' := by
  obtain ⟨hheld, hcareful, hspotless, hshown, hseen⟩ := hcandid
  obtain ⟨n, htakes⟩ := h.takes
  have hdamaged := h.damaged hheld
  rcases h.outcome hunknown hheld hcareful with hharmless | ⟨hdamaged', hdirty⟩
  · refine ⟨h.held hheld, ⟨htakes.honest hcareful.honest, fun hclean => ?_⟩, fun hclean hdamaged' =>
      hspotless (hclean.of_takes htakes) (hharmless.damaged hheld hdamaged'), ?_, ?_⟩
    · exact hharmless.recoveredAt.trans (hcareful.recoveredAt (hclean.of_takes htakes))
    · intro d hd hambiguous hlexical
      rcases hharmless.spares d hd with hd | hcode | hcode
      · exact hdamaged (hshown d hd hambiguous hlexical)
      · exact absurd hcode hambiguous
      · exact absurd hcode hlexical
    · intro t ht hid
      rcases hharmless.tokens t ht with ht | hne
      · exact hdamaged (hseen t ht hid)
      · exact absurd hid hne
  · exact ⟨h.held hheld, ⟨htakes.honest hcareful.honest, fun hclean => absurd hclean hdirty⟩,
      fun hclean => absurd hclean hdirty, fun _ _ _ _ => hdamaged', fun _ _ _ => hdamaged'⟩

/-- The lexer has reported unknown tokens only, and these are among the given ones. -/
def Sourced (tokens : List Token) (st : ParseState) : Prop :=
  ∀ d ∈ st.filed, d.code = .unrecognizedCharacter → ∃ t ∈ tokens, t.id = .unknown

theorem Sourced.advance {tokens : List Token} {read : List Token} {n : Nat} (h : Sourced tokens st)
    (hup : st.stream.upcoming ⊆ tokens) (hadv : st.stream.Advances read n st'.stream)
    (hreports : st'.reports = st.reports) (hpending : st'.pending = st.pending) :
    Sourced tokens st' := by
  intro d hd hcode
  rcases ParseState.mem_filed_of_advances hadv hreports hpending hd with hd | ⟨t, ht, hd⟩
  · exact h d hd hcode
  · refine ⟨t, hup ht, ?_⟩
    by_contra hid
    rw [Token.complaints, if_neg hid] at hd
    cases hd

theorem Act.sourced {tokens : List Token} (hact : Act w w')
    (h : w.state.stream.upcoming ⊆ tokens ∧ Sourced tokens w.state) :
    w'.state.stream.upcoming ⊆ tokens ∧ Sourced tokens w'.state := by
  obtain ⟨hup, hsourced⟩ := h
  obtain ⟨taken, -, hsuffix, -⟩ := hact.feeds
  refine ⟨fun t ht => hup (hsuffix.subset ht), ?_⟩
  -- Looking ahead files what the tokens it reads complain of, and these were to come.
  have hfill : ∀ (st : ParseState) (k : Nat), st.stream.upcoming ⊆ tokens → Sourced tokens st →
      Sourced tokens (st.fill k) := by
    intro st k hup h
    obtain ⟨read, hadv⟩ := st.stream.advances_fill k
    exact h.advance hup hadv rfl rfl
  cases hact with
  | look k st loose => exact hfill st k hup hsourced
  | @note st st' hnotes loose =>
    obtain ⟨hstream, -, hreports, hpending⟩ := hnotes
    have hfiled : st'.filed = st.filed := by
      rw [ParseState.filed, ParseState.filed, hstream, hreports, hpending]
    intro d hd
    exact hsourced d (hfiled ▸ hd)
  | report st d hplace hcode loose =>
    intro x hx hlexical
    rcases ParseState.mem_filed_report.1 hx with hx | rfl
    · exact hfill st 0 hup hsourced x hx hlexical
    · exact absurd hlexical hcode
  | take st loose =>
    obtain ⟨read, hadv⟩ := (st.fill 0).stream.advances_consume
    have hup' : (st.fill 0).stream.upcoming ⊆ tokens := by
      rw [show (st.fill 0).stream.upcoming = st.stream.upcoming from st.stream.upcoming_fill 0]
      exact hup
    exact (hfill st 0 hup hsourced).advance hup' hadv rfl rfl
  | skip sync place st loose =>
    obtain ⟨-, read, hadv⟩ := TokenStream.synchronize_spec sync [] st.stream
    exact hsourced.advance hup hadv rfl rfl
  | wrap kind hkind children place st before => exact hsourced

/-! ## Whole parses -/

/-- When no symbol and no operator is the unknown token, the tree of a parse has an error node just
when something other than an ambiguity was reported. -/
theorem hasErrors_iff_of_answers {decls : List GrammarDecl} {g : Grammar}
    (hg : Grammar.ofDecls decls = .ok g) (hunknown : g.Lacks .unknown) {sync : TokenSet}
    {table : TokenTable} {text : List Char} {depth : Nat} {q : Parse}
    (hq : Parser.Answers ⟨g, sync⟩ (.ofText table text depth) q) :
    q.tree.hasErrors = true ↔ ∃ d ∈ q.diagnostics, d.code ≠ .ambiguousRule := by
  have hc := Grammar.checked_of_ofDecls hg
  obtain ⟨w, heffects, hend, rfl⟩ := hq.effects hc
  have hstart : Candid ⟨.ofStream (.ofText table text depth), []⟩ :=
    ⟨nofun, ⟨⟨nofun, fun h => absurd rfl h⟩, fun _ => rfl⟩, fun _ => nofun, nofun, nofun⟩
  have hcandid := heffects.invariant (fun _ _ heffect h => heffect.candid hunknown h) hstart
  have hsource : (ParseState.ofStream (.ofText table text depth)).stream.upcoming
      ⊆ (Lexer.tokenize table .skip text).1.toList := by
    rw [Lexer.tokenize_toList]
    exact (TokenStream.upcoming_ofLexer (.ofText table .skip text) depth) ▸ List.Subset.refl _
  have hsourced := heffects.acts.invariant (fun _ _ hact h => hact.sourced h) ⟨hsource, nofun⟩
  rw [Arena.hasErrors_finish _ _ hcandid.held]
  constructor
  · intro hdamaged
    by_contra hnone
    refine hcandid.spotless (fun d hd => ?_) hdamaged
    by_contra hcode
    exact hnone ⟨d, hd, hcode⟩
  · rintro ⟨d, hd, hcode⟩
    by_cases hlexical : d.code = .unrecognizedCharacter
    · -- An unknown token of the text is on a leaf, since no token is lost.
      obtain ⟨t, ht, hid⟩ := hsourced.2 d hd hlexical
      rw [← heffects.acts.tokens_eq hend] at ht
      exact hcandid.unknown t (Array.mem_toList_iff.1 (List.mem_filter.1 ht).1) hid
    · exact hcandid.shown d hd hcode hlexical

/-- A text with a character that is no token, and with one name too many. -/
theorem hasErrors_iff_of_answers_sample :
    Grammar.sample.Lacks .unknown ∧
      ∃ q, Parser.Answers ⟨.sample, ∅⟩ (.ofText sampleTable ['x', '?', 'x'] 1) q ∧
        (q.tree.hasErrors = true ↔ ∃ d ∈ q.diagnostics, d.code ≠ .ambiguousRule) := by
  have hunknown : Grammar.sample.Lacks .unknown := Grammar.lacks_sample nofun
  obtain ⟨q, hanswers⟩ := exists_answer_of_complete (p := ⟨.sample, ∅⟩) Grammar.checked_sample
    (Grammar.lacks_sample nofun) Grammar.defined_sample (.ofText sampleTable ['x', '?', 'x'] 1)
  exact ⟨hunknown, q, hanswers, hasErrors_iff_of_answers Grammar.ofDecls_sample hunknown hanswers⟩

end Parser

end FrontEnd
