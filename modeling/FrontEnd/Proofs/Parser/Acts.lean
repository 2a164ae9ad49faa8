import FrontEnd.Proofs.Parser.Effects
import FrontEnd.Proofs.Tree.Walks

/-!
# The single acts of a parse

What happens to a state can be taken apart further, until each act touches one thing: the stream,
the reports, or the tree. Nothing is said here about which act follows on which, so that what all
acts keep holds of every parse whatever the grammar is.

- `Parser.Act`: **the acts**: looking, remembering, reporting, taking a token, skipping tokens, and
  making a node over others;
- `Parser.Effect.acts`: an effect is a few acts;
- `Parser.Answers.acts`: and so is a whole parse.
-/

namespace FrontEnd

/-- The states differ at most in what is remembered of damage and of reports. -/
structure ParseState.Notes (st st' : ParseState) : Prop where
  stream : st'.stream = st.stream
  arena : st'.arena = st.arena
  reports : st'.reports = st.reports
  pending : st'.pending = st.pending

namespace Parser

/-- What is done at once to a state and the row of its nodes. -/
inductive Act : Workpiece → Workpiece → Prop where
  | look (k : Nat) (st : ParseState) (loose : List NodeId) : Act ⟨st, loose⟩ ⟨st.fill k, loose⟩
  | note {st st' : ParseState} (h : st.Notes st') (loose : List NodeId) : Act ⟨st, loose⟩ ⟨st', loose⟩
  /-- A report that is not the lexer's points at the next token. -/
  | report (st : ParseState) (d : Diagnostic)
    (hplace : d.location.start = (st.fill 0).current.position)
    (hcode : d.code ≠ .unrecognizedCharacter) (loose : List NodeId) :
    Act ⟨st, loose⟩ ⟨(st.fill 0).report d, loose⟩
  | take (st : ParseState) (loose : List NodeId) :
    Act ⟨st, loose⟩ ⟨(st.fill 0).takeLeaf.2, loose ++ [(st.fill 0).takeLeaf.1]⟩
  /-- The tokens before the next one of a set go under an error node. Without any it stands where
  the next token does. -/
  | skip (sync : TokenSet) (place : Position) (st : ParseState) (loose : List NodeId)
    (hplace : st.stream.Sees place) :
    Act ⟨st, loose⟩
      ⟨({ st with stream := (st.stream.synchronize sync []).2 }.pushError
        (st.stream.synchronize sync []).1 place).2, loose ++
        [({ st with stream := (st.stream.synchronize sync []).2 }.pushError
          (st.stream.synchronize sync []).1 place).1]⟩
  /-- The last nodes of the row get a parent. One without a slot for an operator stands where the
  next token does if it has no children. -/
  | wrap (kind : NodeKind) (hkind : kind.token? = none) (children : List NodeId) (place : Position)
    (st : ParseState) (before : List NodeId)
    (hplace : children = [] → kind.slot? = none → st.stream.Sees place) :
    Act ⟨st, before ++ children⟩ ⟨(st.pushNode kind children place).2,
      before ++ [(st.pushNode kind children place).1]⟩

/-- Acts one after the other. -/
def Acts : Workpiece → Workpiece → Prop := Relation.ReflTransGen Act

namespace Acts

variable {w w' w'' : Workpiece}

theorem refl (w : Workpiece) : Acts w w := Relation.ReflTransGen.refl

theorem single (h : Act w w') : Acts w w' := Relation.ReflTransGen.single h

theorem trans (h : Acts w w') (h' : Acts w' w'') : Acts w w'' := Relation.ReflTransGen.trans h h'

theorem tail (h : Acts w w') (h' : Act w' w'') : Acts w w'' := Relation.ReflTransGen.tail h h'

/-- What every act keeps, all of them keep. -/
theorem invariant {I : Workpiece → Prop} (hI : ∀ w w', Act w w' → I w → I w') (h : Acts w w')
    (hw : I w) : I w' := by
  induction h with
  | refl => exact hw
  | tail _ hact ih => exact hI _ _ hact ih

end Acts

variable {p : Parser} {w w' : Workpiece} {st : ParseState}

/-! ## Operations of a state -/

/-- A report changes neither the next token nor its place. -/
theorem sees_report (st : ParseState) (d : Diagnostic) :
    ((st.fill 0).report d).stream.Sees (st.fill 0).current.position :=
  st.stream.sees_fill.takeDiagnostics

theorem sees_reportUnexpected (g : Grammar) (expected : TokenSet) (st : ParseState) :
    ((st.fill 0).reportUnexpected g expected).stream.Sees
      ((st.fill 0).reportUnexpected g expected).current.position := by
  rw [ParseState.reportUnexpected]
  split
  · exact st.stream.sees_fill
  · exact sees_report st _

theorem sees_reportMissing (g : Grammar) (r : Nat) (st : ParseState) :
    ((st.fill 0).reportMissing g r).stream.Sees (st.fill 0).current.position := by
  rw [ParseState.reportMissing]
  split
  · exact st.stream.sees_fill
  · exact sees_report st (.undefinedRule (g.ruleName r) (.ofToken (st.fill 0).current))

theorem act_markDamage (st : ParseState) (loose : List NodeId) :
    Act ⟨st, loose⟩ ⟨st.markDamage, loose⟩ :=
  .note (by exact ⟨rfl, rfl, rfl, rfl⟩) loose

theorem acts_selectGuarded (st : ParseState) (as : List Alternative) (loose : List NodeId) :
    Acts ⟨st, loose⟩ ⟨(st.selectGuarded as).2, loose⟩ :=
  ParseState.selectGuarded_invariant (I := fun st' => Acts ⟨st, loose⟩ ⟨st', loose⟩)
    (fun st' k h => h.tail (.look k st' loose)) (.refl _) as

theorem acts_reportAmbiguous (g : Grammar) (r : Nat) (st : ParseState) (loose : List NodeId) :
    Acts ⟨st, loose⟩ ⟨(st.fill 0).reportAmbiguous g r, loose⟩ := by
  rw [ParseState.reportAmbiguous]
  split
  · exact .single (.look 0 st loose)
  · have hreport := Act.report st (.ambiguousRule (g.ruleName r) (.ofToken (st.fill 0).current)) rfl
      (by simp [Diagnostic.ambiguousRule]) loose
    exact (Acts.single hreport).tail (.note (by exact ⟨rfl, rfl, rfl, rfl⟩) loose)

theorem acts_select (g : Grammar) (r : Nat) (as : List Alternative) (st : ParseState)
    (loose : List NodeId) : Acts ⟨st, loose⟩ ⟨(st.select g r as).2, loose⟩ :=
  ParseState.select_invariant (I := fun st' => Acts ⟨st, loose⟩ ⟨st', loose⟩)
    (fun st' k h => h.tail (.look k st' loose))
    (fun st' h => h.trans (acts_reportAmbiguous g r st' loose)) (.refl _) as

theorem acts_absorb (st : ParseState) (loose : List NodeId) :
    Acts ⟨st, loose⟩ ⟨st.absorb.2, loose ++ st.absorb.1⟩ := by
  by_cases hend : st.next = .eof
  · rw [ParseState.absorb_of_end hend, List.append_nil]
    exact .single (.look 0 st loose)
  · rw [ParseState.absorb, if_neg (by rw [ParseState.id_current_fill]; exact hend)]
    have hwrap := (Acts.single (.take st loose)).tail (.wrap .error rfl
      [(st.fill 0).takeLeaf.1] (st.fill 0).current.position _ loose
      fun h => absurd h (List.cons_ne_nil _ _))
    exact hwrap.tail (act_markDamage _ _)

theorem acts_reportUnexpected (g : Grammar) (expected : TokenSet) (st : ParseState)
    (loose : List NodeId) :
    Acts ⟨st, loose⟩ ⟨(st.fill 0).reportUnexpected g expected, loose⟩ := by
  rw [ParseState.reportUnexpected]
  split
  · exact .single (.look 0 st loose)
  · exact .single (.report st _ rfl (by simp [Diagnostic.unexpectedToken]) loose)

theorem acts_unexpected (g : Grammar) (sync expected : TokenSet) (st : ParseState)
    (loose : List NodeId) :
    Acts ⟨st, loose⟩ ⟨(st.unexpected g sync expected).2,
      loose ++ (st.unexpected g sync expected).1⟩ := by
  rw [ParseState.unexpected_eq]
  split
  · exact (Acts.single (.look 0 st loose)).trans (acts_absorb _ _)
  · have hskip := (acts_reportUnexpected g expected st loose).tail (.skip sync
      ((st.fill 0).reportUnexpected g expected).current.position _ loose
      (sees_reportUnexpected g expected st))
    exact hskip.tail (act_markDamage _ _)

theorem acts_missingRule (g : Grammar) (r : Nat) (st : ParseState) (loose : List NodeId) :
    Acts ⟨st, loose⟩ ⟨(st.missingRule g r).2, loose ++ [(st.missingRule g r).1]⟩ := by
  have hreport : Acts ⟨st, loose⟩ ⟨(st.fill 0).reportMissing g r, loose⟩ := by
    rw [ParseState.reportMissing]
    split
    · exact .single (.look 0 st loose)
    · have hreport := Act.report st (.undefinedRule (g.ruleName r) (.ofToken (st.fill 0).current))
        rfl (by simp [Diagnostic.undefinedRule]) loose
      exact (Acts.single hreport).tail (.note (by exact ⟨rfl, rfl, rfl, rfl⟩) loose)
  have hwrap := hreport.tail (by
    simpa using Act.wrap .error rfl [] (st.fill 0).current.position
      ((st.fill 0).reportMissing g r) loose fun _ _ => sees_reportMissing g r st)
  exact hwrap.tail (act_markDamage _ _)

theorem acts_trailing (st : ParseState) (loose : List NodeId) :
    Acts ⟨st, loose⟩ ⟨(st.fill 0).trailing.2, loose ++ [(st.fill 0).trailing.1]⟩ := by
  rw [ParseState.trailing]
  by_cases hdamage : (st.fill 0).atDamage = true
  · simp only [if_pos hdamage]
    exact (Acts.single (.look 0 st loose)).tail
      (.skip ∅ (st.fill 0).current.position _ loose st.stream.sees_fill)
  · simp only [if_neg hdamage]
    have hreport := Act.report st (.trailingInput ((st.fill 0).describe (st.fill 0).current)
      (.ofToken (st.fill 0).current)) rfl (by simp [Diagnostic.trailingInput]) loose
    exact (Acts.single hreport).tail (.skip ∅ (st.fill 0).current.position _ loose (sees_report st _))

/-! ## Effects and whole parses -/

theorem token?_of_inner {kind : NodeKind} (h : kind.Inner) : kind.token? = none := by
  cases kind with
  | leaf token => cases h
  | _ => rfl

theorem Effect.acts (h : p.Effect w w') : Acts w w' := by
  cases h with
  | look st loose => exact .single (.look 0 st loose)
  | choose hb st loose => exact acts_select _ _ _ st loose
  | take loose hnext => exact .single (.take _ loose)
  | blame expected st loose => exact acts_unexpected _ _ _ st loose
  | absorb hreported loose => exact acts_absorb _ loose
  | missing r st loose => exact acts_missingRule _ r st loose
  | wrap kind hkind children place st before hplace =>
    exact .single (.wrap kind (token?_of_inner hkind) children place st before hplace)
  | trail loose hnext => exact acts_trailing _ loose

theorem Effects.acts (h : p.Effects w w') : Acts w w' :=
  h.invariant (I := Acts w) (fun _ _ heffect hacts => hacts.trans heffect.acts) (.refl w)

/-- A parse that answers is a row of acts from the first look to the end of the input. -/
theorem Answers.acts (hc : p.grammar.Checked) {lexer : Lexer} {depth : Nat} {q : Parse}
    (hq : p.Answers (.ofLexer lexer depth) q) :
    ∃ w, Acts ⟨.ofStream (.ofLexer lexer depth), []⟩ w ∧ w.state.next = .eof ∧
      q = ⟨w.state.arena.finish w.loose w.state.current.position, w.state.filed⟩ := by
  obtain ⟨w, heffects, h⟩ := hq.effects hc
  exact ⟨w, heffects.acts, h⟩

end Parser

end FrontEnd
