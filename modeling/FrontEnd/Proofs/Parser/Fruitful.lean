import FrontEnd.Proofs.Parser.Prediction

/-!
# A round takes nothing only after a complaint

A rule that is repeated cannot be empty, so that a round of it has something to take. As long as
nothing is reported but ambiguities, what a round has still to take is not empty before it has taken
something, and a round that is over has taken a token. This holds also where the grammar asks for
the end of the input, which is matched without being taken: a round begins before the end.

- `Fruitful`: **a round that has taken nothing has still something to take**;
- `Parser.Thriving`: a moment before anything was reported;
- `Parser.Thriving.not_stalled`: in such a moment no round ends without a token;
- `Parser.Move.thriving`: a step that reports nothing keeps this.
-/

namespace FrontEnd

/-- A round that has taken nothing has still something to take, and is not at the end of the input.
So many tokens have been taken, and this one comes next. -/
def Fruitful (g : Grammar) (taken : Nat) (next : TokenId) (form : List Part) : List Frame → Prop
  | [] => True
  | .repetition r _ before :: below =>
    before ≤ taken ∧ (before = taken → next ≠ .eof ∧ form.all g.blank = false) ∧
      Fruitful g taken next (form ++ [.many r]) below
  | frame :: below => Fruitful g taken next (form ++ frame.form below) below

namespace Fruitful

variable {g : Grammar} {taken taken' : Nat} {next next' : TokenId} {form form' : List Part}
  {frames : List Frame}

/-- As long as no token is taken, what holds of a round that has taken nothing has to be kept, with
whatever comes behind the form. -/
theorem weaken (h : Fruitful g taken next form frames) (hle : taken ≤ taken')
    (hround : taken = taken' → ∀ behind, next ≠ .eof → (form ++ behind).all g.blank = false →
      next' ≠ .eof ∧ (form' ++ behind).all g.blank = false) :
    Fruitful g taken' next' form' frames := by
  induction frames generalizing form form' with
  | nil => trivial
  | cons frame below ih =>
    have hbehind : ∀ part, taken = taken' → ∀ behind, next ≠ .eof →
        (form ++ part ++ behind).all g.blank = false →
        next' ≠ .eof ∧ (form' ++ part ++ behind).all g.blank = false := by
      intro part heq behind hnext hsome
      rw [List.append_assoc] at hsome ⊢
      exact hround heq _ hnext hsome
    cases frame with
    | repetition r follow before =>
      obtain ⟨hbefore, hsome, hrest⟩ := h
      refine ⟨Nat.le_trans hbefore hle, fun heq => ?_, ih hrest (hbehind _)⟩
      obtain ⟨hnext, hblank⟩ := hsome (Nat.le_antisymm hbefore (heq ▸ hle))
      have hkept := hround (Nat.le_antisymm hle (heq ▸ hbefore)) [] hnext
      rw [List.append_nil, List.append_nil] at hkept
      exact hkept hblank
    | rule _ _ _ | steps _ _ | operand _ _ | unary _ _ _ | binary _ _ _ =>
      exact ih h (hbehind _)

/-- The form may change into one that is empty less often. -/
theorem mono (h : Fruitful g taken next form frames)
    (hblank : form'.all g.blank = true → form.all g.blank = true) :
    Fruitful g taken next form' frames := by
  refine h.weaken (Nat.le_refl _) fun _ behind hnext hsome => ⟨hnext, ?_⟩
  rw [← Bool.not_eq_true, List.all_append, Bool.and_eq_true] at hsome ⊢
  exact fun hall => hsome ⟨hblank hall.1, hall.2⟩

/-- A token that is taken is taken in every round. -/
theorem advance (h : Fruitful g taken next form frames) (hlt : taken < taken') :
    Fruitful g taken' next' form' frames :=
  h.weaken (Nat.le_of_lt hlt) fun heq => absurd heq (Nat.ne_of_lt hlt)

/-- At the end of the input every round has taken something. -/
theorem at_end (h : Fruitful g taken .eof form frames) : Fruitful g taken .eof form' frames :=
  h.weaken (Nat.le_refl _) fun _ _ hnext => absurd rfl hnext

/-- Something takes the place of the first part. -/
theorem expand {part : Part} (h : Fruitful g taken next ([part] ++ form) frames)
    (body : List Part) (hblank : body.all g.blank = true → g.blank part = true) :
    Fruitful g taken next (body ++ form) frames := by
  refine h.mono fun hall => ?_
  rw [List.all_append, Bool.and_eq_true] at hall
  rw [List.singleton_append, List.all_cons, hblank hall.1, hall.2]
  rfl

/-- One of its alternatives takes the place of the first part. -/
theorem predict {part : Part} {body : List Part} (h : Fruitful g taken next ([part] ++ form) frames)
    (hc : g.Checked) (hbody : body ∈ g.expansions part) :
    Fruitful g taken next (body ++ form) frames :=
  h.expand body (hc.blank_of_expansion hbody)

end Fruitful

namespace Parser

/-- A moment of a parse before anything was reported but ambiguities. -/
structure Thriving (p : Parser) (m : Machine) : Prop where
  belongs : m.Belongs p.grammar
  honest : m.state.Honest
  recoveredAt : m.state.recoveredAt = none
  proceeds : m.task.Proceeds
  fruitful : Fruitful p.grammar m.state.consumed m.state.next (m.task.form m.frames) m.frames

variable {p : Parser} {m m' : Machine} {st st₁ : ParseState} {form form' : List Part}
  {frames : List Frame}

namespace Thriving

theorem stay (h : p.Thriving m) (hc : p.grammar.Checked) (hmove : p.Move m m')
    (hstays : m.state.Stays m'.state) (hproceeds : m'.task.Proceeds)
    (hfruitful : Fruitful p.grammar m.state.consumed m.state.next (m'.task.form m'.frames)
      m'.frames) : p.Thriving m' where
  belongs := hmove.belongs hc h.belongs
  honest := hstays.honest h.honest
  recoveredAt := hstays.recoveredAt.trans h.recoveredAt
  proceeds := hproceeds
  fruitful := by rwa [hstays.consumed_eq, hstays.next]

/-- A round that is over has taken a token. -/
theorem not_stalled {r before : Nat} {follow : TokenSet} {flow : Flow} {nodes : List NodeId}
    (h : p.Thriving ⟨.done flow, .repetition r follow before :: frames, nodes, st⟩) :
    st.consumed ≠ before :=
  fun heq => nomatch (h.fruitful.2.1 heq.symm).2

theorem not_clean {errors : List NodeId} {expected : TokenSet} (hh : st.Honest)
    (hr : st.recoveredAt = none) (hfill : st.Stays st₁) {st₂ st₃ : ParseState} {n : Nat}
    (hu : st₁.unexpected p.grammar p.sync expected = (errors, st₂)) (htakes : st₂.Takes n st₃) :
    ¬ st₃.Clean := fun hclean =>
  not_clean_of_unexpected (hfill.honest hh) (hfill.recoveredAt.trans hr) hu (hclean.of_takes htakes)

end Thriving

/-- A token is taken, or the end of the input is matched. -/
theorem fruitful_takeLeaf {g : Grammar} (h : Fruitful g st.consumed st.next form frames)
    (hst : st.Stays st₁) :
    Fruitful g (st₁.fill 0).takeLeaf.2.consumed (st₁.fill 0).takeLeaf.2.next form' frames := by
  have htakes := (hst.trans (st₁.stays_fill 0)).takes (st₁.fill 0).takes_takeLeaf
  rw [ParseState.ids_fill, hst.ids_eq] at htakes
  cases hids : st.ids with
  | nil =>
    have hnext : st.next = .eof := by
      rw [ParseState.next, hids]
      rfl
    have hnext' : (st₁.fill 0).takeLeaf.2.next = .eof := by
      rw [ParseState.next, htakes.ids, hids]
      rfl
    rw [hnext', htakes.consumed, hids]
    rw [hnext] at h
    exact h.at_end
  | cons id rest =>
    refine h.advance ?_
    rw [htakes.consumed, hids]
    simp

theorem blank_ctx_form {g : Grammar} {ctx : ExpressionContext} (hctx : ctx.Belongs g frames) :
    (ctx.form frames).all g.blank = true := by
  have htail : g.blank (.tail ctx.rule) = true := by simp [Grammar.blank, hctx.1]
  unfold ExpressionContext.form
  split <;> simp [htail]

theorem Enter.thriving (hc : p.grammar.Checked) {nodes : List NodeId} {follow : TokenSet}
    {flow : Flow} {s : Step} {rest : List Step}
    (h : p.Thriving ⟨.steps (s :: rest) follow flow, frames, nodes, st⟩)
    (hst : st₁ = st ∨ st₁ = st.fill 0)
    (he : p.Enter (.steps rest follow :: frames) nodes st₁ (followOf s follow) s.symbol m)
    (hmove : p.Move ⟨.steps (s :: rest) follow flow, frames, nodes, st⟩ m)
    (hclean : m.state.Clean) : p.Thriving m := by
  have hstays := stays_of_filled hst
  have hfill := hstays.trans (st₁.stays_fill 0)
  have hfruitful : Fruitful p.grammar st.consumed st.next
      ([s.symbol.part] ++ rest.map fun s => s.symbol.part) frames := h.fruitful
  generalize s.symbol = symbol at he hfruitful
  cases he with
  | token hid =>
    have htakes := hfill.takes (st₁.fill 0).takes_takeLeaf
    refine ⟨hmove.belongs hc h.belongs, htakes.honest h.honest,
      hfill.recoveredAt.trans h.recoveredAt, trivial, ?_⟩
    show Fruitful p.grammar _ _ ([] ++ Frame.form frames (.steps rest follow)) frames
    exact fruitful_takeLeaf hfruitful hstays
  | late _ hu _ =>
    exact absurd hclean (Thriving.not_clean h.honest h.recoveredAt hfill hu
      ((ParseState.stays_fill _ 0).takes (ParseState.takes_takeLeaf _)))
  | absent _ hu _ =>
    exact absurd hclean (Thriving.not_clean h.honest h.recoveredAt hfill hu
      (ParseState.stays_fill _ 0).toTakes)
  | rule | many => exact h.stay hc hmove hstays trivial hfruitful
  | opt _ =>
    refine h.stay hc hmove hfill trivial (hfruitful.expand [.rule _] fun _ => rfl)
  | skip _ =>
    exact h.stay hc hmove hfill trivial (hfruitful.expand [] fun _ => rfl)

theorem thriving_leaveOperand {ctx : ExpressionContext} {node : NodeId} {frame : Frame}
    {flow : Flow} {nodes outer : List NodeId} (hc : p.grammar.Checked)
    (h : p.Thriving ⟨.done flow, frame :: frames, nodes, st⟩)
    (hmove : p.Move ⟨.done flow, frame :: frames, nodes, st⟩
      (leaveOperand ctx flow node frames outer st₁))
    (hframe : Fruitful p.grammar st.consumed st.next [] (frame :: frames) →
      Fruitful p.grammar st.consumed st.next (ctx.form frames) frames)
    (hstays : st.Stays st₁) : p.Thriving (leaveOperand ctx flow node frames outer st₁) := by
  have hproceeds := h.proceeds
  have hfruitful := h.fruitful
  cases flow with
  | recovering => exact hproceeds.elim
  | proceeding => exact h.stay hc hmove hstays trivial (hframe hfruitful)

/-- A step before anything was reported leads to another moment like that, unless it reports
something. -/
theorem Move.thriving (hc : p.grammar.Checked) (hmove : p.Move m m') (h : p.Thriving m)
    (hclean : m'.state.Clean) : p.Thriving m' := by
  have hhonest := h.honest
  have hrecovered := h.recoveredAt
  have htask := h.belongs.task
  have hframes := h.belongs.frames
  have hproceeds := h.proceeds
  have hfruitful := h.fruitful
  cases hmove with
  | @missing r follow frames nodes st hb =>
    obtain ⟨d, hd, hcode⟩ := ParseState.exists_filed_of_missingRule (g := p.grammar) (r := r) hhonest
    exact absurd (hclean d hd) hcode
  | @express r follow frames nodes st ops hb =>
    refine h.stay hc (.express hb) (.refl _) trivial ?_
    have hbody : [Part.unary r, .tail r] ∈ p.grammar.expansions (.rule r) :=
      Grammar.mem_expansions_rule.2 (.inr ⟨ops, hb, rfl⟩)
    exact hfruitful.predict hc hbody
  | @choose r follow frames nodes st st₁ as a hb hs =>
    refine h.stay hc (.choose hb hs) (stays_select_of_eq hs) trivial ?_
    have ha := ParseState.mem_of_choose
      ((ParseState.fst_select ..).symm.trans (congrArg Prod.fst hs))
    have hbody : a.symbols.map Symbol.part ∈ p.grammar.expansions (.rule r) :=
      Grammar.mem_expansions_rule.2 (.inl ⟨as, a, hb, ha, rfl⟩)
    rw [← hc.map_symbol_steps hb ha, List.map_map] at hbody
    exact hfruitful.predict hc hbody
  | retry _ hs _ hu hs₂ _ | refuse _ hs hu hs₂ _ =>
    exact absurd hclean (Thriving.not_clean hhonest hrecovered (stays_select_of_eq hs) hu
      ((ParseState.stays_fill _ 0).trans (stays_select_of_eq hs₂)).toTakes)
  | @finish follow flow frames nodes st =>
    cases flow with
    | recovering => exact hproceeds.elim
    | proceeding => exact h.stay hc .finish (.refl _) trivial hfruitful
  | pass _ => exact hproceeds.elim
  | enter hst hcan he => exact he.thriving hc h hst (.enter hst hcan he) hclean
  | close hn =>
    refine h.stay hc (.close hn) (ParseState.stays_fill _ 0) trivial (hfruitful.mono fun _ => ?_)
    simp [Task.form, Grammar.blank]
  | @round r follow frames nodes st hn hf =>
    refine h.stay hc (.round hn hf) (ParseState.stays_fill _ 0) trivial ?_
    -- A new round has taken nothing yet, and what is repeated is not empty.
    have hsolid : ([Part.rule r].all p.grammar.blank) = false := by
      simp [Grammar.blank, htask.solid hc]
    refine ⟨Nat.le_refl _, fun _ => ⟨hn, hsolid⟩, hfruitful.mono fun _ => ?_⟩
    simp [Task.form, Grammar.blank]
  | stray _ _ _ hu | lack _ _ hu =>
    exact absurd hclean (Thriving.not_clean hhonest hrecovered (ParseState.stays_fill _ 0) hu
      (ParseState.Stays.refl _).toTakes)
  | @sign ctx frames nodes st level hop =>
    have htakes := (st.stays_fill 0).takes (st.fill 0).takes_takeLeaf
    refine ⟨(Move.sign hop).belongs hc h.belongs, htakes.honest hhonest, hrecovered, trivial, ?_⟩
    show Fruitful p.grammar _ _ ([Part.unary ctx.rule] ++ ctx.form frames) frames
    exact fruitful_takeLeaf hfruitful (.refl st)
  | @climb ctx lhs frames nodes st op hop hlevel =>
    have htakes := (st.stays_fill 0).takes (st.fill 0).takes_takeLeaf
    refine ⟨(Move.climb hop hlevel).belongs hc h.belongs, htakes.honest hhonest, hrecovered, trivial,
      ?_⟩
    show Fruitful p.grammar _ _ ([Part.unary ctx.rule] ++ ctx.form frames) frames
    exact fruitful_takeLeaf hfruitful (.refl st)
  | @operand ctx frames nodes st hop hf =>
    refine h.stay hc (.operand hop hf) (ParseState.stays_fill _ 0) trivial ?_
    have hbody : [Part.rule ctx.ops.operand] ∈ p.grammar.expansions (.unary ctx.rule) :=
      Grammar.mem_expansions_unary.2 ⟨_, htask.1, .inr rfl⟩
    exact hfruitful.predict hc hbody
  | top hop =>
    exact h.stay hc (.top hop) (ParseState.stays_fill _ 0) trivial
      (hfruitful.mono fun _ => blank_ctx_form htask)
  | wrap hnode =>
    exact h.stay hc (.wrap hnode)
      ((ParseState.stays_fill _ 0).trans (ParseState.stays_pushNode ..)) hproceeds hfruitful
  | splice hnode => exact h.stay hc (.splice hnode) (.refl _) hproceeds hfruitful
  | @resume rest follow flow frames nodes st =>
    cases flow with
    | recovering => exact hproceeds.elim
    | proceeding => exact h.stay hc .resume (.refl _) trivial hfruitful
  | stall hb => exact absurd hb h.not_stalled
  | again hb => exact h.stay hc (.again hb) (.refl _) trivial hfruitful.2.2
  | leaf => exact thriving_leaveOperand hc h .leaf id (stays_operandNode ..)
  | unary => exact thriving_leaveOperand hc h .unary id (ParseState.stays_pushNode ..)
  | binary => exact thriving_leaveOperand hc h .binary id (ParseState.stays_pushNode ..)
  | rest => exact h

/-- Before the first token nothing was reported. -/
theorem thriving_start (hc : p.grammar.Checked) (lexer : Lexer) (depth : Nat) :
    p.Thriving (p.start (.ofLexer lexer depth)) := by
  refine ⟨belongs_start hc _, honest_start .., rfl, ?_, trivial⟩
  unfold start
  dsimp only
  split <;> trivial

/-- A moment of a parse in which nothing is reported but ambiguities. -/
theorem thriving_run (hc : p.grammar.Checked) (hm : p.Thriving m) (n : Nat)
    (hclean : (p.run n m).state.Clean) : p.Thriving (p.run n m) :=
  run_invariant_of_clean (fun _ _ hmove h hclean => hmove.thriving hc h hclean) hm n hclean

end Parser

end FrontEnd
