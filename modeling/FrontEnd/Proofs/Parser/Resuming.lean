import FrontEnd.Proofs.Parser.Follow
import FrontEnd.Proofs.Parser.Termination

/-!
# Where a parse goes on after a failure

After a failure symbols are left out until the next token can begin one. Without guards every choice
from there on is made by the next token, so the parser does not go wrong a second time before it has
taken a token: **what it goes on with can begin with the next token**. A rule without productions
begins with nothing, so that it is not met there, and marking its place does no harm.

- `Machine.Resumes`: where tokens were skipped, what is pending begins with the next token;
- `Parser.Move.resumes`: every step keeps this;
- `Parser.exists_answer_of_unguarded`: **without guards every parse has an answer, also where rules
  are missing**.
-/

namespace FrontEnd

/-- Every rule has a body. -/
def Grammar.Complete (g : Grammar) : Prop := ∀ r < g.size, g.body r ≠ .undefined

/-- No alternative has a guard. -/
def Grammar.Unguarded (g : Grammar) : Prop :=
  ∀ r as a, g.body r = .sequence as → a ∈ as → a.guard = []

/-- No place that is still to come has been marked. -/
def ParseState.MarkedBehind (st : ParseState) : Prop :=
  ∀ v, st.recoveredAt = some v → v ≤ st.consumed

/-- A repetition looks at the next token by itself. -/
def Task.Looks : Task → Prop
  | .repetition _ _ => True
  | _ => False

/-- Where tokens were skipped, what is pending begins with the next token. -/
structure Machine.Resumes (g : Grammar) (m : Machine) : Prop where
  behind : m.state.MarkedBehind
  begins : m.state.atDamage = true → m.state.next ≠ .eof → m.task.Proceeds →
    m.task.Looks ∨
      (g.formHeads (m.task.form m.frames ++ pending m.frames)).contains m.state.next = true

namespace ParseState

variable {st st' : ParseState}

theorem markedBehind_of_atDamage (h : st.atDamage = true) : st.MarkedBehind := by
  intro v hv
  rw [atDamage, hv, beq_iff_eq, Option.some.injEq] at h
  exact Nat.le_of_eq h

theorem MarkedBehind.stays (h : st.MarkedBehind) (hstays : st.Stays st') : st'.MarkedBehind := by
  intro v hv
  rw [hstays.recoveredAt] at hv
  rw [hstays.consumed_eq]
  exact h v hv

/-- Behind a token that was taken nothing has been marked yet. -/
theorem MarkedBehind.takeLeaf (h : st.MarkedBehind) (hne : st.next ≠ .eof) :
    (st.fill 0).takeLeaf.2.MarkedBehind ∧ (st.fill 0).takeLeaf.2.atDamage = false := by
  obtain ⟨htakes, -, hrecovered⟩ := Parser.takes_takeLeaf_fill rfl hne
  have hlt : ∀ v, (st.fill 0).takeLeaf.2.recoveredAt = some v →
      v < (st.fill 0).takeLeaf.2.consumed := by
    intro v hv
    rw [htakes.consumed]
    exact Nat.lt_succ_of_le (h v (hrecovered ▸ hv))
  refine ⟨fun v hv => Nat.le_of_lt (hlt v hv), ?_⟩
  rw [atDamage, beq_eq_false_iff_ne]
  intro hv
  exact Nat.lt_irrefl _ (hlt _ hv)

end ParseState

namespace Parser

variable {p : Parser} {m m' : Machine} {st st' : ParseState} {g : Grammar}

/-! ## Kinds of steps -/

/-- A step that takes nothing. -/
theorem resumes_of_stays (hbehind : st.MarkedBehind) (hstays : st.Stays m'.state)
    (h : st.atDamage = true → st.next ≠ .eof → m'.task.Proceeds →
      m'.task.Looks ∨
        (g.formHeads (m'.task.form m'.frames ++ pending m'.frames)).contains st.next = true) :
    m'.Resumes g := by
  refine ⟨hbehind.stays hstays, fun hd hne hp => ?_⟩
  rw [hstays.next] at hne ⊢
  exact h (hstays.atDamage.symm.trans hd) hne hp

/-- A step that marks the place. -/
theorem resumes_of_damage (hdamage : m'.state.atDamage = true)
    (h : m'.task.Proceeds → m'.task.Looks ∨
      (g.formHeads (m'.task.form m'.frames ++ pending m'.frames)).contains m'.state.next = true) :
    m'.Resumes g :=
  ⟨ParseState.markedBehind_of_atDamage hdamage, fun _ _ => h⟩

/-- A step that takes a token. -/
theorem resumes_of_takeLeaf (hbehind : st.MarkedBehind) (hne : st.next ≠ .eof)
    (hst : m'.state = (st.fill 0).takeLeaf.2) : m'.Resumes g := by
  obtain ⟨hbehind', hdamage⟩ := hbehind.takeLeaf hne
  rw [← hst] at hbehind' hdamage
  exact ⟨hbehind', fun hd => absurd (hdamage.symm.trans hd) Bool.false_ne_true⟩

theorem resumes_leaveOperand {ctx : ExpressionContext} {node : NodeId} {frame : Frame}
    {frames : List Frame} {flow : Flow} {nodes outer : List NodeId}
    (h : (⟨.done flow, frame :: frames, nodes, st⟩ : Machine).Resumes g)
    (hframe : frame.form frames = ctx.form frames) (hstays : st.Stays st') :
    (leaveOperand ctx flow node frames outer st').Resumes g := by
  cases flow with
  | recovering => exact resumes_of_stays h.behind hstays fun _ _ hp => hp.elim
  | proceeding =>
    refine resumes_of_stays h.behind hstays fun hd hne hp => .inr ?_
    have hheads := (h.begins hd hne hp).resolve_left not_false
    show (g.formHeads (ctx.form frames ++ pending frames)).contains st.next = true
    rwa [← hframe]

/-! ## Choice -/

/-- Without guards the alternative that is chosen begins with the next token, or is empty and what
comes behind the rule begins with it. -/
theorem heads_of_choose (hc : g.Checked) (hguard : g.Unguarded) {r : Nat} {as : List Alternative}
    {a : Alternative} (hb : g.body r = .sequence as) {ids : List TokenId}
    (hchoose : ParseState.choose as ids = some a) {form : List Part}
    (h : (g.formHeads (.rule r :: form)).contains (ids.headD .eof) = true) :
    (g.formHeads (a.symbols.map Symbol.part ++ form)).contains (ids.headD .eof) = true := by
  have ha := ParseState.mem_of_choose hchoose
  have hplain := fun a => hguard r as a hb
  rw [Grammar.contains_formHeads_append]
  -- If the token begins the rule it begins an alternative, and one that it begins is chosen. If it
  -- does not, an empty alternative is chosen for want of a better one.
  by_cases hfirst : (g.firstOf r).contains (ids.headD .eof) = true
  · left
    obtain ⟨body, hbody, hbegins⟩ := hc.exists_expansion_of_first hfirst
    obtain ⟨a₀, ha₀, rfl⟩ := (Grammar.mem_expansions_sequence hb).1 hbody
    rw [← hc.first_eq hb ha₀] at hbegins
    obtain ⟨a', hchoose', ht⟩ := ParseState.exists_choose_of_first hplain ha₀ hbegins
    rw [hchoose] at hchoose'
    cases hchoose'
    rwa [← hc.first_eq hb ha]
  · right
    obtain ⟨hblank, hform⟩ := (Grammar.contains_formHeads_cons.1 h).resolve_left hfirst
    have hnone : ∀ a ∈ as, a.first.contains (ids.headD .eof) = false :=
      fun a ha => Bool.eq_false_iff.2 fun ht => hfirst (hc.first_sequence hb ha ht)
    obtain ⟨body, hbody, hall⟩ := hc.exists_expansion_of_nullable hblank
    obtain ⟨a₀, ha₀, rfl⟩ := (Grammar.mem_expansions_sequence hb).1 hbody
    rw [← hc.nullable_eq hb ha₀] at hall
    obtain ⟨a', hchoose', hnull⟩ := ParseState.exists_choose_of_nullable hplain hnone ha₀ hall
    rw [hchoose] at hchoose'
    cases hchoose'
    exact ⟨(hc.nullable_eq hb ha).symm.trans hnull, hform⟩

/-! ## Steps -/

theorem heads_of_canStart {symbol : Symbol} {t : TokenId} (h : g.canStart symbol t = true) :
    (g.heads symbol.part).contains t = true := by
  cases symbol with
  | token id => exact TokenSet.contains_single.trans h
  | rule r | opt r | many r => exact h

theorem Enter.resumes (hend : p.grammar.Lacks .eof) {frames : List Frame} {nodes : List NodeId}
    {follow : TokenSet} {s : Step} {rest : List Step} (hremains : p.grammar.Remains (s :: rest))
    (hst : st' = st ∨ st' = st.fill 0) (hbehind : st.MarkedBehind)
    (hbegins : st.atDamage = true → st.next ≠ .eof →
      (p.grammar.formHeads (s.symbol.part :: pending (.steps rest follow :: frames))).contains
        st.next = true)
    (he : p.Enter (.steps rest follow :: frames) nodes st' (followOf s follow) s.symbol m) :
    m.Resumes p.grammar := by
  have hstays := stays_of_filled hst
  have hfill := hstays.trans (st'.stays_fill 0)
  have htoken : ∀ {id}, s.symbol = .token id → id ≠ .eof := hremains.id_ne hend
  generalize s.symbol = symbol at he hbegins htoken
  -- The token at which skipping stopped begins something that is still to come. If it does not
  -- begin a part that can be left out, it begins something behind that part.
  cases he with
  | token hid => exact resumes_of_takeLeaf (hbehind.stays hstays) (hid ▸ htoken rfl) rfl
  | @late id errors st₁ _ hu hid =>
    have hdamage := (takes_unexpected_of_eq hu).2
    exact resumes_of_takeLeaf (ParseState.markedBehind_of_atDamage hdamage) (hid ▸ htoken rfl) rfl
  | @absent id errors st₁ _ hu _ =>
    have hdamage := (takes_unexpected_of_eq hu).2
    exact resumes_of_damage ((st₁.stays_fill 0).atDamage.trans hdamage) fun hp => hp.elim
  | rule => exact resumes_of_stays hbehind hstays fun hd hne _ => .inr (hbegins hd hne)
  | many => exact resumes_of_stays hbehind hstays fun _ _ _ => .inl trivial
  | @opt r hf =>
    refine resumes_of_stays hbehind hfill fun _ _ _ => .inr ?_
    rw [hstays.next] at hf
    exact Grammar.contains_formHeads_cons.2 (.inl hf)
  | @skip r hf =>
    refine resumes_of_stays hbehind hfill fun hd hne _ => .inr ?_
    rw [hstays.next] at hf
    rcases Grammar.contains_formHeads_cons.1 (hbegins hd hne) with hheads | ⟨-, hheads⟩
    · exact absurd (hf.symm.trans hheads) Bool.false_ne_true
    · exact hheads

theorem Move.resumes (hc : p.grammar.Checked) (hend : p.grammar.Lacks .eof)
    (hguard : p.grammar.Unguarded) (hmove : p.Move m m') (hbelongs : m.Belongs p.grammar)
    (hinformed : m.Informed p.grammar) (h : m.Resumes p.grammar) : m'.Resumes p.grammar := by
  have htask := hbelongs.task
  have hframes := hbelongs.frames
  have hbehind := h.behind
  cases hmove with
  | @missing r follow frames nodes st hb =>
    exact resumes_of_damage (st.takes_missingRule p.grammar r).2 fun hp => hp.elim
  | @express r follow frames nodes st ops hb =>
    refine resumes_of_stays hbehind (.refl st) fun hd hne _ => .inr ?_
    obtain ⟨body, hbody, hheads⟩ :=
      hc.exists_expansion_of_formHeads ((h.begins hd hne trivial).resolve_left not_false)
    rcases Grammar.mem_expansions_rule.1 hbody with ⟨as, a, hb', -, -⟩ | ⟨ops', -, rfl⟩
    · rw [hb] at hb'
      cases hb'
    · exact hheads
  | @choose r follow frames nodes st st₁ as a hb hs =>
    refine resumes_of_stays hbehind (stays_select_of_eq hs) fun hd hne _ => .inr ?_
    have hchoose := (ParseState.fst_select ..).symm.trans (congrArg Prod.fst hs)
    have hheads := heads_of_choose hc hguard hb hchoose ((h.begins hd hne trivial).resolve_left not_false)
    rw [← hc.map_symbol_steps hb (ParseState.mem_of_choose hchoose), List.map_map] at hheads
    exact hheads
  | @retry r follow frames nodes errors st st₁ st₂ st₃ as a hb hs hd hu hs₂ ha =>
    have hdamage := (takes_unexpected_of_eq hu).2
    have hlast := (st₂.stays_fill 0).trans (stays_select_of_eq hs₂)
    refine resumes_of_damage (hlast.atDamage.trans hdamage) fun _ => .inr ?_
    -- A choice is tried again only when the token that is next now begins it.
    have hmem := ParseState.mem_of_choose
      ((ParseState.fst_select ..).symm.trans (congrArg Prod.fst hs₂))
    rw [hc.first_eq hb hmem, ← hc.map_symbol_steps hb hmem, List.map_map] at ha
    show (p.grammar.formHeads _).contains st₃.next = true
    rw [hlast.next]
    exact Grammar.contains_formHeads_append.2 (.inl ha)
  | @refuse r follow frames nodes errors st st₁ st₂ st₃ as a hb hs hu hs₂ _ =>
    have hdamage := (takes_unexpected_of_eq hu).2
    have hlast := (st₂.stays_fill 0).trans (stays_select_of_eq hs₂)
    exact resumes_of_damage (hlast.atDamage.trans hdamage) fun hp => hp.elim
  | @finish follow flow frames nodes st =>
    refine resumes_of_stays hbehind (.refl st) fun hd hne hp => ?_
    cases flow with
    | recovering => exact hp.elim
    | proceeding => exact .inr ((h.begins hd hne trivial).resolve_left not_false)
  | @pass s rest follow frames nodes st hcan =>
    exact resumes_of_stays hbehind (st.stays_fill 0) fun _ _ hp => hp.elim
  | @enter s rest follow flow frames nodes st st₁ m hst hcan he =>
    refine he.resumes hend htask hst hbehind fun hd hne => ?_
    cases flow with
    | recovering =>
      exact Grammar.contains_formHeads_cons.2 (.inl (heads_of_canStart (hcan rfl)))
    | proceeding => exact (h.begins hd hne trivial).resolve_left not_false
  | @close r follow frames nodes st hn =>
    refine resumes_of_stays hbehind (st.stays_fill 0) fun _ hne _ => .inr ?_
    rcases hn with hn | ⟨-, hfollow⟩
    · exact absurd hn hne
    · rcases (hinformed.task st.next).1 hfollow with hheads | ⟨heof, -⟩
      · exact hheads
      · exact absurd heof hne
  | @round r follow frames nodes st hn hf =>
    refine resumes_of_stays hbehind (st.stays_fill 0) fun _ _ _ => .inr ?_
    exact Grammar.contains_formHeads_cons.2 (.inl hf)
  | stray _ _ _ hu =>
    exact resumes_of_damage (takes_unexpected_of_eq hu).2 fun _ => .inl trivial
  | @sign ctx frames nodes st level hop =>
    have hne : st.next ≠ .eof := htask.sign_ne hend hop
    exact resumes_of_takeLeaf hbehind hne rfl
  | @operand ctx frames nodes st hop hf =>
    refine resumes_of_stays hbehind (st.stays_fill 0) fun _ _ _ => .inr ?_
    exact Grammar.contains_formHeads_cons.2 (.inl hf)
  | lack _ _ hu => exact resumes_of_damage (takes_unexpected_of_eq hu).2 fun hp => hp.elim
  | @climb ctx lhs frames nodes st op hop hlevel =>
    have hne : st.next ≠ .eof := htask.link_ne hend hop
    exact resumes_of_takeLeaf hbehind hne rfl
  | @top ctx lhs frames nodes st hop =>
    refine resumes_of_stays hbehind (st.stays_fill 0) fun hd hne _ => .inr ?_
    have hheads := (h.begins hd hne trivial).resolve_left not_false
    obtain ⟨hb, hfits⟩ := htask
    cases frames with
    | nil => exact hfits.elim
    | cons frame below =>
      cases frame with
      | unary _ _ _ | binary _ _ _ => exact hheads
      | rule r entered outer =>
        rcases Grammar.contains_formHeads_cons.1 hheads with hlink | ⟨-, hheads⟩
        · have hlinks : st.next ∈ ctx.ops.links := by
            simpa [Grammar.heads, hb] using hlink
          exact absurd hlinks (not_mem_links_of_top hfits.2 hop)
        · exact hheads
      | steps _ _ | repetition _ _ _ | operand _ _ => exact hfits.elim
  | @wrap r entered flow frames nodes outer st hnode =>
    refine resumes_of_stays hbehind ((st.stays_fill 0).trans (ParseState.stays_pushNode ..))
      fun hd hne hp => ?_
    cases flow with
    | recovering => exact hp.elim
    | proceeding => exact .inr ((h.begins hd hne trivial).resolve_left not_false)
  | @splice r entered flow frames nodes outer st hnode =>
    refine resumes_of_stays hbehind (.refl st) fun hd hne hp => ?_
    cases flow with
    | recovering => exact hp.elim
    | proceeding => exact .inr ((h.begins hd hne trivial).resolve_left not_false)
  | @resume rest follow flow frames nodes st =>
    refine resumes_of_stays hbehind (.refl st) fun hd hne hp => ?_
    cases flow with
    | recovering => exact hp.elim
    | proceeding => exact .inr ((h.begins hd hne trivial).resolve_left not_false)
  | @stall r before follow flow frames nodes st hb =>
    by_cases hne : st.next = .eof
    · refine resumes_of_stays hbehind ?_ fun _ hne' _ => absurd hne hne'
      show st.Stays st.absorb.2
      rw [ParseState.absorb_of_end hne]
      exact st.stays_fill 0
    · exact resumes_of_damage (ParseState.takes_absorb hne).2 fun _ => .inl trivial
  | again _ => exact resumes_of_stays hbehind (.refl _) fun _ _ _ => .inl trivial
  | leaf => exact resumes_leaveOperand h rfl (stays_operandNode ..)
  | unary | binary => exact resumes_leaveOperand h rfl (ParseState.stays_pushNode ..)
  | rest => exact h

/-! ## Whole parses -/

theorem resumes_start (p : Parser) (stream : TokenStream) :
    (p.start stream).Resumes p.grammar := by
  have hrecovered : (p.start stream).state.recoveredAt = none := rfl
  refine ⟨fun v hv => ?_, fun hd => ?_⟩
  · rw [hrecovered] at hv
    cases hv
  · rw [ParseState.atDamage, hrecovered] at hd
    cases hd

theorem resumes_run (hc : p.grammar.Checked) (hend : p.grammar.Lacks .eof)
    (hguard : p.grammar.Unguarded) (stream : TokenStream) (n : Nat) :
    (p.run n (p.start stream)).Resumes p.grammar := by
  have hall : (p.run n (p.start stream)).Belongs p.grammar ∧
      (p.run n (p.start stream)).Informed p.grammar ∧
        (p.run n (p.start stream)).Resumes p.grammar := by
    refine run_invariant (I := fun m => m.Belongs p.grammar ∧ m.Informed p.grammar ∧
      m.Resumes p.grammar) ?_ ?_ n
    · rintro m m' hmove ⟨hbelongs, hinformed, hresumes⟩
      exact ⟨hmove.belongs hc hbelongs, hmove.informed hbelongs hinformed,
        hmove.resumes hc hend hguard hbelongs hinformed hresumes⟩
    · exact ⟨belongs_start hc stream, informed_start p stream, resumes_start p stream⟩
  exact hall.2.2

/-- Where tokens were skipped, no rule without productions is entered. -/
theorem undamaged_of_missing (hc : g.Checked) (h : m.Resumes g) {r : Nat} {follow : TokenSet}
    (htask : m.task = .rule r follow) (hb : g.body r = .undefined) :
    m.state.atDamage = false ∨ m.state.next = .eof := by
  by_contra hno
  rw [not_or, Bool.not_eq_false] at hno
  obtain ⟨hdamage, hnext⟩ := hno
  have hheads := h.begins hdamage hnext (htask ▸ trivial)
  rw [htask] at hheads
  -- The next token would begin a production of the rule, or come behind an empty one.
  obtain ⟨body, hbody, -⟩ := hc.exists_expansion_of_formHeads (hheads.resolve_left not_false)
  rw [Grammar.expansions_rule, hb] at hbody
  cases hbody

/-- Without guards, and without the end of the input as a symbol, every parse has an answer. -/
theorem exists_answer_of_unguarded (hc : p.grammar.Checked) (hend : p.grammar.Lacks .eof)
    (hguard : p.grammar.Unguarded) (stream : TokenStream) : ∃ q, p.Answers stream q := by
  obtain ⟨rank, hrank⟩ := hc.ranked
  refine exists_answer hc hend hrank (nested_run hc hend hrank stream ?_)
  intro n r follow htask _ hb
  exact undamaged_of_missing hc (resumes_run hc hend hguard stream n) htask hb

/-- With every rule defined, and without the end of the input as a symbol, every parse has an
answer. -/
theorem exists_answer_of_complete (hc : p.grammar.Checked) (hend : p.grammar.Lacks .eof)
    (hcomplete : p.grammar.Complete) (stream : TokenStream) : ∃ q, p.Answers stream q := by
  obtain ⟨rank, hrank⟩ := hc.ranked
  refine exists_answer hc hend hrank (nested_run hc hend hrank stream ?_)
  intro n r follow _ hr hb
  exact absurd hb (hcomplete r hr)

end Parser

end FrontEnd
