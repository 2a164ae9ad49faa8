import FrontEnd.Proofs.Grammar.FirstSets
import FrontEnd.Proofs.Parser.Prediction

/-!
# Rules inside rules without a token between

A rule may be entered inside another before a token is taken, and a rule that failed may have left
an error node and nothing else. How deep this goes is bounded: as long as nothing fails, each rule
begins the one around it, and ranks fall; after a failure the parser takes no token only until it
has gone back to a place where it can go on, and **from there on a failure takes a token**. So two
falling chains lie on each other, and no more.

- `Led`: every frame was pushed by something that begins the rule around it;
- `Phase`: the two chains, and the way back between them;
- `Nested`: **what holds in every moment**;
- `Parser.Move.nested`: every step keeps it;
- `Nested.active_le`: the bound.
-/

namespace FrontEnd

/-! ## Frames that remember a moment -/

/-- Was the rule of the frame entered when so many tokens had been taken? -/
def Frame.enteredAt (v : Nat) : Frame → Bool
  | .rule _ entered _ => entered == v
  | _ => false

/-- The rules on the stack that were entered when so many tokens had been taken. -/
def enteredAt (v : Nat) (frames : List Frame) : Nat := frames.countP (·.enteredAt v)

/-- The numbers that the frames remember fall towards the bottom of the stack. -/
def Marked : Nat → List Frame → Prop
  | _, [] => True
  | bound, .rule _ mark _ :: below | bound, .repetition _ _ mark :: below =>
    mark ≤ bound ∧ Marked mark below
  | bound, _ :: below => Marked bound below

/-- The rules that are being parsed and were entered when so many tokens had been taken: those on
the stack, and one that is just beginning. -/
def Machine.activeAt (m : Machine) (v : Nat) : Nat :=
  enteredAt v m.frames + match m.task with
    | .rule _ _ => if m.state.consumed = v then 1 else 0
    | _ => 0

variable {v v' bound bound' : Nat} {frame : Frame} {frames below : List Frame}

theorem enteredAt_append (v : Nat) (above below : List Frame) :
    enteredAt v (above ++ below) = enteredAt v above + enteredAt v below := List.countP_append

theorem enteredAt_cons (v : Nat) (frame : Frame) (below : List Frame) :
    enteredAt v (frame :: below) = enteredAt v below + if frame.enteredAt v then 1 else 0 :=
  List.countP_cons

theorem enteredAt_le_cons (v : Nat) (frame : Frame) (below : List Frame) :
    enteredAt v below ≤ enteredAt v (frame :: below) := by
  rw [enteredAt_cons]
  exact Nat.le_add_right _ _

theorem Marked.mono (h : Marked bound frames) (hle : bound ≤ bound') : Marked bound' frames := by
  induction frames with
  | nil => trivial
  | cons frame below ih =>
    cases frame with
    | rule _ _ _ | repetition _ _ _ => exact ⟨Nat.le_trans h.1 hle, h.2⟩
    | steps _ _ | operand _ _ | unary _ _ _ | binary _ _ _ => exact ih h

theorem Marked.tail (h : Marked bound (frame :: below)) : Marked bound below := by
  cases frame with
  | rule _ _ _ | repetition _ _ _ => exact h.2.mono h.1
  | steps _ _ | operand _ _ | unary _ _ _ | binary _ _ _ => exact h

theorem Marked.le_of_mem {r : Nat} {follow : TokenSet} {before : Nat} (h : Marked bound frames)
    (hmem : .repetition r follow before ∈ frames) : before ≤ bound := by
  induction frames with
  | nil => cases hmem
  | cons frame below ih =>
    rcases List.mem_cons.1 hmem with rfl | hmem
    · exact h.1
    · exact ih h.tail hmem

/-- No frame remembers a moment that is still to come. -/
theorem Marked.enteredAt_eq_zero (h : Marked bound frames) (hlt : bound < v) :
    enteredAt v frames = 0 := by
  induction frames generalizing bound with
  | nil => rfl
  | cons frame below ih =>
    have hbelow : enteredAt v below = 0 := ih h.tail hlt
    rw [enteredAt_cons, hbelow]
    cases frame with
    | rule r mark nodes =>
      have hne : mark ≠ v := Nat.ne_of_lt (Nat.lt_of_le_of_lt h.1 hlt)
      simp [Frame.enteredAt, hne]
    | steps _ _ | repetition _ _ _ | operand _ _ | unary _ _ _ | binary _ _ _ => rfl

/-! ## Chains -/

/-- The rules that the task can begin with, before anything is taken. -/
def Task.leads (g : Grammar) : Task → Nat → Prop
  | .rule r _ | .repetition r _ => fun s => s = r
  | .steps rest _ _ => fun s => s ∈ Analysis.leading g.nullable (rest.map Step.symbol)
  | .expression ctx => fun s => s = ctx.ops.operand
  | .climb _ _ | .done _ => fun _ => False

/-- Can the task end well without taking anything? -/
def Task.Blank (g : Grammar) : Task → Prop
  | .rule r _ => g.isNullable r = true
  | .steps rest _ _ => (rest.map Step.symbol).all (Analysis.symbolNullable g.nullable) = true
  | .expression ctx => g.isNullable ctx.ops.operand = true
  | .repetition _ _ | .climb _ _ | .done _ => True

/-- Every rule on the stack can begin with the one above. What is above the frames can begin with
the rules of `leads`, and is empty only if `blank`. A round that took nothing is not gone back to
without taking a token. -/
def Led (g : Grammar) (rank : Nat → Nat) (c : Nat) :
    (Nat → Prop) → Prop → List Frame → Prop
  | _, _, [] => True
  | leads, blank, .rule r _ _ :: below =>
    (∀ s, leads s → rank s < rank r) ∧ (blank → g.isNullable r = true) ∧
      Led g rank c (fun s => s = r) (g.isNullable r = true) below
  | leads, blank, .steps rest _ :: below =>
    Led g rank c
      (fun s => leads s ∨ blank ∧ s ∈ Analysis.leading g.nullable (rest.map Step.symbol))
      (blank ∧ (rest.map Step.symbol).all (Analysis.symbolNullable g.nullable) = true) below
  | leads, _, .repetition _ _ before :: below => before = c ∧ Led g rank c leads False below
  | leads, blank, .operand _ _ :: below | leads, blank, .unary _ _ _ :: below
  | leads, blank, .binary _ _ _ :: below => Led g rank c leads blank below

variable {g : Grammar} {rank : Nat → Nat} {c : Nat} {leads leads' : Nat → Prop}
  {blank blank' : Prop}

theorem Led.weaken (h : Led g rank c leads blank frames) (hleads : ∀ s, leads' s → leads s)
    (hblank : blank' → blank) : Led g rank c leads' blank' frames := by
  induction frames generalizing leads leads' blank blank' with
  | nil => trivial
  | cons frame below ih =>
    cases frame with
    | rule r entered nodes => exact ⟨fun s hs => h.1 s (hleads s hs), h.2.1 ∘ hblank, h.2.2⟩
    | steps rest follow =>
      exact ih h (fun s hs => hs.imp (hleads s) fun hs => ⟨hblank hs.1, hs.2⟩)
        fun hs => ⟨hblank hs.1, hs.2⟩
    | repetition r follow before => exact ⟨h.1, ih h.2 hleads id⟩
    | operand _ _ | unary _ _ _ | binary _ _ _ => exact ih h hleads hblank

/-- A rule on top of a chain has a rank below the rules of the chain. -/
theorem Led.lt_size (h : Led g rank c leads blank frames) (hframes : Belong g (frames ++ below))
    (hrank : ∀ r < g.size, rank r < g.size) {s : Nat} (hs : leads s) (hlt : s < g.size) :
    enteredAt c frames + rank s < g.size := by
  induction frames generalizing leads blank s with
  | nil => simpa [enteredAt] using hrank s hlt
  | cons frame frames ih =>
    cases frame with
    | rule r entered nodes =>
      obtain ⟨hfall, -, hrest⟩ := h
      have hr := ih hrest hframes.2 rfl hframes.1
      have hs := hfall s hs
      rw [enteredAt_cons]
      split <;> omega
    | steps rest follow => exact ih h hframes.2 (.inl hs) hlt
    | repetition r follow before => exact ih h.2 hframes.2 hs hlt
    | operand _ _ | unary _ _ _ | binary _ _ _ => exact ih h hframes.2 hs hlt

/-- A chain is no longer than there are rules. -/
theorem Led.le_size (h : Led g rank c leads blank frames) (hframes : Belong g (frames ++ below))
    (hrank : ∀ r < g.size, rank r < g.size) : enteredAt c frames ≤ g.size := by
  induction frames generalizing leads blank with
  | nil => exact Nat.zero_le _
  | cons frame frames ih =>
    cases frame with
    | rule r entered nodes =>
      have hr := h.2.2.lt_size hframes.2 hrank rfl hframes.1
      rw [enteredAt_cons]
      split <;> omega
    | steps rest follow => exact ih h hframes.2
    | repetition r follow before => exact ih h.2 hframes.2
    | operand _ _ | unary _ _ _ | binary _ _ _ => exact ih h hframes.2

/-! ## The phases of a moment -/

/-- How many rules may lie below the chain: none before a failure. -/
def slack (g : Grammar) (st : ParseState) : Nat :=
  if st.atDamage = true ∧ st.next ≠ .eof then g.size else 0

/-- A parse goes on with a chain on top of the rules that a failure has left, or is on its way
back from a failure. -/
inductive Phase (g : Grammar) (rank : Nat → Nat) (m : Machine) : Prop where
  | going (above below : List Frame) (hproceeds : m.task.Proceeds)
    (hframes : m.frames = above ++ below)
    (hled : Led g rank m.state.consumed (m.task.leads g) (m.task.Blank g) above)
    (hbelow : enteredAt m.state.consumed below ≤ slack g m.state)
  | back (hback : ¬ m.task.Proceeds) (hdamage : m.state.atDamage = true)
    (hframes : enteredAt m.state.consumed m.frames ≤ g.size)

/-- What holds in every moment. -/
structure Nested (g : Grammar) (rank : Nat → Nat) (m : Machine) : Prop where
  belongs : m.Belongs g
  marked : Marked m.state.consumed m.frames
  /-- A round begins where there is a token. -/
  rounds : ∀ r follow before, .repetition r follow before ∈ m.frames →
    before < m.state.consumed ∨ m.state.next ≠ .eof
  past : ∀ v < m.state.consumed, enteredAt v m.frames ≤ 2 * g.size
  phase : Phase g rank m

variable {m m' : Machine} {st st' : ParseState} {n : Nat}

theorem slack_le (g : Grammar) (st : ParseState) : slack g st ≤ g.size := by
  unfold slack
  split <;> omega

theorem slack_of_stays (h : st.Stays st') : slack g st' = slack g st := by
  rw [slack, slack, h.atDamage, h.next]

/-- The rules that were entered without taking a token lie in the chain or below it. -/
theorem Phase.active_le (h : Phase g rank m) (hrank : g.Ranks rank)
    (htask : m.task.Belongs g m.frames) (hframes : Belong g m.frames) :
    m.activeAt m.state.consumed ≤ g.size + slack g m.state := by
  obtain ⟨task, frames, nodes, st⟩ := m
  cases h with
  | going above below _ heq hled hbelow =>
    dsimp only at *
    subst heq
    have hle := hled.le_size hframes hrank.lt_size
    rw [Machine.activeAt, enteredAt_append]
    cases task with
    | rule r follow =>
      have hlt := hled.lt_size hframes hrank.lt_size (s := r) rfl htask
      simp only
      split <;> omega
    | steps _ _ _ | repetition _ _ | expression _ | climb _ _ | done _ => simp only; omega
  | back hback hdamage hcount =>
    dsimp only at *
    rw [Machine.activeAt]
    cases task with
    | rule r follow => exact absurd trivial hback
    | steps _ _ _ | repetition _ _ | expression _ | climb _ _ | done _ => simp only; omega

/-- At most twice as many rules as there are have been entered without taking a token. -/
theorem Nested.active_le (h : Nested g rank m) (hrank : g.Ranks rank) :
    m.activeAt m.state.consumed ≤ 2 * g.size := by
  have hchain := h.phase.active_le hrank h.belongs.task h.belongs.frames
  have hslack := slack_le g m.state
  omega

/-! ## Steps -/

/-- Where a token was just taken no rule has been entered yet. -/
theorem Phase.of_untouched (hzero : enteredAt m.state.consumed m.frames = 0)
    (h : m.task.Proceeds ∨ m.state.atDamage = true) : Phase g rank m := by
  by_cases hproceeds : m.task.Proceeds
  · exact .going [] m.frames hproceeds rfl trivial (by rw [hzero]; exact Nat.zero_le _)
  · exact .back hproceeds (h.resolve_left hproceeds) (by rw [hzero]; exact Nat.zero_le _)

/-- Before a failure, and at the end of the input, the chain is all there is. -/
theorem Nested.active_le_of_failure (h : Nested g rank m) (hrank : g.Ranks rank)
    (hfail : m.state.atDamage = false ∨ m.state.next = .eof) :
    m.activeAt m.state.consumed ≤ g.size := by
  have htask := h.belongs.task
  have hframes := h.belongs.frames
  have hslack : slack g m.state = 0 := by
    rw [slack, if_neg]
    rintro ⟨hd, hn⟩
    rcases hfail with hf | hf
    · rw [hf] at hd
      cases hd
    · exact hn hf
  have hchain := h.phase.active_le hrank htask hframes
  omega

namespace Parser

variable {p : Parser}

/-! ## The stack alone -/

theorem Framing.marked (hf : Framing m m') (h : Marked m.state.consumed m.frames) :
    Marked m.state.consumed m'.frames := by
  cases hf with
  | keep heq => rwa [heq]
  | push frame heq hrule hround =>
    rw [heq]
    cases frame with
    | rule r entered nodes =>
      obtain ⟨rfl, -⟩ := hrule r entered nodes rfl
      exact ⟨Nat.le_refl _, h⟩
    | repetition r follow before =>
      obtain ⟨rfl, -⟩ := hround r follow before rfl
      exact ⟨Nat.le_refl _, h⟩
    | steps _ _ | operand _ _ | unary _ _ _ | binary _ _ _ => exact h
  | pop frame heq =>
    rw [heq] at h
    exact h.tail

/-- A rule gets onto the stack only from the task. -/
theorem Framing.enteredAt_le (hf : Framing m m') (v : Nat) :
    enteredAt v m'.frames ≤ m.activeAt v := by
  rw [Machine.activeAt]
  cases hf with
  | keep heq =>
    rw [heq]
    exact Nat.le_add_right _ _
  | push frame heq hrule hround =>
    rw [heq, enteredAt_cons]
    cases frame with
    | rule r entered nodes =>
      obtain ⟨rfl, follow, htask⟩ := hrule r entered nodes rfl
      rw [htask]
      simp [Frame.enteredAt]
    | repetition _ _ _ | steps _ _ | operand _ _ | unary _ _ _ | binary _ _ _ =>
      exact Nat.le_add_right _ _
  | pop frame heq =>
    rw [heq]
    exact Nat.le_trans (enteredAt_le_cons ..) (Nat.le_add_right _ _)

theorem Framing.rounds (hf : Framing m m') (htakes : m.state.Takes n m'.state)
    (h : ∀ r follow before, .repetition r follow before ∈ m.frames →
      before < m.state.consumed ∨ m.state.next ≠ .eof) (hmarked : Marked m.state.consumed m.frames)
    (r : Nat) (follow : TokenSet) (before : Nat) (hmem : .repetition r follow before ∈ m'.frames) :
    before < m'.state.consumed ∨ m'.state.next ≠ .eof := by
  have hold : before ≤ m.state.consumed ∧ (before < m.state.consumed ∨ m.state.next ≠ .eof) := by
    have hmem_of : .repetition r follow before ∈ m.frames →
        before ≤ m.state.consumed ∧ (before < m.state.consumed ∨ m.state.next ≠ .eof) :=
      fun hmem => ⟨hmarked.le_of_mem hmem, h r follow before hmem⟩
    cases hf with
    | keep heq => exact hmem_of (heq ▸ hmem)
    | push frame heq hrule hround =>
      rw [heq, List.mem_cons] at hmem
      rcases hmem with rfl | hmem
      · obtain ⟨rfl, hnext⟩ := hround r follow before rfl
        exact ⟨Nat.le_refl _, .inr hnext⟩
      · exact hmem_of hmem
    | pop frame heq => exact hmem_of (heq ▸ List.mem_cons_of_mem _ hmem)
  rw [htakes.consumed]
  rcases Nat.eq_zero_or_pos n with rfl | hpos
  · rcases hold.2 with hlt | hnext
    · exact .inl hlt
    · refine .inr ?_
      rwa [ParseState.next, htakes.ids, List.drop_zero]
  · exact .inl (by omega)

/-! ## The phases -/

/-- After a failure that takes no token the parser is on its way back. -/
theorem phase_of_failure (h : Nested p.grammar rank m) (hrank : p.grammar.Ranks rank)
    (hmove : p.Move m m') {expected : TokenSet} {errors : List NodeId} (hst : m.state.Stays st)
    (hu : st.unexpected p.grammar p.sync expected = (errors, st')) (htail : st'.Stays m'.state)
    (hend : m'.task.Proceeds → m.state.next ≠ .eof) : Phase p.grammar rank m' := by
  obtain ⟨htakes, hdamage⟩ := takes_unexpected_of_eq hu
  have htakes' := (hst.takes htakes).stays htail
  have hdamage' : m'.state.atDamage = true := htail.atDamage.trans hdamage
  have hconsumed := htakes'.consumed
  -- A failure that takes nothing is the first at its place, or the input has ended; until then the
  -- chain was all there was.
  rcases Nat.eq_zero_or_pos (st.damageLength p.sync) with hzero | hpos
  · have hfail : m.state.atDamage = false ∨ m.state.next = .eof := by
      rw [← hst.atDamage, ← hst.next]
      by_contra hno
      rw [not_or, Bool.not_eq_false] at hno
      rw [ParseState.damageLength, if_pos hno.1, if_neg hno.2] at hzero
      cases hzero
    have hcount : enteredAt m'.state.consumed m'.frames ≤ p.grammar.size := by
      rw [hconsumed, hzero]
      exact Nat.le_trans (hmove.framing.enteredAt_le _) (h.active_le_of_failure hrank hfail)
    by_cases hproceeds : m'.task.Proceeds
    · refine .going [] m'.frames hproceeds rfl trivial ?_
      have hnext : m'.state.next ≠ .eof := by
        have heq : m'.state.next = m.state.next := by
          rw [ParseState.next, htakes'.ids, hzero]
          rfl
        rw [heq]
        exact hend hproceeds
      rwa [slack, if_pos ⟨hdamage', hnext⟩]
    · exact .back hproceeds hdamage' hcount
  · refine .of_untouched (hmove.framing.marked h.marked |>.enteredAt_eq_zero ?_) (.inr hdamage')
    omega

/-- A step that takes a token leaves no rule behind that was entered where it ends. -/
theorem phase_of_taken (h : Nested p.grammar rank m) (hmove : p.Move m m')
    (htakes : m.state.Takes n m'.state) (hpos : 0 < n)
    (hproceeds : m'.task.Proceeds ∨ m'.state.atDamage = true) : Phase p.grammar rank m' := by
  refine .of_untouched ((hmove.framing.marked h.marked).enteredAt_eq_zero ?_) hproceeds
  rw [htakes.consumed]
  omega

/-- A step that takes nothing and marks nothing lengthens or shortens the chain, or begins one on
the way back. -/
theorem phase_of_stays (above : List Frame) {below : List Frame} (hstays : st.Stays m.state)
    (hproceeds : m.task.Proceeds) (hframes : m.frames = above ++ below)
    (hled : Led g rank st.consumed (m.task.leads g) (m.task.Blank g) above)
    (hbelow : enteredAt st.consumed below ≤ slack g st) : Phase g rank m := by
  refine .going above below hproceeds hframes ?_ ?_
  · rwa [hstays.consumed_eq]
  · rwa [hstays.consumed_eq, slack_of_stays hstays]

/-- A symbol of a production. -/
theorem Enter.phase (hend : p.grammar.Lacks .eof)
    (hrank : p.grammar.Ranks rank) {frames : List Frame} {nodes : List NodeId}
    {follow : TokenSet} {flow : Flow} {s : Step} {rest : List Step} {st₁ : ParseState}
    (h : Nested p.grammar rank ⟨.steps (s :: rest) follow flow, frames, nodes, st⟩)
    (hst : st₁ = st ∨ st₁ = st.fill 0)
    (hnext : flow = .recovering → st.next ≠ .eof)
    (he : p.Enter (.steps rest follow :: frames) nodes st₁ (followOf s follow) s.symbol m)
    (hmove : p.Move ⟨.steps (s :: rest) follow flow, frames, nodes, st⟩ m) :
    Phase p.grammar rank m := by
  have hstays := stays_of_filled hst
  have hfill := hstays.trans (st₁.stays_fill 0)
  have htoken : ∀ {id}, s.symbol = .token id → id ≠ .eof := h.belongs.task.id_ne hend
  -- Whatever the symbol enters is among what the steps can begin with.
  have henter : m.frames = .steps rest follow :: frames → st.Stays m.state → m.task.Proceeds →
      (∀ x, m.task.leads p.grammar x → s.symbol.rule? = some x) →
      (m.task.Blank p.grammar → Analysis.symbolNullable p.grammar.nullable s.symbol = true) →
      Phase p.grammar rank m := by
    intro hframes hstays hproceeds hleads hblank
    cases h.phase with
    | going above below _ heq hled hbelow =>
      dsimp only at heq hled hbelow
      refine phase_of_stays (.steps rest follow :: above) hstays hproceeds
        (by rw [hframes, heq]; rfl) (hled.weaken (fun x hx => ?_) fun hx => ?_) hbelow
      · simp only [Task.leads, List.map_cons, Analysis.leading, List.mem_append]
        rcases hx with hx | ⟨hx, hrest⟩
        · exact .inl (by simp [hleads x hx])
        · exact .inr (by rwa [if_pos (hblank hx)])
      · simp only [Task.Blank, List.map_cons, List.all_cons, Bool.and_eq_true]
        exact ⟨hblank hx.1, hx.2⟩
    | back hback hdamage hcount =>
      cases flow with
      | proceeding => exact absurd trivial hback
      | recovering =>
        refine phase_of_stays [] hstays hproceeds (by rw [hframes]; rfl) trivial ?_
        rw [slack, if_pos ⟨hdamage, hnext rfl⟩, enteredAt_cons]
        exact hcount
  generalize hsymbol : s.symbol = symbol at *
  cases he with
  | token hid =>
    obtain ⟨htakes, -, -⟩ := takes_takeLeaf_fill hid (htoken rfl)
    exact phase_of_taken h hmove (hstays.takes htakes) Nat.one_pos (.inl trivial)
  | late _ hu hid =>
    obtain ⟨htakes, -, -⟩ := takes_takeLeaf_fill hid (htoken rfl)
    have hunexp := hfill.takes (takes_unexpected_of_eq hu).1
    exact phase_of_taken h hmove (hunexp.trans htakes) (Nat.succ_pos _) (.inl trivial)
  | absent _ hu _ =>
    exact phase_of_failure h hrank hmove hfill hu (ParseState.stays_fill _ 0) fun hp => hp.elim
  | rule => exact henter rfl hstays trivial (fun x hx => hx ▸ rfl) id
  | opt _ => exact henter rfl hfill trivial (fun x hx => hx ▸ rfl) fun _ => rfl
  | skip _ => exact henter rfl hfill trivial (fun x hx => hx.elim) fun _ => rfl
  | many => exact henter rfl hstays trivial (fun x hx => hx ▸ rfl) fun _ => rfl

/-- Going back to a frame of the chain, or to one that a failure has left. -/
theorem phase_of_pop {frame : Frame} {frames : List Frame} {flow : Flow} {nodes : List NodeId}
    (h : Nested g rank ⟨.done flow, frame :: frames, nodes, st⟩) (hstays : st.Stays m.state)
    (hframes : m.frames = frames) (hflow : m.task.Proceeds ↔ flow = .proceeding)
    (hled : ∀ above, Led g rank st.consumed (fun _ => False) True (frame :: above) →
      Led g rank st.consumed (m.task.leads g) (m.task.Blank g) above) : Phase g rank m := by
  have hcons := enteredAt_le_cons st.consumed frame frames
  cases h.phase with
  | going above below hproceeds heq hchain hbelow =>
    dsimp only at heq hchain hbelow hproceeds
    have hgoes : m.task.Proceeds := by
      cases flow with
      | proceeding => exact hflow.2 rfl
      | recovering => exact hproceeds.elim
    -- With the chain used up, the frame is one that a failure has left.
    cases above with
    | nil =>
      rw [List.nil_append] at heq
      rw [← heq] at hbelow
      exact phase_of_stays [] hstays hgoes hframes trivial (Nat.le_trans hcons hbelow)
    | cons _ above =>
      obtain ⟨rfl, rfl⟩ := List.cons.inj heq
      exact phase_of_stays _ hstays hgoes hframes (hled above hchain) hbelow
  | back hback hdamage hcount =>
    refine .back (fun hproceeds => ?_) (hstays.atDamage.trans hdamage) ?_
    · rw [hflow] at hproceeds
      subst hproceeds
      exact hback trivial
    · rw [hstays.consumed_eq, hframes]
      exact Nat.le_trans hcons hcount

theorem proceeds_leaveOperand (ctx : ExpressionContext) (flow : Flow) (node : NodeId)
    (frames : List Frame) (nodes : List NodeId) (st : ParseState) :
    (leaveOperand ctx flow node frames nodes st).task.Proceeds ↔ flow = .proceeding := by
  cases flow with
  | proceeding => exact ⟨fun _ => rfl, fun _ => trivial⟩
  | recovering => exact ⟨fun h => h.elim, fun h => nomatch h⟩

theorem leads_leaveOperand {ctx : ExpressionContext} {flow : Flow} {node : NodeId}
    {frames : List Frame} {nodes : List NodeId} {st : ParseState} {s : Nat}
    (h : (leaveOperand ctx flow node frames nodes st).task.leads g s) : False := by
  cases flow <;> exact h

theorem Move.phase (hc : p.grammar.Checked) (hend : p.grammar.Lacks .eof)
    (hrank : p.grammar.Ranks rank) (hmove : p.Move m m') (h : Nested p.grammar rank m)
    (hmissing : ∀ r follow, m.task = .rule r follow → p.grammar.body r = .undefined →
      m.state.atDamage = false ∨ m.state.next = .eof) : Phase p.grammar rank m' := by
  have htask := h.belongs.task
  have hphase := h.phase
  have hmove' := hmove
  cases hmove with
  | @missing r follow frames nodes st hb =>
    obtain ⟨htakes, hdamage⟩ := st.takes_missingRule p.grammar r
    refine .back (fun hp => hp.elim) hdamage ?_
    have hactive := h.active_le_of_failure hrank (hmissing r follow rfl hb)
    rw [htakes.consumed]
    exact Nat.le_trans (hmove'.framing.enteredAt_le _) hactive
  | @express r follow frames nodes st ops hb =>
    obtain ⟨above, below, _, heq, hled, hbelow⟩ | ⟨hback, -, -⟩ := hphase
    · refine phase_of_stays (.rule r st.consumed nodes :: above) (.refl st) trivial
        (congrArg (Frame.rule r st.consumed nodes :: ·) heq) ⟨?_, ?_, hled⟩ hbelow
      · rintro s rfl
        exact hrank.expression hb
      · exact hc.nullable_expression hb
    · exact absurd trivial hback
  | @choose r follow frames nodes st st₁ as a hb hs =>
    have ha := ParseState.mem_of_choose
      ((ParseState.fst_select ..).symm.trans (congrArg Prod.fst hs))
    obtain ⟨above, below, _, heq, hled, hbelow⟩ | ⟨hback, -, -⟩ := hphase
    · refine phase_of_stays (.rule r st.consumed nodes :: above) (stays_select_of_eq hs)
        trivial (congrArg (Frame.rule r st.consumed nodes :: ·) heq) ⟨?_, ?_, hled⟩ hbelow
      · intro s hs
        simp only [Task.leads, hc.map_symbol_steps hb ha] at hs
        exact hrank.sequence hb ha hs
      · intro hblank
        simp only [Task.Blank, hc.map_symbol_steps hb ha] at hblank
        refine hc.nullable_sequence hb ha ?_
        rw [hc.nullable_eq hb ha, Grammar.all_blank_map, Analysis.snd_sequenceFirst]
        exact hblank
    · exact absurd trivial hback
  | @retry r follow frames nodes errors st st₁ st₂ st₃ as a hb hs hd hu hs₂ ha =>
    have hstays := stays_select_of_eq hs
    obtain ⟨htakes, hdamage⟩ := takes_unexpected_of_eq hu
    have hlast := (st₂.stays_fill 0).trans (stays_select_of_eq hs₂)
    refine phase_of_taken h hmove' ((hstays.takes htakes).stays hlast) ?_ (.inl trivial)
    -- A skip that takes nothing leaves the choice as it was.
    refine Nat.pos_of_ne_zero fun hzero => ?_
    have hnone := (ParseState.fst_select ..).symm.trans (congrArg Prod.fst hs)
    have hsome := (ParseState.fst_select ..).symm.trans (congrArg Prod.fst hs₂)
    rw [ParseState.ids_fill, htakes.ids, hzero, List.drop_zero, hstays.ids_eq, hnone] at hsome
    cases hsome
  | refuse hb hs hu hs₂ _ =>
    exact phase_of_failure h hrank hmove' (stays_select_of_eq hs) hu
      ((ParseState.stays_fill _ 0).trans (stays_select_of_eq hs₂)) fun hp => hp.elim
  | @finish follow flow frames nodes st =>
    obtain ⟨above, below, hproceeds, heq, hled, hbelow⟩ | ⟨hback, hdamage, hcount⟩ := hphase
    · cases flow with
      | recovering => exact hproceeds.elim
      | proceeding =>
        exact phase_of_stays _ (.refl st) trivial heq
          (hled.weaken (fun s hs => hs.elim) fun _ => rfl) hbelow
    · cases flow with
      | recovering => exact .back (fun hp => hp.elim) hdamage hcount
      | proceeding => exact absurd trivial hback
  | @pass s rest follow frames nodes st hcan =>
    obtain ⟨above, below, hproceeds, -, -, -⟩ | ⟨-, hdamage, hcount⟩ := hphase
    · exact hproceeds.elim
    · have hstays := st.stays_fill 0
      refine .back (fun hp => hp.elim) (hstays.atDamage.trans hdamage) ?_
      rwa [hstays.consumed_eq]
  | @enter s rest follow flow frames nodes st st₁ m hst hcan he =>
    refine he.phase hend hrank h hst (fun hflow hnext => ?_) hmove'
    -- No symbol starts with the end of the input, so that recovery does not stop there.
    have hstart := hcan hflow
    have htoken : ∀ {id}, s.symbol = .token id → id ≠ .eof := htask.id_ne hend
    rw [hnext] at hstart
    generalize s.symbol = symbol at hstart htoken
    cases symbol with
    | token id =>
      rw [Grammar.canStart, beq_iff_eq] at hstart
      exact htoken rfl hstart
    | rule r | opt r | many r =>
      rw [Grammar.canStart, hc.firstOf_lacks hend] at hstart
      cases hstart
  | @close r follow frames nodes st hn =>
    obtain ⟨above, below, _, heq, hled, hbelow⟩ | ⟨hback, -, -⟩ := hphase
    · exact phase_of_stays _ (st.stays_fill 0) trivial heq
        (hled.weaken (fun s hs => hs.elim) fun _ => trivial) hbelow
    · exact absurd trivial hback
  | @round r follow frames nodes st hn hf =>
    obtain ⟨above, below, _, heq, hled, hbelow⟩ | ⟨hback, -, -⟩ := hphase
    · exact phase_of_stays (.repetition r follow st.consumed :: above) (st.stays_fill 0)
        trivial (congrArg (Frame.repetition r follow st.consumed :: ·) heq)
        ⟨rfl, hled.weaken (fun _ hs => hs) fun hs => hs.elim⟩ hbelow
    · exact absurd trivial hback
  | stray hn _ _ hu =>
    exact phase_of_failure h hrank hmove' (ParseState.stays_fill _ 0) hu (.refl _) fun _ => hn
  | @sign ctx frames nodes st level hop =>
    have hne : st.next ≠ .eof := htask.sign_ne hend hop
    obtain ⟨htakes, -, -⟩ := takes_takeLeaf_fill rfl hne
    exact phase_of_taken h hmove' htakes Nat.one_pos (.inl trivial)
  | @operand ctx frames nodes st hop hf =>
    obtain ⟨above, below, _, heq, hled, hbelow⟩ | ⟨hback, -, -⟩ := hphase
    · exact phase_of_stays (.operand ctx nodes :: above) (st.stays_fill 0) trivial
        (congrArg (Frame.operand ctx nodes :: ·) heq) hled hbelow
    · exact absurd trivial hback
  | lack _ _ hu =>
    exact phase_of_failure h hrank hmove' (ParseState.stays_fill _ 0) hu (.refl _)
      fun hp => hp.elim
  | @climb ctx lhs frames nodes st op hop hlevel =>
    have hne : st.next ≠ .eof := htask.link_ne hend hop
    obtain ⟨htakes, -, -⟩ := takes_takeLeaf_fill rfl hne
    exact phase_of_taken h hmove' htakes Nat.one_pos (.inl trivial)
  | @top ctx lhs frames nodes st hop =>
    obtain ⟨above, below, _, heq, hled, hbelow⟩ | ⟨hback, -, -⟩ := hphase
    · exact phase_of_stays _ (st.stays_fill 0) trivial heq
        (hled.weaken (fun s hs => hs.elim) fun _ => trivial) hbelow
    · exact absurd trivial hback
  | @wrap r entered flow frames nodes outer st hnode =>
    refine phase_of_pop h ((st.stays_fill 0).trans (ParseState.stays_pushNode ..)) rfl ?_
      fun above hled => hled.2.2.weaken (fun s hs => hs.elim) fun _ => hled.2.1 trivial
    cases flow <;> simp [Task.Proceeds]
  | @splice r entered flow frames nodes outer st hnode =>
    refine phase_of_pop h (.refl st) rfl ?_
      fun above hled => hled.2.2.weaken (fun s hs => hs.elim) fun _ => hled.2.1 trivial
    cases flow <;> simp [Task.Proceeds]
  | @resume rest follow flow frames nodes st =>
    refine phase_of_pop h (.refl st) rfl ?_ fun above hled => ?_
    · cases flow <;> simp [Task.Proceeds]
    · rw [Led] at hled
      exact hled.weaken (fun s hs => .inr ⟨trivial, hs⟩) fun hs => ⟨trivial, hs⟩
  | @stall r before follow flow frames nodes st hb =>
    have hnext : st.next ≠ .eof :=
      (h.rounds r follow before List.mem_cons_self).resolve_left (by rw [← hb]; exact lt_irrefl _)
    exact phase_of_taken h hmove' (ParseState.takes_absorb hnext).1 Nat.one_pos (.inl trivial)
  | @again r before follow flow frames nodes st hb =>
    obtain ⟨hle, hmarked⟩ := h.marked
    refine phase_of_stays [] (.refl st) trivial rfl trivial ?_
    -- The round took a token: nothing on the stack has been entered since.
    rw [hmarked.enteredAt_eq_zero (Nat.lt_of_le_of_ne hle (Ne.symm hb))]
    exact Nat.zero_le _
  | leaf =>
    exact phase_of_pop h (takes_leaveOperand _ _ _ _ _ (stays_operandNode ..))
      (frames_leaveOperand ..) (proceeds_leaveOperand ..)
      fun above hled => Led.weaken hled (fun s hs => leads_leaveOperand hs) fun _ => trivial
  | unary | binary =>
    exact phase_of_pop h (takes_leaveOperand _ _ _ _ _ (ParseState.stays_pushNode ..))
      (frames_leaveOperand ..) (proceeds_leaveOperand ..)
      fun above hled => Led.weaken hled (fun s hs => leads_leaveOperand hs) fun _ => trivial
  | rest => exact hphase

/-! ## All moments -/

theorem activeAt_of_ne (hne : m.state.consumed ≠ v) : m.activeAt v = enteredAt v m.frames := by
  rw [Machine.activeAt]
  cases m.task with
  | rule r follow => rw [if_neg hne, Nat.add_zero]
  | steps _ _ _ | repetition _ _ | expression _ | climb _ _ | done _ => rfl

/-- For every number of tokens taken, at most twice as many rules as there are have been entered
there and are still being parsed. -/
theorem activeAt_le (h : Nested g rank m) (hrank : g.Ranks rank) (v : Nat) :
    m.activeAt v ≤ 2 * g.size := by
  rcases Nat.lt_trichotomy v m.state.consumed with hlt | rfl | hlt
  · rw [activeAt_of_ne (Nat.ne_of_gt hlt)]
    exact h.past v hlt
  · exact h.active_le hrank
  · rw [activeAt_of_ne (Nat.ne_of_lt hlt), h.marked.enteredAt_eq_zero hlt]
    exact Nat.zero_le _

theorem Move.nested (hc : p.grammar.Checked) (hend : p.grammar.Lacks .eof)
    (hrank : p.grammar.Ranks rank) (hmove : p.Move m m') (h : Nested p.grammar rank m)
    (hmissing : ∀ r follow, m.task = .rule r follow → p.grammar.body r = .undefined →
      m.state.atDamage = false ∨ m.state.next = .eof) : Nested p.grammar rank m' := by
  obtain ⟨n, htakes⟩ := hmove.takes
  have hframing := hmove.framing
  have hmarked := hframing.marked h.marked
  have hle : m.state.consumed ≤ m'.state.consumed := by
    rw [htakes.consumed]
    exact Nat.le_add_right _ _
  refine ⟨hmove.belongs hc h.belongs, hmarked.mono hle, hframing.rounds htakes h.rounds h.marked,
    fun v hv => ?_, hmove.phase hc hend hrank h hmissing⟩
  exact Nat.le_trans (hframing.enteredAt_le v) (activeAt_le h hrank v)

theorem nested_start (hc : p.grammar.Checked) (stream : TokenStream) :
    Nested p.grammar rank (p.start stream) := by
  refine ⟨belongs_start hc stream, trivial, fun _ _ _ hmem => (List.not_mem_nil hmem).elim,
    fun _ _ => Nat.zero_le _, .going [] [] ?_ rfl trivial (Nat.zero_le _)⟩
  unfold start
  dsimp only
  split <;> trivial

end Parser

end FrontEnd
