import FrontEnd.Proofs.Parser.Prediction
import FrontEnd.Proofs.Parser.Outcomes

/-!
# The machine performs errands

A machine that comes to its end does, for every task it takes up, what the recursion over errands
says: it comes back to the stack that it had, with the nodes and in the state of the outcome.

- `Parser.Ready`: a moment from which the end of the parse is so many steps away;
- `Parser.Delivers`: the task of a moment is done later, with the outcome of the errand;
- `Parser.Ready.delivers`: **every task of a parse that ends is done so**.
-/

namespace FrontEnd

/-- One token is enough to choose between the alternatives of a rule, and every rule has some. -/
structure Grammar.Decisive (g : Grammar) : Prop where
  defined : ∀ r < g.size, g.body r ≠ .undefined
  one : ∀ r as, g.body r = .sequence as → ∀ t, (ParseState.candidates as t).length ≤ 1

/-- What a task asks for. -/
inductive Task.Asks (a : Arena) (names : Names) : Task → Errand → Prop where
  | rule {r : Nat} {follow : TokenSet} : Asks a names (.rule r follow) (.rule r follow)
  | steps {rest : List Step} {follow : TokenSet} {flow : Flow} :
    Asks a names (.steps rest follow flow) (.steps rest follow flow)
  | repetition {r : Nat} {follow : TokenSet} :
    Asks a names (.repetition r follow) (.repetition r follow)
  | expression {ctx : ExpressionContext} : Asks a names (.expression ctx) (.expression ctx)
  | climb {ctx : ExpressionContext} {lhs : NodeId} (h : lhs < a.nodes.size) :
    Asks a names (.climb ctx lhs) (.climb ctx (a.item names lhs))

namespace Parser

variable {p : Parser} {names : Names} {n n₁ n₂ : Nat} {m m₁ m₂ : Machine} {e : Errand}
  {st st₁ st₂ : ParseState}

/-! ## Steps that are left -/

/-- From `m` with `n` steps left the machine gets to `m₁` with `n₁` steps left. -/
def Spends (p : Parser) (n : Nat) (m : Machine) (n₁ : Nat) (m₁ : Machine) : Prop :=
  ∃ k, n = k + n₁ ∧ p.run k m = m₁

theorem Spends.refl (n : Nat) (m : Machine) : p.Spends n m n m := ⟨0, (Nat.zero_add n).symm, rfl⟩

theorem Spends.trans (h : p.Spends n m n₁ m₁) (h' : p.Spends n₁ m₁ n₂ m₂) :
    p.Spends n m n₂ m₂ := by
  obtain ⟨k, rfl, rfl⟩ := h
  obtain ⟨k', rfl, rfl⟩ := h'
  exact ⟨k + k', by omega, run_add p k k' m⟩

theorem Spends.step (n : Nat) (m : Machine) : p.Spends (n + 1) m n (p.step m) :=
  ⟨1, Nat.add_comm n 1, rfl⟩

theorem Spends.le (h : p.Spends n m n₁ m₁) : n₁ ≤ n := by
  obtain ⟨k, rfl, -⟩ := h
  omega

/-- The end of the parse is at most `n` steps away, and nothing is out of order. -/
structure Ready (p : Parser) (n : Nat) (m : Machine) : Prop where
  halts : (p.run n m).halted = true
  belongs : m.Belongs p.grammar
  orderly : m.state.Orderly

theorem Ready.spends (h : p.Ready n m) (hc : p.grammar.Checked) (hs : p.Spends n m n₁ m₁)
    (ho : m₁.state.Orderly) : p.Ready n₁ m₁ := by
  obtain ⟨k, rfl, rfl⟩ := hs
  refine ⟨?_, run_invariant (fun _ _ hmove hm => hmove.belongs hc hm) h.belongs k, ho⟩
  rw [← run_add]
  exact h.halts

/-- A machine with something left to do makes another step. -/
theorem Ready.proceed (h : p.Ready n m) (hs : p.Spends n m n₁ m₁) (hm : m₁.halted = false) :
    ∃ n₂, n₁ = n₂ + 1 ∧ p.Spends n m n₂ (p.step m₁) := by
  obtain ⟨k, rfl, rfl⟩ := hs
  cases n₁ with
  | zero => exact absurd (hm.symm.trans h.halts) nofun
  | succ n₂ => exact ⟨n₂, rfl, Spends.trans ⟨k, rfl, rfl⟩ (.step n₂ _)⟩

/-- The task of the machine is done later, with the outcome of the errand. -/
def Delivers (p : Parser) (names : Names) (n : Nat) (m : Machine) (e : Errand) : Prop :=
  ∃ n₁ made st₁ o, p.Spends n m n₁ ⟨.done o.flow, m.frames, made ++ m.nodes, st₁⟩ ∧
    p.Performs names e m.state.prospect o ∧ m.state.Brings names made o st₁

/-- Every task that is taken up with fewer steps left is done. -/
def DeliversBelow (p : Parser) (names : Names) (n : Nat) : Prop :=
  ∀ n₁ < n, ∀ m e, p.Ready n₁ m → m.task.Asks m.state.arena names e → p.Delivers names n₁ m e

/-! ## Frames -/

theorem halted_frame (flow : Flow) (frame : Frame) (frames : List Frame) (nodes : List NodeId)
    (st : ParseState) : Machine.halted ⟨.done flow, frame :: frames, nodes, st⟩ = false := rfl

variable {frames : List Frame} {nodes inner outer made : List NodeId} {o : Errand.Outcome}

/-- A body that is done makes its rule done. -/
theorem step_rule_frame (h : st.Brings names inner o st₁) (r entered : Nat)
    (outer : List NodeId) (frames : List Frame) :
    ∃ made st₂, p.step ⟨.done o.flow, .rule r entered outer :: frames, inner, st₁⟩
        = ⟨.done o.flow, frames, made ++ outer, st₂⟩ ∧
      st.Brings names made (p.closed names r o) st₂ := by
  show ∃ made st₂, p.leaveRule r o.flow outer frames inner st₁
      = ⟨.done o.flow, frames, made ++ outer, st₂⟩ ∧ _
  rw [leaveRule, closed, close]
  by_cases hnode : p.hasNode r = true
  · rw [if_pos hnode, if_pos hnode]
    have hlook := ParseState.brings_fill h.orderly names 0
    exact ⟨_, _, rfl, (h.before_look hlook).pushNode _ rfl (st₁.fill 0).current.position⟩
  · rw [if_neg hnode, if_neg hnode]
    exact ⟨inner, st₁, rfl, h⟩

/-- The task above a frame of a rule does the body of the rule. -/
theorem Ready.deliver_rule (h : p.Ready n m) {r entered : Nat}
    (hs : p.Spends n m n₁ ⟨.done o.flow, .rule r entered m.nodes :: m.frames, inner, st₁⟩)
    (hbrings : m.state.Brings names inner o st₁) {follow : TokenSet}
    (hperf : p.Performs names (.rule r follow) m.state.prospect (p.closed names r o)) :
    p.Delivers names n m (.rule r follow) := by
  obtain ⟨n₂, -, hstep⟩ := h.proceed hs (halted_frame ..)
  obtain ⟨made, st₂, heq, hdone⟩ := step_rule_frame (p := p) hbrings r entered m.nodes m.frames
  rw [heq] at hstep
  exact ⟨n₂, made, st₂, p.closed names r o, hstep, hperf, hdone⟩

/-! ## Tasks -/

theorem unexpected_of_eq {expected : TokenSet} {errors : List NodeId} (h : st.Orderly)
    (names : Names) (hu : st.unexpected p.grammar p.sync expected = (errors, st₁)) :
    st.Brings names errors (st.prospect.blamed names p.sync) st₁ := by
  have hbrings := ParseState.brings_unexpected h p.grammar p.sync expected names
  rwa [hu] at hbrings

theorem look_unexpected_of_eq {expected : TokenSet} {errors : List NodeId} (h : st.Orderly)
    (names : Names) (hu : (st.fill 0).unexpected p.grammar p.sync expected = (errors, st₁)) :
    st.Brings names errors (st.prospect.blamed names p.sync) st₁ := by
  have hlook := ParseState.brings_fill h names 0
  have hblame := unexpected_of_eq hlook.orderly names hu
  rw [ParseState.prospect_fill] at hblame
  exact hlook.after_look hblame

theorem select_of_eq (hdecisive : p.grammar.Decisive) {r : Nat} {as : List Alternative}
    (hb : p.grammar.body r = .sequence as) {a : Option Alternative} (h : st.Orderly)
    (names : Names) (hs : st.select p.grammar r as = (a, st₁)) :
    ParseState.choose as st.prospect.ids = a ∧
      st.Brings names [] (st.prospect.idle []) st₁ := by
  have hbrings := ParseState.brings_select h names p.grammar r (hdecisive.one r as hb)
  have hchoice := ParseState.fst_select p.grammar r as st
  rw [hs] at hbrings hchoice
  rw [ParseState.ids_prospect]
  exact ⟨hchoice.symm, hbrings⟩

/-- Where no alternative fits, the next token is blamed, and one is looked for again. -/
theorem retry_of_eq (hdecisive : p.grammar.Decisive) {r : Nat} {as : List Alternative}
    (hb : p.grammar.body r = .sequence as) {expected : TokenSet} {a : Option Alternative}
    {errors : List NodeId} {st₂ st₃ : ParseState} (h : st.Orderly) (names : Names)
    (hs : st.select p.grammar r as = (none, st₁))
    (hu : st₁.unexpected p.grammar p.sync expected = (errors, st₂))
    (hs₂ : (st₂.fill 0).select p.grammar r as = (a, st₃)) :
    ParseState.choose as st.prospect.ids = none ∧ st₁.atDamage = st.prospect.damaged ∧
      ParseState.choose as (st.prospect.blamed names p.sync).after.ids = a ∧
      st₂.next = (st.prospect.blamed names p.sync).after.next ∧
      st.Brings names errors (st.prospect.blamed names p.sync) st₃ := by
  obtain ⟨hchoose, hlook⟩ := select_of_eq hdecisive hb h names hs
  have hblame := unexpected_of_eq hlook.orderly names hu
  have hlook₁ := ParseState.brings_fill hblame.orderly names 0
  obtain ⟨hchoose₂, hlook₂⟩ := select_of_eq hdecisive hb hlook₁.orderly names hs₂
  rw [ParseState.prospect_fill] at hchoose₂ hlook₂
  rw [hlook.after] at hblame
  have hread := hlook.after_look (hblame.before_look (hlook₁.after_look hlook₂))
  refine ⟨hchoose, congrArg Prospect.damaged hlook.after, hblame.after ▸ hchoose₂, ?_, hread⟩
  rw [← ParseState.next_prospect, hblame.after]
  rfl

theorem Ready.delivers_rule {r : Nat} {follow : TokenSet}
    (h : p.Ready n ⟨.rule r follow, frames, nodes, st⟩) (hc : p.grammar.Checked)
    (hdecisive : p.grammar.Decisive) (ih : p.DeliversBelow names n) :
    p.Delivers names n ⟨.rule r follow, frames, nodes, st⟩ (.rule r follow) := by
  obtain ⟨n', rfl, hstep⟩ := h.proceed (.refl ..) (Bool.and_false _)
  have hmove := step_move p ⟨.rule r follow, frames, nodes, st⟩
  generalize p.step ⟨.rule r follow, frames, nodes, st⟩ = m' at hmove hstep
  have hlt := Nat.lt_succ_self n'
  -- What the rule goes on with takes fewer steps, so that it delivers what its errand asks for.
  cases hmove with
  | missing hb => exact absurd hb (hdecisive.defined r h.belongs.task)
  | express hb =>
    obtain ⟨n₁, made, st₁, o, hs, hperf, hbrings⟩ :=
      ih n' hlt _ _ (h.spends hc hstep h.orderly) .expression
    rw [List.append_nil] at hs
    exact h.deliver_rule (hstep.trans hs) hbrings (.express hb hperf)
  | choose hb hselect =>
    obtain ⟨hchoose, hlook⟩ := select_of_eq hdecisive hb h.orderly names hselect
    obtain ⟨n₁, made, st₁, o, hs, hperf, hbrings⟩ :=
      ih n' hlt _ _ (h.spends hc hstep hlook.orderly) .steps
    rw [List.append_nil] at hs
    rw [hlook.after] at hperf
    exact h.deliver_rule (hstep.trans hs) (hlook.after_look hbrings) (.choose hb hchoose hperf)
  | retry hb hselect hd hu hselect₂ ha =>
    obtain ⟨hchoose, hdamage, hchoose₂, hnext, hreach⟩ :=
      retry_of_eq hdecisive hb h.orderly names hselect hu hselect₂
    rw [hdamage] at hd
    rw [hnext] at ha
    obtain ⟨n₁, made, st₁, o, hs, hperf, hbrings⟩ :=
      ih n' hlt _ _ (h.spends hc hstep hreach.orderly) .steps
    rw [hreach.after] at hperf
    exact h.deliver_rule (o := Errand.Outcome.andThen _ o) (hstep.trans hs) (hreach.trans hbrings)
      (.retry hb hchoose hd hchoose₂ ha hperf)
  | refuse hb hselect hu hselect₂ ha =>
    obtain ⟨hchoose, hdamage, hchoose₂, hnext, hreach⟩ :=
      retry_of_eq hdecisive hb h.orderly names hselect hu hselect₂
    have hflow : (st.prospect.blamed names p.sync).flow = .recovering := Prospect.flow_blamed ..
    refine h.deliver_rule (o := st.prospect.blamed names p.sync) (hflow ▸ hstep) hreach
      (.refuse hb hchoose fun a ha₁ hd => ?_)
    rw [← hnext]
    exact ha a (hchoose₂.symm.trans ha₁) (hdamage.trans hd)

/-- Taking the token in front. -/
theorem brings_take_next (h : st.Orderly) {id : TokenId} (hid : st.next = id) (hne : id ≠ .eof)
    (names : Names) (flow : Flow) :
    ∃ t rest, st.prospect.ahead = t :: rest ∧ t.id = id ∧
      st.Brings names [(st.fill 0).takeLeaf.1] ⟨flow, [t.item], ⟨rest, false⟩, 0⟩
        (st.fill 0).takeLeaf.2 := by
  obtain ⟨t, rest, hv, ht⟩ := h.exists_ahead (hid ▸ hne)
  have hlook := ParseState.brings_fill h names 0
  have htake := ParseState.brings_takeLeaf hlook.orderly (by rw [ParseState.prospect_fill, hv])
    names flow
  exact ⟨t, rest, hv, ht.trans hid, hlook.after_look htake⟩

theorem Ready.delivers_symbol {s : Step} {rest : List Step} {follow : TokenSet} {flow : Flow}
    (h : p.Ready n ⟨.steps (s :: rest) follow flow, frames, nodes, st⟩) (hc : p.grammar.Checked)
    (hend : p.grammar.Lacks .eof) (ih : p.DeliversBelow names n) (hlt : n₁ < n)
    (hst : st₁ = st ∨ st₁ = st.fill 0)
    (he : p.Enter (.steps rest follow :: frames) nodes st₁ (followOf s follow) s.symbol m)
    (hstep : p.Spends n ⟨.steps (s :: rest) follow flow, frames, nodes, st⟩ n₁ m) :
    ∃ n₂ made st₂ o, n₂ < n ∧ p.Spends n ⟨.steps (s :: rest) follow flow, frames, nodes, st⟩ n₂
        ⟨.done o.flow, .steps rest follow :: frames, made ++ nodes, st₂⟩ ∧
      p.Performs names (.symbol s.symbol (followOf s follow)) st.prospect o ∧
      st.Brings names made o st₂ := by
  have htoken : ∀ id, s.symbol = .token id → id ≠ .eof := fun _ => h.belongs.task.id_ne hend
  have hlook : st.Brings names [] (st.prospect.idle []) st₁ := by
    rcases hst with rfl | rfl
    · exact .refl h.orderly names .proceeding
    · exact ParseState.brings_fill h.orderly names 0
  have hprospect : st₁.prospect = st.prospect := hlook.after
  rw [← hprospect]
  generalize s.symbol = symbol at he htoken
  -- A task is done below; anything else has been done in this step.
  have hbelow : ∀ {e : Errand} {st₂ : ParseState},
      st.Brings names [] (st.prospect.idle []) st₂ → m.state = st₂ →
      m.frames = .steps rest follow :: frames → m.nodes = nodes →
      m.task.Asks m.state.arena names e → ∃ n₂ made st₃ o, n₂ < n ∧
        p.Spends n ⟨.steps (s :: rest) follow flow, frames, nodes, st⟩ n₂
          ⟨.done o.flow, .steps rest follow :: frames, made ++ nodes, st₃⟩ ∧
        p.Performs names e st₁.prospect o ∧ st.Brings names made o st₃ := by
    rintro e st₂ hlook₂ rfl hframes hnodes hasks
    obtain ⟨n₂, made, st₃, o, hs, hperf, hbrings⟩ :=
      ih _ hlt m e (h.spends hc hstep hlook₂.orderly) hasks
    rw [hframes, hnodes] at hs
    rw [hlook₂.after, ← hlook.after] at hperf
    exact ⟨n₂, made, st₃, o, Nat.lt_of_le_of_lt hs.le hlt, hstep.trans hs, hperf,
      hlook₂.after_look hbrings⟩
  cases he with
  | token hid =>
    obtain ⟨t, tail, hv, ht, htake⟩ :=
      brings_take_next hlook.orderly hid (htoken _ rfl) names .proceeding
    exact ⟨n₁, _, _, _, hlt, hstep, .token hv ht, hlook.after_look htake⟩
  | @late id errors st₂ hid hu hid₁ =>
    have hblame := look_unexpected_of_eq hlook.orderly names hu
    obtain ⟨t, tail, hv, ht, htake⟩ :=
      brings_take_next hblame.orderly hid₁ (htoken _ rfl) names .proceeding
    rw [hblame.after] at hv
    exact ⟨n₁, _, _, _, hlt, hstep, .late (by rwa [ParseState.next_prospect]) hv ht,
      hlook.after_look (hblame.trans htake)⟩
  | @absent id errors st₂ hid hu hid₁ =>
    have hblame := look_unexpected_of_eq hlook.orderly names hu
    have hreach := hblame.before_look (ParseState.brings_fill hblame.orderly names 0)
    rw [← ParseState.next_prospect, hblame.after] at hid₁
    have hflow := Prospect.flow_blamed names p.sync st₁.prospect
    exact ⟨n₁, errors, _, _, hlt, hflow ▸ hstep,
      .absent (by rwa [ParseState.next_prospect]) hid₁, hlook.after_look hreach⟩
  | rule =>
    obtain ⟨n₂, made, st₂, o, hn, hs, hperf, hbrings⟩ := hbelow hlook rfl rfl rfl .rule
    exact ⟨n₂, made, st₂, o, hn, hs, .once hperf, hbrings⟩
  | opt hf =>
    have hlook₁ := hlook.after_look (by
      have := ParseState.brings_fill hlook.orderly names 0
      rwa [hprospect] at this)
    obtain ⟨n₂, made, st₂, o, hn, hs, hperf, hbrings⟩ := hbelow hlook₁ rfl rfl rfl .rule
    exact ⟨n₂, made, st₂, o, hn, hs, .opt (by rwa [ParseState.next_prospect]) hperf, hbrings⟩
  | skip hf =>
    have hlook₁ := ParseState.brings_fill hlook.orderly names 0
    exact ⟨n₁, [], _, _, hlt, hstep, .skip (by rwa [ParseState.next_prospect]),
      hlook.after_look hlook₁⟩
  | many =>
    obtain ⟨n₂, made, st₂, o, hn, hs, hperf, hbrings⟩ := hbelow hlook rfl rfl rfl .repetition
    exact ⟨n₂, made, st₂, o, hn, hs, .many hperf, hbrings⟩

theorem Ready.delivers_steps {steps : List Step} {follow : TokenSet} {flow : Flow}
    (h : p.Ready n ⟨.steps steps follow flow, frames, nodes, st⟩) (hc : p.grammar.Checked)
    (hend : p.grammar.Lacks .eof) (ih : p.DeliversBelow names n) :
    p.Delivers names n ⟨.steps steps follow flow, frames, nodes, st⟩ (.steps steps follow flow) := by
  obtain ⟨n', rfl, hstep⟩ := h.proceed (.refl ..) (Bool.and_false _)
  have hmove := step_move p ⟨.steps steps follow flow, frames, nodes, st⟩
  generalize p.step ⟨.steps steps follow flow, frames, nodes, st⟩ = m' at hmove hstep
  have hlt := Nat.lt_succ_self n'
  cases hmove with
  | finish => exact ⟨n', [], st, _, hstep, .finish, .refl h.orderly names flow⟩
  | pass hcan =>
    have hlook := ParseState.brings_fill h.orderly names 0
    obtain ⟨n₁, made, st₁, o, hs, hperf, hbrings⟩ :=
      ih n' hlt _ _ (h.spends hc hstep hlook.orderly) .steps
    rw [hlook.after] at hperf
    exact ⟨n₁, made, st₁, o, hstep.trans hs, .pass (by rwa [ParseState.next_prospect]) hperf,
      hlook.after_look hbrings⟩
  | enter hst hcan he =>
    obtain ⟨n₁, made, st₁, o, hlt₁, hs, hperf, hbrings⟩ :=
      h.delivers_symbol hc hend ih hlt hst he hstep
    obtain ⟨n₂, rfl, hs₁⟩ := h.proceed hs (halted_frame ..)
    change p.Spends _ _ n₂ ⟨.steps _ follow o.flow, frames, made ++ nodes, st₁⟩ at hs₁
    obtain ⟨n₃, made', st₂, o', hs₂, hperf', hbrings'⟩ :=
      ih n₂ (by omega) _ _ (h.spends hc hs₁ hbrings.orderly) .steps
    rw [hbrings.after] at hperf'
    refine ⟨n₃, made' ++ made, st₂, o.andThen o', ?_,
      .enter (fun hflow => by rw [ParseState.next_prospect]; exact hcan hflow) hperf hperf',
      hbrings.trans hbrings'⟩
    rw [List.append_assoc]
    exact hs₁.trans hs₂

/-- One round of a repetition: the rule is parsed, and where it took nothing, a token is put away. -/
theorem Ready.round {r : Nat} {follow : TokenSet}
    (h : p.Ready n ⟨.repetition r follow, frames, nodes, st⟩) (hc : p.grammar.Checked)
    (ih : p.DeliversBelow names n) (hn : st.next ≠ .eof)
    (hf : (p.grammar.firstOf r).contains st.next = true) :
    ∃ n₁ made st₁ o o', n₁ < n ∧ p.Spends n ⟨.repetition r follow, frames, nodes, st⟩ n₁
        ⟨.repetition r follow, frames, made ++ nodes, st₁⟩ ∧
      p.Performs names (.rule r ((p.grammar.firstOf r).union follow)) st.prospect o ∧
      (o.after.ahead.length ≠ st.prospect.ahead.length ∧ o' = o ∨
        o.after.ahead.length = st.prospect.ahead.length ∧
          o' = o.andThen (o.after.absorbed names)) ∧
      st.Brings names made o' st₁ := by
  have hround : p.step ⟨.repetition r follow, frames, nodes, st⟩
      = ⟨.rule r ((p.grammar.firstOf r).union follow), .repetition r follow st.consumed :: frames,
        nodes, st.fill 0⟩ := by
    simp only [step, enterRepetition, ParseState.id_current_fill, ParseState.consumed_fill, hn, hf,
      if_true, if_false]
  obtain ⟨n', rfl, hstep⟩ := h.proceed (.refl ..) (Bool.and_false _)
  rw [hround] at hstep
  have hlook := ParseState.brings_fill h.orderly names 0
  obtain ⟨n₁, made, st₁, o, hs, hperf, hbrings⟩ :=
    ih n' (Nat.lt_succ_self n') _ _ (h.spends hc hstep hlook.orderly) .rule
  rw [hlook.after] at hperf
  have hbrings := hlook.after_look hbrings
  obtain ⟨n₂, rfl, hs₁⟩ := h.proceed (hstep.trans hs) (halted_frame ..)
  have hle := hs.le
  -- A round has taken nothing if as many tokens are to come as before.
  have hlength : o.after.ahead.length + st₁.consumed = st.prospect.ahead.length + st.consumed := by
    have hsum := hbrings.consumed
    rw [← hbrings.after]
    simp only [ParseState.prospect, ParseState.ids, List.length_map] at hsum ⊢
    omega
  by_cases hb : st₁.consumed = st.consumed
  · have hstall : p.step ⟨.done o.flow, .repetition r follow st.consumed :: frames,
        made ++ nodes, st₁⟩
          = ⟨.repetition r follow, frames, st₁.absorb.1 ++ (made ++ nodes), st₁.absorb.2⟩ := by
      exact if_pos hb
    rw [hstall, ← List.append_assoc] at hs₁
    have habsorb := ParseState.brings_absorb hbrings.orderly names
    rw [hbrings.after] at habsorb
    exact ⟨n₂, _, _, o, _, by omega, hs₁, hperf, .inr ⟨by omega, rfl⟩, hbrings.trans habsorb⟩
  · have hagain : p.step ⟨.done o.flow, .repetition r follow st.consumed :: frames,
        made ++ nodes, st₁⟩ = ⟨.repetition r follow, frames, made ++ nodes, st₁⟩ := by
      exact if_neg hb
    rw [hagain] at hs₁
    exact ⟨n₂, made, st₁, o, o, by omega, hs₁, hperf, .inl ⟨by omega, rfl⟩, hbrings⟩

theorem Ready.delivers_repetition {r : Nat} {follow : TokenSet}
    (h : p.Ready n ⟨.repetition r follow, frames, nodes, st⟩) (hc : p.grammar.Checked)
    (ih : p.DeliversBelow names n) :
    p.Delivers names n ⟨.repetition r follow, frames, nodes, st⟩ (.repetition r follow) := by
  obtain ⟨n', rfl, hstep⟩ := h.proceed (.refl ..) (Bool.and_false _)
  have hmove := step_move p ⟨.repetition r follow, frames, nodes, st⟩
  generalize p.step ⟨.repetition r follow, frames, nodes, st⟩ = m' at hmove hstep
  have hlt := Nat.lt_succ_self n'
  have hlook := ParseState.brings_fill h.orderly names 0
  -- The rounds that are left when `made` has been brought about.
  have hrest : ∀ {n₁ made st₁} {o : Errand.Outcome}, n₁ < n' + 1 →
      p.Spends (n' + 1) ⟨.repetition r follow, frames, nodes, st⟩ n₁
        ⟨.repetition r follow, frames, made ++ nodes, st₁⟩ → st.Brings names made o st₁ →
      (∀ o', p.Performs names (.repetition r follow) o.after o' →
        p.Performs names (.repetition r follow) st.prospect (o.andThen o')) →
      p.Delivers names (n' + 1) ⟨.repetition r follow, frames, nodes, st⟩
        (.repetition r follow) := by
    intro n₁ made st₁ o hlt₁ hs hbrings hperf
    obtain ⟨n₂, made', st₂, o', hs', hperf', hbrings'⟩ :=
      ih n₁ hlt₁ _ _ (h.spends hc hs hbrings.orderly) .repetition
    rw [hbrings.after] at hperf'
    refine ⟨n₂, made' ++ made, st₂, o.andThen o', ?_, hperf o' hperf', hbrings.trans hbrings'⟩
    rw [List.append_assoc]
    exact hs.trans hs'
  cases hmove with
  | close hn =>
    exact ⟨n', [], _, _, hstep, .close (by rwa [ParseState.next_prospect]), hlook⟩
  | round hn hf =>
    obtain ⟨n₁, made, st₁, o, o', hlt₁, hs, hperf, hcase, hbrings⟩ := h.round hc ih hn hf
    rw [← ParseState.next_prospect] at hn hf
    rcases hcase with ⟨htook, rfl⟩ | ⟨hsame, rfl⟩
    · exact hrest hlt₁ hs hbrings fun o' ho' => .round hn hf hperf htook ho'
    · exact hrest hlt₁ hs hbrings fun o' ho' => .stall hn hf hperf hsame ho'
  | stray hn hf hfollow hu =>
    rw [← ParseState.next_prospect] at hn hf hfollow
    exact hrest hlt hstep (look_unexpected_of_eq h.orderly names hu)
      fun o' ho' => .stray hn hf hfollow ho'

/-- Behind an operand the parse goes on, unless tokens were skipped inside. -/
theorem Ready.deliver_behind {ctx : ExpressionContext} {node : NodeId} {item : Item} {flow : Flow}
    (h : p.Ready n m) (hc : p.grammar.Checked) (ih : p.DeliversBelow names n) (hlt : n₁ < n)
    (hbrings : m.state.Brings names [node] { o with items := [item] } st)
    (hs : p.Spends n m n₁ (leaveOperand ctx flow node m.frames m.nodes st))
    (hperf : ∀ o', p.Performs names (.behind ctx flow item) o.after o' →
      p.Performs names e m.state.prospect (o'.reported o.reports)) : p.Delivers names n m e := by
  cases flow with
  | recovering =>
    exact ⟨n₁, [node], st, Errand.Outcome.reported o.reports ⟨.recovering, [item], o.after, 0⟩, hs,
      hperf _ .abandon, hbrings.of_flow .recovering⟩
  | proceeding =>
    have hitem : st.arena.item names node = item := List.head_eq_of_cons_eq hbrings.items
    obtain ⟨n₂, made, st₁, o', hs', hperf', hbrings'⟩ := ih n₁ hlt _ _
      (h.spends hc hs hbrings.orderly) (.climb (hbrings.made_lt node List.mem_cons_self))
    have hall := hbrings.forget.trans hbrings'
    simp only [leaveOperand, hitem] at hperf' hs' hall
    rw [hbrings.after] at hperf'
    refine ⟨n₂, made, st₁, o'.reported o.reports, hs.trans hs', hperf o' (.resume hperf'), ?_⟩
    simpa [Errand.Outcome.andThen, Errand.Outcome.reported] using hall

/-- Taking the token in front before something else. -/
theorem brings_take_cons (h : st.Orderly) (hne : st.next ≠ .eof) (names : Names) :
    ∃ rest, st.prospect.ahead = (st.fill 0).current.lexeme :: rest ∧
      (st.fill 0).current.id = st.next ∧
      st.Brings names [(st.fill 0).takeLeaf.1]
        ⟨.proceeding, [(st.fill 0).current.lexeme.item], ⟨rest, false⟩, 0⟩
        (st.fill 0).takeLeaf.2 := by
  obtain ⟨t, rest, hv, ht, htake⟩ := brings_take_next h rfl hne names .proceeding
  have hcurrent : (st.fill 0).current.lexeme = t := by
    rw [ParseState.current, ParseState.fill, TokenStream.ahead_fill]
    rw [ParseState.prospect] at hv
    cases hup : st.stream.upcoming with
    | nil =>
      rw [hup] at hv
      cases hv
    | cons u ts =>
      rw [hup] at hv
      exact (List.cons.inj hv).1
  rw [← hcurrent] at hv ht htake
  exact ⟨rest, hv, ht, htake⟩

/-- The node of an operand. -/
theorem brings_operandNode (h : st.Brings names made o st₁) (r : Nat) :
    st.Brings names [(operandNode r made st₁).1] { o with items := [operandItem names r o.items] }
      (operandNode r made st₁).2 := by
  have hitems := h.items
  unfold operandNode
  split
  · next node =>
    rw [List.map_singleton] at hitems
    rw [← hitems]
    exact { h with items := rfl }
  · next nodes hne =>
    have hlook := ParseState.brings_fill h.orderly names 0
    have hnode := (h.before_look hlook).pushNode (.rule r) rfl
      (st₁.fill 0).current.position
    have hitem : operandItem names r o.items = .group names (.rule r) o.items.reverse := by
      unfold operandItem
      split
      · next item hitem =>
        rw [hitem, List.map_eq_singleton_iff] at hitems
        obtain ⟨node, hnodes, -⟩ := hitems
        exact absurd hnodes (hne node)
      · rfl
    rw [hitem]
    exact hnode

theorem Ready.delivers_expression {ctx : ExpressionContext}
    (h : p.Ready n ⟨.expression ctx, frames, nodes, st⟩) (hc : p.grammar.Checked)
    (hend : p.grammar.Lacks .eof) (ih : p.DeliversBelow names n) :
    p.Delivers names n ⟨.expression ctx, frames, nodes, st⟩ (.expression ctx) := by
  obtain ⟨n', rfl, hstep⟩ := h.proceed (.refl ..) (Bool.and_false _)
  have hmove := step_move p ⟨.expression ctx, frames, nodes, st⟩
  generalize p.step ⟨.expression ctx, frames, nodes, st⟩ = m' at hmove hstep
  have hlt := Nat.lt_succ_self n'
  cases hmove with
  | sign hop =>
    have hne : st.next ≠ .eof := h.belongs.task.sign_ne hend hop
    obtain ⟨rest, hv, ht, htake⟩ := brings_take_cons h.orderly hne names
    obtain ⟨n₁, made, st₁, o, hs, hperf, hbrings⟩ :=
      ih n' hlt _ _ (h.spends hc hstep htake.orderly) .expression
    rw [htake.after] at hperf
    obtain ⟨n₂, rfl, hs₁⟩ := h.proceed (hstep.trans hs) (halted_frame ..)
    have hle := hs.le
    have hnode := (htake.trans hbrings).pushNode
      (.unary (st.fill 0).current.id) rfl (st.fill 0).current.position
    rw [← ht] at hop
    refine h.deliver_behind hc ih (by omega) hnode hs₁ fun o' ho' => ?_
    simp only [Errand.Outcome.andThen, List.reverse_append, List.reverse_singleton, Nat.zero_add] at ho' ⊢
    exact .sign hv hop hperf ho'
  | operand hop hf =>
    have hlook := ParseState.brings_fill h.orderly names 0
    obtain ⟨n₁, made, st₁, o, hs, hperf, hbrings⟩ :=
      ih n' hlt _ _ (h.spends hc hstep hlook.orderly) .rule
    rw [hlook.after] at hperf
    obtain ⟨n₂, rfl, hs₁⟩ := h.proceed (hstep.trans hs) (halted_frame ..)
    have hle := hs.le
    have hnode := brings_operandNode (hlook.after_look hbrings) ctx.ops.operand
    rw [← ParseState.next_prospect] at hop hf
    rw [← List.append_nil made] at hnode
    exact h.deliver_behind hc ih (by omega) hnode hs₁ fun o' ho' => .operand hop hf hperf ho'
  | lack hop hf hu =>
    have hblame := look_unexpected_of_eq h.orderly names hu
    rw [← ParseState.next_prospect] at hop hf
    have hflow := Prospect.flow_blamed names p.sync st.prospect
    exact ⟨n', _, _, _, hflow ▸ hstep, .lack hop hf, hblame⟩

theorem Ready.delivers_climb {ctx : ExpressionContext} {lhs : NodeId}
    (h : p.Ready n ⟨.climb ctx lhs, frames, nodes, st⟩) (hc : p.grammar.Checked)
    (hend : p.grammar.Lacks .eof) (ih : p.DeliversBelow names n) (hlhs : lhs < st.arena.nodes.size) :
    p.Delivers names n ⟨.climb ctx lhs, frames, nodes, st⟩
      (.climb ctx (st.arena.item names lhs)) := by
  obtain ⟨n', rfl, hstep⟩ := h.proceed (.refl ..) (Bool.and_false _)
  have hmove := step_move p ⟨.climb ctx lhs, frames, nodes, st⟩
  generalize p.step ⟨.climb ctx lhs, frames, nodes, st⟩ = m' at hmove hstep
  have hlt := Nat.lt_succ_self n'
  -- The operand that is there already is brought as well, in front of what is new.
  have hheld : st.Brings names [lhs] (st.prospect.idle [st.arena.item names lhs]) st :=
    { ParseState.Brings.refl h.orderly names .proceeding with
      made_lt := fun id hid => List.mem_singleton.1 hid ▸ hlhs
      items := rfl }
  cases hmove with
  | climb hop hlevel =>
    have hne : st.next ≠ .eof := h.belongs.task.link_ne hend hop
    obtain ⟨rest, hv, ht, htake⟩ := brings_take_cons h.orderly hne names
    obtain ⟨n₁, made, st₁, o, hs, hperf, hbrings⟩ :=
      ih n' hlt _ _ (h.spends hc hstep htake.orderly) .expression
    rw [htake.after] at hperf
    obtain ⟨n₂, rfl, hs₁⟩ := h.proceed (hstep.trans hs) (halted_frame ..)
    have hle := hs.le
    have hnode := ((hheld.trans htake).trans hbrings).pushNode
      (.binary (st.fill 0).current.id) rfl (st.fill 0).current.position
    rw [← ht] at hop
    refine h.deliver_behind hc ih (by omega) hnode hs₁ fun o' ho' => ?_
    simp only [Errand.Outcome.andThen, Prospect.idle, List.reverse_append, List.reverse_singleton,
      Nat.zero_add] at ho' ⊢
    exact .climb hv hop hlevel hperf ho'
  | top hop =>
    have hlook := ParseState.brings_fill h.orderly names 0
    rw [← ParseState.next_prospect] at hop
    exact ⟨n', [lhs], _, _, hstep, .top hop, hheld.before_look hlook⟩

/-- Every task of a parse that ends is done, with the outcome of its errand. -/
theorem Ready.delivers (h : p.Ready n m) (hc : p.grammar.Checked) (hend : p.grammar.Lacks .eof)
    (hdecisive : p.grammar.Decisive) (hasks : m.task.Asks m.state.arena names e) :
    p.Delivers names n m e := by
  induction n using Nat.strongRecOn generalizing m e with
  | _ n ih =>
    have ih : p.DeliversBelow names n := fun n₁ hlt m e h hasks => ih n₁ hlt h hasks
    obtain ⟨task, frames, nodes, st⟩ := m
    cases hasks with
    | rule => exact h.delivers_rule hc hdecisive ih
    | steps => exact h.delivers_steps hc hend ih
    | repetition => exact h.delivers_repetition hc ih
    | expression => exact h.delivers_expression hc hend ih
    | climb hlhs => exact h.delivers_climb hc hend ih hlhs

/-! ## Whole parses -/

theorem orderly_start (p : Parser) (table : TokenTable) (text : List Char) (depth : Nat) :
    (p.start (.ofText table text depth)).state.Orderly where
  ends := by
    rw [ids_start]
    exact fun hmem => ne_eof_of_mem_textIds hmem rfl
  sound := Arena.sound_empty
  behind := by
    intro n hn
    cases hn

theorem filed_start (p : Parser) {table : TokenTable} {text : List Char} (depth : Nat)
    (hknown : .unknown ∉ Lexer.textIds table text) :
    (p.start (.ofText table text depth)).state.filed = [] := by
  obtain ⟨read, hadv⟩ := (TokenStream.ofText table text depth).advances_fill 0
  have hreported := hadv.reported_eq fun t ht hid => hknown (by
    rw [TokenStream.ofText, TokenStream.upcoming_ofLexer] at ht
    exact hid ▸ List.mem_map_of_mem ht)
  exact hreported

/-- The tokens of a text without their places. -/
def lexemes (table : TokenTable) (text : List Char) : List Lexeme :=
  (Lexer.tokenize table .skip text).1.toList.map Token.lexeme

theorem prospect_start (p : Parser) (table : TokenTable) (text : List Char) (depth : Nat) :
    (p.start (.ofText table text depth)).state.prospect = ⟨lexemes table text, false⟩ := by
  have hup : (p.start (.ofText table text depth)).state.stream.upcoming
      = (Lexer.ofText table .skip text).tokens :=
    (TokenStream.upcoming_fill _ 0).trans (TokenStream.upcoming_ofLexer _ _)
  rw [ParseState.prospect, hup]
  rfl

/-- At the end of the input an answer is made of the nodes and the reports that there are. -/
theorem finish_of_end (hm : m.state.Orderly) (hend : m.state.next = .eof)
    (hnodes : ∀ id ∈ m.nodes, id < m.state.arena.nodes.size) (names : Names) :
    (finish m).diagnostics.length = m.state.filed.length ∧
      (finish m).tree.branches names
        = (m.nodes.reverse.map (m.state.arena.item names)).map Item.text := by
  have hlook := ParseState.brings_fill hm names 0
  have hnone : .unknown ∉ m.state.ids := by
    have hids : m.state.ids = [] := by
      rw [← ParseState.ids_prospect, Prospect.ids, hm.next_eq_eof_iff.1 hend, List.map_nil]
    exact hids ▸ List.not_mem_nil
  unfold finish
  simp only [ParseState.id_current_fill, if_pos hend, ParseState.allReports_eq]
  refine ⟨hlook.reports hnone, ?_⟩
  exact Arena.branches_finish hm.sound _ (fun c hc => hnodes c (List.mem_reverse.1 hc)) names

/-- The answer to a text with lexemes is the outcome of the start rule, when that leaves nothing of
the text. The reports are as many if every character belongs to a lexeme. -/
theorem Answers.performs (hc : p.grammar.Checked) (hend : p.grammar.Lacks .eof)
    (hdecisive : p.grammar.Decisive) {table : TokenTable} {text : List Char} {depth : Nat}
    {q : Parse} (hq : p.Answers (.ofText table text depth) q)
    (hne : Lexer.textIds table text ≠ []) (names : Names) :
    ∃ o, p.Performs names (.rule p.grammar.start (.single .eof)) ⟨lexemes table text, false⟩ o ∧
      (o.after.ahead = [] →
        (.unknown ∉ Lexer.textIds table text → q.diagnostics.length = o.reports) ∧
        q.tree.branches names = o.items.reverse.map Item.text) := by
  obtain ⟨n, hhalted, rfl⟩ := (answers_iff ..).1 hq
  have horderly := orderly_start p table text depth
  obtain ⟨htask, hframes⟩ := task_start p depth hne
  have hready : p.Ready n (p.start (.ofText table text depth)) :=
    ⟨hhalted, belongs_start hc _, horderly⟩
  have hasks : (p.start (.ofText table text depth)).task.Asks
      (p.start (.ofText table text depth)).state.arena names
      (.rule p.grammar.start (.single .eof)) := htask ▸ .rule
  obtain ⟨n₁, made, st₁, o, ⟨k, hk, hrun⟩, hperf, hbrings⟩ :=
    hready.delivers hc hend hdecisive hasks
  rw [prospect_start] at hperf
  refine ⟨o, hperf, fun hrest => ?_⟩
  have hnodes : (p.start (.ofText table text depth)).nodes = [] := rfl
  rw [hframes, hnodes, List.append_nil] at hrun
  have hlast : p.run n (p.start (.ofText table text depth)) = ⟨.done o.flow, [], made, st₁⟩ := by
    rw [hk, run_add, hrun, run_of_halted rfl]
  have hnext : st₁.next = .eof := by
    rw [hbrings.orderly.next_eq_eof_iff, hbrings.after, hrest]
  obtain ⟨hreports, hbranches⟩ := finish_of_end (m := ⟨.done o.flow, [], made, st₁⟩)
    hbrings.orderly hnext hbrings.made_lt names
  rw [hlast, hreports, hbranches, List.map_reverse, hbrings.items]
  refine ⟨fun hknown => ?_, rfl⟩
  rw [hbrings.reports (by rwa [ids_start]), filed_start p depth hknown]
  exact Nat.zero_add _

/-- A text without tokens has an empty tree and no reports. -/
theorem Answers.of_no_tokens {table : TokenTable} {text : List Char} {depth : Nat}
    {q : Parse} (hq : p.Answers (.ofText table text depth) q)
    (hnone : Lexer.textIds table text = []) (names : Names) :
    q.diagnostics = [] ∧ q.tree.branches names = [] := by
  obtain ⟨n, hhalted, rfl⟩ := (answers_iff ..).1 hq
  have hknown : .unknown ∉ Lexer.textIds table text := hnone ▸ List.not_mem_nil
  have horderly := orderly_start p table text depth
  have hnext : (p.start (.ofText table text depth)).state.next = .eof := by
    rw [ParseState.next, ids_start, hnone]
    rfl
  have hcurrent : (p.start (.ofText table text depth)).state.current.id = .eof := by
    have hid := ParseState.id_current_fill (ParseState.ofStream (.ofText table text depth))
    rw [← ParseState.next_fill _ 0] at hid
    exact hid.trans hnext
  have hstart : p.start (.ofText table text depth)
      = ⟨.done .proceeding, [], [], (p.start (.ofText table text depth)).state⟩ :=
    congrArg (fun task => (⟨task, [], [], _⟩ : Machine)) (if_pos hcurrent)
  have hlast : p.run n (p.start (.ofText table text depth))
      = ⟨.done .proceeding, [], [], (p.start (.ofText table text depth)).state⟩ := by
    rw [run_of_halted (by rw [hstart]; rfl)]
    exact hstart
  obtain ⟨hreports, hbranches⟩ := finish_of_end (m := p.run n (p.start (.ofText table text depth)))
    (by rw [hlast]; exact horderly) (by rw [hlast]; exact hnext)
    (by rw [hlast]; exact fun _ h => absurd h List.not_mem_nil) names
  rw [hlast] at hreports hbranches ⊢
  rw [filed_start p depth hknown] at hreports
  exact ⟨List.length_eq_zero_iff.1 hreports, hbranches⟩

end Parser

end FrontEnd
