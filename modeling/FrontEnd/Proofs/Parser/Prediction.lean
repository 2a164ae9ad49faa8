import FrontEnd.Proofs.Grammar.FirstSets
import FrontEnd.Proofs.Parser.Origin
import FrontEnd.Proofs.Parser.Start

/-!
# A parse without complaints is a derivation

What the task and the stack are waiting for is a sentential form. As long as nothing is reported
but ambiguities, each step expands the leftmost part of the form or takes a token off it, so that
the start rule always yields the tokens that were taken and the form behind them. The ways out that
report nothing are never used: they are open only where something was reported before.

- `Task.form`, `pending`: the form that is left;
- `Traces`: **the tokens that were taken and the form come from the start rule, and since the
  beginning of each round from the rule that is repeated**;
- `Parser.Move.tracing`: a step that reports nothing else keeps this;
- `Parser.Tracing.not_stalled`: a round that goes well takes a token.
-/

namespace FrontEnd

/-! ## What is left to be parsed -/

/-- The operators that an expression still has to expect: inside an operand they are those of the
expression around. -/
def ExpressionContext.form (ctx : ExpressionContext) : List Frame → List Part
  | .unary .. :: _ | .binary .. :: _ => []
  | _ => [.tail ctx.rule]

/-- What is left of a frame. -/
def Frame.form (below : List Frame) : Frame → List Part
  | .rule .. => []
  | .steps rest _ => rest.map fun s => s.symbol.part
  | .repetition r _ _ => [.many r]
  | .operand ctx _ | .unary ctx _ _ | .binary ctx _ _ => ctx.form below

/-- What is left of a task. -/
def Task.form (below : List Frame) : Task → List Part
  | .rule r _ => [.rule r]
  | .steps rest _ _ => rest.map fun s => s.symbol.part
  | .repetition r _ => [.many r]
  | .expression ctx => .unary ctx.rule :: ctx.form below
  | .climb ctx _ => ctx.form below
  | .done _ => []

/-- What is left of a stack. -/
def pending : List Frame → List Part
  | [] => []
  | frame :: below => frame.form below ++ pending below

/-- The frames from the rule of an expression on. -/
def home : List Frame → List Frame
  | .unary _ _ _ :: below | .binary _ _ _ :: below => home below
  | frames => frames

/-- Was nothing skipped right before? -/
def Task.Proceeds : Task → Prop
  | .done .recovering | .steps _ _ .recovering => False
  | _ => True

/-- The tokens taken, and the form, come from the start rule; the tokens taken since a round began
come from the rule that is repeated. -/
def Traces (g : Grammar) (taken : List TokenId) (form : List Part) : List Frame → Prop
  | [] => g.Yields [.rule g.start] (taken.map .token ++ form)
  | .repetition r _ before :: below =>
    before ≤ taken.length ∧ g.Yields [.rule r] ((taken.drop before).map .token ++ form) ∧
      Traces g (taken.take before) [.many r] below
  | frame :: below => Traces g taken (form ++ frame.form below) below

variable {g : Grammar} {taken more : List TokenId} {form form' : List Part} {frames : List Frame}
  {ctx : ExpressionContext}

/-- What the form yields may take its place. -/
theorem Traces.advance (h : Traces g taken form frames)
    (hyields : g.Yields form (more.map .token ++ form')) :
    Traces g (taken ++ more) form' frames := by
  have hshift : ∀ lead : List TokenId, g.Yields (lead.map Part.token ++ form)
      ((lead ++ more).map Part.token ++ form') := by
    intro lead
    rw [List.map_append, List.append_assoc]
    exact Grammar.Yields.append (.refl _) hyields
  induction frames generalizing form form' with
  | nil => exact Grammar.Yields.trans h (hshift taken)
  | cons frame below ih =>
    have hbelow : Traces g taken (form ++ frame.form below) below →
        Traces g (taken ++ more) (form' ++ frame.form below) below := by
      intro h
      have hlong : g.Yields (form ++ frame.form below)
          (more.map Part.token ++ (form' ++ frame.form below)) := by
        rw [← List.append_assoc]
        exact Grammar.Yields.append hyields (.refl _)
      refine ih h hlong fun lead => ?_
      rw [List.map_append, List.append_assoc]
      exact Grammar.Yields.append (.refl _) hlong
    cases frame with
    | repetition r follow before =>
      obtain ⟨hle, hround, hrest⟩ := h
      refine ⟨Nat.le_trans hle (by simp), ?_, ?_⟩
      · rw [List.drop_append_of_le_length hle]
        exact hround.trans (hshift _)
      · rwa [List.take_append_of_le_length hle]
    | rule _ _ _ | steps _ _ | operand _ _ | unary _ _ _ | binary _ _ _ => exact hbelow h

/-- Nothing is taken. -/
theorem Traces.expand (h : Traces g taken form frames) (hyields : g.Yields form form') :
    Traces g taken form' frames := by
  rw [← List.append_nil taken]
  exact h.advance hyields

/-- All in all the start rule yields what was taken and what is left. -/
theorem Traces.yields (h : Traces g taken form frames) :
    g.Yields [.rule g.start] (taken.map .token ++ (form ++ pending frames)) := by
  induction frames generalizing taken form with
  | nil => simpa [pending, Traces] using h
  | cons frame below ih =>
    cases frame with
    | repetition r follow before =>
      obtain ⟨hle, hround, hrest⟩ := h
      -- The round that is being parsed began behind the tokens that the frame remembers.
      have hall := ih (hrest.expand (.of_many g r []))
      have hrule := hround.around ((taken.take before).map .token) ([.many r] ++ pending below)
      have hsplit : taken.map Part.token
          = (taken.take before).map .token ++ (taken.drop before).map .token := by
        rw [← List.map_append, List.take_append_drop]
      refine Grammar.Yields.trans hall ?_
      rw [hsplit]
      simpa only [pending, Frame.form, List.append_assoc, List.cons_append, List.nil_append]
        using hrule
    | rule _ _ _ | steps _ _ | operand _ _ | unary _ _ _ | binary _ _ _ =>
      have hall := ih h
      rwa [List.append_assoc] at hall

/-! ## Expressions -/

/-- The operators that are expected are those of the expression rule, wherever inside the
expression the parse is. -/
theorem traces_home (form : List Part) (hctx : ctx.Belongs g frames) (hframes : Belong g frames) :
    Traces g taken (form ++ ctx.form frames) frames ↔
      Traces g taken (form ++ [.tail ctx.rule]) (home frames) := by
  induction frames generalizing ctx with
  | nil => exact hctx.2.elim
  | cons frame below ih =>
    obtain ⟨hb, hfits⟩ := hctx
    cases frame with
    | unary outer _ _ | binary outer _ _ =>
      have hrest := ih hframes.1 hframes.2
      rw [hfits.1] at hrest
      simpa [ExpressionContext.form, Traces, Frame.form, home] using hrest
    | rule _ _ _ => rfl
    | steps _ _ | repetition _ _ _ | operand _ _ => exact hfits.elim

theorem pending_home (hctx : ctx.Belongs g frames) (hframes : Belong g frames) :
    ctx.form frames ++ pending frames = .tail ctx.rule :: pending (home frames) := by
  induction frames generalizing ctx with
  | nil => exact hctx.2.elim
  | cons frame below ih =>
    obtain ⟨hb, hfits⟩ := hctx
    cases frame with
    | unary outer _ _ | binary outer _ _ =>
      have hrest := ih hframes.1 hframes.2
      rw [hfits.1] at hrest
      simpa [ExpressionContext.form, Frame.form, pending, home] using hrest
    | rule _ _ _ => rfl
    | steps _ _ | repetition _ _ _ | operand _ _ => exact hfits.elim

theorem Operators.mem_signs {ops : Operators} {t : TokenId} {level : Fin 256}
    (h : ops.prefixPrecedence? t = some level) : t ∈ ops.signs := by
  rw [prefixPrecedence?, Option.map_eq_some_iff] at h
  obtain ⟨op, hop, -⟩ := h
  have htoken := List.find?_some hop
  rw [beq_iff_eq] at htoken
  rw [signs, List.mem_dedup, ← htoken]
  exact List.mem_map_of_mem (List.mem_of_find?_eq_some hop)

theorem Operators.not_mem_signs {ops : Operators} {t : TokenId}
    (h : ops.prefixPrecedence? t = none) : t ∉ ops.signs := by
  intro ht
  rw [signs, List.mem_dedup, List.mem_map] at ht
  obtain ⟨op, hop, rfl⟩ := ht
  rw [prefixPrecedence?, Option.map_eq_none_iff] at h
  exact List.find?_eq_none.1 h op hop (beq_self_eq_true _)

theorem Operators.exists_binary {ops : Operators} {t : TokenId} (h : t ∈ ops.links) :
    ∃ op, ops.binary? t = some op := by
  rw [links, List.mem_dedup, List.mem_map] at h
  obtain ⟨op, hop, rfl⟩ := h
  exact Option.isSome_iff_exists.1 (List.find?_isSome.2 ⟨op, hop, beq_self_eq_true _⟩)

theorem Operators.mem_links {ops : Operators} {t : TokenId} {op : BinaryOperator}
    (h : ops.binary? t = some op) : t ∈ ops.links := by
  have htoken := List.find?_some h
  rw [beq_iff_eq] at htoken
  rw [links, List.mem_dedup, ← htoken]
  exact List.mem_map_of_mem (List.mem_of_find?_eq_some h)

/-- A token that the grammar lacks is no sign of an expression. -/
theorem ExpressionContext.Belongs.sign_ne {t id : TokenId} {level : Fin 256}
    (hctx : ctx.Belongs g frames) (hlacks : g.Lacks t)
    (hop : ctx.ops.prefixPrecedence? id = some level) : id ≠ t :=
  fun heq => (hlacks.2 _ _ hctx.1).1 (heq ▸ Operators.mem_signs hop)

/-- A token that the grammar lacks is no operator between operands. -/
theorem ExpressionContext.Belongs.link_ne {t id : TokenId} {op : BinaryOperator}
    (hctx : ctx.Belongs g frames) (hlacks : g.Lacks t) (hop : ctx.ops.binary? id = some op) :
    id ≠ t :=
  fun heq => (hlacks.2 _ _ hctx.1).2 (heq ▸ Operators.mem_links hop)

/-- Directly in its rule an expression takes every operator. -/
theorem not_mem_links_of_top {t : TokenId} (hlevel : ctx.level = 0)
    (hop : ∀ op, ctx.ops.binary? t = some op → op.precedence.val < ctx.level) :
    t ∉ ctx.ops.links := by
  intro ht
  obtain ⟨op, hbinary⟩ := Operators.exists_binary ht
  have hlt := hop op hbinary
  rw [hlevel] at hlt
  exact Nat.not_lt_zero _ hlt

/-! ## Clean parses -/

/-- Nothing was reported but ambiguities. -/
def ParseState.Clean (st : ParseState) : Prop := ∀ d ∈ st.filed, d.code = .ambiguousRule

theorem ParseState.Clean.of_takes {st st' : ParseState} {n : Nat} (h : st'.Clean)
    (ht : st.Takes n st') : st.Clean :=
  fun d hd => h d (ht.filed hd)

namespace Parser

/-- The machine has taken the first tokens of the input, and what it is waiting for completes a
derivation. -/
structure Tracing (p : Parser) (input : List TokenId) (m : Machine) : Prop where
  belongs : m.Belongs p.grammar
  honest : m.state.Honest
  recoveredAt : m.state.recoveredAt = none
  proceeds : m.task.Proceeds
  le_length : m.state.consumed ≤ input.length
  ids : m.state.ids = input.drop m.state.consumed
  traces : Traces p.grammar (input.take m.state.consumed) (m.task.form m.frames) m.frames

variable {p : Parser} {m m' : Machine} {input : List TokenId} {st st₁ st₂ : ParseState} {n : Nat}

/-- What a step into a clean moment keeps, a run into a clean moment keeps: reports are never taken
back, so that all its moments are clean. -/
theorem run_invariant_of_clean {I : Machine → Prop}
    (hstep : ∀ m m', p.Move m m' → I m → m'.state.Clean → I m') (hm : I m) (n : Nat)
    (hclean : (p.run n m).state.Clean) : I (p.run n m) := by
  induction n with
  | zero => exact hm
  | succ n ih =>
    have hmove := step_move p (p.run n m)
    rw [← run_succ] at hmove
    obtain ⟨k, htakes⟩ := hmove.takes
    exact hstep _ _ hmove (ih (hclean.of_takes htakes)) hclean

theorem not_clean_of_unexpected {errors : List NodeId} {expected : TokenSet} (hh : st.Honest)
    (hr : st.recoveredAt = none)
    (hu : st.unexpected p.grammar p.sync expected = (errors, st₁)) : ¬ st₁.Clean := by
  intro hclean
  have hdamage : st.atDamage = false := by
    rw [ParseState.atDamage, hr]
    rfl
  have hfiled := ParseState.exists_filed_of_unexpected p.grammar p.sync expected hh hdamage
  rw [hu] at hfiled
  obtain ⟨d, hd, hcode⟩ := hfiled
  exact hcode (hclean d hd)

/-- What has to be shown of a step. -/
theorem Tracing.next (h : p.Tracing input m) (hc : p.grammar.Checked) (hmove : p.Move m m')
    (htakes : m.state.Takes n m'.state) (hrecovered : m'.state.recoveredAt = m.state.recoveredAt)
    (hproceeds : m'.task.Proceeds)
    (htraces : Traces p.grammar (input.take m.state.consumed ++ m.state.ids.take n)
      (m'.task.form m'.frames) m'.frames) : p.Tracing input m' where
  belongs := hmove.belongs hc h.belongs
  honest := htakes.honest h.honest
  recoveredAt := hrecovered.trans h.recoveredAt
  proceeds := hproceeds
  le_length := by
    have hle := htakes.le_length
    have hlen := h.le_length
    rw [h.ids, List.length_drop] at hle
    rw [htakes.consumed]
    omega
  ids := by rw [htakes.ids, h.ids, htakes.consumed, List.drop_drop]
  traces := by rwa [htakes.consumed, List.take_add, ← h.ids]

theorem Tracing.stay (h : p.Tracing input m) (hc : p.grammar.Checked) (hmove : p.Move m m')
    (hstays : m.state.Stays m'.state) (hproceeds : m'.task.Proceeds)
    (htraces : Traces p.grammar (input.take m.state.consumed) (m'.task.form m'.frames)
      m'.frames) : p.Tracing input m' := by
  refine h.next hc hmove hstays.toTakes hstays.recoveredAt hproceeds ?_
  rwa [List.take_zero, List.append_nil]

/-- Taking the next token, which is not the end. -/
theorem takes_takeLeaf_fill {t : TokenId} (ht : st.next = t) (hne : t ≠ .eof) :
    st.Takes 1 (st.fill 0).takeLeaf.2 ∧ st.ids.take 1 = [t] ∧
      (st.fill 0).takeLeaf.2.recoveredAt = st.recoveredAt := by
  have htakes := (st.stays_fill 0).takes (st.fill 0).takes_takeLeaf
  rw [ParseState.ids_fill] at htakes
  rw [ParseState.next] at ht
  cases hids : st.ids with
  | nil =>
    rw [hids] at ht
    exact absurd ht.symm hne
  | cons id rest =>
    rw [hids] at ht htakes
    have hmin : min 1 (id :: rest).length = 1 := by simp
    rw [hmin] at htakes
    exact ⟨htakes, by rw [← ht]; rfl, rfl⟩

/-- Steps without a trace of the token that ends the input. -/
theorem Enter.tracing (hc : p.grammar.Checked) {frames : List Frame} {nodes : List NodeId}
    {follow : TokenSet} {flow : Flow} {s : Step} {rest : List Step}
    (hend : s.symbol ≠ .token .eof)
    (h : p.Tracing input ⟨.steps (s :: rest) follow flow, frames, nodes, st⟩)
    (hst : st₁ = st ∨ st₁ = st.fill 0)
    (he : p.Enter (.steps rest follow :: frames) nodes st₁ (followOf s follow) s.symbol m)
    (hmove : p.Move ⟨.steps (s :: rest) follow flow, frames, nodes, st⟩ m)
    (hclean : m.state.Clean) : p.Tracing input m := by
  have hstays := stays_of_filled hst
  have htraces := h.traces
  -- A failure leaves a report, so that the steps with one do not count.
  have hdamage : ∀ {errors : List NodeId} {id : TokenId} {st₂ st₃ : ParseState} {n : Nat},
      (st₁.fill 0).unexpected p.grammar p.sync (.single id) = (errors, st₂) →
      st₂.Takes n st₃ → ¬ st₃.Clean := by
    intro errors id st₂ st₃ n hu htakes hclean
    have hfill := hstays.trans (st₁.stays_fill 0)
    refine not_clean_of_unexpected (hfill.honest h.honest) ?_ hu (hclean.of_takes htakes)
    exact hfill.recoveredAt.trans h.recoveredAt
  generalize hsymbol : s.symbol = symbol at he hend
  cases he with
  | token hid =>
    rename_i id
    have hne : id ≠ .eof := fun heq => hend (heq ▸ rfl)
    obtain ⟨htakes, hids, hrecovered⟩ := takes_takeLeaf_fill hid hne
    refine h.next hc hmove (hstays.takes htakes) (hrecovered.trans hstays.recoveredAt) trivial ?_
    refine htraces.advance ?_
    rw [← hstays.ids_eq, hids]
    simp only [Task.form, List.map_cons, hsymbol, Symbol.part]
    exact .refl _
  | late _ hu _ =>
    exact absurd hclean
      (hdamage hu ((ParseState.stays_fill _ 0).takes (ParseState.takes_takeLeaf _)))
  | absent _ hu _ => exact absurd hclean (hdamage hu (ParseState.stays_fill _ 0).toTakes)
  | rule =>
    refine h.stay hc hmove hstays trivial (htraces.expand ?_)
    simp only [Task.form, List.map_cons, hsymbol, Symbol.part]
    exact .refl _
  | opt _ =>
    refine h.stay hc hmove (hstays.trans (st₁.stays_fill 0)) trivial (htraces.expand ?_)
    simp only [Task.form, List.map_cons, hsymbol, Symbol.part]
    exact Grammar.Yields.of_opt ..
  | skip _ =>
    refine h.stay hc hmove (hstays.trans (st₁.stays_fill 0)) trivial (htraces.expand ?_)
    simp only [Task.form, List.map_cons, hsymbol, Symbol.part]
    exact Grammar.Yields.of_no_opt ..
  | many =>
    refine h.stay hc hmove hstays trivial (htraces.expand ?_)
    simp only [Task.form, List.map_cons, hsymbol, Symbol.part]
    exact .refl _

theorem tracing_leaveOperand {ctx : ExpressionContext} {node : NodeId} {frame : Frame}
    {frames : List Frame} {flow : Flow} {nodes outer : List NodeId} (hc : p.grammar.Checked)
    (h : p.Tracing input ⟨.done flow, frame :: frames, nodes, st⟩)
    (hframe : frame.form frames = ctx.form frames)
    (hmove : p.Move ⟨.done flow, frame :: frames, nodes, st⟩
      (leaveOperand ctx flow node frames outer st₁))
    (hplain : ∀ r follow before, frame ≠ .repetition r follow before) (hstays : st.Stays st₁) :
    p.Tracing input (leaveOperand ctx flow node frames outer st₁) := by
  have htraces := h.traces
  have hproceeds := h.proceeds
  cases flow with
  | recovering => exact hproceeds.elim
  | proceeding =>
    refine h.stay hc hmove hstays trivial ?_
    have hbelow : Traces p.grammar (input.take st.consumed) ([] ++ frame.form frames) frames := by
      cases frame with
      | repetition r follow before => exact absurd rfl (hplain r follow before)
      | rule _ _ _ | steps _ _ | operand _ _ | unary _ _ _ | binary _ _ _ => exact htraces
    rwa [List.nil_append, hframe] at hbelow

/-- A round that took nothing would have made the rule that is repeated empty. -/
theorem Tracing.not_stalled (hc : p.grammar.Checked) {r before : Nat} {follow : TokenSet}
    {frames : List Frame} {flow : Flow} {nodes : List NodeId}
    (h : p.Tracing input ⟨.done flow, .repetition r follow before :: frames, nodes, st⟩) :
    st.consumed ≠ before := by
  intro hb
  obtain ⟨-, hround, -⟩ := h.traces
  have hnone : (input.take st.consumed).drop before = [] := by
    rw [hb, List.drop_eq_nil_iff]
    exact List.length_take_le _ _
  rw [hnone] at hround
  have hblank : [Part.rule r].all p.grammar.blank = true := hc.empties_iff.1 hround
  have hsolid := h.belongs.frames.1.solid hc
  simp only [List.all_cons, List.all_nil, Bool.and_true, Grammar.blank] at hblank
  rw [hsolid] at hblank
  cases hblank

theorem Move.tracing (hc : p.grammar.Checked) (hend : p.grammar.Lacks .eof) (hmove : p.Move m m')
    (h : p.Tracing input m) (hclean : m'.state.Clean) : p.Tracing input m' := by
  have htraces := h.traces
  have hhonest := h.honest
  have hrecovered := h.recoveredAt
  have htask := h.belongs.task
  have hframes := h.belongs.frames
  have hproceeds := h.proceeds
  cases hmove with
  | @missing r follow frames nodes st hb =>
    obtain ⟨d, hd, hcode⟩ := ParseState.exists_filed_of_missingRule (g := p.grammar) (r := r) hhonest
    exact absurd (hclean d hd) hcode
  | express hb =>
    refine h.stay hc (.express hb) (.refl _) trivial (htraces.expand ?_)
    exact Grammar.Yields.of_expression hb []
  | @choose r follow frames nodes st st₁ as a hb hs =>
    refine h.stay hc (.choose hb hs) (stays_select_of_eq hs) trivial (htraces.expand ?_)
    have ha := ParseState.mem_of_choose
      ((ParseState.fst_select ..).symm.trans (congrArg Prod.fst hs))
    have hsymbols := hc.map_symbol_steps hb ha
    have hyields := Grammar.Yields.of_rule hb ha []
    rw [← hsymbols, List.map_map] at hyields
    exact hyields
  | retry _ hs _ hu hs₂ _ | refuse _ hs hu hs₂ _ =>
    -- What the failure reports is in the last state, which is clean.
    have hstays := stays_select_of_eq hs
    have htail := (ParseState.stays_fill _ 0).trans (stays_select_of_eq hs₂)
    have hu' := not_clean_of_unexpected (hstays.honest hhonest)
      (hstays.recoveredAt.trans hrecovered) hu
    exact absurd (hclean.of_takes htail.toTakes) hu'
  | finish =>
    rename_i flow _ _ _
    cases flow with
    | recovering => exact hproceeds.elim
    | proceeding => exact h.stay hc .finish (.refl _) trivial htraces
  | pass _ => exact hproceeds.elim
  | enter hst hcan he =>
    refine he.tracing hc (fun heq => htask.id_ne hend heq rfl) h hst
      (.enter hst hcan he) hclean
  | close hn =>
    refine h.stay hc (.close hn) (ParseState.stays_fill _ 0) trivial (htraces.expand ?_)
    exact Grammar.Yields.of_no_many ..
  | @round r follow frames nodes st hn hf =>
    refine h.stay hc (.round hn hf) (ParseState.stays_fill _ 0) trivial ?_
    have hlen : (input.take st.consumed).length = st.consumed :=
      List.length_take_of_le h.le_length
    -- A new round has taken nothing yet.
    refine ⟨Nat.le_of_eq hlen.symm, ?_, ?_⟩
    · rw [List.drop_of_length_le (Nat.le_of_eq hlen)]
      exact .refl _
    · rwa [List.take_of_length_le (Nat.le_of_eq hlen)]
  | stray _ _ _ hu | lack _ _ hu =>
    exact absurd hclean (not_clean_of_unexpected ((ParseState.stays_fill _ 0).honest hhonest)
      ((ParseState.stays_fill _ 0).recoveredAt.trans hrecovered) hu)
  | @sign ctx frames nodes st level hop =>
    have ht := Operators.mem_signs hop
    obtain ⟨htakes, hids, hrec⟩ := takes_takeLeaf_fill rfl (htask.sign_ne hend hop)
    refine h.next hc (.sign hop) htakes hrec trivial (htraces.advance ?_)
    rw [hids]
    exact Grammar.Yields.of_sign htask.1 ht _
  | operand hop hf =>
    refine h.stay hc (.operand hop hf) (ParseState.stays_fill _ 0) trivial (htraces.expand ?_)
    exact Grammar.Yields.of_operand htask.1 _
  | @climb ctx lhs frames nodes st op hop hlevel =>
    have ht := Operators.mem_links hop
    obtain ⟨htakes, hids, hrec⟩ := takes_takeLeaf_fill rfl (htask.link_ne hend hop)
    refine h.next hc (.climb hop hlevel) htakes hrec trivial ?_
    rw [hids]
    -- The frames of operators in between expect nothing of their own.
    have hhome := (traces_home [] htask hframes).1 htraces
    refine (traces_home [.unary ctx.rule] htask hframes).2 (hhome.advance ?_)
    exact Grammar.Yields.of_link htask.1 ht []
  | @top ctx lhs frames nodes st hop =>
    refine h.stay hc (.top hop) (ParseState.stays_fill _ 0) trivial (htraces.expand ?_)
    cases frames with
    | nil => exact Grammar.Yields.of_no_link htask.1 []
    | cons frame below =>
      cases frame with
      | unary _ _ _ | binary _ _ _ => exact .refl _
      | rule _ _ _ | steps _ _ | repetition _ _ _ | operand _ _ =>
        exact Grammar.Yields.of_no_link htask.1 []
  | wrap hnode =>
    exact h.stay hc (.wrap hnode)
      ((ParseState.stays_fill _ 0).trans (ParseState.stays_pushNode ..)) hproceeds htraces
  | splice hnode => exact h.stay hc (.splice hnode) (.refl _) hproceeds htraces
  | resume =>
    rename_i flow _ _ _
    cases flow with
    | recovering => exact hproceeds.elim
    | proceeding => exact h.stay hc .resume (.refl _) trivial htraces
  | stall hb => exact absurd hb (h.not_stalled hc)
  | @again r before follow flow frames nodes st hb =>
    obtain ⟨hle, hround, hrest⟩ := htraces
    refine h.stay hc (.again hb) (.refl _) trivial ?_
    -- The round that is over joins those before it.
    rw [← List.take_append_drop before (input.take st.consumed)]
    refine hrest.advance ?_
    simp only [Task.form, List.append_nil] at hround
    exact (Grammar.Yields.of_many p.grammar r []).trans (hround.append (.refl [.many r]))
  | leaf => exact tracing_leaveOperand hc h rfl .leaf (fun _ _ _ => nofun) (stays_operandNode ..)
  | unary =>
    exact tracing_leaveOperand hc h rfl .unary (fun _ _ _ => nofun) (ParseState.stays_pushNode ..)
  | binary =>
    exact tracing_leaveOperand hc h rfl .binary (fun _ _ _ => nofun) (ParseState.stays_pushNode ..)
  | rest => exact h

/-! ## The first moment -/

theorem tracing_start {table : TokenTable} {text : List Char} {depth : Nat} (hc : p.grammar.Checked)
    (hne : Lexer.textIds table text ≠ []) :
    p.Tracing (Lexer.textIds table text) (p.start (.ofText table text depth)) := by
  obtain ⟨htask, hframes⟩ := task_start p depth hne
  have hconsumed := consumed_start p table text depth
  refine ⟨belongs_start hc _, honest_start .., rfl, ?_, ?_, ?_, ?_⟩
  · rw [htask]
    trivial
  · rw [hconsumed]
    exact Nat.zero_le _
  · rw [hconsumed]
    exact ids_start ..
  · rw [hconsumed, htask, hframes]
    exact .refl _

end Parser

end FrontEnd
