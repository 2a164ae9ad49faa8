import FrontEnd.Proofs.Parser.Nesting

/-!
# One turn of a loop

A repetition and the operators of an expression are loops: the machine pushes what one turn needs
and comes back to the same stack. In between the stack is deeper, and what was below is untouched.

- `Parser.Turn`: from a moment to the first one after it with the same stack;
- `Parser.Turn.pushed`: **a turn that pushes a frame ends by popping it**;
- `Parser.Turn.round_taken`: two rounds of a repetition take a token;
- `Parser.Turn.operator_taken`: a turn behind an operator takes a token.
-/

namespace FrontEnd

namespace Parser

/-- `m'` is the first moment after `m` when the stack is as it was, and it has been deeper all the
time. -/
def Turn (p : Parser) (m m' : Machine) : Prop :=
  ∃ k > 0, m' = p.run k m ∧ m'.frames = m.frames ∧
    ∀ l, 0 < l → l < k → m.frames.length < (p.run l m).frames.length

variable {p : Parser} {m m' m'' : Machine} {rank : Nat → Nat}

/-! ## The stack during a turn -/

theorem Turn.frames_eq (h : p.Turn m m') : m'.frames = m.frames := by
  obtain ⟨k, -, -, hsame, -⟩ := h
  exact hsame

/-- What has been taken stays taken. -/
theorem Turn.of_step (h : p.Turn m m') : ∃ n, (p.step m).state.Takes n m'.state := by
  obtain ⟨k, hk, rfl, -, -⟩ := h
  obtain ⟨k, rfl⟩ := Nat.exists_eq_succ_of_ne_zero (Nat.ne_of_gt hk)
  exact run_takes p k (p.step m)

/-- A step that stays above a part of the stack leaves the part as it is. -/
theorem Framing.suffix {base : List Frame} (hf : Framing m m') (h : base <:+ m.frames)
    (hlen : base.length ≤ m'.frames.length) : base <:+ m'.frames := by
  cases hf with
  | keep heq => rwa [heq]
  | push frame heq _ _ =>
    rw [heq]
    exact h.trans (List.suffix_cons ..)
  | pop frame heq =>
    rw [heq, List.suffix_cons_iff] at h
    rcases h with h | h
    · rw [h, List.length_cons] at hlen
      omega
    · exact h

/-- A turn is over at once, or its first step pushes a frame and its last step pops it. -/
theorem Turn.pushed (h : p.Turn m m') :
    m' = p.step m ∨ ∃ frame k, (p.step m).frames = frame :: m.frames ∧
      (p.run k (p.step m)).frames = frame :: m.frames ∧ m' = p.step (p.run k (p.step m)) := by
  obtain ⟨k, hk, rfl, hsame, hdeeper⟩ := h
  obtain ⟨k, rfl⟩ := Nat.exists_eq_succ_of_ne_zero (Nat.ne_of_gt hk)
  cases k with
  | zero => exact .inl rfl
  | succ k =>
    right
    have hfirst : m.frames.length < (p.step m).frames.length := hdeeper 1 Nat.one_pos (by omega)
    obtain ⟨frame, hframe⟩ : ∃ frame, (p.step m).frames = frame :: m.frames := by
      cases (step_move p m).framing with
      | keep heq => rw [heq] at hfirst; exact absurd hfirst (lt_irrefl _)
      | push frame heq _ _ => exact ⟨frame, heq⟩
      | pop frame heq => rw [heq, List.length_cons] at hfirst; omega
    -- The frame stays where it is as long as the stack is deeper than before.
    have hstays : ∀ l, l ≤ k → frame :: m.frames <:+ (p.run l (p.step m)).frames := by
      intro l hl
      induction l with
      | zero => exact hframe ▸ List.suffix_rfl
      | succ l ih =>
        have hlen : m.frames.length < (p.run (l + 1) (p.step m)).frames.length :=
          hdeeper (l + 2) (Nat.succ_pos _) (by omega)
        have hmove := step_move p (p.run l (p.step m))
        rw [← run_succ] at hmove
        exact hmove.framing.suffix (ih (by omega)) hlen
    have hlast : p.run (k + 2) m = p.step (p.run k (p.step m)) := run_succ p k (p.step m)
    refine ⟨frame, k, hframe, ?_, hlast⟩
    have hsuffix := hstays k (Nat.le_refl k)
    have hdeep := hsuffix.length_le
    have hmove := step_move p (p.run k (p.step m))
    rw [← hlast] at hmove
    cases hmove.framing with
    | keep heq => rw [← heq, hsame, List.length_cons] at hdeep; omega
    | push top heq _ _ =>
      rw [hsame] at heq
      rw [heq, List.length_cons, List.length_cons] at hdeep
      omega
    | pop top heq =>
      rw [hsame] at heq
      rw [heq] at hsuffix ⊢
      exact (hsuffix.eq_of_length rfl).symm

/-! ## Rounds of a repetition -/

/-- A frame is popped when nothing is left to be done above it. -/
theorem Move.done_of_pop (h : p.Move m m') (hlen : m'.frames.length < m.frames.length) :
    ∃ flow, m.task = .done flow := by
  cases h with
  | wrap _ | splice _ | resume | stall _ | again _ | leaf | unary | binary | rest =>
    exact ⟨_, rfl⟩
  | enter _ _ he =>
    rw [he.frames_eq] at hlen
    simp only [List.length_cons] at hlen
    omega
  | _ =>
    simp only [List.length_cons] at hlen
    omega

/-- A round that has come to its end took a token, or takes one now. -/
theorem Move.taken_of_round {r before : Nat} {follow : TokenSet} {below : List Frame}
    (hmove : p.Move m m') (h : Nested p.grammar rank m)
    (hframes : m.frames = .repetition r follow before :: below) (hsame : m'.frames = below) :
    before < m'.state.consumed := by
  obtain ⟨flow, htask⟩ := hmove.done_of_pop (by rw [hframes, hsame]; exact Nat.lt_succ_self _)
  obtain ⟨hle, -⟩ : before ≤ m.state.consumed ∧ _ := hframes ▸ h.marked
  have hround := h.rounds r follow before (hframes ▸ List.mem_cons_self)
  obtain ⟨task, frames, nodes, st⟩ := m
  dsimp only at hframes htask hle hround
  subst hframes htask
  cases hmove with
  | stall hb =>
    have hnext : st.next ≠ .eof := hround.resolve_left (by rw [hb]; exact lt_irrefl _)
    have hconsumed := (ParseState.takes_absorb hnext).1.consumed
    show before < st.absorb.2.consumed
    omega
  | again hb => exact Nat.lt_of_le_of_ne hle (Ne.symm hb)

/-- A round of a repetition that is not its last takes a token, or it is the first failure at its
place. -/
theorem Turn.round (hnested : ∀ n, Nested p.grammar rank (p.run n m)) (h : p.Turn m m')
    {r : Nat} {follow : TokenSet} (htask : m.task = .repetition r follow)
    (htask' : m'.task = .repetition r follow) :
    m.state.consumed < m'.state.consumed ∨
      m.state.consumed = m'.state.consumed ∧ m.state.atDamage = false ∧
        m'.state.atDamage = true := by
  have hsame := h.frames_eq
  rcases h.pushed with rfl | ⟨frame, k, hframe, htop, rfl⟩
  · -- The token was neither the beginning of a round nor behind the last one.
    have hmove := step_move p m
    generalize p.step m = m' at *
    obtain ⟨task, frames, nodes, st⟩ := m
    dsimp only at htask
    subst htask
    cases hmove with
    | close _ | round _ _ => cases htask'
    | @stray _ _ _ _ errors _ st₁ hn _ _ hu =>
      obtain ⟨htakes, hdamage⟩ := takes_unexpected_of_eq hu
      have hconsumed := ((st.stays_fill 0).takes htakes).consumed
      show st.consumed < st₁.consumed ∨ st.consumed = st₁.consumed ∧ _ ∧ _
      cases hd : st.atDamage with
      | false =>
        rcases Nat.eq_zero_or_pos ((st.fill 0).damageLength p.sync) with hzero | hpos
        · exact .inr ⟨by omega, rfl, hdamage⟩
        · exact .inl (by omega)
      | true =>
        rw [ParseState.damageLength, ParseState.atDamage_fill, if_pos hd,
          ParseState.next_fill, if_neg hn] at hconsumed
        exact .inl (by omega)
  · left
    have hmove := step_move p m
    have hlast := step_move p (p.run k (p.step m))
    -- The first step begins a round, and the last one comes back from it.
    have hdeep : Nested p.grammar rank (p.run k (p.step m)) := hnested (k + 1)
    generalize p.step m = m₁ at *
    obtain ⟨task, frames, nodes, st⟩ := m
    dsimp only at htask hframe htop hsame
    subst htask
    cases hmove with
    | round _ _ =>
      obtain ⟨rfl, -⟩ := List.cons.inj hframe
      exact hlast.taken_of_round hdeep htop hsame
    | close _ | stray _ _ _ _ => exact absurd hframe (List.cons_ne_self _ _).symm

/-- Two rounds of a repetition, one behind the other, take a token. -/
theorem Turn.round_taken (hnested : ∀ n, Nested p.grammar rank (p.run n m)) (h : p.Turn m m')
    (h' : p.Turn m' m'') {r : Nat} {follow : TokenSet} (htask : m.task = .repetition r follow)
    (htask' : m'.task = .repetition r follow) (htask'' : m''.task = .repetition r follow) :
    m.state.consumed < m''.state.consumed := by
  have hnested' : ∀ n, Nested p.grammar rank (p.run n m') := by
    intro n
    obtain ⟨k, -, rfl, -, -⟩ := h
    rw [← run_add]
    exact hnested (k + n)
  have hfirst := h.round hnested htask htask'
  have hsecond := h'.round hnested' htask' htask''
  rcases hfirst with hlt | ⟨heq, -, hdamage⟩
  · rcases hsecond with hlt' | ⟨heq', -, -⟩
    · exact hlt.trans hlt'
    · rwa [← heq']
  · -- The second failure at a place takes a token.
    rcases hsecond with hlt' | ⟨-, hundamaged, -⟩
    · rwa [heq]
    · rw [hundamaged] at hdamage
      cases hdamage

/-! ## Operators of an expression -/

/-- Behind an operand the expression ends, or an operator is taken. -/
theorem Turn.operator_taken (hend : p.grammar.Lacks .eof) (hbelongs : m.Belongs p.grammar)
    (h : p.Turn m m') {ctx : ExpressionContext} {lhs : NodeId} (htask : m.task = .climb ctx lhs)
    (hgoes : m'.task ≠ .done .proceeding) : m.state.consumed < m'.state.consumed := by
  obtain ⟨n, htakes⟩ := h.of_step
  have hmove := step_move p m
  have hpushed := h.pushed
  have hctx := hbelongs.task
  rw [htask] at hctx
  generalize p.step m = m₁ at *
  obtain ⟨task, frames, nodes, st⟩ := m
  dsimp only at htask hpushed
  subst htask
  cases hmove with
  | climb hop _ =>
    have hne : st.next ≠ .eof := hctx.link_ne hend hop
    have htaken := (takes_takeLeaf_fill rfl hne).1.consumed
    have hlater := htakes.consumed
    dsimp only at hlater ⊢
    omega
  | top _ =>
    rcases hpushed with rfl | ⟨frame, k, hframe, -, -⟩
    · exact absurd rfl hgoes
    · exact absurd hframe (List.cons_ne_self _ _).symm

end Parser

end FrontEnd
