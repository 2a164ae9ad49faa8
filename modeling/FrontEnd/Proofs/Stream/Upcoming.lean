import FrontEnd.Proofs.Stream.Tokens
import FrontEnd.TokenStream

/-!
# Token streams as lists

A stream with its buffer, its lexer and its mark for the end stands for one list: the tokens that
are still to come. Looking ahead leaves the list as it is, and taking tokens drops them from its
front.

- `TokenStream.upcoming`: the list;
- `TokenStream.Advances`: **what any use of a stream does to it**, with the tokens that were read
  from the lexer on the way and the reports that they gave rise to;
- `TokenStream.advances_fill`, `TokenStream.advances_consume`, `TokenStream.synchronize_spec`:
  the three uses.
-/

namespace FrontEnd

namespace TokenStream

/-- The tokens that are still to come. -/
def upcoming (s : TokenStream) : List Token :=
  s.buffer ++ if s.stop.isSome then [] else s.lexer.tokens

/-- What the lexer has reported and nobody has taken. -/
def reported (s : TokenStream) : List Diagnostic := s.lexer.log.toList

/-- `s'` is what becomes of `s` when the tokens `read` have been made and then `n` taken. -/
structure Advances (s : TokenStream) (read : List Token) (n : Nat) (s' : TokenStream) : Prop where
  table : s'.lexer.table = s.lexer.table
  le_length : n ≤ (s.buffer ++ read).length
  buffer : s'.buffer = (s.buffer ++ read).drop n
  later : ∃ later, s.upcoming = s.buffer ++ read ++ later ∧ s'.upcoming = s'.buffer ++ later
  reported : s'.reported = s.reported ++ read.flatMap Token.complaints
  consumed : s'.consumed = s.consumed + n

namespace Advances

variable {s s' s'' : TokenStream} {read read' : List Token} {n n' : Nat}

theorem refl (s : TokenStream) : s.Advances [] 0 s :=
  ⟨rfl, Nat.zero_le _, by simp, ⟨_, by rw [List.append_nil]; rfl, rfl⟩, by simp, rfl⟩

theorem trans (h : s.Advances read n s') (h' : s'.Advances read' n' s'') :
    s.Advances (read ++ read') (n + n') s'' := by
  obtain ⟨later, hs, hs'⟩ := h.later
  obtain ⟨later', hs₁, hs''⟩ := h'.later
  have hlater : later = read' ++ later' := by
    rw [hs', List.append_assoc] at hs₁
    exact List.append_cancel_left hs₁
  have hle := h.le_length
  have hle' := h'.le_length
  refine ⟨h'.table.trans h.table, ?_, ?_, ⟨later', ?_, hs''⟩, ?_, ?_⟩
  · rw [h.buffer] at hle'
    simp only [List.length_append, List.length_drop] at hle hle' ⊢
    omega
  · rw [h'.buffer, h.buffer, ← List.append_assoc, ← List.drop_drop, List.drop_append_of_le_length hle]
  · rw [hs, hlater]
    simp only [List.append_assoc]
  · rw [h'.reported, h.reported, List.flatMap_append, List.append_assoc]
  · rw [h'.consumed, h.consumed, Nat.add_assoc]

theorem upcoming (h : s.Advances read n s') : s'.upcoming = s.upcoming.drop n := by
  obtain ⟨later, hs, hs'⟩ := h.later
  rw [hs, hs', h.buffer, List.drop_append_of_le_length h.le_length]

theorem le_upcoming (h : s.Advances read n s') : n ≤ s.upcoming.length := by
  obtain ⟨later, hs, -⟩ := h.later
  have := h.le_length
  rw [hs, List.length_append]
  omega

theorem read_subset (h : s.Advances read n s') : read ⊆ s.upcoming := by
  obtain ⟨later, hs, -⟩ := h.later
  intro t ht
  rw [hs]
  simp [ht]

/-- A token in the buffer was there before or has been complained about since. -/
theorem mem_buffer (h : s.Advances read n s') {t : Token} (ht : t ∈ s'.buffer) :
    t ∈ s.buffer ∨ t.complaints ⊆ s'.reported := by
  rw [h.buffer] at ht
  rcases List.mem_append.1 (List.mem_of_mem_drop ht) with ht | ht
  · exact .inl ht
  · refine .inr fun d hd => ?_
    rw [h.reported]
    exact List.mem_append_right _ (List.mem_flatMap.2 ⟨t, ht, hd⟩)

/-- No report comes from a text without unknown tokens. -/
theorem reported_eq (h : s.Advances read n s') (hq : ∀ t ∈ s.upcoming, t.id ≠ .unknown) :
    s'.reported = s.reported := by
  have hnone : read.flatMap Token.complaints = [] := by
    refine List.flatMap_eq_nil_iff.2 fun t ht => ?_
    rw [Token.complaints, if_neg (hq t (h.read_subset ht))]
  rw [h.reported, hnone, List.append_nil]

end Advances

/-! ## Looking ahead -/

theorem advances_fill (s : TokenStream) (k : Nat) : ∃ read, s.Advances read 0 (s.fill k) := by
  unfold fill
  split
  · exact ⟨[], .refl s⟩
  · next hfill =>
    obtain ⟨hshort, hopen⟩ := not_or.1 hfill
    obtain ⟨hread, hended, -, hleft, hlog⟩ :=
      Lexer.pull_spec [] (k + 1 - s.buffer.length) s.lexer
    simp only [List.reverse_nil, List.nil_append] at hread
    refine ⟨_, Lexer.table_pull .., Nat.zero_le _, rfl, ⟨s.lexer.tokens.drop (k + 1 - s.buffer.length),
      ?_, ?_⟩, ?_, rfl⟩
    · rw [upcoming, if_neg hopen, hread, List.append_assoc, List.take_append_drop]
    · rw [upcoming]
      cases hstop : (Lexer.pull [] (k + 1 - s.buffer.length) s.lexer).2.1 with
      | true =>
        have := hended hstop
        simp [hstop, List.drop_eq_nil_of_le (Nat.le_of_lt this)]
      | false => simp [hstop, hleft]
    · show (Lexer.pull [] (k + 1 - s.buffer.length) s.lexer).2.2.log.toList = _
      rw [hlog, hread]
      rfl

@[simp] theorem upcoming_fill (s : TokenStream) (k : Nat) : (s.fill k).upcoming = s.upcoming := by
  obtain ⟨read, h⟩ := s.advances_fill k
  simpa using h.upcoming

@[simp] theorem consumed_fill (s : TokenStream) (k : Nat) : (s.fill k).consumed = s.consumed := by
  obtain ⟨read, h⟩ := s.advances_fill k
  exact h.consumed

/-- Once filled, the buffer holds all that is to come, or more than the tokens looked past. -/
theorem buffer_fill (s : TokenStream) (k : Nat) :
    (s.fill k).buffer = s.upcoming ∨ k < (s.fill k).buffer.length := by
  unfold fill
  split
  · next hfill =>
    rcases hfill with hlong | hstop
    · exact .inr hlong
    · exact .inl (by simp [upcoming, hstop])
  · next hfill =>
    obtain ⟨hshort, hopen⟩ := not_or.1 hfill
    obtain ⟨hread, -, hmore, -⟩ := Lexer.pull_spec [] (k + 1 - s.buffer.length) s.lexer
    simp only [List.reverse_nil, List.nil_append] at hread
    cases hstop : (Lexer.pull [] (k + 1 - s.buffer.length) s.lexer).2.1 with
    | true =>
      left
      have := (Lexer.pull_spec [] (k + 1 - s.buffer.length) s.lexer).2.1 hstop
      simp [upcoming, hopen, hread, List.take_of_length_le (Nat.le_of_lt this)]
    | false =>
      right
      have := hmore hstop
      simp only [hread, List.length_append, List.length_take]
      omega

/-- Filled far enough, a stream shows the token `k` places ahead, or the end of the input. -/
theorem ahead_fill (s : TokenStream) (k : Nat) :
    (s.fill k).ahead k = s.upcoming[k]?.getD (s.fill k).endToken := by
  rcases s.buffer_fill k with hall | hlong
  · rw [ahead, hall]
  · obtain ⟨read, h⟩ := s.advances_fill k
    obtain ⟨later, -, hlater⟩ := h.later
    rw [upcoming_fill] at hlater
    rw [ahead, hlater, List.getElem?_append_left hlong]

/-- After a look at the token `k` places ahead it is there, or the end of the input is known. -/
theorem ready_fill (s : TokenStream) (k : Nat) :
    k < (s.fill k).buffer.length ∨ (s.fill k).stop.isSome = true := by
  unfold fill
  split
  · next hfill => exact hfill
  · next hfill =>
    obtain ⟨hread, -, hmore, -⟩ := Lexer.pull_spec [] (k + 1 - s.buffer.length) s.lexer
    simp only [List.reverse_nil, List.nil_append] at hread
    cases hended : (Lexer.pull [] (k + 1 - s.buffer.length) s.lexer).2.1 with
    | true => exact .inr (by simp [hended])
    | false =>
      left
      have := hmore hended
      simp only [hread, List.length_append, List.length_take]
      omega

/-- A second look sees nothing new. -/
theorem fill_fill (s : TokenStream) (k : Nat) : (s.fill k).fill k = s.fill k :=
  if_pos (s.ready_fill k)

/-- At the end of the input all looks are the same. -/
theorem fill_of_upcoming_nil {s : TokenStream} (h : s.upcoming = []) (k : Nat) :
    s.fill k = s.fill 0 := by
  obtain ⟨hbuffer, hunread⟩ := List.append_eq_nil_iff.1 h
  unfold fill
  simp only [hbuffer, List.length_nil, Nat.not_lt_zero, false_or]
  split
  · rfl
  · next hstop =>
    rw [if_neg hstop] at hunread
    have hpull : ∀ n, Lexer.pull [] (n + 1 - 0) s.lexer = Lexer.pull [] 1 s.lexer := by
      intro n
      rcases hnext : s.lexer.next with ⟨_ | t, l⟩
      · simp [Lexer.pull, hnext]
      · rw [Lexer.tokens_of_next_some hnext] at hunread
        cases hunread
    rw [hpull k, hpull 0]

/-- A look further ahead does not change what comes next. -/
theorem ahead_fill_fill (s : TokenStream) (k : Nat) :
    ((s.fill k).fill 0).ahead 0 = (s.fill 0).ahead 0 := by
  cases hup : s.upcoming with
  | nil => rw [fill_of_upcoming_nil hup, fill_fill]
  | cons t ts =>
    rw [ahead_fill, ahead_fill, upcoming_fill, hup]
    rfl

/-- The stream has looked at what comes next, and this is its place. -/
structure Sees (s : TokenStream) (place : Position) : Prop where
  ready : 0 < s.buffer.length ∨ s.stop.isSome = true
  place : (s.ahead 0).position = place

theorem sees_fill (s : TokenStream) : (s.fill 0).Sees ((s.fill 0).ahead 0).position :=
  ⟨s.ready_fill 0, rfl⟩

theorem Sees.fill_eq {s : TokenStream} {place : Position} (h : s.Sees place) : s.fill 0 = s :=
  if_pos h.ready

theorem Sees.takeDiagnostics {s : TokenStream} {place : Position} (h : s.Sees place) :
    s.takeDiagnostics.2.Sees place :=
  ⟨h.ready, h.place⟩

/-! ## Taking tokens -/

theorem buffer_fill_zero_nil {s : TokenStream} (h : s.upcoming = []) : (s.fill 0).buffer = [] := by
  rcases s.buffer_fill 0 with hall | hlong
  · rw [hall, h]
  · have hup := s.upcoming_fill 0
    rw [h, upcoming] at hup
    exact (List.append_eq_nil_iff.1 hup).1

theorem buffer_fill_zero_cons {s : TokenStream} {t : Token} {ts : List Token}
    (h : s.upcoming = t :: ts) : ∃ rest, (s.fill 0).buffer = t :: rest := by
  rcases s.buffer_fill 0 with hall | hlong
  · exact ⟨ts, hall.trans h⟩
  · match hb : (s.fill 0).buffer with
    | [] => simp [hb] at hlong
    | u :: rest =>
      have hup := s.upcoming_fill 0
      rw [h, upcoming, hb, List.cons_append] at hup
      exact ⟨rest, by rw [(List.cons.inj hup).1]⟩

theorem upcoming_of_buffer_nil {s : TokenStream} (h : (s.fill 0).buffer = []) : s.upcoming = [] := by
  match hup : s.upcoming with
  | [] => rfl
  | t :: ts =>
    obtain ⟨rest, hb⟩ := buffer_fill_zero_cons hup
    rw [h] at hb
    cases hb

theorem upcoming_of_buffer_cons {s : TokenStream} {t : Token} {rest : List Token}
    (h : (s.fill 0).buffer = t :: rest) : ∃ ts, s.upcoming = t :: ts := by
  rw [← s.upcoming_fill 0, upcoming, h]
  exact ⟨_, rfl⟩

theorem advances_pop {s : TokenStream} {t : Token} {rest : List Token} (h : s.buffer = t :: rest) :
    s.Advances [] 1 s.pop := by
  refine ⟨rfl, by simp [h], by simp [pop], ⟨if s.stop.isSome then [] else s.lexer.tokens, ?_, ?_⟩,
    by simp [reported, pop], rfl⟩
  · rw [upcoming, List.append_nil]
  · rfl

theorem consume_of_nil {s : TokenStream} (h : s.upcoming = []) :
    s.consume = ((s.fill 0).endToken, s.fill 0) := by
  rw [consume, buffer_fill_zero_nil h]

theorem consume_of_cons {s : TokenStream} {t : Token} {ts : List Token} (h : s.upcoming = t :: ts) :
    s.consume = (t, (s.fill 0).pop) := by
  obtain ⟨rest, hb⟩ := buffer_fill_zero_cons h
  rw [consume, hb]

/-- Taking the next token takes one, unless none is left. -/
theorem advances_consume (s : TokenStream) :
    ∃ read, s.Advances read (min 1 s.upcoming.length) s.consume.2 := by
  obtain ⟨read, hfill⟩ := s.advances_fill 0
  match h : s.upcoming with
  | [] =>
    rw [consume_of_nil h]
    exact ⟨read, hfill⟩
  | t :: ts =>
    obtain ⟨rest, hb⟩ := buffer_fill_zero_cons h
    rw [consume_of_cons h]
    refine ⟨read ++ [], ?_⟩
    have hn : min 1 (t :: ts).length = 0 + 1 := by simp
    rw [hn]
    exact hfill.trans (advances_pop hb)

section Keeps

variable {P : TokenStream → Prop} {s : TokenStream}

/-- What looking ahead and taking the first token keep, taking the next token keeps. -/
theorem consume_keeps (hfill : ∀ s, P s → P (s.fill 0)) (hpop : ∀ s, P s → P s.pop) (h : P s) :
    P s.consume.2 := by
  rw [consume]
  split
  · exact hfill s h
  · exact hpop _ (hfill s h)

/-- And so does synchronizing. -/
theorem synchronize_keeps (hfill : ∀ s, P s → P (s.fill 0)) (hpop : ∀ s, P s → P s.pop)
    (sync : TokenSet) (skipped : List Token) (h : P s) : P (s.synchronize sync skipped).2 := by
  fun_induction synchronize sync skipped s with
  | case1 => exact hfill _ h
  | case2 => exact hfill _ h
  | case3 skipped s t rest hb hin ih => exact ih (hpop _ (hfill s h))

end Keeps

/-- Synchronizing takes the tokens before the first one of the set. -/
theorem synchronize_spec (sync : TokenSet) (skipped : List Token) (s : TokenStream) :
    (s.synchronize sync skipped).1
        = skipped.reverse ++ s.upcoming.takeWhile (fun t => !sync.contains t.id) ∧
      ∃ read, s.Advances read (s.upcoming.takeWhile fun t => !sync.contains t.id).length
        (s.synchronize sync skipped).2 := by
  fun_induction synchronize sync skipped s with
  | case1 skipped s hb =>
    obtain ⟨read, hfill⟩ := s.advances_fill 0
    rw [upcoming_of_buffer_nil hb]
    exact ⟨by simp, read, hfill⟩
  | case2 skipped s t rest hb hin =>
    obtain ⟨read, hfill⟩ := s.advances_fill 0
    obtain ⟨ts, hup⟩ := upcoming_of_buffer_cons hb
    rw [hup, List.takeWhile_cons_of_neg (by simpa using hin)]
    exact ⟨by simp, read, hfill⟩
  | case3 skipped s t rest hb hin ih =>
    obtain ⟨read, hfill⟩ := s.advances_fill 0
    obtain ⟨ts, hup⟩ := upcoming_of_buffer_cons hb
    -- The first token is skipped, and the rest of the buffer is synchronized.
    have hpop := hfill.trans (advances_pop hb)
    have hrest : (s.fill 0).pop.upcoming = ts := by
      rw [hpop.upcoming, hup]
      rfl
    obtain ⟨htaken, read', hadv⟩ := ih
    rw [hrest] at htaken hadv
    have hstep := hpop.trans hadv
    rw [Nat.zero_add, Nat.add_comm] at hstep
    rw [hup, List.takeWhile_cons_of_pos (by simpa using hin)]
    exact ⟨by rw [htaken]; simp, _, hstep⟩

/-! ## Taking reports -/

theorem fst_takeDiagnostics (s : TokenStream) : s.takeDiagnostics.1 = s.reported := rfl

@[simp] theorem reported_takeDiagnostics (s : TokenStream) : s.takeDiagnostics.2.reported = [] := rfl

@[simp] theorem upcoming_takeDiagnostics (s : TokenStream) :
    s.takeDiagnostics.2.upcoming = s.upcoming := by
  have hagree : Lexer.Agree s.takeDiagnostics.2.lexer s.lexer := ⟨rfl, rfl, rfl, rfl⟩
  show s.buffer ++ (if s.stop.isSome then [] else s.takeDiagnostics.2.lexer.tokens) = _
  rw [hagree.tokens]
  rfl

/-! ## The beginning -/

@[simp] theorem upcoming_ofLexer (l : Lexer) (depth : Nat) : (ofLexer l depth).upcoming = l.tokens := by
  simp [upcoming, ofLexer]

end TokenStream

end FrontEnd
