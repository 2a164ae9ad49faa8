import FrontEnd.Proofs.Parser.Layout
import FrontEnd.Proofs.Parser.Quiet
import FrontEnd.Proofs.Stream.Requests

/-!
# What has been heard of the lexer

In a text of any size the places of the tokens never go back; behind the limit of positions they are
all the same. A parser that has looked no further than the next token has heard reports only that
point at it or before it, so it does not matter where the limit is.

- `Lexer.ordered_tokens`: places never go back;
- `TokenStream.Follows.heard`: what a stream says before a second token is looked at;
- `ParseState.Attends.prompt`: **a parse that has looked at one token reports in the right order**;
- `ParseState.window`, `Parser.Move.window_le`: how many tokens are looked at.
-/

namespace FrontEnd

/-! ## Places -/

theorem Position.bounded_le {m n : Nat} (h : m ≤ n) : bounded m ≤ bounded n := by
  simp only [bounded]
  omega

theorem Position.offset_start_through (u v : List Char) :
    (start.through u v).offset = bounded (Text.size u) := by
  rw [offset_through (Nat.zero_le _)]
  exact congrArg bounded (Nat.zero_add _)

namespace Cursor

variable {text : List Char} {c c' : Cursor}

theorem offset_le_advance (c : Cursor) : c.offset ≤ c.advance.offset := by
  unfold advance
  split
  · exact Nat.le_refl _
  · exact Nat.le_add_right ..

theorem offset_le_read (before : List Char) (offset : Nat) (position : Position) (bytes : Nat)
    (rest : List Char) : offset ≤ (read before offset position bytes rest).offset := by
  induction rest generalizing before offset position bytes with
  | nil => exact Nat.le_refl _
  | cons x rest ih =>
    rw [read]
    split
    · exact Nat.le_refl _
    · exact Nat.le_trans (Nat.le_add_right ..) (ih ..)

theorem offset_le_advanceBy (c : Cursor) (bytes : Nat) : c.offset ≤ (c.advanceBy bytes).offset :=
  offset_le_read ..

/-- The place of a cursor is further on when more is read. -/
theorem Within.place_le (h : c.Within text) (h' : c'.Within text) (hle : c.offset ≤ c'.offset) :
    c.position.offset ≤ c'.position.offset := by
  rw [h.position_eq, h'.position_eq, Position.offset_start_through, Position.offset_start_through,
    ← h.offset_eq, ← h'.offset_eq]
  exact Position.bounded_le hle

end Cursor

/-- No token stands behind the end of its text. -/
theorem Token.Stands.offset_le {text : List Char} {t : Token} (h : t.Stands text) :
    t.offset ≤ (Position.start.through text []).offset := by
  obtain ⟨u, v, rfl, hplace⟩ := h
  rw [Token.offset, hplace, Position.offset_start_through, Position.offset_start_through,
    Text.size_append]
  exact Position.bounded_le (Nat.le_add_right ..)

namespace Lexer

variable {text : List Char} {l l' : Lexer} {t : Token}

/-- A token stands between the places of the lexer before it and behind it. -/
theorem offset_of_next_some (h : l.cursor.Within text) (hnext : l.next = (some t, l')) :
    l.position.offset ≤ t.offset ∧ t.offset ≤ l'.position.offset := by
  -- The cases of the lexer: the end, a character of no rule, trivia that are left out, a lexeme.
  fun_induction Lexer.next l with
  | case1 => simp at hnext
  | case2 l c rest hrest w hfound =>
    obtain ⟨ht, rfl⟩ := Prod.mk.inj hnext
    cases ht
    exact ⟨Nat.le_refl _, h.place_le h.advance (Cursor.offset_le_advance _)⟩
  | case3 l c rest hrest w m hfound after hskip ih =>
    have hskipped := h.advanceBy m.length
    obtain ⟨hle, hle'⟩ := ih hskipped hnext
    have hfirst := h.place_le hskipped (Cursor.offset_le_advanceBy ..)
    exact ⟨Nat.le_trans hfirst hle, hle'⟩
  | case4 l c rest hrest w m hfound after hskip =>
    obtain ⟨ht, rfl⟩ := Prod.mk.inj hnext
    cases ht
    exact ⟨Nat.le_refl _, h.place_le (h.advanceBy m.length) (Cursor.offset_le_advanceBy ..)⟩

/-- The places of the tokens never go back. -/
theorem ordered_tokens (h : l.cursor.Within text) :
    l.tokens.Pairwise (fun t t' => t.offset ≤ t'.offset) ∧
      ∀ t ∈ l.tokens, l.position.offset ≤ t.offset := by
  induction l using next_induction with
  | stop l l' hnext =>
    rw [tokens_of_next_none hnext]
    exact ⟨.nil, nofun⟩
  | token l t l' hnext ih =>
    obtain ⟨hle, hle'⟩ := offset_of_next_some h hnext
    obtain ⟨hordered, hbounds⟩ := ih (stands_of_next_some h hnext).1
    rw [tokens_of_next_some hnext]
    refine ⟨List.pairwise_cons.2 ⟨fun u hu => Nat.le_trans hle' (hbounds u hu), hordered⟩, ?_⟩
    refine List.forall_mem_cons.2 ⟨hle, fun u hu => ?_⟩
    exact Nat.le_trans hle (Nat.le_trans hle' (hbounds u hu))

end Lexer

/-! ## What is looked at -/

namespace TokenStream

theorem length_buffer_fill_le (s : TokenStream) (k : Nat) :
    (s.fill k).buffer.length ≤ max s.buffer.length (k + 1) := by
  unfold fill
  split
  · exact Nat.le_max_left ..
  · have hread := (Lexer.pull_spec [] (k + 1 - s.buffer.length) s.lexer).1
    simp only [hread, List.reverse_nil, List.nil_append, List.length_append, List.length_take]
    omega

theorem length_buffer_consume_le (s : TokenStream) :
    s.consume.2.buffer.length ≤ s.buffer.length - 1 := by
  have hfill := s.length_buffer_fill_le 0
  rw [consume]
  split
  · next hb => simp [hb]
  · simp only [pop, List.length_tail]
    omega

theorem length_buffer_synchronize_le (sync : TokenSet) (skipped : List Token) (s : TokenStream) :
    (s.synchronize sync skipped).2.buffer.length ≤ max s.buffer.length 1 := by
  fun_induction synchronize sync skipped s with
  | case1 skipped s hb => exact s.length_buffer_fill_le 0
  | case2 skipped s t rest hb hin => exact s.length_buffer_fill_le 0
  | case3 skipped s t rest hb hin ih =>
    have hfill := s.length_buffer_fill_le 0
    have hpop : (s.fill 0).pop.buffer.length = (s.fill 0).buffer.length - 1 := List.length_tail
    omega

/-! ## What is heard -/

variable {text : List Char} {l : TokenList} {told : List Diagnostic} {s : TokenStream}

/-- The reader of a stream who has looked at one token only has heard reports that point at it or
before it, and there is something to hear about the tokens behind it only. -/
theorem Follows.heard (h : Follows text l told s)
    (hordered : l.tokens.Pairwise fun t t' => t.offset ≤ t'.offset)
    (hbounds : ∀ t ∈ l.tokens, t.offset ≤ (Position.start.through text []).offset)
    (hbuffer : s.buffer.length ≤ 1) :
    (∀ d ∈ told ++ (s.fill 0).reported, d.offset ≤ ((s.fill 0).ahead 0).offset) ∧
      (s.fill 0).unread = s.upcoming.tail := by
  have hreported := (h.fill 0).reported
  have hlength := s.length_buffer_fill_le 0
  have hup : s.upcoming = (s.fill 0).buffer ++ (s.fill 0).unread := (s.upcoming_fill 0).symm
  have hahead := h.ahead_fill 0
  rw [TokenList.ahead, Nat.add_zero] at hahead
  -- All tokens: those that were taken, and those to come.
  have hsplit : l.tokens = l.tokens.take l.taken ++ s.upcoming := by
    rw [h.upcoming, List.take_append_drop]
  cases hcase : s.upcoming with
  | nil =>
    rw [hcase] at hup
    obtain ⟨-, hnone⟩ := List.append_eq_nil_iff.1 hup.symm
    rw [hnone, List.flatMap_nil, List.append_nil] at hreported
    have hend : l.tokens[l.taken]? = none := by
      rw [← Nat.add_zero l.taken, ← List.getElem?_drop, ← h.upcoming, hcase]
      rfl
    refine ⟨fun d hd => ?_, hnone⟩
    rw [hahead, hend, Option.getD_none, h.finish]
    obtain ⟨⟨t, ht, hoffset⟩, -⟩ := Token.mem_flatMap_complaints (hreported ▸ hd)
    exact hoffset ▸ hbounds t ht
  | cons u ts =>
    obtain ⟨rest, hb⟩ := buffer_fill_zero_cons hcase
    rw [hb, List.length_cons] at hlength
    -- Only the next token has been read, so that what was heard ends with it.
    obtain rfl : rest = [] := List.length_eq_zero_iff.1 (by omega)
    have hunread : (s.fill 0).unread = ts := by
      rw [hcase, hb] at hup
      exact (List.cons.inj hup).2.symm
    have hnext : l.tokens[l.taken]? = some u := by
      rw [← Nat.add_zero l.taken, ← List.getElem?_drop, ← h.upcoming, hcase]
      rfl
    rw [hcase] at hsplit
    rw [hunread, hsplit, List.append_cons, List.flatMap_append] at hreported
    have hheard := List.append_cancel_right hreported
    rw [hsplit, List.append_cons] at hordered
    obtain ⟨hfront, -, -⟩ := List.pairwise_append.1 hordered
    refine ⟨fun d hd => ?_, hunread⟩
    rw [hahead, hnext, Option.getD_some]
    obtain ⟨⟨t, ht, hoffset⟩, -⟩ := Token.mem_flatMap_complaints (hheard ▸ hd)
    rw [hoffset]
    rcases List.mem_append.1 ht with ht | ht
    · exact (List.pairwise_append.1 hfront).2.2 t ht u List.mem_cons_self
    · rw [List.mem_singleton.1 ht]

end TokenStream

namespace ParseState

variable {table : TokenTable} {text : List Char} {st : ParseState}

/-- The stream of the state stands in the tokens of the text. What it has said of them is filed
among the reports, or pending, or has not been taken yet. -/
def Attends (table : TokenTable) (text : List Char) (st : ParseState) : Prop :=
  ∃ taken, ∃ filed ⊆ st.reports.toList, st.stream.Follows text
    ⟨(Lexer.tokenize table .skip text).1.toList, .endOfInput (Position.start.through text []),
      taken⟩ (filed ++ st.pending)

theorem attends_ofStream (table : TokenTable) (text : List Char) (depth : Nat) :
    (ofStream (.ofText table text depth)).Attends table text :=
  ⟨0, [], List.nil_subset _, TokenStream.Follows.ofText table .skip text depth⟩

theorem Attends.report (h : st.Attends table text) (d : Diagnostic) :
    (st.report d).Attends table text := by
  obtain ⟨taken, filed, hfiled, hfollows⟩ := h
  have htold := hfollows.takeDiagnostics
  rw [List.append_assoc, TokenStream.fst_takeDiagnostics,
    ← List.takeWhile_append_dropWhile (l := st.pending ++ st.stream.reported)
      (p := fun x => decide (x.location.start.offset ≤ d.location.start.offset)),
    ← List.append_assoc] at htold
  refine ⟨taken, _, ?_, htold⟩
  rw [reports_report]
  exact List.append_subset.2 ⟨List.subset_append_of_subset_left _ hfiled,
    List.subset_append_of_subset_right _ (List.subset_append_left ..)⟩

theorem Attends.fill (h : st.Attends table text) (k : Nat) : (st.fill k).Attends table text := by
  obtain ⟨taken, filed, hfiled, hfollows⟩ := h
  exact ⟨taken, filed, hfiled, hfollows.fill k⟩

theorem Attends.takeLeaf (h : st.Attends table text) : st.takeLeaf.2.Attends table text := by
  obtain ⟨taken, filed, hfiled, hfollows⟩ := h
  have htaken := hfollows.consume
  split at htaken
  · exact ⟨taken + 1, filed, hfiled, htaken⟩
  · exact ⟨taken, filed, hfiled, htaken⟩

/-- At the end of the input all has been said, and is among the reports. -/
theorem Attends.complaints_subset (h : st.Attends table text) (hend : st.next = .eof) :
    (Lexer.ofText table .skip text).tokens.flatMap Token.complaints ⊆ st.filed := by
  obtain ⟨taken, filed, hfiled, hfollows⟩ := h
  have hreported := hfollows.reported
  have hnone : st.stream.upcoming = [] := by
    match hup : st.stream.upcoming with
    | [] => rfl
    | t :: ts =>
      have hid : t.id = .eof := by rw [next, ids, hup] at hend; exact hend
      have hmem : t ∈ (Lexer.tokenize table .skip text).1.toList := by
        refine List.mem_of_mem_drop (i := taken) ?_
        have hlist : st.stream.upcoming = List.drop taken _ := hfollows.upcoming
        rw [← hlist, hup]
        exact List.mem_cons_self
      exact absurd hid (hfollows.id_ne_eof t hmem)
  rw [TokenStream.upcoming_eq, List.append_eq_nil_iff] at hnone
  rw [hnone.2, List.flatMap_nil, List.append_nil] at hreported
  show List.flatMap _ (Lexer.tokenize table .skip text).1.toList ⊆ _
  rw [← hreported, ParseState.filed, List.append_assoc, List.append_assoc]
  exact List.append_subset.2 ⟨List.subset_append_of_subset_left _ hfiled,
    List.subset_append_right ..⟩

/-! ## How far is looked -/

/-- How many tokens have been looked at and not been taken. -/
def window (st : ParseState) : Nat := st.stream.buffer.length

/-- Where one token is looked at, a report goes behind what there is to say about it and before the
rest, also behind the limit of positions. -/
theorem Attends.prompt (h : st.Attends table text) (hwindow : st.window ≤ 1) : st.Prompt := by
  intro d hd
  obtain ⟨taken, filed, -, hfollows⟩ := h
  have hwithin := Cursor.within_ofText text
  have hstart : (Lexer.ofText table .skip text).cursor.Within text := hwithin
  obtain ⟨hheard, hunread⟩ := hfollows.heard (Lexer.ordered_tokens hstart).1
    (fun t ht => (Lexer.stands_of_mem_tokens hstart ht).offset_le) hwindow
  have hnone : ((st.fill 0).pending ++ (st.fill 0).stream.reported).dropWhile
      (fun x => decide (x.offset ≤ d.offset)) = [] := by
    refine List.dropWhile_eq_nil_iff.2 fun x hx => decide_eq_true ?_
    rw [Diagnostic.offset, Diagnostic.offset, hd]
    exact hheard x (by rw [List.append_assoc]; exact List.mem_append_right _ hx)
  rw [outstanding_report, hnone, List.nil_append]
  exact congrArg (List.flatMap Token.complaints) hunread

theorem window_fill_le (st : ParseState) (k : Nat) :
    (st.fill k).window ≤ max st.window (k + 1) := st.stream.length_buffer_fill_le k

theorem window_takeLeaf_le (st : ParseState) : st.takeLeaf.2.window ≤ st.window - 1 :=
  st.stream.length_buffer_consume_le

theorem window_absorb_le (st : ParseState) : st.absorb.2.window ≤ max st.window 1 := by
  have hfill := st.window_fill_le 0
  by_cases hend : st.next = .eof
  · rwa [absorb_of_end hend]
  · rw [absorb_of_ne hend]
    have htake := (st.fill 0).window_takeLeaf_le
    show (st.fill 0).takeLeaf.2.window ≤ _
    omega

theorem window_unexpected_le (st : ParseState) (g : Grammar) (sync expected : TokenSet) :
    (st.unexpected g sync expected).2.window ≤ max st.window 1 := by
  have hfill := st.window_fill_le 0
  rw [unexpected_eq]
  split
  · have habsorb := (st.fill 0).window_absorb_le
    omega
  · have hreport : ((st.fill 0).reportUnexpected g expected).window = (st.fill 0).window := by
      rw [reportUnexpected]
      split <;> rfl
    have hskip : (((st.fill 0).reportUnexpected g expected).skipTo sync).2.window
        ≤ max ((st.fill 0).reportUnexpected g expected).window 1 :=
      TokenStream.length_buffer_synchronize_le sync [] _
    show (((st.fill 0).reportUnexpected g expected).skipTo sync).2.window ≤ _
    omega

theorem window_missingRule_le (st : ParseState) (g : Grammar) (r : Nat) :
    (st.missingRule g r).2.window ≤ max st.window 1 := by
  have hreport : (st.missingRule g r).2.window = (st.fill 0).window := by
    show ((st.fill 0).reportMissing g r).window = _
    rw [reportMissing]
    split <;> rfl
  exact hreport ▸ st.window_fill_le 0

theorem window_matchesGuard_le (st : ParseState) (k : Nat) (guard : List TokenId) :
    (st.matchesGuard k guard).2.window ≤ max st.window (k + guard.length) := by
  induction guard generalizing st k with
  | nil => exact Nat.le_max_left ..
  | cons id guard ih =>
    have hfill := st.window_fill_le k
    have hrest := ih (st.fill k) (k + 1)
    rw [List.length_cons]
    rw [matchesGuard]
    split
    · omega
    · dsimp only
      omega

/-- Nothing is looked at behind a token that is not the first of the guard. -/
theorem window_matchesGuard_of_ne (st : ParseState) {id : TokenId} (guard : List TokenId)
    (h : st.next ≠ id) : (st.matchesGuard 0 (id :: guard)).2.window ≤ max st.window 1 := by
  have hid : ((st.fill 0).stream.ahead 0).id ≠ id := fun heq => h (st.id_current_fill ▸ heq)
  rw [matchesGuard, if_neg hid]
  exact st.window_fill_le 0

/-- Choosing by one token looks no further than guards have looked. -/
theorem window_select_le (st : ParseState) (g : Grammar) (r : Nat) (as : List Alternative) :
    (st.select g r as).2.window ≤ max (st.selectGuarded as).2.window 1 := by
  rw [select]
  rcases hs : st.selectGuarded as with ⟨_ | a, st'⟩
  · have hfill := st'.window_fill_le 0
    dsimp only
    split
    · exact hfill
    · exact hfill
    · rw [reportAmbiguous]
      split <;> exact hfill
  · exact Nat.le_max_left ..

theorem window_operandNode_le (r : Nat) (nodes : List NodeId) (st : ParseState) :
    (Parser.operandNode r nodes st).2.window ≤ max st.window 1 := by
  unfold Parser.operandNode
  split
  · exact Nat.le_max_left ..
  · exact st.window_fill_le 0

end ParseState

namespace Parser

variable {p : Parser} {table : TokenTable} {text : List Char} {depth : Nat} {w w' : Workpiece}
  {m m' : Machine} {frames : List Frame} {nodes : List NodeId} {st : ParseState}
  {follow : TokenSet} {symbol : Symbol}

/-! ## Acts and steps -/

theorem Act.attends (hact : Act w w') (h : w.state.Attends table text) :
    w'.state.Attends table text := by
  cases hact with
  | look k st loose => exact h.fill k
  | note hnotes loose =>
    obtain ⟨taken, filed, hfiled, hfollows⟩ := h
    refine ⟨taken, filed, hnotes.reports ▸ hfiled, ?_⟩
    rw [hnotes.stream, hnotes.pending]
    exact hfollows
  | report st d hplace hcode loose => exact (h.fill 0).report d
  | take st loose => exact (h.fill 0).takeLeaf
  | skip sync place st loose =>
    obtain ⟨taken, filed, hfiled, hfollows⟩ := h
    exact ⟨_, filed, hfiled, (hfollows.synchronize sync).2⟩
  | wrap kind hkind children place st before => exact h

theorem Acts.attends (hacts : Acts w w') (h : w.state.Attends table text) :
    w'.state.Attends table text :=
  hacts.invariant (I := fun w => w.state.Attends table text) (fun _ _ hact => hact.attends) h

theorem window_unexpected_of_eq {st₁ : ParseState} {errors : List NodeId} {expected : TokenSet}
    (hu : st.unexpected p.grammar p.sync expected = (errors, st₁)) :
    st₁.window ≤ max st.window 1 := by
  have hle := st.window_unexpected_le p.grammar p.sync expected
  rwa [hu] at hle

theorem Enter.window_le (h : p.Enter frames nodes st follow symbol m) :
    m.state.window ≤ max st.window 1 := by
  have hfill := st.window_fill_le 0
  cases h with
  | token _ =>
    have htake := (st.fill 0).window_takeLeaf_le
    dsimp only
    omega
  | @late _ _ st₁ _ hu _ =>
    have hskip := window_unexpected_of_eq hu
    have htake := (st₁.fill 0).window_takeLeaf_le
    have hfill₁ := st₁.window_fill_le 0
    dsimp only
    omega
  | @absent _ _ st₁ _ hu _ =>
    have hskip := window_unexpected_of_eq hu
    have hfill₁ := st₁.window_fill_le 0
    dsimp only
    omega
  | rule | many => exact Nat.le_max_left ..
  | opt _ | skip _ => exact hfill

/-- Only guards look behind the next token. -/
theorem Move.window_le (h : p.Move m m')
    (hguard : ∀ r follow as, m.task = .rule r follow → p.grammar.body r = .sequence as →
      ∀ a ∈ as, a.guard = []) : m'.state.window ≤ max m.state.window 1 := by
  -- Without guards, choosing looks at the next token only.
  have hselect : ∀ {r follow as st st₁ a}, m.task = .rule r follow →
      p.grammar.body r = .sequence as → ParseState.select p.grammar r as st = (a, st₁) →
      st₁.window ≤ max st.window 1 := by
    intro r follow as st st₁ a htask hb hs
    have hle := st.window_select_le p.grammar r as
    rw [hs, ParseState.selectGuarded_of_unguarded st (hguard r follow as htask hb)] at hle
    exact hle
  have hfill := fun st : ParseState => st.window_fill_le 0
  cases h with
  | missing _ => exact ParseState.window_missingRule_le ..
  | express _ | finish | splice _ | resume | again _ | rest => exact Nat.le_max_left ..
  | choose hb hs => exact hselect rfl hb hs
  | @retry _ _ _ _ _ st st₁ st₂ st₃ _ _ hb hs _ hu hs₂ _
  | @refuse _ _ _ _ _ st st₁ st₂ st₃ _ _ hb hs hu hs₂ _ =>
    have hfirst := hselect rfl hb hs
    have hskip := window_unexpected_of_eq hu
    have hlook := hfill st₂
    have hsecond := hselect rfl hb hs₂
    dsimp only
    omega
  | pass _ | close _ | round _ _ | operand _ _ | top _ | wrap _ => exact hfill _
  | @enter _ _ _ _ _ _ st st₁ _ hst _ he =>
    have henter := he.window_le
    have hlook := hfill st
    rcases hst with rfl | rfl
    · exact henter
    · dsimp only
      omega
  | @stray _ _ _ _ _ st st₁ _ _ _ hu | @lack _ _ _ _ st st₁ _ _ hu =>
    have hlook := hfill st
    have hskip := window_unexpected_of_eq hu
    dsimp only
    omega
  | @sign _ _ _ st _ _ | @climb _ _ _ _ st _ _ _ =>
    have hlook := hfill st
    have htake := (st.fill 0).window_takeLeaf_le
    dsimp only
    omega
  | stall _ => exact ParseState.window_absorb_le _
  | leaf =>
    rw [state_leaveOperand]
    exact ParseState.window_operandNode_le ..
  | unary | binary =>
    rw [state_leaveOperand]
    exact Nat.le_max_left ..

/-- What has been heard of the lexer in a moment of a parse. -/
theorem attends_of_reaches (hm : p.Reaches (.ofText table text depth) m) :
    m.state.Attends table text :=
  hm.preserved (.of_acts Act.attends ParseState.Attends.takeLeaf fun _ _ _ h => h)
    (ParseState.attends_ofStream table text depth)

/-- What the lexer has to say about a text is in the answer, whatever the size of the text. -/
theorem Answers.complaints_subset (hc : p.grammar.Checked) {q : Parse}
    (hq : p.Answers (.ofText table text depth) q) :
    (Lexer.ofText table .skip text).tokens.flatMap Token.complaints ⊆ q.diagnostics := by
  obtain ⟨w, hacts, hend, rfl⟩ := hq.acts hc
  have hattends := hacts.attends (ParseState.attends_ofStream table text depth)
  exact hattends.complaints_subset hend

/-- In a text with a quiet answer every character belongs to a lexeme. -/
theorem Answers.known_of_quiet (hc : p.grammar.Checked) {q : Parse}
    (hq : p.Answers (.ofText table text depth) q) (hquiet : q.diagnostics = []) :
    .unknown ∉ (lexemes table text).map Lexeme.id := by
  intro hmem
  obtain ⟨l, hl, hid⟩ := List.mem_map.1 hmem
  obtain ⟨t, ht, rfl⟩ := List.mem_map.1 hl
  have hid : t.id = .unknown := hid
  have hcomplaint : Diagnostic.unrecognizedCharacter (t.text.toList.headD default) t.position
      ∈ t.complaints := by
    rw [Token.complaints, if_pos hid]
    exact List.mem_cons_self
  have hanswer := hq.complaints_subset hc (List.mem_flatMap.2 ⟨t, ht, hcomplaint⟩)
  rw [hquiet] at hanswer
  exact absurd hanswer List.not_mem_nil

/-- The states in which a step makes reports have heard the lexer as well. -/
theorem Reports.attends (h : p.Reports m st) (hm : m.state.Attends table text) :
    st.Attends table text := by
  obtain ⟨loose, hacts⟩ := h.acts
  exact hacts.attends hm

end Parser

end FrontEnd
