import FrontEnd.Proofs.Source.Places
import FrontEnd.Proofs.Stream.Offsets

/-!
# A stream serves requests like a list

A reader asks a stream for tokens ahead, takes them and collects reports, in any order. All answers
but the reports are those of the list of all tokens with a mark behind the ones that were taken:
neither the depth of the stream nor what was looked at before is seen in them.

- `TokenStream.Request`, `TokenStream.Answer`: what is asked, and what is answered;
- `TokenList.serve`: the answers of a list;
- `TokenStream.Follows`: **the stream stands in the list, and its reports are not lost**;
- `TokenStream.Follows.serve`, `TokenStream.Follows.answers`: one request, and any number of them;
- `TokenStream.refines_list`: a stream refines the list of its tokens.
-/

namespace FrontEnd

namespace TokenStream

/-! ## Requests -/

/-- What a reader asks of a stream. -/
inductive Request where
  | peek (k : Nat)
  | peekId (k : Nat)
  | consume
  /-- How many tokens were taken? -/
  | consumed
  | atEnd
  | synchronize (sync : TokenSet)
  | takeDiagnostics

/-- What a reader is told. -/
inductive Answer where
  | token (t : Token)
  | id (id : TokenId)
  | count (n : Nat)
  | flag (b : Bool)
  | tokens (ts : List Token)
  | reports (ds : List Diagnostic)

/-- The reports in an answer. -/
def Answer.reported : Answer → List Diagnostic
  | reports ds => ds
  | _ => []

/-- The answer without the reports in it. -/
def Answer.quiet : Answer → Answer
  | reports _ => reports []
  | answer => answer

/-- Does the request take tokens? -/
def Request.takes : Request → Bool
  | consume | synchronize _ => true
  | _ => false

namespace Request

variable {σ : Type}

/-- The answers to one request after the other. -/
def answers (serve : σ → Request → Answer × σ) (s : σ) : List Request → List Answer
  | [] => []
  | r :: rs => (serve s r).1 :: answers serve (serve s r).2 rs

/-- What has become of the server after the requests. -/
def after (serve : σ → Request → Answer × σ) (s : σ) (rs : List Request) : σ :=
  rs.foldl (fun s r => (serve s r).2) s

end Request

/-- What a stream answers. -/
def serve (s : TokenStream) : Request → Answer × TokenStream
  | .peek k => (.token (s.peek k).1, (s.peek k).2)
  | .peekId k => (.id (s.peek k).1.id, (s.peek k).2)
  | .consume => (.token s.consume.1, s.consume.2)
  | .consumed => (.count s.consumed, s)
  | .atEnd => (.flag s.atEnd.1, s.atEnd.2)
  | .synchronize sync => (.tokens (s.synchronize sync []).1, (s.synchronize sync []).2)
  | .takeDiagnostics => (.reports s.takeDiagnostics.1, s.takeDiagnostics.2)

end TokenStream

open TokenStream (Request Answer)

/-- A list of tokens of which the first ones are taken, and what stands behind the last one. -/
structure TokenList where
  tokens : List Token
  finish : Token
  taken : Nat

namespace TokenList

/-- The token `k` places ahead of those that are taken, or what stands behind the last one. -/
def ahead (l : TokenList) (k : Nat) : Token := l.tokens[l.taken + k]?.getD l.finish

/-- The longest run of next tokens outside the set. -/
def outside (l : TokenList) (sync : TokenSet) : List Token :=
  (l.tokens.drop l.taken).takeWhile fun t => !sync.contains t.id

/-- Takes `n` tokens. -/
def take (l : TokenList) (n : Nat) : TokenList := { l with taken := l.taken + n }

/-- What a list answers. It has no reports. -/
def serve (l : TokenList) : Request → Answer × TokenList
  | .peek k => (.token (l.ahead k), l)
  | .peekId k => (.id (l.ahead k).id, l)
  | .consume => (.token (l.ahead 0), if l.taken < l.tokens.length then l.take 1 else l)
  | .consumed => (.count l.taken, l)
  | .atEnd => (.flag (decide (l.tokens.length ≤ l.taken)), l)
  | .synchronize sync => (.tokens (l.outside sync), l.take (l.outside sync).length)
  | .takeDiagnostics => (.reports [], l)

/-- The mark moves, and the tokens stay. -/
theorem tokens_serve (l : TokenList) (r : Request) : (l.serve r).2.tokens = l.tokens := by
  cases r with
  | consume =>
    show (if l.taken < l.tokens.length then l.take 1 else l).tokens = l.tokens
    split <;> rfl
  | _ => rfl

/-- Only what takes tokens changes what is answered later. -/
theorem after_filter_takes (l : TokenList) (rs : List Request) :
    Request.after serve l (rs.filter Request.takes) = Request.after serve l rs := by
  induction rs generalizing l with
  | nil => rfl
  | cons r rs ih =>
    cases r with
    | consume | synchronize => exact ih _
    | peek | peekId | consumed | atEnd | takeDiagnostics => exact ih l

end TokenList

/-! ## The end of the text -/

/-- Where no token is left, the cursor has read the whole text. -/
theorem Lexer.within_of_next_none {l l' : Lexer} {text : List Char} (h : l.cursor.Within text)
    (hnext : l.next = (none, l')) :
    l'.cursor.Within text ∧ l'.position = Position.start.through text [] := by
  fun_induction Lexer.next l with
  | case1 l hrest =>
    obtain ⟨-, rfl⟩ := Prod.mk.inj hnext
    have htext := h.text_eq
    rw [hrest, List.append_nil] at htext
    refine ⟨h, ?_⟩
    rw [htext, ← hrest]
    exact h.position_eq
  | case2 => simp at hnext
  | case3 l c rest hrest w m hfound after hskip ih => exact ih (h.advanceBy m.length) hnext
  | case4 => simp at hnext

theorem Lexer.within_pull {l : Lexer} {text : List Char} (h : l.cursor.Within text)
    (taken : List Token) (n : Nat) :
    (pull taken n l).2.2.cursor.Within text ∧ ((pull taken n l).2.1 = true →
      (pull taken n l).2.2.position = Position.start.through text []) :=
  pull_invariant (I := fun l => l.cursor.Within text)
    (E := fun l => l.position = Position.start.through text [])
    (fun h hnext => (stands_of_next_some h hnext).1) within_of_next_none h taken n

namespace TokenStream

/-- The stream reads the text, and has marked its end if it has come there. -/
structure Reads (text : List Char) (s : TokenStream) : Prop where
  within : s.lexer.cursor.Within text
  stop : ∀ place, s.stop = some place → place = Position.start.through text []

variable {text : List Char} {s : TokenStream}

theorem Reads.fill (h : s.Reads text) (k : Nat) : (s.fill k).Reads text := by
  unfold TokenStream.fill
  split
  · exact h
  · obtain ⟨hwithin, hposition⟩ := Lexer.within_pull h.within [] (k + 1 - s.buffer.length)
    refine ⟨hwithin, fun place hplace => ?_⟩
    dsimp only at hplace
    split at hplace
    · next hended =>
      cases hplace
      exact hposition hended
    · cases hplace

theorem Reads.pop (h : s.Reads text) : s.pop.Reads text := ⟨h.within, h.stop⟩

theorem Reads.takeDiagnostics (h : s.Reads text) : s.takeDiagnostics.2.Reads text :=
  ⟨h.within, h.stop⟩

/-- A stream that looks for a token behind the last one marks the end of the text. -/
theorem Reads.endToken_fill (h : s.Reads text) {k : Nat} (hk : s.upcoming.length ≤ k) :
    (s.fill k).endToken = .endOfInput (Position.start.through text []) := by
  obtain ⟨place, hplace⟩ := Option.isSome_iff_exists.1 (isSome_stop_fill hk)
  rw [endToken, hplace, Option.getD_some, (h.fill k).stop place hplace]

/-- Filled far enough, a stream shows the token `k` places ahead, or the end of the text. -/
theorem Reads.ahead_fill (h : s.Reads text) (k : Nat) :
    (s.fill k).ahead k = s.upcoming[k]?.getD (.endOfInput (Position.start.through text [])) := by
  rw [TokenStream.ahead_fill]
  cases hk : s.upcoming[k]? with
  | some t => rfl
  | none => exact h.endToken_fill (List.getElem?_eq_none_iff.1 hk)

/-- Taking the next token answers it. -/
theorem fst_consume (s : TokenStream) : s.consume.1 = (s.fill 0).ahead 0 := by
  rw [consume, ahead]
  split
  · next hb => rw [hb]; rfl
  · next hb => rw [hb]; rfl

/-! ## One request -/

/-- The stream stands in the list behind the tokens that were taken. What it has reported, in
`told` or not yet, are the complaints about the tokens that it has read. -/
structure Follows (text : List Char) (l : TokenList) (told : List Diagnostic) (s : TokenStream) :
    Prop where
  reads : s.Reads text
  finish : l.finish = .endOfInput (Position.start.through text [])
  upcoming : s.upcoming = l.tokens.drop l.taken
  consumed : s.consumed = l.taken
  id_ne_eof : ∀ t ∈ l.tokens, t.id ≠ .eof
  reported : told ++ s.reported ++ s.unread.flatMap Token.complaints
    = l.tokens.flatMap Token.complaints

namespace Follows

variable {l : TokenList} {told : List Diagnostic}

theorem ofText (table : TokenTable) (mode : TriviaMode) (text : List Char) (depth : Nat) :
    Follows text ⟨(Lexer.tokenize table mode text).1.toList,
        .endOfInput (Position.start.through text []), 0⟩ []
      (ofLexer (.ofText table mode text) depth) where
  reads := ⟨Cursor.within_ofText text, nofun⟩
  finish := rfl
  upcoming := upcoming_ofLexer ..
  consumed := rfl
  id_ne_eof _ ht := Lexer.id_ne_eof ht
  reported := rfl

theorem ahead_fill (h : Follows text l told s) (k : Nat) : (s.fill k).ahead k = l.ahead k := by
  rw [h.reads.ahead_fill, h.upcoming, List.getElem?_drop, TokenList.ahead, h.finish]

/-- A stream that has advanced by `n` tokens stands that much further in the list. -/
theorem advances {s' : TokenStream} {read : List Token} {n : Nat} (h : Follows text l told s)
    (hadv : s.Advances read n s') (hreads : s'.Reads text) :
    Follows text (l.take n) told s' where
  reads := hreads
  finish := h.finish
  upcoming := by rw [hadv.upcoming, h.upcoming, List.drop_drop]; rfl
  consumed := by rw [hadv.consumed, h.consumed]; rfl
  id_ne_eof := h.id_ne_eof
  reported := by
    have hreported := h.reported
    rw [hadv.unread, List.flatMap_append] at hreported
    rw [hadv.reported, ← List.append_assoc told, List.append_assoc _ (read.flatMap _)]
    exact hreported

theorem fill (h : Follows text l told s) (k : Nat) : Follows text l told (s.fill k) := by
  obtain ⟨read, hadv⟩ := s.advances_fill k
  exact h.advances hadv (h.reads.fill k)

theorem consume (h : Follows text l told s) :
    Follows text (if l.taken < l.tokens.length then l.take 1 else l) told s.consume.2 := by
  obtain ⟨read, hadv⟩ := s.advances_consume
  have hstep := h.advances hadv
    (consume_keeps (fun _ hs => hs.fill 0) (fun _ hs => hs.pop) h.reads)
  rw [h.upcoming, List.length_drop] at hstep
  split
  · next hlt => rwa [show min 1 (l.tokens.length - l.taken) = 1 by omega] at hstep
  · next hle => rwa [show min 1 (l.tokens.length - l.taken) = 0 by omega] at hstep

theorem atEnd (h : Follows text l told s) :
    s.atEnd.1 = decide (l.tokens.length ≤ l.taken) := by
  show (((s.fill 0).ahead 0).id == .eof) = _
  rw [h.ahead_fill, TokenList.ahead, Nat.add_zero]
  rcases Nat.lt_or_ge l.taken l.tokens.length with hlt | hle
  · rw [List.getElem?_eq_getElem hlt, Option.getD_some, decide_eq_false (Nat.not_le.2 hlt)]
    exact beq_eq_false_iff_ne.2 (h.id_ne_eof _ (List.getElem_mem hlt))
  · rw [List.getElem?_eq_none hle, h.finish, decide_eq_true hle]
    rfl

theorem synchronize (h : Follows text l told s) (sync : TokenSet) :
    (s.synchronize sync []).1 = l.outside sync ∧
      Follows text (l.take (l.outside sync).length) told (s.synchronize sync []).2 := by
  obtain ⟨htaken, read, hadv⟩ := synchronize_spec sync [] s
  rw [h.upcoming] at htaken hadv
  exact ⟨htaken, h.advances hadv
    (synchronize_keeps (fun _ hs => hs.fill 0) (fun _ hs => hs.pop) sync [] h.reads)⟩

/-- What is taken of the reports is told. -/
theorem takeDiagnostics (h : Follows text l told s) :
    Follows text l (told ++ s.takeDiagnostics.1) s.takeDiagnostics.2 where
  reads := h.reads.takeDiagnostics
  finish := h.finish
  upcoming := s.upcoming_takeDiagnostics.trans h.upcoming
  consumed := h.consumed
  id_ne_eof := h.id_ne_eof
  reported := by
    rw [fst_takeDiagnostics, reported_takeDiagnostics, unread_takeDiagnostics, List.append_nil]
    exact h.reported

/-- A stream answers a request like the list, and stays in it. -/
theorem serve (h : Follows text l told s) (r : Request) :
    (s.serve r).1.quiet = (l.serve r).1 ∧
      Follows text (l.serve r).2 (told ++ (s.serve r).1.reported) (s.serve r).2 := by
  -- Only one kind of answer tells reports.
  have hsilent : ∀ {l' s'}, Follows text l' told s' → Follows text l' (told ++ []) s' :=
    fun h => by rwa [List.append_nil]
  cases r with
  | peek k => exact ⟨congrArg Answer.token (h.ahead_fill k), hsilent (h.fill k)⟩
  | peekId k =>
    exact ⟨congrArg (fun t : Token => Answer.id t.id) (h.ahead_fill k), hsilent (h.fill k)⟩
  | consume =>
    exact ⟨congrArg Answer.token (s.fst_consume.trans (h.ahead_fill 0)), hsilent h.consume⟩
  | consumed => exact ⟨congrArg Answer.count h.consumed, hsilent h⟩
  | atEnd => exact ⟨congrArg Answer.flag h.atEnd, hsilent (h.fill 0)⟩
  | synchronize sync =>
    obtain ⟨htaken, hnext⟩ := h.synchronize sync
    exact ⟨congrArg Answer.tokens htaken, hsilent hnext⟩
  | takeDiagnostics => exact ⟨rfl, h.takeDiagnostics⟩

/-! ## Any number of requests -/

/-- A stream answers like the list, and what it tells of reports comes first in the list. -/
theorem answers (h : Follows text l told s) (rs : List Request) :
    (Request.answers TokenStream.serve s rs).map Answer.quiet
        = Request.answers TokenList.serve l rs ∧
      told ++ (Request.answers TokenStream.serve s rs).flatMap Answer.reported
        <+: l.tokens.flatMap Token.complaints := by
  induction rs generalizing l told s with
  | nil =>
    refine ⟨rfl, ⟨s.reported ++ s.unread.flatMap Token.complaints, ?_⟩⟩
    rw [← h.reported]
    simp [Request.answers]
  | cons r rs ih =>
    obtain ⟨hanswer, hnext⟩ := h.serve r
    obtain ⟨hanswers, htold⟩ := ih hnext
    refine ⟨?_, ?_⟩
    · rw [Request.answers, List.map_cons, hanswer, hanswers]
      rfl
    · rwa [TokenList.tokens_serve, List.append_assoc] at htold

/-- After the requests the stream still stands in the list. -/
theorem after (h : Follows text l told s) (rs : List Request) :
    ∃ told', Follows text (Request.after TokenList.serve l rs) told'
      (Request.after TokenStream.serve s rs) := by
  induction rs generalizing l told s with
  | nil => exact ⟨told, h⟩
  | cons r rs ih => exact ih (h.serve r).2

end Follows

/-- Whatever is asked of a stream and in whatever order, it answers like the list of the tokens of
its text with the end of the text behind them, and the reports that are taken are the first ones of
the text. What was looked at before, and the depth of the stream, make no difference. -/
theorem refines_list (table : TokenTable) (mode : TriviaMode) (text : List Char) :
    let list : TokenList := ⟨(Lexer.tokenize table mode text).1.toList,
      .endOfInput (Position.start.through text []), 0⟩
    let start := ofLexer (.ofText table mode text)
    (∀ depth requests,
        (Request.answers serve (start depth) requests).map Answer.quiet
            = Request.answers TokenList.serve list requests ∧
          (Request.answers serve (start depth) requests).flatMap Answer.reported
            <+: (Lexer.tokenize table mode text).2.log.toList) ∧
      ∀ depth depth' before later,
        (Request.answers serve (Request.after serve (start depth) before) later).map Answer.quiet
          = (Request.answers serve
              (Request.after serve (start depth') (before.filter Request.takes)) later).map
              Answer.quiet := by
  intro list start
  have hfollows : ∀ depth, Follows text list [] (start depth) := Follows.ofText table mode text
  refine ⟨fun depth requests => ?_, fun depth depth' before later => ?_⟩
  · obtain ⟨hanswers, hreports⟩ := (hfollows depth).answers requests
    exact ⟨hanswers, by rwa [Lexer.log_tokenize]⟩
  · obtain ⟨told, h⟩ := (hfollows depth).after before
    obtain ⟨told', h'⟩ := (hfollows depth').after (before.filter Request.takes)
    rw [(h.answers later).1, (h'.answers later).1, TokenList.after_filter_takes]

end TokenStream

end FrontEnd
