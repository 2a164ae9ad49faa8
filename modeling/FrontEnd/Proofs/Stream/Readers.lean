import FrontEnd.Proofs.Stream.Requests

/-!
# Readers of a stream

Somebody who reads a stream knows nothing of it but the answers to what was asked. Written down in
this way, a program shows all its requests: there is no token that it has not asked for. A stream
goes through several moments while it serves a request, since it reads one token after the other.
**If no look goes as far as `n` tokens ahead, then at no moment there are more than `n` tokens in
the buffer**, and no more than that have been made and not been taken.

- `TokenStream.Reader`: a program that asks a stream;
- `TokenStream.Reader.read`, `TokenStream.Reader.visits`: what comes out of it, and the requests it
  makes on the way;
- `TokenStream.moments`: all streams there are while a request is served;
- `TokenStream.Reader.Within`: a reader whose looks stay within a bound;
- `TokenStream.Reader.Within.holds`: what such a reader makes of the buffer.
-/

namespace FrontEnd

namespace Lexer

/-- A token more is counted when one is made. -/
theorem produced_next (l : Lexer) :
    l.next.2.produced = l.produced + l.next.1.toList.length := by
  fun_induction next l with
  | case1 l hrest => rfl
  | case2 l c rest hrest w hfound => rfl
  | case3 l c rest hrest w m hfound after hskip ih => exact ih
  | case4 l c rest hrest w m hfound after hskip => rfl

/-- Tokens that were read before stay in front of those that are read. -/
theorem pull_eq (taken : List Token) (n : Nat) (l : Lexer) :
    pull taken n l = (taken.reverse ++ (pull [] n l).1, (pull [] n l).2) := by
  induction n generalizing taken l with
  | zero => simp [pull]
  | succ n ih =>
    rw [pull, pull]
    split
    · simp
    · next t l' hnext =>
      rw [ih (t :: taken) l', ih [t] l']
      simp

end Lexer

namespace TokenStream

/-! ## Asking and answering -/

/-- What is answered, by what was asked. -/
def Request.Reply : Request → Type
  | .peek _ | .consume => Token
  | .peekId _ => TokenId
  | .consumed => Nat
  | .atEnd => Bool
  | .synchronize _ => List Token
  | .takeDiagnostics => List Diagnostic

/-- The answer to a request, and what is left of the stream. -/
def reply (s : TokenStream) : (r : Request) → r.Reply × TokenStream
  | .peek k => s.peek k
  | .peekId k => ((s.peek k).1.id, (s.peek k).2)
  | .consume => s.consume
  | .consumed => (s.consumed, s)
  | .atEnd => s.atEnd
  | .synchronize sync => s.synchronize sync []
  | .takeDiagnostics => s.takeDiagnostics

/-- A program that asks a stream. It has come to a result, or makes a request and goes on with the
answer. What the tokens are called is known without a request. -/
inductive Reader (α : Type) where
  | done (x : α)
  | table (next : TokenTable → Reader α)
  | ask (r : Request) (next : r.Reply → Reader α)

/-- A request, and the stream to which it is made. -/
structure Visit where
  stream : TokenStream
  request : Request

namespace Reader

variable {α β : Type}

/-- One program behind another. -/
def bind (r : Reader α) (f : α → Reader β) : Reader β :=
  match r with
  | done x => f x
  | table next => table fun t => (next t).bind f
  | ask request next => ask request fun answer => (next answer).bind f

instance : Monad Reader where
  pure := done
  bind := bind

/-- The result, and what is left of the stream. -/
def read (s : TokenStream) : Reader α → α × TokenStream
  | done x => (x, s)
  | table next => (next s.lexer.table).read s
  | ask request next => (next (s.reply request).1).read (s.reply request).2

/-- All requests on the way to the result. -/
def visits (s : TokenStream) : Reader α → List Visit
  | done _ => []
  | table next => (next s.lexer.table).visits s
  | ask request next =>
    ⟨s, request⟩ :: (next (s.reply request).1).visits (s.reply request).2

@[simp] theorem read_bind (r : Reader α) (f : α → Reader β) (s : TokenStream) :
    (r >>= f).read s = (f (r.read s).1).read (r.read s).2 := by
  show (r.bind f).read s = _
  induction r generalizing s with
  | done x => rfl
  | table next ih => exact ih _ s
  | ask request next ih => exact ih _ (s.reply request).2

theorem visits_bind (r : Reader α) (f : α → Reader β) (s : TokenStream) :
    (r >>= f).visits s = r.visits s ++ (f (r.read s).1).visits (r.read s).2 := by
  show (r.bind f).visits s = _
  induction r generalizing s with
  | done x => rfl
  | table next ih => exact ih _ s
  | ask request next ih => exact congrArg (⟨s, request⟩ :: ·) (ih _ (s.reply request).2)

instance : LawfulMonad Reader := by
  refine .mk' Reader (fun r => ?_) (fun _ _ => rfl) (fun r f g => ?_)
  · induction r with
    | done x => rfl
    | table next ih => exact congrArg table (funext ih)
    | ask request next ih => exact congrArg (ask request) (funext ih)
  · induction r with
    | done x => rfl
    | table next ih => exact congrArg table (funext ih)
    | ask request next ih => exact congrArg (ask request) (funext ih)

end Reader

/-! ## The moments of a request -/

/-- How far ahead a request looks. -/
def Request.sight : Request → Option Nat
  | .peek k | .peekId k => some k
  | .consume | .atEnd | .synchronize _ => some 0
  | .consumed | .takeDiagnostics => none

/-- The next token of the lexer goes to the buffer. If there is none, the end is marked. -/
def draw (s : TokenStream) : TokenStream :=
  match s.lexer.next with
  | (none, lexer) => { s with lexer, stop := some lexer.position }
  | (some t, lexer) => { s with lexer, buffer := s.buffer ++ [t] }

/-- The streams there are while up to `n` tokens are read. The lexer makes a token first, and then
it goes to the buffer. -/
def drawing (s : TokenStream) : Nat → List TokenStream
  | 0 => [s]
  | n + 1 =>
    if s.stop.isSome then [s]
    else s :: { s with lexer := s.lexer.next.2 } :: s.draw.drawing n

/-- The streams there are while tokens are read up to the one `k` places ahead. -/
def filling (s : TokenStream) (k : Nat) : List TokenStream := s.drawing (k + 1 - s.buffer.length)

/-- The streams there are while the first token leaves the buffer and is counted. -/
def popping (s : TokenStream) : List TokenStream :=
  match s.buffer with
  | [] => []
  | _ :: rest => [{ s with buffer := rest }, s.pop]

/-- The streams there are while tokens are taken up to one of the set. -/
def synchronizing (sync : TokenSet) (s : TokenStream) : List TokenStream :=
  match _h : (s.fill 0).buffer with
  | [] => s.filling 0
  | t :: _ =>
    if sync.contains t.id then s.filling 0
    else s.filling 0 ++ (s.fill 0).popping ++ synchronizing sync (s.fill 0).pop
termination_by s.remaining
decreasing_by exact s.remaining_pop_lt _h

/-- The streams there are while a request is served, from the one to which it is made to the one
that is left. -/
def moments (s : TokenStream) : Request → List TokenStream
  | .peek k | .peekId k => s.filling k
  | .consume => s.filling 0 ++ (s.fill 0).popping
  | .consumed => [s]
  | .atEnd => s.filling 0
  | .synchronize sync => s.synchronizing sync
  | .takeDiagnostics => [s, s.takeDiagnostics.2]

/-- The streams there are while the request of the visit is served. -/
def Visit.moments (v : Visit) : List TokenStream := v.stream.moments v.request

/-! ## The first and the last moment -/

variable {s s' : TokenStream} {n k : Nat}

theorem mem_drawing (s : TokenStream) (n : Nat) : s ∈ s.drawing n := by
  cases n with
  | zero => exact List.mem_cons_self
  | succ n =>
    rw [drawing]
    split <;> exact List.mem_cons_self

theorem drawing_ne_nil (s : TokenStream) (n : Nat) : s.drawing n ≠ [] :=
  List.ne_nil_of_mem (s.mem_drawing n)

/-- What was read goes to the buffer, and the end is marked if it was met. -/
def receive (s : TokenStream) (read : List Token × Bool × Lexer) : TokenStream :=
  { s with
    lexer := read.2.2
    buffer := s.buffer ++ read.1
    stop := if read.2.1 then some read.2.2.position else none }

/-- Before the end, a look reads as many tokens as are missing. -/
theorem fill_eq_receive {m : Nat} (hopen : s.stop = none) (hm : k + 1 - s.buffer.length = m) :
    s.fill k = s.receive (Lexer.pull [] m s.lexer) := by
  subst hm
  rw [fill]
  split
  · next hready =>
    have hnone : k + 1 - s.buffer.length = 0 := by
      rw [hopen] at hready
      have hlong := hready.resolve_right nofun
      omega
    simp [receive, hnone, Lexer.pull, ← hopen]
  · rfl

/-- If tokens are missing, one is drawn first. -/
theorem fill_eq_fill_draw (hshort : s.buffer.length ≤ k) (hopen : s.stop = none) :
    s.fill k = s.draw.fill k := by
  obtain ⟨m, hm⟩ : ∃ m, k + 1 - s.buffer.length = m + 1 := ⟨k - s.buffer.length, by omega⟩
  rw [fill_eq_receive hopen hm, Lexer.pull, draw]
  rcases hnext : s.lexer.next with ⟨_ | t, lexer⟩
  · simp [receive, fill]
  · have hmissing : k + 1 - (s.buffer ++ [t]).length = m := by
      rw [List.length_append, List.length_singleton]
      omega
    dsimp only
    rw [fill_eq_receive (by exact hopen) hmissing, Lexer.pull_eq]
    simp [receive]

/-- A token more is in the buffer then, or the end is known. -/
theorem draw_cases (s : TokenStream) :
    s.draw.buffer.length = s.buffer.length + 1 ∨
      s.draw.buffer.length = s.buffer.length ∧ s.draw.stop.isSome = true := by
  rw [draw]
  rcases s.lexer.next with ⟨_ | t, lexer⟩
  · exact .inr ⟨rfl, rfl⟩
  · exact .inl (by simp)

/-- Reading one token after the other comes to where reading them at once does. -/
theorem getLast?_drawing {m : Nat} (hm : k + 1 - s.buffer.length = m) :
    (s.drawing m).getLast? = some (s.fill k) := by
  induction m generalizing s with
  | zero =>
    rw [fill, if_pos (.inl (by omega))]
    rfl
  | succ m ih =>
    rw [drawing]
    by_cases hstop : s.stop.isSome = true
    · rw [if_pos hstop, fill, if_pos (.inr hstop)]
      rfl
    · -- the look is the one that begins behind the first token drawn
      have hopen : s.stop = none := by simpa using hstop
      rw [if_neg hstop, fill_eq_fill_draw (by omega) hopen, List.getLast?_cons_cons,
        List.getLast?_cons_of_ne_nil (drawing_ne_nil _ _)]
      rcases s.draw_cases with hlength | ⟨-, hended⟩
      · exact ih (by omega)
      · rw [fill, if_pos (.inr hended)]
        cases m with
        | zero => rfl
        | succ m => rw [drawing, if_pos hended]; rfl

theorem getLast?_filling (s : TokenStream) (k : Nat) : (s.filling k).getLast? = some (s.fill k) :=
  getLast?_drawing rfl

theorem synchronizing_of_nil {sync : TokenSet} (hb : (s.fill 0).buffer = []) :
    s.synchronizing sync = s.filling 0 := by
  rw [synchronizing]
  split
  · rfl
  · next hb' => rw [hb] at hb'; cases hb'

theorem synchronizing_of_cons {sync : TokenSet} {t : Token} {rest : List Token}
    (hb : (s.fill 0).buffer = t :: rest) :
    s.synchronizing sync =
      if sync.contains t.id then s.filling 0
      else s.filling 0 ++ (s.fill 0).popping ++ (s.fill 0).pop.synchronizing sync := by
  rw [synchronizing]
  split
  · next hb' => rw [hb] at hb'; cases hb'
  · next hb' =>
    obtain ⟨rfl, -⟩ := List.cons.inj (hb.symm.trans hb')
    rfl

theorem getLast?_synchronizing (sync : TokenSet) (skipped : List Token) (s : TokenStream) :
    (s.synchronizing sync).getLast? = some (s.synchronize sync skipped).2 := by
  fun_induction synchronize sync skipped s with
  | case1 skipped s hb =>
    rw [synchronizing_of_nil hb]
    exact getLast?_filling s 0
  | case2 skipped s t rest hb hin =>
    rw [synchronizing_of_cons hb, if_pos hin]
    exact getLast?_filling s 0
  | case3 skipped s t rest hb hin ih =>
    rw [synchronizing_of_cons hb, if_neg hin, List.getLast?_append, ih]
    rfl

theorem getLast?_consuming (s : TokenStream) :
    (s.filling 0 ++ (s.fill 0).popping).getLast? = some s.consume.2 := by
  rw [List.getLast?_append, getLast?_filling]
  cases hb : (s.fill 0).buffer with
  | nil => simp [popping, consume, hb]
  | cons t rest => simp [popping, consume, hb]

/-- The last moment of a request is the stream that it leaves. -/
theorem getLast?_moments (s : TokenStream) (r : Request) :
    (s.moments r).getLast? = some (s.reply r).2 := by
  cases r with
  | peek k | peekId k => exact getLast?_filling s k
  | consume => exact getLast?_consuming s
  | consumed | takeDiagnostics => rfl
  | atEnd => exact getLast?_filling s 0
  | synchronize sync => exact getLast?_synchronizing sync [] s

/-- The stream to which a request is made is one of its moments. -/
theorem mem_moments (s : TokenStream) (r : Request) : s ∈ s.moments r := by
  cases r with
  | peek k | peekId k => exact s.mem_drawing _
  | consume => exact List.mem_append_left _ (s.mem_drawing _)
  | consumed | takeDiagnostics => exact List.mem_cons_self
  | atEnd => exact s.mem_drawing _
  | synchronize sync =>
    rw [moments]
    cases hb : (s.fill 0).buffer with
    | nil =>
      rw [synchronizing_of_nil hb]
      exact s.mem_drawing _
    | cons t rest =>
      rw [synchronizing_of_cons hb]
      split
      · exact s.mem_drawing _
      · exact List.mem_append_left _ (List.mem_append_left _ (s.mem_drawing _))

/-- What a reader leaves of the stream is there while its last request is served, if it makes one
at all. -/
theorem Reader.read_eq_or_mem {α : Type} (r : Reader α) (s : TokenStream) :
    (r.read s).2 = s ∨ ∃ v ∈ r.visits s, (r.read s).2 ∈ v.moments := by
  induction r generalizing s with
  | done x => exact .inl rfl
  | table next ih => exact ih _ s
  | ask request next ih =>
    refine .inr ?_
    rcases ih (s.reply request).1 (s.reply request).2 with hleft | ⟨v, hv, hmem⟩
    · refine ⟨⟨s, request⟩, List.mem_cons_self, ?_⟩
      rw [read, hleft]
      exact List.mem_of_getLast? (s.getLast?_moments request)
    · exact ⟨v, List.mem_cons_of_mem _ hv, hmem⟩

/-! ## What is in the buffer -/

/-- There are no more than `n` tokens in the buffer, and no more have been made and not been
taken. -/
structure Holds (n : Nat) (s : TokenStream) : Prop where
  length_le : s.buffer.length ≤ n
  produced_le : s.lexer.produced ≤ s.consumed + n

/-- There are no more than `n` tokens in the buffer, and these are all that have been made and not
been taken. -/
structure Settled (n : Nat) (s : TokenStream) : Prop where
  length_le : s.buffer.length ≤ n
  produced_eq : s.lexer.produced = s.consumed + s.buffer.length

namespace Settled

theorem holds (h : s.Settled n) : s.Holds n where
  length_le := h.length_le
  produced_le := by
    have hlength := h.length_le
    have hproduced := h.produced_eq
    omega

/-- At the beginning nothing has been made. -/
theorem ofText (table : TokenTable) (mode : TriviaMode) (text : List Char) (depth n : Nat) :
    (ofLexer (.ofText table mode text) depth).Settled n :=
  ⟨Nat.zero_le _, rfl⟩

theorem draw (h : s.Settled n) (hroom : s.buffer.length < n) : s.draw.Settled n := by
  have hproduced := s.lexer.produced_next
  rw [h.produced_eq] at hproduced
  rw [TokenStream.draw]
  rcases hnext : s.lexer.next with ⟨_ | t, lexer⟩
  · rw [hnext] at hproduced
    exact ⟨h.length_le, hproduced⟩
  · rw [hnext] at hproduced
    exact ⟨by simpa using Nat.succ_le_of_lt hroom, by simpa [Nat.add_assoc] using hproduced⟩

/-- There is room for a token that the lexer has made and that is not in the buffer yet. -/
theorem holds_next (h : s.Settled n) (hroom : s.buffer.length < n) :
    { s with lexer := s.lexer.next.2 }.Holds n where
  length_le := h.length_le
  produced_le := by
    have hproduced := s.lexer.produced_next
    have hone : s.lexer.next.1.toList.length ≤ 1 := Option.length_toList_le
    rw [h.produced_eq] at hproduced
    dsimp only
    omega

theorem staying (h : s.Settled n) :
    (∀ s' ∈ [s], s'.Holds n) ∧ ∀ s' ∈ [s].getLast?, s'.Settled n :=
  ⟨List.forall_mem_singleton.2 h.holds, fun _ hs' => Option.mem_some.1 hs' ▸ h⟩

/-- As long as tokens are read that there is room for, the bound holds. -/
theorem drawing {m : Nat} (h : s.Settled n) (hm : s.buffer.length + m ≤ n) :
    (∀ s' ∈ s.drawing m, s'.Holds n) ∧ ∀ s' ∈ (s.drawing m).getLast?, s'.Settled n := by
  induction m generalizing s with
  | zero => exact h.staying
  | succ m ih =>
    rw [TokenStream.drawing]
    split
    · exact h.staying
    · have hroom : s.buffer.length < n := by omega
      have hlength := s.draw_cases
      obtain ⟨hholds, hlast⟩ := ih (h.draw hroom) (by omega)
      rw [List.getLast?_cons_cons, List.getLast?_cons_of_ne_nil (drawing_ne_nil _ _)]
      exact ⟨List.forall_mem_cons.2 ⟨h.holds, List.forall_mem_cons.2 ⟨h.holds_next hroom, hholds⟩⟩,
        hlast⟩

theorem filling (h : s.Settled n) (hk : k < n) :
    (∀ s' ∈ s.filling k, s'.Holds n) ∧ (s.fill k).Settled n := by
  have hlength := h.length_le
  obtain ⟨hholds, hlast⟩ := h.drawing (m := k + 1 - s.buffer.length) (by omega)
  exact ⟨hholds, hlast _ (s.getLast?_filling k)⟩

/-- A token that is taken was in the buffer. -/
theorem popping {t : Token} {rest : List Token} (h : s.Settled n) (hb : s.buffer = t :: rest) :
    (∀ s' ∈ s.popping, s'.Holds n) ∧ s.pop.Settled n := by
  have hlength := h.length_le
  have hproduced := h.produced_eq
  rw [hb, List.length_cons] at hlength hproduced
  have hpop : s.pop.Settled n := by
    refine ⟨?_, ?_⟩
    · simp only [pop, hb, List.tail_cons]
      omega
    · simp only [pop, hb, List.tail_cons]
      omega
  refine ⟨?_, hpop⟩
  rw [TokenStream.popping, hb]
  refine List.forall_mem_cons.2 ⟨⟨?_, ?_⟩, List.forall_mem_singleton.2 hpop.holds⟩
  · dsimp only
    omega
  · dsimp only
    omega

theorem consuming (h : s.Settled n) (hn : 0 < n) :
    (∀ s' ∈ s.filling 0 ++ (s.fill 0).popping, s'.Holds n) ∧ s.consume.2.Settled n := by
  obtain ⟨hfilling, hfill⟩ := h.filling hn
  rw [consume]
  cases hb : (s.fill 0).buffer with
  | nil =>
    rw [TokenStream.popping, hb, List.append_nil]
    exact ⟨hfilling, hfill⟩
  | cons t rest =>
    obtain ⟨hpopping, hpop⟩ := hfill.popping hb
    exact ⟨List.forall_mem_append.2 ⟨hfilling, hpopping⟩, hpop⟩

theorem synchronizing (h : s.Settled n) (hn : 0 < n) (sync : TokenSet) (skipped : List Token) :
    (∀ s' ∈ s.synchronizing sync, s'.Holds n) ∧ (s.synchronize sync skipped).2.Settled n := by
  fun_induction synchronize sync skipped s with
  | case1 skipped s hb =>
    rw [synchronizing_of_nil hb]
    exact h.filling hn
  | case2 skipped s t rest hb hin =>
    rw [synchronizing_of_cons hb, if_pos hin]
    exact h.filling hn
  | case3 skipped s t rest hb hin ih =>
    obtain ⟨hfilling, hfill⟩ := h.filling hn
    obtain ⟨hpopping, hpop⟩ := hfill.popping hb
    obtain ⟨hlater, hlast⟩ := ih hpop
    rw [synchronizing_of_cons hb, if_neg hin]
    exact ⟨List.forall_mem_append.2 ⟨List.forall_mem_append.2 ⟨hfilling, hpopping⟩, hlater⟩, hlast⟩

/-- A request that looks less than `n` tokens ahead keeps the bound at all of its moments. -/
theorem moments (h : s.Settled n) {r : Request} (hr : ∀ k, r.sight = some k → k < n) :
    (∀ s' ∈ s.moments r, s'.Holds n) ∧ (s.reply r).2.Settled n := by
  cases r with
  | peek k | peekId k => exact h.filling (hr k rfl)
  | consume => exact h.consuming (hr 0 rfl)
  | consumed => exact ⟨List.forall_mem_singleton.2 h.holds, h⟩
  | atEnd => exact h.filling (hr 0 rfl)
  | synchronize sync => exact h.synchronizing (hr 0 rfl) sync []
  | takeDiagnostics =>
    have htaken : s.takeDiagnostics.2.Settled n := ⟨h.length_le, h.produced_eq⟩
    exact ⟨List.forall_mem_cons.2 ⟨h.holds, List.forall_mem_singleton.2 htaken.holds⟩, htaken⟩

end Settled

/-! ## Readers that do not look far -/

namespace Reader

variable {α β : Type}

/-- The reader looks less than `n` tokens ahead, whatever it is answered. -/
def Within (n : Nat) : Reader α → Prop
  | done _ => True
  | table next => ∀ t, (next t).Within n
  | ask request next =>
    (∀ k, request.sight = some k → k < n) ∧ ∀ answer, (next answer).Within n

theorem Within.bind {r : Reader α} {f : α → Reader β} (h : r.Within n)
    (hf : ∀ x, (f x).Within n) : (r >>= f).Within n := by
  show (r.bind f).Within n
  induction r with
  | done x => exact hf x
  | table next ih => exact fun t => ih t (h t)
  | ask request next ih => exact ⟨h.1, fun answer => ih answer (h.2 answer)⟩

/-- At no moment there are more tokens in the buffer than the reader looks ahead. -/
theorem Within.holds {r : Reader α} (h : r.Within n) (hs : s.Settled n) :
    ∀ v ∈ r.visits s, (∀ k, v.request.sight = some k → k < n) ∧ ∀ s' ∈ v.moments, s'.Holds n := by
  induction r generalizing s with
  | done x => exact List.forall_mem_nil _
  | table next ih => exact ih _ (h _) hs
  | ask request next ih =>
    obtain ⟨hholds, hleft⟩ := hs.moments h.1
    exact List.forall_mem_cons.2 ⟨⟨h.1, hholds⟩, ih _ (h.2 _) hleft⟩

end Reader

end TokenStream

end FrontEnd
