import FrontEnd.Lexer
import FrontEnd.Token.Set

/-!
# Token streams

A view of a lexer that can look ahead. Tokens are read only as far as somebody looks, and behind
the last one stands the end of the input, again and again.

- `TokenStream.peek`: the token some places ahead;
- `TokenStream.consume`: takes the next token;
- `TokenStream.synchronize`: takes tokens up to one of a set.
-/

namespace FrontEnd

/-- A lexer with the tokens that were looked at and not yet taken. -/
structure TokenStream where
  lexer : Lexer
  buffer : List Token
  /-- How many tokens a reader may want to see at once. -/
  depth : Nat
  /-- Where the input ends, once the lexer has come there. -/
  stop : Option Position
  /-- Number of tokens taken, the end of the input not counted. -/
  consumed : Nat

namespace TokenStream

/-- A stream over a lexer. The depth is at least one. -/
def ofLexer (lexer : Lexer) (depth : Nat) : TokenStream := ⟨lexer, [], max depth 1, none, 0⟩

/-- Reads until the token `k` places ahead is there or the input ends. -/
def fill (s : TokenStream) (k : Nat) : TokenStream :=
  if k < s.buffer.length ∨ s.stop.isSome then s
  else
    let read := s.lexer.pull [] (k + 1 - s.buffer.length)
    { s with
      lexer := read.2.2
      buffer := s.buffer ++ read.1
      stop := if read.2.1 then some read.2.2.position else none }

/-- The end of the input as a token. -/
def endToken (s : TokenStream) : Token := .endOfInput (s.stop.getD s.lexer.position)

/-- The token `k` places ahead, as far as the stream has been filled. -/
def ahead (s : TokenStream) (k : Nat) : Token := s.buffer[k]?.getD s.endToken

/-- The token `k` places ahead of those that were taken. -/
def peek (s : TokenStream) (k : Nat) : Token × TokenStream := ((s.fill k).ahead k, s.fill k)

/-- Counts the first of the tokens that were looked at as taken. -/
def pop (s : TokenStream) : TokenStream :=
  { s with buffer := s.buffer.tail, consumed := s.consumed + 1 }

/-- Takes the next token. At the end that is the end of the input, and nothing changes. -/
def consume (s : TokenStream) : Token × TokenStream :=
  let s := s.fill 0
  match s.buffer with
  | [] => (s.endToken, s)
  | t :: _ => (t, s.pop)

/-- A bound on the tokens that are left. -/
def remaining (s : TokenStream) : Nat := s.buffer.length + s.lexer.cursor.rest.length

theorem remaining_fill_le (s : TokenStream) (k : Nat) : (s.fill k).remaining ≤ s.remaining := by
  unfold fill
  split
  · exact Nat.le_refl _
  · have := Lexer.length_pull_le [] (k + 1 - s.buffer.length) s.lexer
    simp only [remaining, List.length_append, List.length_nil] at this ⊢
    omega

/-- Taking a token leaves fewer. -/
theorem remaining_pop_lt (s : TokenStream) {t : Token} {rest : List Token}
    (h : (s.fill 0).buffer = t :: rest) : (s.fill 0).pop.remaining < s.remaining := by
  have hle := s.remaining_fill_le 0
  simp only [remaining, pop, h, List.length_cons, List.tail_cons] at hle ⊢
  omega

/-- Is every token taken? -/
def atEnd (s : TokenStream) : Bool × TokenStream :=
  let (t, s) := s.peek 0
  (t.id == .eof, s)

/-- Takes tokens onto `skipped`, latest first, up to one of the set or the end of the input. The
answer has them in order. -/
def synchronize (sync : TokenSet) (skipped : List Token) (s : TokenStream) :
    List Token × TokenStream :=
  match _h : (s.fill 0).buffer with
  | [] => (skipped.reverse, s.fill 0)
  | t :: _ =>
    if sync.contains t.id then (skipped.reverse, s.fill 0)
    else synchronize sync (t :: skipped) (s.fill 0).pop
termination_by s.remaining
decreasing_by exact s.remaining_pop_lt _h

/-- Takes the reports of the lexer about the text read so far. -/
def takeDiagnostics (s : TokenStream) : List Diagnostic × TokenStream :=
  (s.lexer.log.toList, { s with lexer := { s.lexer with log := .empty } })

end TokenStream

end FrontEnd
