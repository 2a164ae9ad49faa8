import FrontEnd.Diagnostic.Terminal
import FrontEnd.Proofs.Source.Partition
import FrontEnd.Proofs.Stream.Requests
import FrontEnd.Proofs.Stream.Seams

/-!
# Carets stand under the lexeme

A report about a token shows the line that the token begins in, and a row of carets under it. The
place of the token counts characters to the left, and bytes from there on, while the line is shown
without its end: what is left of the lexeme on the line is found again from these.

- `Text.length_take_size`: of two texts that go on to the same, the bytes of one in the other;
- `Token.Begins`: a token among the lines of a text;
- `Token.exists_begins`: **the position of a token says where it begins**;
- `Terminal.rows`: the rows of a snippet without colours;
- `Terminal.snippet_underlines`: **the carets are under the lexeme**.
-/

namespace FrontEnd

namespace Text

theorem take_eq_self {bytes : Nat} {cs : List Char} (h : size cs ≤ bytes) : take bytes cs = cs := by
  induction cs generalizing bytes with
  | nil => rfl
  | cons c cs ih =>
    have hpos := c.utf8Size_pos
    rw [size_cons] at h
    rw [take_cons (by omega), ih (by omega)]

/-- Of two beginnings of a text, one begins with as much of the other as it has room for. -/
theorem length_take_size {u v u' v' : List Char} (h : u ++ v = u' ++ v') :
    (take (size u) u').length = min u.length u'.length := by
  rcases List.append_eq_append_iff.1 h with ⟨rest, rfl, -⟩ | ⟨rest, rfl, -⟩
  · rw [take_append, List.length_append]
    omega
  · rw [take_eq_self (by rw [size_append]; omega), List.length_append]
    omega

end Text

/-! ## Tokens in lines -/

/-- A token in a text with these lines: there are the lines `before`, and of the next one, with the
text `line` and the end `ending`, there is `left` before the lexeme. -/
structure Token.Begins (t : Token) (text : List Char) (parts before : List (String × List Char))
    (line : String) (ending : List Char) (later : List (String × List Char)) (left : List Char) :
    Prop where
  parts_eq : parts = before ++ (line, ending) :: later
  text_eq : ∃ v, text = SourceBuffer.written before ++ left ++ (t.text.toList ++ v)
  within : left <+: line.toList ++ ending
  /-- Behind the end of a line the next one begins. -/
  short : ending ≠ [] → left ≠ line.toList ++ ending
  line_eq : t.position.line = before.length + 1
  column_eq : t.position.column = left.length + 1

namespace Token

variable {t : Token} {b : SourceBuffer} {parts before later : List (String × List Char)}
  {line : String} {ending left u v : List Char}

/-- The position of a token says in which line it begins, and where in it. -/
theorem exists_begins (hsize : Text.size b.chars ≤ Position.limit)
    (htext : b.chars = u ++ (t.text.toList ++ v))
    (hplace : t.position = Position.start.through u (t.text.toList ++ v))
    (hlength : u.length < Position.limit) :
    ∃ before line ending later left, t.Begins b.chars b.parts before line ending later left := by
  obtain ⟨pre, l, post, w, hr⟩ := b.lined.exists_reaches htext
  have hle := hr.length_le b.lined
  have hposition := SourceBuffer.lineColumn_of_le hsize (Text.floor_size htext) hr (by omega)
    (by omega)
  rw [SourceBuffer.lineColumn_size htext, ← hplace] at hposition
  have hstands := SourceBuffer.stands_of_reaches hr (by omega)
  generalize hn : pre.length + 1 = number at hposition hstands
  generalize hk : w.length + 1 = column at hposition hstands
  obtain @⟨before, later, ⟨line, ending⟩, left, hparts, hwithin, hshort⟩ := hstands
  refine ⟨before, line, ending, later, left, hparts, ⟨v, htext⟩, hwithin, hshort, ?_, ?_⟩
  · rw [hposition]
  · rw [hposition]

theorem Begins.lineText (h : t.Begins b.chars parts before line ending later left)
    (hpartition : b.Partition parts) (hline : t.position.line ≤ Position.limit) :
    b.lineText t.position.line = some line := by
  rw [hpartition.lineText _ hline, h.line_eq, if_neg (Nat.succ_ne_zero _), h.parts_eq,
    Nat.add_sub_cancel, List.getElem?_append_right (Nat.le_refl _), Nat.sub_self]
  rfl

/-- What the line has before the lexeme is cut off where the line is, and nothing else. -/
theorem Begins.take_left (h : t.Begins b.chars parts before line ending later left) :
    line.toList.take left.length = left.take line.toList.length := by
  have hleft := List.prefix_iff_eq_take.1 h.within
  conv_rhs => rw [hleft, List.take_take, Nat.min_comm, ← List.take_take, List.take_left]

/-- The bytes of the lexeme are on the line as far as it goes. -/
theorem Begins.charsWithin (h : t.Begins b.chars parts before line ending later left)
    (hpartition : b.Partition parts) (hsize : Text.size b.chars ≤ Position.limit) :
    Terminal.charsWithin t.length (line.toList.drop left.length)
      = min t.text.toList.length (line.toList.length - left.length) := by
  obtain ⟨v, htext⟩ := h.text_eq
  have hlength : t.length = Text.size t.text.toList := by
    have hle : Text.size t.text.toList ≤ Text.size b.chars := by
      rw [htext, Text.size_append, Text.size_append, Text.size_append]
      omega
    rw [length, Text.utf8ByteSize_eq]
    exact Nat.min_eq_left (Nat.le_trans hle hsize)
  have hsame : left ++ (t.text.toList ++ v)
      = line.toList ++ (ending ++ SourceBuffer.written later) := by
    rw [hpartition.written, h.parts_eq] at htext
    simpa [SourceBuffer.written] using htext.symm
  rw [Terminal.charsWithin, hlength]
  rcases List.append_eq_append_iff.1 hsame with ⟨rest, hline, hrest⟩ | ⟨rest, hleft, -⟩
  · rw [hline, List.drop_left, Text.length_take_size hrest, List.length_append,
      Nat.add_sub_cancel_left]
  · rw [hleft, List.drop_eq_nil_of_le (by simp)]
    simp [Text.take, Text.takeOnto]

end Token

/-- Where no token is left, the text is read to its end. -/
theorem Lexer.position_drain {l : Lexer} {text : List Char} (h : l.cursor.Within text)
    (made : Array Token) : (l.drain made).2.position = Position.start.through text [] := by
  fun_induction Lexer.drain l made with
  | case1 l made l' hnext => exact (within_of_next_none h hnext).2
  | case2 l made t l' hnext ih => exact ih (stands_of_next_some h hnext).1

/-! ## Snippets -/

namespace Terminal

variable {b : SourceBuffer} {d : Diagnostic} {line : String}

/-- The rows of a snippet without colours: an empty one, the line with its number, and what stands
under the line. -/
def rows (number line under : String) : String :=
  let margin := String.ofList (List.replicate number.length ' ')
  margin ++ " |\n" ++ number ++ " | " ++ line ++ "\n" ++ margin ++ " | " ++ under ++ "\n"

theorem gutter_margin (source : Option SourceBuffer) (width : Nat) :
    (⟨false, source⟩ : Terminal).gutter width ""
      = String.ofList (List.replicate width ' ') ++ " |" := by
  simp [gutter, paint]

theorem gutter_number (source : Option SourceBuffer) (number : String) :
    (⟨false, source⟩ : Terminal).gutter number.length number = number ++ " |" := by
  simp [gutter, paint]

/-- Without colours, a line that there is makes a snippet of three rows. -/
theorem snippet_eq_rows (source : Option SourceBuffer)
    (h : b.lineText d.location.start.line = some line) :
    (⟨false, source⟩ : Terminal).snippet b d = rows (toString d.location.start.line) line
      (String.ofList (caretRow line.toList (d.location.start.column - 1) d.location.length).1 ++
        String.ofList (caretRow line.toList (d.location.start.column - 1) d.location.length).2 ++
        (d.label.map (" " ++ ·)).getD "") := by
  have hbreak (x : String) : " |" ++ ("\n" ++ x) = " |\n" ++ x := by rw [← String.append_assoc]; rfl
  have hspace (x : String) : " |" ++ (" " ++ x) = " | " ++ x := by rw [← String.append_assoc]; rfl
  rw [snippet, h]
  cases d.label <;>
    simp only [gutter_margin, gutter_number, paint, rows, String.append_assoc, hbreak, hspace,
      Bool.false_eq_true, if_false, Option.map_none, Option.map_some, Option.getD_none,
      Option.getD_some]

/-- **Carets stand under the lexeme.** For every token of a text of less than 2^32 bytes, and for
the end of input behind them where counting has not stopped, a report shows the line that the token
begins in. Under it there is a character for each character that is on the line before the lexeme,
a tab for a tab and a blank for any other, and then a caret for each character of the lexeme that is
on the line, but at least one. -/
theorem snippet_underlines (b : SourceBuffer) (hsize : Text.size b.chars < 2 ^ 32) :
    ∃ parts, b.Partition parts ∧ ∀ table mode t,
      (t ∈ (Lexer.tokenize table mode b.chars).1.toList ∨
        t = .endOfInput (Lexer.tokenize table mode b.chars).2.position ∧
          b.chars.length < Position.limit) →
      ∃ before line ending later left, t.Begins b.chars parts before line ending later left ∧
        b.lineText t.position.line = some line ∧
        ∀ d, d.location = .ofToken t →
          (⟨false, some b⟩ : Terminal).snippet b d = rows (toString t.position.line) line
            (String.ofList ((left.take line.toList.length).map fun c =>
                if c = '\t' then '\t' else ' ') ++
              String.ofList (List.replicate
                (max 1 (min t.text.toList.length (line.toList.length - left.length))) '^') ++
              (d.label.map (" " ++ ·)).getD "") := by
  have hlimit : Text.size b.chars ≤ Position.limit := Nat.le_of_lt_succ hsize
  have hpartition := SourceBuffer.partition_parts hlimit
  refine ⟨b.parts, hpartition, fun table mode t ht => ?_⟩
  have hwithin := Cursor.within_ofText b.chars
  obtain ⟨u, v, htext, hplace, hlength⟩ : ∃ u v, b.chars = u ++ (t.text.toList ++ v) ∧
      t.position = Position.start.through u (t.text.toList ++ v) ∧ u.length < Position.limit := by
    rcases ht with ht | ⟨rfl, hshort⟩
    · obtain ⟨u, v, htext, hplace⟩ := Lexer.stands_of_mem_tokens hwithin ht
      refine ⟨u, v, htext, hplace, ?_⟩
      -- The lexeme has a byte, so that one is left of the limit before it.
      have hpos := Text.size_pos (Lexer.ne_nil_of_mem_tokens ht)
      have hle := Text.length_le_size u
      rw [htext, Text.size_append, Text.size_append] at hlimit
      omega
    · refine ⟨b.chars, [], by simp [Token.endOfInput], ?_, hshort⟩
      exact Lexer.position_drain hwithin #[]
  obtain ⟨before, line, ending, later, left, hbegins⟩ :=
    Token.exists_begins hlimit htext hplace hlength
  have hline : t.position.line ≤ Position.limit := by
    rw [hplace, ← SourceBuffer.lineColumn_size htext]
    exact Nat.min_le_right ..
  have hlineText := hbegins.lineText hpartition hline
  refine ⟨before, line, ending, later, left, hbegins, hlineText, fun d hd => ?_⟩
  have hstart : d.location.start = t.position := by rw [hd]; rfl
  have hbytes : d.location.length = t.length := by rw [hd]; rfl
  have hrows := snippet_eq_rows (some b) (d := d) (by rw [hstart]; exact hlineText)
  rw [hrows, caretRow, indentation, hstart, hbytes, hbegins.column_eq, Nat.add_sub_cancel,
    hbegins.take_left, hbegins.charsWithin hpartition hlimit]

/-- A tab, and a word that goes over the end of a line. -/
def wordDecls : List LexemeDecl :=
  [.ofNamedLiteral "tab" "\t", .ofNamedLiteral "word" "éx\r\nb"]

/-- The text of the two. -/
def wordText : List Char := ['\t', 'é', 'x', '\r', '\n', 'b']

theorem exists_token_word : ∃ t, TokenTable.ofDecls wordDecls = .ok t ∧
    ∃ token ∈ (Lexer.tokenize t .keep wordText).1.toList,
      token.text.toList = wordText.drop 1 ∧ token.position = ⟨1, 2, 1⟩ := by
  have hforms : List.Forall₂ TokenTable.Compiles wordDecls
      ([wordText.take 1, wordText.drop 1].map .literal) := .cons rfl (.cons rfl .nil)
  obtain ⟨t, ht⟩ := TokenTable.exists_ofDecls (by decide) (by decide) hforms
  have htab : t.Wins (wordText.take 1 ++ wordText.drop 1) (wordText.take 1) 0 := by
    refine TokenTable.wins_literal ht hforms rfl ?_
    rintro (_ | _ | m) v ⟨⟩ hv
    · rfl
    · exact absurd hv (by decide)
  have hword : t.Wins (wordText.drop 1 ++ []) (wordText.drop 1) 1 := by
    refine TokenTable.wins_literal ht hforms rfl ?_
    rintro (_ | _ | m) v ⟨⟩ hv
    · exact absurd hv (by decide)
    · rfl
  have hdivides : t.Divides (.ofText wordText)
      [⟨.kind 0, String.ofList (wordText.take 1), ⟨1, 1, 0⟩⟩,
        ⟨.kind 1, String.ofList (wordText.drop 1), ⟨1, 2, 1⟩⟩] _ :=
    .token (.wins htab) rfl (.token (.wins hword) rfl (.done rfl))
  have hindexed := (TokenTable.indexed_of_ofDecls ht).1
  have hlasts : Lexer.Lasts t wordText := Lexer.lasts_of_decls ht (by decide)
  obtain ⟨hall, -⟩ := Lexer.divides_tokenize hindexed .keep hlasts
  obtain ⟨htokens, -⟩ := hall.unique hindexed hdivides
  refine ⟨t, ht, ⟨.kind 1, String.ofList (wordText.drop 1), ⟨1, 2, 1⟩⟩, ?_, ?_, rfl⟩
  · rw [htokens]
    exact List.mem_cons_of_mem _ (List.mem_singleton_self _)
  · exact String.toList_ofList

/-- The word begins behind the tab, and two of its characters are on the line. -/
theorem snippet_underlines_word : ∃ t, TokenTable.ofDecls wordDecls = .ok t ∧
    Text.size (SourceBuffer.ofText none (String.ofList wordText)).chars < 2 ^ 32 ∧
    ∃ token ∈ (Lexer.tokenize t .keep wordText).1.toList, ∀ d, d.location = .ofToken token →
      (⟨false, some (.ofText none (String.ofList wordText))⟩ : Terminal).snippet
          (.ofText none (String.ofList wordText)) d
        = rows "1" "\téx" ("\t^^" ++ (d.label.map (" " ++ ·)).getD "") := by
  obtain ⟨t, ht, token, hmem, htext, hposition⟩ := exists_token_word
  have hchars : (SourceBuffer.ofText none (String.ofList wordText)).chars = wordText :=
    String.toList_ofList
  have hsize : Text.size (SourceBuffer.ofText none (String.ofList wordText)).chars < 2 ^ 32 := by
    rw [hchars]
    decide
  refine ⟨t, ht, hsize, token, hmem, fun d hd => ?_⟩
  obtain ⟨parts, -, hall⟩ := snippet_underlines _ hsize
  obtain ⟨before, line, ending, later, left, hbegins, hline, hrows⟩ :=
    hall t .keep token (.inl (by rwa [hchars]))
  have hshown : (SourceBuffer.ofText none (String.ofList wordText)).lineText 1 = some "\téx" := by
    simp [SourceBuffer.lineText, SourceBuffer.ofText, wordText, Line.split, Line.splitFrom]
  rw [hposition] at hline
  obtain rfl : "\téx" = line := Option.some.inj (hshown.symm.trans hline)
  have hleft : left = ['\t'] := by
    have hcolumn := hbegins.column_eq
    rw [hposition] at hcolumn
    obtain ⟨c, rfl⟩ := List.length_eq_one_iff.1 (Nat.succ.inj hcolumn).symm
    obtain ⟨rfl, -⟩ := List.cons_prefix_cons.1 hbegins.within
    rfl
  rw [hrows d hd, hposition, hleft, htext]
  rfl

end Terminal

end FrontEnd
