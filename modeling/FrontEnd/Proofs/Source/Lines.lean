import FrontEnd.Proofs.Text.Measure
import FrontEnd.Source.Buffer

/-!
# The lines of a text

A buffer looks up a byte among the places where its lines start. What the lines are is said here
without the accumulators of the splitter, and the look-up is shown to find the line that a first
part of the text ends in.

- `Line.Ends`: what ends a line, given what comes behind it;
- `Line.Lined`: the lines of a text;
- `Line.lined_split`: **splitting finds them**;
- `Position.through`: the position behind a part of a text;
- `Position.tally`, `Position.Overflows`: the same without a bound for lines and columns, and where
  the bound is too small;
- `Line.Lined.exists_line`: the line that a first part of the text ends in;
- `SourceBuffer.lineColumn_size`: **looking up the end of a first part of the text gives the
  position behind it**.
-/

namespace FrontEnd

namespace Text

theorem utf8ByteSize_ofList (cs : List Char) : (String.ofList cs).utf8ByteSize = size cs := by
  induction cs with
  | nil => rfl
  | cons c cs ih =>
    rw [String.ofList_cons, String.utf8ByteSize_append, String.utf8ByteSize_singleton, ih, size_cons]

theorem utf8ByteSize_eq (s : String) : s.utf8ByteSize = size s.toList := by
  rw [← utf8ByteSize_ofList, String.ofList_toList]

theorem size_le {u text : List Char} (h : u <+: text) : size u ≤ size text := by
  obtain ⟨v, rfl⟩ := h
  rw [size_append]
  exact Nat.le_add_right ..

end Text

namespace Position

/-- The position that so many lines, columns and bytes lead to, each cut off at the limit. -/
def ofCounts (line column offset : Nat) : Position :=
  ⟨bounded line, bounded column, bounded offset⟩

/-- The position behind `u`, when `v` comes behind it. -/
def through (p : Position) : List Char → List Char → Position
  | [], _ => p
  | c :: u, v => (p.advance c (u ++ v).head?).through u v

theorem through_append (p : Position) (u u' v : List Char) :
    p.through (u ++ u') v = (p.through u (u' ++ v)).through u' v := by
  induction u generalizing p with
  | nil => rfl
  | cons c u ih => rw [List.cons_append, through, through, ih, List.append_assoc]

theorem ofCounts_start : ofCounts 1 1 0 = start := by decide

theorem bounded_bounded_add (m n : Nat) : bounded (bounded m + n) = bounded (m + n) := by
  simp only [bounded]
  omega

/-- The offset counts the bytes that are read, up to the limit. -/
theorem offset_through {p : Position} (hp : p.offset ≤ limit) (u v : List Char) :
    (p.through u v).offset = bounded (p.offset + Text.size u) := by
  induction u generalizing p with
  | nil => exact (Nat.min_eq_left hp).symm
  | cons c u ih =>
    have hoffset : (p.advance c (u ++ v).head?).offset = bounded (p.offset + c.utf8Size) := by
      rw [advance]
      split <;> rfl
    have hle : (p.advance c (u ++ v).head?).offset ≤ limit := hoffset ▸ Nat.min_le_right ..
    rw [through, ih hle, hoffset, bounded_bounded_add, Text.size_cons, Nat.add_assoc]

variable {c : Char} {next : Option Char} {line column offset : Nat}

theorem advance_of_isLineEnd (h : isLineEnd c next = true) :
    (ofCounts line column offset).advance c next = ofCounts (line + 1) 1 (offset + c.utf8Size) := by
  rw [advance, if_pos h]
  simp only [ofCounts, bounded_bounded_add]
  rfl

theorem advance_of_not_isLineEnd (h : isLineEnd c next = false) :
    (ofCounts line column offset).advance c next
      = ofCounts line (column + 1) (offset + c.utf8Size) := by
  rw [advance, if_neg (Bool.eq_false_iff.1 h)]
  simp only [ofCounts, bounded_bounded_add]

/-! ### Without a bound -/

/-- The line and the column behind `u`, when `v` comes behind it, as numbers without a bound. -/
def tally (line column : Nat) : List Char → List Char → Nat × Nat
  | [], _ => (line, column)
  | c :: u, v =>
    if isLineEnd c (u ++ v).head? then tally (line + 1) 1 u v else tally line (column + 1) u v

/-- How many lines a text ends. -/
def lineEnds : List Char → Nat
  | [] => 0
  | c :: rest => (if isLineEnd c rest.head? then 1 else 0) + lineEnds rest

/-- The text has as many characters as there are numbers for lines and for columns, and all or none
of them end a line. Then there is no number for the line behind it, or for the column. -/
def Overflows (text : List Char) : Prop :=
  text.length = limit ∧ (lineEnds text = 0 ∨ lineEnds text = text.length)

/-- A cursor counts in the same way, up to the bound. -/
theorem through_ofCounts (line column offset : Nat) (u v : List Char) :
    (ofCounts line column offset).through u v
      = ofCounts (tally line column u v).1 (tally line column u v).2 (offset + Text.size u) := by
  induction u generalizing line column offset with
  | nil => rfl
  | cons c u ih =>
    rw [through, tally, Text.size_cons, ← Nat.add_assoc]
    split
    · next hend => rw [advance_of_isLineEnd hend, ih]
    · next hend => rw [advance_of_not_isLineEnd (Bool.eq_false_iff.2 hend), ih]

theorem tally_append (line column : Nat) (u u' v : List Char) :
    tally line column (u ++ u') v
      = tally (tally line column u (u' ++ v)).1 (tally line column u (u' ++ v)).2 u' v := by
  induction u generalizing line column with
  | nil => rfl
  | cons c u ih =>
    rw [List.cons_append, tally, tally, List.append_assoc]
    split <;> exact ih ..

/-- A character takes a new line or a new column. -/
theorem tally_le (line column : Nat) (hcolumn : 1 ≤ column) (u v : List Char) :
    line ≤ (tally line column u v).1 ∧ 1 ≤ (tally line column u v).2 ∧
      (tally line column u v).1 + (tally line column u v).2 ≤ line + column + u.length := by
  induction u generalizing line column with
  | nil => exact ⟨Nat.le_refl _, hcolumn, Nat.le_refl _⟩
  | cons c u ih =>
    rw [tally, List.length_cons]
    split
    · obtain ⟨hline, hpos, hsum⟩ := ih (line + 1) 1 (Nat.le_refl 1)
      omega
    · obtain ⟨hline, hpos, hsum⟩ := ih line (column + 1) (Nat.le_add_left ..)
      omega

/-- The lines behind a text are counted by its line ends, and without line ends the columns are
counted by its characters. -/
theorem tally_nil (line column : Nat) (u : List Char) :
    (tally line column u []).1 = line + lineEnds u ∧
      (lineEnds u = 0 → (tally line column u []).2 = column + u.length) := by
  induction u generalizing line column with
  | nil => exact ⟨rfl, fun _ => rfl⟩
  | cons c u ih =>
    rw [tally, lineEnds, List.append_nil, List.length_cons]
    split
    · obtain ⟨hline, -⟩ := ih (line + 1) 1
      exact ⟨by omega, fun hnone => by omega⟩
    · obtain ⟨hline, hcolumn⟩ := ih line (column + 1)
      refine ⟨by omega, fun hnone => ?_⟩
      rw [hcolumn (by omega)]
      omega

theorem lineEnds_le (u : List Char) : lineEnds u ≤ u.length := by
  induction u with
  | nil => exact Nat.le_refl 0
  | cons c u ih =>
    rw [lineEnds, List.length_cons]
    split <;> omega

/-- These are the texts behind which the line or the column is beyond the bound. -/
theorem overflows_iff {text : List Char} (h : text.length ≤ limit) : Overflows text ↔
    limit < (tally 1 1 text []).1 ∨ limit < (tally 1 1 text []).2 := by
  obtain ⟨hline, hnone⟩ := tally_nil 1 1 text
  obtain ⟨hfirst, hpos, hsum⟩ := tally_le 1 1 (Nat.le_refl 1) text []
  have hends := lineEnds_le text
  constructor
  · rintro ⟨hlength, hzero | hall⟩
    · have hcolumn := hnone hzero
      omega
    · omega
  · intro hover
    unfold Overflows
    omega

end Position

namespace Line

variable {content ending text u v rest : List Char} {ls pre post : List Line} {l : Line}
  {found : Array Line} {start offset byte : Nat} {c : Char}

/-- Neither a line feed nor a carriage return. -/
def Plain (c : Char) : Prop := c ≠ '\n' ∧ c ≠ '\r'

/-- What ends a line before `rest`. A carriage return before a line feed does not: both do. -/
inductive Ends : List Char → List Char → Prop where
  | feed (rest : List Char) : Ends ['\n'] rest
  | pair (rest : List Char) : Ends ['\r', '\n'] rest
  | lone {rest : List Char} (h : rest.head? ≠ some '\n') : Ends ['\r'] rest

/-- The lines of a text that begins at the byte `start`. -/
inductive Lined : Nat → List Char → List Line → Prop where
  | last {start : Nat} {content : List Char} (hplain : ∀ c ∈ content, Plain c) :
    Lined start content [⟨start, content, []⟩]
  | line {start : Nat} {content ending rest : List Char} {ls : List Line}
    (hplain : ∀ c ∈ content, Plain c) (hending : Ends ending rest)
    (hrest : Lined (start + Text.size (content ++ ending)) rest ls) :
    Lined start (content ++ ending ++ rest) (⟨start, content, ending⟩ :: ls)

/-! ## Positions in a line -/

theorem through_plain (h : ∀ c ∈ u, Plain c) (line column offset : Nat) (v : List Char) :
    (Position.ofCounts line column offset).through u v
      = .ofCounts line (column + u.length) (offset + Text.size u) := by
  induction u generalizing column offset with
  | nil => rfl
  | cons c u ih =>
    obtain ⟨⟨hfeed, hreturn⟩, hu⟩ := List.forall_mem_cons.1 h
    have hinside : Position.isLineEnd c (u ++ v).head? = false := by
      simp [Position.isLineEnd, hfeed, hreturn]
    rw [Position.through, Position.advance_of_not_isLineEnd hinside, ih hu, List.length_cons,
      Text.size_cons, Nat.add_assoc, Nat.add_assoc, Nat.add_comm 1]

/-- Inside the pair of a carriage return and a line feed the line goes on. -/
theorem through_return (line column offset : Nat) (v : List Char) :
    (Position.ofCounts line column offset).through ['\r'] ('\n' :: v)
      = .ofCounts line (column + 1) (offset + 1) := by
  rw [Position.through, Position.through, Position.advance_of_not_isLineEnd (by rfl)]
  rfl

theorem through_ends (h : Ends ending rest) (line column offset : Nat) :
    (Position.ofCounts line column offset).through ending rest
      = .ofCounts (line + 1) 1 (offset + Text.size ending) := by
  cases h with
  | feed =>
    rw [Position.through, Position.through, Position.advance_of_isLineEnd (by rfl)]
    rfl
  | pair =>
    have hpair := Position.through_append (.ofCounts line column offset) ['\r'] ['\n'] rest
    rw [List.singleton_append, List.singleton_append, through_return] at hpair
    rw [hpair, Position.through, Position.through, Position.advance_of_isLineEnd (by rfl)]
    rfl
  | lone h =>
    have hend : Position.isLineEnd '\r' ([] ++ rest).head? = true := by
      simpa [Position.isLineEnd] using h
    rw [Position.through, Position.through, Position.advance_of_isLineEnd hend]
    rfl

/-- Before the end of a line its columns count the characters. -/
theorem through_inside (hplain : ∀ c ∈ content, Plain c) (hending : Ends ending rest)
    (heq : content ++ ending = u ++ v) (hv : v ≠ []) (line column offset : Nat) :
    (Position.ofCounts line column offset).through u (v ++ rest)
      = .ofCounts line (column + u.length) (offset + Text.size u) := by
  rcases List.append_eq_append_iff.1 heq with ⟨e, rfl, hsplit⟩ | ⟨c, rfl, -⟩
  · rw [Position.through_append, through_plain hplain]
    -- Only the pair of a carriage return and a line feed has an inside.
    have hshort : e = [] ∨ e = ['\r'] ∧ v = ['\n'] := by
      cases hending with
      | feed | lone =>
        rcases List.append_eq_singleton_iff.1 hsplit.symm with ⟨he, -⟩ | ⟨-, hnil⟩
        · exact .inl he
        · exact absurd hnil hv
      | pair =>
        rcases List.append_eq_cons_iff.1 hsplit.symm with ⟨he, -⟩ | ⟨e', rfl, hsplit'⟩
        · exact .inl he
        · rcases List.append_eq_singleton_iff.1 hsplit'.symm with ⟨rfl, rfl⟩ | ⟨-, hnil⟩
          · exact .inr ⟨rfl, rfl⟩
          · exact absurd hnil hv
    rcases hshort with rfl | ⟨rfl, rfl⟩
    · simp [Position.through]
    · rw [List.singleton_append, through_return, List.length_append, Text.size_append, Nat.add_assoc,
        Nat.add_assoc]
      rfl
  · exact through_plain (fun x hx => hplain x (List.mem_append_left _ hx)) ..

/-! ## Splitting -/

/-- A line end is no character of the line. -/
theorem splitFrom_plain (hc : Plain c) (start offset : Nat) (content : List Char)
    (found : Array Line) (rest : List Char) :
    splitFrom start offset content found (c :: rest)
      = splitFrom start (offset + c.utf8Size) (c :: content) found rest := by
  rw [splitFrom.eq_3, if_neg (not_or.2 hc)]
  rintro rest' rfl
  exact absurd rfl hc.2

theorem splitFrom_ends (h : Ends ending rest) (start offset : Nat) (content : List Char)
    (found : Array Line) :
    splitFrom start offset content found (ending ++ rest)
      = splitFrom (offset + Text.size ending) (offset + Text.size ending) []
          (found.push ⟨start, content.reverse, ending⟩) rest := by
  have hfeed : Text.size ['\n'] = 1 := by decide
  have hpair : Text.size ['\r', '\n'] = 2 := by decide
  have hlone : Text.size ['\r'] = 1 := by decide
  cases h with
  | feed =>
    rw [List.singleton_append, splitFrom.eq_3, if_pos (.inl rfl), hfeed]
    simp
  | pair => rw [List.cons_append, List.singleton_append, splitFrom, hpair]
  | lone h =>
    rw [List.singleton_append, splitFrom.eq_3, if_pos (.inr rfl), hlone]
    rintro rest' - rfl
    exact h rfl

/-- A text goes on in its line, or a line end comes first. -/
theorem plain_or_ends (c : Char) (rest : List Char) :
    Plain c ∨ ∃ ending rest', Ends ending rest' ∧ c :: rest = ending ++ rest' := by
  by_cases hfeed : c = '\n'
  · exact .inr ⟨_, rest, .feed rest, by rw [hfeed]; rfl⟩
  by_cases hreturn : c = '\r'
  · subst hreturn
    by_cases hnext : rest.head? = some '\n'
    · obtain ⟨rest', rfl⟩ := List.head?_eq_some_iff.1 hnext
      exact .inr ⟨_, rest', .pair rest', rfl⟩
    · exact .inr ⟨_, rest, .lone hnext, rfl⟩
  · exact .inl ⟨hfeed, hreturn⟩

theorem Ends.ne_nil (h : Ends ending rest) : ending ≠ [] := by
  cases h <;> nofun

/-- Splitting adds the lines of what is left to those that are found. -/
theorem lined_splitFrom (content : List Char) (hplain : ∀ c ∈ content, Plain c)
    (hoffset : offset = start + Text.size content.reverse) (found : Array Line) (text : List Char) :
    ∃ ls, (splitFrom start offset content found text).toList = found.toList ++ ls ∧
      Lined start (content.reverse ++ text) ls := by
  -- A character is added to the line that is begun, or a line ending closes it; then less text is
  -- left.
  induction hn : text.length using Nat.strongRecOn generalizing start offset content found text with
  | _ n ih =>
    match text with
    | [] =>
      refine ⟨[⟨start, content.reverse, []⟩], by simp [splitFrom], ?_⟩
      rw [List.append_nil]
      exact .last fun c hc => hplain c (List.mem_reverse.1 hc)
    | c :: rest =>
      rcases plain_or_ends c rest with hc | ⟨ending, rest', hending, heq⟩
      · have hplain' : ∀ x ∈ c :: content, Plain x := List.forall_mem_cons.2 ⟨hc, hplain⟩
        have hoffset' : offset + c.utf8Size = start + Text.size (c :: content).reverse := by
          rw [List.reverse_cons, Text.size_append, Text.size_cons, Text.size_nil, hoffset]
          omega
        obtain ⟨ls, hls, hlined⟩ := ih rest.length (by simp [← hn]) (c :: content) hplain'
          hoffset' found rest rfl
        refine ⟨ls, by rw [splitFrom_plain hc, hls], ?_⟩
        simpa using hlined
      · have hpos := List.length_pos_iff.2 hending.ne_nil
        have hlength := congrArg List.length heq
        rw [List.length_append] at hlength
        have hbehind : offset + Text.size ending
            = offset + Text.size ending + Text.size ([] : List Char).reverse := rfl
        obtain ⟨ls, hls, hlined⟩ := ih rest'.length (by rw [← hn]; omega) [] nofun hbehind
          (found.push ⟨start, content.reverse, ending⟩) rest' rfl
        refine ⟨⟨start, content.reverse, ending⟩ :: ls, ?_, ?_⟩
        · rw [heq, splitFrom_ends hending, hls, Array.toList_push, List.append_assoc,
            List.singleton_append]
        · rw [heq, ← List.append_assoc]
          refine .line (fun c hc => hplain c (List.mem_reverse.1 hc)) hending ?_
          rw [Text.size_append, ← Nat.add_assoc, ← hoffset]
          exact hlined

/-- Splitting a text finds its lines. -/
theorem lined_split (text : List Char) : Lined 0 text (split text).toList := by
  obtain ⟨ls, hls, hlined⟩ := lined_splitFrom [] nofun rfl #[] text
  have hsplit : (split text).toList = ls := by simpa [split] using hls
  rw [hsplit]
  exact hlined

/-! ## Looking up a byte -/

/-- The line `l` at the place `pre.length` is the last one that begins at or before the byte. -/
structure Found (ls : List Line) (byte : Nat) (pre : List Line) (l : Line) (post : List Line) :
    Prop where
  eq : ls = pre ++ l :: post
  start_le : l.start ≤ byte
  lt_start : ∀ l' ∈ post, byte < l'.start

/-- One step of the look-up. -/
def consider (byte : Nat) (state : Nat × Nat × Line) (line : Line) : Nat × Nat × Line :=
  (state.1 + 1, if line.start ≤ byte then (state.1, line) else state.2)

theorem fst_foldl_consider (byte : Nat) (state : Nat × Nat × Line) (ls : List Line) :
    (ls.foldl (consider byte) state).1 = state.1 + ls.length := by
  induction ls generalizing state with
  | nil => rfl
  | cons l ls ih =>
    rw [List.foldl_cons, ih, List.length_cons, Nat.add_comm ls.length, ← Nat.add_assoc]
    rfl

theorem foldl_consider_of_lt (h : ∀ l ∈ ls, byte < l.start) (state : Nat × Nat × Line) :
    (ls.foldl (consider byte) state).2 = state.2 := by
  induction ls generalizing state with
  | nil => rfl
  | cons l ls ih =>
    obtain ⟨hl, hls⟩ := List.forall_mem_cons.1 h
    rw [List.foldl_cons, ih hls, consider, if_neg (Nat.not_le_of_lt hl)]

theorem Found.foldl_consider (h : Found ls byte pre l post) :
    (ls.foldl (consider byte) (0, 0, default)).2 = (pre.length, l) := by
  rw [h.eq, List.foldl_append, List.foldl_cons, foldl_consider_of_lt h.lt_start, consider,
    if_pos h.start_le, fst_foldl_consider, Nat.zero_add]

/-- A walk ends before a character that does not fit. -/
theorem walk_stop (count size : Nat) (hle : size + Text.size u ≤ byte)
    (hlt : ∀ c rest, v = c :: rest → byte < size + Text.size u + c.utf8Size) :
    walk byte (u ++ v) count size = (count + u.length, size + Text.size u) := by
  induction u generalizing count size with
  | nil =>
    cases v with
    | nil => rfl
    | cons c rest =>
      have hnext := hlt c rest rfl
      rw [Text.size_nil, Nat.add_zero] at hnext
      rw [List.nil_append, walk, if_neg (Nat.not_le_of_lt hnext)]
      rfl
  | cons c u ih =>
    rw [Text.size_cons, ← Nat.add_assoc] at hle hlt
    rw [List.cons_append, walk, if_pos (by omega), ih _ _ hle hlt, List.length_cons, Text.size_cons]
    congr 1
    · omega
    · omega

/-- Every line of a text begins in it. -/
theorem Lined.le_start (h : Lined start text ls) : ∀ l ∈ ls, start ≤ l.start := by
  induction h with
  | last hplain => simp
  | line hplain hending hrest ih =>
    refine List.forall_mem_cons.2 ⟨Nat.le_refl _, fun l hl => ?_⟩
    exact Nat.le_trans (Nat.le_add_right ..) (ih l hl)

/-- A first part of a text goes beyond another, or something of that is behind it. -/
theorem passes_or_stops {a : List Char} (h : a ++ rest = u ++ v) :
    (∃ u', u = a ++ u' ∧ rest = u' ++ v) ∨ ∃ t, t ≠ [] ∧ a = u ++ t ∧ v = t ++ rest := by
  rcases List.append_eq_append_iff.1 h with hpasses | ⟨t, rfl, rfl⟩
  · exact .inl hpasses
  · by_cases ht : t = []
    · subst ht
      exact .inl ⟨[], by simp, rfl⟩
    · exact .inr ⟨t, ht, rfl, rfl⟩

/-- A first part of a text ends in a line, of which it has `w`. The position behind it counts the
lines before this one and the characters of `w`. -/
theorem Lined.exists_line (h : Lined start text ls) (htext : text = u ++ v) (line : Nat) :
    ∃ pre l post w, Found ls (start + Text.size u) pre l post ∧ w <+: l.chars ∧
      l.start + Text.size w = start + Text.size u ∧
      (Position.ofCounts line 1 start).through u v
        = .ofCounts (line + pre.length) (1 + w.length) (start + Text.size u) := by
  induction h generalizing u line with
  | @last start content hplain =>
    subst htext
    refine ⟨[], _, [], u, ⟨rfl, Nat.le_add_right .., nofun⟩, ?_, rfl, ?_⟩
    · simp [chars]
    · exact through_plain (fun c hc => hplain c (List.mem_append_left _ hc)) ..
  | @line start content ending rest ls hplain hending hrest ih =>
    rcases passes_or_stops htext with ⟨u', rfl, hrest'⟩ | ⟨t, ht, heq, rfl⟩
    · obtain ⟨pre, l, post, w, hfound, hw, hsize, hposition⟩ := ih hrest' (line + 1)
      rw [Text.size_append, ← Nat.add_assoc]
      refine ⟨⟨start, content, ending⟩ :: pre, l, post, w, ?_, hw, hsize, ?_⟩
      · exact ⟨by rw [hfound.eq]; rfl, hfound.start_le, hfound.lt_start⟩
      · rw [Position.through_append, Position.through_append, through_plain hplain, ← hrest',
          through_ends hending, Nat.add_assoc, ← Text.size_append, hposition, List.length_cons,
          Nat.add_assoc, Nat.add_comm 1]
    · have hbehind : Text.size u < Text.size (content ++ ending) := by
        have hpos := Text.size_pos ht
        rw [heq, Text.size_append]
        omega
      refine ⟨[], _, ls, u, ⟨rfl, Nat.le_add_right .., fun l hl => ?_⟩, ⟨t, heq.symm⟩, rfl,
        through_inside hplain hending heq ht line 1 start⟩
      have hle := hrest.le_start l hl
      omega

end Line

namespace SourceBuffer

variable {b : SourceBuffer} {u v : List Char}

theorem lined (b : SourceBuffer) : Line.Lined 0 b.chars b.lines.toList := by
  rw [b.lines_eq]
  exact Line.lined_split _

theorem locate_eq {byte : Nat} {pre post : List Line} {l : Line}
    (h : Line.Found b.lines.toList byte pre l post) : b.locate byte = (pre.length, l) := by
  rw [locate, ← Array.foldl_toList]
  exact h.foldl_consider

/-- The position of a byte at the end of a first part of the text is that behind this part. -/
theorem lineColumn_size (h : b.chars = u ++ v) :
    b.lineColumn (Text.size u) = Position.start.through u v := by
  obtain ⟨pre, l, post, w, hfound, ⟨w', hw⟩, hsize, hposition⟩ := b.lined.exists_line h 1
  rw [Nat.zero_add] at hfound hsize hposition
  rw [Position.ofCounts_start] at hposition
  have hbyte : min (Text.size u) b.text.utf8ByteSize = Text.size u := by
    rw [Text.utf8ByteSize_eq]
    exact Nat.min_eq_left (Text.size_le ⟨v, h.symm⟩)
  have hlocate := locate_eq hfound
  have hstop : ∀ c rest, w' = c :: rest → Text.size w < 0 + Text.size w + c.utf8Size := by
    intro c rest _
    have hpos := c.utf8Size_pos
    omega
  have hwalk := Line.walk_stop 0 0 (Nat.le_of_eq (Nat.zero_add _)) hstop
  rw [hposition, lineColumn, hbyte]
  simp only [hlocate, ← hw, show Text.size u - l.start = Text.size w by omega, hwalk]
  rw [Position.ofCounts, Nat.zero_add, Nat.zero_add, hsize, Nat.add_comm 1 w.length,
    Nat.add_comm 1 pre.length]

end SourceBuffer

end FrontEnd
