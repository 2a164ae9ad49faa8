import FrontEnd.Proofs.Source.Lines
import Mathlib.Data.List.Infix

/-!
# Lines divide a text

The lines of a buffer with their ends make up its text. An offset stands for the end of the greatest
first part of the text that it does not cut off, and the position that is looked up says which line
that is in, and how many characters of the line are in it. So positions and ends of first parts come
in the same order, except for the end of a text for which there is no number left.

- `Text.Floor`: the first part of a text that an offset stands for;
- `Line.Lined.drop`: the lines from one on are those of the text from there on;
- `Line.Lined.length_eq`: the lines are counted by the line ends;
- `Line.Reaches`: the line that a first part of the text ends in, and how much of it;
- `SourceBuffer.lineColumn_floor`: **the position of an offset counts lines and characters**;
- `SourceBuffer.Partition`: the lines and their ends are the text;
- `SourceBuffer.Stands`, `SourceBuffer.Placed`: the places in the lines are the positions;
- `SourceBuffer.divides_and_orders`: **the lines divide the text, and positions are in its order**;
- `SourceBuffer.positions_meet`: the last two positions of a text that has one line only.
-/

namespace FrontEnd

namespace Text

variable {u v text : List Char} {bytes : Nat}

/-- The first part `u` is as long as it can be without going over the bytes, `v` is what comes
behind it. -/
structure Floor (text : List Char) (bytes : Nat) (u v : List Char) : Prop where
  eq : text = u ++ v
  le : size u ≤ bytes
  lt : ∀ c rest, v = c :: rest → bytes < size u + c.utf8Size

theorem exists_floor (text : List Char) (bytes : Nat) : ∃ u v, Floor text bytes u v := by
  induction text generalizing bytes with
  | nil => exact ⟨[], [], rfl, Nat.zero_le _, nofun⟩
  | cons c text ih =>
    by_cases hfits : c.utf8Size ≤ bytes
    · obtain ⟨u, v, rfl, hle, hlt⟩ := ih (bytes - c.utf8Size)
      refine ⟨c :: u, v, rfl, ?_, fun d rest hv => ?_⟩
      · rw [size_cons]
        omega
      · have hnext := hlt d rest hv
        rw [size_cons]
        omega
    · refine ⟨[], c :: text, rfl, Nat.zero_le _, fun d rest hv => ?_⟩
      obtain ⟨rfl, -⟩ := List.cons.inj hv
      rw [size_nil]
      omega

/-- Bytes behind the end of the text stand for the end. -/
theorem Floor.clamp (h : Floor text bytes u v) : Floor text (min bytes (size text)) u v where
  eq := h.eq
  le := by
    have hle := size_le ⟨v, h.eq.symm⟩
    have := h.le
    omega
  lt := fun c rest hv => by
    have := h.lt c rest hv
    omega

/-- A first part that is longer has the next character. -/
theorem Floor.lt_size (h : Floor text bytes u v) {p : List Char} (hp : p <+: text)
    (hlt : size u < size p) : bytes < size p := by
  have hu : u <+: text := ⟨v, h.eq.symm⟩
  obtain ⟨q, rfl⟩ := List.prefix_of_prefix_length_le hu hp
    (Nat.le_of_lt (length_lt_of_size_lt hu hp hlt))
  obtain ⟨rest, hrest⟩ := hp
  cases q with
  | nil => simp at hlt
  | cons c q =>
    have hv : v = c :: (q ++ rest) := by
      rw [h.eq, List.append_assoc, List.append_cancel_left_eq] at hrest
      exact hrest.symm
    have hnext := h.lt c _ hv
    rw [size_append, size_cons]
    omega

/-- No first part within the bytes is longer. -/
theorem Floor.greatest (h : Floor text bytes u v) {p : List Char} (hp : p <+: text)
    (hle : size p ≤ bytes) : size p ≤ size u := by
  by_contra hlt
  exact absurd (h.lt_size hp (Nat.lt_of_not_le hlt)) (Nat.not_lt.2 hle)

/-- A first part is what its own length stands for. -/
theorem floor_size (h : text = u ++ v) : Floor text (size u) u v :=
  ⟨h, Nat.le_refl _, fun c _ _ => Nat.lt_add_of_pos_right c.utf8Size_pos⟩

end Text

namespace Line

variable {start byte : Nat} {text content ending rest : List Char} {l l' : Line}
  {ls pre post pre' post' : List Line}

/-! ## Lines one behind the other -/

/-- The text of lines, with their ends. -/
def joined (ls : List Line) : List Char := ls.flatMap chars

theorem joined_append (ls ls' : List Line) : joined (ls ++ ls') = joined ls ++ joined ls' :=
  List.flatMap_append

theorem joined_cons (l : Line) (ls : List Line) : joined (l :: ls) = l.chars ++ joined ls := rfl

namespace Lined

theorem joined_eq (h : Lined start text ls) : joined ls = text := by
  induction h with
  | last hplain => simp [joined, chars]
  | line hplain hending hrest ih => rw [joined_cons, ih, chars]

theorem start_head (h : Lined start text (l :: ls)) : l.start = start := by
  cases h <;> rfl

theorem tail (h : Lined start text (l :: ls)) (hls : ls ≠ []) :
    Lined (start + Text.size l.chars) (joined ls) ls := by
  cases h with
  | last hplain => exact absurd rfl hls
  | line hplain hending hrest =>
    rw [hrest.joined_eq]
    exact hrest

/-- The lines from one on are those of the text from there on. -/
theorem drop (h : Lined start text (pre ++ post)) (hpost : post ≠ []) :
    Lined (start + Text.size (joined pre)) (joined post) post := by
  induction pre generalizing start text with
  | nil =>
    have hjoined : joined post = text := h.joined_eq
    rw [hjoined]
    exact h
  | cons l pre ih =>
    have hlater := ih (h.tail (List.append_ne_nil_of_right_ne_nil pre hpost))
    rwa [joined_cons, Text.size_append, ← Nat.add_assoc]

/-- A line begins where those before it end. -/
theorem start_eq (h : Lined start text (pre ++ l :: post)) :
    l.start = start + Text.size (joined pre) :=
  (h.drop (List.cons_ne_nil l post)).start_head

/-- The last line has no end, every other one has one. -/
theorem ends (h : Lined start text (l :: post)) :
    (∀ c ∈ l.content, Plain c) ∧
      (Ends l.ending (joined post) ∧ post ≠ [] ∨ l.ending = [] ∧ post = []) := by
  cases h with
  | last hplain => exact ⟨hplain, .inr ⟨rfl, rfl⟩⟩
  | line hplain hending hrest =>
    refine ⟨hplain, .inl ⟨?_, ?_⟩⟩
    · rwa [hrest.joined_eq]
    · cases hrest <;> exact List.cons_ne_nil _ _

/-- Every line before another one has a character. -/
theorem length_le (h : Lined start text (pre ++ post)) (hpost : post ≠ []) :
    pre.length ≤ (joined pre).length := by
  induction pre generalizing start text with
  | nil => exact Nat.zero_le _
  | cons l pre ih =>
    have hlater := List.append_ne_nil_of_right_ne_nil pre hpost
    have hle := ih (h.tail hlater)
    have hne : l.chars ≠ [] := by
      rcases h.ends.2 with ⟨hending, -⟩ | ⟨-, hnil⟩
      · exact List.append_ne_nil_of_right_ne_nil _ hending.ne_nil
      · exact absurd hnil hlater
    have hpos := List.length_pos_iff.2 hne
    rw [joined_cons, List.length_append, List.length_cons]
    omega

end Lined

/-! ### How many there are -/

theorem lineEnds_plain (h : ∀ c ∈ content, Plain c) (rest : List Char) :
    Position.lineEnds (content ++ rest) = Position.lineEnds rest := by
  induction content with
  | nil => rfl
  | cons c content ih =>
    obtain ⟨⟨hfeed, hreturn⟩, hcontent⟩ := List.forall_mem_cons.1 h
    have hinside : Position.isLineEnd c (content ++ rest).head? = false := by
      simp [Position.isLineEnd, hfeed, hreturn]
    rw [List.cons_append, Position.lineEnds, hinside, if_neg Bool.false_ne_true, Nat.zero_add,
      ih hcontent]

theorem lineEnds_ends (h : Ends ending rest) :
    Position.lineEnds (ending ++ rest) = Position.lineEnds rest + 1 := by
  cases h with
  | feed => simp [Position.lineEnds, Position.isLineEnd, Nat.add_comm]
  | pair => simp [Position.lineEnds, Position.isLineEnd, Nat.add_comm]
  | lone h => simp [Position.lineEnds, Position.isLineEnd, h, Nat.add_comm]

theorem Lined.length_eq (h : Lined start text ls) : ls.length = Position.lineEnds text + 1 := by
  induction h with
  | last hplain =>
    have hnone := lineEnds_plain hplain []
    rw [List.append_nil] at hnone
    rw [hnone]
    rfl
  | line hplain hending hrest ih =>
    rw [List.append_assoc, lineEnds_plain hplain, lineEnds_ends hending, List.length_cons, ih]

/-! ## The line of a byte -/

/-- A later byte is in the same line or in a later one. -/
theorem Found.mono {byte' : Nat} (h : Found ls byte pre l post) (h' : Found ls byte' pre' l' post')
    (hle : byte ≤ byte') : pre = pre' ∧ l = l' ∧ post = post' ∨ pre.length < pre'.length := by
  have heq := h.eq.symm.trans h'.eq
  rcases List.append_eq_append_iff.1 heq with ⟨mid, rfl, hmid⟩ | ⟨mid, rfl, hmid⟩
  · cases mid with
    | nil =>
      obtain ⟨rfl, rfl⟩ := List.cons.inj hmid
      exact .inl ⟨(List.append_nil pre).symm, rfl, rfl⟩
    | cons x mid =>
      refine .inr ?_
      rw [List.length_append, List.length_cons]
      omega
  · cases mid with
    | nil =>
      obtain ⟨rfl, rfl⟩ := List.cons.inj hmid
      exact .inl ⟨List.append_nil pre', rfl, rfl⟩
    | cons x mid =>
      -- The line of the earlier byte would begin behind the later byte.
      obtain ⟨rfl, rfl⟩ := List.cons.inj hmid
      have hlt := h'.lt_start l (List.mem_append_right _ List.mem_cons_self)
      exact absurd h.start_le (Nat.not_le_of_lt (Nat.lt_of_le_of_lt hle hlt))

/-! ## The line that a first part ends in -/

/-- A first part `u` of the text of lines ends in the line `l`, of which it has `w`. -/
structure Reaches (ls : List Line) (u : List Char) (pre : List Line) (l : Line) (post : List Line)
    (w : List Char) : Prop where
  eq : ls = pre ++ l :: post
  before : u = joined pre ++ w
  within : w <+: l.chars
  /-- Behind the whole of a line the next one begins. -/
  short : w = l.chars → post = []

theorem joined_prefix {w : List Char} (hw : w <+: l.chars) (pre post : List Line) :
    joined pre ++ w <+: joined (pre ++ l :: post) := by
  rw [joined_append, joined_cons, List.prefix_append_right_inj]
  exact hw.trans (List.prefix_append ..)

theorem Lined.exists_reaches {u v : List Char} (h : Lined 0 text ls) (htext : text = u ++ v) :
    ∃ pre l post w, Reaches ls u pre l post w := by
  obtain ⟨pre, l, post, w, hfound, hw, hsize, -⟩ := h.exists_line htext 1
  rw [Nat.zero_add] at hfound hsize
  have heq := hfound.eq
  subst heq
  have hstart : l.start = Text.size (joined pre) := by rw [h.start_eq, Nat.zero_add]
  have hbefore : u = joined pre ++ w := by
    refine Text.eq_of_size_eq ⟨v, htext.symm⟩ ?_ ?_
    · rw [← h.joined_eq]
      exact joined_prefix hw pre post
    · rw [Text.size_append]
      omega
  refine ⟨pre, l, post, w, rfl, hbefore, hw, fun hall => ?_⟩
  cases post with
  | nil => rfl
  | cons l' post =>
    -- The next line would begin where the first part ends.
    have hbehind := hfound.lt_start l' List.mem_cons_self
    rw [List.append_cons] at h
    rw [h.start_eq, joined_append, Text.size_append, joined_cons, Text.size_append, ← hall,
      hbefore, Text.size_append] at hbehind
    simp [joined] at hbehind

namespace Reaches

variable {u v w : List Char}

theorem length_eq (hr : Reaches ls u pre l post w) : u.length = (joined pre).length + w.length := by
  rw [hr.before, List.length_append]

theorem size_eq (hr : Reaches ls u pre l post w) :
    Text.size u = Text.size (joined pre) + Text.size w := by
  rw [hr.before, Text.size_append]

theorem start_add (h : Lined 0 text ls) (hr : Reaches ls u pre l post w) :
    l.start + Text.size w = Text.size u := by
  rw [hr.eq] at h
  rw [h.start_eq, Nat.zero_add, hr.size_eq]

theorem isPrefix (h : Lined 0 text ls) (hr : Reaches ls u pre l post w) : u <+: text := by
  rw [← h.joined_eq, hr.eq, hr.before]
  exact joined_prefix hr.within pre post

/-- What is behind the first part begins with what its line still has. -/
theorem behind (h : Lined 0 text ls) (hr : Reaches ls u pre l post w) (htext : text = u ++ v) :
    ∃ w', l.chars = w ++ w' ∧ v = w' ++ joined post := by
  obtain ⟨w', hw⟩ := hr.within
  refine ⟨w', hw.symm, ?_⟩
  have hjoined := h.joined_eq
  rw [htext, hr.eq, hr.before, joined_append, joined_cons, ← hw] at hjoined
  simpa using hjoined.symm

theorem size_lt (hr : Reaches ls u pre l post w) (hpost : post ≠ []) :
    Text.size w < Text.size l.chars := by
  obtain ⟨w', hw⟩ := hr.within
  have hne : w' ≠ [] := by
    rintro rfl
    rw [List.append_nil] at hw
    exact hpost (hr.short hw)
  have hpos := Text.size_pos hne
  rw [← hw, Text.size_append]
  omega

/-- The line that a first part ends in is the line of every offset that stands for it. -/
theorem found (h : Lined 0 text ls) (hr : Reaches ls u pre l post w)
    (hf : Text.Floor text byte u v) : Found ls byte pre l post where
  eq := hr.eq
  start_le := by
    have := hr.start_add h
    have := hf.le
    omega
  lt_start := fun l' hl' => by
    obtain ⟨mid, post', rfl⟩ := List.append_of_mem hl'
    have hlonger := hr.size_lt (List.ne_nil_of_mem hl')
    have hsplit : ls = (pre ++ l :: mid) ++ l' :: post' := by
      rw [hr.eq, List.append_assoc]
      rfl
    rw [hsplit] at h
    rw [h.start_eq, Nat.zero_add]
    refine hf.lt_size ?_ ?_
    · rw [← h.joined_eq, joined_append (pre ++ l :: mid)]
      exact List.prefix_append ..
    · rw [joined_append, joined_cons, Text.size_append, Text.size_append, hr.size_eq]
      omega

theorem length_le (h : Lined 0 text ls) (hr : Reaches ls u pre l post w) :
    pre.length + w.length ≤ u.length := by
  rw [hr.eq] at h
  have hle := h.length_le (List.cons_ne_nil l post)
  rw [hr.length_eq]
  omega

/-- Unless the counts end there, there is a number for the line and for the column. -/
theorem lt_limit (h : Lined 0 text ls) (hr : Reaches ls u pre l post w)
    (hlength : text.length ≤ Position.limit) (hover : ¬ Position.Overflows u) :
    pre.length < Position.limit ∧ w.length < Position.limit := by
  have hle := hr.length_le h
  obtain ⟨v, rfl⟩ := hr.isPrefix h
  rw [List.length_append] at hlength
  by_cases hshort : u.length < Position.limit
  · omega
  · -- The first part is the whole text.
    obtain rfl : v = [] := List.length_eq_zero_iff.1 (by omega)
    rw [List.append_nil] at h
    have hcount := h.length_eq
    have hends := Position.lineEnds_le u
    rw [hr.eq, List.length_append, List.length_cons] at hcount
    refine ⟨Nat.lt_of_not_le fun hlines => ?_, Nat.lt_of_not_le fun hcolumns => ?_⟩
    · exact hover ⟨by omega, .inr (by omega)⟩
    · obtain ⟨w', hw', hnil⟩ := hr.behind h (List.append_nil u).symm
      obtain ⟨rfl, -⟩ := List.append_eq_nil_iff.1 hnil.symm
      have hpost := hr.short (by rw [hw', List.append_nil])
      rw [hpost, List.length_nil] at hcount
      exact hover ⟨by omega, .inl (by omega)⟩

end Reaches

end Line

namespace SourceBuffer

open Line (joined)

variable {b : SourceBuffer} {u v : List Char}

/-- The position of an offset counts the lines before, and the characters that the first part it
stands for has of its line. -/
theorem lineColumn_floor {offset : Nat} {pre post : List Line} {l : Line} {w : List Char}
    (hf : Text.Floor b.chars offset u v) (hr : Line.Reaches b.lines.toList u pre l post w) :
    b.lineColumn offset = .ofCounts (pre.length + 1) (w.length + 1) (Text.size u) := by
  have hclamp := hf.clamp
  have hlocate := locate_eq (hr.found b.lined hclamp)
  have hstart := hr.start_add b.lined
  have hle := hclamp.le
  obtain ⟨w', hw, hv⟩ := hr.behind b.lined hf.eq
  have hstop : ∀ c rest, w' = c :: rest →
      min offset (Text.size b.chars) - l.start < 0 + Text.size w + c.utf8Size := by
    intro c rest hc
    have hlt := hclamp.lt c (rest ++ joined post) (by rw [hv, hc]; rfl)
    omega
  have hwalk := Line.walk_stop 0 0 (by omega) hstop
  rw [lineColumn, Text.utf8ByteSize_eq, show b.text.toList = b.chars from rfl]
  simp only [hlocate, hw, hwalk, Nat.zero_add, hstart]
  rfl

/-! ## Lines -/

/-- The texts of lines and their ends, one behind the other. -/
def written (parts : List (String × List Char)) : List Char :=
  parts.flatMap fun p => p.1.toList ++ p.2

/-- The lines of the buffer with their ends make up the text. -/
structure Partition (b : SourceBuffer) (parts : List (String × List Char)) : Prop where
  length : parts.length = b.lineCount
  lineText : ∀ line ≤ Position.limit,
    b.lineText line = if line = 0 then none else parts[line - 1]?.map Prod.fst
  written : b.chars = written parts
  plain : ∀ p ∈ parts, ∀ c ∈ p.1.toList, c ≠ '\n' ∧ c ≠ '\r'
  /-- Each line but the last one has the end that is found behind it. -/
  ends : ∀ before p later, parts = before ++ p :: later →
    Line.Ends p.2 (SourceBuffer.written later) ∨ p.2 = [] ∧ later = []

/-- A place in a line: a first part of the text, the number of the line that it ends in, and the
column behind what it has of this line. Behind the end of a line is the first place of the next. -/
inductive Stands (parts : List (String × List Char)) : List Char → Nat → Nat → Prop where
  | inside {before later : List (String × List Char)} {p : String × List Char} {w : List Char}
    (hparts : parts = before ++ p :: later) (hwithin : w <+: p.1.toList ++ p.2)
    (hshort : p.2 ≠ [] → w ≠ p.1.toList ++ p.2) :
    Stands parts (written before ++ w) (before.length + 1) (w.length + 1)

/-- A line as it is shown, with its end. -/
def part (l : Line) : String × List Char := (String.ofList l.content, l.ending)

/-- The lines that have a number. -/
def parts (b : SourceBuffer) : List (String × List Char) :=
  (b.lines.toList.take Position.limit).map part

theorem part_append (l : Line) : (part l).1.toList ++ (part l).2 = l.chars := by
  rw [part, String.toList_ofList]
  rfl

theorem written_part (ls : List Line) : written (ls.map part) = joined ls := by
  simp only [written, List.flatMap_map, part_append]
  rfl

/-- Lines whose number is beyond the limit have no characters. -/
theorem joined_drop_limit (h : Text.size b.chars ≤ Position.limit) :
    joined (b.lines.toList.drop Position.limit) = [] := by
  by_cases hall : b.lines.toList.drop Position.limit = []
  · rw [hall]
    rfl
  · have hlined := b.lined
    rw [← List.take_append_drop Position.limit b.lines.toList] at hlined
    have hle := hlined.length_le hall
    have htake : (b.lines.toList.take Position.limit).length = Position.limit := by
      rw [List.length_take]
      have := mt List.drop_eq_nil_of_le hall
      omega
    have hlength := congrArg List.length hlined.joined_eq
    rw [Line.joined_append, List.length_append] at hlength
    have := Text.length_le_size b.chars
    exact List.length_eq_zero_iff.1 (by omega)

/-- Where a line stands among those that have a number, it stands among all lines. -/
theorem exists_line_of_parts {before later : List (String × List Char)} {p : String × List Char}
    (h : b.parts = before ++ p :: later) :
    ∃ pre l mid, b.lines.toList = pre ++ l :: (mid ++ b.lines.toList.drop Position.limit) ∧
      before = pre.map part ∧ p = part l ∧ later = mid.map part := by
  obtain ⟨pre, rest, hsplit, rfl, hrest⟩ := List.map_eq_append_iff.1 h
  obtain ⟨l, mid, rfl, rfl, rfl⟩ := List.map_eq_cons_iff.1 hrest
  refine ⟨pre, l, mid, ?_, rfl, rfl, rfl⟩
  have hall := List.take_append_drop Position.limit b.lines.toList
  rw [hsplit] at hall
  simpa using hall.symm

theorem ends_of_eq {pre post : List Line} {l : Line} (h : b.lines.toList = pre ++ l :: post) :
    (∀ c ∈ l.content, Line.Plain c) ∧
      (Line.Ends l.ending (joined post) ∧ post ≠ [] ∨ l.ending = [] ∧ post = []) := by
  have hlined := b.lined
  rw [h] at hlined
  exact (hlined.drop (List.cons_ne_nil l post)).ends

/-- The lines divide the text. -/
theorem partition_parts (h : Text.size b.chars ≤ Position.limit) : b.Partition b.parts where
  length := by
    rw [parts, List.length_map, List.length_take, Array.length_toList, Nat.min_comm]
    rfl
  lineText := fun line hline => by
    unfold SourceBuffer.lineText
    split
    · rfl
    · rw [parts, List.getElem?_map, List.getElem?_take_of_lt (by omega), Array.getElem?_toList,
        Option.map_map]
      rfl
  written := by
    have hall := List.take_append_drop Position.limit b.lines.toList
    rw [parts, written_part, ← b.lined.joined_eq, ← hall, Line.joined_append, joined_drop_limit h,
      List.append_nil, hall]
  plain := fun p hp => by
    obtain ⟨before, later, hsplit⟩ := List.append_of_mem hp
    obtain ⟨pre, l, mid, hlines, -, rfl, -⟩ := exists_line_of_parts hsplit
    rw [part, String.toList_ofList]
    exact (ends_of_eq hlines).1
  ends := fun before p later hsplit => by
    obtain ⟨pre, l, mid, hlines, -, rfl, rfl⟩ := exists_line_of_parts hsplit
    rcases (ends_of_eq hlines).2 with ⟨hending, -⟩ | ⟨hending, hpost⟩
    · rw [Line.joined_append, joined_drop_limit h, List.append_nil] at hending
      rw [written_part]
      exact .inl hending
    · rw [(List.append_eq_nil_iff.1 hpost).1]
      exact .inr ⟨hending, rfl⟩

/-! ## Positions -/

/-- The positions of a buffer are those of its lines, in the order of the text, up to a first part
behind which there is no number for the line or the column. Only the whole of a text of
`Position.limit` characters is such a part. -/
structure Placed (b : SourceBuffer) (parts : List (String × List Char)) : Prop where
  /-- An offset stands for the end of a first part of the text, as long as it can be. -/
  floor : ∀ offset, ∃ u v, Text.Floor b.chars offset u v ∧
    (b.lineColumn offset).offset = Text.size u ∧
    1 ≤ (b.lineColumn offset).line ∧ (b.lineColumn offset).line ≤ b.lineCount ∧
    (¬ Position.Overflows u →
      Stands parts u (b.lineColumn offset).line (b.lineColumn offset).column)
  /-- Every place in a line is the position of an offset. -/
  onto : ∀ u line column, Stands parts u line column → ¬ Position.Overflows u →
    b.lineColumn (Text.size u) = ⟨line, column, Text.size u⟩
  order : ∀ u u', u <+: b.chars → u' <+: b.chars → Text.size u < Text.size u' →
    ¬ Position.Overflows u' →
    (b.lineColumn (Text.size u)).line < (b.lineColumn (Text.size u')).line ∨
      (b.lineColumn (Text.size u)).line = (b.lineColumn (Text.size u')).line ∧
        (b.lineColumn (Text.size u)).column < (b.lineColumn (Text.size u')).column

section

variable {pre post : List Line} {l : Line} {w : List Char} {offset line column : Nat}

theorem lineColumn_of_le (h : Text.size b.chars ≤ Position.limit)
    (hf : Text.Floor b.chars offset u v) (hr : Line.Reaches b.lines.toList u pre l post w)
    (hline : pre.length < Position.limit) (hcolumn : w.length < Position.limit) :
    b.lineColumn offset = ⟨pre.length + 1, w.length + 1, Text.size u⟩ := by
  have hsize := Text.size_le (hr.isPrefix b.lined)
  rw [lineColumn_floor hf hr, Position.ofCounts, Position.bounded, Position.bounded,
    Position.bounded, Nat.min_eq_left hline, Nat.min_eq_left hcolumn,
    Nat.min_eq_left (Nat.le_trans hsize h)]

/-- A line with a number stands among those that have one. -/
theorem stands_of_reaches (hr : Line.Reaches b.lines.toList u pre l post w)
    (hline : pre.length < Position.limit) :
    Stands b.parts u (pre.length + 1) (w.length + 1) := by
  obtain ⟨more, hmore⟩ := Nat.exists_eq_add_of_lt hline
  have htake : b.lines.toList.take Position.limit = pre ++ l :: post.take more := by
    rw [hr.eq, List.take_append, List.take_of_length_le (Nat.le_of_lt hline),
      show Position.limit - pre.length = more + 1 by omega, List.take_succ_cons]
  have hparts : b.parts = pre.map part ++ part l :: (post.take more).map part := by
    rw [parts, htake, List.map_append, List.map_cons]
  have hshort : (part l).2 ≠ [] → w ≠ (part l).1.toList ++ (part l).2 := by
    rw [part_append]
    intro hending hall
    rcases (ends_of_eq hr.eq).2 with ⟨-, hpost⟩ | ⟨hnil, -⟩
    · exact hpost (hr.short hall)
    · exact hending hnil
  have hstands := Stands.inside hparts (by rw [part_append]; exact hr.within) hshort
  rwa [written_part, ← hr.before, List.length_map] at hstands

theorem reaches_of_stands (h : Stands b.parts u line column) :
    ∃ pre l post w, Line.Reaches b.lines.toList u pre l post w ∧ pre.length < Position.limit ∧
      line = pre.length + 1 ∧ column = w.length + 1 := by
  obtain @⟨before, later, p, w, hparts, hwithin, hshort⟩ := h
  obtain ⟨pre, l, mid, hlines, rfl, rfl, -⟩ := exists_line_of_parts hparts
  rw [part_append] at hwithin hshort
  rw [written_part, List.length_map]
  refine ⟨pre, l, _, w, ⟨hlines, rfl, hwithin, fun hall => ?_⟩, ?_, rfl, rfl⟩
  · -- The whole of a line is a place in it only when the line has no end.
    have hnil : l.ending = [] := by
      by_contra hending
      exact hshort hending hall
    rcases (ends_of_eq hlines).2 with ⟨hending, -⟩ | ⟨-, hpost⟩
    · exact absurd hnil hending.ne_nil
    · exact hpost
  · have hlength := congrArg List.length hparts
    rw [parts, List.length_map, List.length_take, List.length_append, List.length_map,
      List.length_cons] at hlength
    omega

/-- What is behind more of the text has a later line, or a later column of the same line. -/
theorem lineColumn_lt {u' : List Char} (h : Text.size b.chars ≤ Position.limit) (hu : u <+: b.chars)
    (hu' : u' <+: b.chars) (hlt : Text.size u < Text.size u') (hover : ¬ Position.Overflows u') :
    (b.lineColumn (Text.size u)).line < (b.lineColumn (Text.size u')).line ∨
      (b.lineColumn (Text.size u)).line = (b.lineColumn (Text.size u')).line ∧
        (b.lineColumn (Text.size u)).column < (b.lineColumn (Text.size u')).column := by
  have hshorter := Text.length_lt_of_size_lt hu hu' hlt
  obtain ⟨v, hv⟩ := hu
  obtain ⟨v', hv'⟩ := hu'
  have hf := Text.floor_size hv.symm
  have hf' := Text.floor_size hv'.symm
  obtain ⟨pre, l, post, w, hr⟩ := b.lined.exists_reaches hv.symm
  obtain ⟨pre', l', post', w', hr'⟩ := b.lined.exists_reaches hv'.symm
  have hlength := (Text.length_le_size b.chars).trans h
  obtain ⟨hline, hcolumn⟩ := hr.lt_limit b.lined hlength fun hall => by
    have hle := List.IsPrefix.length_le ⟨v', hv'⟩
    have := hall.1
    omega
  obtain ⟨hline', hcolumn'⟩ := hr'.lt_limit b.lined hlength hover
  rw [lineColumn_of_le h hf hr hline hcolumn, lineColumn_of_le h hf' hr' hline' hcolumn']
  rcases (hr.found b.lined hf).mono (hr'.found b.lined hf') (Nat.le_of_lt hlt) with
    ⟨rfl, rfl, rfl⟩ | hearlier
  · have hcolumns := hr.length_eq
    have hcolumns' := hr'.length_eq
    exact .inr ⟨rfl, Nat.succ_lt_succ (by omega)⟩
  · exact .inl (Nat.succ_lt_succ hearlier)

end

/-- The positions are those of the lines. -/
theorem placed_parts (h : Text.size b.chars ≤ Position.limit) : b.Placed b.parts where
  floor := fun offset => by
    obtain ⟨u, v, hf⟩ := Text.exists_floor b.chars offset
    obtain ⟨pre, l, post, w, hr⟩ := b.lined.exists_reaches hf.eq
    have hsize := Text.size_le (hr.isPrefix b.lined)
    have hcount : pre.length + 1 ≤ b.lines.size := by
      rw [← Array.length_toList, hr.eq, List.length_append, List.length_cons]
      omega
    have hposition := lineColumn_floor hf hr
    refine ⟨u, v, hf, ?_, ?_, ?_, fun hover => ?_⟩
    · rw [hposition]
      exact Nat.min_eq_left (Nat.le_trans hsize h)
    · rw [hposition]
      exact Nat.le_min.2 ⟨Nat.le_add_left .., by decide⟩
    · rw [hposition]
      exact Nat.le_min.2 ⟨Nat.le_trans (Nat.min_le_left ..) hcount, Nat.min_le_right ..⟩
    · obtain ⟨hline, hcolumn⟩ :=
        hr.lt_limit b.lined ((Text.length_le_size b.chars).trans h) hover
      rw [lineColumn_of_le h hf hr hline hcolumn]
      exact stands_of_reaches hr hline
  onto := fun u line column hstands hover => by
    obtain ⟨pre, l, post, w, hr, -, rfl, rfl⟩ := reaches_of_stands hstands
    obtain ⟨hline, hcolumn⟩ := hr.lt_limit b.lined ((Text.length_le_size b.chars).trans h) hover
    obtain ⟨v, hv⟩ := hr.isPrefix b.lined
    exact lineColumn_of_le h (Text.floor_size hv.symm) hr hline hcolumn
  order := fun u u' hu hu' hlt hover => lineColumn_lt h hu hu' hlt hover

/-- The lines of a text of at most `Position.limit` bytes divide it: put one behind the other with
the end that each of them has, they are the text, and none of them has a line end in it. The places
in the lines and the ends of first parts of the text are the same in number and order, except for
the end of a text of `Position.limit` characters of which all or none end a line. -/
theorem divides_and_orders (b : SourceBuffer) (h : Text.size b.chars ≤ Position.limit) :
    ∃ parts, b.Partition parts ∧ b.Placed parts :=
  ⟨b.parts, partition_parts h, placed_parts h⟩

/-- Two lines, where the first one ends in a carriage return and a line feed. -/
theorem divides_and_orders_pair :
    Text.size (ofText none (String.ofList ['a', '\r', '\n', 'é'])).chars ≤ Position.limit ∧
      ∃ parts, (ofText none (String.ofList ['a', '\r', '\n', 'é'])).Partition parts ∧
        (ofText none (String.ofList ['a', '\r', '\n', 'é'])).Placed parts ∧
        written parts = ['a', '\r', '\n', 'é'] ∧
        ((ofText none (String.ofList ['a', '\r', '\n', 'é'])).lineColumn 4).offset = 3 := by
  have hchars : (ofText none (String.ofList ['a', '\r', '\n', 'é'])).chars
      = ['a', '\r', '\n', 'é'] := String.toList_ofList
  have hlimit : Text.size (ofText none (String.ofList ['a', '\r', '\n', 'é'])).chars
      ≤ Position.limit := by
    rw [hchars]
    decide
  obtain ⟨parts, hpartition, hplaced⟩ := divides_and_orders _ hlimit
  refine ⟨hlimit, parts, hpartition, hplaced, ?_, ?_⟩
  · rw [← hpartition.written, hchars]
  · -- The byte is the second one of the last character.
    obtain ⟨u, v, hf, hoffset, -⟩ := hplaced.floor 4
    rw [hchars] at hf
    have hfloor : Text.Floor ['a', '\r', '\n', 'é'] 4 ['a', '\r', '\n'] ['é'] :=
      ⟨rfl, by decide, by simp; decide⟩
    have hle := hf.greatest ⟨['é'], rfl⟩ hfloor.le
    have hge := hfloor.greatest ⟨v, hf.eq.symm⟩ hf.le
    rw [hoffset]
    exact Nat.le_antisymm hge hle

/-- In a line of letters the column counts them, up to the bound. -/
theorem lineColumn_letters {m n : Nat} (hchars : b.chars = List.replicate n 'a') (h : m ≤ n) :
    b.lineColumn (Text.size (List.replicate m 'a')) = .ofCounts 1 (1 + m) m := by
  have hplain : ∀ c ∈ List.replicate m 'a', Line.Plain c := fun c hc => by
    rw [List.eq_of_mem_replicate hc]
    exact ⟨by decide, by decide⟩
  have hsplit : b.chars = List.replicate m 'a' ++ List.replicate (n - m) 'a' := by
    rw [hchars, List.replicate_append_replicate, Nat.add_sub_cancel' h]
  rw [lineColumn_size hsplit, ← Position.ofCounts_start, Line.through_plain hplain,
    List.length_replicate, Text.size_replicate rfl, Nat.zero_add]

/-- The last two characters of a line of `Position.limit` letters end at one line and column. -/
theorem positions_meet : ∃ b : SourceBuffer, Text.size b.chars ≤ Position.limit ∧
    ∃ u u', u <+: b.chars ∧ u' <+: b.chars ∧ Text.size u < Text.size u' ∧
      (b.lineColumn (Text.size u)).line = (b.lineColumn (Text.size u')).line ∧
      (b.lineColumn (Text.size u)).column = (b.lineColumn (Text.size u')).column := by
  obtain ⟨n, hn⟩ : ∃ n, n + 1 = Position.limit := ⟨4294967294, rfl⟩
  obtain ⟨b, hchars⟩ : ∃ b : SourceBuffer, b.chars = List.replicate (n + 1) 'a' :=
    ⟨ofText none (String.ofList (List.replicate (n + 1) 'a')), String.toList_ofList⟩
  have hshorter : List.replicate n 'a' <+: List.replicate (n + 1) 'a' :=
    List.prefix_replicate_iff.2 ⟨by simp, by simp⟩
  refine ⟨b, ?_, List.replicate n 'a', List.replicate (n + 1) 'a', ?_, ?_, ?_, ?_⟩
  · rw [hchars, Text.size_replicate rfl, hn]
  · rw [hchars]
    exact hshorter
  · rw [hchars]
  · rw [Text.size_replicate rfl, Text.size_replicate rfl]
    exact Nat.lt_succ_self n
  -- The columns are one beyond the numbers of letters, cut off at the limit.
  · rw [lineColumn_letters hchars (Nat.le_succ n), lineColumn_letters hchars (Nat.le_refl _),
      Position.ofCounts, Position.ofCounts]
    refine ⟨rfl, ?_⟩
    dsimp only
    rw [Position.bounded, Position.bounded]
    omega

end SourceBuffer

end FrontEnd
