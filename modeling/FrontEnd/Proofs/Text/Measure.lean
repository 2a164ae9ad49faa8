import FrontEnd.Source.Cursor
import FrontEnd.Text.Measure

/-!
# Lengths in bytes

A text is cut at a length in bytes. Where that is the length of a first part, the cut gives this
part back.

- `Text.size_append`, `Text.size_lt`: lengths of parts;
- `Text.take_append`, `Cursor.rest_advanceBy`: **cutting off a first part**;
- `Cursor.advanceBy_append`: reading two parts one after the other.
-/

namespace FrontEnd

namespace Text

theorem foldl_size (n : Nat) (cs : List Char) :
    cs.foldl (fun n c => n + c.utf8Size) n = n + size cs := by
  induction cs generalizing n with
  | nil => rfl
  | cons c cs ih => rw [size, List.foldl_cons, List.foldl_cons, ih, ih, Nat.zero_add, Nat.add_assoc]

@[simp] theorem size_nil : size [] = 0 := rfl

@[simp] theorem size_cons (c : Char) (cs : List Char) : size (c :: cs) = c.utf8Size + size cs := by
  rw [size, List.foldl_cons, foldl_size, Nat.zero_add]

@[simp] theorem size_append (u v : List Char) : size (u ++ v) = size u + size v := by
  rw [size, List.foldl_append, foldl_size]
  rfl

theorem size_replicate {c : Char} (hc : c.utf8Size = 1) (n : Nat) :
    size (List.replicate n c) = n := by
  induction n with
  | zero => rfl
  | succ n ih => rw [List.replicate_succ, size_cons, ih, hc, Nat.add_comm]

theorem length_le_size (u : List Char) : u.length ≤ size u := by
  induction u with
  | nil => exact Nat.le_refl _
  | cons c u ih =>
    have hpos := c.utf8Size_pos
    rw [List.length_cons, size_cons]
    omega

theorem size_pos {u : List Char} (h : u ≠ []) : 0 < size u := by
  obtain ⟨c, rest, rfl⟩ := List.exists_cons_of_ne_nil h
  rw [size_cons]
  exact Nat.add_pos_left c.utf8Size_pos _

/-- Of the first parts of a text the longer one has more bytes. -/
theorem size_lt {u v text : List Char} (hu : u <+: text) (hv : v <+: text)
    (h : u.length < v.length) : size u < size v := by
  obtain ⟨rest, rfl⟩ := List.prefix_of_prefix_length_le hu hv (Nat.le_of_lt h)
  have hne : rest ≠ [] := by
    rintro rfl
    simp at h
  have := size_pos hne
  rw [size_append]
  omega

theorem length_lt_of_size_lt {u v text : List Char} (hu : u <+: text) (hv : v <+: text)
    (h : size u < size v) : u.length < v.length := by
  refine Nat.lt_of_not_le fun hle => ?_
  rcases Nat.lt_or_eq_of_le hle with hlt | heq
  · exact Nat.lt_asymm h (size_lt hv hu hlt)
  · have hsame := (List.prefix_of_prefix_length_le hv hu (Nat.le_of_eq heq)).eq_of_length heq
    exact Nat.lt_irrefl _ (hsame ▸ h)

/-- A first part is known by its length in bytes. -/
theorem eq_of_size_eq {u v text : List Char} (hu : u <+: text) (hv : v <+: text)
    (h : size u = size v) : u = v := by
  rcases Nat.lt_trichotomy u.length v.length with hlt | heq | hlt
  · exact absurd h (Nat.ne_of_lt (size_lt hu hv hlt))
  · exact (List.prefix_of_prefix_length_le hu hv (Nat.le_of_eq heq)).eq_of_length heq
  · exact absurd h (Nat.ne_of_gt (size_lt hv hu hlt))

theorem takeOnto_append (taken u v : List Char) :
    takeOnto taken (size u) (u ++ v) = u.reverse ++ taken := by
  induction u generalizing taken with
  | nil => cases v <;> simp [takeOnto]
  | cons c u ih =>
    have hpos := size_pos (List.cons_ne_nil c u)
    rw [List.cons_append, takeOnto, if_neg (Nat.ne_of_gt hpos), size_cons, Nat.add_sub_cancel_left,
      ih, List.reverse_cons, List.append_assoc, List.singleton_append]

/-- The first bytes of a text are its first part. -/
@[simp] theorem take_append (u v : List Char) : take (size u) (u ++ v) = u := by
  rw [take, takeOnto_append, List.append_nil, List.reverse_reverse]

end Text

namespace Cursor

theorem rest_read (before : List Char) (offset : Nat) (position : Position) (u v : List Char) :
    (read before offset position (Text.size u) (u ++ v)).rest = v := by
  induction u generalizing before offset position with
  | nil => cases v <;> simp [read]
  | cons c u ih =>
    have hpos := Text.size_pos (List.cons_ne_nil c u)
    rw [List.cons_append, read, if_neg (Nat.ne_of_gt hpos), Text.size_cons, Nat.add_sub_cancel_left,
      ih]

/-- Reading the bytes of a first part leaves the rest. -/
theorem rest_advanceBy {c : Cursor} {u v : List Char} (h : c.rest = u ++ v) :
    (c.advanceBy (Text.size u)).rest = v := by
  rw [advanceBy, h, rest_read]

theorem rest_advance {c : Cursor} {x : Char} {rest : List Char} (h : c.rest = x :: rest) :
    c.advance.rest = rest := by
  rw [advance, h]

/-- Reading some bytes is reading the next character and the bytes that are left. -/
theorem advanceBy_cons {c : Cursor} {x : Char} {rest : List Char} (h : c.rest = x :: rest)
    {bytes : Nat} (hbytes : bytes ≠ 0) :
    c.advanceBy bytes = c.advance.advanceBy (bytes - x.utf8Size) := by
  rw [advanceBy, h, read, if_neg hbytes, advance, h]
  rfl

theorem advanceBy_zero (c : Cursor) : c.advanceBy 0 = c := by
  obtain ⟨before, rest, offset, position⟩ := c
  cases rest <;> simp [advanceBy, read]

/-- Reading a character is reading its bytes. -/
theorem advance_eq {c : Cursor} {x : Char} {rest : List Char} (h : c.rest = x :: rest) :
    c.advance = c.advanceBy x.utf8Size := by
  rw [advanceBy_cons h (Nat.ne_of_gt x.utf8Size_pos), Nat.sub_self, advanceBy_zero]

/-- Reading on behind a first part. -/
theorem advanceBy_append {c : Cursor} {u v : List Char} (h : c.rest = u ++ v) (bytes : Nat) :
    (c.advanceBy (Text.size u)).advanceBy bytes = c.advanceBy (Text.size u + bytes) := by
  induction u generalizing c with
  | nil => rw [Text.size_nil, advanceBy_zero, Nat.zero_add]
  | cons x u ih =>
    have hpos := x.utf8Size_pos
    have hrest : c.advance.rest = u ++ v := rest_advance h
    rw [Text.size_cons, advanceBy_cons h (by omega), advanceBy_cons h (by omega),
      Nat.add_sub_cancel_left, ih hrest, Nat.add_assoc, Nat.add_sub_cancel_left]

/-- The offset counts the bytes that are read, up to the limit. -/
theorem offset_advanceBy {c : Cursor} {u v : List Char} (h : c.rest = u ++ v)
    (hlimit : c.position.offset ≤ Position.limit) :
    (c.advanceBy (Text.size u)).position.offset
      = Position.bounded (c.position.offset + Text.size u) := by
  induction u generalizing c with
  | nil =>
    rw [Text.size_nil, advanceBy_zero, Nat.add_zero]
    exact (Nat.min_eq_left hlimit).symm
  | cons x u ih =>
    have hpos := x.utf8Size_pos
    have hrest : c.advance.rest = u ++ v := rest_advance h
    have hoffset : c.advance.position.offset = Position.bounded (c.position.offset + x.utf8Size) := by
      rw [advance, h]
      show (c.position.advance x _).offset = _
      rw [Position.advance]
      split <;> rfl
    have hle : c.advance.position.offset ≤ Position.limit := hoffset ▸ Nat.min_le_right ..
    rw [Text.size_cons, advanceBy_cons h (by omega), Nat.add_sub_cancel_left, ih hrest hle, hoffset]
    simp only [Position.bounded]
    omega

end Cursor

end FrontEnd
