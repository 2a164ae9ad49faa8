import FrontEnd.Token.Set

/-!
# Membership in sets of token ids

What a set contains decides what it is, as far as ids go, and each operation is known by its
members.

- `TokenSet.bit`: the words of a set as one row of bits, of which all behind the last are zero;
- `TokenSet.contains_insert`, `TokenSet.contains_union` and their neighbours: the operations;
- `TokenSet.Tight`: sets that hold ids and nothing else, in as many words as they need;
- `TokenSet.ext_of_tight`: **tight sets with the same members are equal**.
-/

namespace FrontEnd

theorem TokenId.index_injective {a b : TokenId} (h : a.index = b.index) : a = b := by
  have hb := ofIndex?_index b
  rw [← h, ofIndex?_index] at hb
  exact Option.some.inj hb

/-- Number of token ids. -/
def TokenId.total : Nat := 65538

theorem TokenId.index_lt (id : TokenId) : id.index < total := by
  cases id with
  | unknown => simp [index, total]
  | eof => simp [index, total]
  | kind rule =>
    have := rule.isLt
    simp only [index, total]
    omega

/-! ## Rows of words -/

namespace Word

variable {words more others : List Word} {n i : Nat}

theorem ext_getD (hlen : more.length = others.length)
    (h : ∀ i, more.getD i 0#64 = others.getD i 0#64) : more = others := by
  refine List.ext_getElem hlen fun i hi hi' => ?_
  have hsame := h i
  rwa [List.getD_eq_getElem?_getD, List.getD_eq_getElem?_getD, List.getElem?_eq_getElem hi,
    List.getElem?_eq_getElem hi'] at hsame

theorem length_resize : (resize words n).length = max words.length n := by
  rw [resize, List.length_append, List.length_replicate]
  omega

theorem getD_resize : (resize words n).getD i 0#64 = words.getD i 0#64 := by
  rw [resize, List.getD_eq_getElem?_getD, List.getD_eq_getElem?_getD, List.getElem?_append]
  split
  · rfl
  · rename_i hi
    rw [List.getElem?_replicate, List.getElem?_eq_none (l := words) (by omega)]
    split <;> rfl

theorem getD_merge (h : others.length ≤ more.length) :
    (merge more others).1.getD i 0#64 = more.getD i 0#64 ||| others.getD i 0#64 := by
  induction more, others using merge.induct generalizing i with
  | case1 mine more theirs others _ _ _ ih =>
    rw [merge]
    cases i with
    | zero => rfl
    | succ i => exact ih (Nat.le_of_succ_le_succ h)
  | case2 words others hnone =>
    have hothers : others = [] := by
      cases words with
      | nil => exact List.eq_nil_of_length_eq_zero (Nat.le_zero.1 h)
      | cons mine more =>
        cases others with
        | nil => rfl
        | cons theirs others => exact absurd rfl (hnone mine more theirs others rfl)
    subst hothers
    cases words <;> simp [merge]

theorem length_merge : (merge more others).1.length = more.length := by
  induction more, others using merge.induct with
  | case1 mine more theirs others _ _ _ ih =>
    rw [merge]
    exact congrArg (· + 1) ih
  | case2 words others _ => cases words <;> cases others <;> simp_all [merge]

theorem getD_zipWith_and :
    (List.zipWith (· &&& ·) more others : List Word).getD i 0#64
      = more.getD i 0#64 &&& others.getD i 0#64 := by
  simp only [List.getD_eq_getElem?_getD, List.getElem?_zipWith]
  cases more[i]? <;> cases others[i]? <;> simp

end Word

namespace TokenSet

variable {a b : TokenSet} {id t : TokenId} {ids : List TokenId} {i : Nat}

/-- The bit at a place of the row of words. -/
def bit (s : TokenSet) (i : Nat) : Bool := (s.words.getD (i / 64) 0#64).getLsbD (i % 64)

/-- The bits of a row are those of its words. -/
theorem getD_words_eq_iff :
    (∀ i, a.words.getD i 0#64 = b.words.getD i 0#64) ↔ ∀ i, a.bit i = b.bit i := by
  constructor
  · intro h i
    rw [bit, bit, h]
  · refine fun h i => BitVec.eq_of_getLsbD_eq fun k hk => ?_
    have hsame := h (i * 64 + k)
    rwa [bit, bit, show (i * 64 + k) / 64 = i by omega, show (i * 64 + k) % 64 = k by omega]
      at hsame

theorem contains_eq_bit : a.contains t = a.bit t.index := by
  rw [contains, bit, List.getD_eq_getElem?_getD]
  cases a.words[t.index / 64]? <;> simp

@[simp] theorem bit_empty : (∅ : TokenSet).bit i = false := BitVec.getLsbD_zero

theorem bit_insert : (a.insert id).bit i = (a.bit i || id.index == i) := by
  have hlen : id.index / 64 < (Word.resize a.words (id.index / 64 + 1)).length := by
    rw [Word.length_resize]
    omega
  have hword : (a.insert id).words.getD (i / 64) 0#64
      = a.words.getD (i / 64) 0#64
        ||| if id.index / 64 = i / 64 then BitVec.twoPow 64 (id.index % 64) else 0#64 := by
    have hsame : (Word.resize a.words (id.index / 64 + 1)).getD (i / 64) 0#64
        = a.words.getD (i / 64) 0#64 := Word.getD_resize
    rw [← hsame, insert, List.getD_eq_getElem?_getD, List.getElem?_modify,
      List.getD_eq_getElem?_getD]
    split
    · rename_i hi
      rw [List.getElem?_eq_getElem (hi ▸ hlen)]
      rfl
    · cases (Word.resize a.words (id.index / 64 + 1))[i / 64]? <;> simp
  rw [bit, hword, BitVec.getLsbD_or, bit]
  congr 1
  split
  · rename_i hi
    rw [BitVec.getLsbD_twoPow]
    have hmod : id.index % 64 < 64 := Nat.mod_lt _ (by decide)
    rw [decide_eq_true hmod, Bool.true_and, Bool.eq_iff_iff, decide_eq_true_iff, beq_iff_eq]
    omega
  · rename_i hi
    rw [BitVec.getLsbD_zero]
    exact (beq_eq_false_iff_ne.2 fun h => hi (congrArg (· / 64) h)).symm

theorem bit_union : (a.union b).bit i = (a.bit i || b.bit i) := by
  have hlen : b.words.length ≤ (Word.resize a.words b.words.length).length := by
    rw [Word.length_resize]
    exact Nat.le_max_right ..
  rw [bit, union, unionWith]
  dsimp only
  rw [Word.getD_merge hlen, Word.getD_resize, BitVec.getLsbD_or]
  rfl

theorem bit_inter : (a.inter b).bit i = (a.bit i && b.bit i) := by
  rw [bit, inter, Word.getD_zipWith_and, BitVec.getLsbD_and]
  rfl

/-! ## Operations -/

@[simp] theorem contains_empty : (∅ : TokenSet).contains t = false := rfl

@[simp] theorem contains_insert : (a.insert id).contains t = (a.contains t || id == t) := by
  rw [contains_eq_bit, bit_insert, contains_eq_bit]
  congr 1
  rw [Bool.eq_iff_iff, beq_iff_eq, beq_iff_eq]
  exact ⟨TokenId.index_injective, congrArg TokenId.index⟩

@[simp] theorem contains_single : (single id).contains t = (id == t) := by
  rw [single, contains_insert]
  show ((∅ : TokenSet).contains t || id == t) = (id == t)
  rw [contains_empty, Bool.false_or]

@[simp] theorem contains_insertMany :
    (a.insertMany ids).contains t = (a.contains t || ids.contains t) := by
  induction ids generalizing a with
  | nil => simp [insertMany]
  | cons id ids ih =>
    show ((a.insert id).insertMany ids).contains t = _
    rw [ih, contains_insert, List.contains_cons, Bool.or_assoc, Bool.beq_comm (a := t)]

@[simp] theorem contains_ofList : (ofList ids).contains t = ids.contains t := by
  rw [ofList, contains_insertMany]
  show ((∅ : TokenSet).contains t || ids.contains t) = ids.contains t
  rw [contains_empty, Bool.false_or]

@[simp] theorem contains_union : (a.union b).contains t = (a.contains t || b.contains t) := by
  rw [contains_eq_bit, bit_union, contains_eq_bit, contains_eq_bit]

@[simp] theorem contains_inter : (a.inter b).contains t = (a.contains t && b.contains t) := by
  rw [contains_eq_bit, bit_inter, contains_eq_bit, contains_eq_bit]

/-- A row of zeros has no ones. -/
theorem bit_of_isEmpty (h : a.isEmpty = true) (i : Nat) : a.bit i = false := by
  rw [isEmpty, List.all_eq_true] at h
  rw [bit, List.getD_eq_getElem?_getD]
  cases hw : a.words[i / 64]? with
  | none => exact BitVec.getLsbD_zero
  | some word =>
    rw [Option.getD_some, beq_iff_eq.1 (h word (List.mem_of_getElem? hw))]
    exact BitVec.getLsbD_zero

/-- Two sets that share no word with a one in it share no bit. -/
theorem isEmpty_inter : (a.inter b).isEmpty = !a.intersects b := by
  rw [isEmpty, intersects, List.not_any_eq_all_not]
  simp only [inter, bne, Bool.not_not]

/-- Sets with a common member intersect. -/
theorem intersects_of_contains (ha : a.contains t = true) (hb : b.contains t = true) :
    a.intersects b = true := by
  rw [← Bool.not_eq_false]
  intro h
  have hnone := bit_of_isEmpty (isEmpty_inter.trans (congrArg not h)) t.index
  rw [bit_inter, ← contains_eq_bit, ha, ← contains_eq_bit, hb] at hnone
  cases hnone

/-! ## Sets that hold nothing but ids -/

/-- No bit stands for something that is not an id. -/
def Narrow (s : TokenSet) : Prop := ∀ i, TokenId.total ≤ i → s.bit i = false

theorem narrow_empty : (∅ : TokenSet).Narrow := fun _ _ => bit_empty

theorem Narrow.insert (h : a.Narrow) (id : TokenId) : (a.insert id).Narrow := by
  intro i hi
  rw [bit_insert, h i hi, Bool.false_or, beq_eq_false_iff_ne]
  exact Nat.ne_of_lt (Nat.lt_of_lt_of_le id.index_lt hi)

theorem Narrow.insertMany (h : a.Narrow) (ids : List TokenId) : (a.insertMany ids).Narrow := by
  induction ids generalizing a with
  | nil => exact h
  | cons id ids ih => exact ih (h.insert id)

theorem Narrow.union (ha : a.Narrow) (hb : b.Narrow) : (a.union b).Narrow := by
  intro i hi
  rw [bit_union, ha i hi, hb i hi, Bool.or_false]

theorem Narrow.inter (ha : a.Narrow) (b : TokenSet) : (a.inter b).Narrow := by
  intro i hi
  rw [bit_inter, ha i hi, Bool.false_and]

/-! ## Sets without words of zeros at the end -/

/-- Nothing but ids, in as many words as the last of them needs. -/
structure Tight (s : TokenSet) : Prop where
  narrow : s.Narrow
  last : ∀ i, i + 1 = s.words.length → s.words.getD i 0#64 ≠ 0#64

theorem tight_empty : (∅ : TokenSet).Tight :=
  ⟨narrow_empty, fun _ h => absurd h (Nat.succ_ne_zero _)⟩

theorem or_ne_zero_left {v w : Word} (h : v ≠ 0#64) : v ||| w ≠ 0#64 := by
  intro h0
  exact h (BitVec.or_eq_zero_iff.1 h0).1

theorem Tight.insert (h : a.Tight) (id : TokenId) : (a.insert id).Tight := by
  refine ⟨h.narrow.insert id, fun i hi hzero => ?_⟩
  have hlen : i + 1 = max a.words.length (id.index / 64 + 1) := by
    rw [hi, TokenSet.insert, List.length_modify, Word.length_resize]
  -- The last word is the one of the new member, or it was the last one before.
  have hbits : ∀ j, j / 64 = i → (a.insert id).bit j = false := by
    intro j hj
    rw [bit, hj, hzero]
    exact BitVec.getLsbD_zero
  by_cases hid : id.index / 64 = i
  · have hmember := hbits id.index hid
    rw [bit_insert, beq_self_eq_true, Bool.or_true] at hmember
    cases hmember
  · refine h.last i (by omega) (BitVec.eq_of_getLsbD_eq fun k hk => ?_)
    have hsame := hbits (i * 64 + k) (by omega)
    rw [bit_insert, Bool.or_eq_false_iff, bit, show (i * 64 + k) / 64 = i by omega,
      show (i * 64 + k) % 64 = k by omega] at hsame
    rw [hsame.1]
    exact BitVec.getLsbD_zero.symm

theorem tight_single (id : TokenId) : (single id).Tight := tight_empty.insert id

theorem Tight.insertMany (h : a.Tight) (ids : List TokenId) : (a.insertMany ids).Tight := by
  induction ids generalizing a with
  | nil => exact h
  | cons id ids ih => exact ih (h.insert id)

theorem Tight.union (ha : a.Tight) (hb : b.Tight) : (a.union b).Tight := by
  refine ⟨ha.narrow.union hb.narrow, fun i hi => ?_⟩
  have hlen : (Word.resize a.words b.words.length).length = max a.words.length b.words.length :=
    Word.length_resize
  have hword : (a.union b).words.getD i 0#64 = a.words.getD i 0#64 ||| b.words.getD i 0#64 := by
    rw [TokenSet.union, unionWith]
    dsimp only
    rw [Word.getD_merge (by omega), Word.getD_resize]
  have hlast : i + 1 = max a.words.length b.words.length := by
    rw [hi, ← hlen, TokenSet.union, unionWith]
    exact Word.length_merge
  rw [hword]
  rcases Nat.le_total b.words.length a.words.length with h | h
  · exact or_ne_zero_left (ha.last i (by omega))
  · rw [BitVec.or_comm]
    exact or_ne_zero_left (hb.last i (by omega))

/-- Rows of the same bits are equal if neither ends in a word of zeros. -/
theorem ext_of_tight (ha : a.Tight) (hb : b.Tight)
    (h : ∀ i < TokenId.total, a.bit i = b.bit i) : a = b := by
  have hbit : ∀ i, a.bit i = b.bit i := by
    intro i
    by_cases hi : i < TokenId.total
    · exact h i hi
    · rw [ha.narrow i (Nat.le_of_not_lt hi), hb.narrow i (Nat.le_of_not_lt hi)]
  have hword := getD_words_eq_iff.2 hbit
  have hzero : ∀ (s : TokenSet) (i : Nat), s.words.length ≤ i → s.words.getD i 0#64 = 0#64 := by
    intro s i hi
    rw [List.getD_eq_getElem?_getD, List.getElem?_eq_none hi, Option.getD_none]
  have hlen : a.words.length = b.words.length := by
    rcases Nat.lt_trichotomy a.words.length b.words.length with hlt | heq | hlt
    · refine absurd ?_ (hb.last (b.words.length - 1) (by omega))
      rw [← hword, hzero a _ (by omega)]
    · exact heq
    · refine absurd ?_ (ha.last (a.words.length - 1) (by omega))
      rw [hword, hzero b _ (by omega)]
  cases a
  cases b
  exact congrArg TokenSet.mk (Word.ext_getD hlen hword)

end TokenSet

end FrontEnd
