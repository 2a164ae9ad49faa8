import FrontEnd.Proofs.Token.Sets
import Mathlib.Algebra.Group.Nat.Defs
import Mathlib.Data.Finset.Card
import Mathlib.Data.Finset.Lattice.Basic
import Mathlib.Data.List.Sort

/-!
# Sets of token ids as finite sets

Whatever is done to sets of token ids, they answer as finite sets of ids do to which the same is
done. Words of zeros that a union or an intersection leaves at the end of a row show nowhere.

- `Word.places_eq`: taking and clearing the lowest one finds all ones in ascending order;
- `TokenSet.mem_members`, `TokenSet.pairwise_members`, `TokenSet.length_members`: the members;
- `TokenSet.Represents`: a set and a finite set have the same members, and every operation keeps
  that;
- `TokenSet.agrees_run`: **sets refine finite sets**, through any run of operations.
-/

namespace FrontEnd

namespace Word

variable {w : Word} {i : Nat}

/-! ## The ones of a word -/

/-- The number of a word with a one is odd above its lowest one. -/
theorem exists_toNat_eq (h : w ≠ 0#64) : ∃ n, w.toNat = 2 ^ w.ctz.toNat * (2 * n + 1) := by
  have hone : w.toNat.testBit w.ctz.toNat = true := BitVec.getLsbD_true_ctz_of_ne_zero h
  have hlow : w.toNat % 2 ^ w.ctz.toNat = 0 := by
    refine Nat.eq_of_testBit_eq fun k => ?_
    rw [Nat.testBit_mod_two_pow, Nat.zero_testBit]
    by_cases hk : k < w.ctz.toNat
    · rw [show w.toNat.testBit k = false from BitVec.getLsbD_false_of_lt_ctz hk, Bool.and_false]
    · rw [decide_eq_false hk, Bool.false_and]
  rw [Nat.testBit_eq_decide_div_mod_eq, decide_eq_true_iff] at hone
  refine ⟨w.toNat / 2 ^ w.ctz.toNat / 2, ?_⟩
  have hodd : 2 * (w.toNat / 2 ^ w.ctz.toNat / 2) + 1 = w.toNat / 2 ^ w.ctz.toNat := by omega
  rw [hodd, Nat.mul_div_cancel' (Nat.dvd_of_mod_eq_zero hlow)]

/-- Clearing takes away the lowest one and no other. -/
theorem getLsbD_clear (h : w ≠ 0#64) :
    (w &&& (w - 1#64)).getLsbD i = (w.getLsbD i && decide (i ≠ w.ctz.toNat)) := by
  obtain ⟨n, hn⟩ := exists_toNat_eq h
  have hpow : 0 < 2 ^ w.ctz.toNat := Nat.two_pow_pos _
  have hless : (w - 1#64).toNat = 2 ^ w.ctz.toNat * (2 * n) + (2 ^ w.ctz.toNat - 1) := by
    have hle : 1#64 ≤ w := by
      rw [BitVec.le_def, hn]
      exact Nat.mul_pos hpow (Nat.succ_pos _)
    rw [BitVec.toNat_sub_of_le hle, hn, show (1#64).toNat = 1 from rfl, Nat.mul_succ]
    omega
  rw [BitVec.getLsbD_and]
  show (w.toNat.testBit i && (w - 1#64).toNat.testBit i) = (w.toNat.testBit i && _)
  rw [hless, hn, Nat.testBit_two_pow_mul_add _ (Nat.sub_lt hpow Nat.one_pos),
    Nat.testBit_two_pow_mul]
  rcases Nat.lt_trichotomy i w.ctz.toNat with hi | rfl | hi
  · simp [Nat.not_le.2 hi]
  · simp
  · obtain ⟨k, rfl⟩ : ∃ k, i = w.ctz.toNat + (k + 1) := ⟨i - w.ctz.toNat - 1, by omega⟩
    simp [Nat.not_lt.2 (Nat.le_of_lt hi), Nat.testBit_succ, Nat.mul_add_div]

theorem mem_places : i ∈ w.places ↔ w.getLsbD i = true := by
  induction w using places.induct with
  | case1 => rw [places]; simp
  | case2 w h ih =>
    have hone : w.getLsbD w.ctz.toNat = true := BitVec.getLsbD_true_ctz_of_ne_zero h
    rw [places, dif_neg h, List.mem_cons, ih, getLsbD_clear h, Bool.and_eq_true,
      decide_eq_true_iff]
    by_cases hi : i = w.ctz.toNat
    · simp [hi, hone]
    · simp [hi]

theorem pairwise_places : w.places.Pairwise (· < ·) := by
  induction w using places.induct with
  | case1 => rw [places]; simp
  | case2 w h ih =>
    rw [places, dif_neg h, List.pairwise_cons]
    refine ⟨fun i hi => ?_, ih⟩
    rw [mem_places, getLsbD_clear h, Bool.and_eq_true, decide_eq_true_iff] at hi
    refine Nat.lt_of_le_of_ne (Nat.not_lt.1 fun hlt => ?_) hi.2.symm
    rw [BitVec.getLsbD_false_of_lt_ctz hlt] at hi
    exact Bool.false_ne_true hi.1

/-- Taking and clearing the lowest one, as long as there is one, finds all ones in order. -/
theorem places_eq : w.places = (List.range 64).filter w.getLsbD := by
  refine List.Perm.eq_of_pairwise' pairwise_places (List.pairwise_lt_range.filter _) ?_
  refine (List.perm_ext_iff_of_nodup ?_ (List.nodup_range.filter _)).2 fun i => ?_
  · exact pairwise_places.imp Nat.ne_of_lt
  · rw [mem_places, List.mem_filter, List.mem_range]
    exact ⟨fun h => ⟨BitVec.lt_of_getLsbD h, h⟩, And.right⟩

/-- The counted ones are those that are found. -/
theorem length_places : w.places.length = w.cpop.toNat := by
  have hcount : ∀ k, w.cpopNatRec k 0 = (List.range k).countP w.getLsbD := by
    intro k
    induction k with
    | zero => rfl
    | succ k ih =>
      rw [BitVec.cpopNatRec_succ, BitVec.cpopNatRec_eq, ih, List.range_succ, List.countP_append,
        List.countP_singleton, Nat.zero_add]
      cases w.getLsbD k <;> rfl
  rw [BitVec.toNat_cpop, hcount, places_eq, List.countP_eq_length_filter]

end Word

namespace TokenId

variable {id : TokenId} {n : Nat}

theorem index_of_ofIndex? (h : ofIndex? n = some id) : id.index = n := by
  match n with
  | 0 | 1 =>
    cases h
    rfl
  | n + 2 =>
    rw [ofIndex?] at h
    split at h
    · cases h
      rfl
    · cases h

theorem exists_ofIndex? (h : n < total) : ∃ id, ofIndex? n = some id := by
  match n with
  | 0 | 1 => exact ⟨_, rfl⟩
  | n + 2 =>
    have hn : n < 65536 := Nat.lt_of_add_lt_add_right h
    exact ⟨.kind ⟨n, hn⟩, dif_pos hn⟩

end TokenId

namespace TokenSet

variable {a b : TokenSet} {id t : TokenId} {F G : Finset TokenId}

/-! ## Members -/

/-- The ids of a word, of which `i` come before it. -/
def wordMembers (word : Word) (i : Nat) : List TokenId :=
  word.places.filterMap fun bit => TokenId.ofIndex? (i * 64 + bit)

theorem mem_wordMembers {word : Word} {i : Nat} :
    id ∈ wordMembers word i ↔ id.index / 64 = i ∧ word.getLsbD (id.index % 64) = true := by
  rw [wordMembers, List.mem_filterMap]
  constructor
  · rintro ⟨bit, hbit, hid⟩
    have hindex := TokenId.index_of_ofIndex? hid
    rw [Word.mem_places] at hbit
    have hlt := BitVec.lt_of_getLsbD hbit
    rw [show id.index % 64 = bit by omega]
    exact ⟨by omega, hbit⟩
  · rintro ⟨rfl, hbit⟩
    refine ⟨_, Word.mem_places.2 hbit, ?_⟩
    rw [Nat.div_add_mod' id.index 64]
    exact TokenId.ofIndex?_index id

theorem mem_members : id ∈ a.members ↔ a.contains id = true := by
  rw [members, List.mem_flatMap, contains, Option.any_eq_true]
  constructor
  · rintro ⟨⟨word, i⟩, hword, hid⟩
    obtain ⟨rfl, hbit⟩ := mem_wordMembers.1 hid
    exact ⟨word, List.mk_mem_zipIdx_iff_getElem?.1 hword, hbit⟩
  · rintro ⟨word, hword, hbit⟩
    exact ⟨(word, id.index / 64), List.mk_mem_zipIdx_iff_getElem?.2 hword,
      mem_wordMembers.2 ⟨rfl, hbit⟩⟩

theorem pairwise_members : a.members.Pairwise fun x y => x.index < y.index := by
  rw [members, List.pairwise_flatMap]
  constructor
  · rintro ⟨word, i⟩ -
    refine Word.pairwise_places.filterMap _ fun x y hxy id hid id' hid' => ?_
    rw [TokenId.index_of_ofIndex? hid, TokenId.index_of_ofIndex? hid']
    omega
  · have hplaces : (a.words.zipIdx).Pairwise fun x y => x.2 < y.2 := by
      refine List.pairwise_map.1 ?_
      rw [List.zipIdx_map_snd]
      exact List.pairwise_lt_range'
    refine hplaces.imp fun {x y} hlt id hid id' hid' => ?_
    have hx := (mem_wordMembers.1 hid).1
    have hy := (mem_wordMembers.1 hid').1
    omega

/-- Every one of a row that holds ids only is listed as an id. -/
theorem length_wordMembers (h : a.Narrow) {word : Word} {i : Nat}
    (hword : a.words[i]? = some word) : (wordMembers word i).length = word.cpop.toNat := by
  rw [wordMembers, ← Word.length_places, List.length_filterMap_eq_countP, List.countP_eq_length]
  intro bit hbit
  rw [Word.mem_places] at hbit
  have hlt := BitVec.lt_of_getLsbD hbit
  have hone : a.bit (i * 64 + bit) = true := by
    rw [TokenSet.bit, show (i * 64 + bit) / 64 = i by omega,
      show (i * 64 + bit) % 64 = bit by omega, List.getD_eq_getElem?_getD, hword]
    exact hbit
  have hid : i * 64 + bit < TokenId.total := by
    refine Nat.lt_of_not_le fun hle => ?_
    rw [h _ hle] at hone
    cases hone
  obtain ⟨id, hsome⟩ := TokenId.exists_ofIndex? hid
  rw [hsome]
  rfl

/-- The counted members are those that are listed. -/
theorem length_members (h : a.Narrow) : a.members.length = a.count := by
  have hsum : ∀ (words : List Word) (k n : Nat),
      (∀ p ∈ words.zipIdx k, (wordMembers p.1 p.2).length = p.1.cpop.toNat) →
      n + ((words.zipIdx k).flatMap fun p => wordMembers p.1 p.2).length
        = words.foldl (fun n word => n + word.cpop.toNat) n := by
    intro words
    induction words with
    | nil => exact fun _ _ _ => rfl
    | cons word words ih =>
      intro k n hall
      rw [List.zipIdx_cons] at hall ⊢
      rw [List.flatMap_cons, List.length_append, ← Nat.add_assoc, hall _ List.mem_cons_self]
      exact ih (k + 1) _ fun p hp => hall p (List.mem_cons_of_mem _ hp)
  have hall := hsum a.words 0 0 fun p hp =>
    length_wordMembers h (List.mk_mem_zipIdx_iff_getElem?.1 hp)
  rw [Nat.zero_add] at hall
  exact hall

/-! ## Questions to two sets -/

theorem isEmpty_iff : a.isEmpty = true ↔ ∀ i, a.bit i = false := by
  refine ⟨bit_of_isEmpty, fun h => ?_⟩
  rw [isEmpty, List.all_eq_true]
  intro word hword
  obtain ⟨i, hi⟩ := List.mem_iff_getElem?.1 hword
  have hzero := (getD_words_eq_iff (b := ∅)).2 (fun i => (h i).trans bit_empty.symm) i
  rw [List.getD_eq_getElem?_getD, hi] at hzero
  exact beq_iff_eq.2 hzero

theorem intersects_iff : a.intersects b = true ↔ ∃ i, a.bit i = true ∧ b.bit i = true := by
  have h := isEmpty_iff (a := a.inter b)
  rw [isEmpty_inter, Bool.not_eq_true'] at h
  rw [← Bool.not_eq_false, h]
  simp [bit_inter]

theorem beq_iff : (a == b) = true ↔ ∀ i, a.bit i = b.bit i := by
  rw [← getD_words_eq_iff]
  show ((List.range _).all fun i => a.words.getD i 0#64 == b.words.getD i 0#64) = true ↔ _
  simp only [List.all_eq_true, List.mem_range, beq_iff_eq]
  refine ⟨fun h i => ?_, fun h i _ => h i⟩
  by_cases hi : i < max a.words.length b.words.length
  · exact h i hi
  · rw [List.getD_eq_getElem?_getD, List.getD_eq_getElem?_getD, List.getElem?_eq_none (by omega),
      List.getElem?_eq_none (by omega)]

theorem merge_changed {more others : List Word} :
    (Word.merge more others).2 = true ↔ (Word.merge more others).1 ≠ more := by
  induction more, others using Word.merge.induct with
  | case1 mine more theirs others rest changed heq ih =>
    rw [Word.merge]
    simp only [Bool.or_eq_true, bne_iff_ne, ih, ne_eq, List.cons.injEq]
    tauto
  | case2 words others hnone => cases words <;> cases others <;> simp_all [Word.merge]

/-- A union tells whether the row has changed, which it has if it has more ones. -/
theorem grows_iff : a.grows b = true ↔ ∃ i, b.bit i = true ∧ a.bit i = false := by
  have hsame : (a.union b).words = Word.resize a.words b.words.length ↔
      ∀ i, (a.union b).bit i = a.bit i := by
    rw [← getD_words_eq_iff]
    constructor
    · intro h i
      rw [h, Word.getD_resize]
    · exact fun h => Word.ext_getD Word.length_merge fun i => (h i).trans Word.getD_resize.symm
  have hchanged : a.grows b = true ↔ (a.union b).words ≠ Word.resize a.words b.words.length :=
    merge_changed
  rw [hchanged, ne_eq, hsame]
  simp [bit_union]

/-! ## Finite sets -/

/-- The set has the members of a finite set and no bits that stand for no id. -/
structure Represents (s : TokenSet) (F : Finset TokenId) : Prop where
  narrow : s.Narrow
  contains : ∀ id, s.contains id = true ↔ id ∈ F

namespace Represents

/-- A bit is the membership of an id. -/
theorem bit_eq_true (h : a.Represents F) {i : Nat} :
    a.bit i = true ↔ ∃ id, id.index = i ∧ id ∈ F := by
  constructor
  · intro hbit
    have hlt : i < TokenId.total := by
      refine Nat.lt_of_not_le fun hle => ?_
      rw [h.narrow i hle] at hbit
      cases hbit
    obtain ⟨id, hid⟩ := TokenId.exists_ofIndex? hlt
    obtain rfl := TokenId.index_of_ofIndex? hid
    exact ⟨id, rfl, (h.contains id).1 (contains_eq_bit.trans hbit)⟩
  · rintro ⟨id, rfl, hid⟩
    exact contains_eq_bit.symm.trans ((h.contains id).2 hid)

theorem empty : (∅ : TokenSet).Represents ∅ :=
  ⟨narrow_empty, fun id => by rw [contains_empty]; simp⟩

theorem insert (h : a.Represents F) (id : TokenId) :
    (a.insert id).Represents (Insert.insert id F) := by
  refine ⟨h.narrow.insert id, fun t => ?_⟩
  rw [contains_insert, Bool.or_eq_true, h.contains, beq_iff_eq, Finset.mem_insert, or_comm,
    eq_comm (a := id)]

theorem insertMany (h : a.Represents F) (ids : List TokenId) :
    (a.insertMany ids).Represents (F ∪ ids.toFinset) := by
  refine ⟨h.narrow.insertMany ids, fun t => ?_⟩
  rw [contains_insertMany, Bool.or_eq_true, h.contains, List.contains_iff_mem, Finset.mem_union,
    List.mem_toFinset]

theorem union (ha : a.Represents F) (hb : b.Represents G) : (a.union b).Represents (F ∪ G) := by
  refine ⟨ha.narrow.union hb.narrow, fun t => ?_⟩
  rw [contains_union, Bool.or_eq_true, ha.contains, hb.contains, Finset.mem_union]

theorem inter (ha : a.Represents F) (hb : b.Represents G) : (a.inter b).Represents (F ∩ G) := by
  refine ⟨ha.narrow.inter b, fun t => ?_⟩
  rw [contains_inter, Bool.and_eq_true, ha.contains, hb.contains, Finset.mem_inter]

theorem card_eq (h : a.Represents F) : a.count = F.card := by
  have hmembers : a.members.toFinset = F := by
    ext id
    rw [List.mem_toFinset, mem_members, h.contains]
  have hnodup : a.members.Nodup :=
    pairwise_members.imp fun {x y} hlt (heq : x = y) => Nat.lt_irrefl _ (heq ▸ hlt)
  rw [← length_members h.narrow, ← hmembers, List.toFinset_card_of_nodup hnodup]

theorem isEmpty_iff (h : a.Represents F) : a.isEmpty = true ↔ F = ∅ := by
  rw [TokenSet.isEmpty_iff, Finset.eq_empty_iff_forall_notMem]
  constructor
  · intro hzero id hid
    have hbit := h.bit_eq_true.2 ⟨id, rfl, hid⟩
    rw [hzero] at hbit
    cases hbit
  · intro hnone i
    rw [← Bool.not_eq_true, h.bit_eq_true]
    rintro ⟨id, -, hid⟩
    exact hnone id hid

theorem intersects_iff (ha : a.Represents F) (hb : b.Represents G) :
    a.intersects b = true ↔ ¬ Disjoint F G := by
  rw [TokenSet.intersects_iff, Finset.not_disjoint_iff]
  constructor
  · rintro ⟨i, hai, hbi⟩
    obtain ⟨id, rfl, hid⟩ := ha.bit_eq_true.1 hai
    rw [← contains_eq_bit, hb.contains] at hbi
    exact ⟨id, hid, hbi⟩
  · rintro ⟨id, hid, hid'⟩
    exact ⟨id.index, ha.bit_eq_true.2 ⟨id, rfl, hid⟩, hb.bit_eq_true.2 ⟨id, rfl, hid'⟩⟩

theorem grows_iff (ha : a.Represents F) (hb : b.Represents G) :
    a.grows b = true ↔ ∃ id ∈ G, id ∉ F := by
  rw [TokenSet.grows_iff]
  constructor
  · rintro ⟨i, hbi, hai⟩
    obtain ⟨id, rfl, hid⟩ := hb.bit_eq_true.1 hbi
    rw [← contains_eq_bit, ← Bool.not_eq_true, ha.contains] at hai
    exact ⟨id, hid, hai⟩
  · rintro ⟨id, hid, hnot⟩
    refine ⟨id.index, hb.bit_eq_true.2 ⟨id, rfl, hid⟩, ?_⟩
    rwa [← contains_eq_bit, ← Bool.not_eq_true, ha.contains]

theorem beq_iff (ha : a.Represents F) (hb : b.Represents G) : (a == b) = true ↔ F = G := by
  rw [TokenSet.beq_iff]
  constructor
  · intro h
    ext id
    rw [← ha.contains, ← hb.contains, contains_eq_bit, contains_eq_bit, h]
  · rintro rfl i
    rw [Bool.eq_iff_iff, ha.bit_eq_true, hb.bit_eq_true]

end Represents

/-! ## Runs of operations -/

/-- What is done to numbered sets. The first number is that of the set that is written. -/
inductive Operation where
  | new (r : Nat)
  | single (r : Nat) (id : TokenId)
  | collect (r : Nat) (ids : List TokenId)
  | insert (r : Nat) (id : TokenId)
  | withMember (r a : Nat) (id : TokenId)
  | extend (r : Nat) (ids : List TokenId)
  | union (r a b : Nat)
  | unionWith (r b : Nat)
  | inter (r a b : Nat)
  deriving DecidableEq, Repr

namespace Operation

/-- The number of the set that is written. -/
def target : Operation → Nat
  | new r | single r _ | collect r _ | insert r _ | withMember r _ _ | extend r _ | union r _ _
  | unionWith r _ | inter r _ _ => r

/-- The set that is written. -/
def result (sets : Nat → TokenSet) : Operation → TokenSet
  | new _ => ∅
  | single _ id => .single id
  | collect _ ids => .ofList ids
  | insert r id | withMember _ r id => (sets r).insert id
  | extend r ids => (sets r).insertMany ids
  | union _ a b => (sets a).union (sets b)
  | unionWith r b => ((sets r).unionWith (sets b)).1
  | inter _ a b => (sets a).inter (sets b)

/-- The same, done to finite sets. -/
def mirror (sets : Nat → Finset TokenId) : Operation → Finset TokenId
  | new _ => ∅
  | single _ id => {id}
  | collect _ ids => ids.toFinset
  | insert r id | withMember _ r id => Insert.insert id (sets r)
  | extend r ids => sets r ∪ ids.toFinset
  | union _ a b => sets a ∪ sets b
  | unionWith r b => sets r ∪ sets b
  | inter _ a b => sets a ∩ sets b

/-- What a run of operations makes of numbered sets of either kind. -/
def run {α : Type} (write : (Nat → α) → Operation → α) (ops : List Operation) (sets : Nat → α) :
    Nat → α :=
  ops.foldl (fun sets op => Function.update sets op.target (write sets op)) sets

variable {sets : Nat → TokenSet} {finite : Nat → Finset TokenId}

/-- One operation: what is written represents what is written to the finite sets. -/
theorem represents_result (h : ∀ r, (sets r).Represents (finite r)) (op : Operation) :
    (op.result sets).Represents (op.mirror finite) := by
  cases op with
  | new => exact .empty
  | single _ id => exact Represents.empty.insert id
  | collect _ ids =>
    have h := Represents.empty.insertMany ids
    rwa [Finset.empty_union] at h
  | insert r id | withMember _ r id => exact (h r).insert id
  | extend r ids => exact (h r).insertMany ids
  | union _ a b => exact (h a).union (h b)
  | unionWith r b => exact (h r).union (h b)
  | inter _ a b => exact (h a).inter (h b)

theorem represents_run (h : ∀ r, (sets r).Represents (finite r)) (ops : List Operation) (r : Nat) :
    (run result ops sets r).Represents (run mirror ops finite r) := by
  induction ops generalizing sets finite with
  | nil => exact h r
  | cons op ops ih =>
    refine ih fun q => ?_
    dsimp only
    rw [Function.update_apply, Function.update_apply]
    split
    · exact represents_result h op
    · exact h q

end Operation

/-- Two sets answer all questions as two finite sets do. -/
structure Agrees (s t : TokenSet) (F G : Finset TokenId) : Prop where
  contains : ∀ id, s.contains id = true ↔ id ∈ F
  mem_members : ∀ id, id ∈ s.members ↔ id ∈ F
  ascending : s.members.Pairwise fun x y => x.index < y.index
  count : s.count = F.card
  isEmpty : s.isEmpty = true ↔ F = ∅
  intersects : s.intersects t = true ↔ ¬ Disjoint F G
  unionWith : (s.unionWith t).2 = true ↔ ∃ id ∈ G, id ∉ F
  beq : (s == t) = true ↔ F = G

/-- Any two of any number of sets answer all questions as finite sets of ids do, whatever was done
to all of them before. -/
theorem agrees_run (ops : List Operation) (r q : Nat) :
    Agrees (Operation.run Operation.result ops (fun _ => ∅) r)
      (Operation.run Operation.result ops (fun _ => ∅) q)
      (Operation.run Operation.mirror ops (fun _ => ∅) r)
      (Operation.run Operation.mirror ops (fun _ => ∅) q) := by
  have h := Operation.represents_run (fun _ => Represents.empty) ops
  exact {
    contains := (h r).contains
    mem_members := fun id => TokenSet.mem_members.trans ((h r).contains id)
    ascending := pairwise_members
    count := (h r).card_eq
    isEmpty := (h r).isEmpty_iff
    intersects := (h r).intersects_iff (h q)
    unionWith := (h r).grows_iff (h q)
    beq := (h r).beq_iff (h q) }

/-- Two sets without a common member leave a word of zeros, which equals no word at all. -/
example : ((single (.kind 300)).inter (single (.kind 301)) == (∅ : TokenSet)) = true := by decide

end TokenSet

end FrontEnd
