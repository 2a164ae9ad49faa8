import FrontEnd.Proofs.Tree.Expressions

/-!
# Where nodes begin and end

A leaf takes its place from its token, another node from its first and its last child, and a node
without children is put somewhere. Let the leaves be made from left to right, and let empty nodes be
put where the next token stands. Then every node covers a run of tokens, and its children divide the
run. A node begins where its first token does; it ends where its last token does **unless the last
node below it is empty**, for then it reaches to the token behind.

- `Arena.Covers`, `Arena.Tiles`: a node and a row of nodes cover a run of tokens;
- `Arena.Measured`: every node covers a run of tokens that its children divide;
- `Arena.Spread`: **what a row keeps that is built from left to right**;
- `Arena.Measured.nested`: where tokens do not overlap, nodes do not either.
-/

namespace FrontEnd

namespace Arena

variable {nth : Nat → Token} {a a' : Arena} {id c : NodeId} {ids ids' children : List NodeId}
  {i j k : Nat} {kind : NodeKind} {place : Position} {t : Token}

/-! ## Places of nodes -/

/-- Is the last node that a walk from `id` meets a leaf? -/
def endsInLeaf (a : Arena) (id : NodeId) : Bool :=
  ((a.kinds [id]).getLast?.bind NodeKind.token?).isSome

/-- The leaves below the node are the tokens from `i` up to `j`, which are the tokens of `nth`. -/
structure Covers (nth : Nat → Token) (a : Arena) (id : NodeId) (i j : Nat) : Prop where
  lt : id < a.nodes.size
  le : i ≤ j
  le_size : j ≤ a.tokens.size
  leaves : (a.kinds [id]).filterMap NodeKind.token? = List.range' i (j - i)
  start : a.startOf id = (nth i).position
  stop : a.stopOf id
    = if a.endsInLeaf id then (nth (j - 1)).endPosition else (nth j).position

/-- The nodes cover the tokens from `i` up to `k`, one behind the other. -/
inductive Tiles (nth : Nat → Token) (a : Arena) : List NodeId → Nat → Nat → Prop where
  | nil (i : Nat) : Tiles nth a [] i i
  | cons {id : NodeId} {ids : List NodeId} {i j k : Nat} (h : a.Covers nth id i j)
    (hids : Tiles nth a ids j k) : Tiles nth a (id :: ids) i k

theorem startOf_eq (h : a.Extends a') (hid : id < a.nodes.size) : a'.startOf id = a.startOf id := by
  rw [startOf, startOf, h.nodes id hid]

theorem stopOf_eq (h : a.Extends a') (hid : id < a.nodes.size) : a'.stopOf id = a.stopOf id := by
  rw [stopOf, stopOf, h.nodes id hid]

theorem endsInLeaf_eq (h : a.Extends a') (hid : id < a.nodes.size) :
    a'.endsInLeaf id = a.endsInLeaf id := by
  rw [endsInLeaf, endsInLeaf, h.kinds (List.forall_mem_singleton.2 hid)]

theorem kinds_singleton (h : id < a.nodes.size) :
    ∃ kind, a.kinds [id] = kind :: a.kinds (a.children id) := by
  have hkind : a.kind? id = some a.nodes[id].kind := by
    rw [kind?, Array.getElem?_eq_getElem h]
    rfl
  refine ⟨a.nodes[id].kind, ?_⟩
  rw [kinds, List.flatMap_singleton, preorder_eq, List.filterMap_cons, hkind]
  rfl

/-- A walk below a node ends in its last child. -/
theorem endsInLeaf_of_getLast (h : id < a.nodes.size) (hlast : (a.children id).getLast? = some c) :
    a.endsInLeaf id = a.endsInLeaf c := by
  obtain ⟨before, hchildren⟩ := List.getLast?_eq_some_iff.1 hlast
  have hc : c < a.nodes.size :=
    Nat.lt_trans (lt_of_mem_children (List.mem_of_getLast? hlast)) h
  obtain ⟨kind, hkinds⟩ := kinds_singleton h
  obtain ⟨kind', hkinds'⟩ := kinds_singleton hc
  rw [endsInLeaf, endsInLeaf, hkinds, hchildren, kinds_append, hkinds', ← List.cons_append,
    List.getLast?_append_cons]

namespace Covers

theorem later (h : a.Covers nth id i j) (hlater : a.Later a') : a'.Covers nth id i j where
  lt := Nat.lt_of_lt_of_le h.lt hlater.size_le
  le := h.le
  le_size := Nat.le_trans h.le_size hlater.size_tokens_le
  leaves := by rw [hlater.kinds (List.forall_mem_singleton.2 h.lt), h.leaves]
  start := by rw [startOf_eq hlater.toExtends h.lt, h.start]
  stop := by
    rw [stopOf_eq hlater.toExtends h.lt, endsInLeaf_eq hlater.toExtends h.lt, h.stop]

/-- A node that ends in a leaf covers a token. -/
theorem lt_of_endsInLeaf (h : a.Covers nth id i j) (hleaf : a.endsInLeaf id = true) : i < j := by
  refine Nat.lt_of_le_of_ne h.le fun heq => ?_
  subst heq
  obtain ⟨token, htoken⟩ := Option.isSome_iff_exists.1 hleaf
  obtain ⟨kind, hkind, htoken⟩ := Option.bind_eq_some_iff.1 htoken
  have hmem := List.mem_filterMap.2 ⟨kind, List.mem_of_getLast? hkind, htoken⟩
  rw [h.leaves, Nat.sub_self] at hmem
  cases hmem

end Covers

namespace Tiles

theorem later (h : a.Tiles nth ids i k) (hlater : a.Later a') : a'.Tiles nth ids i k := by
  induction h with
  | nil i => exact .nil i
  | cons h _ ih => exact .cons (h.later hlater) ih

theorem le (h : a.Tiles nth ids i k) : i ≤ k := by
  induction h with
  | nil => exact Nat.le_refl _
  | cons h _ ih => exact Nat.le_trans h.le ih

theorem lt (h : a.Tiles nth ids i k) : ∀ id ∈ ids, id < a.nodes.size := by
  induction h with
  | nil => exact List.forall_mem_nil _
  | cons h _ ih => exact List.forall_mem_cons.2 ⟨h.lt, ih⟩

theorem append_iff :
    a.Tiles nth (ids ++ ids') i k ↔ ∃ j, a.Tiles nth ids i j ∧ a.Tiles nth ids' j k := by
  constructor
  · intro h
    induction ids generalizing i with
    | nil => exact ⟨i, .nil i, h⟩
    | cons id ids ih =>
      cases h with
      | cons h hids =>
        obtain ⟨j, hleft, hright⟩ := ih hids
        exact ⟨j, .cons h hleft, hright⟩
  · rintro ⟨j, hleft, hright⟩
    induction hleft with
    | nil => exact hright
    | cons h _ ih => exact .cons h (ih hright)

theorem single_iff : a.Tiles nth [id] i j ↔ a.Covers nth id i j := by
  constructor
  · intro h
    cases h with
    | cons h hids =>
      cases hids
      exact h
  · exact fun h => .cons h (.nil j)

theorem leaves (h : a.Tiles nth ids i k) :
    (a.kinds ids).filterMap NodeKind.token? = List.range' i (k - i) := by
  induction h with
  | nil i =>
    rw [Nat.sub_self]
    rfl
  | @cons id ids i j k h hids ih =>
    have hsize : k - i = j - i + (k - j) := by
      have := h.le
      have := hids.le
      omega
    rw [← List.singleton_append, kinds_append, List.filterMap_append, h.leaves, ih, hsize,
      ← List.range'_append_1, Nat.add_sub_of_le h.le]

/-- The first and the last node of a row. -/
theorem ends (h : a.Tiles nth ids i k) (hne : ids ≠ []) :
    ∃ first last j j', ids.head? = some first ∧ ids.getLast? = some last ∧
      a.Covers nth first i j ∧ a.Covers nth last j' k := by
  obtain ⟨before, hbefore⟩ := List.getLast?_eq_some_iff.1 (List.getLast?_eq_some_getLast hne)
  have hsplit := h
  rw [hbefore] at hsplit
  obtain ⟨j', -, hlast⟩ := append_iff.1 hsplit
  cases h with
  | nil => exact absurd rfl hne
  | @cons first rest _ j _ hfirst _ =>
    exact ⟨first, _, j, j', rfl, List.getLast?_eq_some_getLast hne, hfirst, single_iff.1 hlast⟩

end Tiles

/-! ## Building from left to right -/

theorem covers_pushLeaf (ht : t = nth a.tokens.size) :
    (a.pushLeaf t).Covers nth a.nextId a.tokens.size (a.tokens.size + 1) := by
  have hsize : (a.pushLeaf t).tokens.size = a.tokens.size + 1 := by simp [pushLeaf, push]
  have hnode : (a.pushLeaf t).nodes[a.nextId]?
      = some ⟨.leaf a.tokens.size, t.position, t.endPosition, []⟩ := by
    simp [pushLeaf, push, nextId]
  have hkinds := a.kinds_pushLeaf t
  refine ⟨?_, Nat.le_succ _, Nat.le_of_eq hsize.symm, ?_, ?_, ?_⟩
  · rw [size_pushLeaf]
    exact Nat.lt_succ_self _
  · rw [hkinds, Nat.add_sub_cancel_left]
    rfl
  · rw [startOf, hnode, ← ht]
    rfl
  · rw [endsInLeaf, stopOf, hnode, hkinds, Nat.add_sub_cancel, ← ht]
    rfl

/-- A new node covers what its children cover. One without children is put where the next token
stands. -/
theorem covers_pushNode (hkind : kind.token? = none) (h : a.Tiles nth children i j)
    (hj : j ≤ a.tokens.size) (hplace : children = [] → place = (nth j).position) :
    (a.pushNode kind children place).Covers nth a.nextId i j := by
  have hlater := Later.pushNode a kind children place
  have hlt : a.nextId < (a.pushNode kind children place).nodes.size := by
    rw [size_pushNode]
    exact Nat.lt_succ_self _
  have hkinds := a.kinds_pushNode kind place h.lt
  have hchildren := children_pushNode kind place h.lt
  have hstart : (a.pushNode kind children place).startOf a.nextId
      = (children.head?.map a.startOf).getD place := by
    simp [startOf, pushNode, push, nextId, filter_present h.lt]
  have hstop : (a.pushNode kind children place).stopOf a.nextId
      = (children.getLast?.map a.stopOf).getD place := by
    simp [stopOf, pushNode, push, nextId, filter_present h.lt]
  have hleaves : ((a.pushNode kind children place).kinds [a.nextId]).filterMap NodeKind.token?
      = List.range' i (j - i) := by
    rw [hkinds, List.filterMap_cons_none hkind, h.leaves]
  -- Without children the place that was given is kept; otherwise the first and the last child give
  -- the ends.
  by_cases hne : children = []
  · subst hne
    cases h
    refine ⟨hlt, Nat.le_refl _, hj, hleaves, hstart.trans (hplace rfl), ?_⟩
    have hempty : (a.pushNode kind [] place).endsInLeaf a.nextId = false := by
      rw [endsInLeaf, hkinds]
      show (kind.token?).isSome = false
      rw [hkind]
      rfl
    rw [hempty]
    exact hstop.trans (hplace rfl)
  · obtain ⟨first, last, _, _, hfirst, hlast, hcovers, hcovers'⟩ := h.ends hne
    have hends : (a.pushNode kind children place).endsInLeaf a.nextId = a.endsInLeaf last := by
      rw [endsInLeaf_of_getLast hlt (hchildren.symm ▸ hlast),
        endsInLeaf_eq hlater.toExtends hcovers'.lt]
    refine ⟨hlt, h.le, hj, hleaves, ?_, ?_⟩
    · rw [hstart, hfirst]
      exact hcovers.start
    · rw [hstop, hlast, hends]
      exact hcovers'.stop

/-- Every node covers a run of tokens, and its children divide the run. -/
def Measured (nth : Nat → Token) (a : Arena) : Prop :=
  ∀ id < a.nodes.size, ∃ i j, a.Covers nth id i j ∧
    (a.children id ≠ [] → a.Tiles nth (a.children id) i j)

/-- One more node. -/
theorem Measured.add (h : a.Measured nth) (hlater : a.Later a')
    (hsize : a'.nodes.size = a.nodes.size + 1) (hcovers : a'.Covers nth a.nextId i j)
    (htiles : a'.children a.nextId ≠ [] → a'.Tiles nth (a'.children a.nextId) i j) :
    a'.Measured nth := by
  intro id hid
  rcases Nat.lt_or_eq_of_le (Nat.le_of_lt_succ (hsize ▸ hid)) with hlt | rfl
  · obtain ⟨i, j, hcovers, htiles⟩ := h id hlt
    refine ⟨i, j, hcovers.later hlater, fun hne => ?_⟩
    rw [hlater.children_eq hlt] at hne ⊢
    exact (htiles hne).later hlater
  · exact ⟨i, j, hcovers, htiles⟩

/-- The row of nodes covers all tokens that are there, and these are those of `nth`. -/
structure Spread (nth : Nat → Token) (a : Arena) (row : List NodeId) : Prop where
  tokens : ∀ k < a.tokens.size, a.tokens[k]? = some (nth k)
  measured : a.Measured nth
  row : a.Tiles nth row 0 a.tokens.size

namespace Spread

theorem empty : Arena.empty.Spread nth [] :=
  ⟨fun _ hk => absurd hk (Nat.not_lt_zero _), fun _ hid => absurd hid (Nat.not_lt_zero _), .nil 0⟩

/-- The next token gets a leaf. -/
theorem pushLeaf (h : a.Spread nth ids) (ht : t = nth a.tokens.size) :
    (a.pushLeaf t).Spread nth (ids ++ [a.nextId]) := by
  have hlater := Later.pushLeaf a t
  have hsize : (a.pushLeaf t).tokens.size = a.tokens.size + 1 := by simp [Arena.pushLeaf, push]
  have hchildren : (a.pushLeaf t).children a.nextId = [] := by
    simp [Arena.pushLeaf, push, children, nextId]
  have hleaf := covers_pushLeaf ht
  refine ⟨fun k hk => ?_, ?_, ?_⟩
  · rcases Nat.lt_or_eq_of_le (Nat.le_of_lt_succ (hsize ▸ hk)) with hlt | rfl
    · rw [hlater.tokens k hlt, h.tokens k hlt]
    · simp [Arena.pushLeaf, push, ht]
  · exact h.measured.add hlater (size_pushLeaf a t) hleaf fun hne => absurd hchildren hne
  · rw [hsize]
    exact Tiles.append_iff.2 ⟨_, h.row.later hlater, Tiles.single_iff.2 hleaf⟩

/-- The next tokens get leaves. -/
theorem leaves (h : a.Spread nth ids) (ts : List Token)
    (hts : ∀ k t, ts[k]? = some t → t = nth (a.tokens.size + k)) :
    (ts.foldl Arena.pushLeaf a).Spread nth (ids ++ List.range' a.nextId ts.length) := by
  induction ts generalizing a ids with
  | nil => simpa using h
  | cons t ts ih =>
    have hsize : (a.pushLeaf t).tokens.size = a.tokens.size + 1 := by simp [Arena.pushLeaf, push]
    have hnext : (a.pushLeaf t).nextId = a.nextId + 1 := by simp [Arena.pushLeaf, push, nextId]
    have hrest := ih (h.pushLeaf (hts 0 t rfl)) fun k u hu => by
      rw [hsize, Nat.add_right_comm, Nat.add_assoc]
      exact hts (k + 1) u hu
    rw [hnext] at hrest
    simpa [List.range'_succ] using hrest

/-- The last nodes of the row get a parent, or an empty node is put where the next token stands. -/
theorem pushNode (h : a.Spread nth (ids ++ children)) (hkind : kind.token? = none)
    (hplace : children = [] → place = (nth a.tokens.size).position) :
    (a.pushNode kind children place).Spread nth (ids ++ [a.nextId]) := by
  have hlater := Later.pushNode a kind children place
  obtain ⟨j, hleft, hright⟩ := Tiles.append_iff.1 h.row
  have hnode := covers_pushNode hkind hright (Nat.le_refl _) hplace
  refine ⟨h.tokens, h.measured.add hlater (size_pushNode ..) hnode fun _ => ?_, ?_⟩
  · rw [children_pushNode kind place hright.lt]
    exact hright.later hlater
  · exact Tiles.append_iff.2 ⟨j, hleft.later hlater, Tiles.single_iff.2 hnode⟩

end Spread

/-! ## Nodes that do not overlap -/

/-- The node ends before the other begins, or where it does. -/
def Precedes (a : Arena) (c d : NodeId) : Prop := (a.stopOf c).offset ≤ (a.startOf d).offset

/-- The bytes of the node are among those of the other. -/
def Inside (a : Arena) (c id : NodeId) : Prop :=
  (a.startOf id).offset ≤ (a.startOf c).offset ∧ (a.stopOf c).offset ≤ (a.stopOf id).offset

/-- Every token ends behind its start, and not behind the start of the next one. -/
def Ordered (nth : Nat → Token) : Prop :=
  ∀ k, (nth k).position.offset ≤ (nth k).endPosition.offset ∧
    (nth k).endPosition.offset ≤ (nth (k + 1)).position.offset

theorem Ordered.le (h : Ordered nth) (hij : i ≤ j) :
    (nth i).position.offset ≤ (nth j).position.offset := by
  induction hij with
  | refl => exact Nat.le_refl _
  | step _ ih => exact Nat.le_trans ih (Nat.le_trans (h _).1 (h _).2)

/-- A node stands between the token that it begins with and the token behind it. -/
theorem Covers.bounds (h : a.Covers nth id i j) (hnth : Ordered nth) :
    (a.startOf id).offset = (nth i).position.offset ∧ (a.startOf id).offset ≤ (a.stopOf id).offset ∧
      (a.stopOf id).offset ≤ (nth j).position.offset := by
  refine ⟨congrArg Position.offset h.start, ?_⟩
  rw [h.start, h.stop]
  split
  · next hleaf =>
    have hlt := h.lt_of_endsInLeaf hleaf
    have hstop := hnth (j - 1)
    rw [Nat.sub_add_cancel (Nat.lt_of_le_of_lt (Nat.zero_le i) hlt)] at hstop
    exact ⟨Nat.le_trans (hnth.le (Nat.le_sub_one_of_lt hlt)) hstop.1, hstop.2⟩
  · exact ⟨hnth.le h.le, Nat.le_refl _⟩

namespace Tiles

/-- The nodes of a row follow each other. -/
theorem isChain (h : a.Tiles nth ids i k) (hnth : Ordered nth) : ids.IsChain a.Precedes := by
  induction h with
  | nil => exact .nil
  | cons h hids ih =>
    cases hids with
    | nil => exact .singleton _
    | cons h' hids =>
      refine .cons_cons ?_ ih
      show _ ≤ _
      rw [(h'.bounds hnth).1]
      exact (h.bounds hnth).2.2

/-- The nodes of a row stand between the first token and the end of the last node. -/
theorem bounds (h : a.Tiles nth ids i k) (hnth : Ordered nth) (hlast : ids.getLast? = some id) :
    (nth i).position.offset ≤ (a.stopOf id).offset ∧
      ∀ c ∈ ids, (nth i).position.offset ≤ (a.startOf c).offset ∧
        (a.stopOf c).offset ≤ (a.stopOf id).offset := by
  induction h with
  | nil => cases hlast
  | @cons first ids i j k h hids ih =>
    obtain ⟨hstart, hle, hstop⟩ := h.bounds hnth
    have hfirst := Nat.le_of_eq hstart.symm
    cases ids with
    | nil =>
      cases hlast
      exact ⟨Nat.le_trans hfirst hle, List.forall_mem_singleton.2 ⟨hfirst, Nat.le_refl _⟩⟩
    | cons second ids =>
      rw [List.getLast?_cons_cons] at hlast
      obtain ⟨hend, hrest⟩ := ih hlast
      have hij := hnth.le h.le
      refine ⟨Nat.le_trans hij hend, List.forall_mem_cons.2 ⟨⟨hfirst, Nat.le_trans hstop hend⟩, ?_⟩⟩
      exact fun c hc => ⟨Nat.le_trans hij (hrest c hc).1, (hrest c hc).2⟩

end Tiles

/-- A node does not end before it begins, its children follow each other, and each of them is inside
it. -/
theorem Measured.nested (h : a.Measured nth) (hnth : Ordered nth) (hid : id < a.nodes.size) :
    (a.startOf id).offset ≤ (a.stopOf id).offset ∧ (a.children id).IsChain a.Precedes ∧
      ∀ c ∈ a.children id, a.Inside c id := by
  obtain ⟨i, j, hcovers, htiles⟩ := h id hid
  refine ⟨(hcovers.bounds hnth).2.1, ?_⟩
  by_cases hne : a.children id = []
  · rw [hne]
    exact ⟨.nil, List.forall_mem_nil _⟩
  · have htiles := htiles hne
    refine ⟨htiles.isChain hnth, fun c hc => ?_⟩
    obtain ⟨_, last, _, j', -, hlast, -, hcovers'⟩ := htiles.ends hne
    -- A node ends where its last child does.
    have hstop : a.stopOf last = a.stopOf id := by
      rw [hcovers'.stop, hcovers.stop, endsInLeaf_of_getLast hid hlast]
    obtain ⟨hstart, hend⟩ := (htiles.bounds hnth hlast).2 c hc
    exact ⟨(hcovers.bounds hnth).1 ▸ hstart, hstop ▸ hend⟩

end Arena

end FrontEnd
