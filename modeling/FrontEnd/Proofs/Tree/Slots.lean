import FrontEnd.Proofs.Tree.Expressions
import FrontEnd.Proofs.Tree.Forests

/-!
# Where operators stand

The node of an operator has the leaf of the operator in a slot among its children: the first one for
a prefix operator, the second one for a binary operator. Nodes of other kinds have no slot, so that
an arena that gains only these stays in order.

- `Arena.HasOperator`: a leaf of an operator stands in a slot of a row;
- `Arena.Formed`: **every node has its operator in its slot, and no node is a root**;
- `Arena.Gains`: nodes without a slot have been added;
- `SyntaxTree.WellFormed`: **a tree that is one tree**, with every node in one place and every
  operator in its slot.
-/

namespace FrontEnd

/-- Among the children of a node, the place of the leaf of the operator, and the operator. -/
def NodeKind.slot? : NodeKind → Option (Nat × TokenId)
  | .unary op => some (0, op)
  | .binary op => some (1, op)
  | _ => none

namespace Arena

variable {a a' : Arena} {id : NodeId} {nodes children : List NodeId} {slot : Nat} {op : TokenId}
  {kind : NodeKind} {t : Token}

/-! ## Slots -/

/-- The node in the slot is a leaf of the operator. -/
def HasOperator (a : Arena) (nodes : List NodeId) (slot : Nat) (op : TokenId) : Prop :=
  ∃ t, nodes[slot]?.bind a.leafToken? = some t ∧ t.id = op

theorem lt_of_kind? (h : a.kind? id = some kind) : id < a.nodes.size := by
  obtain ⟨n, hn, -⟩ := Option.map_eq_some_iff.1 h
  exact (Array.getElem?_eq_some_iff.1 hn).1

theorem Later.leafToken? (h : a.Later a') (ht : a.leafToken? id = some t) :
    a'.leafToken? id = some t := by
  unfold Arena.leafToken? at ht
  split at ht
  · next token hkind =>
    have hid : id < a.nodes.size := lt_of_kind? hkind
    have htoken : token < a.tokens.size := (Array.getElem?_eq_some_iff.1 ht).1
    rw [Arena.leafToken?, h.nodes id hid, hkind]
    exact (h.tokens token htoken).trans ht
  · cases ht

theorem leafToken?_pushLeaf (a : Arena) (t : Token) :
    (a.pushLeaf t).leafToken? a.nextId = some t := by
  simp [leafToken?, pushLeaf, push, nextId]

namespace HasOperator

theorem later (h : a.HasOperator nodes slot op) (hlater : a.Later a') :
    a'.HasOperator nodes slot op := by
  obtain ⟨t, ht, hop⟩ := h
  obtain ⟨leaf, hleaf, ht⟩ := Option.bind_eq_some_iff.1 ht
  exact ⟨t, Option.bind_eq_some_iff.2 ⟨leaf, hleaf, hlater.leafToken? ht⟩, hop⟩

/-- More nodes behind the slot change nothing. -/
theorem append (h : a.HasOperator nodes slot op) (more : List NodeId) :
    a.HasOperator (nodes ++ more) slot op := by
  obtain ⟨t, ht, hop⟩ := h
  obtain ⟨leaf, hleaf, ht⟩ := Option.bind_eq_some_iff.1 ht
  obtain ⟨hslot, -⟩ := List.getElem?_eq_some_iff.1 hleaf
  refine ⟨t, Option.bind_eq_some_iff.2 ⟨leaf, ?_, ht⟩, hop⟩
  rw [List.getElem?_append_left hslot, hleaf]

end HasOperator

/-! ## Nodes in order -/

/-- A node of the kind is no root, and has its operator in its slot. -/
structure Fits (a : Arena) (id : NodeId) (kind : NodeKind) : Prop where
  ne_root : kind ≠ .root
  operator : ∀ slot op, kind.slot? = some (slot, op) → a.HasOperator (a.children id) slot op

/-- Every node has its operator in its slot, and none is a root. -/
def Formed (a : Arena) : Prop := ∀ id kind, a.kind? id = some kind → a.Fits id kind

namespace Formed

theorem empty : Arena.empty.Formed := by
  intro id kind h
  simp [Arena.kind?, Arena.empty] at h

/-- In a later arena the nodes that were there still fit. -/
theorem fits (h : a.Formed) (hlater : a.Later a') (hid : id < a.nodes.size)
    (hkind : a'.kind? id = some kind) : a'.Fits id kind := by
  rw [hlater.kind?_eq hid] at hkind
  obtain ⟨hne, hoperator⟩ := h id kind hkind
  refine ⟨hne, fun slot op hslot => ?_⟩
  rw [hlater.children_eq hid]
  exact (hoperator slot op hslot).later hlater

/-- One more node that fits. -/
theorem add (h : a.Formed) (hlater : a.Later a') (hsize : a'.nodes.size = a.nodes.size + 1)
    (hnew : ∀ kind, a'.kind? a.nextId = some kind → a'.Fits a.nextId kind) : a'.Formed := by
  intro id kind hkind
  have hid := lt_of_kind? hkind
  rcases Nat.lt_or_eq_of_le (Nat.le_of_lt_succ (hsize ▸ hid)) with hlt | rfl
  · exact h.fits hlater hlt hkind
  · exact hnew kind hkind

theorem pushLeaf (h : a.Formed) (t : Token) : (a.pushLeaf t).Formed := by
  refine h.add (.pushLeaf a t) (size_pushLeaf a t) fun kind hkind => ?_
  have hleaf : (a.pushLeaf t).kind? a.nextId = some (.leaf a.tokens.size) :=
    kind?_push ⟨a.nodes, a.tokens.push t, a.child_lt⟩
      ⟨.leaf a.tokens.size, t.position, t.endPosition, []⟩ (by simp)
  cases hleaf.symm.trans hkind
  exact ⟨nofun, nofun⟩

theorem pushNode (h : a.Formed) (hne : kind ≠ .root) (place : Position)
    (hoperator : ∀ slot op, kind.slot? = some (slot, op) →
      (∀ c ∈ children, c < a.nodes.size) ∧ a.HasOperator children slot op) :
    (a.pushNode kind children place).Formed := by
  have hlater := Later.pushNode a kind children place
  refine h.add hlater (size_pushNode a kind children place) fun kind' hkind => ?_
  cases (kind?_pushNode a kind children place).symm.trans hkind
  refine ⟨hne, fun slot op hslot => ?_⟩
  obtain ⟨hpresent, hop⟩ := hoperator slot op hslot
  rw [children_pushNode kind place hpresent]
  exact hop.later hlater

end Formed

/-! ## Adding nodes without a slot -/

/-- Leaves, nodes of rules and error nodes have been added. They have no slots. -/
inductive Gains (a : Arena) : Arena → Prop where
  | refl : Gains a a
  | leaf {a' : Arena} (h : Gains a a') (t : Token) : Gains a (a'.pushLeaf t)
  | rule {a' : Arena} (h : Gains a a') (r : Nat) (children : List NodeId) (place : Position) :
    Gains a (a'.pushNode (.rule r) children place)
  | error {a' : Arena} (h : Gains a a') (children : List NodeId) (place : Position) :
    Gains a (a'.pushNode .error children place)

namespace Gains

theorem trans {a'' : Arena} (h : a.Gains a') (h' : a'.Gains a'') : a.Gains a'' := by
  induction h' with
  | refl => exact h
  | leaf _ t ih => exact ih.leaf t
  | rule _ r children place ih => exact ih.rule r children place
  | error _ children place ih => exact ih.error children place

theorem of_eq (h : a' = a) : a.Gains a' := h ▸ .refl

theorem leaves (h : a.Gains a') (tokens : List Token) :
    a.Gains (tokens.foldl Arena.pushLeaf a') := by
  induction tokens generalizing a' with
  | nil => exact h
  | cons t tokens ih => exact ih (h.leaf t)

theorem later (h : a.Gains a') : a.Later a' := by
  induction h with
  | refl => exact .refl a
  | leaf _ t ih => exact ih.trans (.pushLeaf _ t)
  | rule _ r children place ih => exact ih.trans (.pushNode _ _ children place)
  | error _ children place ih => exact ih.trans (.pushNode _ _ children place)

theorem formed (h : a.Gains a') (hformed : a.Formed) : a'.Formed := by
  induction h with
  | refl => exact hformed
  | leaf _ t ih => exact ih.pushLeaf t
  | rule _ r children place ih => exact ih.pushNode (by simp) place (by simp [NodeKind.slot?])
  | error _ children place ih => exact ih.pushNode (by simp) place (by simp [NodeKind.slot?])

end Gains

end Arena

/-! ## Whole trees -/

/-- All nodes make one tree. -/
structure SyntaxTree.WellFormed (t : SyntaxTree) : Prop where
  /-- The root is the last node. -/
  size_eq : t.size = t.root + 1
  /-- Every other node is a child of one node, and once. -/
  attached : t.attached.Perm (List.range t.root)
  child_lt : ∀ id, ∀ c ∈ t.children id, c < id
  /-- A walk from the root meets every node once. -/
  preorder : (t.preorder t.root).Perm (List.range t.size)
  root_iff : ∀ id, t.kind? id = some .root ↔ id = t.root
  binary : ∀ id op, t.kind? id = some (.binary op) → t.HasOperator (t.children id) 1 op
  unary : ∀ id op, t.kind? id = some (.unary op) → t.HasOperator (t.children id) 0 op
  /-- The tree is the work of a builder. -/
  built : ∃ calls children place, TreeBuilder.build false calls children place = some t
  /-- Whatever calls it is made by, a careful builder finds nothing to complain about. -/
  careful : ∀ calls children place, TreeBuilder.build false calls children place = some t →
    TreeBuilder.build true calls children place = some t

namespace Arena

variable {a : Arena} {children : List NodeId}

theorem kind?_root (a : Arena) (children : List NodeId) (place : Position) :
    (a.finish children place).kind? (a.finish children place).root = some .root :=
  kind?_pushNode a .root children place

/-- The nodes under the root fit. -/
theorem Formed.fits_finish (h : a.Formed) {place : Position} {id : NodeId} {kind : NodeKind}
    (hkind : (a.finish children place).kind? id = some kind)
    (hid : id ≠ (a.finish children place).root) : (a.finish children place).Fits id kind := by
  have hkind : (a.pushNode .root children place).kind? id = some kind := hkind
  have hlt := lt_of_kind? hkind
  rw [size_pushNode] at hlt
  exact h.fits (.pushNode a .root children place) (Nat.lt_of_le_of_ne (Nat.le_of_lt_succ hlt) hid)
    hkind

/-- A row that has grown becomes one tree, when the nodes under the root fit. -/
theorem Grows.wellFormed {row : List NodeId} {taken : List Token} {place : Position}
    (h : Arena.empty.Grows [] taken a row)
    (hfits : ∀ id kind, (a.finish row place).kind? id = some kind →
      id ≠ (a.finish row place).root → (a.finish row place).Fits id kind) :
    (a.finish row place).WellFormed := by
  have hforest := h.forest .empty
  have hroot := kind?_root a row place
  have hne : ∀ {id kind}, (a.finish row place).kind? id = some kind → kind ≠ .root →
      id ≠ (a.finish row place).root := by
    rintro id kind hkind hne rfl
    exact hne (Option.some.inj (hkind.symm.trans hroot))
  obtain ⟨calls, hbuilt⟩ := h.builds place
  exact {
    size_eq := size_pushNode a .root row place
    attached := hforest.attached_finish place
    child_lt := fun _ _ => lt_of_mem_children
    preorder := hforest.preorder_finish place
    root_iff := fun id =>
      ⟨fun hkind => by_contra fun hid => (hfits id _ hkind hid).ne_root rfl, fun hid => hid ▸ hroot⟩
    binary := fun id op hkind => (hfits id _ hkind (hne hkind (by simp))).operator 1 op rfl
    unary := fun id op hkind => (hfits id _ hkind (hne hkind (by simp))).operator 0 op rfl
    built := ⟨calls, row, place, hbuilt⟩
    careful := fun _ _ _ => TreeBuilder.build_careful (hforest.attached_finish place) }

end Arena

end FrontEnd
