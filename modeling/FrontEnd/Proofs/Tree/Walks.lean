import FrontEnd.Tree.Render
import Mathlib.Data.List.Basic

/-!
# What a walk over a tree meets

A walk with a stack meets a node and then, child by child, all that is below it. What it meets is
seen through the kinds of the nodes: which tokens hang on the leaves in which order, and where
errors are.

- `Arena.node_induction`, `Arena.stack_induction`: induction over a tree, from the children to their
  node, and over a stack of nodes;
- `Arena.preorder_eq`: a walk is a recursion over the children;
- `Arena.kinds`: the kinds of the nodes met on a walk over a row of trees;
- `Arena.Extends`: **building adds nodes and changes none**, so that what was met before is met
  again;
- `Arena.kinds_pushLeaf`, `Arena.kinds_pushNode`: what a new node adds to a walk;
- `Arena.Grows`: a row of trees to which leaves and parents are added at the right end;
- `Arena.Grows.complete`: **as long as a row grows in this way, its leaves are the tokens in order**;
- `SyntaxTree.leaves`: the tokens on the leaves of a tree.
-/

namespace FrontEnd

/-- The token on a leaf. -/
def NodeKind.token? : NodeKind → Option Nat
  | .leaf token => some token
  | _ => none

namespace Arena

variable {a a' a'' : Arena} {id c : NodeId} {ids : List NodeId}

/-! ## Walks -/

/-- The nodes below a node come before it. -/
@[elab_as_elim]
theorem node_induction (a : Arena) {motive : NodeId → Prop}
    (node : ∀ id, (∀ c ∈ a.children id, motive c) → motive id) (id : NodeId) : motive id := by
  induction id using Nat.strongRecOn with
  | _ id ih => exact node id fun c hc => ih c (lt_of_mem_children hc)

/-- A stack whose first node is replaced by its children over and over runs empty. -/
@[elab_as_elim]
theorem stack_induction (a : Arena) {motive : List NodeId → Prop} (nil : motive [])
    (node : ∀ id stack, motive (a.children id ++ stack) → motive (id :: stack))
    (stack : List NodeId) : motive stack :=
  walk.induct a (fun _ stack => motive stack) (fun _ => nil) (fun _ => node) [] stack

/-- The stack alone decides what is met from now on. -/
theorem walk_visited (a : Arena) (visited stack : List NodeId) :
    a.walk visited stack = visited.reverse ++ a.walk [] stack := by
  induction stack using a.stack_induction generalizing visited with
  | nil => simp [walk]
  | node id stack ih =>
    rw [walk, walk, ih (id :: visited), ih [id]]
    simp

theorem walk_append (a : Arena) (stack stack' : List NodeId) :
    a.walk [] (stack ++ stack') = a.walk [] stack ++ a.walk [] stack' := by
  induction stack using a.stack_induction with
  | nil => simp [walk]
  | node id stack ih =>
    rw [List.cons_append, walk, walk_visited, ← List.append_assoc, ih, walk,
      walk_visited a [id] (a.children id ++ stack), List.append_assoc]

theorem walk_eq (a : Arena) (stack : List NodeId) :
    a.walk [] stack = stack.flatMap a.preorder := by
  induction stack with
  | nil => simp [walk]
  | cons id stack ih =>
    have hsplit := a.walk_append [id] stack
    rw [List.singleton_append] at hsplit
    rw [hsplit, ih]
    rfl

/-- A node comes before what is below its children, and these from left to right. -/
theorem preorder_eq (a : Arena) (id : NodeId) :
    a.preorder id = id :: (a.children id).flatMap a.preorder := by
  rw [preorder, walk, List.append_nil, walk_visited, walk_eq]
  rfl

/-- Below a node stand older nodes only. -/
theorem le_of_mem_preorder (h : c ∈ a.preorder id) : c ≤ id := by
  induction id using a.node_induction with
  | node id ih =>
    rw [preorder_eq, List.mem_cons] at h
    rcases h with rfl | h
    · exact Nat.le_refl _
    · obtain ⟨child, hchild, h⟩ := List.mem_flatMap.1 h
      exact Nat.le_trans (ih child hchild h) (Nat.le_of_lt (lt_of_mem_children hchild))

/-! ## Kinds -/

/-- The kinds of the nodes that are met on a walk over a row of trees. -/
def kinds (a : Arena) (ids : List NodeId) : List NodeKind :=
  (ids.flatMap a.preorder).filterMap a.kind?

@[simp] theorem kinds_nil (a : Arena) : a.kinds [] = [] := rfl

@[simp] theorem kinds_append (a : Arena) (ids ids' : List NodeId) :
    a.kinds (ids ++ ids') = a.kinds ids ++ a.kinds ids' := by
  simp [kinds]

/-! ## Building -/

/-- The nodes of an arena are there in a later one, under the same ids. -/
structure Extends (a a' : Arena) : Prop where
  size_le : a.nodes.size ≤ a'.nodes.size
  nodes : ∀ id < a.nodes.size, a'.nodes[id]? = a.nodes[id]?

namespace Extends

theorem refl (a : Arena) : a.Extends a := ⟨Nat.le_refl _, fun _ _ => rfl⟩

theorem trans (h : a.Extends a') (h' : a'.Extends a'') : a.Extends a'' :=
  ⟨Nat.le_trans h.size_le h'.size_le, fun id hid =>
    (h'.nodes id (Nat.lt_of_lt_of_le hid h.size_le)).trans (h.nodes id hid)⟩

theorem push (a : Arena) (n : Node) (h : ∀ c ∈ n.children, c < a.nodes.size) :
    a.Extends (a.push n h) := by
  refine ⟨by simp [Arena.push], fun id hid => ?_⟩
  rw [Arena.push, Array.getElem?_push, if_neg (Nat.ne_of_lt hid)]

theorem pushLeaf (a : Arena) (t : Token) : a.Extends (a.pushLeaf t) := by
  have h := push ⟨a.nodes, a.tokens.push t, a.child_lt⟩
    ⟨.leaf a.tokens.size, t.position, t.endPosition, []⟩ (by simp)
  exact ⟨h.size_le, h.nodes⟩

theorem pushNode (a : Arena) (kind : NodeKind) (children : List NodeId) (place : Position) :
    a.Extends (a.pushNode kind children place) := by
  unfold Arena.pushNode
  exact push a _ _

theorem kind?_eq (h : a.Extends a') (hid : id < a.nodes.size) : a'.kind? id = a.kind? id := by
  rw [kind?, kind?, h.nodes id hid]

theorem children_eq (h : a.Extends a') (hid : id < a.nodes.size) :
    a'.children id = a.children id := by
  rw [Arena.children, Arena.children, h.nodes id hid]

theorem preorder (h : a.Extends a') (hid : id < a.nodes.size) :
    a'.preorder id = a.preorder id := by
  induction id using a.node_induction with
  | node id ih =>
    rw [preorder_eq, preorder_eq, h.children_eq hid]
    congr 1
    exact List.flatMap_congr fun c hc => ih c hc (Nat.lt_trans (lt_of_mem_children hc) hid)

/-- What was met before is met again. -/
theorem flatMap_preorder (h : a.Extends a') (hids : ∀ id ∈ ids, id < a.nodes.size) :
    ids.flatMap a'.preorder = ids.flatMap a.preorder :=
  List.flatMap_congr fun id hid => h.preorder (hids id hid)

theorem kinds (h : a.Extends a') (hids : ∀ id ∈ ids, id < a.nodes.size) :
    a'.kinds ids = a.kinds ids := by
  rw [Arena.kinds, Arena.kinds, h.flatMap_preorder hids]
  refine List.filterMap_congr fun c hc => ?_
  obtain ⟨id, hid, hc⟩ := List.mem_flatMap.1 hc
  have hlt := Nat.lt_of_le_of_lt (le_of_mem_preorder hc) (hids id hid)
  exact h.kind?_eq hlt

end Extends

/-! ## The node that was pushed last -/

theorem size_pushLeaf (a : Arena) (t : Token) : (a.pushLeaf t).nodes.size = a.nodes.size + 1 := by
  simp [pushLeaf, push]

theorem size_pushNode (a : Arena) (kind : NodeKind) (children : List NodeId) (place : Position) :
    (a.pushNode kind children place).nodes.size = a.nodes.size + 1 := by
  simp [pushNode, push]

theorem filter_present {children : List NodeId} (h : ∀ c ∈ children, c < a.nodes.size) :
    children.filter (· < a.nodes.size) = children :=
  List.filter_eq_self.2 fun c hc => by simpa using h c hc

theorem children_pushNode {children : List NodeId} (kind : NodeKind) (place : Position)
    (h : ∀ c ∈ children, c < a.nodes.size) :
    (a.pushNode kind children place).children a.nextId = children := by
  simp [pushNode, push, Arena.children, nextId, filter_present h]

theorem kind?_pushNode (a : Arena) (kind : NodeKind) (children : List NodeId) (place : Position) :
    (a.pushNode kind children place).kind? a.nextId = some kind := by
  simp [pushNode, push, kind?, nextId]

/-- The node that was pushed last is found, and below it what its children were. -/
theorem kinds_push (a : Arena) (n : Node) (h : ∀ c ∈ n.children, c < a.nodes.size) :
    (a.push n h).kinds [a.nextId] = n.kind :: a.kinds n.children := by
  have hget : (a.push n h).nodes[a.nextId]? = some n := by
    simp [Arena.push, nextId]
  have hchildren : (a.push n h).children a.nextId = n.children := by
    rw [children, hget]
    rfl
  have hkind : (a.push n h).kind? a.nextId = some n.kind := by
    rw [kind?, hget]
    rfl
  have hbelow := (Extends.push a n h).kinds h
  rw [kinds, List.flatMap_singleton, preorder_eq, hchildren, List.filterMap_cons, hkind]
  exact congrArg (n.kind :: ·) hbelow

theorem kinds_pushLeaf (a : Arena) (t : Token) :
    (a.pushLeaf t).kinds [a.nextId] = [.leaf a.tokens.size] :=
  kinds_push ⟨a.nodes, a.tokens.push t, a.child_lt⟩
    ⟨.leaf a.tokens.size, t.position, t.endPosition, []⟩ (by simp)

theorem kinds_pushNode (a : Arena) (kind : NodeKind) {children : List NodeId} (place : Position)
    (h : ∀ c ∈ children, c < a.nodes.size) :
    (a.pushNode kind children place).kinds [a.nextId] = kind :: a.kinds children := by
  have hpush := kinds_push a ⟨kind, (children.head?.map a.startOf).getD place,
    (children.getLast?.map a.stopOf).getD place, children⟩ h
  rw [← hpush, pushNode]
  simp only [filter_present h]

/-- A new node is met on a walk over its row. -/
theorem mem_kinds_pushNode (a : Arena) (kind : NodeKind) {before children : List NodeId}
    (place : Position) (h : ∀ c ∈ before ++ children, c < a.nodes.size) :
    kind ∈ (a.pushNode kind children place).kinds (before ++ [a.nextId]) := by
  rw [kinds_append, kinds_pushNode a kind place fun c hc => h c (List.mem_append_right _ hc)]
  exact List.mem_append_right _ List.mem_cons_self

/-! ## Rows of trees -/

/-- The row of trees `row` has grown at its right end: leaves for the tokens `taken` have been put
there, and now and then the last trees have been put under a new node. -/
inductive Grows (a : Arena) (row : List NodeId) : List Token → Arena → List NodeId → Prop where
  | refl : Grows a row [] a row
  | leaf {taken : List Token} {a' : Arena} {row' : List NodeId} (t : Token)
    (h : Grows a row taken a' row') :
    Grows a row (taken ++ [t]) (a'.pushLeaf t) (row' ++ [a'.nextId])
  | node {taken : List Token} {a' : Arena} {before children : List NodeId} {kind : NodeKind}
    (hkind : kind.token? = none) (place : Position)
    (h : Grows a row taken a' (before ++ children)) :
    Grows a row taken (a'.pushNode kind children place) (before ++ [a'.nextId])

/-- The trees of the row are there, and their leaves are the tokens in order, each once. -/
structure Complete (a : Arena) (row : List NodeId) : Prop where
  lt : ∀ id ∈ row, id < a.nodes.size
  leaves : (a.kinds row).filterMap NodeKind.token? = List.range a.tokens.size

namespace Grows

variable {row row' row'' : List NodeId} {taken taken' : List Token}

theorem trans (h : a.Grows row taken a' row') (h' : a'.Grows row' taken' a'' row'') :
    a.Grows row (taken ++ taken') a'' row'' := by
  induction h' with
  | refl => simpa using h
  | leaf t _ ih =>
    rw [← List.append_assoc]
    exact ih.leaf t
  | node hkind place _ ih => exact ih.node hkind place

/-- Leaves for several tokens, one after the other. -/
theorem leaves (h : a.Grows row taken a' row') (tokens : List Token) :
    a.Grows row (taken ++ tokens) (tokens.foldl pushLeaf a')
      (row' ++ List.range' a'.nextId tokens.length) := by
  induction tokens generalizing taken a' row' with
  | nil => simpa using h
  | cons t tokens ih =>
    have hrest := ih (h.leaf t)
    have hnext : (a'.pushLeaf t).nextId = a'.nextId + 1 := by simp [pushLeaf, push, nextId]
    rw [hnext] at hrest
    simpa [List.range'_succ] using hrest

theorem tokens (h : a.Grows row taken a' row') :
    a'.tokens.toList = a.tokens.toList ++ taken := by
  induction h with
  | refl => simp
  | @leaf taken a' row' t _ ih =>
    have hpush : (a'.pushLeaf t).tokens.toList = a'.tokens.toList ++ [t] := by simp [pushLeaf, push]
    rw [hpush, ih, List.append_assoc]
  | node hkind place _ ih => exact ih

/-- The trees of a grown row are there. -/
theorem lt (h : a.Grows row taken a' row') (hrow : ∀ id ∈ row, id < a.nodes.size) :
    ∀ id ∈ row', id < a'.nodes.size := by
  induction h with
  | refl => exact hrow
  | @leaf taken a' row' t _ ih =>
    intro id hid
    rw [size_pushLeaf]
    rcases List.mem_append.1 hid with hid | hid
    · exact Nat.lt_succ_of_lt (ih id hid)
    · exact List.mem_singleton.1 hid ▸ Nat.lt_succ_self _
  | @node taken a' before children kind hkind place _ ih =>
    intro id hid
    rw [size_pushNode]
    rcases List.mem_append.1 hid with hid | hid
    · exact Nat.lt_succ_of_lt (ih id (List.mem_append_left _ hid))
    · exact List.mem_singleton.1 hid ▸ Nat.lt_succ_self _

/-- What is met on a walk over a row is met again when the row has grown. -/
theorem sublist_kinds (h : a.Grows row taken a' row') (hrow : ∀ id ∈ row, id < a.nodes.size) :
    (a.kinds row).Sublist (a'.kinds row') := by
  induction h with
  | refl => exact List.Sublist.refl _
  | leaf t h ih =>
    rw [kinds_append, (Extends.pushLeaf _ t).kinds (h.lt hrow)]
    exact ih.trans (List.sublist_append_left ..)
  | node hkind place h ih =>
    have hlt := h.lt hrow
    have hbefore := fun id hid => hlt id (List.mem_append_left _ hid)
    have hchildren := fun id hid => hlt id (List.mem_append_right _ hid)
    rw [kinds_append, (Extends.pushNode ..).kinds hbefore, kinds_pushNode _ _ place hchildren]
    rw [kinds_append] at ih
    exact ih.trans (List.Sublist.append_left (List.sublist_cons_self ..) _)

/-- A complete row stays complete. -/
theorem complete (h : a.Grows row taken a' row') (hrow : a.Complete row) : a'.Complete row' := by
  induction h with
  | refl => exact hrow
  | @leaf taken a' row' t h ih =>
    have hsize : (a'.pushLeaf t).tokens.size = a'.tokens.size + 1 := by simp [pushLeaf, push]
    refine ⟨(h.leaf t).lt hrow.lt, ?_⟩
    rw [kinds_append, (Extends.pushLeaf _ t).kinds ih.lt, kinds_pushLeaf, List.filterMap_append,
      ih.leaves, hsize, List.range_succ]
    rfl
  | @node taken a' before children kind hkind place h ih =>
    have hbefore := fun id hid => ih.lt id (List.mem_append_left _ hid)
    have hchildren := fun id hid => ih.lt id (List.mem_append_right _ hid)
    have hleaves := ih.leaves
    refine ⟨(h.node hkind place).lt hrow.lt, ?_⟩
    rw [kinds_append, (Extends.pushNode ..).kinds hbefore, kinds_pushNode _ _ place hchildren,
      List.filterMap_append, List.filterMap_cons_none hkind, ← List.filterMap_append,
      ← kinds_append]
    exact hleaves

end Grows

end Arena

/-- The tokens on the leaves, in the order in which a walk from the root meets them. -/
def SyntaxTree.leaves (t : SyntaxTree) : List Nat :=
  ((t.preorder t.root).filterMap t.kind?).filterMap NodeKind.token?

/-- A walk from the root meets the root and then the trees under it. -/
theorem Arena.kinds_finish (a : Arena) {children : List NodeId} (place : Position)
    (h : ∀ c ∈ children, c < a.nodes.size) :
    ((a.finish children place).preorder (a.finish children place).root).filterMap
      (a.finish children place).kind? = .root :: a.kinds children := by
  have hkinds := a.kinds_pushNode .root place h
  rw [Arena.kinds, List.flatMap_singleton] at hkinds
  exact hkinds

/-- The leaves of a whole tree are those of the trees under the root. -/
theorem Arena.leaves_finish (a : Arena) {children : List NodeId} (place : Position)
    (h : ∀ c ∈ children, c < a.nodes.size) :
    (a.finish children place).leaves = (a.kinds children).filterMap NodeKind.token? := by
  rw [SyntaxTree.leaves, a.kinds_finish place h]
  rfl

/-- A whole tree has an error node when one of the trees under the root has. -/
theorem Arena.hasErrors_finish (a : Arena) {children : List NodeId} (place : Position)
    (h : ∀ c ∈ children, c < a.nodes.size) :
    (a.finish children place).hasErrors = true ↔ .error ∈ a.kinds children := by
  have hmem : .error ∈ a.kinds children ↔ .error ∈ NodeKind.root :: a.kinds children := by simp
  rw [hmem, ← a.kinds_finish place h, List.mem_filterMap, SyntaxTree.hasErrors,
    SyntaxTree.errorNodes, Bool.not_eq_true', List.isEmpty_eq_false_iff_exists_mem]
  simp only [List.mem_filter, beq_iff_eq]

end FrontEnd
