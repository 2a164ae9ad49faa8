import FrontEnd.Token.Basic

/-!
# Syntax trees

A tree is an arena: nodes stand in one array and name their children by index. It is built from
the leaves up, so that **a child always stands before its parent** (`Arena.child_lt`); every walk
over a tree ends for that reason.

- `Arena.pushLeaf`, `Arena.pushNode`, `Arena.finish`: building;
- `Arena.weight`: the number of visits that a walk from a node takes;
- `SyntaxTree.preorder`: the nodes, each before its children, from left to right.
-/

namespace FrontEnd

/-- The place of a node in its arena. -/
abbrev NodeId := Nat

/-- What a node stands for. -/
inductive NodeKind where
  /-- The root; its children are what the start rule produced. -/
  | root
  /-- The token with this index. -/
  | leaf (token : Nat)
  /-- A use of the grammar rule with this number. -/
  | rule (rule : Nat)
  /-- Left operand, operator leaf, right operand. -/
  | binary (op : TokenId)
  /-- Operator leaf, operand. -/
  | unary (op : TokenId)
  /-- A region that could not be parsed, over its discarded tokens. -/
  | error
  deriving DecidableEq, Repr, Inhabited

/-- One node. -/
structure Node where
  kind : NodeKind
  /-- The first character of the first token. -/
  start : Position
  /-- Behind the last character of the last token. -/
  stop : Position
  children : List NodeId
  deriving DecidableEq, Repr, Inhabited

/-- The bytes that a node covers. -/
def Node.span (n : Node) : Span := n.start.spanTo n.stop

/-- The sum of a measure over a list. -/
def total {α : Type} (measure : α → Nat) (xs : List α) : Nat :=
  xs.foldr (fun x n => measure x + n) 0

@[simp] theorem total_nil {α : Type} (measure : α → Nat) : total measure [] = 0 := rfl

@[simp] theorem total_cons {α : Type} (measure : α → Nat) (x : α) (xs : List α) :
    total measure (x :: xs) = measure x + total measure xs := rfl

@[simp] theorem total_append {α : Type} (measure : α → Nat) (xs ys : List α) :
    total measure (xs ++ ys) = total measure xs + total measure ys := by
  induction xs with
  | nil => simp
  | cons x xs ih => simp [ih, Nat.add_assoc]

theorem total_le_of_sublist {α : Type} (measure : α → Nat) {xs ys : List α} (h : xs.Sublist ys) :
    total measure xs ≤ total measure ys := by
  induction h with
  | slnil => exact Nat.le_refl _
  | cons y _ ih => exact Nat.le_trans ih (Nat.le_add_left _ (measure y))
  | cons_cons x _ ih => exact Nat.add_le_add_left ih (measure x)

/-- Nodes and tokens, in the order in which they were pushed. -/
structure Arena where
  nodes : Array Node
  tokens : Array Token
  child_lt : ∀ (i : Nat) (h : i < nodes.size), ∀ c ∈ nodes[i].children, c < i

namespace Arena

/-- Nothing yet. -/
def empty : Arena := ⟨#[], #[], by simp⟩

instance : Inhabited Arena := ⟨empty⟩

/-- The children of a node; a missing node has none. -/
def children (a : Arena) (id : NodeId) : List NodeId := (a.nodes[id]?.map Node.children).getD []

theorem lt_of_mem_children {a : Arena} {id c : NodeId} (h : c ∈ a.children id) : c < id := by
  unfold children at h
  by_cases hid : id < a.nodes.size
  · simp only [Array.getElem?_eq_getElem hid, Option.map_some, Option.getD_some] at h
    exact a.child_lt id hid c h
  · simp [Array.getElem?_eq_none (Nat.le_of_not_lt hid)] at h

/-- Adds a node over children that are all there. -/
def push (a : Arena) (n : Node) (h : ∀ c ∈ n.children, c < a.nodes.size) : Arena :=
  ⟨a.nodes.push n, a.tokens, by
    intro i hi c hc
    rw [Array.getElem_push] at hc
    split at hc
    · next hlt => exact a.child_lt i hlt c hc
    · have : i = a.nodes.size := by simp at hi; omega
      subst this
      exact h c hc⟩

/-- The id of the node that is pushed next. -/
def nextId (a : Arena) : NodeId := a.nodes.size

/-- Adds a token and a leaf for it. -/
def pushLeaf (a : Arena) (t : Token) : Arena :=
  let leaf : Node := ⟨.leaf a.tokens.size, t.position, t.endPosition, []⟩
  push ⟨a.nodes, a.tokens.push t, a.child_lt⟩ leaf (by simp [leaf])

/-- Where a node starts. -/
def startOf (a : Arena) (id : NodeId) : Position := (a.nodes[id]?.map Node.start).getD default

/-- Where a node ends. -/
def stopOf (a : Arena) (id : NodeId) : Position := (a.nodes[id]?.map Node.stop).getD default

/-- Adds a node over `children`. It reaches from the start of the first to the end of the last;
without children it is the empty node at `place`. Ids that name no node are left out. -/
def pushNode (a : Arena) (kind : NodeKind) (children : List NodeId) (place : Position) : Arena :=
  let present := children.filter (· < a.nodes.size)
  let start := (present.head?.map a.startOf).getD place
  let stop := (present.getLast?.map a.stopOf).getD place
  a.push ⟨kind, start, stop, present⟩ (by
    intro c hc
    simpa using (List.mem_filter.1 hc).2)

/-- The number of nodes met on a walk from `id`, with repetitions. -/
def weight (a : Arena) (id : NodeId) : Nat :=
  1 + total (fun c => a.weight c.1) (a.children id).attach
termination_by id
decreasing_by exact lt_of_mem_children c.2

theorem weight_eq (a : Arena) (id : NodeId) :
    a.weight id = 1 + total a.weight (a.children id) := by
  rw [weight, total, total]
  rw [List.foldr_attach (f := fun c n => a.weight c + n)]

/-- Walks from a stack of nodes, the next one first; `visited` holds the nodes met, latest
first. -/
def walk (a : Arena) (visited : List NodeId) : List NodeId → List NodeId
  | [] => visited.reverse
  | id :: stack => a.walk (id :: visited) (a.children id ++ stack)
termination_by stack => total a.weight stack
decreasing_by
  rw [total_append, total_cons, weight_eq a id]
  omega

/-- The nodes under `id`, each before its children, from left to right. -/
def preorder (a : Arena) (id : NodeId) : List NodeId := a.walk [] [id]

end Arena

/-- An arena with its root. -/
structure SyntaxTree extends Arena where
  root : NodeId

instance : Inhabited SyntaxTree := ⟨⟨default, 0⟩⟩

/-- Puts `children` under the root. -/
def Arena.finish (a : Arena) (children : List NodeId) (place : Position) : SyntaxTree :=
  ⟨a.pushNode .root children place, a.nextId⟩

namespace SyntaxTree

/-- Number of nodes, the root included. -/
def size (t : SyntaxTree) : Nat := t.nodes.size

/-- What the node `id` stands for. -/
def kind? (t : SyntaxTree) (id : NodeId) : Option NodeKind := t.nodes[id]?.map Node.kind

/-- Does the root have no children? -/
def isEmpty (t : SyntaxTree) : Bool := (t.children t.root).isEmpty

/-- The error nodes in preorder. -/
def errorNodes (t : SyntaxTree) : List NodeId :=
  (t.preorder t.root).filter fun id => t.kind? id == some .error

def hasErrors (t : SyntaxTree) : Bool := !t.errorNodes.isEmpty

end SyntaxTree

/-- The token of a leaf. -/
def Arena.leafToken? (a : Arena) (id : NodeId) : Option Token :=
  match a.nodes[id]?.map Node.kind with
  | some (.leaf token) => a.tokens[token]?
  | _ => none

end FrontEnd
