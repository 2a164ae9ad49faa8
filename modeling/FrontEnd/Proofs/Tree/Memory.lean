import FrontEnd.Proofs.Lookups
import FrontEnd.Proofs.Tree.Forests
import FrontEnd.Proofs.Tree.Outlines

/-!
# Trees in memory

In memory a tree is three arrays: nodes, the children of all nodes one node after the other, and
tokens. A node has a range of the array of children. Numbers stop at the greatest one that is ever
recorded. Nothing is taken for granted here: **looking up what is not there gives no result**, and
neither does a range whose end is no number. A line that cannot be written is another matter: it is
an outcome of the writer.

- `ChildRange.slice?`: a part of an array;
- `FlatBuilder.build?`: building a tree;
- `FlatTree.expression?`, `FlatTree.dump?`: writing a tree;
- `FlatArena.Holds`: the arrays hold an arena;
- `FlatBuilder.exists_build`: **a tree whose nodes can be counted is built in memory by the same
  calls**;
- `FlatArena.Holds.write?_eq`, `FlatArena.Holds.writeLines?_eq`: and written as it is.
-/

namespace FrontEnd

/-! ## Building -/

/-- A part of the array of children. -/
structure ChildRange where
  start : Nat
  length : Nat

/-- The part of an array that a range names. -/
def ChildRange.slice? {α : Type} (r : ChildRange) (xs : Array α) : Option (List α) :=
  if r.start + r.length ≤ Position.limit ∧ r.start + r.length ≤ xs.size then
    some ((xs.toList.drop r.start).take r.length)
  else none

/-- A node, with the range of its children. -/
structure FlatNode where
  kind : NodeKind
  start : Position
  stop : Position
  children : ChildRange

/-- Nodes, their children, and tokens, in the order in which they were pushed. -/
structure FlatArena where
  nodes : Array FlatNode
  children : Array NodeId
  tokens : Array Token

/-- An arena that is being built, and for each node whether it has a parent. -/
structure FlatBuilder extends FlatArena where
  attached : Array Bool

/-- An arena with its root. -/
structure FlatTree extends FlatArena where
  root : NodeId

namespace FlatBuilder

/-- Nothing yet. -/
def empty : FlatBuilder := ⟨⟨#[], #[], #[]⟩, #[]⟩

/-- Adds a node without a parent. -/
def push (b : FlatBuilder) (n : FlatNode) : FlatBuilder :=
  { b with nodes := b.nodes.push n, attached := b.attached.push false }

/-- Adds a token and a leaf for it. -/
def pushLeaf (b : FlatBuilder) (t : Token) : FlatBuilder :=
  { b with tokens := b.tokens.push t }.push
    ⟨.leaf (Position.bounded b.tokens.size), t.position, t.endPosition, ⟨0, 0⟩⟩

/-- Where a node over children starts and ends. -/
def extent? (b : FlatBuilder) (children : List NodeId) (place : Position) :
    Option (Position × Position) :=
  match children.head?, children.getLast? with
  | some first, some last => do
    let n ← b.nodes[first]?
    let n' ← b.nodes[last]?
    some (n.start, n'.stop)
  | _, _ => some (place, place)

/-- Notes that a node has a parent. -/
def attach? (attached : Array Bool) (id : NodeId) : Option (Array Bool) := put? attached id true

/-- Adds a node over children. -/
def pushNode? (b : FlatBuilder) (kind : NodeKind) (children : List NodeId) (place : Position) :
    Option FlatBuilder := do
  let (start, stop) ← b.extent? children place
  let attached ← children.foldlM attach? b.attached
  let range := ⟨Position.bounded b.children.size, Position.bounded children.length⟩
  some ({ b with attached, children := b.children ++ children.toArray }.push
    ⟨kind, start, stop, range⟩)

/-- Does what is asked of a builder. -/
def call? (b : FlatBuilder) : TreeBuilder.Call → Option FlatBuilder
  | .leaf t => some (b.pushLeaf t)
  | .node kind children place => b.pushNode? kind children place

/-- One call after the other. -/
def perform? (b : FlatBuilder) (calls : List TreeBuilder.Call) : Option FlatBuilder :=
  calls.foldlM call? b

/-- Puts children under the root. -/
def finish? (b : FlatBuilder) (children : List NodeId) (place : Position) : Option FlatTree := do
  let root := Position.bounded b.nodes.size
  let b ← b.pushNode? .root children place
  let _ ← attach? b.attached root
  some ⟨b.toFlatArena, root⟩

/-- A whole tree, from the first call to the root. -/
def build? (calls : List TreeBuilder.Call) (children : List NodeId) (place : Position) :
    Option FlatTree :=
  (empty.perform? calls).bind (·.finish? children place)

end FlatBuilder

/-! ## Writing -/

namespace FlatArena

/-- The children of a node. -/
def children? (f : FlatArena) (id : NodeId) : Option (List NodeId) := do
  let n ← f.nodes[id]?
  n.children.slice? f.children

/-- The token of a node, if it is a leaf and has one. -/
def leafToken? (f : FlatArena) (id : NodeId) : Option (Option Token) := do
  let n ← f.nodes[id]?
  match n.kind with
  | .leaf token => some f.tokens[token]?
  | _ => some none

/-- The text of the operator leaf at `slot`, or the name of the operator when there is none. -/
def operatorText? (f : FlatArena) (names : Names) (id : NodeId) (slot : Nat) (op : TokenId) :
    Option String := do
  let children ← f.children? id
  match children[slot]? with
  | none => some (names.token op)
  | some leaf =>
    let token ← f.leafToken? leaf
    some ((token.map Token.text).getD (names.token op))

/-- The head of the group of a node that is no leaf. -/
def headText? (f : FlatArena) (names : Names) (id : NodeId) : NodeKind → Option String
  | .root => some "root"
  | .leaf _ => some ""
  | .rule rule => some (names.rule rule)
  | .binary op => f.operatorText? names id 1 op
  | .unary op => f.operatorText? names id 0 op
  | .error => some "error"

/-- The children behind the head. -/
def operands? (f : FlatArena) (id : NodeId) (kind : NodeKind) : Option (List NodeId) := do
  let children ← f.children? id
  match kind with
  | .binary _ => some (children.eraseIdx 1)
  | .unary _ => some (children.eraseIdx 0)
  | _ => some children

/-- Writes the first piece behind the text before it, and says whether there was one. -/
def writePiece? (f : FlatArena) (names : Names) (errors : Bool) :
    String × List Arena.Piece → Option ((String × List Arena.Piece) × Bool)
  | (out, []) => some ((out, []), false)
  | (out, .close :: rest) => some ((out.push ')', rest), true)
  | (out, .node id spaced :: rest) => do
    let n ← f.nodes[id]?
    let out' := if spaced then out.push ' ' else out
    match n.kind with
    | .leaf token =>
      some ((out' ++ ((f.tokens[token]?.map Token.text).getD ""), rest), true)
    | kind =>
      if kind = .error ∧ errors = false then some ((out, rest), true)
      else do
        let head ← f.headText? names id kind
        let operands ← f.operands? id kind
        some ((out'.push '(' ++ head, operands.map (.node · true) ++ .close :: rest), true)

/-- Writes pieces behind `out`. -/
noncomputable def write? (f : FlatArena) (names : Names) (errors : Bool) (out : String)
    (pieces : List Arena.Piece) : Option String :=
  (loop? (f.writePiece? names errors) (out, pieces)).map Prod.fst

/-- The line of a node in a dump, without indentation and positions. -/
def label (f : FlatArena) (names : Names) : NodeKind → String
  | .root => "Root"
  | .leaf token =>
    match f.tokens[token]? with
    | some t => names.token t.id ++ " " ++ Escape.literal t.text
    | none => "<missing token>"
  | .rule rule => names.rule rule
  | .binary op => "Binary " ++ names.token op
  | .unary op => "Unary " ++ names.token op
  | .error => "Error"

/-- One line of a dump, if it is not indented too far. -/
def dumpLine? (f : FlatArena) (names : Names) (depth : Nat) (n : FlatNode) : Option String :=
  if 2 * depth ≤ Arena.widthLimit then
    some (String.ofList (List.replicate (2 * depth) ' ') ++ f.label names n.kind ++ " @ " ++
      n.start.render ++ ".." ++ n.stop.render ++ "\n")
  else none

/-- Writes the line of the first node behind the text before it, and says whether there is more to
do. The children of the node are next. Behind a line that cannot be written there is nothing, and
no text either. -/
def writeLine? (f : FlatArena) (names : Names) :
    Option String × List (NodeId × Nat) → Option ((Option String × List (NodeId × Nat)) × Bool)
  | (out, []) => some ((out, []), false)
  | (out, (id, depth) :: rest) => do
    let n ← f.nodes[id]?
    match f.dumpLine? names depth n with
    | none => some ((none, []), false)
    | some line => do
      let children ← f.children? id
      some ((out.map (· ++ line), children.map (·, depth + 1) ++ rest), true)

/-- Writes the lines of nodes and of all below them behind `out`, if all of them can be written. -/
noncomputable def writeLines? (f : FlatArena) (names : Names) (out : String)
    (lines : List (NodeId × Nat)) : Option (Option String) :=
  (loop? (f.writeLine? names) (some out, lines)).map Prod.fst

end FlatArena

namespace FlatTree

/-- The whole tree as nested groups. -/
noncomputable def expression? (f : FlatTree) (names : Names) : Option String :=
  f.write? names true "" [.node f.root false]

/-- The whole tree as nested groups, without its error nodes. -/
noncomputable def expressionWithoutErrors? (f : FlatTree) (names : Names) : Option String :=
  f.write? names false "" [.node f.root false]

/-- The whole tree as indented lines, if all of them can be written. -/
noncomputable def dump? (f : FlatTree) (names : Names) : Option (Option String) :=
  f.writeLines? names "" [(f.root, 0)]

end FlatTree

/-! ## Arrays that hold an arena -/

namespace ChildRange

variable {α : Type} {r : ChildRange} {xs ys : Array α} {part : List α}

/-- A part stays where it is when the array grows. -/
theorem slice?_append (h : r.slice? xs = some part) (ys : Array α) :
    r.slice? (xs ++ ys) = some part := by
  unfold slice? at h ⊢
  split at h
  · next hr =>
    have hlength : r.start + r.length ≤ xs.toList.length := hr.2
    have hgrown : r.start + r.length ≤ (xs ++ ys).size := by
      rw [Array.size_append]
      exact Nat.le_add_right_of_le hr.2
    rw [if_pos ⟨hr.1, hgrown⟩, Array.toList_append,
      List.drop_append_of_le_length (by omega), List.take_append_of_le_length (by simp; omega)]
    exact h
  · cases h

/-- What has been added last is a part. -/
theorem slice?_last (xs : Array α) (part : List α)
    (h : xs.size + part.length ≤ Position.limit) :
    slice? ⟨Position.bounded xs.size, Position.bounded part.length⟩ (xs ++ part.toArray)
      = some part := by
  have hstart : Position.bounded xs.size = xs.size := Nat.min_eq_left (by omega)
  have hlength : Position.bounded part.length = part.length := Nat.min_eq_left (by omega)
  rw [slice?, hstart, hlength, if_pos ⟨h, by simp⟩]
  simp

end ChildRange

namespace FlatArena

variable {f : FlatArena} {a : Arena} {id : NodeId}

/-- The arrays hold the arena. -/
structure Holds (f : FlatArena) (a : Arena) : Prop where
  size : f.nodes.size = a.nodes.size
  tokens : f.tokens = a.tokens
  children : f.children.toList = a.attached
  node : ∀ (id : NodeId) (n : Node), a.nodes[id]? = some n → ∃ r : ChildRange,
    f.nodes[id]? = some ⟨n.kind, n.start, n.stop, r⟩ ∧ r.slice? f.children = some n.children

theorem holds_empty : FlatBuilder.empty.toFlatArena.Holds .empty :=
  ⟨rfl, rfl, rfl, by simp [Arena.empty]⟩

/-- One more node, whose children have been added to those of the others. -/
theorem Holds.push (h : f.Holds a) {n : Node} (hn : ∀ c ∈ n.children, c < a.nodes.size)
    {r : ChildRange} (hr : r.slice? (f.children ++ n.children.toArray) = some n.children) :
    Holds { f with
      nodes := f.nodes.push ⟨n.kind, n.start, n.stop, r⟩
      children := f.children ++ n.children.toArray } (a.push n hn) where
  size := by simp [Arena.push, h.size]
  tokens := h.tokens
  children := by simp [Arena.attached_push, h.children]
  node := by
    intro id n' hid
    rw [Arena.push, Array.getElem?_push] at hid
    rw [Array.getElem?_push, h.size]
    by_cases hnew : id = a.nodes.size
    · rw [if_pos hnew] at hid
      cases hid
      exact ⟨r, if_pos hnew, hr⟩
    · rw [if_neg hnew] at hid
      obtain ⟨r', hr', hslice⟩ := h.node id n' hid
      exact ⟨r', (if_neg hnew).trans hr', ChildRange.slice?_append hslice _⟩

theorem Holds.exists_node (h : f.Holds a) (hid : id < a.nodes.size) :
    ∃ n r, a.nodes[id]? = some n ∧ f.nodes[id]? = some ⟨n.kind, n.start, n.stop, r⟩ ∧
      r.slice? f.children = some n.children := by
  obtain ⟨r, hr⟩ := h.node id _ (Array.getElem?_eq_getElem hid)
  exact ⟨_, r, Array.getElem?_eq_getElem hid, hr⟩

end FlatArena

namespace FlatBuilder

variable {b : FlatBuilder} {a : Arena} {children : List NodeId} {place : Position}

/-- What has been built so far is the arena, and for each node there is a note. -/
structure Builds (b : FlatBuilder) (a : Arena) : Prop extends b.toFlatArena.Holds a where
  attached : b.attached.size = a.nodes.size
  /-- Each token has a leaf. -/
  tokens_le : a.tokens.size ≤ a.nodes.size

theorem builds_empty : empty.Builds .empty :=
  ⟨FlatArena.holds_empty, rfl, Nat.le_refl 0⟩

theorem Builds.pushLeaf (h : b.Builds a) (hlimit : a.nodes.size ≤ Position.limit) (t : Token) :
    (b.pushLeaf t).Builds (a.pushLeaf t) := by
  have hcount : Position.bounded b.tokens.size = a.tokens.size := by
    rw [h.tokens]
    exact Nat.min_eq_left (Nat.le_trans h.tokens_le hlimit)
  have hholds : FlatArena.Holds { b.toFlatArena with tokens := b.tokens.push t }
      ⟨a.nodes, a.tokens.push t, a.child_lt⟩ :=
    ⟨h.size, congrArg (Array.push · t) h.tokens, h.children, h.node⟩
  have hpush := hholds.push (n := ⟨.leaf a.tokens.size, t.position, t.endPosition, []⟩)
    (r := ⟨0, 0⟩) (by simp) (by simp [ChildRange.slice?])
  refine ⟨?_, ?_, ?_⟩
  · simpa [FlatBuilder.pushLeaf, FlatBuilder.push, Arena.pushLeaf, hcount] using hpush
  · simp [FlatBuilder.pushLeaf, FlatBuilder.push, Arena.size_pushLeaf, h.attached]
  · have := h.tokens_le
    simp [Arena.pushLeaf, Arena.push]
    omega

theorem extent?_eq (h : b.Builds a) (hchildren : ∀ c ∈ children, c < a.nodes.size) :
    b.extent? children place = some ((children.head?.map a.startOf).getD place,
      (children.getLast?.map a.stopOf).getD place) := by
  cases children with
  | nil => rfl
  | cons c rest =>
    have hne := List.cons_ne_nil c rest
    have hlast := List.getLast?_eq_some_getLast hne
    obtain ⟨n, r, hn, hflat, -⟩ := h.exists_node (hchildren c List.mem_cons_self)
    obtain ⟨n', r', hn', hflat', -⟩ := h.exists_node (hchildren _ (List.getLast_mem hne))
    simp [extent?, hlast, hflat, hflat', Arena.startOf, Arena.stopOf, hn, hn']

theorem exists_attach {attached : Array Bool} (h : ∀ c ∈ children, c < attached.size) :
    ∃ attached', children.foldlM attach? attached = some attached' ∧
      attached'.size = attached.size := by
  refine ⟨_, foldlM_eq_some (g := fun xs id => Array.setIfInBounds xs id true)
    (fun xs : Array Bool => xs.size = attached.size) (fun xs hxs c hc => ⟨?_, ?_⟩) rfl⟩
  · exact put?_eq (hxs ▸ h c hc) true
  · exact Array.size_setIfInBounds.trans hxs

theorem pushNode?_eq {start stop : Position} {attached : Array Bool} (kind : NodeKind)
    (hextent : b.extent? children place = some (start, stop))
    (hattach : children.foldlM attach? b.attached = some attached) :
    b.pushNode? kind children place =
      some ({ b with attached, children := b.children ++ children.toArray }.push ⟨kind, start, stop,
        ⟨Position.bounded b.children.size, Position.bounded children.length⟩⟩) := by
  simp [pushNode?, hextent, hattach]

theorem Builds.exists_pushNode (h : b.Builds a) (kind : NodeKind) (place : Position)
    (hchildren : ∀ c ∈ children, c < a.nodes.size)
    (hlimit : a.attached.length + children.length ≤ Position.limit) :
    ∃ b', b.pushNode? kind children place = some b' ∧
      b'.Builds (a.pushNode kind children place) := by
  have hnotes : ∀ c ∈ children, c < b.attached.size := h.attached.symm ▸ hchildren
  obtain ⟨attached, hattach, hsize⟩ := exists_attach hnotes
  have hroom : b.children.size + children.length ≤ Position.limit := by
    rw [← Array.length_toList, h.children]
    exact hlimit
  have hpush := h.push (n := ⟨kind, (children.head?.map a.startOf).getD place,
    (children.getLast?.map a.stopOf).getD place, children⟩) hchildren
    (ChildRange.slice?_last b.children children hroom)
  refine ⟨_, pushNode?_eq kind (extent?_eq h hchildren) hattach, ?_, ?_, ?_⟩
  · simpa [FlatBuilder.push, Arena.pushNode, Arena.filter_present hchildren] using hpush
  · simp [FlatBuilder.push, Arena.size_pushNode, hsize, h.attached]
  · rw [Arena.size_pushNode]
    exact Nat.le_succ_of_le h.tokens_le

variable {calls : List TreeBuilder.Call} {t : TreeBuilder}

theorem perform?_concat (b : FlatBuilder) (calls : List TreeBuilder.Call) (c : TreeBuilder.Call) :
    b.perform? (calls ++ [c]) = (b.perform? calls).bind (·.call? c) := by
  rw [perform?, List.foldlM_append]
  cases h : calls.foldlM call? b with
  | none => simp [perform?, h]
  | some b' => simp [perform?, h]

/-- As long as nodes and children can be counted, the arrays follow the arena. -/
theorem exists_perform (h : TreeBuilder.empty.perform false calls = some t)
    (hsize : t.arena.nodes.size ≤ Position.limit)
    (hattached : t.arena.attached.length ≤ Position.limit) :
    ∃ b, empty.perform? calls = some b ∧ b.Builds t.arena := by
  -- By induction from the end: the counts only grow, so that what is within bounds at the end was
  -- so before the last call.
  induction calls using List.reverseRecOn generalizing t with
  | nil =>
    obtain rfl := Option.some.inj h
    exact ⟨empty, rfl, builds_empty⟩
  | append_singleton calls c ih =>
    rw [TreeBuilder.perform_concat] at h
    obtain ⟨t₁, hcalls, hcall⟩ := Option.bind_eq_some_iff.1 h
    cases c with
    | leaf token =>
      obtain rfl := Option.some.inj hcall
      rw [Arena.size_pushLeaf] at hsize
      rw [Arena.attached_pushLeaf] at hattached
      obtain ⟨b, hb, hbuilds⟩ := ih hcalls (Nat.le_of_succ_le hsize) hattached
      refine ⟨b.pushLeaf token, ?_, hbuilds.pushLeaf (Nat.le_of_succ_le hsize) token⟩
      rw [perform?_concat, hb]
      rfl
    | node kind children place =>
      obtain ⟨t₂, hattach, rfl⟩ := Option.map_eq_some_iff.1 hcall
      have hlt := TreeBuilder.lt_of_attach hattach
      obtain rfl := Option.some.inj ((TreeBuilder.attach_careless hlt).symm.trans hattach)
      rw [Arena.size_pushNode] at hsize
      rw [Arena.attached_pushNode kind place hlt, List.length_append] at hattached
      obtain ⟨b, hb, hbuilds⟩ := ih hcalls (Nat.le_of_succ_le hsize) (by omega)
      obtain ⟨b', hb', hbuilds'⟩ := hbuilds.exists_pushNode kind place hlt hattached
      refine ⟨b', ?_, hbuilds'⟩
      rw [perform?_concat, hb]
      exact hb'

/-- A tree whose nodes and children can be counted is built in memory by the same calls. -/
theorem exists_build {tree : SyntaxTree}
    (h : TreeBuilder.build false calls children place = some tree)
    (hsize : tree.size ≤ Position.limit) (hattached : tree.attached.length ≤ Position.limit) :
    ∃ f, build? calls children place = some f ∧ f.Holds tree.toArena ∧ f.root = tree.root := by
  obtain ⟨t, hcalls, hfinish⟩ := Option.bind_eq_some_iff.1 h
  obtain ⟨t', hroot, hfinish⟩ := Option.bind_eq_some_iff.1 hfinish
  rw [if_neg (by simp)] at hfinish
  obtain rfl := Option.some.inj hfinish
  obtain ⟨t₂, hattach, rfl⟩ := Option.map_eq_some_iff.1 hroot
  have hlt := TreeBuilder.lt_of_attach hattach
  obtain rfl := Option.some.inj ((TreeBuilder.attach_careless hlt).symm.trans hattach)
  change (t.arena.pushNode .root children place).nodes.size ≤ Position.limit at hsize
  change (t.arena.pushNode .root children place).attached.length ≤ Position.limit at hattached
  rw [Arena.size_pushNode] at hsize
  rw [Arena.attached_pushNode .root place hlt, List.length_append] at hattached
  obtain ⟨b, hb, hbuilds⟩ := exists_perform hcalls (Nat.le_of_succ_le hsize) (by omega)
  obtain ⟨b', hb', hbuilds'⟩ := hbuilds.exists_pushNode .root place hlt hattached
  have hroot : Position.bounded b.nodes.size = t.arena.nextId := by
    rw [hbuilds.size]
    exact Nat.min_eq_left (Nat.le_of_succ_le hsize)
  have hlast : t.arena.nextId < b'.attached.size := by
    rw [hbuilds'.attached, Arena.size_pushNode]
    exact Nat.lt_succ_self _
  refine ⟨⟨b'.toFlatArena, t.arena.nextId⟩, ?_, hbuilds'.toHolds, rfl⟩
  simp [build?, hb, finish?, hb', hroot, attach?, put?_eq hlast]

end FlatBuilder

/-! ## Writing what the arrays hold -/

namespace FlatArena.Holds

variable {f : FlatArena} {a : Arena} {id : NodeId} {names : Names} {kind : NodeKind}

theorem children?_eq (h : f.Holds a) (hid : id < a.nodes.size) :
    f.children? id = some (a.children id) := by
  obtain ⟨n, r, hn, hflat, hslice⟩ := h.exists_node hid
  simp [children?, hflat, hslice, Arena.children, hn]

theorem leafToken?_eq (h : f.Holds a) (hid : id < a.nodes.size) :
    f.leafToken? id = some (a.leafToken? id) := by
  obtain ⟨n, r, hn, hflat, -⟩ := h.exists_node hid
  simp only [leafToken?, hflat, h.tokens, Arena.leafToken?, hn, Option.map_some,
    Option.bind_eq_bind, Option.bind_some]
  cases n.kind <;> rfl

theorem operatorText?_eq (h : f.Holds a) (hid : id < a.nodes.size) (slot : Nat) (op : TokenId) :
    f.operatorText? names id slot op = some (a.operatorText names id slot op) := by
  rw [operatorText?, h.children?_eq hid, Option.bind_eq_bind, Option.bind_some,
    Arena.operatorText]
  cases hleaf : (a.children id)[slot]? with
  | none => rfl
  | some leaf =>
    have hlt := Nat.lt_trans (Arena.lt_of_mem_children (List.mem_of_getElem? hleaf)) hid
    simp only [h.leafToken?_eq hlt, Option.bind_eq_bind, Option.bind_some]
    cases a.leafToken? leaf <;> rfl

theorem headText?_eq (h : f.Holds a) (hid : id < a.nodes.size) :
    f.headText? names id kind = some (a.headText names id kind) := by
  cases kind with
  | binary op => exact h.operatorText?_eq hid 1 op
  | unary op => exact h.operatorText?_eq hid 0 op
  | _ => rfl

theorem operands?_eq (h : f.Holds a) (hid : id < a.nodes.size) :
    f.operands? id kind = some (a.operands id kind) := by
  rw [operands?, h.children?_eq hid, Option.bind_eq_bind, Option.bind_some]
  cases kind <;> rfl

theorem label_eq (h : f.Holds a) : f.label names kind = a.label names kind := by
  cases kind with
  | leaf token =>
    have htoken : f.tokens[token]? = a.tokens[token]? := by rw [h.tokens]
    cases hread : a.tokens[token]? with
    | none => simp only [label, Arena.label, htoken, hread]
    | some t => simp only [label, Arena.label, htoken, hread]
  | _ => rfl

theorem exists_of_kind? (h : f.Holds a) (hkind : a.kind? id = some kind) :
    ∃ n, f.nodes[id]? = some n ∧ n.kind = kind := by
  obtain ⟨n, hn, rfl⟩ := Option.map_eq_some_iff.1 hkind
  obtain ⟨r, hflat, -⟩ := h.node id n hn
  exact ⟨_, hflat, rfl⟩

/-- A group is opened, and its parts are next. -/
theorem writePiece?_group (h : f.Holds a) {errors spaced : Bool} {out : String}
    {rest : List Arena.Piece} (hkind : a.kind? id = some kind) (hid : id < a.nodes.size)
    (hleaf : ∀ token, kind ≠ .leaf token) (herror : ¬(kind = .error ∧ errors = false)) :
    f.writePiece? names errors (out, .node id spaced :: rest)
      = some (((if spaced then out.push ' ' else out).push '(' ++ a.headText names id kind,
          (a.operands id kind).map (.node · true) ++ .close :: rest), true) := by
  obtain ⟨n, hflat, rfl⟩ := h.exists_of_kind? hkind
  rw [writePiece?, hflat]
  simp only [Option.bind_eq_bind, Option.bind_some]
  rw [if_neg herror, h.headText?_eq hid, h.operands?_eq hid]
  rfl

/-- Nodes that are there are written as they are. -/
theorem write?_eq (h : f.Holds a) (errors : Bool) (out : String) {pieces : List Arena.Piece}
    (hpieces : ∀ id spaced, .node id spaced ∈ pieces → id < a.nodes.size) :
    f.write? names errors out pieces = some (a.write names errors out pieces) := by
  -- The two writers go piece by piece. The children of a node that is there are there, so that
  -- every node on the stack is found.
  fun_induction Arena.write a names errors out pieces with
  | case1 out =>
    have hstep : f.writePiece? names errors (out, []) = some ((out, []), false) := rfl
    rw [write?, loop?_done hstep]
    rfl
  | case2 out rest ih =>
    have hstep : f.writePiece? names errors (out, .close :: rest)
        = some ((out.push ')', rest), true) := rfl
    rw [write?, loop?_more hstep]
    exact ih fun id spaced hid => hpieces id spaced (List.mem_cons_of_mem _ hid)
  | case3 out id spaced rest hkind ih =>
    obtain ⟨n, r, hn, -⟩ := h.exists_node (hpieces id spaced List.mem_cons_self)
    rw [Arena.kind?, hn] at hkind
    cases hkind
  | case4 out id spaced rest out' token hkind ih =>
    obtain ⟨n, hflat, hleaf⟩ := h.exists_of_kind? hkind
    have hstep : f.writePiece? names errors (out, .node id spaced :: rest)
        = some ((out' ++ ((a.tokens[token]?.map Token.text).getD ""), rest), true) := by
      rw [writePiece?, hflat]
      simp only [Option.bind_eq_bind, Option.bind_some, hleaf, h.tokens]
      rfl
    rw [write?, loop?_more hstep]
    exact ih fun id spaced hid => hpieces id spaced (List.mem_cons_of_mem _ hid)
  | case5 out id spaced rest kind hleaf hkind herror ih =>
    obtain ⟨n, hflat, rfl⟩ := h.exists_of_kind? hkind
    have hstep : f.writePiece? names errors (out, .node id spaced :: rest)
        = some ((out, rest), true) := by
      rw [writePiece?, hflat]
      simp only [Option.bind_eq_bind, Option.bind_some]
      rw [if_pos herror]
    rw [write?, loop?_more hstep]
    exact ih fun id spaced hid => hpieces id spaced (List.mem_cons_of_mem _ hid)
  | case6 out id spaced rest out' kind hleaf hkind herror ih =>
    have hid := hpieces id spaced List.mem_cons_self
    rw [write?, loop?_more (h.writePiece?_group hkind hid hleaf herror)]
    refine ih fun id' spaced' hid' => ?_
    rcases List.mem_append.1 hid' with hchild | hrest
    · obtain ⟨c, hc, heq⟩ := List.mem_map.1 hchild
      cases heq
      have hchild := (a.operands_sublist id kind).subset hc
      exact Nat.lt_trans (Arena.lt_of_mem_children hchild) hid
    · exact hpieces id' spaced' (List.mem_cons_of_mem _ (by simpa using hrest))

theorem dumpLine?_eq (h : f.Holds a) (depth : Nat) (n : Node) (r : ChildRange) :
    f.dumpLine? names depth ⟨n.kind, n.start, n.stop, r⟩ = a.dumpLine? names depth n := by
  rw [dumpLine?, Arena.dumpLine?, h.label_eq]

/-- So are their lines. -/
theorem writeLines?_eq (h : f.Holds a) (out : String) {lines : List (NodeId × Nat)}
    (hlines : ∀ line ∈ lines, line.1 < a.nodes.size) :
    f.writeLines? names out lines = some (a.writeLines? names out lines) := by
  fun_induction Arena.writeLines? a names out lines with
  | case1 out =>
    have hstep : f.writeLine? names (some out, []) = some ((some out, []), false) := rfl
    rw [writeLines?, loop?_done hstep]
    rfl
  | case2 out id depth rest hnone ih =>
    have hid : id < a.nodes.size := hlines (id, depth) List.mem_cons_self
    rw [Array.getElem?_eq_getElem hid] at hnone
    cases hnone
  | case3 out id depth rest n hn hwide =>
    obtain ⟨r, hflat, -⟩ := h.node id n hn
    have hstep : f.writeLine? names (some out, (id, depth) :: rest)
        = some ((none, []), false) := by
      rw [writeLine?, hflat, Option.bind_eq_bind, Option.bind_some, h.dumpLine?_eq, hwide]
    rw [writeLines?, loop?_done hstep]
    rfl
  | case4 out id depth rest n hn line hline ih =>
    have hid : id < a.nodes.size := hlines (id, depth) List.mem_cons_self
    obtain ⟨r, hflat, -⟩ := h.node id n hn
    have hstep : f.writeLine? names (some out, (id, depth) :: rest)
        = some ((some (out ++ line), (a.children id).map (·, depth + 1) ++ rest), true) := by
      rw [writeLine?, hflat, Option.bind_eq_bind, Option.bind_some, h.dumpLine?_eq, hline,
        h.children?_eq hid]
      rfl
    rw [writeLines?, loop?_more hstep]
    refine ih fun line hline => ?_
    rcases List.mem_append.1 hline with hchild | hrest
    · obtain ⟨c, hc, rfl⟩ := List.mem_map.1 hchild
      exact Nat.lt_trans (Arena.lt_of_mem_children hc) hid
    · exact hlines line (List.mem_cons_of_mem _ hrest)

end FlatArena.Holds

namespace FlatTree

variable {f : FlatTree} {t : SyntaxTree}

theorem expression?_eq (h : f.Holds t.toArena) (hroot : f.root = t.root)
    (hlt : t.root < t.nodes.size) (names : Names) :
    f.expression? names = some (t.expression names) := by
  rw [expression?, hroot]
  exact h.write?_eq true "" (by simpa using hlt)

theorem expressionWithoutErrors?_eq (h : f.Holds t.toArena) (hroot : f.root = t.root)
    (hlt : t.root < t.nodes.size) (names : Names) :
    f.expressionWithoutErrors? names = some (t.expressionWithoutErrors names) := by
  rw [expressionWithoutErrors?, hroot]
  exact h.write?_eq false "" (by simpa using hlt)

theorem dump?_eq (h : f.Holds t.toArena) (hroot : f.root = t.root)
    (hlt : t.root < t.nodes.size) (names : Names) : f.dump? names = some (t.dump? names) := by
  rw [dump?, hroot]
  exact h.writeLines?_eq "" (by simpa using hlt)

end FlatTree

end FrontEnd
