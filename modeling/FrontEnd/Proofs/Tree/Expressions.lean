import FrontEnd.Proofs.Tree.Walks
import Mathlib.Data.List.InsertIdx

/-!
# Expressions by recursion

The text of a tree is written with a stack. Here it is said as a recursion over the nodes: a leaf is
its token, and the text of any other node is made of the texts of its children. What a node has to
know of a child is an item, so that two trees with the same items are written in the same way.

- `Item`, `Item.group`: what a node knows of a child, and what it makes of its children;
- `Arena.item`: the item of a node;
- `Arena.item_eq_group`: **an expression is a recursion over the children**;
- `Arena.Later`: building changes the items of no node.
-/

namespace FrontEnd

/-- A node as the node around it sees it. -/
structure Item where
  text : String
  /-- Is it a leaf with a token? -/
  isLeaf : Bool
  deriving DecidableEq, Repr

namespace Item

/-- A leaf with a token. -/
def leaf (text : String) : Item := ⟨text, true⟩

/-- The texts of items, a blank before each. -/
def written : List Item → String
  | [] => ""
  | i :: items => " " ++ i.text ++ written items

/-- The text of the leaf in a slot, or the name of the operator when there is none. -/
def operatorText (names : Names) (items : List Item) (slot : Nat) (op : TokenId) : String :=
  match items[slot]? with
  | some ⟨text, true⟩ => text
  | _ => names.token op

/-- The head of the group of a node over items. -/
def headText (names : Names) (items : List Item) : NodeKind → String
  | .root => "root"
  | .leaf _ => ""
  | .rule rule => names.rule rule
  | .binary op => operatorText names items 1 op
  | .unary op => operatorText names items 0 op
  | .error => "error"

/-- The items behind the head. -/
def operands (items : List Item) : NodeKind → List Item
  | .binary _ => items.eraseIdx 1
  | .unary _ => items.eraseIdx 0
  | _ => items

/-- A node over items. -/
def group (names : Names) (kind : NodeKind) (items : List Item) : Item :=
  ⟨"(" ++ headText names items kind ++ written (operands items kind) ++ ")", false⟩

end Item

namespace Arena

variable {a a' a'' : Arena} {names : Names} {id : NodeId} {kind : NodeKind}

/-- The item of a node. -/
def item (a : Arena) (names : Names) (id : NodeId) : Item :=
  ⟨a.expression names id, (a.leafToken? id).isSome⟩

/-! ## Writing -/

/-- What is put before a node. -/
def blank (spaced : Bool) : String := if spaced then " " else ""

theorem spaced_eq (out : String) (spaced : Bool) :
    (if spaced then out.push ' ' else out) = out ++ blank spaced := by
  cases spaced with
  | true => exact String.push_eq_append ' '
  | false => exact String.append_empty.symm

theorem write_close (a : Arena) (names : Names) (out : String) (rest : List Piece) :
    a.write names true out (.close :: rest) = a.write names true (out ++ ")") rest := by
  rw [write, String.push_eq_append]
  rfl

theorem write_leaf {token : Nat} (h : a.kind? id = some (.leaf token)) (out : String)
    (spaced : Bool) (rest : List Piece) :
    a.write names true out (.node id spaced :: rest) = a.write names true
      (out ++ (blank spaced ++ (a.tokens[token]?.map Token.text).getD "")) rest := by
  rw [write, h, ← String.append_assoc, ← spaced_eq]

theorem write_inner (h : a.kind? id = some kind) (hkind : kind.token? = none) (out : String)
    (spaced : Bool) (rest : List Piece) :
    a.write names true out (.node id spaced :: rest) = a.write names true
      (out ++ (blank spaced ++ ("(" ++ a.headText names id kind)))
      ((a.operands id kind).map (.node · true) ++ .close :: rest) := by
  have hopen : ∀ s : String, s.push '(' = s ++ "(" := fun _ => String.push_eq_append '('
  rw [write, h]
  cases kind with
  | leaf token => cases hkind
  | _ => simp [← spaced_eq, hopen, ← String.append_assoc]

theorem eq_leaf_of_token? {token : Nat} (h : kind.token? = some token) : kind = .leaf token := by
  cases kind with
  | leaf token' =>
    cases h
    rfl
  | _ => cases h

/-- Pieces are gone through from the front, the operands of a node in its place. -/
@[elab_as_elim]
theorem pieces_induction (a : Arena) {motive : List Piece → Prop} (nil : motive [])
    (close : ∀ rest, motive rest → motive (.close :: rest))
    (absent : ∀ id spaced rest, a.kind? id = none → motive rest →
      motive (.node id spaced :: rest))
    (leaf : ∀ id spaced rest token, a.kind? id = some (.leaf token) → motive rest →
      motive (.node id spaced :: rest))
    (inner : ∀ id spaced rest kind, a.kind? id = some kind → kind.token? = none →
      motive ((a.operands id kind).map (.node · true) ++ .close :: rest) →
      motive (.node id spaced :: rest))
    (pieces : List Piece) : motive pieces := by
  generalize hn : total (Piece.weight a) pieces = n
  induction n using Nat.strongRecOn generalizing pieces with
  | _ n ih =>
    match pieces with
    | [] => exact nil
    | .close :: rest =>
      have hlt : total (Piece.weight a) rest < n := by
        rw [← hn, total_cons, Piece.weight]
        omega
      exact close rest (ih _ hlt rest rfl)
    | .node id spaced :: rest =>
      have hweight := a.weight_eq id
      rw [total_cons, Piece.weight] at hn
      have hrest := ih _ (by omega) rest rfl
      cases hkind : a.kind? id with
      | none => exact absent id spaced rest hkind hrest
      | some kind =>
      cases htoken : kind.token? with
      | some token => exact leaf id spaced rest token (eq_leaf_of_token? htoken ▸ hkind) hrest
      | none =>
        refine inner id spaced rest kind hkind htoken (ih _ ?_ _ rfl)
        have hle := total_le_of_sublist a.weight (a.operands_sublist id kind)
        rw [total_append, total_cons, total_weight_nodes, Piece.weight]
        omega

/-- What has been written stays in front. -/
theorem write_append_out (a : Arena) (names : Names) (out : String) (pieces : List Piece) :
    a.write names true out pieces = out ++ a.write names true "" pieces := by
  induction pieces using a.pieces_induction generalizing out with
  | nil => rw [write, write, String.append_empty]
  | close rest ih =>
    rw [write_close, write_close, ih, ih ("" ++ ")"), String.empty_append, String.append_assoc]
  | absent id spaced rest hnone ih =>
    rw [write, write, hnone]
    exact ih out
  | leaf id spaced rest token hkind ih =>
    rw [write_leaf hkind, write_leaf hkind, ih, ih ("" ++ _), String.empty_append,
      String.append_assoc]
  | inner id spaced rest kind hkind htoken ih =>
    rw [write_inner hkind htoken, write_inner hkind htoken, ih, ih ("" ++ _), String.empty_append,
      String.append_assoc]

/-- What is written last comes behind all that is written before. -/
theorem write_append (a : Arena) (names : Names) (out : String) (pieces rest : List Piece) :
    a.write names true out (pieces ++ rest)
      = a.write names true (a.write names true out pieces) rest := by
  induction pieces using a.pieces_induction generalizing out with
  | nil => rw [List.nil_append, write]
  | close pieces ih => rw [List.cons_append, write_close, write_close, ih]
  | absent id spaced pieces hnone ih =>
    rw [List.cons_append, write, write, hnone]
    exact ih out
  | leaf id spaced pieces token hkind ih =>
    rw [List.cons_append, write_leaf hkind, write_leaf hkind, ih]
  | inner id spaced pieces kind hkind htoken ih =>
    rw [List.cons_append, write_inner hkind htoken, write_inner hkind htoken, ← ih,
      List.append_assoc, List.cons_append]

/-- The item of a leaf is its token. -/
theorem item_eq_leaf {token : Nat} {t : Token} (h : a.kind? id = some (.leaf token))
    (ht : a.tokens[token]? = some t) : a.item names id = .leaf t.text := by
  have hleaf : a.leafToken? id = some t := by
    rw [kind?] at h
    rw [leafToken?, h]
    exact ht
  rw [item, hleaf, expression, write_leaf h, ht, write]
  rfl

/-- A node behind others is written as on its own, behind a blank. -/
theorem write_spaced (h : id < a.nodes.size) (names : Names) (out : String) :
    a.write names true out [.node id true] = out ++ (" " ++ a.expression names id) := by
  have hkind : a.kind? id = some a.nodes[id].kind := by rw [kind?, Array.getElem?_eq_getElem h]; rfl
  rw [expression]
  cases htoken : (a.nodes[id]).kind.token? with
  | some token =>
    rw [eq_leaf_of_token? htoken] at hkind
    rw [write_leaf hkind, write_leaf hkind, write, write, blank, blank, if_pos rfl, if_neg Bool.false_ne_true,
      String.empty_append, String.empty_append]
  | none =>
    rw [write_inner hkind htoken, write_inner hkind htoken, write_append_out, write_append_out _ _
      ("" ++ _), blank, blank, if_pos rfl, if_neg Bool.false_ne_true, String.empty_append, String.empty_append]
    simp only [String.append_assoc]

/-- The texts of nodes that are there, a blank before each. -/
theorem write_nodes (a : Arena) (names : Names) (out : String) {ids : List NodeId}
    (h : ∀ id ∈ ids, id < a.nodes.size) :
    a.write names true out (ids.map (.node · true)) = out ++ Item.written (ids.map (a.item names)) := by
  induction ids generalizing out with
  | nil => rw [List.map_nil, write, List.map_nil, Item.written, String.append_empty]
  | cons id ids ih =>
    have hsplit := a.write_append names out [.node id true] (ids.map (.node · true))
    rw [List.singleton_append] at hsplit
    rw [List.map_cons, hsplit, ih _ fun id hid => h id (List.mem_cons_of_mem _ hid),
      write_spaced (h id List.mem_cons_self), List.map_cons, Item.written, String.append_assoc]
    rfl

theorem item_of_leafToken? {t : Token} (h : a.leafToken? id = some t) :
    a.item names id = .leaf t.text := by
  unfold leafToken? at h
  split at h
  · next token hkind => exact item_eq_leaf hkind h
  · cases h

theorem operatorText_eq (a : Arena) (names : Names) (id : NodeId) (slot : Nat) (op : TokenId) :
    a.operatorText names id slot op
      = Item.operatorText names ((a.children id).map (a.item names)) slot op := by
  rw [operatorText, Item.operatorText, List.getElem?_map]
  cases (a.children id)[slot]? with
  | none => rfl
  | some c =>
    rw [Option.bind_some, Option.map_some]
    cases ht : a.leafToken? c with
    | some t =>
      rw [item_of_leafToken? ht]
      rfl
    | none =>
      rw [item, ht]
      rfl

/-- The item of any other node is made of the items of its children. -/
theorem item_eq_group (h : a.kind? id = some kind) (hkind : kind.token? = none) :
    a.item names id = .group names kind ((a.children id).map (a.item names)) := by
  have hnode : a.leafToken? id = none := by
    rw [kind?] at h
    rw [leafToken?, h]
    cases kind with
    | leaf token => cases hkind
    | _ => rfl
  have hid : id < a.nodes.size := by
    by_contra hid
    rw [kind?, Array.getElem?_eq_none (Nat.le_of_not_lt hid)] at h
    cases h
  have hlt : ∀ c ∈ a.operands id kind, c < a.nodes.size := fun c hc =>
    Nat.lt_trans (lt_of_mem_children ((a.operands_sublist id kind).subset hc)) hid
  have hoperands : (a.operands id kind).map (a.item names)
      = Item.operands ((a.children id).map (a.item names)) kind := by
    cases kind with
    | binary op => simp [operands, Item.operands, List.eraseIdx_map]
    | unary op => simp [operands, Item.operands]
    | _ => rfl
  have hhead : a.headText names id kind
      = Item.headText names ((a.children id).map (a.item names)) kind := by
    cases kind with
    | binary op => exact a.operatorText_eq names id 1 op
    | unary op => exact a.operatorText_eq names id 0 op
    | _ => rfl
  rw [item, hnode, expression, write_inner h hkind, write_append, write_nodes _ _ _ hlt,
    write_close, write, blank, if_neg Bool.false_ne_true, hoperands, hhead, Item.group]
  simp [String.append_assoc]

/-! ## Building -/

/-- Nodes and tokens of an arena are there in a later one, in the same places. -/
structure Later (a a' : Arena) : Prop extends a.Extends a' where
  tokens : ∀ k < a.tokens.size, a'.tokens[k]? = a.tokens[k]?
  size_tokens_le : a.tokens.size ≤ a'.tokens.size

/-- The tokens on the leaves are there. -/
def Sound (a : Arena) : Prop :=
  ∀ id token, a.kind? id = some (.leaf token) → token < a.tokens.size

theorem sound_empty : Arena.empty.Sound := by
  intro id token h
  simp [kind?, Arena.empty] at h

theorem kind?_push (a : Arena) (n : Node) (h : ∀ c ∈ n.children, c < a.nodes.size) :
    (a.push n h).kind? a.nextId = some n.kind := by
  simp [kind?, push, nextId]

theorem Sound.push (hs : a.Sound) {n : Node} (h : ∀ c ∈ n.children, c < a.nodes.size)
    (hn : ∀ token, n.kind = .leaf token → token < a.tokens.size) : (a.push n h).Sound := by
  intro id token hid
  have hget : (a.push n h).nodes[id]? = if id = a.nodes.size then some n else a.nodes[id]? := by
    rw [Arena.push, Array.getElem?_push]
  rw [kind?, hget] at hid
  split at hid
  · exact hn token (Option.some.inj hid)
  · exact hs id token hid

theorem Sound.pushLeaf (hs : a.Sound) (t : Token) : (a.pushLeaf t).Sound := by
  have hs' : Sound ⟨a.nodes, a.tokens.push t, a.child_lt⟩ := by
    intro id token hid
    have hlt := hs id token hid
    rw [Array.size_push]
    omega
  refine hs'.push (by simp) fun token htoken => ?_
  cases htoken
  rw [Array.size_push]
  omega

theorem Sound.pushNode (hs : a.Sound) (hkind : kind.token? = none) (children : List NodeId)
    (place : Position) : (a.pushNode kind children place).Sound := by
  unfold Arena.pushNode
  refine hs.push _ fun token htoken => ?_
  rw [show kind = .leaf token from htoken] at hkind
  cases hkind

namespace Later

theorem refl (a : Arena) : a.Later a := ⟨.refl a, fun _ _ => rfl, Nat.le_refl _⟩

theorem trans (h : a.Later a') (h' : a'.Later a'') : a.Later a'' :=
  ⟨h.toExtends.trans h'.toExtends, fun k hk =>
    (h'.tokens k (Nat.lt_of_lt_of_le hk h.size_tokens_le)).trans (h.tokens k hk),
    Nat.le_trans h.size_tokens_le h'.size_tokens_le⟩

theorem pushLeaf (a : Arena) (t : Token) : a.Later (a.pushLeaf t) := by
  refine ⟨.pushLeaf a t, fun k hk => ?_, by simp [Arena.pushLeaf, push]⟩
  show (a.tokens.push t)[k]? = a.tokens[k]?
  rw [Array.getElem?_push, if_neg (Nat.ne_of_lt hk)]

theorem pushNode (a : Arena) (kind : NodeKind) (children : List NodeId) (place : Position) :
    a.Later (a.pushNode kind children place) :=
  ⟨.pushNode a kind children place, fun _ _ => rfl, Nat.le_refl _⟩

/-- The items of the nodes that are there are what they were. -/
theorem item (h : a.Later a') (hs : a.Sound) (names : Names) (hid : id < a.nodes.size) :
    a'.item names id = a.item names id := by
  induction id using a.node_induction with
  | node id ih =>
    have hkind : a.kind? id = some a.nodes[id].kind := by
      rw [kind?, Array.getElem?_eq_getElem hid]
      rfl
    have hkind' : a'.kind? id = some a.nodes[id].kind := by
      rw [← hkind, h.kind?_eq hid]
    cases htoken : (a.nodes[id]).kind.token? with
    | some token =>
      rw [eq_leaf_of_token? htoken] at hkind hkind'
      have hlt := hs id token hkind
      have ht : a.tokens[token]? = some a.tokens[token] := Array.getElem?_eq_getElem hlt
      rw [item_eq_leaf hkind ht, item_eq_leaf hkind' ((h.tokens token hlt).trans ht)]
    | none =>
      rw [item_eq_group hkind htoken, item_eq_group hkind' htoken, h.children_eq hid]
      congr 1
      refine List.map_congr_left fun c hc => ?_
      exact ih c hc (Nat.lt_trans (lt_of_mem_children hc) hid)

theorem items (h : a.Later a') (hs : a.Sound) (names : Names) {ids : List NodeId}
    (hids : ∀ id ∈ ids, id < a.nodes.size) : ids.map (a'.item names) = ids.map (a.item names) :=
  List.map_congr_left fun id hid => h.item hs names (hids id hid)

end Later

theorem item_pushLeaf (a : Arena) (names : Names) (t : Token) :
    (a.pushLeaf t).item names a.nextId = .leaf t.text := by
  have hkind : (a.pushLeaf t).kind? a.nextId = some (.leaf a.tokens.size) :=
    kind?_push ⟨a.nodes, a.tokens.push t, a.child_lt⟩
      ⟨.leaf a.tokens.size, t.position, t.endPosition, []⟩ (by simp)
  exact item_eq_leaf hkind Array.getElem?_push_size

theorem item_pushNode (hs : a.Sound) (hkind : kind.token? = none) {children : List NodeId}
    (place : Position) (h : ∀ c ∈ children, c < a.nodes.size) (names : Names) :
    (a.pushNode kind children place).item names a.nextId
      = .group names kind (children.map (a.item names)) := by
  have hnode := a.kind?_pushNode kind children place
  rw [item_eq_group hnode hkind, children_pushNode kind place h,
    (Later.pushNode a kind children place).items hs names h]

end Arena

/-- The expressions of the nodes under the root. -/
def SyntaxTree.branches (t : SyntaxTree) (names : Names) : List String :=
  (t.children t.root).map (t.toArena.expression names)

theorem Arena.branches_finish {a : Arena} (hs : a.Sound) {children : List NodeId} (place : Position)
    (h : ∀ c ∈ children, c < a.nodes.size) (names : Names) :
    (a.finish children place).branches names = (children.map (a.item names)).map Item.text := by
  have hchildren : (a.finish children place).children (a.finish children place).root = children :=
    children_pushNode .root place h
  rw [SyntaxTree.branches, hchildren, List.map_map]
  refine List.map_congr_left fun c hc => ?_
  exact congrArg Item.text ((Later.pushNode a .root children place).item hs names (h c hc))

end FrontEnd
