import FrontEnd.Proofs.Tree.Outlines
import FrontEnd.Proofs.Tree.Slots

/-!
# Trees as data

A tree stands in an array, and it is written and walked over with a stack. Here it is taken out of
the array as a node with the branches below it, and what is written and met is said by recursion
over the branches. **The stacks do the same**, whatever is on them. Only a dump fails, where a node
stands too far in for the indentation of its line.

- `Branch`, `Arena.branch`: a node with all that is below it;
- `Branch.text`, `Branch.lines`, `Branch.ids`: the nested groups, the lines of a dump and the nodes
  in preorder, by recursion;
- `Branch.height`: how far in the line of a node below stands;
- `Arena.write_eq`, `Arena.writeLines?_eq`: what is written from a stack, piece by piece;
- `Branch.Alike`: two branches differ only inside of error nodes;
- `SyntaxTree.renders_by_recursion`: **what is made of a tree that was built are the recursions**;
- `SyntaxTree.dump?_chain`: a tree that cannot be dumped.
-/

namespace FrontEnd

/-- What is left of the children of a node when the leaf of its operator is taken out. -/
def NodeKind.dropSlot {α : Type} (kind : NodeKind) (children : List α) : List α :=
  match kind.slot? with
  | some (slot, _) => children.eraseIdx slot
  | none => children

/-- What stands on a node. -/
structure Mark where
  id : NodeId
  kind : NodeKind
  /-- The token of a leaf. -/
  token : Option Token
  start : Position
  stop : Position

namespace Mark

/-- What a dump says about the node. -/
def label (names : Names) (m : Mark) : String :=
  match m.kind with
  | .root => "Root"
  | .leaf _ =>
    match m.token with
    | some t => names.token t.id ++ " " ++ Escape.literal t.text
    | none => "<missing token>"
  | .rule rule => names.rule rule
  | .binary op => "Binary " ++ names.token op
  | .unary op => "Unary " ++ names.token op
  | .error => "Error"

/-- The line of the node in a dump. -/
def line (names : Names) (depth : Nat) (m : Mark) : String :=
  String.ofList (List.replicate (2 * depth) ' ') ++ m.label names ++ " @ " ++ m.start.render ++
    ".." ++ m.stop.render ++ "\n"

/-- The head of the group of the node, from the token of its operator. -/
def head (names : Names) (operator : Option Token) (m : Mark) : String :=
  match m.kind with
  | .root => "root"
  | .leaf _ => ""
  | .rule rule => names.rule rule
  | .binary op | .unary op => (operator.map Token.text).getD (names.token op)
  | .error => "error"

end Mark

/-- A node with all that is below it. -/
inductive Branch where
  | mk (mark : Mark) (children : List Branch)

namespace Branch

/-- What stands on the node. -/
def mark : Branch → Mark
  | mk m _ => m

/-- Is it an error node? -/
def isError (b : Branch) : Bool := b.mark.kind == .error

/-- The token of the operator of a node over these branches. -/
def operator? (kind : NodeKind) (children : List Branch) : Option Token :=
  kind.slot?.bind fun (slot, _) => children[slot]?.bind fun b => b.mark.token

mutual

/-- The nodes, each before its children, from left to right. -/
def ids : Branch → List NodeId
  | mk m children => m.id :: allIds children

def allIds : List Branch → List NodeId
  | [] => []
  | b :: bs => b.ids ++ allIds bs

end

mutual

/-- A line for each node, further in for those below it. -/
def lines (names : Names) (depth : Nat) : Branch → String
  | mk m children => m.line names depth ++ allLines names (depth + 1) children

def allLines (names : Names) (depth : Nat) : List Branch → String
  | [] => ""
  | b :: bs => b.lines names depth ++ allLines names depth bs

end

mutual

/-- The greatest number of nodes on a way down from the node. -/
def height : Branch → Nat
  | mk _ children => deepest children

/-- The same from the node over these branches. -/
def deepest : List Branch → Nat
  | [] => 0
  | b :: bs => max (b.height + 1) (deepest bs)

end

mutual

/-- A leaf is its text, and any other node is a group: its head and its operands with blanks between
them. Error nodes among the operands are left out unless `errors`. -/
def text (names : Names) (errors : Bool) : Branch → String
  | mk m children =>
    match m.kind with
    | .leaf _ => (m.token.map Token.text).getD ""
    | kind =>
      let operands := (kind.dropSlot (texts names errors children)).filterMap id
      "(" ++ " ".intercalate (m.head names (operator? kind children) :: operands) ++ ")"

/-- The texts of children; there is none for a child that is left out. -/
def texts (names : Names) (errors : Bool) : List Branch → List (Option String)
  | [] => []
  | b :: bs =>
    (if b.isError && !errors then none else some (b.text names errors)) :: texts names errors bs

end

/-- The children that are written behind the head. -/
def operands (errors : Bool) (kind : NodeKind) (children : List Branch) : List Branch :=
  (kind.dropSlot children).filter fun b => !(b.isError && !errors)

variable {names : Names} {errors : Bool} {m m' : Mark} {children children' : List Branch}

theorem texts_eq : texts names errors children = children.map fun b =>
    if b.isError && !errors then none else some (b.text names errors) := by
  induction children with
  | nil => rw [texts, List.map_nil]
  | cons b children ih => rw [texts, ih, List.map_cons]

theorem dropSlot_map {α β : Type} (kind : NodeKind) (f : α → β) (xs : List α) :
    kind.dropSlot (xs.map f) = (kind.dropSlot xs).map f := by
  unfold NodeKind.dropSlot
  split
  · rw [List.eraseIdx_map]
  · rfl

theorem filterMap_shown {α β : Type} (hidden : α → Bool) (f : α → β) (xs : List α) :
    (xs.map fun x => if hidden x then none else some (f x)).filterMap id
      = (xs.filter fun x => !hidden x).map f := by
  induction xs with
  | nil => rfl
  | cons x xs ih =>
    rw [List.map_cons, List.filterMap_cons, ih]
    cases hx : hidden x with
    | true => rw [List.filter_cons_of_neg (by simp [hx])]; rfl
    | false => rw [List.filter_cons_of_pos (by simp [hx])]; rfl

/-- A node that is no leaf is its head and its operands. -/
theorem text_group (h : m.kind.token? = none) : (mk m children).text names errors
    = "(" ++ " ".intercalate (m.head names (operator? m.kind children) ::
        (operands errors m.kind children).map (text names errors)) ++ ")" := by
  have hoperands : (m.kind.dropSlot (texts names errors children)).filterMap id
      = (operands errors m.kind children).map (text names errors) := by
    rw [texts_eq, dropSlot_map, filterMap_shown, operands]
  rw [text]
  split
  · next token hkind =>
    rw [hkind] at h
    cases h
  · rw [← hoperands]

theorem intercalate_eq (separator first : String) (rest : List String) :
    separator.intercalate (first :: rest)
      = first ++ String.join (rest.map fun s => separator ++ s) := by
  induction rest generalizing first with
  | nil => simp
  | cons s rest ih =>
    rw [String.intercalate_cons_cons, ih, List.map_cons, String.join_cons, String.append_assoc,
      String.append_assoc]

end Branch

/-! ## The branches of an arena -/

namespace Arena

/-- What stands on the node `id`. -/
def mark (a : Arena) (id : NodeId) : Mark :=
  ⟨id, (a.kind? id).getD .root, a.leafToken? id, a.startOf id, a.stopOf id⟩

/-- The node `id` with all that is below it. -/
def branch (a : Arena) (id : NodeId) : Branch :=
  .mk (a.mark id) ((a.children id).attach.map fun c => a.branch c.1)
termination_by id
decreasing_by exact lt_of_mem_children c.2

variable {a : Arena} {names : Names} {errors : Bool} {id : NodeId} {kind : NodeKind}

theorem branch_eq (a : Arena) (id : NodeId) :
    a.branch id = .mk (a.mark id) ((a.children id).map a.branch) := by
  rw [branch, List.map_attach_eq_pmap, List.pmap_eq_map]

/-- Branches with the same node over the same branches are the same. -/
theorem branch_congr {a' : Arena} (hmark : a.mark id = a'.mark id)
    (hchildren : a.children id = a'.children id)
    (h : ∀ c ∈ a.children id, a.branch c = a'.branch c) : a.branch id = a'.branch id := by
  rw [branch_eq, branch_eq, hmark, ← hchildren, List.map_congr_left h]

theorem mark_branch (a : Arena) (id : NodeId) : (a.branch id).mark = a.mark id := by
  rw [branch_eq, Branch.mark]

theorem isError_branch (h : a.kind? id = some kind) :
    (a.branch id).isError = (kind == .error) := by
  rw [Branch.isError, mark_branch, mark, h, Option.getD_some]

/-! ## Walks -/

theorem allIds_eq (bs : List Branch) : Branch.allIds bs = bs.flatMap Branch.ids := by
  induction bs with
  | nil => rw [Branch.allIds, List.flatMap_nil]
  | cons b bs ih => rw [Branch.allIds, ih, List.flatMap_cons]

/-- A walk meets the nodes of the branch in order. -/
theorem ids_branch (a : Arena) (id : NodeId) : (a.branch id).ids = a.preorder id := by
  induction id using a.node_induction with
  | node id ih =>
    rw [branch_eq, Branch.ids, allIds_eq, preorder_eq, List.flatMap_map]
    exact congrArg (id :: ·) (List.flatMap_congr ih)

/-! ## Dumps -/

theorem allLines_eq (depth : Nat) (bs : List Branch) :
    Branch.allLines names depth bs = String.join (bs.map (Branch.lines names depth)) := by
  induction bs with
  | nil => rw [Branch.allLines, List.map_nil]; rfl
  | cons b bs ih => rw [Branch.allLines, ih, List.map_cons, String.join_cons]

theorem mark_eq {n : Node} (h : a.nodes[id]? = some n) :
    a.mark id = ⟨id, n.kind, a.leafToken? id, n.start, n.stop⟩ := by
  rw [mark, kind?, startOf, stopOf, h]
  rfl

theorem dumpLine?_eq {n : Node} (h : a.nodes[id]? = some n) (depth : Nat) :
    a.dumpLine? names depth n
      = if 2 * depth ≤ widthLimit then some ((a.mark id).line names depth) else none := by
  have hlabel : a.label names n.kind = (a.mark id).label names := by
    obtain ⟨kind, start, stop, children⟩ := n
    rw [mark_eq h, Mark.label, leafToken?, h]
    cases kind <;> rfl
  rw [dumpLine?, Mark.line, hlabel, mark_eq h]

theorem lines_branch (a : Arena) (names : Names) (id : NodeId) (depth : Nat) :
    (a.branch id).lines names depth = (a.mark id).line names depth ++
      String.join ((a.children id).map fun c => (a.branch c).lines names (depth + 1)) := by
  rw [branch_eq, Branch.lines, allLines_eq, List.map_map]
  rfl

/-! ### Heights -/

theorem deepest_le_iff {n : Nat} {bs : List Branch} :
    Branch.deepest bs ≤ n ↔ ∀ b ∈ bs, b.height + 1 ≤ n := by
  induction bs with
  | nil => simp [Branch.deepest]
  | cons b bs ih => rw [Branch.deepest, Nat.max_le, ih, List.forall_mem_cons]

theorem height_branch_le_iff {n : Nat} :
    (a.branch id).height ≤ n ↔ ∀ c ∈ a.children id, (a.branch c).height + 1 ≤ n := by
  rw [branch_eq, Branch.height, deepest_le_iff, List.forall_mem_map]

/-- There are fewer nodes on a way down than nodes before this one. -/
theorem height_branch_le (a : Arena) (id : NodeId) : (a.branch id).height ≤ id := by
  induction id using a.node_induction with
  | node id ih =>
    refine height_branch_le_iff.2 fun c hc => ?_
    have hlt := lt_of_mem_children hc
    exact Nat.lt_of_le_of_lt (ih c hc) hlt

/-- No line of the branch is indented too far. -/
def Narrow (a : Arena) (depth : Nat) (id : NodeId) : Prop :=
  2 * (depth + (a.branch id).height) ≤ widthLimit

instance (a : Arena) (depth : Nat) (id : NodeId) : Decidable (a.Narrow depth id) :=
  inferInstanceAs (Decidable (_ ≤ _))

theorem narrow_iff {depth : Nat} : a.Narrow depth id ↔
    2 * depth ≤ widthLimit ∧ ∀ c ∈ a.children id, a.Narrow (depth + 1) c := by
  have hheight : a.Narrow depth id ↔
      2 * depth ≤ widthLimit ∧ (a.branch id).height ≤ widthLimit / 2 - depth := by
    unfold Narrow
    omega
  rw [hheight, height_branch_le_iff]
  refine and_congr_right fun hdepth => forall₂_congr fun c _ => ?_
  unfold Narrow
  omega

/-- The lines of the branches on the stack, one after the other, if none is indented too far. -/
theorem writeLines?_eq (a : Arena) (names : Names) (out : String) (stack : List (NodeId × Nat))
    (h : ∀ entry ∈ stack, entry.1 < a.nodes.size) : a.writeLines? names out stack
      = if ∀ entry ∈ stack, a.Narrow entry.2 entry.1 then
          some (out ++ String.join (stack.map fun entry => (a.branch entry.1).lines names entry.2))
        else none := by
  fun_induction Arena.writeLines? with
  | case1 out =>
    rw [if_pos (by simp), List.map_nil]
    exact congrArg some String.append_empty.symm
  | case2 out id depth rest hnone ih =>
    have hid := h (id, depth) List.mem_cons_self
    rw [Array.getElem?_eq_getElem hid] at hnone
    cases hnone
  | case3 out id depth rest n hn hwide =>
    rw [dumpLine?_eq hn] at hwide
    have hdepth : ¬ 2 * depth ≤ widthLimit := fun hle => by simp [hle] at hwide
    rw [if_neg fun hall => hdepth (narrow_iff.1 (hall (id, depth) List.mem_cons_self)).1]
  | case4 out id depth rest n hn line hline ih =>
    rw [dumpLine?_eq hn, Option.ite_none_right_eq_some] at hline
    obtain ⟨hdepth, hline⟩ := hline
    obtain rfl := Option.some.inj hline
    obtain ⟨hid, hrest⟩ := List.forall_mem_cons.1 h
    have hbelow : ∀ entry ∈ (a.children id).map (·, depth + 1) ++ rest,
        entry.1 < a.nodes.size := by
      intro entry hentry
      rcases List.mem_append.1 hentry with hchild | hlater
      · obtain ⟨c, hc, rfl⟩ := List.mem_map.1 hchild
        exact Nat.lt_trans (lt_of_mem_children hc) hid
      · exact hrest entry hlater
    have hnarrow : (∀ entry ∈ (a.children id).map (·, depth + 1) ++ rest,
        a.Narrow entry.2 entry.1) ↔ ∀ entry ∈ (id, depth) :: rest, a.Narrow entry.2 entry.1 := by
      rw [List.forall_mem_append, List.forall_mem_map, List.forall_mem_cons, narrow_iff,
        and_iff_right hdepth]
    rw [ih hbelow, List.map_append, List.map_map, List.map_cons, String.join_cons,
      String.join_append, lines_branch, String.append_assoc, String.append_assoc]
    exact if_congr hnarrow rfl rfl

/-! ## Nested groups -/

/-- What a piece on the stack is written as. -/
def pieceText (a : Arena) (names : Names) (errors : Bool) : Piece → String
  | .close => ")"
  | .node id spaced =>
    if (a.branch id).isError && !errors then ""
    else blank spaced ++ (a.branch id).text names errors

/-- The node of the piece is there. -/
def Piece.Present (a : Arena) : Piece → Prop
  | .close => True
  | .node id _ => id < a.nodes.size

/-- The operands of a node that is there are there. -/
theorem present_operands (hid : id < a.nodes.size) (kind : NodeKind) {rest : List Piece}
    (hrest : ∀ piece ∈ rest, piece.Present a) :
    ∀ piece ∈ (a.operands id kind).map (.node · true) ++ .close :: rest, piece.Present a := by
  intro piece hpiece
  rcases List.mem_append.1 hpiece with hoperand | hlater
  · obtain ⟨c, hc, rfl⟩ := List.mem_map.1 hoperand
    exact Nat.lt_trans (lt_of_mem_children ((a.operands_sublist id kind).subset hc)) hid
  · rcases List.mem_cons.1 hlater with rfl | hlater
    · exact trivial
    · exact hrest piece hlater

theorem text_leaf {token : Nat} (h : a.kind? id = some (.leaf token)) :
    (a.branch id).text names errors = (a.tokens[token]?.map Token.text).getD "" := by
  have htoken : a.leafToken? id = a.tokens[token]? := by
    rw [kind?] at h
    rw [leafToken?, h]
  rw [branch_eq, Branch.text, mark, h, htoken]
  rfl

theorem operands_eq (a : Arena) (id : NodeId) (kind : NodeKind) :
    a.operands id kind = kind.dropSlot (a.children id) := by
  cases kind <;> rfl

theorem operator?_eq (a : Arena) (id : NodeId) (kind : NodeKind) :
    Branch.operator? kind ((a.children id).map a.branch)
      = kind.slot?.bind fun (slot, _) => (a.children id)[slot]?.bind a.leafToken? := by
  unfold Branch.operator?
  congr 1
  funext ⟨slot, op⟩
  dsimp only
  rw [List.getElem?_map, Option.bind_map]
  congr 1
  funext c
  rw [Function.comp_apply, mark_branch, mark]

theorem headText_eq (h : a.kind? id = some kind) : a.headText names id kind
    = (a.mark id).head names (Branch.operator? kind ((a.children id).map a.branch)) := by
  have htext (slot : Nat) (op : TokenId) : a.operatorText names id slot op
      = (((a.children id)[slot]?.bind a.leafToken?).map Token.text).getD (names.token op) := by
    unfold operatorText
    split
    · next t ht => rw [ht]; rfl
    · next hnone => rw [hnone]; rfl
  rw [operator?_eq, Mark.head, mark, h, Option.getD_some]
  cases kind with
  | binary op => exact htext 1 op
  | unary op => exact htext 0 op
  | _ => rfl

/-- What is left out of a text can as well be there and empty. -/
theorem join_filter {α : Type} (hidden : α → Bool) (f : α → String) (xs : List α) :
    String.join ((xs.filter fun x => !hidden x).map f)
      = String.join (xs.map fun x => if hidden x then "" else f x) := by
  induction xs with
  | nil => rfl
  | cons x xs ih =>
    rw [List.map_cons, String.join_cons, ← ih]
    cases hx : hidden x with
    | true =>
      rw [List.filter_cons_of_neg (by simp [hx])]
      exact String.empty_append.symm
    | false =>
      rw [List.filter_cons_of_pos (by simp [hx]), List.map_cons, String.join_cons]
      rfl

/-- A group is its head, the pieces of its operands, and its end. -/
theorem text_inner (h : a.kind? id = some kind) (hkind : kind.token? = none) :
    (a.branch id).text names errors = "(" ++ a.headText names id kind ++
      String.join ((a.operands id kind).map fun c => a.pieceText names errors (.node c true)) ++
        ")" := by
  have hmark : (a.mark id).kind = kind := by rw [mark, h, Option.getD_some]
  have htoken : (a.mark id).kind.token? = none := hmark ▸ hkind
  have hoperands : (Branch.operands errors kind ((a.children id).map a.branch))
      = ((a.operands id kind).filter fun c => !((a.branch c).isError && !errors)).map a.branch := by
    rw [Branch.operands, Branch.dropSlot_map, operands_eq, List.filter_map]
    rfl
  rw [branch_eq, Branch.text_group htoken, hmark, Branch.intercalate_eq, hoperands, List.map_map,
    List.map_map, join_filter, headText_eq h, ← String.append_assoc]
  rfl

theorem pieceText_shown (h : a.kind? id = some kind) (hshown : ¬ (kind = .error ∧ errors = false))
    (spaced : Bool) :
    a.pieceText names errors (.node id spaced)
      = blank spaced ++ (a.branch id).text names errors := by
  rw [pieceText, isError_branch h, if_neg]
  simpa using hshown

theorem pieceText_hidden (h : a.kind? id = some .error) (spaced : Bool) :
    a.pieceText names false (.node id spaced) = "" := by
  rw [pieceText, isError_branch h]
  rfl

/-- The pieces on the stack are written one after the other. -/
theorem write_eq (a : Arena) (names : Names) (errors : Bool) (out : String) (pieces : List Piece)
    (h : ∀ piece ∈ pieces, piece.Present a) : a.write names errors out pieces
      = out ++ String.join (pieces.map (a.pieceText names errors)) := by
  -- A node puts its own pieces in front of the rest; together they are its text.
  fun_induction Arena.write with
  | case1 out => rw [List.map_nil]; exact String.append_empty.symm
  | case2 out rest ih =>
    rw [ih (List.forall_mem_cons.1 h).2, List.map_cons, String.join_cons, pieceText,
      String.push_eq_append, String.append_assoc]
    rfl
  | case3 out id spaced rest hnone ih =>
    have hid : id < a.nodes.size := (List.forall_mem_cons.1 h).1
    rw [kind?, Array.getElem?_eq_getElem hid] at hnone
    cases hnone
  | case4 out id spaced rest out' token hkind ih =>
    have hout : out' = out ++ blank spaced := spaced_eq out spaced
    have hshown : ¬ (NodeKind.leaf token = .error ∧ errors = false) := by simp
    rw [ih (List.forall_mem_cons.1 h).2, List.map_cons, String.join_cons,
      pieceText_shown hkind hshown, text_leaf hkind, hout]
    simp only [String.append_assoc]
  | case5 out id spaced rest kind hleaf hkind hhidden ih =>
    obtain ⟨rfl, rfl⟩ := hhidden
    rw [ih (List.forall_mem_cons.1 h).2, List.map_cons, String.join_cons, pieceText_hidden hkind,
      String.empty_append]
  | case6 out id spaced rest out' kind hleaf hkind hshown ih =>
    have hout : out' = out ++ blank spaced := spaced_eq out spaced
    obtain ⟨hid, hrest⟩ := List.forall_mem_cons.1 h
    have htoken : kind.token? = none := by
      cases kind with
      | leaf token => exact absurd rfl (hleaf token)
      | _ => rfl
    rw [ih (present_operands hid kind hrest), List.map_cons, String.join_cons,
      pieceText_shown hkind hshown, text_inner hkind htoken, List.map_append, List.map_cons,
      List.map_map, String.join_append, String.join_cons, pieceText, hout, String.push_eq_append]
    simp only [String.append_assoc]
    rfl

/-- The groups of a node that is there. -/
theorem expression_eq (names : Names) (h : id < a.nodes.size) :
    a.expression names id = (a.branch id).text names true := by
  have hpresent : ∀ piece ∈ [Piece.node id false], piece.Present a := by
    rw [List.forall_mem_singleton]
    exact h
  rw [expression, write_eq a names true "" _ hpresent, List.map_singleton, String.join_cons,
    pieceText, if_neg (by simp), blank, if_neg Bool.false_ne_true, String.empty_append,
    String.empty_append]
  exact String.append_empty

end Arena

/-! ## Branches that differ inside of error nodes -/

namespace Branch

/-- The branches differ only inside of error nodes, and in places. -/
inductive Alike : Branch → Branch → Prop where
  | leaf {m m' : Mark} {children children' : List Branch} {i j : Nat} (h : m.kind = .leaf i)
    (h' : m'.kind = .leaf j) (htext : m.token.map Token.text = m'.token.map Token.text) :
    Alike (mk m children) (mk m' children')
  | group {m m' : Mark} {children children' : List Branch} (hkind : m.kind = m'.kind)
    (hleaf : m.kind.token? = none)
    (hoperator : (operator? m.kind children).map Token.text
      = (operator? m'.kind children').map Token.text)
    (hoperands : List.Forall₂ Alike (operands false m.kind children)
      (operands false m'.kind children')) : Alike (mk m children) (mk m' children')

variable {names : Names}

theorem operands_subset {errors : Bool} {kind : NodeKind} {children : List Branch} {b : Branch}
    (h : b ∈ operands errors kind children) : b ∈ children := by
  have hdropped : b ∈ kind.dropSlot children := List.mem_of_mem_filter h
  unfold NodeKind.dropSlot at hdropped
  split at hdropped
  · exact List.mem_of_mem_eraseIdx hdropped
  · exact hdropped

theorem map_eq_of_forall₂ {R : Branch → Branch → Prop} {f : Branch → String}
    {bs bs' : List Branch} (h : List.Forall₂ R bs bs')
    (hR : ∀ b ∈ bs, ∀ b', R b b' → f b = f b') : bs.map f = bs'.map f := by
  induction h with
  | nil => rfl
  | cons hfirst _ ih =>
    obtain ⟨hb, hbs⟩ := List.forall_mem_cons.1 hR
    rw [List.map_cons, List.map_cons, hb _ hfirst, ih hbs]

theorem Alike.refl : (b : Branch) → Alike b b
  | mk m children => by
    cases htoken : m.kind.token? with
    | some token =>
      have hleaf := Arena.eq_leaf_of_token? htoken
      exact .leaf hleaf hleaf rfl
    | none =>
      refine .group rfl htoken rfl (List.forall₂_same.2 fun b hb => refl b)
termination_by b => sizeOf b
decreasing_by
  have hlt := List.sizeOf_lt_of_mem (operands_subset hb)
  simp only [mk.sizeOf_spec]
  omega

/-- They are written alike without errors. -/
theorem Alike.text_eq : (b b' : Branch) → Alike b b' → b.text names false = b'.text names false
  | mk m children, mk m' children', h => by
    cases h with
    | leaf h h' htext => rw [text, text, h, h', htext]
    | group hkind hleaf hoperator hoperands =>
      have htexts := map_eq_of_forall₂ hoperands fun b hb b' hb' => text_eq b b' hb'
      have hhead : m.head names (operator? m.kind children)
          = m'.head names (operator? m'.kind children') := by
        rw [Mark.head, Mark.head, hoperator, hkind]
      rw [text_group hleaf, text_group (hkind ▸ hleaf), hhead, htexts]
termination_by b => sizeOf b
decreasing_by
  have hlt := List.sizeOf_lt_of_mem (operands_subset hb)
  simp only [mk.sizeOf_spec]
  omega

end Branch

/-! ## Trees that were built -/

section Built

variable {careful : Bool} {calls : List TreeBuilder.Call} {children : List NodeId}
  {place : Position} {t : SyntaxTree}

theorem TreeBuilder.arena_attach {b b' : TreeBuilder} (h : b.attach careful children = some b') :
    b'.arena = b.arena := by
  induction children generalizing b with
  | nil =>
    cases h
    rfl
  | cons c children ih =>
    rw [attach] at h
    split at h
    · cases h
    · exact ih (b := { b with attached := c :: b.attached }) h

/-- The root of a tree that was built is a root. -/
theorem TreeBuilder.kind?_root (h : build careful calls children place = some t) :
    t.toArena.kind? t.root = some .root := by
  obtain ⟨b, -, hfinish⟩ := Option.bind_eq_some_iff.1 h
  obtain ⟨b', hroot, hfinish⟩ := Option.bind_eq_some_iff.1 hfinish
  obtain ⟨b₁, hattach, rfl⟩ := Option.map_eq_some_iff.1 hroot
  split at hfinish
  · cases hfinish
  · cases hfinish
    rw [← arena_attach hattach]
    exact Arena.kind?_pushNode b₁.arena .root children place

namespace SyntaxTree

theorem expressionWithoutErrors_eq (h : t.toArena.kind? t.root = some .root) (names : Names) :
    t.expressionWithoutErrors names = (t.branch t.root).text names false := by
  have hpresent : ∀ piece ∈ [Arena.Piece.node t.root false],
      Arena.Piece.Present t.toArena piece := by
    rw [List.forall_mem_singleton]
    exact Arena.lt_of_kind? h
  rw [expressionWithoutErrors, Arena.write_eq _ names false "" _ hpresent, List.map_singleton,
    String.join_cons, Arena.pieceText_shown h nofun, Arena.blank, if_neg Bool.false_ne_true,
    String.empty_append, String.empty_append]
  exact String.append_empty

theorem dump?_eq (h : t.root < t.nodes.size) (names : Names) : t.dump? names
    = if 2 * (t.branch t.root).height ≤ Arena.widthLimit then
        some ((t.branch t.root).lines names 0) else none := by
  have hpresent : ∀ entry ∈ [(t.root, 0)], entry.1 < t.nodes.size := by
    rw [List.forall_mem_singleton]
    exact h
  have hnarrow : (∀ entry ∈ [(t.root, 0)], t.Narrow entry.2 entry.1) ↔
      2 * (t.branch t.root).height ≤ Arena.widthLimit := by
    rw [List.forall_mem_singleton, Arena.Narrow, Nat.zero_add]
  rw [dump?, Arena.writeLines?_eq _ names "" _ hpresent, List.map_singleton, String.join_cons,
    String.empty_append]
  exact if_congr hnarrow (congrArg some String.append_empty) rfl

/-- What is made of a tree that was built are the recursions over its branches: the nested groups of
each node, with and without error nodes, the lines of the dump, if none of them is indented too far,
and the walk from each node. So trees that differ only inside of error nodes are written alike
without these. -/
theorem renders_by_recursion (h : TreeBuilder.build careful calls children place = some t)
    (names : Names) :
    (∀ id < t.size, t.preorder id = (t.branch id).ids ∧
        t.toArena.expression names id = (t.branch id).text names true) ∧
      t.expression names = (t.branch t.root).text names true ∧
      t.expressionWithoutErrors names = (t.branch t.root).text names false ∧
      t.dump? names = (if 2 * (t.branch t.root).height ≤ Arena.widthLimit then
        some ((t.branch t.root).lines names 0) else none) ∧
      ∀ careful' calls' children' place' t',
        TreeBuilder.build careful' calls' children' place' = some t' →
        (t.branch t.root).Alike (t'.branch t'.root) →
          t.expressionWithoutErrors names = t'.expressionWithoutErrors names := by
  have hkind := TreeBuilder.kind?_root h
  have hroot : t.root < t.nodes.size := Arena.lt_of_kind? hkind
  refine ⟨fun id hid => ⟨(Arena.ids_branch _ id).symm, Arena.expression_eq names hid⟩,
    Arena.expression_eq names hroot, expressionWithoutErrors_eq hkind names, dump?_eq hroot names,
    fun careful' calls' children' place' t' h' halike => ?_⟩
  rw [expressionWithoutErrors_eq hkind,
    expressionWithoutErrors_eq (TreeBuilder.kind?_root h'), halike.text_eq]

/-- A sum of two leaves. -/
def sumCalls : List TreeBuilder.Call :=
  [.leaf ⟨.kind 0, "1", .start⟩, .leaf ⟨.kind 1, "+", .start⟩, .leaf ⟨.kind 0, "2", .start⟩,
    .node (.binary (.kind 1)) [0, 1, 2] .start]

/-- The same with an error node behind it. -/
def damagedCalls : List TreeBuilder.Call :=
  sumCalls ++ [.leaf ⟨.unknown, "?", .start⟩, .node .error [4] .start]

/-- The nodes of the sum, where every token is at the start. -/
def sumNodes : List Node :=
  [⟨.leaf 0, .start, ⟨1, 2, 1⟩, []⟩, ⟨.leaf 1, .start, ⟨1, 2, 1⟩, []⟩,
    ⟨.leaf 2, .start, ⟨1, 2, 1⟩, []⟩, ⟨.binary (.kind 1), .start, ⟨1, 2, 1⟩, [0, 1, 2]⟩]

/-- The tree of a sum. -/
def sumTree : SyntaxTree where
  nodes := sumNodes.toArray.push ⟨.root, .start, ⟨1, 2, 1⟩, [3]⟩
  tokens := #[⟨.kind 0, "1", .start⟩, ⟨.kind 1, "+", .start⟩, ⟨.kind 0, "2", .start⟩]
  child_lt := by decide
  root := 4

/-- The tree of a sum and an error. -/
def damagedTree : SyntaxTree where
  nodes := ((sumNodes.toArray.push ⟨.leaf 3, .start, ⟨1, 2, 1⟩, []⟩).push
    ⟨.error, .start, ⟨1, 2, 1⟩, [4]⟩).push ⟨.root, .start, ⟨1, 2, 1⟩, [3, 5]⟩
  tokens := sumTree.tokens.push ⟨.unknown, "?", .start⟩
  child_lt := by decide
  root := 6

/-- The sum is the same in both trees. -/
theorem branch_damagedTree : damagedTree.branch 3 = sumTree.branch 3 := by
  refine Arena.branch_congr rfl rfl fun c hc => ?_
  have hmem : c ∈ [0, 1, 2] := hc
  simp only [List.mem_cons, List.not_mem_nil, or_false] at hmem
  rcases hmem with rfl | rfl | rfl
  · exact Arena.branch_congr rfl rfl nofun
  · exact Arena.branch_congr rfl rfl nofun
  · exact Arena.branch_congr rfl rfl nofun

/-- The trees differ only in the error node. -/
theorem alike_damagedTree :
    (damagedTree.branch damagedTree.root).Alike (sumTree.branch sumTree.root) := by
  have hkind : sumTree.toArena.kind? 3 = some (.binary (.kind 1)) := rfl
  have hkind' : damagedTree.toArena.kind? 5 = some .error := rfl
  have hsum : (sumTree.branch 3).isError = false := Arena.isError_branch hkind
  have herror : (damagedTree.branch 5).isError = true := Arena.isError_branch hkind'
  have hoperands : Branch.operands false .root (([3, 5] : List NodeId).map damagedTree.branch)
      = Branch.operands false .root (([3] : List NodeId).map sumTree.branch) := by
    simp [Branch.operands, NodeKind.dropSlot, NodeKind.slot?, hsum, herror,
      branch_damagedTree]
  rw [Arena.branch_eq _ damagedTree.root, Arena.branch_eq _ sumTree.root]
  refine .group rfl rfl rfl ?_
  show List.Forall₂ _ (Branch.operands false .root (([3, 5] : List NodeId).map damagedTree.branch))
    (Branch.operands false .root (([3] : List NodeId).map sumTree.branch))
  rw [hoperands]
  exact List.forall₂_same.2 fun b _ => .refl b

/-- An error behind a sum is left out, and the dump has all lines. -/
theorem renders_by_recursion_sum :
    TreeBuilder.build true damagedCalls [3, 5] .start = some damagedTree ∧
      TreeBuilder.build true sumCalls [3] .start = some sumTree ∧
      (damagedTree.branch damagedTree.root).Alike (sumTree.branch sumTree.root) ∧
      damagedTree.expressionWithoutErrors ⟨fun _ => "token", fun _ => "rule"⟩
        = sumTree.expressionWithoutErrors ⟨fun _ => "token", fun _ => "rule"⟩ ∧
      damagedTree.dump? ⟨fun _ => "token", fun _ => "rule"⟩
        = some ((damagedTree.branch damagedTree.root).lines ⟨fun _ => "token", fun _ => "rule"⟩ 0) := by
  have hdamaged : TreeBuilder.build true damagedCalls [3, 5] .start = some damagedTree := rfl
  have hsum : TreeBuilder.build true sumCalls [3] .start = some sumTree := rfl
  have hnarrow : 2 * (damagedTree.branch damagedTree.root).height ≤ Arena.widthLimit :=
    (Nat.mul_le_mul_left 2 (Arena.height_branch_le _ _)).trans (by decide)
  obtain ⟨-, -, -, hdump, hwritten⟩ :=
    renders_by_recursion hdamaged ⟨fun _ => "token", fun _ => "rule"⟩
  rw [if_pos hnarrow] at hdump
  exact ⟨hdamaged, hsum, alike_damagedTree,
    hwritten true sumCalls [3] .start sumTree hsum alike_damagedTree, hdump⟩

/-! ### A tree that is too deep -/

theorem height_eq_of_extends {a a' : Arena} (h : a.Extends a') {id : NodeId}
    (hid : id < a.nodes.size) : (a'.branch id).height = (a.branch id).height := by
  induction id using a.node_induction with
  | node id ih =>
    have hbelow : ∀ n, (a'.branch id).height ≤ n ↔ (a.branch id).height ≤ n := by
      intro n
      rw [Arena.height_branch_le_iff, Arena.height_branch_le_iff, h.children_eq hid]
      refine forall₂_congr fun c hc => ?_
      rw [ih c hc (Nat.lt_trans (Arena.lt_of_mem_children hc) hid)]
    exact Nat.le_antisymm ((hbelow _).2 (Nat.le_refl _)) ((hbelow _).1 (Nat.le_refl _))

/-- A node over one other is higher by one. -/
theorem height_pushNode {a : Arena} {id : NodeId} (hid : id < a.nodes.size) (kind : NodeKind)
    (place : Position) : ((a.pushNode kind [id] place).branch a.nextId).height
      = (a.branch id).height + 1 := by
  have hchildren := Arena.children_pushNode kind place (List.forall_mem_singleton.2 hid)
  rw [Arena.branch_eq, hchildren, List.map_singleton, Branch.height, Branch.deepest,
    Branch.deepest, Nat.max_zero, height_eq_of_extends (.pushNode ..) hid]

/-- A leaf, and so many nodes one over the other. -/
theorem exists_chain (n : Nat) : ∃ taken a id, Arena.empty.Grows [] taken a [id] ∧
    n ≤ (a.branch id).height := by
  induction n with
  | zero => exact ⟨_, _, _, .leaf default .refl, Nat.zero_le _⟩
  | succ n ih =>
    obtain ⟨taken, a, id, hgrows, hheight⟩ := ih
    have hnode : Arena.empty.Grows [] taken (a.pushNode (.rule 0) [id] .start) ([] ++ [a.nextId]) :=
      hgrows.node rfl .start
    refine ⟨taken, _, _, hnode, ?_⟩
    rw [height_pushNode (hgrows.lt nofun id List.mem_cons_self)]
    exact Nat.succ_le_succ hheight

/-- A leaf that is 32768 nodes below the root is indented too far. -/
theorem dump?_chain : ∃ calls children place t,
    TreeBuilder.build true calls children place = some t ∧ ∀ names, t.dump? names = none := by
  obtain ⟨taken, a, id, hgrows, hheight⟩ := exists_chain 32767
  have hid : id < a.nodes.size := hgrows.lt nofun id List.mem_cons_self
  obtain ⟨calls, hbuild⟩ := hgrows.builds .start
  have hforest := (hgrows.forest .empty).attached_finish .start
  refine ⟨calls, [id], .start, _, TreeBuilder.build_careful hforest hbuild, fun names => ?_⟩
  have hroot : a.nextId < (a.pushNode .root [id] .start).nodes.size := by
    rw [Arena.size_pushNode]
    exact Nat.lt_succ_self _
  have hdump := dump?_eq (t := a.finish [id] .start) hroot names
  rwa [if_neg] at hdump
  show ¬ 2 * ((a.pushNode .root [id] .start).branch a.nextId).height ≤ 65535
  rw [height_pushNode hid]
  omega

end SyntaxTree

end Built

end FrontEnd
