import FrontEnd.Tree.Basic
import FrontEnd.Text.Escape

/-!
# Written forms of a tree

Two texts are made from a tree. Both walk with a stack of things still to be written, so that a
tree may be as deep as memory allows. The indentation of a line is filled up to a width, though, and
**widths are numbers of 16 bits**: a line that is indented further cannot be written.

- `Arena.expression`: nested groups `(head operands…)`; a leaf is its text, an operator node has
  the operator as its head;
- `SyntaxTree.dump?`: one line per node, indented by depth, with positions.
-/

namespace FrontEnd

namespace Arena

/-- The kind of the node `id`. -/
def kind? (a : Arena) (id : NodeId) : Option NodeKind := a.nodes[id]?.map Node.kind

/-- The text of the operator leaf at `slot`, or the name of the operator when there is none. -/
def operatorText (a : Arena) (names : Names) (id : NodeId) (slot : Nat) (op : TokenId) : String :=
  match (a.children id)[slot]?.bind a.leafToken? with
  | some t => t.text
  | none => names.token op

/-- The head of the group of a node that is no leaf. -/
def headText (a : Arena) (names : Names) (id : NodeId) : NodeKind → String
  | .root => "root"
  | .leaf _ => ""
  | .rule rule => names.rule rule
  | .binary op => a.operatorText names id 1 op
  | .unary op => a.operatorText names id 0 op
  | .error => "error"

/-- The children behind the head: the operator leaf is not written again. -/
def operands (a : Arena) (id : NodeId) : NodeKind → List NodeId
  | .binary _ => (a.children id).eraseIdx 1
  | .unary _ => (a.children id).eraseIdx 0
  | _ => a.children id

theorem operands_sublist (a : Arena) (id : NodeId) (kind : NodeKind) :
    (a.operands id kind).Sublist (a.children id) := by
  cases kind <;> simp [operands, List.eraseIdx_sublist, List.tail_sublist]

/-- What is still to be written. -/
inductive Piece where
  /-- A node, behind a blank when it is not the first. -/
  | node (id : NodeId) (spaced : Bool)
  /-- The end of a group. -/
  | close

/-- A bound on the pieces that come out of a piece, itself included. -/
def Piece.weight (a : Arena) : Piece → Nat
  | node id _ => 2 * a.weight id
  | close => 1

theorem total_weight_nodes (a : Arena) (ids : List NodeId) :
    total (Piece.weight a) (ids.map (.node · true)) = 2 * total a.weight ids := by
  induction ids with
  | nil => rfl
  | cons id ids ih =>
    rw [List.map_cons, total_cons, total_cons, ih, Piece.weight, Nat.mul_add]

/-- Writes pieces behind `out`. Error nodes are left out, with all below them, unless `errors`. -/
def write (a : Arena) (names : Names) (errors : Bool) (out : String) : List Piece → String
  | [] => out
  | .close :: rest => a.write names errors (out.push ')') rest
  | .node id spaced :: rest =>
    let out' := if spaced then out.push ' ' else out
    match a.kind? id with
    | none => a.write names errors out rest
    | some (.leaf token) =>
      a.write names errors (out' ++ ((a.tokens[token]?.map Token.text).getD "")) rest
    | some kind =>
      if kind = .error ∧ errors = false then a.write names errors out rest
      else
        a.write names errors (out'.push '(' ++ a.headText names id kind)
          ((a.operands id kind).map (.node · true) ++ .close :: rest)
termination_by pieces => total (Piece.weight a) pieces
decreasing_by
  all_goals simp only [total_append, total_cons, total_weight_nodes, Piece.weight]
  · omega
  · have := a.weight_eq id; omega
  · have := a.weight_eq id; omega
  · have := a.weight_eq id; omega
  · have := a.weight_eq id
    have := total_le_of_sublist a.weight (a.operands_sublist id kind)
    omega

/-- The subtree under `id` as nested groups. -/
def expression (a : Arena) (names : Names) (id : NodeId) : String :=
  a.write names true "" [.node id false]

/-- The line of a node in a dump, without indentation and positions. -/
def label (a : Arena) (names : Names) : NodeKind → String
  | .root => "Root"
  | .leaf token =>
    match a.tokens[token]? with
    | some t => names.token t.id ++ " " ++ Escape.literal t.text
    | none => "<missing token>"
  | .rule rule => names.rule rule
  | .binary op => "Binary " ++ names.token op
  | .unary op => "Unary " ++ names.token op
  | .error => "Error"

/-- The greatest width to which a text can be filled up. -/
def widthLimit : Nat := 65535

/-- One line of a dump, if it is not indented too far. -/
def dumpLine? (a : Arena) (names : Names) (depth : Nat) (n : Node) : Option String :=
  if 2 * depth ≤ widthLimit then
    some (String.ofList (List.replicate (2 * depth) ' ') ++ a.label names n.kind ++ " @ " ++
      n.start.render ++ ".." ++ n.stop.render ++ "\n")
  else none

theorem total_weight_lines (a : Arena) (depth : Nat) (ids : List NodeId) :
    total (fun line => a.weight line.1) (ids.map (·, depth)) = total a.weight ids := by
  induction ids with
  | nil => rfl
  | cons id ids ih => rw [List.map_cons, total_cons, total_cons, ih]

/-- Writes the lines of nodes, each with its depth, and of all below them behind `out`. It fails as
soon as a line cannot be written. -/
def writeLines? (a : Arena) (names : Names) (out : String) : List (NodeId × Nat) → Option String
  | [] => some out
  | (id, depth) :: rest =>
    match a.nodes[id]? with
    | none => a.writeLines? names out rest
    | some n =>
      match a.dumpLine? names depth n with
      | none => none
      | some line =>
        a.writeLines? names (out ++ line) ((a.children id).map (·, depth + 1) ++ rest)
termination_by stack => total (fun line => a.weight line.1) stack
decreasing_by
  · rw [total_cons, weight_eq]
    omega
  · rw [total_append, total_cons, total_weight_lines, weight_eq a id]
    omega

end Arena

namespace SyntaxTree

/-- The whole tree as nested groups. -/
def expression (t : SyntaxTree) (names : Names) : String := t.toArena.expression names t.root

/-- The whole tree as nested groups, without its error nodes. -/
def expressionWithoutErrors (t : SyntaxTree) (names : Names) : String :=
  t.write names false "" [.node t.root false]

/-- The whole tree as indented lines, if all of them can be written. -/
def dump? (t : SyntaxTree) (names : Names) : Option String :=
  t.writeLines? names "" [(t.root, 0)]

/-- The whole tree as indented lines, nothing where one of them cannot be written. -/
def dump (t : SyntaxTree) (names : Names) : String := (t.dump? names).getD ""

end SyntaxTree

end FrontEnd
