import FrontEnd.Proofs.Stream.Tokens
import FrontEnd.Tree.Render

/-!
# Trees without places

The nested groups that are made from a tree say nothing about where its nodes stand.

- `Arena.Alike`: the same nodes over the same lexemes, in whatever places;
- `Arena.Alike.pushLeaf`, `Arena.Alike.pushNode`: alike arenas grow alike;
- `Arena.Alike.write`: **and they are written alike**.
-/

namespace FrontEnd

/-- The node without its place. -/
def Node.unplaced (n : Node) : Node := { n with start := .start, stop := .start }

/-- The arenas differ in nothing but places. -/
structure Arena.Alike (a a' : Arena) : Prop where
  nodes : a.nodes.map Node.unplaced = a'.nodes.map Node.unplaced
  tokens : a.tokens.map Token.lexeme = a'.tokens.map Token.lexeme

namespace Arena.Alike

variable {a a' : Arena}

theorem refl (a : Arena) : a.Alike a := ⟨rfl, rfl⟩

theorem nextId (h : a.Alike a') : a.nextId = a'.nextId := by
  have hsize := congrArg Array.size h.nodes
  rwa [Array.size_map, Array.size_map] at hsize

theorem size_tokens (h : a.Alike a') : a.tokens.size = a'.tokens.size := by
  simpa using congrArg Array.size h.tokens

/-! ## Growing -/

theorem pushLeaf (h : a.Alike a') {t t' : Token} (ht : t.lexeme = t'.lexeme) :
    (a.pushLeaf t).Alike (a'.pushLeaf t') where
  nodes := by
    simp only [Arena.pushLeaf, push, Array.map_push, h.nodes, Node.unplaced, h.size_tokens]
  tokens := by
    simp only [Arena.pushLeaf, push, Array.map_push, h.tokens, ht]

theorem pushLeaves (h : a.Alike a') {ts ts' : List Token}
    (hts : ts.map Token.lexeme = ts'.map Token.lexeme) :
    (ts.foldl Arena.pushLeaf a).Alike (ts'.foldl Arena.pushLeaf a') := by
  induction ts generalizing a a' ts' with
  | nil =>
    rw [List.map_nil, eq_comm, List.map_eq_nil_iff] at hts
    rwa [hts]
  | cons t ts ih =>
    obtain ⟨t', ts', rfl, ht, hts⟩ := List.map_eq_cons_iff.1 (Eq.symm hts)
    exact ih (h.pushLeaf ht.symm) hts.symm

theorem pushNode (h : a.Alike a') (kind : NodeKind) (children : List NodeId)
    (place place' : Position) :
    (a.pushNode kind children place).Alike (a'.pushNode kind children place') where
  nodes := by
    have hsize : a.nodes.size = a'.nodes.size := h.nextId
    simp only [Arena.pushNode, push, Array.map_push, h.nodes, Node.unplaced, hsize]
  tokens := h.tokens

/-! ## Reading -/

theorem map_unplaced (h : a.Alike a') (id : NodeId) :
    a.nodes[id]?.map Node.unplaced = a'.nodes[id]?.map Node.unplaced := by
  rw [← Array.getElem?_map, ← Array.getElem?_map, h.nodes]

theorem children (h : a.Alike a') (id : NodeId) : a.children id = a'.children id := by
  have hnodes := congrArg (·.map Node.children) (h.map_unplaced id)
  simp only [Option.map_map] at hnodes
  exact congrArg (·.getD []) hnodes

theorem kind? (h : a.Alike a') (id : NodeId) : a.kind? id = a'.kind? id := by
  have hnodes := congrArg (·.map Node.kind) (h.map_unplaced id)
  simp only [Option.map_map] at hnodes
  exact hnodes

theorem text_token? (h : a.Alike a') (token : Nat) :
    a.tokens[token]?.map Token.text = a'.tokens[token]?.map Token.text := by
  have htokens : a.tokens[token]?.map Token.lexeme = a'.tokens[token]?.map Token.lexeme := by
    rw [← Array.getElem?_map, ← Array.getElem?_map, h.tokens]
  have htexts := congrArg (·.map Lexeme.text) htokens
  simp only [Option.map_map] at htexts
  exact htexts

theorem text_leafToken? (h : a.Alike a') (id : NodeId) :
    (a.leafToken? id).map Token.text = (a'.leafToken? id).map Token.text := by
  have hkind : a.nodes[id]?.map Node.kind = a'.nodes[id]?.map Node.kind := h.kind? id
  rw [leafToken?, leafToken?, hkind]
  split
  · exact h.text_token? _
  · rfl

theorem operatorText (h : a.Alike a') (names : Names) (id : NodeId) (slot : Nat) (op : TokenId) :
    a.operatorText names id slot op = a'.operatorText names id slot op := by
  have htexts : ((a.children id)[slot]?.bind a.leafToken?).map Token.text
      = ((a'.children id)[slot]?.bind a'.leafToken?).map Token.text := by
    rw [h.children]
    cases (a'.children id)[slot]? with
    | none => rfl
    | some c => exact h.text_leafToken? c
  have hshape : ∀ b : Arena, b.operatorText names id slot op
      = (((b.children id)[slot]?.bind b.leafToken?).map Token.text).getD (names.token op) := by
    intro b
    rw [Arena.operatorText]
    cases (b.children id)[slot]?.bind b.leafToken? <;> rfl
  rw [hshape, hshape, htexts]

theorem headText (h : a.Alike a') (names : Names) (id : NodeId) (kind : NodeKind) :
    a.headText names id kind = a'.headText names id kind := by
  cases kind with
  | binary op => exact h.operatorText names id 1 op
  | unary op => exact h.operatorText names id 0 op
  | _ => rfl

theorem operands (h : a.Alike a') (id : NodeId) (kind : NodeKind) :
    a.operands id kind = a'.operands id kind := by
  cases kind <;> simp only [Arena.operands, h.children]

/-- What is written does not depend on places. -/
theorem write (h : a.Alike a') (names : Names) (errors : Bool) (out : String)
    (pieces : List Piece) :
    a.write names errors out pieces = a'.write names errors out pieces := by
  fun_induction Arena.write a names errors out pieces with
  | case1 out => rw [Arena.write]
  | case2 out rest ih => rw [ih, eq_comm, Arena.write]
  | case3 out id spaced rest hkind ih =>
    rw [ih, eq_comm, Arena.write, ← h.kind?, hkind]
  | case4 out id spaced rest out' token hkind ih =>
    rw [ih, eq_comm, Arena.write, ← h.kind?, hkind, h.text_token?]
    rfl
  | case5 out id spaced rest kind hleaf hkind herror ih =>
    rw [ih, eq_comm, Arena.write, ← h.kind?, hkind]
    cases kind with
    | leaf token => exact absurd rfl (hleaf token)
    | error => exact if_pos herror
    | _ => exact if_pos herror
  | case6 out id spaced rest out' kind hleaf hkind herror ih =>
    rw [ih, eq_comm, Arena.write, ← h.kind?, hkind, h.headText, h.operands]
    cases kind with
    | leaf token => exact absurd rfl (hleaf token)
    | _ => exact if_neg herror

end Arena.Alike

end FrontEnd
