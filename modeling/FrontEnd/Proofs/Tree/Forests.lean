import FrontEnd.Proofs.Tree.Walks
import Mathlib.Data.List.Perm.Basic
import Mathlib.Data.List.Range

/-!
# Every node in one place

A row of trees that grows by leaves and parents uses each node once: it hangs under one parent, or
it stands in the row. So the checks that a careful builder would make never fail.

- `Arena.attached`: the nodes that have a parent, once for each place among the children of one;
- `Arena.Forest`: **every node has one parent or stands in the row, and is met once on a walk over
  the row**;
- `Arena.Grows.forest`: growing keeps a row in this order;
- `TreeBuilder`: building, with checks if one wants, that a node gets one parent and that none is
  left over;
- `TreeBuilder.build_careful`: **no check fails on the way to a tree in which every node but the
  root has one place**;
- `Arena.Grows.builds`: a row that has grown is the work of a builder.
-/

namespace FrontEnd

namespace Arena

variable {a a' : Arena} {id : NodeId} {row row' before children : List NodeId}

/-- The nodes that have a parent, once for each place among the children of one. -/
def attached (a : Arena) : List NodeId := a.nodes.toList.flatMap Node.children

theorem attached_push (a : Arena) (n : Node) (h : ∀ c ∈ n.children, c < a.nodes.size) :
    (a.push n h).attached = a.attached ++ n.children := by
  simp [attached, push, List.flatMap_append]

theorem attached_pushLeaf (a : Arena) (t : Token) : (a.pushLeaf t).attached = a.attached := by
  rw [pushLeaf, attached_push, List.append_nil]
  rfl

theorem attached_pushNode (kind : NodeKind) (place : Position)
    (h : ∀ c ∈ children, c < a.nodes.size) :
    (a.pushNode kind children place).attached = a.attached ++ children := by
  rw [pushNode, attached_push]
  exact congrArg (a.attached ++ ·) (filter_present h)

/-! ## Walks over a row that has grown -/

theorem preorder_pushLeaf (a : Arena) (t : Token) :
    (a.pushLeaf t).preorder a.nextId = [a.nextId] := by
  have hchildren : (a.pushLeaf t).children a.nextId = [] := by
    simp [pushLeaf, push, children, nextId]
  rw [preorder_eq, hchildren, List.flatMap_nil]

theorem preorder_pushNode (kind : NodeKind) (place : Position)
    (h : ∀ c ∈ children, c < a.nodes.size) :
    (a.pushNode kind children place).preorder a.nextId
      = a.nextId :: children.flatMap a.preorder := by
  rw [preorder_eq, children_pushNode kind place h,
    (Extends.pushNode a kind _ place).flatMap_preorder h]

/-! ## Forests -/

/-- Every node has one parent, in one place among its children, or stands once in the row; and a
walk over the row meets every node once. -/
structure Forest (a : Arena) (row : List NodeId) : Prop where
  once : (a.attached ++ row).Perm (List.range a.nodes.size)
  met : (row.flatMap a.preorder).Perm (List.range a.nodes.size)

namespace Forest

theorem empty : Forest .empty [] := ⟨.nil, .nil⟩

theorem lt (h : a.Forest row) (hid : id ∈ row) : id < a.nodes.size :=
  List.mem_range.1 (h.once.mem_iff.1 (List.mem_append_right _ hid))

theorem pushLeaf (h : a.Forest row) (t : Token) : (a.pushLeaf t).Forest (row ++ [a.nextId]) where
  once := by
    rw [attached_pushLeaf, size_pushLeaf, List.range_succ, ← List.append_assoc]
    exact h.once.append_right _
  met := by
    rw [List.flatMap_append, List.flatMap_singleton, preorder_pushLeaf, size_pushLeaf,
      List.range_succ, (Extends.pushLeaf a t).flatMap_preorder fun _ => h.lt]
    exact h.met.append_right _

theorem pushNode (h : a.Forest (before ++ children)) (kind : NodeKind) (place : Position) :
    (a.pushNode kind children place).Forest (before ++ [a.nextId]) where
  once := by
    have hchildren : ∀ c ∈ children, c < a.nodes.size := fun _ hc =>
      h.lt (List.mem_append_right _ hc)
    rw [attached_pushNode kind place hchildren, size_pushNode, List.range_succ,
      ← List.append_assoc, List.append_assoc a.attached]
    exact ((List.perm_append_comm.append_left _).trans h.once).append_right _
  met := by
    have hbefore : ∀ c ∈ before, c < a.nodes.size := fun _ hc =>
      h.lt (List.mem_append_left _ hc)
    have hchildren : ∀ c ∈ children, c < a.nodes.size := fun _ hc =>
      h.lt (List.mem_append_right _ hc)
    have hmet := h.met
    rw [List.flatMap_append] at hmet
    rw [List.flatMap_append, List.flatMap_singleton, preorder_pushNode kind place hchildren,
      size_pushNode, List.range_succ,
      (Extends.pushNode a kind children place).flatMap_preorder hbefore]
    -- The parent is met between the two parts and counted behind them.
    exact List.perm_middle.trans ((List.perm_append_singleton ..).symm.trans (hmet.append_right _))

end Forest

theorem Grows.forest {taken : List Token} (h : a.Grows row taken a' row') (hrow : a.Forest row) :
    a'.Forest row' := by
  induction h with
  | refl => exact hrow
  | leaf t _ ih => exact ih.pushLeaf t
  | node hkind place _ ih => exact ih.pushNode _ place

/-! ## Whole trees -/

/-- Under the root every other node has one place. -/
theorem Forest.attached_finish (h : a.Forest row) (place : Position) :
    (a.finish row place).attached.Perm (List.range (a.finish row place).root) := by
  have hattached := attached_pushNode .root place fun _ => h.lt
  show (a.pushNode .root row place).attached.Perm (List.range a.nodes.size)
  rw [hattached]
  exact h.once

/-- A walk from the root meets every node once. -/
theorem Forest.preorder_finish (h : a.Forest row) (place : Position) :
    ((a.finish row place).preorder (a.finish row place).root).Perm
      (List.range (a.finish row place).size) := by
  have hroot : a.Forest ([] ++ row) := h
  have hmet := (hroot.pushNode .root place).met
  rwa [List.nil_append, List.flatMap_singleton] at hmet

end Arena

/-! ## Building with checks -/

/-- An arena that is being built, and the nodes that have got a parent. -/
structure TreeBuilder where
  arena : Arena
  attached : List NodeId

namespace TreeBuilder

/-- Nothing yet. -/
def empty : TreeBuilder := ⟨.empty, []⟩

/-- What is asked of a builder. -/
inductive Call where
  | leaf (t : Token)
  | node (kind : NodeKind) (children : List NodeId) (place : Position)

/-- Notes one after the other that nodes get a parent. A missing node is an error; a careful builder
also makes sure that none has a parent already. -/
def attach (careful : Bool) (b : TreeBuilder) : List NodeId → Option TreeBuilder
  | [] => some b
  | c :: children =>
    if b.arena.nodes.size ≤ c ∨ careful ∧ c ∈ b.attached then none
    else attach careful { b with attached := c :: b.attached } children

/-- Adds a leaf, or a node over children that get it as their parent. -/
def call (careful : Bool) (b : TreeBuilder) : Call → Option TreeBuilder
  | .leaf t => some { b with arena := b.arena.pushLeaf t }
  | .node kind children place =>
    (b.attach careful children).map fun b =>
      { b with arena := b.arena.pushNode kind children place }

/-- One call after the other, up to the first error. -/
def perform (careful : Bool) (b : TreeBuilder) (calls : List Call) : Option TreeBuilder :=
  calls.foldlM (call careful) b

/-- Puts children under the root. A careful builder makes sure that no other node is left without a
parent. -/
def finish (careful : Bool) (b : TreeBuilder) (children : List NodeId) (place : Position) :
    Option SyntaxTree :=
  (b.call careful (.node .root children place)).bind fun b' =>
    if careful ∧ ∃ id ∈ List.range b.arena.nextId, id ∉ b'.attached then none
    else some ⟨b'.arena, b.arena.nextId⟩

/-- A whole tree, from the first call to the root. -/
def build (careful : Bool) (calls : List Call) (children : List NodeId) (place : Position) :
    Option SyntaxTree :=
  (empty.perform careful calls).bind (·.finish careful children place)

variable {careful : Bool} {b b' : TreeBuilder} {calls : List Call} {children : List NodeId}
  {place : Position} {t : SyntaxTree}

theorem attach_eq (hlt : ∀ c ∈ children, c < b.arena.nodes.size)
    (hnew : careful → (children.reverse ++ b.attached).Nodup) :
    b.attach careful children = some { b with attached := children.reverse ++ b.attached } := by
  induction children generalizing b with
  | nil => rfl
  | cons c children ih =>
    obtain ⟨hc, hlt⟩ := List.forall_mem_cons.1 hlt
    rw [List.reverse_cons, List.append_assoc, List.singleton_append] at hnew
    have hcnew : careful → c ∉ b.attached := fun hcareful =>
      (List.nodup_cons.1 ((hnew hcareful).sublist (List.sublist_append_right ..))).1
    have hgood : ¬(b.arena.nodes.size ≤ c ∨ careful ∧ c ∈ b.attached) := by
      rintro (hmissing | ⟨hcareful, hattached⟩)
      · exact Nat.not_lt.2 hmissing hc
      · exact hcnew hcareful hattached
    rw [attach, if_neg hgood, List.reverse_cons, List.append_assoc]
    exact ih (b := { b with attached := c :: b.attached }) hlt hnew

theorem attach_careless (hlt : ∀ c ∈ children, c < b.arena.nodes.size) :
    b.attach false children = some { b with attached := children.reverse ++ b.attached } :=
  attach_eq hlt nofun

theorem lt_of_attach (h : b.attach careful children = some b') :
    ∀ c ∈ children, c < b.arena.nodes.size := by
  induction children generalizing b with
  | nil => nofun
  | cons c children ih =>
    rw [attach] at h
    split at h
    · cases h
    · next hgood =>
      have hrest := ih (b := { b with attached := c :: b.attached }) h
      exact List.forall_mem_cons.2 ⟨Nat.lt_of_not_le fun hmissing => hgood (.inl hmissing), hrest⟩

/-- Without checks all that is needed for a node are its children. -/
theorem exists_call_node (kind : NodeKind) (place : Position)
    (hlt : ∀ c ∈ children, c < b.arena.nodes.size) :
    ∃ b', b.call false (.node kind children place) = some b' ∧
      b'.arena = b.arena.pushNode kind children place := by
  refine ⟨⟨b.arena.pushNode kind children place, children.reverse ++ b.attached⟩, ?_, rfl⟩
  rw [call, attach_careless hlt, Option.map_some]

/-- A call gives more nodes a parent, and notes it. A careful builder does the same, as long as no
node gets two. -/
theorem exists_of_call {c : Call} (h : b.call false c = some b') :
    ∃ children, b'.arena.attached = b.arena.attached ++ children ∧
      b'.attached = children.reverse ++ b.attached ∧
      (b'.attached.Nodup → b.call true c = some b') := by
  cases c with
  | leaf t =>
    obtain rfl := Option.some.inj h
    exact ⟨[], by rw [Arena.attached_pushLeaf, List.append_nil], rfl, fun _ => rfl⟩
  | node kind children place =>
    obtain ⟨b₁, hattach, rfl⟩ := Option.map_eq_some_iff.1 h
    have hlt := lt_of_attach hattach
    obtain rfl := Option.some.inj ((attach_careless hlt).symm.trans hattach)
    refine ⟨children, Arena.attached_pushNode kind place hlt, rfl, fun hnew => ?_⟩
    rw [call, attach_eq hlt fun _ => hnew, Option.map_some]

theorem perform_concat (careful : Bool) (b : TreeBuilder) (calls : List Call) (c : Call) :
    b.perform careful (calls ++ [c]) = (b.perform careful calls).bind (·.call careful c) := by
  rw [perform, List.foldlM_append]
  cases h : calls.foldlM (call careful) b with
  | none => simp [perform, h]
  | some b' => simp [perform, h]

/-- The notes of a builder are right, and a careful builder gets as far as another one that gives no
node two parents. -/
theorem perform_careful (h : empty.perform false calls = some b) :
    b.attached.Perm b.arena.attached ∧
      (b.attached.Nodup → empty.perform true calls = some b) := by
  induction calls using List.reverseRecOn generalizing b with
  | nil =>
    obtain rfl := Option.some.inj h
    exact ⟨.nil, fun _ => rfl⟩
  | append_singleton calls c ih =>
    rw [perform_concat] at h
    obtain ⟨b₁, hcalls, hcall⟩ := Option.bind_eq_some_iff.1 h
    obtain ⟨hnoted, hcareful⟩ := ih hcalls
    obtain ⟨children, harena, hattached, hcall⟩ := exists_of_call hcall
    refine ⟨?_, fun hnew => ?_⟩
    · rw [harena, hattached]
      exact (children.reverse_perm.append hnoted).trans List.perm_append_comm
    · have hbefore : b₁.attached.Nodup := hnew.sublist (hattached ▸ List.sublist_append_right ..)
      rw [perform_concat, hcareful hbefore, Option.bind_some]
      exact hcall hnew

/-- **A careful builder makes each tree in which every node but the root has one place**: whatever
calls have led to the tree, no check fails. -/
theorem build_careful (ht : t.attached.Perm (List.range t.root))
    (h : build false calls children place = some t) : build true calls children place = some t := by
  obtain ⟨b, hcalls, hfinish⟩ := Option.bind_eq_some_iff.1 h
  obtain ⟨b', hroot, hfinish⟩ := Option.bind_eq_some_iff.1 hfinish
  rw [if_neg (by simp)] at hfinish
  obtain rfl := Option.some.inj hfinish
  obtain ⟨hnoted, hcareful⟩ := perform_careful hcalls
  obtain ⟨new, harena, hattached, hcall⟩ := exists_of_call hroot
  have hperm : b'.attached.Perm (List.range b.arena.nextId) := by
    refine .trans ?_ ht
    rw [harena, hattached]
    exact (new.reverse_perm.append hnoted).trans List.perm_append_comm
  have hnew : b'.attached.Nodup := hperm.nodup_iff.2 List.nodup_range
  have hbefore : b.attached.Nodup := hnew.sublist (hattached ▸ List.sublist_append_right ..)
  have hall : ¬∃ id ∈ List.range b.arena.nextId, id ∉ b'.attached := fun ⟨id, hid, hmissing⟩ =>
    hmissing (hperm.mem_iff.2 hid)
  rw [build, hcareful hbefore, Option.bind_some, finish,
    hcall hnew, Option.bind_some, if_neg fun hbad => hall hbad.2]

end TreeBuilder

namespace Arena

variable {a a' : Arena} {row row' : List NodeId}

/-- The growth of a row is the work of a builder, which finds every node that it needs. -/
theorem Grows.performs {taken : List Token} (h : a.Grows row taken a' row')
    (hrow : ∀ id ∈ row, id < a.nodes.size) {b : TreeBuilder} (hb : b.arena = a) :
    ∃ calls b', b.perform false calls = some b' ∧ b'.arena = a' := by
  induction h with
  | refl => exact ⟨[], b, rfl, hb⟩
  | leaf t _ ih =>
    obtain ⟨calls, b', hcalls, rfl⟩ := ih
    refine ⟨calls ++ [.leaf t], { b' with arena := b'.arena.pushLeaf t }, ?_, rfl⟩
    rw [TreeBuilder.perform_concat, hcalls]
    rfl
  | @node taken a' before children kind hkind place hgrows ih =>
    obtain ⟨calls, b', hcalls, rfl⟩ := ih
    have hlt : ∀ c ∈ children, c < b'.arena.nodes.size := fun c hc =>
      hgrows.lt hrow c (List.mem_append_right _ hc)
    obtain ⟨b'', hcall, harena⟩ := TreeBuilder.exists_call_node kind place hlt
    refine ⟨calls ++ [.node kind children place], b'', ?_, harena⟩
    rw [TreeBuilder.perform_concat, hcalls]
    exact hcall

/-- So is the tree that is made of the row. -/
theorem Grows.builds {taken : List Token} (h : Arena.empty.Grows [] taken a row)
    (place : Position) :
    ∃ calls, TreeBuilder.build false calls row place = some (a.finish row place) := by
  obtain ⟨calls, b, hcalls, rfl⟩ := h.performs nofun (b := .empty) rfl
  obtain ⟨b', hroot, harena⟩ := TreeBuilder.exists_call_node .root place (h.lt nofun)
  refine ⟨calls, ?_⟩
  rw [TreeBuilder.build, hcalls, Option.bind_some, TreeBuilder.finish, hroot, Option.bind_some,
    if_neg (by simp), harena]
  rfl

end Arena

end FrontEnd
