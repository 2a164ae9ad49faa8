import FrontEnd.Proofs.Parser.Moves

/-!
# Parses that leave no trace of an error

As long as the parser only reads, takes tokens and makes nodes, nothing gets into the reports and no
error node gets into the tree.

- `ParseState.Quiet`: no report, no unknown token to come, no error node;
- `ParseState.Quiet.fill`, `ParseState.Quiet.takeLeaf`, `ParseState.Quiet.pushNode`,
  `ParseState.Quiet.select`: the operations that keep it;
- `ParseState.Quiet.finish`: **a parse that ends quietly answers without reports and error nodes**.
-/

namespace FrontEnd

namespace ParseState

/-- Nothing has been reported, no token to come is unknown, and no node stands for an error. -/
structure Quiet (st : ParseState) : Prop where
  filed : st.filed = []
  known : .unknown ∉ st.ids
  spotless : ∀ node ∈ st.arena.nodes, node.kind ≠ .error

variable {st : ParseState}

namespace Quiet

/-- Reading reports unknown tokens only. -/
theorem stream (h : st.Quiet) {read : List Token} {n : Nat} {s : TokenStream}
    (hadv : st.stream.Advances read n s) : ({ st with stream := s } : ParseState).Quiet where
  filed := by
    have hknown : ∀ t ∈ st.stream.upcoming, t.id ≠ .unknown := by
      intro t ht hid
      exact h.known (hid ▸ List.mem_map_of_mem ht)
    have hfiled := h.filed
    rw [ParseState.filed] at hfiled ⊢
    rw [← hfiled]
    exact congrArg (st.reports.toList ++ st.pending ++ ·) (hadv.reported_eq hknown)
  known := by
    have hids := (takes_stream hadv).ids
    rw [hids]
    exact fun hmem => h.known (List.mem_of_mem_drop hmem)
  spotless := h.spotless

theorem fill (h : st.Quiet) (k : Nat) : (st.fill k).Quiet := by
  obtain ⟨read, hadv⟩ := st.stream.advances_fill k
  exact h.stream hadv

theorem pushNode (h : st.Quiet) {kind : NodeKind} (hkind : kind ≠ .error) (children : List NodeId)
    (place : Position) : (st.pushNode kind children place).2.Quiet where
  filed := h.filed
  known := h.known
  spotless := by
    intro node hnode
    rcases Array.mem_push.1 hnode with hnode | rfl
    · exact h.spotless node hnode
    · exact hkind

theorem takeLeaf (h : st.Quiet) : st.takeLeaf.2.Quiet := by
  obtain ⟨read, hadv⟩ := st.stream.advances_consume
  have hstream := h.stream hadv
  refine ⟨hstream.filed, hstream.known, ?_⟩
  intro node hnode
  rcases Array.mem_push.1 hnode with hnode | rfl
  · exact hstream.spotless node hnode
  · nofun

end Quiet

/-! ## Choice -/

variable {alternatives : List Alternative}

/-- Without guards nothing is looked at. -/
theorem selectGuarded_of_unguarded (st : ParseState) (h : ∀ a ∈ alternatives, a.guard = []) :
    st.selectGuarded alternatives = (none, st) := by
  induction alternatives with
  | nil => rfl
  | cons a rest ih =>
    have ha : a.guard.isEmpty = true := by rw [h a List.mem_cons_self]; rfl
    rw [selectGuarded, if_pos ha]
    exact ih fun b hb => h b (List.mem_cons_of_mem _ hb)

/-- An unguarded choice with one candidate at most reports nothing. -/
theorem Quiet.select (h : st.Quiet) (g : Grammar) (r : Nat)
    (hguard : ∀ a ∈ alternatives, a.guard = [])
    (hone : (candidates alternatives st.next).length ≤ 1) :
    (st.select g r alternatives).2.Quiet := by
  have hfill := h.fill 0
  rw [ParseState.select, selectGuarded_of_unguarded st hguard]
  simp only [id_current_fill]
  cases hc : candidates alternatives st.next with
  | nil => exact hfill
  | cons a others =>
    cases others with
    | nil => exact hfill
    | cons b rest =>
      rw [hc, List.length_cons, List.length_cons] at hone
      omega

end ParseState

/-! ## The answer -/

/-- A parse that ends quietly answers without reports and without error nodes. -/
theorem ParseState.Quiet.finish {m : Machine} (h : m.state.Quiet) (hend : m.state.next = .eof) :
    (Parser.finish m).diagnostics = [] ∧ (Parser.finish m).tree.errorNodes = [] := by
  have hfill := h.fill 0
  unfold Parser.finish
  simp only [ParseState.id_current_fill, if_pos hend]
  constructor
  · rw [ParseState.allReports_eq]
    exact hfill.filed
  · have hkind : NodeKind.root ≠ .error := nofun
    have hroot := hfill.pushNode hkind m.nodes.reverse (m.state.fill 0).current.position
    refine List.filter_eq_nil_iff.2 fun id _ hid => ?_
    rw [beq_iff_eq, SyntaxTree.kind?, Option.map_eq_some_iff] at hid
    obtain ⟨node, hnode, hkind⟩ := hid
    exact hroot.spotless node (Array.mem_of_getElem? hnode) hkind

end FrontEnd
