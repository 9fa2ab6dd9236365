import CollabDatatypes.Graph.NoClear
import CollabDatatypes.Graph.Refine

/-! # The vertices of a graph, and what its modifiers report

For the graph itself, in runs without clears: the entries of the vertices are those of a
last-writer-wins map, whatever the order of delivery (`vertex_layer_exact`), and every modifier
reports the change a user can see (`results_exact`). -/

namespace CollabDatatypes.CmRDT.LWWGraph

open CollabDatatypes.Lib CollabDatatypes.Container CollabDatatypes.Graph

variable {Key T U : Type*} [DecidableEq Key] [LinearOrder U] [Zero U] [Inhabited T]

/-! ### Vertices -/

theorem metadata_crdtFind_run (d : List (GraphOp Key U)) (k : Key) :
    (((machine Key T U).run d).adj.crdtFind k).map Element.metadata =
      ((View.machine Key U).run d).adj.cell k := by
  rw [← view_run (T := T) d]
  exact vertexEntry_eq _ k

theorem crdtFind_of_cell {d : List (GraphOp Key U)} {k : Key} {m : Metadata U}
    (h : ((View.machine Key U).run d).adj.cell k = some m) :
    ∃ e, ((machine Key T U).run d).adj.crdtFind k = some e ∧ e.metadata = m :=
  Option.map_eq_some_iff.mp ((metadata_crdtFind_run d k).trans h)

/-- **The vertices are a last-writer-wins map**: a vertex has an entry when it was mentioned; the
entry shows the newest operation that writes the vertex, or the least stamp and a tombstone when only
`remove_edge` named it; and it is the same for every order of delivery. -/
theorem vertex_layer_exact {d : List (GraphOp Key U)} (h : Stamped GraphOp.stamp d)
    (hn : NoClear d) (k : Key) :
    (((machine Key T U).run d).crdtHasVertex k = true ↔ ∃ o ∈ d, Mentions k o) ∧
    ((∃ o ∈ d, Writes k o) → ∃ o, Newest GraphOp.stamp (Writes k) d o ∧
      ∃ e, ((machine Key T U).run d).adj.crdtFind k = some e ∧ e.timestamp = o.stamp ∧
        (e.isRemoved = true ↔ ∃ s, o = .removeVertex k s)) ∧
    ((∃ o ∈ d, Mentions k o) → (¬ ∃ o ∈ d, Writes k o) →
      ∃ e, ((machine Key T U).run d).adj.crdtFind k = some e ∧ e.timestamp = 0 ∧
        e.isRemoved = true) ∧
    ∀ d', (∀ o, o ∈ d' ↔ o ∈ d) →
      (((machine Key T U).run d').adj.crdtFind k).map Element.metadata =
        (((machine Key T U).run d).adj.crdtFind k).map Element.metadata := by
  refine ⟨?_, fun hw => ?_, fun hm hw => ?_, fun d' hd => ?_⟩
  · rw [crdtHasVertex_eq, view_run]
    exact View.vertex_isSome_iff
  · obtain ⟨o, ho⟩ := exists_newest GraphOp.stamp hw
    obtain ⟨e, he, hm⟩ := crdtFind_of_cell (T := T) (View.vertex_newest h hn ho)
    refine ⟨o, ho, e, he, congrArg Metadata.timestamp hm, ?_⟩
    rw [show e.isRemoved = IsRemoveVertex o from congrArg Metadata.isRemoved hm]
    have hmention : Mentions k o := ho.2.1.1
    cases o with
    | removeVertex k' s =>
      obtain rfl : k' = k := hmention
      simp [IsRemoveVertex]
    | _ => simp [IsRemoveVertex]
  · obtain ⟨e, he, hm⟩ := crdtFind_of_cell (T := T) (View.vertex_planted hn hm hw)
    exact ⟨e, he, congrArg Metadata.timestamp hm, congrArg Metadata.isRemoved hm⟩
  · rw [metadata_crdtFind_run, metadata_crdtFind_run]
    exact View.vertex_congr h hn hd k

theorem vertex_layer_exact_removeEdge :
    ((machine ℕ Unit ℕ).run [.addVertex 0 2, .removeEdge 0 1 3]).crdtHasVertex 1 = true :=
  (vertex_layer_exact (by decide) (by decide) 1).1.mpr
    ⟨.removeEdge 0 1 3, by simp, Or.inr rfl⟩

/-! ### Results -/

theorem hasEdge_run {d : List (GraphOp Key U)} (h : Stamped GraphOp.stamp d) (hn : NoClear d)
    (u v : Key) : ((machine Key T U).run d).hasEdge u v =
      live ((((View.machine Key U).run d).edges u).cell v) := by
  rw [hasEdge_eq, view_run]
  cases hl : live ((((View.machine Key U).run d).edges u).cell v) with
  | false => rw [Bool.and_false]
  | true => rw [View.ends_live h hn hl (Or.inl rfl), Bool.true_and]

theorem hasVertex_run (d : List (GraphOp Key U)) (k : Key) :
    ((machine Key T U).run d).hasVertex k = live (((View.machine Key U).run d).adj.cell k) := by
  rw [hasVertex_eq, view_run]

omit [Inhabited T] in
/-- The result `r` of an operation tells what changed from `g` to `g'`. -/
def Reports (g g' : LWWGraph Key T U) : GraphOp Key U → Result → Prop
  | .addVertex k _, .bool b => b = true ↔ g.hasVertex k = false ∧ g'.hasVertex k = true
  | .removeVertex k _, .bool b => b = true ↔ g.hasVertex k = true ∧ g'.hasVertex k = false
  | .addEdge u v _, .info i =>
    (i.isEdgeAdded = true ↔ g.hasEdge u v = false ∧ g'.hasEdge u v = true) ∧
    (i.isFromAdded = true ↔ g.hasVertex u = false ∧ g'.hasVertex u = true) ∧
    (i.isToAdded = true ↔ u ≠ v ∧ g.hasVertex v = false ∧ g'.hasVertex v = true)
  | .removeEdge u v _, .bool b => b = true ↔ g.hasEdge u v = true ∧ g'.hasEdge u v = false
  | _, _ => False

/-- **Every modifier reports the visible change.** -/
theorem results_exact {d : List (GraphOp Key U)} {o : GraphOp Key U}
    (h : Stamped GraphOp.stamp (d ++ [o])) (hn : NoClear (d ++ [o])) :
    Reports ((machine Key T U).run d) (((machine Key T U).run d).apply o).1 o
      (((machine Key T U).run d).apply o).2 := by
  have hafter : (((machine Key T U).run d).apply o).1 = (machine Key T U).run (d ++ [o]) :=
    (Machine.run_concat (machine Key T U) d o).symm
  have hview := View.run_concat d o
  rw [(view_apply _ o).2, view_run, hafter]
  have hd := h.of_append
  have hnd := hn.of_append
  cases o with
  | addVertex k s =>
    show _ ↔ _ ∧ _
    rw [hasVertex_run, hasVertex_run, hview, Bool.and_eq_true, Bool.not_eq_true']
    exact Iff.rfl
  | removeVertex k s =>
    show _ ↔ _ ∧ _
    rw [hasVertex_run, hasVertex_run, hview, Bool.and_eq_true, Bool.not_eq_true']
    exact Iff.rfl
  | addEdge u v s =>
    refine ⟨?_, ?_, ?_⟩
    · have hlive := View.live_edge_of_addEdge h
      show (_ && _ && _) = true ↔ _
      rw [hasEdge_run hd hnd, hasEdge_run h hn, hlive, Bool.and_assoc, Bool.and_eq_true,
        Bool.not_eq_true']
    · show (_ && _) = true ↔ _
      rw [hasVertex_run, hasVertex_run, View.live_vertex_of_addEdge (Or.inl rfl),
        Bool.and_eq_true, Bool.not_eq_true']
    · show (_ && (_ && _)) = true ↔ _
      rw [hasVertex_run, hasVertex_run, View.live_vertex_of_addEdge (Or.inr rfl),
        Bool.and_eq_true, Bool.and_eq_true, Bool.not_eq_true', decide_eq_true_iff]
  | removeEdge u v s =>
    have hedge : (((View.machine Key U).run (d ++ [.removeEdge u v s])).edges u).cell v =
        ((((View.machine Key U).run d).edges u).remove v s).cell v := by
      rw [hview, Cells.remove_cell_self]
      exact (View.removeEdge_cell _ u v u v s).trans (if_pos ⟨rfl, rfl⟩)
    show _ ↔ _ ∧ _
    rw [hasEdge_run hd hnd, hasEdge_run h hn, hedge, Bool.and_eq_true, Bool.not_eq_true']
  | clearVertices s => simpa [IsClear] using hn (.clearVertices s) (by simp)
  | clearVertexEdges k s => simpa [IsClear] using hn (.clearVertexEdges k s) (by simp)

theorem results_exact_late_addEdge :
    Reports ((machine ℕ Unit ℕ).run [.addVertex 0 2, .removeVertex 1 5])
      (((machine ℕ Unit ℕ).run [.addVertex 0 2, .removeVertex 1 5]).apply (.addEdge 0 1 3)).1
      (.addEdge 0 1 3)
      (((machine ℕ Unit ℕ).run [.addVertex 0 2, .removeVertex 1 5]).apply (.addEdge 0 1 3)).2 :=
  results_exact (by decide) (by decide)

end CollabDatatypes.CmRDT.LWWGraph
