import CollabDatatypes.Graph.Refine
import CollabDatatypes.Graph.History

/-! # Delivering an operation again

An operation that was delivered once is in the state for good, as far as its own vertices, its own
edge and its own clear are concerned: a second delivery leaves all vertices alone
(`vertex_redelivered`), and an `add_vertex` or a `remove_edge` changes nothing at all. The others
also act on edges that may have come in the meantime, and find them: `Absorbed` says of a state when
they do not, and `redelivery_iff` that exactly then nothing changes. -/

namespace CollabDatatypes.Graph

open CollabDatatypes.Lib CollabDatatypes.CmRDT CollabDatatypes.Container

variable {Key U : Type*} [LinearOrder U]

namespace View

omit [LinearOrder U] in
/-- All vertices and all edges have the same entries. -/
def SameEntries (g g' : View Key U) : Prop :=
  (∀ k, g.adj.cell k = g'.adj.cell k) ∧ ∀ u v, (g.edges u).cell v = (g'.edges u).cell v

/-- A clear of the edges of `u` would find one that is older, and no newer clear. -/
def EdgesCleared (g : View Key U) (u : Key) (s : U) : Prop :=
  (g.edges u).clearTime < s → ∀ v e, (g.edges u).cell v = some e → s ≤ e.timestamp

/-- The state has nothing to change for an operation that was delivered before: no visible edge is
older than the removal of its destination, the edge to add has visible endpoints if it is visible,
the edge sets to clear have been cleared. -/
def Absorbed (g : View Key U) : GraphOp Key U → Prop
  | .addVertex _ _ => True
  | .removeVertex k s => ∀ w t, w ≠ k → (g.edges w).cell k = some ⟨t, false⟩ → s ≤ t
  | .addEdge u v _ => live ((g.edges u).cell v) = true →
      live (g.adj.cell u) = true ∧ live (g.adj.cell v) = true
  | .removeEdge _ _ _ => True
  | .clearVertices s => ∀ u, live (g.adj.cell u) = true → EdgesCleared g u s
  | .clearVertexEdges k s => (g.adj.cell k).isSome = true → EdgesCleared g k s

variable [DecidableEq Key] [Zero U] {d : List (GraphOp Key U)} {u v k : Key} {s : U}

/-! ### Vertices -/

theorem vertex_redelivered {o : GraphOp Key U} (ho : o ∈ d) (k : Key) :
    (((machine Key U).run d).apply o).1.adj.cell k = ((machine Key U).run d).adj.cell k := by
  rcases vertex_cases ((machine Key U).run d) o k with ⟨ht, hx⟩ | ⟨s, rfl, hx⟩ |
    ⟨u, v, s, rfl, hk, hx⟩ | ⟨s, rfl, hx⟩ | ⟨-, hx⟩
  · obtain ⟨e, he, hle⟩ := vertex_le ho (Or.inl ht)
    rw [hx, touched, he, addCell_of_le hle]
  · obtain ⟨e, he, hle⟩ := vertex_le (k := k) ho (Or.inr ⟨s, rfl⟩)
    rw [hx, he]
    exact congrArg some (write_of_le hle true)
  · obtain ⟨e, he, hle⟩ := vertex_of_removeEdge ho hk
    rw [hx, he, removeCell, write_of_le hle]
  · rw [hx, clearCell_of_le (clearVertices_le ho)]
  · exact hx

/-! ### Edges -/

theorem removeVertex_redelivered_iff (ho : .removeVertex k s ∈ d) :
    (∀ w x, ((((machine Key U).run d).removeVertex k s).edges w).cell x =
        (((machine Key U).run d).edges w).cell x) ↔
      ∀ w t, w ≠ k → (((machine Key U).run d).edges w).cell k = some ⟨t, false⟩ → s ≤ t := by
  constructor
  · intro h w t hw ht
    by_contra hts
    cases (edge_of_removeVertex hw ht (not_le.mp hts)).symm.trans ((h w k).trans ht)
  · intro h w x
    rw [removeVertex_cell]
    split_ifs with hw hx
    · rw [hw]
      exact clearCell_of_le (edgeClear_le ho) _
    · obtain ⟨rfl, hl⟩ := hx
      obtain ⟨t, ht⟩ := live_iff.mp hl
      rw [ht, removeCell, write_of_le (h w t hw ht)]
    · rfl

theorem addEdge_redelivered_iff (h : Stamped GraphOp.stamp d) (ho : .addEdge u v s ∈ d) :
    (∀ w x, ((((machine Key U).run d).addEdge u v s).edges w).cell x =
        (((machine Key U).run d).edges w).cell x) ↔
      (live ((((machine Key U).run d).edges u).cell v) = true →
        live (((machine Key U).run d).adj.cell u) = true ∧
          live (((machine Key U).run d).adj.cell v) = true) := by
  constructor
  · intro hsame hl
    have hd : Stamped GraphOp.stamp (d ++ [.addEdge u v s]) := by
      refine h.of_subset fun o hmem => (List.mem_append.mp hmem).elim id fun hmem => ?_
      exact List.mem_singleton.mp hmem ▸ ho
    have hends : ∀ k, k = u ∨ k = v → live (((machine Key U).run d).adj.cell k) = true := by
      intro k hk
      rw [← vertex_redelivered ho, ← run_concat]
      refine ends_live_of_addEdge hd ?_ hk
      rw [run_concat]
      exact (congrArg live (hsame u v)).trans hl
    exact ⟨hends u (Or.inl rfl), hends v (Or.inr rfl)⟩
  · intro hends w x
    obtain ⟨e, he, hle⟩ := edge_le (Or.inl ho)
    have hedge : ((machine Key U).run d).touchedEdge u v s = e := by
      unfold touchedEdge
      rw [he]
      exact addCell_of_le hle
    rw [addEdge_cell]
    split_ifs with hwx
    · obtain ⟨rfl, rfl⟩ := hwx
      by_cases hl : live ((((machine Key U).run d).edges w).cell x) = true
      · have hboth : ∀ k, k = w ∨ k = x → live (((machine Key U).run d).adj.cell k) = true := by
          rintro k (rfl | rfl)
          · exact (hends hl).1
          · exact (hends hl).2
        rw [he, ← hedge]
        exact ((addEdge_cell _ w x w x s).trans (if_pos ⟨rfl, rfl⟩)).symm.trans
          (edge_of_live_ends fun k hk => Or.inl (hboth k hk))
      · rw [he, live_some, Bool.not_eq_true, Bool.not_eq_false'] at hl
        rw [addedEdge, repairs, hedge, hl, he]
        rfl
    · rfl

theorem removeEdge_redelivered (ho : .removeEdge u v s ∈ d) (w x : Key) :
    ((((machine Key U).run d).removeEdge u v s).edges w).cell x =
      (((machine Key U).run d).edges w).cell x := by
  rw [removeEdge_cell]
  split_ifs with hwx
  · obtain ⟨rfl, rfl⟩ := hwx
    obtain ⟨e, he, hle⟩ := edge_le (Or.inr ho)
    rw [he, removeCell, write_of_le hle]
  · rfl

omit [DecidableEq Key] [Zero U] in
theorem edgesCleared_iff {g : View Key U} :
    EdgesCleared g u s ↔
      ∀ x, clearCell (g.edges u).clearTime s ((g.edges u).cell x) = (g.edges u).cell x := by
  simp only [clearCell_eq_iff]
  exact ⟨fun h x hs e => h hs x e, fun h hs x e => h x hs e⟩

omit [DecidableEq Key] [Zero U] in
theorem clearVertices_redelivered_iff {g : View Key U} :
    (∀ w x, ((g.clearVertices s).edges w).cell x = (g.edges w).cell x) ↔
      ∀ u, live (g.adj.cell u) = true → EdgesCleared g u s := by
  simp only [clearVertices_cell, edgesCleared_iff]
  refine forall_congr' fun w => ?_
  by_cases hl : live (g.adj.cell w) = true <;> simp [hl]

omit [Zero U] in
theorem clearVertexEdges_redelivered_iff {g : View Key U} :
    (∀ w x, ((g.clearVertexEdges k s).edges w).cell x = (g.edges w).cell x) ↔
      ((g.adj.cell k).isSome = true → EdgesCleared g k s) := by
  simp only [clearVertexEdges_cell, edgesCleared_iff]
  constructor
  · intro h hp x
    have := h k x
    rwa [if_pos ⟨rfl, hp⟩] at this
  · intro h w x
    split_ifs with hw
    · obtain ⟨rfl, hp⟩ := hw
      exact h hp x
    · rfl

theorem redelivered_iff (h : Stamped GraphOp.stamp d) {o : GraphOp Key U} (ho : o ∈ d) :
    SameEntries ((machine Key U).run (d ++ [o])) ((machine Key U).run d) ↔
      Absorbed ((machine Key U).run d) o := by
  rw [run_concat]
  refine (and_iff_right (vertex_redelivered ho)).trans ?_
  cases o with
  | addVertex k s => exact iff_of_true (fun _ _ => rfl) trivial
  | removeVertex k s => exact removeVertex_redelivered_iff ho
  | addEdge u v s => exact addEdge_redelivered_iff h ho
  | removeEdge u v s => exact iff_of_true (removeEdge_redelivered ho) trivial
  | clearVertices s => exact clearVertices_redelivered_iff
  | clearVertexEdges k s => exact clearVertexEdges_redelivered_iff

end View

end CollabDatatypes.Graph

namespace CollabDatatypes.CmRDT.LWWGraph

open CollabDatatypes.Lib CollabDatatypes.Container CollabDatatypes.Graph

variable {Key T U : Type*} [DecidableEq Key] [LinearOrder U] [Zero U] [Inhabited T]

/-- **When delivering an operation again is harmless**: every entry of the graph stays the same
exactly when its state has absorbed the operation. -/
theorem redelivery_iff {d : List (GraphOp Key U)} (h : Stamped GraphOp.stamp d)
    {o : GraphOp Key U} (ho : o ∈ d) :
    View.SameEntries ((machine Key T U).run (d ++ [o])).view ((machine Key T U).run d).view ↔
      View.Absorbed ((machine Key T U).run d).view o := by
  rw [view_run, view_run]
  exact View.redelivered_iff h ho

theorem redelivery_iff_removeVertex :
    View.SameEntries
        ((machine ℕ Unit ℕ).run ([.addEdge 0 1 3, .removeVertex 1 5] ++ [.removeVertex 1 5])).view
        ((machine ℕ Unit ℕ).run [.addEdge 0 1 3, .removeVertex 1 5]).view ↔
      View.Absorbed ((machine ℕ Unit ℕ).run [.addEdge 0 1 3, .removeVertex 1 5]).view
        (.removeVertex 1 5) :=
  redelivery_iff (by decide) (by simp)

/-- The edges of vertex 0 are cleared at 10 before there is a vertex 0; an `add_edge` at 3 then adds
one, and a second delivery of the clear removes it. -/
theorem redelivery_clears :
    Stamped GraphOp.stamp [.clearVertexEdges 0 10, .addEdge 0 1 3] ∧
    .clearVertexEdges 0 10 ∈ [GraphOp.clearVertexEdges 0 10, .addEdge 0 1 3] ∧
    ¬ View.SameEntries
      ((machine ℕ Unit ℕ).run
        ([.clearVertexEdges 0 10, .addEdge 0 1 3] ++ [.clearVertexEdges 0 10])).view
      ((machine ℕ Unit ℕ).run [.clearVertexEdges 0 10, .addEdge 0 1 3]).view := by
  refine ⟨by decide, by simp, fun h => ?_⟩
  exact absurd (h.2 0 1) (by decide)

end CollabDatatypes.CmRDT.LWWGraph
