import CollabDatatypes.Graph.Refine
import CollabDatatypes.Graph.History

/-! # What a `remove_vertex` leaves behind

A vertex that a `remove_vertex` has just removed has no visible edge left, except for this: the edges
out of it are removed by a clear of its edge set, and the edge set skips the clear when it has seen a
newer one. An edge that is there nevertheless was planted by a `remove_edge`; it stays, and is visible
again as soon as the vertex is (`removal_complete_iff`). The edges into the vertex are all older than
the vertex, and none of them is left. -/

namespace CollabDatatypes.Graph

open CollabDatatypes.Lib CollabDatatypes.CmRDT CollabDatatypes.Container

variable {Key U : Type*} [LinearOrder U]

namespace View

variable {g : View Key U} {u v k : Key} {s : U}

/-- A clear of the edge set of `k` with the stamp `s` is skipped, and the set has a visible edge. -/
def SkipsEdgeClear (g : View Key U) (k : Key) (s : U) : Prop :=
  s ≤ (g.edges k).clearTime ∧ ∃ v, live ((g.edges k).cell v) = true

variable [DecidableEq Key] [Zero U]

theorem removeVertex_result :
    (g.apply (.removeVertex k s)).2 = .bool true ↔ ∃ t, g.adj.cell k = some ⟨t, false⟩ ∧ t < s := by
  have hcell := g.adj.remove_cell_self k s
  show Result.bool _ = _ ↔ _
  rw [Result.bool.injEq, Bool.and_eq_true, live_iff, hcell, live_some, Bool.not_not]
  constructor
  · rintro ⟨⟨t, ht⟩, hr⟩
    refine ⟨t, ht, ?_⟩
    by_contra hts
    rw [ht, removeCell, write_of_le (not_lt.mp hts)] at hr
    cases hr
  · rintro ⟨t, ht, hts⟩
    exact ⟨⟨t, ht⟩, by rw [ht, removeCell, write_of_lt hts]⟩

/-- **The edges of a vertex after its removal**: an edge is visible if it was, goes out of the vertex
and belongs to a set that skips the clear. -/
theorem live_edge_of_removeVertex {d : List (GraphOp Key U)}
    (hr : (((machine Key U).run d).apply (.removeVertex k s)).2 = .bool true)
    (huv : u = k ∨ v = k) :
    live (((((machine Key U).run d).apply (.removeVertex k s)).1.edges u).cell v) = true ↔
      live ((((machine Key U).run d).edges u).cell v) = true ∧
        u = k ∧ s ≤ (((machine Key U).run d).edges u).clearTime := by
  obtain ⟨tk, htk, hlt⟩ := removeVertex_result.mp hr
  -- the entry of the vertex bounds the stamps of its visible edges
  have hold : ∀ {t}, (((machine Key U).run d).edges u).cell v = some ⟨t, false⟩ → t < s := by
    intro t ht
    obtain ⟨e, he, hle⟩ := edge_dominated ht (huv.imp Eq.symm Eq.symm)
    obtain rfl := Option.some.inj (htk.symm.trans he)
    exact hle.trans_lt hlt
  constructor
  · intro hl
    obtain ⟨t, ht⟩ := live_iff.mp hl
    have hkept : (((machine Key U).run d).edges u).cell v = some ⟨t, false⟩ :=
      (live_edge_step ht).resolve_right fun ho => by cases ho.1
    have huk : u = k := by
      by_contra hne
      obtain rfl := huv.resolve_left hne
      cases (edge_of_removeVertex hne hkept (hold hkept)).symm.trans ht
    refine ⟨live_iff.mpr ⟨t, hkept⟩, huk, ?_⟩
    by_contra hs
    have hle := le_of_clearsEdges (Or.inl (by rw [huk])) (not_le.mp hs) ht
    exact (hold hkept).not_ge hle
  · rintro ⟨hl, rfl, hs⟩
    rw [edges_of_clears (Or.inl rfl), Cells.clear_cell, clearCell_of_le hs]
    exact hl

end View

end CollabDatatypes.Graph

namespace CollabDatatypes.CmRDT.LWWGraph

open CollabDatatypes.Lib CollabDatatypes.Container CollabDatatypes.Graph

variable {Key T U : Type*} [DecidableEq Key] [LinearOrder U] [Zero U]

omit [LinearOrder U] [Zero U] in
/-- No edge entry out of `k` or into `k` is left that is not removed, whether its origin is visible or
not. -/
def NoEdgeOf (g : LWWGraph Key T U) (k : Key) : Prop :=
  ∀ u v, u = k ∨ v = k → ∀ vertex, g.adj.crdtFind u = some vertex →
    ∀ edge, vertex.value.edges.crdtFind v = some edge → edge.isRemoved = true

omit [LinearOrder U] in
theorem noEdgeOf_iff (g : LWWGraph Key T U) (k : Key) :
    g.NoEdgeOf k ↔ ∀ u v, u = k ∨ v = k → live ((g.view.edges u).cell v) = false := by
  refine forall_congr' fun u => forall_congr' fun v => imp_congr_right fun _ => ?_
  rw [← edgeEntry_eq]
  unfold edgeEntry
  cases g.adj.crdtFind u with
  | none => simp
  | some vertex => cases he : vertex.value.edges.crdtFind v <;> simp [he]

variable [Inhabited T]

theorem hasEdge_addVertex {g : LWWGraph Key T U} {k : Key} (h : g.NoEdgeOf k) (t : U)
    (u v : Key) : (g.addVertex k t).1.hasEdge u v = g.hasEdge u v := by
  rw [hasEdge_eq, hasEdge_eq, (view_addVertex g k t).1]
  show (live ((g.view.adj.add k t).cell u) && live ((g.view.edges u).cell v)) = _
  by_cases huk : u = k
  · rw [(noEdgeOf_iff g k).mp h u v (Or.inl huk), Bool.and_false, Bool.and_false]
  · rw [Cells.add_cell_of_ne _ huk]

/-- **When a `remove_vertex` leaves no edge behind**: a vertex that it has just removed has no visible
edge left, and comes back without edges, exactly when the clear of its edge set was not skipped or
there was no edge to clear. -/
theorem removal_complete_iff {d : List (GraphOp Key U)} {k : Key} {s : U}
    (hr : (((machine Key T U).run d).removeVertex k s).2 = true) :
    ((((machine Key T U).run d).removeVertex k s).1.NoEdgeOf k ∧
        ∀ t, s < t → ∀ u v,
          ((((machine Key T U).run d).removeVertex k s).1.addVertex k t).1.hasEdge u v =
            (((machine Key T U).run d).removeVertex k s).1.hasEdge u v) ↔
      ¬ View.SkipsEdgeClear ((machine Key T U).run d).view k s := by
  have hview : (((machine Key T U).run d).removeVertex k s).1.view =
      (((View.machine Key U).run d).apply (.removeVertex k s)).1 := by
    rw [← view_run (T := T)]
    exact (view_removeVertex _ k s).1
  have hres : (((View.machine Key U).run d).apply (.removeVertex k s)).2 = .bool true := by
    rw [← view_run (T := T), ← hr]
    exact ((view_apply _ (.removeVertex k s)).2).symm
  have hedges : (((machine Key T U).run d).removeVertex k s).1.NoEdgeOf k ↔
      ¬ View.SkipsEdgeClear ((machine Key T U).run d).view k s := by
    rw [noEdgeOf_iff, hview, view_run]
    simp only [← Bool.not_eq_true]
    constructor
    · rintro hno ⟨hs, v, hl⟩
      exact hno k v (Or.inl rfl)
        ((View.live_edge_of_removeVertex hres (Or.inl rfl)).mpr ⟨hl, rfl, hs⟩)
    · intro hskip u v huv hl
      obtain ⟨hold, rfl, hs⟩ := (View.live_edge_of_removeVertex hres huv).mp hl
      exact hskip ⟨hs, v, hold⟩
  exact ⟨fun hno => hedges.mp hno.1,
    fun hskip => ⟨hedges.mpr hskip, fun t _ => hasEdge_addVertex (hedges.mpr hskip) t⟩⟩

theorem removal_complete_iff_newer :
    ((((machine ℕ Unit ℕ).run [.addEdge 0 1 3, .addEdge 1 0 4]).removeVertex 0 5).1.NoEdgeOf 0 ∧
        ∀ t, 5 < t → ∀ u v,
          ((((machine ℕ Unit ℕ).run [.addEdge 0 1 3, .addEdge 1 0 4]).removeVertex
            0 5).1.addVertex 0 t).1.hasEdge u v =
          (((machine ℕ Unit ℕ).run [.addEdge 0 1 3, .addEdge 1 0 4]).removeVertex
            0 5).1.hasEdge u v) ↔
      ¬ View.SkipsEdgeClear ((machine ℕ Unit ℕ).run [.addEdge 0 1 3, .addEdge 1 0 4]).view 0 5 :=
  removal_complete_iff (by decide)

/-- The edges of vertex 0 have seen a clear at 30 when an edge of the stamp 4 is added, over the
tombstone of a `remove_edge`; the removal of the vertex at 10 leaves this edge, and it is visible once
the vertex is added again. -/
theorem removed_vertex_keeps_edge :
    Stamped GraphOp.stamp [.addVertex 0 5, .clearVertexEdges 0 30, .removeEdge 0 1 3,
      .addEdge 0 1 4, .removeVertex 0 10, .addVertex 0 11] ∧
    (((machine ℕ Unit ℕ).run [.addVertex 0 5, .clearVertexEdges 0 30, .removeEdge 0 1 3,
      .addEdge 0 1 4]).removeVertex 0 10).2 = true ∧
    ¬ (((machine ℕ Unit ℕ).run [.addVertex 0 5, .clearVertexEdges 0 30, .removeEdge 0 1 3,
      .addEdge 0 1 4]).removeVertex 0 10).1.NoEdgeOf 0 ∧
    (((machine ℕ Unit ℕ).run [.addVertex 0 5, .clearVertexEdges 0 30, .removeEdge 0 1 3,
      .addEdge 0 1 4]).removeVertex 0 10).1.hasEdge 0 1 = false ∧
    ((((machine ℕ Unit ℕ).run [.addVertex 0 5, .clearVertexEdges 0 30, .removeEdge 0 1 3,
      .addEdge 0 1 4]).removeVertex 0 10).1.addVertex 0 11).1.hasEdge 0 1 = true := by
  refine ⟨by decide, by decide, fun h => ?_, by decide, by decide⟩
  rw [noEdgeOf_iff] at h
  exact absurd (h 0 1 (Or.inl rfl)) (by decide)

end CollabDatatypes.CmRDT.LWWGraph
