import CollabDatatypes.Graph.History

/-! # Two replicas that differ in the edges of one vertex

Two histories of the same operations that do the same to the vertices (`Alike`) may still leave
different entries for the edges of a vertex `k`, as when a clear of these edges changes its place among
older `add_edge`s. Operations that both receive from then on show the same edges of `k` in both, until
one of three kinds of steps: an `add_edge` takes effect on the edge in one of them only (`AddsEdgeIn`);
`k` comes back with an edge that is there in one of them only (`ExposesEdgeIn`); a clear takes an edge
in one of them, and the other skips it (`KeepsEdgeIn`). -/

namespace CollabDatatypes.Graph

open CollabDatatypes.Lib CollabDatatypes.CmRDT CollabDatatypes.Container

variable {Key U : Type*} [LinearOrder U]

namespace View

variable {g g' : View Key U} {o : GraphOp Key U} {k v : Key} {s t : U}

/-! ### Steps that part the two -/

variable [DecidableEq Key] [Zero U]

omit [DecidableEq Key] [Zero U] in
theorem addedEdge_congr {u : Key} (hadj : g'.adj = g.adj)
    (h : g'.touchedEdge u v s = g.touchedEdge u v s) : g'.addedEdge u v s = g.addedEdge u v s := by
  unfold addedEdge repairs highTime touched
  rw [h, hadj]

/-- The histories consist of the same operations, and do the same to the vertices. -/
structure Alike (d d' : List (GraphOp Key U)) : Prop where
  mem : ∀ o, o ∈ d' ↔ o ∈ d
  vertex : d'.flatMap vertexOps = d.flatMap vertexOps

section Histories

variable {d d' : List (GraphOp Key U)}

omit [LinearOrder U] [DecidableEq Key] in
theorem Alike.symm (h : Alike d d') : Alike d' d := ⟨fun o => (h.mem o).symm, h.vertex.symm⟩

theorem Alike.adj (h : Alike d d') :
    ((machine Key U).run d').adj = ((machine Key U).run d).adj := by
  rw [adj_run, adj_run, h.vertex]

end Histories

end View

end CollabDatatypes.Graph
