import CollabDatatypes.Graph.Refine
import CollabDatatypes.Graph.Step

/-! # The graph, pair by pair

What a graph stores for a pair of keys `(u, v)` is a `Slice`: the entries of the two vertices and of
the edge between them, the time of the last clear of the edges of `u`, and that of the vertices. A
modifier acts on a slice by itself (`slice_apply`): whatever it does to `(u, v)` depends on nothing
else in the graph. A modifier that is about neither key does nothing to it (`step_of_not_about`), so
what a run leaves for a set of keys is what the operations about these keys leave (`subgraph_local`). -/

namespace CollabDatatypes.Graph

open CollabDatatypes.Lib CollabDatatypes.CmRDT CollabDatatypes.Container

variable {Key T U : Type*}

/-- The operation is about a key of `S`: it names one, or it is `clear_vertices`. -/
def about (S : Key → Bool) : GraphOp Key U → Bool
  | .addVertex k _ => S k
  | .removeVertex k _ => S k
  | .addEdge u v _ => S u || S v
  | .removeEdge u v _ => S u || S v
  | .clearVertices _ => true
  | .clearVertexEdges k _ => S k

/-- What a graph stores for a pair of keys. -/
@[ext] structure Slice (U : Type*) where
  clearTime : U
  source : Option (Metadata U)
  target : Option (Metadata U)
  edgesClear : U
  edge : Option (Metadata U)

namespace View

/-- What the graph stores for `(u, v)`. -/
def slice (g : View Key U) (u v : Key) : Slice U :=
  ⟨g.adj.clearTime, g.adj.cell u, g.adj.cell v, (g.edges u).clearTime, (g.edges u).cell v⟩

end View

namespace Slice

section Step

variable [DecidableEq Key] [LinearOrder U]

/-- The entry that `add_edge` leaves for the edge. -/
def addedEdge (x : Slice U) (s : U) : Metadata U :=
  let source := addCell x.clearTime s x.source
  let target := addCell x.clearTime s x.target
  let edge := addCell x.edgesClear s x.edge
  if !edge.isRemoved && (source.isRemoved || target.isRemoved) then
    removeCell (max source.timestamp target.timestamp) (some edge)
  else edge

/-- The time of the last clear of the edges of `u` after an operation. -/
def edgesClearStep (u : Key) (x : Slice U) : GraphOp Key U → U
  | .removeVertex k s => if u = k then max x.edgesClear s else x.edgesClear
  | .clearVertices s => if live x.source then max x.edgesClear s else x.edgesClear
  | .clearVertexEdges k s =>
    if u = k ∧ x.source.isSome then max x.edgesClear s else x.edgesClear
  | _ => x.edgesClear

/-- The entry of the edge after an operation. -/
def edgeStep (u v : Key) (x : Slice U) : GraphOp Key U → Option (Metadata U)
  | .addVertex _ _ => x.edge
  | .removeVertex k s =>
    if u = k then clearCell x.edgesClear s x.edge
    else if v = k ∧ live x.edge = true then some (removeCell s x.edge) else x.edge
  | .addEdge u' v' s => if u = u' ∧ v = v' then some (x.addedEdge s) else x.edge
  | .removeEdge u' v' s => if u = u' ∧ v = v' then some (removeCell s x.edge) else x.edge
  | .clearVertices s => if live x.source then clearCell x.edgesClear s x.edge else x.edge
  | .clearVertexEdges k s =>
    if u = k ∧ x.source.isSome then clearCell x.edgesClear s x.edge else x.edge

/-- The time of the last clear of the vertices after an operation. -/
def clearStep (x : Slice U) : GraphOp Key U → U
  | .clearVertices s => max x.clearTime s
  | _ => x.clearTime

variable [Zero U]

/-- What a modifier does to the slice of `(u, v)`. -/
def step (u v : Key) (x : Slice U) (o : GraphOp Key U) : Slice U where
  clearTime := x.clearStep o
  source := View.vertexCell u o x.clearTime x.source
  target := View.vertexCell v o x.clearTime x.target
  edgesClear := x.edgesClearStep u o
  edge := x.edgeStep u v o

end Step

end Slice

namespace View

variable [DecidableEq Key] [LinearOrder U] [Zero U]

theorem edgesClear_apply (g : View Key U) (o : GraphOp Key U) (u v : Key) :
    ((g.apply o).1.edges u).clearTime = (g.slice u v).edgesClearStep u o := by
  by_cases h : ∃ s, ClearsEdges g u o s
  · obtain ⟨s, hs⟩ := h
    rw [edges_of_clears hs]
    rcases hs with rfl | ⟨rfl, hl⟩ | ⟨rfl, hp⟩
    · exact (if_pos rfl).symm
    · exact (if_pos hl).symm
    · exact (if_pos ⟨rfl, hp⟩).symm
  · rw [clearTime_of_not_clears fun s hs => h ⟨s, hs⟩]
    cases o with
    | removeVertex k s => exact (if_neg fun hu => h ⟨s, Or.inl (by rw [hu])⟩).symm
    | clearVertices s => exact (if_neg fun hl => h ⟨s, Or.inr (Or.inl ⟨rfl, hl⟩)⟩).symm
    | clearVertexEdges k s =>
      refine (if_neg ?_).symm
      rintro ⟨rfl, hp⟩
      exact h ⟨s, Or.inr (Or.inr ⟨rfl, hp⟩)⟩
    | _ => rfl

theorem edge_apply (g : View Key U) (o : GraphOp Key U) (u v : Key) :
    ((g.apply o).1.edges u).cell v = (g.slice u v).edgeStep u v o := by
  cases o with
  | addVertex k s => rfl
  | removeVertex k s => exact g.removeVertex_cell k u v s
  | addEdge u' v' s =>
    refine (g.addEdge_cell u' v' u v s).trans ?_
    by_cases h : u = u' ∧ v = v'
    · obtain ⟨rfl, rfl⟩ := h
      exact (if_pos ⟨rfl, rfl⟩).trans (if_pos ⟨rfl, rfl⟩).symm
    · exact (if_neg h).trans (if_neg h).symm
  | removeEdge u' v' s =>
    refine (g.removeEdge_cell u' v' u v s).trans ?_
    by_cases h : u = u' ∧ v = v'
    · obtain ⟨rfl, rfl⟩ := h
      exact (if_pos ⟨rfl, rfl⟩).trans (if_pos ⟨rfl, rfl⟩).symm
    · exact (if_neg h).trans (if_neg h).symm
  | clearVertices s => exact g.clearVertices_cell u v s
  | clearVertexEdges k s =>
    refine (g.clearVertexEdges_cell k u v s).trans ?_
    by_cases h : u = k
    · subst h
      rfl
    · exact (if_neg fun h' => h h'.1).trans (if_neg fun h' => h h'.1).symm

/-- **A modifier acts on every slice by itself.** -/
theorem slice_apply (g : View Key U) (o : GraphOp Key U) (u v : Key) :
    (g.apply o).1.slice u v = (g.slice u v).step u v o := by
  refine Slice.ext ?_ (adj_apply_cell g o u) (adj_apply_cell g o v) (edgesClear_apply g o u v)
    (edge_apply g o u v)
  show (g.apply o).1.adj.clearTime = (g.slice u v).clearStep o
  cases o with
  | clearVertexEdges k s =>
    exact congrArg Cells.clearTime (g.clearVertexEdges_adj k s)
  | _ => rfl

end View

/-! ### Operations about other keys -/

section About

variable [DecidableEq Key] [LinearOrder U] [Zero U] {S : Key → Bool} {o : GraphOp Key U}

theorem vertexCell_of_not_about (h : about S o = false) {k : Key} (hk : S k = true) (c : U)
    (x : Option (Metadata U)) : View.vertexCell k o c x = x := by
  have hne : ∀ k', S k' = false → k ≠ k' := by
    rintro k' hk' rfl
    rw [hk] at hk'
    cases hk'
  cases o with
  | addVertex k' s => exact if_neg (hne k' h)
  | removeVertex k' s => exact if_neg (hne k' h)
  | addEdge u v s =>
    obtain ⟨hu, hv⟩ := Bool.or_eq_false_iff.mp h
    exact if_neg (not_or.mpr ⟨hne u hu, hne v hv⟩)
  | removeEdge u v s =>
    obtain ⟨hu, hv⟩ := Bool.or_eq_false_iff.mp h
    exact if_neg (not_or.mpr ⟨hne u hu, hne v hv⟩)
  | clearVertices s => cases h
  | clearVertexEdges k' s => rfl

/-- **A modifier that is about neither key leaves the slice alone.** -/
theorem Slice.step_of_not_about (h : about S o = false) {u v : Key} (hu : S u = true)
    (hv : S v = true) (x : Slice U) : x.step u v o = x := by
  have hne : ∀ k k', S k = true → S k' = false → k ≠ k' := by
    rintro k _ hk hk' rfl
    rw [hk] at hk'
    cases hk'
  refine Slice.ext ?_ (vertexCell_of_not_about h hu _ _) (vertexCell_of_not_about h hv _ _) ?_ ?_
  · cases o with
    | clearVertices s => cases h
    | _ => rfl
  · cases o with
    | removeVertex k s => exact if_neg (hne u k hu h)
    | clearVertices s => cases h
    | clearVertexEdges k s => exact if_neg fun h' => hne u k hu h h'.1
    | _ => rfl
  · cases o with
    | addVertex k s => rfl
    | removeVertex k s =>
      exact (if_neg (hne u k hu h)).trans (if_neg fun h' => hne v k hv h h'.1)
    | addEdge u' v' s =>
      exact if_neg fun h' => hne u u' hu (Bool.or_eq_false_iff.mp h).1 h'.1
    | removeEdge u' v' s =>
      exact if_neg fun h' => hne u u' hu (Bool.or_eq_false_iff.mp h).1 h'.1
    | clearVertices s => cases h
    | clearVertexEdges k s => exact if_neg fun h' => hne u k hu h h'.1

/-- The slices of `(u, v)` as a machine of their own. -/
def Slice.machine (u v : Key) : Machine (Slice U) (GraphOp Key U) :=
  ⟨(View.init Key U).slice u v, fun x o => x.step u v o⟩

theorem View.slice_run (d : List (GraphOp Key U)) (u v : Key) :
    ((View.machine Key U).run d).slice u v = (Slice.machine u v).run d :=
  Machine.run_map (f := fun g : View Key U => g.slice u v) rfl (fun g o => g.slice_apply o u v) d

theorem View.slice_run_about (d : List (GraphOp Key U)) {u v : Key} (hu : S u = true)
    (hv : S v = true) : ((View.machine Key U).run (d.filter (about S))).slice u v =
      ((View.machine Key U).run d).slice u v := by
  rw [slice_run, slice_run]
  exact Machine.run_filter (fun x o ho => Slice.step_of_not_about ho hu hv x) d

end About

end CollabDatatypes.Graph

/-! ### Subgraphs -/

namespace CollabDatatypes.CmRDT.LWWGraph

open CollabDatatypes.Lib CollabDatatypes.Container CollabDatatypes.Graph

variable {Key T U : Type*} [DecidableEq Key] [LinearOrder U] [Zero U]

/-- The graphs agree on the keys of `S`: on the entries of these vertices and of the edges between
them, on the clears of their edges, and on what is visible of them. -/
structure AgreeOn (S : Key → Bool) (g g' : LWWGraph Key T U) : Prop where
  vertexEntry : ∀ u, S u = true → g.vertexEntry u = g'.vertexEntry u
  edgeEntry : ∀ u v, S u = true → S v = true → g.edgeEntry u v = g'.edgeEntry u v
  edgeClearTime : ∀ u, S u = true → g.edgeClearTime u = g'.edgeClearTime u
  hasVertex : ∀ u, S u = true → g.hasVertex u = g'.hasVertex u
  hasEdge : ∀ u v, S u = true → S v = true → g.hasEdge u v = g'.hasEdge u v

omit [LinearOrder U] in
theorem agreeOn_of_slice {S : Key → Bool} {g g' : LWWGraph Key T U}
    (h : ∀ u v, S u = true → S v = true → g.view.slice u v = g'.view.slice u v) :
    AgreeOn S g g' := by
  have hvertex : ∀ u, S u = true → g.view.adj.cell u = g'.view.adj.cell u := fun u hu =>
    congrArg Slice.source (h u u hu hu)
  have hedge : ∀ u v, S u = true → S v = true →
      (g.view.edges u).cell v = (g'.view.edges u).cell v := fun u v hu hv =>
    congrArg Slice.edge (h u v hu hv)
  refine ⟨fun u hu => ?_, fun u v hu hv => ?_, fun u hu => ?_, fun u hu => ?_, fun u v hu hv => ?_⟩
  · rw [vertexEntry_eq, vertexEntry_eq, hvertex u hu]
  · rw [edgeEntry_eq, edgeEntry_eq, hedge u v hu hv]
  · have hclear : (g.view.edges u).clearTime = (g'.view.edges u).clearTime :=
      congrArg Slice.edgesClear (h u u hu hu)
    rw [edgeClearTime_eq, edgeClearTime_eq, vertexEntry_eq, vertexEntry_eq, hvertex u hu, hclear]
  · rw [hasVertex_eq, hasVertex_eq, hvertex u hu]
  · rw [hasEdge_eq, hasEdge_eq, hvertex u hu, hedge u v hu hv]

variable [Inhabited T]

/-- **A subgraph is made by the operations about its keys.** Whatever a replica received besides them,
in between, and with whatever timestamps, leaves no trace on the keys of `S`. -/
theorem subgraph_local (S : Key → Bool) (d : List (GraphOp Key U)) :
    AgreeOn S ((machine Key T U).run d) ((machine Key T U).run (d.filter (about S))) := by
  refine agreeOn_of_slice fun u v hu hv => ?_
  rw [view_run, view_run, View.slice_run_about d hu hv]

end CollabDatatypes.CmRDT.LWWGraph
