import CollabDatatypes.CmRDT.LWWGraph
import CollabDatatypes.Container.Cells

/-! # The graph seen entry by entry

A graph is two levels of cells: those of the vertices, and for every vertex those of its edges (a
key without a vertex has the initial ones). `View.apply` says what the six modifiers do to them and
return. The graph refines this machine (`Graph.Refine`), so what is proved of the entries of a view
holds of those of the graph. -/

namespace CollabDatatypes.Graph

open CollabDatatypes.Lib CollabDatatypes.CmRDT CollabDatatypes.Container

variable {Key T U : Type*} [DecidableEq Key] [LinearOrder U] [Zero U]

/-- The entries of a graph. -/
@[ext] structure View (Key U : Type*) where
  adj : Cells Key U
  edges : Key → Cells Key U

namespace View

/-- No vertices. -/
def init (Key U : Type*) [Zero U] : View Key U := ⟨Cells.init Key U, fun _ => Cells.init Key U⟩

omit [DecidableEq Key] [Zero U] in
/-- The entry of the vertex `k` once an `add` of the stamp `s` has reached it. -/
def touched (g : View Key U) (k : Key) (s : U) : Metadata U :=
  addCell g.adj.clearTime s (g.adj.cell k)

omit [DecidableEq Key] [Zero U] in
/-- The entry of the edge from `u` to `v` once an `add` of the stamp `s` has reached it. -/
def touchedEdge (g : View Key U) (u v : Key) (s : U) : Metadata U :=
  addCell (g.edges u).clearTime s ((g.edges u).cell v)

omit [DecidableEq Key] [Zero U] in
/-- `add_edge` finds that an endpoint of the edge it has just seen alive is removed. -/
def repairs (g : View Key U) (u v : Key) (s : U) : Bool :=
  !(g.touchedEdge u v s).isRemoved && ((g.touched u s).isRemoved || (g.touched v s).isRemoved)

omit [DecidableEq Key] [Zero U] in
/-- The time of the removal it then applies to the edge. -/
def highTime (g : View Key U) (u v : Key) (s : U) : U :=
  max (g.touched u s).timestamp (g.touched v s).timestamp

/-! ### Modifiers -/

def addVertex (g : View Key U) (k : Key) (s : U) : View Key U := { g with adj := g.adj.add k s }

def removeVertex (g : View Key U) (k : Key) (s : U) : View Key U where
  adj := g.adj.remove k s
  edges w :=
    if w = k then (g.edges w).clear s
    else if live ((g.edges w).cell k) then (g.edges w).remove k s else g.edges w

def addEdge (g : View Key U) (u v : Key) (s : U) : View Key U where
  adj := (g.adj.add u s).add v s
  edges := Function.update g.edges u
    (if g.repairs u v s then ((g.edges u).add v s).remove v (g.highTime u v s)
      else (g.edges u).add v s)

def removeEdge (g : View Key U) (u v : Key) (s : U) : View Key U where
  adj := (g.adj.remove u 0).remove v 0
  edges := Function.update g.edges u ((g.edges u).remove v s)

def clearVertices (g : View Key U) (s : U) : View Key U where
  adj := g.adj.clear s
  edges w := if live (g.adj.cell w) then (g.edges w).clear s else g.edges w

def clearVertexEdges (g : View Key U) (k : Key) (s : U) : View Key U :=
  if (g.adj.cell k).isSome then
    { g with edges := Function.update g.edges k ((g.edges k).clear s) }
  else g

omit [Zero U] in
@[simp] theorem clearVertexEdges_adj (g : View Key U) (k : Key) (s : U) :
    (g.clearVertexEdges k s).adj = g.adj := by
  unfold clearVertexEdges
  split_ifs <;> rfl

omit [Zero U] in
theorem clearVertexEdges_edges {g : View Key U} {k : Key} (h : (g.adj.cell k).isSome) (s : U) :
    (g.clearVertexEdges k s).edges k = (g.edges k).clear s := by
  rw [clearVertexEdges, if_pos h]
  exact Function.update_self ..

/-- A modifier and its result. -/
def apply (g : View Key U) : GraphOp Key U → View Key U × Result
  | .addVertex k s =>
    (g.addVertex k s, .bool (!live (g.adj.cell k) && live ((g.adj.add k s).cell k)))
  | .removeVertex k s =>
    (g.removeVertex k s, .bool (live (g.adj.cell k) && !live ((g.adj.remove k s).cell k)))
  | .addEdge u v s =>
    (g.addEdge u v s, .info
      { isEdgeAdded := !live ((g.edges u).cell v) && !(g.touchedEdge u v s).isRemoved &&
          !g.repairs u v s
        isFromAdded := !live (g.adj.cell u) && !(g.touched u s).isRemoved
        isToAdded := decide (u ≠ v) && (!live (g.adj.cell v) && !(g.touched v s).isRemoved) })
  | .removeEdge u v s =>
    (g.removeEdge u v s,
      .bool (live ((g.edges u).cell v) && !live (((g.edges u).remove v s).cell v)))
  | .clearVertices s => (g.clearVertices s, .bool (decide (g.adj.clearTime < s)))
  | .clearVertexEdges k s =>
    (g.clearVertexEdges k s,
      .bool ((g.adj.cell k).isSome && decide ((g.edges k).clearTime < s)))

/-- The views as a machine. -/
def machine (Key U : Type*) [DecidableEq Key] [LinearOrder U] [Zero U] :
    Machine (View Key U) (GraphOp Key U) := ⟨init Key U, fun g o => (g.apply o).1⟩

theorem run_concat (d : List (GraphOp Key U)) (o : GraphOp Key U) :
    (machine Key U).run (d ++ [o]) = (((machine Key U).run d).apply o).1 :=
  Machine.run_concat _ d o

end View

end CollabDatatypes.Graph
