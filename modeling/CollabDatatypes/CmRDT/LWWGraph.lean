import CollabDatatypes.CmRDT.LWWMap

/-! # `LWWGraph`: the last-writer-wins directed graph

The graph is an `LWWMap` of vertices, each with the user content and an `LWWSet` of the
destinations of its edges. The six modifiers are compositions of the modifiers of the map and of
the edge sets; a write through `crdt_find(key)->second.value()` is `LWWMap.modify`, the loops over
`_adj` are `LWWMap.forEach`. `vertexAt` reads the vertex such an iterator points to: wherever the
source dereferences one it has just added the key (`Cells.add_cell_self`, `Cells.remove_cell_self`),
so the default vertex is never read there. -/

namespace CollabDatatypes.CmRDT

open CollabDatatypes.Lib

/-- `LWWGraph::Vertex`. -/
structure Vertex (Key T U : Type*) where
  content : T
  edges : LWWSet Key U

/-- `LWWGraph::AddEdgeInfo`. -/
structure AddEdgeInfo where
  isEdgeAdded : Bool
  isFromAdded : Bool
  isToAdded : Bool
  deriving DecidableEq

/-- What a modifier of the graph returns. -/
inductive Result
  | bool (b : Bool)
  | info (i : AddEdgeInfo)
  deriving DecidableEq

/-- The six modifiers of a graph. -/
inductive GraphOp (Key U : Type*)
  | addVertex (key : Key) (stamp : U)
  | removeVertex (key : Key) (stamp : U)
  | addEdge (fromKey toKey : Key) (stamp : U)
  | removeEdge (fromKey toKey : Key) (stamp : U)
  | clearVertices (stamp : U)
  | clearVertexEdges (key : Key) (stamp : U)
  deriving DecidableEq

/-- The timestamp of a modifier. -/
def GraphOp.stamp {Key U : Type*} : GraphOp Key U → U
  | addVertex _ s => s
  | removeVertex _ s => s
  | addEdge _ _ s => s
  | removeEdge _ _ s => s
  | clearVertices s => s
  | clearVertexEdges _ s => s

/-- `LWWGraph`. -/
structure LWWGraph (Key T U : Type*) where
  adj : LWWMap Key (Vertex Key T U) U

section Vertex

variable {Key T U : Type*} [DecidableEq Key] [LinearOrder U] [Zero U]

instance [Inhabited T] : Inhabited (Vertex Key T U) := ⟨⟨default, LWWSet.empty⟩⟩

/-- `operator==` of `Vertex`. -/
def Vertex.beq [BEq T] (lhs rhs : Vertex Key T U) : Bool :=
  lhs.edges == rhs.edges && lhs.content == rhs.content

instance [BEq T] : BEq (Vertex Key T U) := ⟨Vertex.beq⟩

end Vertex

namespace LWWGraph

variable {Key T U : Type*} [DecidableEq Key] [LinearOrder U] [Zero U]

/-- The empty graph, `LWWGraph()`. -/
def empty : LWWGraph Key T U := ⟨LWWMap.empty⟩

/-! ### Capacity -/

/-- `empty()`. -/
def isEmpty (g : LWWGraph Key T U) : Bool := g.adj.isEmpty

def sizeVertex (g : LWWGraph Key T U) : ℕ := g.adj.size

def crdtSizeVertex (g : LWWGraph Key T U) : ℕ := g.adj.crdtSize

/-- The iterators of the range-for skip the removed vertices. (The sum does not wrap: every edge it
counts has an entry in memory.) -/
def sizeEdges (g : LWWGraph Key T U) : ℕ :=
  g.adj.map.sumWhere (fun elt => !elt.isRemoved) fun elt => elt.value.edges.size

def crdtSizeEdges (g : LWWGraph Key T U) : ℕ :=
  g.adj.map.sumWhere (fun _ => true) fun elt => elt.value.edges.crdtSize

/-! ### Lookup -/

def crdtCountVertex (g : LWWGraph Key T U) (key : Key) : ℕ := g.adj.crdtCount key

def hasVertex (g : LWWGraph Key T U) (key : Key) : Bool := g.adj.count key == 1

/-- `at_vertex`: the content of a vertex. -/
def atVertex (g : LWWGraph Key T U) (key : Key) : Except OutOfRange T :=
  (g.adj.atKey key).map Vertex.content

def crdtAtVertex (g : LWWGraph Key T U) (key : Key) : Except OutOfRange T :=
  (g.adj.crdtAt key).map Vertex.content

def crdtHasVertex (g : LWWGraph Key T U) (key : Key) : Bool := g.adj.crdtCount key == 1

def countEdge (g : LWWGraph Key T U) (fromKey toKey : Key) : ℕ :=
  match g.adj.find fromKey with
  | some vertex => vertex.value.edges.count toKey
  | none => 0

def crdtCountEdge (g : LWWGraph Key T U) (fromKey toKey : Key) : ℕ :=
  match g.adj.crdtFind fromKey with
  | some vertex => vertex.value.edges.crdtCount toKey
  | none => 0

def hasEdge (g : LWWGraph Key T U) (fromKey toKey : Key) : Bool := g.countEdge fromKey toKey == 1

def crdtHasEdge (g : LWWGraph Key T U) (fromKey toKey : Key) : Bool :=
  g.crdtCountEdge fromKey toKey == 1

/-! ### Modifiers -/

/-- The vertex `crdt_find(key)->second.value()`. -/
def vertexAt [Inhabited T] (adj : LWWMap Key (Vertex Key T U) U) (key : Key) : Vertex Key T U :=
  match adj.crdtFind key with
  | some elt => elt.value
  | none => default

/-- The timestamp and the removed flag of `crdt_find(key)->second`. -/
def metadataAt (adj : LWWMap Key (Vertex Key T U) U) (key : Key) : Metadata U :=
  match adj.crdtFind key with
  | some elt => elt.metadata
  | none => ⟨0, false⟩

def clearVertices (g : LWWGraph Key T U) (stamp : U) : LWWGraph Key T U × Bool :=
  -- the iterators of the range-for skip the removed vertices
  let adj := g.adj.forEach fun _ vertexElt =>
    if !vertexElt.isRemoved then
      { vertexElt.value with edges := (vertexElt.value.edges.clear stamp).1 }
    else vertexElt.value
  let r := adj.clear stamp
  (⟨r.1⟩, r.2)

def clearVertexEdges (g : LWWGraph Key T U) (key : Key) (stamp : U) : LWWGraph Key T U × Bool :=
  match g.adj.crdtFind key with
  | none => (g, false)
  | some vertexElt =>
    let r := vertexElt.value.edges.clear stamp
    (⟨g.adj.modify key fun vertex => { vertex with edges := r.1 }⟩, r.2)

variable [Inhabited T]

def addVertex (g : LWWGraph Key T U) (key : Key) (stamp : U) : LWWGraph Key T U × Bool :=
  let r := g.adj.add key stamp
  (⟨r.1⟩, r.2)

def removeVertex (g : LWWGraph Key T U) (key : Key) (stamp : U) : LWWGraph Key T U × Bool :=
  let r := g.adj.remove key stamp
  -- remove all edges of this vertex
  let adj := r.1.modify key fun vertex => { vertex with edges := (vertex.edges.clear stamp).1 }
  -- remove all edges to this vertex, on the other vertices
  let adj := adj.forEach fun key' vertexElt =>
    if key' ≠ key ∧ vertexElt.value.edges.count key = 1 then
      { vertexElt.value with edges := (vertexElt.value.edges.remove key stamp).1 }
    else vertexElt.value
  (⟨adj⟩, r.2)

def addEdge (g : LWWGraph Key T U) (fromKey toKey : Key) (stamp : U) :
    LWWGraph Key T U × AddEdgeInfo :=
  let rFrom := g.adj.add fromKey stamp
  let rTo := if fromKey ≠ toKey then rFrom.1.add toKey stamp else (rFrom.1, false)
  let adj := rTo.1
  let rEdge := (vertexAt adj fromKey).edges.add toKey stamp
  let info : AddEdgeInfo := ⟨rEdge.2, rFrom.2, rTo.2⟩
  let adj₁ := adj.modify fromKey fun vertex => { vertex with edges := rEdge.1 }
  if (rEdge.1.crdtFind toKey).any fun fromEdge => !fromEdge.isRemoved then
    let vertexFrom := metadataAt adj₁ fromKey
    let vertexTo := metadataAt adj₁ toKey
    if vertexFrom.isRemoved || vertexTo.isRemoved then
      let highTime :=
        if vertexFrom.timestamp > vertexTo.timestamp then vertexFrom.timestamp
        else vertexTo.timestamp
      (⟨adj₁.modify fromKey fun vertex =>
        { vertex with edges := (vertex.edges.remove toKey highTime).1 }⟩,
        { info with isEdgeAdded := false })
    else (⟨adj₁⟩, info)
  else (⟨adj₁⟩, info)

def removeEdge (g : LWWGraph Key T U) (fromKey toKey : Key) (stamp : U) :
    LWWGraph Key T U × Bool :=
  let adj := (g.adj.remove fromKey 0).1
  let adj := if fromKey ≠ toKey then (adj.remove toKey 0).1 else adj
  let r := (vertexAt adj fromKey).edges.remove toKey stamp
  (⟨adj.modify fromKey fun vertex => { vertex with edges := r.1 }⟩, r.2)

/-- A modifier and its result. -/
def apply (g : LWWGraph Key T U) : GraphOp Key U → LWWGraph Key T U × Result
  | .addVertex key stamp => let r := g.addVertex key stamp; (r.1, .bool r.2)
  | .removeVertex key stamp => let r := g.removeVertex key stamp; (r.1, .bool r.2)
  | .addEdge fromKey toKey stamp => let r := g.addEdge fromKey toKey stamp; (r.1, .info r.2)
  | .removeEdge fromKey toKey stamp => let r := g.removeEdge fromKey toKey stamp; (r.1, .bool r.2)
  | .clearVertices stamp => let r := g.clearVertices stamp; (r.1, .bool r.2)
  | .clearVertexEdges key stamp => let r := g.clearVertexEdges key stamp; (r.1, .bool r.2)

/-- The graph as a machine driven by its modifiers. -/
def machine (Key T U : Type*) [DecidableEq Key] [LinearOrder U] [Zero U] [Inhabited T] :
    Machine (LWWGraph Key T U) (GraphOp Key U) := ⟨empty, fun g o => (g.apply o).1⟩

/-! ### Comparison -/

variable [BEq T]

def crdtEqual (g other : LWWGraph Key T U) : Bool :=
  if g.adj.crdtEqual other.adj = false then false
  else g.adj.map.entries.all fun it =>
    it.2.value.edges.crdtEqual (vertexAt other.adj it.1).edges

omit [Inhabited T] in
/-- `operator==`. -/
def beq (lhs rhs : LWWGraph Key T U) : Bool :=
  if lhs.adj.size ≠ rhs.adj.size then false else lhs.adj == rhs.adj

omit [Inhabited T] in
instance : BEq (LWWGraph Key T U) := ⟨beq⟩

end LWWGraph

end CollabDatatypes.CmRDT
