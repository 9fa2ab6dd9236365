import CollabDatatypes.CmRDT.LWWGraph

/-! # The plain graph

A directed graph as a program that knows nothing of stamps thinks of it: which vertices and which edges
there are. An edge has both endpoints. Besides, the keys that were ever mentioned, since
`clear_vertex_edges` reports whether its key is one of them; nothing visible depends on them
(`sameVisible_trace`). The modifiers are those of `LWWGraph`, without their stamps. -/

namespace CollabDatatypes.Graph

open CollabDatatypes.Lib CollabDatatypes.CmRDT

variable {Key U : Type*}

/-- A directed graph, and the keys that were ever mentioned. -/
@[ext] structure PlainGraph (Key : Type*) where
  known : Key → Bool
  vertex : Key → Bool
  edge : Key → Key → Bool
  known_of_vertex : ∀ k, vertex k = true → known k = true
  ends : ∀ u v, edge u v = true → vertex u = true ∧ vertex v = true

namespace PlainGraph

/-- No vertices. -/
def empty : PlainGraph Key where
  known _ := false
  vertex _ := false
  edge _ _ := false
  known_of_vertex _ h := h
  ends _ _ h := by cases h

def clearVertices (t : PlainGraph Key) : PlainGraph Key where
  known := t.known
  vertex _ := false
  edge _ _ := false
  known_of_vertex _ h := by cases h
  ends _ _ h := by cases h

variable [DecidableEq Key]

def addVertex (t : PlainGraph Key) (key : Key) : PlainGraph Key where
  known k := k = key || t.known k
  vertex k := k = key || t.vertex k
  edge := t.edge
  known_of_vertex k h := by
    have := t.known_of_vertex k
    simp_all only [Bool.or_eq_true]
    exact h.imp id this
  ends u v h := by
    obtain ⟨hu, hv⟩ := t.ends u v h
    simp [hu, hv]

/-- The edges of the vertex go with it. -/
def removeVertex (t : PlainGraph Key) (key : Key) : PlainGraph Key where
  known k := k = key || t.known k
  vertex k := k ≠ key && t.vertex k
  edge u v := u ≠ key && v ≠ key && t.edge u v
  known_of_vertex k h := by
    have := t.known_of_vertex k
    simp_all
  ends u v h := by
    have := t.ends u v
    simp_all

/-- The endpoints are added with the edge. -/
def addEdge (t : PlainGraph Key) (fromKey toKey : Key) : PlainGraph Key where
  known k := k = fromKey || k = toKey || t.known k
  vertex k := k = fromKey || k = toKey || t.vertex k
  edge u v := u = fromKey && v = toKey || t.edge u v
  known_of_vertex k h := by
    have := t.known_of_vertex k
    simp only [Bool.or_eq_true] at h ⊢
    exact h.imp_right this
  ends u v h := by
    have := t.ends u v
    simp only [Bool.or_eq_true, Bool.and_eq_true, decide_eq_true_eq] at h ⊢
    rcases h with ⟨rfl, rfl⟩ | h
    · exact ⟨Or.inl (Or.inl rfl), Or.inl (Or.inr rfl)⟩
    · exact ⟨Or.inr (this h).1, Or.inr (this h).2⟩

/-- The endpoints are mentioned, not added. -/
def removeEdge (t : PlainGraph Key) (fromKey toKey : Key) : PlainGraph Key where
  known k := k = fromKey || k = toKey || t.known k
  vertex := t.vertex
  edge u v := !(u = fromKey && v = toKey) && t.edge u v
  known_of_vertex k h := by simp [t.known_of_vertex k h]
  ends u v h := t.ends u v (by simp_all)

def clearVertexEdges (t : PlainGraph Key) (key : Key) : PlainGraph Key where
  known := t.known
  vertex := t.vertex
  edge u v := u ≠ key && t.edge u v
  known_of_vertex := t.known_of_vertex
  ends u v h := t.ends u v (by simp_all)

/-- A modifier of the plain graph and its result. -/
def apply (t : PlainGraph Key) : GraphOp Key U → PlainGraph Key × Result
  | .addVertex k _ => (t.addVertex k, .bool (!t.vertex k))
  | .removeVertex k _ => (t.removeVertex k, .bool (t.vertex k))
  | .addEdge u v _ =>
    (t.addEdge u v, .info
      { isEdgeAdded := !t.edge u v, isFromAdded := !t.vertex u
        isToAdded := decide (u ≠ v) && !t.vertex v })
  | .removeEdge u v _ => (t.removeEdge u v, .bool (t.edge u v))
  | .clearVertices _ => (t.clearVertices, .bool true)
  | .clearVertexEdges k _ => (t.clearVertexEdges k, .bool (t.known k))

/-! ### What is visible -/

/-- The same vertices and edges. -/
def SameVisible (t t' : PlainGraph Key) : Prop := t.vertex = t'.vertex ∧ t.edge = t'.edge

variable {t t' : PlainGraph Key}

theorem sameVisible_step (h : SameVisible t t') (o : GraphOp Key U) :
    SameVisible (t.apply o).1 (t'.apply o).1 := by
  obtain ⟨hv, he⟩ := h
  cases o with
  | addVertex k s => exact ⟨by simp only [apply, addVertex, hv], he⟩
  | removeVertex k s =>
    exact ⟨by simp only [apply, removeVertex, hv], by simp only [apply, removeVertex, he]⟩
  | addEdge u v s => exact ⟨by simp only [apply, addEdge, hv], by simp only [apply, addEdge, he]⟩
  | removeEdge u v s => exact ⟨hv, by simp only [apply, removeEdge, he]⟩
  | clearVertices s => exact ⟨rfl, rfl⟩
  | clearVertexEdges k s => exact ⟨hv, by simp only [apply, clearVertexEdges, he]⟩

theorem sameVisible_trace : ∀ (q : List (GraphOp Key U)) (t t' : PlainGraph Key),
    SameVisible t t' → SameVisible (trace apply t q).1 (trace apply t' q).1
  | [], _, _, h => h
  | o :: q, _, _, h => sameVisible_trace q _ _ (sameVisible_step h o)

end PlainGraph

end CollabDatatypes.Graph
