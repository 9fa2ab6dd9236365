import CollabDatatypes.Graph.Comparison
import Mathlib.Data.Set.Card

/-! # The totals of a graph

`size_edges` adds up the counters of the edge sets of the visible vertices, `crdt_size_edges` the
numbers of entries of all edge sets, while `has_edge` and `crdt_has_edge` look one edge up. In every
reachable graph a total is the number of keys, or of ordered pairs, that the lookup finds: the counters
are right in every vertex (`Counted`), and a loop that adds up the lengths of lists counts pairs
(`UnorderedMap.length_pairsWhere`). -/

namespace CollabDatatypes.CmRDT.LWWGraph

open CollabDatatypes.Lib CollabDatatypes.Container

variable {Key T U : Type*} [DecidableEq Key]

theorem encard_eq_length {α : Type*} {l : List α} (hl : l.Nodup) {p : α → Bool}
    (h : ∀ x, p x = true ↔ x ∈ l) : {x | p x = true}.encard = l.length := by
  classical
  have hset : {x | p x = true} = (l.toFinset : Set α) := by
    ext x
    simp [h]
  rw [hset, Set.encard_coe_eq_coe_finsetCard, List.toFinset_card_of_nodup hl]

/-! ### The lookups as lists -/

/-- The visible edges, in the order of the loop of `size_edges`. -/
def edgeKeys (g : LWWGraph Key T U) : List (Key × Key) :=
  g.adj.map.pairsWhere (fun elt => !elt.isRemoved) fun elt => elt.value.edges.keys

/-- All edges, in the order of the loop of `crdt_size_edges`. -/
def crdtEdgeKeys (g : LWWGraph Key T U) : List (Key × Key) :=
  g.adj.map.pairsWhere (fun _ => true) fun elt => elt.value.edges.map.keysWhere fun _ => true

theorem mem_edgeKeys (g : LWWGraph Key T U) (u v : Key) :
    g.hasEdge u v = true ↔ (u, v) ∈ g.edgeKeys := by
  rw [edgeKeys, UnorderedMap.mem_pairsWhere]
  unfold hasEdge countEdge LWWMap.find
  cases g.adj.map.lookup u with
  | none => simp
  | some elt =>
    cases hr : elt.isRemoved with
    | true => simp [hr]
    | false => simp [hr, LWWSet.count_eq_one, LWWSet.mem_keys]

theorem mem_crdtEdgeKeys (g : LWWGraph Key T U) (u v : Key) :
    g.crdtHasEdge u v = true ↔ (u, v) ∈ g.crdtEdgeKeys := by
  rw [crdtEdgeKeys, UnorderedMap.mem_pairsWhere]
  unfold crdtHasEdge crdtCountEdge LWWMap.crdtFind LWWSet.crdtCount
  cases g.adj.map.lookup u with
  | none => simp
  | some elt => simp [UnorderedMap.mem_keysWhere, Option.isSome_iff_exists]

theorem mem_keysWhere_iff_crdtHasVertex (g : LWWGraph Key T U) (k : Key) :
    g.crdtHasVertex k = true ↔ k ∈ g.adj.map.keysWhere fun _ => true := by
  unfold crdtHasVertex LWWMap.crdtCount
  simp [UnorderedMap.mem_keysWhere, Option.isSome_iff_exists]

/-! ### The totals -/

/-- Each total is the number of the keys, or of the ordered pairs of keys, that its lookup finds. -/
structure TotalsAgree (g : LWWGraph Key T U) : Prop where
  vertices : {k | g.hasVertex k = true}.encard = g.sizeVertex
  edges : {e : Key × Key | g.hasEdge e.1 e.2 = true}.encard = g.sizeEdges
  crdtVertices : {k | g.crdtHasVertex k = true}.encard = g.crdtSizeVertex
  crdtEdges : {e : Key × Key | g.crdtHasEdge e.1 e.2 = true}.encard = g.crdtSizeEdges

theorem sizeEdges_eq {g : LWWGraph Key T U} (h : g.Counted) :
    g.sizeEdges = g.edgeKeys.length := by
  rw [edgeKeys, UnorderedMap.length_pairsWhere]
  refine UnorderedMap.sumWhere_congr fun k elt hk => ?_
  exact (h.edges k elt.value (by rw [LWWMap.valueOf, hk]; rfl)).size_eq

omit [DecidableEq Key] in
theorem crdtSizeEdges_eq (g : LWWGraph Key T U) : g.crdtSizeEdges = g.crdtEdgeKeys.length := by
  rw [crdtEdgeKeys, UnorderedMap.length_pairsWhere]
  simp only [crdtSizeEdges, LWWSet.crdtSize, UnorderedMap.length_keysWhere,
    UnorderedMap.length_entries]

theorem totalsAgree_of_counted {g : LWWGraph Key T U} (h : g.Counted) : g.TotalsAgree where
  vertices := by
    rw [sizeVertex, h.adj.size_eq]
    refine encard_eq_length (UnorderedMap.nodup_keysWhere _ _) fun k => ?_
    rw [hasVertex, beq_iff_eq, LWWMap.count_eq_one]
    exact LWWMap.mem_keys.symm
  edges := by
    rw [sizeEdges_eq h]
    exact encard_eq_length
      (UnorderedMap.nodup_pairsWhere _ (fun elt => UnorderedMap.nodup_keysWhere _ _) _)
      fun e => mem_edgeKeys g e.1 e.2
  crdtVertices := by
    rw [crdtSizeVertex, LWWMap.crdtSize, UnorderedMap.length_entries,
      ← UnorderedMap.length_keysWhere]
    exact encard_eq_length (UnorderedMap.nodup_keysWhere _ _) (mem_keysWhere_iff_crdtHasVertex g)
  crdtEdges := by
    rw [crdtSizeEdges_eq]
    exact encard_eq_length
      (UnorderedMap.nodup_pairsWhere _ (fun elt => UnorderedMap.nodup_keysWhere _ _) _)
      fun e => mem_crdtEdgeKeys g e.1 e.2

variable [LinearOrder U] [Zero U] [Inhabited T]

/-- **The totals agree with the lookups** in every reachable graph, whatever the timestamps. -/
theorem totalsAgree_run (d : List (GraphOp Key U)) : ((machine Key T U).run d).TotalsAgree :=
  totalsAgree_of_counted (counted_run d)

end CollabDatatypes.CmRDT.LWWGraph
