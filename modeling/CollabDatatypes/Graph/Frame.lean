import CollabDatatypes.Graph.Advance
import CollabDatatypes.Graph.Comparison

/-! # What a modifier leaves alone

A modifier is made of several writes to the vertex map and to edge sets, and each of them inserts what
it does not find. `footprint` says which entries and which times of clears that can reach;
`changesAtMost_footprint` that everything else stays. Only `remove_edge` needs an assumption: it removes
its endpoints at the stamp `0`, which leaves an existing vertex alone when the timestamps are not
below `0`. -/

namespace CollabDatatypes.CmRDT.LWWGraph

open CollabDatatypes.Lib CollabDatatypes.Container CollabDatatypes.Graph

variable {Key T U : Type*} [DecidableEq Key]

/-- A part of a graph: entries of vertices, entries of edges, times of the clears of edge sets, and
whether the time of the clear of the vertices belongs to it. -/
structure Footprint (Key : Type*) where
  vertex : Key → Prop
  edge : Key → Key → Prop
  edgeClearTime : Key → Prop
  clearTime : Prop

/-- `g'` is `g` outside the part `F`. -/
structure ChangesAtMost (F : Footprint Key) (g g' : LWWGraph Key T U) : Prop where
  vertex : ∀ k, ¬ F.vertex k → g'.vertexEntry k = g.vertexEntry k
  edge : ∀ u v, ¬ F.edge u v → g'.edgeEntry u v = g.edgeEntry u v
  edgeClearTime : ∀ u c, ¬ F.edgeClearTime u → g.edgeClearTime u = some c →
    g'.edgeClearTime u = some c
  clearTime : ¬ F.clearTime → g'.adj.lastClearTime = g.adj.lastClearTime

/-- The part of the graph that a modifier may change. The edge set of a vertex is all edges out of it
and the time of their clear. -/
def footprint (g : LWWGraph Key T U) : GraphOp Key U → Footprint Key
  | .addVertex k _ => ⟨(· = k), fun _ _ => False, fun _ => False, False⟩
  | .removeVertex k _ => ⟨(· = k), fun u v => u = k ∨ v = k, (· = k), False⟩
  | .addEdge u v _ => ⟨fun k => k = u ∨ k = v, fun u' v' => u' = u ∧ v' = v, fun _ => False, False⟩
  | .removeEdge u v _ =>
    -- the endpoints only if they are missing
    ⟨fun k => (k = u ∨ k = v) ∧ g.vertexEntry k = none, fun u' v' => u' = u ∧ v' = v,
      fun _ => False, False⟩
  | .clearVertices _ =>
    ⟨fun _ => True, fun u _ => g.hasVertex u = true, fun u => g.hasVertex u = true, True⟩
  | .clearVertexEdges k _ => ⟨fun _ => False, fun u _ => u = k, (· = k), False⟩

/-- The graphs a program reaches with modifiers that satisfy `Q` and with writes to contents. -/
inductive ReachableBy [LinearOrder U] [Zero U] [Inhabited T] (Q : GraphOp Key U → Prop) :
    LWWGraph Key T U → Prop
  | empty : ReachableBy Q empty
  | apply {g : LWWGraph Key T U} (h : ReachableBy Q g) {o : GraphOp Key U} (ho : Q o) :
      ReachableBy Q (g.apply o).1
  | writeContent {g : LWWGraph Key T U} (h : ReachableBy Q g) (k : Key) (f : T → T) :
      ReachableBy Q (g.writeContent k f)

variable [LinearOrder U] [Zero U] [Inhabited T]

theorem ReachableBy.verticesNonneg {g : LWWGraph Key T U}
    (h : ReachableBy (fun o => 0 ≤ o.stamp) g) : g.view.VerticesNonneg := by
  induction h with
  | empty => exact fun _ _ h => by cases h
  | @apply g _ o ho ih =>
    rw [(view_apply g o).1]
    exact View.verticesNonneg_step ih ho
  | @writeContent g _ k f ih =>
    have hcells : (g.writeContent k f).adj.cells = g.adj.cells := LWWMap.cells_modify g.adj k _
    exact fun k' e he => ih k' e (by rwa [view, hcells] at he)

/-! ### The frame -/

section Frame

variable {g : LWWGraph Key T U} {o : GraphOp Key U}

theorem vertexEntry_frame (h : g.view.VerticesNonneg) {k : Key} (hk : ¬ (g.footprint o).vertex k) :
    (g.apply o).1.vertexEntry k = g.vertexEntry k := by
  rw [vertexEntry_eq, vertexEntry_eq, (view_apply g o).1]
  rcases g.view.vertex_cases o k with ⟨ht, -⟩ | ⟨s, rfl, -⟩ | ⟨u, v, s, rfl, huv, hx⟩ |
    ⟨s, rfl, -⟩ | ⟨-, hx⟩
  · refine absurd ?_ hk
    rcases ht with ⟨s, rfl⟩ | ⟨v, s, rfl⟩ | ⟨u, s, rfl⟩
    · exact rfl
    · exact Or.inl rfl
    · exact Or.inr rfl
  · exact absurd rfl hk
  · rw [hx]
    cases hcell : g.view.adj.cell k with
    | none => exact absurd ⟨huv, (vertexEntry_eq g k).trans hcell⟩ hk
    | some e => exact congrArg some (write_of_le (h k e hcell) true)
  · exact absurd trivial hk
  · exact hx

theorem edgeEntry_frame {u v : Key} (huv : ¬ (g.footprint o).edge u v) :
    (g.apply o).1.edgeEntry u v = g.edgeEntry u v := by
  rw [edgeEntry_eq, edgeEntry_eq, (view_apply g o).1]
  rcases g.view.edge_cases o u v with ⟨s, rfl, -⟩ | ⟨s, rfl, -⟩ | ⟨s, rfl, -, -, -⟩ |
    ⟨s, rfl | ⟨rfl, hl⟩ | ⟨rfl, -⟩, -⟩ | hx
  · exact absurd ⟨rfl, rfl⟩ huv
  · exact absurd ⟨rfl, rfl⟩ huv
  · exact absurd (Or.inr rfl) huv
  · exact absurd (Or.inl rfl) huv
  · exact absurd ((hasVertex_eq g u).trans hl) huv
  · exact absurd rfl huv
  · exact hx

theorem edgeClearTime_frame {u : Key} {c : U} (hu : ¬ (g.footprint o).edgeClearTime u)
    (hc : g.edgeClearTime u = some c) : (g.apply o).1.edgeClearTime u = some c := by
  have hkeep : ∀ s, ¬ View.ClearsEdges g.view u o s := by
    rintro s (rfl | ⟨rfl, hl⟩ | ⟨rfl, -⟩)
    · exact hu rfl
    · exact hu ((hasVertex_eq g u).trans hl)
    · exact hu rfl
  obtain ⟨rfl, hc'⟩ := edgeClearTime_apply hc o
  rw [hc', View.clearTime_of_not_clears hkeep]

/-- **A modifier changes at most its footprint.** -/
theorem changesAtMost_footprint (h : g.view.VerticesNonneg) (o : GraphOp Key U) :
    ChangesAtMost (g.footprint o) g (g.apply o).1 where
  vertex _ hk := vertexEntry_frame h hk
  edge _ _ huv := edgeEntry_frame huv
  edgeClearTime _ _ hu hc := edgeClearTime_frame hu hc
  clearTime ho := by
    show (g.apply o).1.view.adj.clearTime = g.view.adj.clearTime
    rw [(view_apply g o).1]
    rcases View.adj_clearTime_step (g := g.view) (o := o) with ⟨s, rfl⟩ | hc
    · exact absurd trivial ho
    · exact hc

theorem vertexEntry_removeEdge {u v k : Key} {s : U} (hk : k = u ∨ k = v)
    (hnone : g.vertexEntry k = none) :
    (g.apply (.removeEdge u v s)).1.vertexEntry k = some ⟨0, true⟩ := by
  rw [vertexEntry_eq] at hnone ⊢
  rw [(view_apply g _).1, View.adj_apply_cell, hnone]
  exact if_pos hk

theorem hasVertex_removeEdge (h : g.view.VerticesNonneg) (u v k : Key) (s : U) :
    (g.apply (.removeEdge u v s)).1.hasVertex k = g.hasVertex k := by
  rw [hasVertex_eq, hasVertex_eq, ← vertexEntry_eq, ← vertexEntry_eq]
  by_cases hk : (k = u ∨ k = v) ∧ g.vertexEntry k = none
  · rw [vertexEntry_removeEdge hk.1 hk.2, hk.2]
    rfl
  · rw [vertexEntry_frame (o := .removeEdge u v s) h hk]

omit [LinearOrder U] in
theorem crdtAtVertex_eq_ok {k : Key} {x : T} : g.crdtAtVertex k = .ok x ↔
    (g.vertexEntry k).isSome = true ∧ (vertexAt g.adj k).content = x := by
  unfold crdtAtVertex LWWMap.crdtAt vertexEntry vertexAt LWWMap.crdtFind
  cases g.adj.map.lookup k <;> simp [Except.map]

theorem crdtAtVertex_frame (o : GraphOp Key U) {k : Key} {x : T} (h : g.crdtAtVertex k = .ok x) :
    (g.apply o).1.crdtAtVertex k = .ok x := by
  obtain ⟨hk, hx⟩ := crdtAtVertex_eq_ok.mp h
  obtain ⟨e, he⟩ := Option.isSome_iff_exists.mp hk
  obtain ⟨e', he', -⟩ := (advances_apply g o).vertex k e he
  exact crdtAtVertex_eq_ok.mpr ⟨by rw [he']; rfl, (content_apply g o k).trans hx⟩

end Frame

/-- **The modifiers are local**: in a graph reached with timestamps not below `0`, a modifier with such
a timestamp changes at most its footprint and no content; a `remove_edge` plants tombstones for
missing endpoints and leaves the same vertices visible. -/
theorem modifiers_local {g : LWWGraph Key T U} (h : ReachableBy (fun o => 0 ≤ o.stamp) g) :
    (∀ o : GraphOp Key U, 0 ≤ o.stamp → ChangesAtMost (g.footprint o) g (g.apply o).1 ∧
      ∀ k x, g.crdtAtVertex k = .ok x → (g.apply o).1.crdtAtVertex k = .ok x) ∧
    ∀ u v s, 0 ≤ s →
      (∀ k, k = u ∨ k = v → g.vertexEntry k = none →
        (g.apply (.removeEdge u v s)).1.vertexEntry k = some ⟨0, true⟩) ∧
      ∀ k, (g.apply (.removeEdge u v s)).1.hasVertex k = g.hasVertex k :=
  ⟨fun o _ => ⟨changesAtMost_footprint h.verticesNonneg o, fun _ _ hx => crdtAtVertex_frame o hx⟩,
    fun u v s _ => ⟨fun _ hk hnone => vertexEntry_removeEdge hk hnone,
      fun k => hasVertex_removeEdge h.verticesNonneg u v k s⟩⟩

theorem modifiers_local_removeEdge :
    ChangesAtMost (((machine ℕ ℕ ℕ).run [.addVertex 0 1]).footprint (.removeEdge 0 1 2))
        ((machine ℕ ℕ ℕ).run [.addVertex 0 1])
        ((machine ℕ ℕ ℕ).run [.addVertex 0 1, .removeEdge 0 1 2]) ∧
      ((machine ℕ ℕ ℕ).run [.addVertex 0 1, .removeEdge 0 1 2]).crdtAtVertex 0 = .ok 0 ∧
      ((machine ℕ ℕ ℕ).run [.addVertex 0 1, .removeEdge 0 1 2]).vertexEntry 1 = some ⟨0, true⟩ := by
  obtain ⟨h, hr⟩ := modifiers_local (g := (machine ℕ ℕ ℕ).run [.addVertex 0 1])
    (.apply .empty (by decide))
  obtain ⟨hframe, hcontent⟩ := h (.removeEdge 0 1 2) (by decide)
  exact ⟨hframe, hcontent 0 0 rfl, (hr 0 1 2 (by decide)).1 1 (Or.inr rfl) rfl⟩

end CollabDatatypes.CmRDT.LWWGraph
