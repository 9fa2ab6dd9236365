import CollabDatatypes.Container.History
import CollabDatatypes.Graph.View

/-! # One step, entry by entry

`vertex_cases` and `edge_cases` say what a modifier of the graph can do to the entry of a vertex and
to the entry of an edge. Everything that is said later about runs is derived from these two and from
what they imply of one entry: where it comes from (`edge_step`, `live_edge_step`) and that it is never lost
and never grows older (`vertex_advances`, `edge_advances`). -/

namespace CollabDatatypes.Graph

open CollabDatatypes.Lib CollabDatatypes.CmRDT CollabDatatypes.Container

variable {Key U : Type*}

/-- The operation adds the vertex `k`: by name or as an endpoint of an edge. -/
def Touches (k : Key) (o : GraphOp Key U) : Prop :=
  (∃ s, o = .addVertex k s) ∨ (∃ v s, o = .addEdge k v s) ∨ ∃ u s, o = .addEdge u k s

theorem touches_addEdge {u v k : Key} (hk : k = u ∨ k = v) (s : U) :
    Touches k (.addEdge u v s) := by
  rcases hk with rfl | rfl
  · exact Or.inr (Or.inl ⟨v, s, rfl⟩)
  · exact Or.inr (Or.inr ⟨u, s, rfl⟩)

theorem touches_addVertex_iff {k k' : Key} {s : U} : Touches k (.addVertex k' s) ↔ k = k' := by
  constructor
  · rintro (⟨_, he⟩ | ⟨_, _, he⟩ | ⟨_, _, he⟩) <;> cases he
    rfl
  · rintro rfl
    exact Or.inl ⟨s, rfl⟩

theorem touches_addEdge_iff {k u v : Key} {s : U} :
    Touches k (.addEdge u v s) ↔ k = u ∨ k = v := by
  constructor
  · rintro (⟨_, he⟩ | ⟨_, _, he⟩ | ⟨_, _, he⟩) <;> cases he
    · exact Or.inl rfl
    · exact Or.inr rfl
  · exact fun hk => touches_addEdge hk s

@[simp] theorem not_touches_removeVertex {k k' : Key} {s : U} :
    ¬ Touches k (.removeVertex k' s) := by
  rintro (⟨_, he⟩ | ⟨_, _, he⟩ | ⟨_, _, he⟩) <;> cases he

@[simp] theorem not_touches_removeEdge {k u v : Key} {s : U} : ¬ Touches k (.removeEdge u v s) := by
  rintro (⟨_, he⟩ | ⟨_, _, he⟩ | ⟨_, _, he⟩) <;> cases he

@[simp] theorem not_touches_clearVertices {k : Key} {s : U} :
    ¬ Touches k (.clearVertices s : GraphOp Key U) := by
  rintro (⟨_, he⟩ | ⟨_, _, he⟩ | ⟨_, _, he⟩) <;> cases he

@[simp] theorem not_touches_clearVertexEdges {k k' : Key} {s : U} :
    ¬ Touches k (.clearVertexEdges k' s) := by
  rintro (⟨_, he⟩ | ⟨_, _, he⟩ | ⟨_, _, he⟩) <;> cases he

namespace View

variable [DecidableEq Key] [LinearOrder U] [Zero U]

/-! ### Vertices -/

omit [DecidableEq Key] [Zero U] in
theorem timestamp_touched_le {g : View Key U} {u v k : Key} (hk : k = u ∨ k = v) (s : U) :
    (g.touched k s).timestamp ≤ g.highTime u v s := by
  rcases hk with rfl | rfl
  · exact le_max_left _ _
  · exact le_max_right _ _

/-- The entry of the vertex `k` after an operation, the last clear of the vertices having been at
`c`. -/
def vertexCell (k : Key) : GraphOp Key U → U → Option (Metadata U) → Option (Metadata U)
  | .addVertex k' s, c, x => if k = k' then some (addCell c s x) else x
  | .removeVertex k' s, _, x => if k = k' then some (removeCell s x) else x
  | .addEdge u v s, c, x => if k = u ∨ k = v then some (addCell c s x) else x
  | .removeEdge u v _, _, x => if k = u ∨ k = v then some (removeCell 0 x) else x
  | .clearVertices s, c, x => clearCell c s x
  | .clearVertexEdges _ _, _, x => x

theorem adj_apply_cell (g : View Key U) (o : GraphOp Key U) (k : Key) :
    (g.apply o).1.adj.cell k = vertexCell k o g.adj.clearTime (g.adj.cell k) := by
  cases o with
  | addVertex k' s =>
    show (g.adj.add k' s).cell k = if k = k' then _ else _
    rw [Cells.add_cell]
    by_cases h : k = k'
    · rw [if_pos h, if_pos h, h]
    · rw [if_neg h, if_neg h]
  | removeVertex k' s =>
    show (g.adj.remove k' s).cell k = if k = k' then _ else _
    rw [Cells.remove_cell]
    by_cases h : k = k'
    · rw [if_pos h, if_pos h, h]
    · rw [if_neg h, if_neg h]
  | addEdge u v s => exact Cells.add_add_cell g.adj u v k s
  | removeEdge u v s => exact Cells.remove_remove_cell g.adj u v k 0
  | clearVertices s => rfl
  | clearVertexEdges k' s => exact congrArg (Cells.cell · k) (g.clearVertexEdges_adj k' s)

/-- **What a modifier does to the entry of a vertex.** -/
theorem vertex_cases (g : View Key U) (o : GraphOp Key U) (k : Key) :
    (Touches k o ∧ (g.apply o).1.adj.cell k = some (g.touched k o.stamp)) ∨
      (∃ s, o = .removeVertex k s ∧ (g.apply o).1.adj.cell k = some (removeCell s (g.adj.cell k))) ∨
      (∃ u v s, o = .removeEdge u v s ∧ (k = u ∨ k = v) ∧
        (g.apply o).1.adj.cell k = some (removeCell 0 (g.adj.cell k))) ∨
      (∃ s, o = .clearVertices s ∧
        (g.apply o).1.adj.cell k = clearCell g.adj.clearTime s (g.adj.cell k)) ∨
      (¬ Touches k o ∧ (g.apply o).1.adj.cell k = g.adj.cell k) := by
  rw [adj_apply_cell]
  rcases o with ⟨k', s⟩ | ⟨k', s⟩ | ⟨u, v, s⟩ | ⟨u, v, s⟩ | s | ⟨k', s⟩
  · by_cases h : k = k'
    · exact Or.inl ⟨touches_addVertex_iff.mpr h, if_pos h⟩
    · exact Or.inr (Or.inr (Or.inr (Or.inr ⟨mt touches_addVertex_iff.mp h, if_neg h⟩)))
  · by_cases h : k = k'
    · exact Or.inr (Or.inl ⟨s, by rw [h], if_pos h⟩)
    · exact Or.inr (Or.inr (Or.inr (Or.inr ⟨not_touches_removeVertex, if_neg h⟩)))
  · by_cases h : k = u ∨ k = v
    · exact Or.inl ⟨touches_addEdge h s, if_pos h⟩
    · exact Or.inr (Or.inr (Or.inr (Or.inr ⟨mt touches_addEdge_iff.mp h, if_neg h⟩)))
  · by_cases h : k = u ∨ k = v
    · exact Or.inr (Or.inr (Or.inl ⟨u, v, s, rfl, h, if_pos h⟩))
    · exact Or.inr (Or.inr (Or.inr (Or.inr ⟨not_touches_removeEdge, if_neg h⟩)))
  · exact Or.inr (Or.inr (Or.inr (Or.inl ⟨s, rfl, rfl⟩)))
  · exact Or.inr (Or.inr (Or.inr (Or.inr ⟨not_touches_clearVertexEdges, rfl⟩)))

theorem vertex_advances {g : View Key U} {k : Key} {e : Metadata U} (h : g.adj.cell k = some e)
    (o : GraphOp Key U) : ∃ e', (g.apply o).1.adj.cell k = some e' ∧ Advances e e' := by
  rcases g.vertex_cases o k with ⟨-, hx⟩ | ⟨s, -, hx⟩ | ⟨_, _, _, -, -, hx⟩ | ⟨s, -, hx⟩ | ⟨-, hx⟩
  · refine ⟨_, hx, ?_⟩
    unfold touched
    rw [h]
    exact advances_write _ false e
  · refine ⟨_, hx, ?_⟩
    rw [h]
    exact advances_write s true e
  · refine ⟨_, hx, ?_⟩
    rw [h]
    exact advances_write 0 true e
  · rw [hx, h]
    exact advances_clearCell _ s e
  · exact ⟨e, hx.trans h, Advances.refl e⟩

omit [DecidableEq Key] in
/-- No vertex is older than the least stamp. -/
def VerticesNonneg (g : View Key U) : Prop := ∀ k e, g.adj.cell k = some e → 0 ≤ e.timestamp

theorem verticesNonneg_step {g : View Key U} (h : g.VerticesNonneg) {o : GraphOp Key U}
    (ho : 0 ≤ o.stamp) : (g.apply o).1.VerticesNonneg := by
  intro k e he
  rcases g.vertex_cases o k with ⟨-, hx⟩ | ⟨s, rfl, hx⟩ | ⟨_, _, _, -, -, hx⟩ | ⟨s, -, hx⟩ | ⟨-, hx⟩
  · obtain rfl := Option.some.inj (hx.symm.trans he)
    exact ho.trans (le_timestamp_addCell _ _ _)
  · obtain rfl := Option.some.inj (hx.symm.trans he)
    exact ho.trans (le_timestamp_removeCell s _)
  · obtain rfl := Option.some.inj (hx.symm.trans he)
    exact le_timestamp_removeCell 0 _
  · rw [hx] at he
    cases hold : g.adj.cell k with
    | none =>
      rw [hold, clearCell_none] at he
      cases he
    | some e₀ =>
      obtain ⟨e', he', hadv⟩ := advances_clearCell g.adj.clearTime s e₀
      rw [hold, he'] at he
      obtain rfl := Option.some.inj he
      exact (h k e₀ hold).trans hadv.1
  · exact h k e (hx.symm.trans he)

/-! ### Edges -/

omit [Zero U] in
/-- The entry of the edge from `u` to `v` after `add_edge`. -/
def addedEdge (g : View Key U) (u v : Key) (s : U) : Metadata U :=
  if g.repairs u v s then removeCell (g.highTime u v s) (some (g.touchedEdge u v s))
  else g.touchedEdge u v s

omit [Zero U] in
theorem addEdge_cell (g : View Key U) (u v w k : Key) (s : U) :
    ((g.addEdge u v s).edges w).cell k =
      if w = u ∧ k = v then some (g.addedEdge u v s) else (g.edges w).cell k := by
  unfold addEdge
  dsimp only
  rw [Function.update_apply]
  by_cases hw : w = u
  · subst hw
    rw [if_pos (rfl : w = w)]
    by_cases hk : k = v
    · subst hk
      rw [if_pos (⟨rfl, rfl⟩ : w = w ∧ k = k)]
      unfold addedEdge
      split_ifs
      · rw [Cells.remove_cell_self, Cells.add_cell_self]; rfl
      · rw [Cells.add_cell_self]; rfl
    · rw [if_neg (fun h => hk h.2 : ¬ (w = w ∧ k = v))]
      split_ifs
      · rw [Cells.remove_cell_of_ne _ hk, Cells.add_cell_of_ne _ hk]
      · rw [Cells.add_cell_of_ne _ hk]
  · rw [if_neg hw, if_neg fun h => hw h.1]

theorem removeEdge_cell (g : View Key U) (u v w k : Key) (s : U) :
    ((g.removeEdge u v s).edges w).cell k =
      if w = u ∧ k = v then some (removeCell s ((g.edges u).cell v)) else (g.edges w).cell k := by
  unfold removeEdge
  dsimp only
  rw [Function.update_apply]
  by_cases hw : w = u
  · subst hw
    rw [if_pos rfl, Cells.remove_cell]
    simp
  · rw [if_neg hw, if_neg fun h => hw h.1]

omit [Zero U] in
theorem removeVertex_cell (g : View Key U) (u w k : Key) (s : U) :
    ((g.removeVertex u s).edges w).cell k =
      if w = u then clearCell (g.edges w).clearTime s ((g.edges w).cell k)
      else if k = u ∧ live ((g.edges w).cell k) = true then
        some (removeCell s ((g.edges w).cell k))
      else (g.edges w).cell k := by
  unfold removeVertex
  dsimp only
  by_cases hw : w = u
  · rw [if_pos hw, if_pos hw, Cells.clear_cell]
  · rw [if_neg hw, if_neg hw]
    by_cases hk : k = u
    · subst hk
      by_cases hl : live ((g.edges w).cell k) = true
      · rw [if_pos hl, if_pos ⟨rfl, hl⟩, Cells.remove_cell_self]
      · rw [if_neg hl, if_neg fun h => hl h.2]
    · rw [if_neg (fun h => hk h.1 : ¬ (k = u ∧ live ((g.edges w).cell k) = true))]
      split_ifs
      · rw [Cells.remove_cell_of_ne _ hk]
      · rfl

omit [DecidableEq Key] [Zero U] in
theorem clearVertices_cell (g : View Key U) (w k : Key) (s : U) :
    ((g.clearVertices s).edges w).cell k =
      if live (g.adj.cell w) then clearCell (g.edges w).clearTime s ((g.edges w).cell k)
      else (g.edges w).cell k := by
  unfold clearVertices
  dsimp only
  split_ifs <;> rfl

omit [Zero U] in
theorem clearVertexEdges_cell (g : View Key U) (u w k : Key) (s : U) :
    ((g.clearVertexEdges u s).edges w).cell k =
      if w = u ∧ (g.adj.cell u).isSome then
        clearCell (g.edges w).clearTime s ((g.edges w).cell k)
      else (g.edges w).cell k := by
  unfold clearVertexEdges
  by_cases hp : (g.adj.cell u).isSome
  · rw [if_pos hp]
    dsimp only
    rw [Function.update_apply]
    by_cases hw : w = u
    · rw [if_pos hw, if_pos ⟨hw, hp⟩, hw, Cells.clear_cell]
    · rw [if_neg hw, if_neg fun h => hw h.1]
  · rw [if_neg hp, if_neg fun h => hp h.2]

omit [DecidableEq Key] [LinearOrder U] [Zero U] in
/-- The operation clears the edges of `u` with the stamp `s`. -/
def ClearsEdges (g : View Key U) (u : Key) (o : GraphOp Key U) (s : U) : Prop :=
  o = .removeVertex u s ∨ (o = .clearVertices s ∧ live (g.adj.cell u) = true) ∨
    (o = .clearVertexEdges u s ∧ (g.adj.cell u).isSome)

theorem edges_of_clears {g : View Key U} {o : GraphOp Key U} {u : Key} {s : U}
    (h : ClearsEdges g u o s) : (g.apply o).1.edges u = (g.edges u).clear s := by
  rcases h with rfl | ⟨rfl, hl⟩ | ⟨rfl, hp⟩
  · exact if_pos rfl
  · exact if_pos hl
  · exact clearVertexEdges_edges hp s

theorem clearTime_of_not_clears {g : View Key U} {o : GraphOp Key U} {u : Key}
    (h : ∀ s, ¬ ClearsEdges g u o s) :
    ((g.apply o).1.edges u).clearTime = (g.edges u).clearTime := by
  rcases o with ⟨k, s⟩ | ⟨k, s⟩ | ⟨u', v', s⟩ | ⟨u', v', s⟩ | s | ⟨k, s⟩
  · rfl
  · have hu : u ≠ k := fun hu => h s (Or.inl (by rw [hu]))
    show (if u = k then _ else _ : Cells Key U).clearTime = _
    rw [if_neg hu]
    split_ifs <;> rfl
  · show (Function.update g.edges u' _ u : Cells Key U).clearTime = _
    rw [Function.update_apply]
    by_cases hu : u = u'
    · rw [if_pos hu, hu]
      split_ifs <;> rfl
    · rw [if_neg hu]
  · show (Function.update g.edges u' _ u : Cells Key U).clearTime = _
    rw [Function.update_apply]
    by_cases hu : u = u'
    · rw [if_pos hu, hu]
      rfl
    · rw [if_neg hu]
  · have hl : ¬ live (g.adj.cell u) = true := fun hl => h s (Or.inr (Or.inl ⟨rfl, hl⟩))
    show (if live (g.adj.cell u) then _ else _ : Cells Key U).clearTime = _
    rw [if_neg hl]
  · show ((g.clearVertexEdges k s).edges u).clearTime = _
    unfold clearVertexEdges
    by_cases hp : (g.adj.cell k).isSome
    · have hu : u ≠ k := by
        rintro rfl
        exact h s (Or.inr (Or.inr ⟨rfl, hp⟩))
      rw [if_pos hp]
      dsimp only
      rw [Function.update_of_ne hu]
    · rw [if_neg hp]

theorem clearTime_addEdge (g : View Key U) (u v w : Key) (s : U) :
    ((g.addEdge u v s).edges w).clearTime = (g.edges w).clearTime :=
  clearTime_of_not_clears (o := .addEdge u v s) fun s' hs => by
    rcases hs with h | ⟨h, -⟩ | ⟨h, -⟩ <;> cases h

/-- **What a modifier does to the entry of an edge.** -/
theorem edge_cases (g : View Key U) (o : GraphOp Key U) (u v : Key) :
    (∃ s, o = .addEdge u v s ∧ ((g.apply o).1.edges u).cell v = some (g.addedEdge u v s)) ∨
      (∃ s, o = .removeEdge u v s ∧
        ((g.apply o).1.edges u).cell v = some (removeCell s ((g.edges u).cell v))) ∨
      (∃ s, o = .removeVertex v s ∧ u ≠ v ∧ live ((g.edges u).cell v) = true ∧
        ((g.apply o).1.edges u).cell v = some (removeCell s ((g.edges u).cell v))) ∨
      (∃ s, ClearsEdges g u o s ∧ ((g.apply o).1.edges u).cell v =
        clearCell (g.edges u).clearTime s ((g.edges u).cell v)) ∨
      ((g.apply o).1.edges u).cell v = (g.edges u).cell v := by
  rcases o with ⟨k, s⟩ | ⟨k, s⟩ | ⟨u', v', s⟩ | ⟨u', v', s⟩ | s | ⟨k, s⟩
  · exact Or.inr (Or.inr (Or.inr (Or.inr rfl)))
  · have hc := g.removeVertex_cell k u v s
    split_ifs at hc with hu hv
    · subst hu
      exact Or.inr (Or.inr (Or.inr (Or.inl ⟨s, Or.inl rfl, hc⟩)))
    · obtain ⟨rfl, hl⟩ := hv
      exact Or.inr (Or.inr (Or.inl ⟨s, rfl, hu, hl, hc⟩))
    · exact Or.inr (Or.inr (Or.inr (Or.inr hc)))
  · have hc := g.addEdge_cell u' v' u v s
    split_ifs at hc with h
    · obtain ⟨rfl, rfl⟩ := h
      exact Or.inl ⟨s, rfl, hc⟩
    · exact Or.inr (Or.inr (Or.inr (Or.inr hc)))
  · have hc := g.removeEdge_cell u' v' u v s
    split_ifs at hc with h
    · obtain ⟨rfl, rfl⟩ := h
      exact Or.inr (Or.inl ⟨s, rfl, hc⟩)
    · exact Or.inr (Or.inr (Or.inr (Or.inr hc)))
  · have hc := g.clearVertices_cell u v s
    split_ifs at hc with hl
    · exact Or.inr (Or.inr (Or.inr (Or.inl ⟨s, Or.inr (Or.inl ⟨rfl, hl⟩), hc⟩)))
    · exact Or.inr (Or.inr (Or.inr (Or.inr hc)))
  · have hc := g.clearVertexEdges_cell k u v s
    split_ifs at hc with h
    · obtain ⟨rfl, hp⟩ := h
      exact Or.inr (Or.inr (Or.inr (Or.inl ⟨s, Or.inr (Or.inr ⟨rfl, hp⟩), hc⟩)))
    · exact Or.inr (Or.inr (Or.inr (Or.inr hc)))

section Entry

variable {g : View Key U} {o : GraphOp Key U} {u v : Key} {e : Metadata U}

/-- **Where the entry of an edge comes from**: it was there, or `add_edge` wrote its own stamp, or it
left a tombstone (older than the last clear of the edges of `u`, or with the time of a removed
endpoint), or a removal wrote its own stamp. -/
theorem edge_step (h : ((g.apply o).1.edges u).cell v = some e) :
    (g.edges u).cell v = some e ∨
      (o = .addEdge u v e.timestamp ∧ e.isRemoved = false ∧
        AddApplies (g.edges u).clearTime e.timestamp ((g.edges u).cell v) ∧
        (g.repairs u v e.timestamp = true → g.highTime u v e.timestamp ≤ e.timestamp)) ∨
      (∃ s, o = .addEdge u v s ∧ (g.edges u).cell v = none ∧ s ≤ (g.edges u).clearTime ∧
        e = ⟨(g.edges u).clearTime, true⟩) ∨
      (∃ s, o = .addEdge u v s ∧ g.repairs u v s = true ∧ e = ⟨g.highTime u v s, true⟩) ∨
      (e.isRemoved = true ∧ (o = .removeEdge u v e.timestamp ∨ o = .removeVertex v e.timestamp ∨
        (ClearsEdges g u o e.timestamp ∧ (g.edges u).clearTime < e.timestamp))) := by
  rcases g.edge_cases o u v with ⟨s, rfl, hx⟩ | ⟨s, rfl, hx⟩ | ⟨s, rfl, -, -, hx⟩ | ⟨s, hcl, hx⟩ | hx
  · obtain rfl := Option.some.inj (hx.symm.trans h)
    have hcases := addCell_cases (g.edges u).clearTime s ((g.edges u).cell v)
    by_cases hr : g.repairs u v s = true
    · have hadd : g.addedEdge u v s = removeCell (g.highTime u v s) (some (g.touchedEdge u v s)) :=
        if_pos hr
      rw [hadd]
      rcases removeCell_cases (g.highTime u v s) (some (g.touchedEdge u v s)) with
        ⟨-, he⟩ | ⟨e, hte, hle, he⟩
      · rw [he]
        exact Or.inr (Or.inr (Or.inr (Or.inl ⟨s, rfl, hr, rfl⟩)))
      · obtain rfl := Option.some.inj hte
        rw [he]
        rcases hcases with ⟨ha, hc⟩ | ⟨e, hold, -, hc⟩ | ⟨-, -, hc⟩
        · have ht : g.touchedEdge u v s = ⟨s, false⟩ := hc
          rw [ht] at hle ⊢
          exact Or.inr (Or.inl ⟨rfl, rfl, ha, fun _ => hle⟩)
        · have ht : g.touchedEdge u v s = e := hc
          rw [ht]
          exact Or.inl hold
        · have ht : g.touchedEdge u v s = ⟨(g.edges u).clearTime, true⟩ := hc
          rw [repairs, ht] at hr
          simp at hr
    · have hadd : g.addedEdge u v s = g.touchedEdge u v s := if_neg hr
      rw [hadd]
      rcases hcases with ⟨ha, hc⟩ | ⟨e, hold, -, hc⟩ | ⟨hn, hs, hc⟩
      · have ht : g.touchedEdge u v s = ⟨s, false⟩ := hc
        rw [ht]
        exact Or.inr (Or.inl ⟨rfl, rfl, ha, fun hr' => absurd hr' hr⟩)
      · have ht : g.touchedEdge u v s = e := hc
        rw [ht]
        exact Or.inl hold
      · exact Or.inr (Or.inr (Or.inl ⟨s, rfl, hn, hs, hc⟩))
  · obtain rfl := Option.some.inj (hx.symm.trans h)
    rcases removeCell_cases s ((g.edges u).cell v) with ⟨-, he⟩ | ⟨e, hold, -, he⟩
    · rw [he]
      exact Or.inr (Or.inr (Or.inr (Or.inr ⟨rfl, Or.inl rfl⟩)))
    · rw [he]
      exact Or.inl hold
  · obtain rfl := Option.some.inj (hx.symm.trans h)
    rcases removeCell_cases s ((g.edges u).cell v) with ⟨-, he⟩ | ⟨e, hold, -, he⟩
    · rw [he]
      exact Or.inr (Or.inr (Or.inr (Or.inr ⟨rfl, Or.inr (Or.inl rfl)⟩)))
    · rw [he]
      exact Or.inl hold
  · rw [hx] at h
    rcases clearCell_cases (g.edges u).clearTime s ((g.edges u).cell v) with
      ⟨he, -⟩ | ⟨hc, -, -, -, he⟩
    · exact Or.inl (he.symm.trans h)
    · obtain rfl := Option.some.inj (he.symm.trans h)
      exact Or.inr (Or.inr (Or.inr (Or.inr ⟨rfl, Or.inr (Or.inr ⟨hcl, hc⟩)⟩)))
  · exact Or.inl (hx.symm.trans h)

/-- **Where a visible edge comes from**: it was there, or `add_edge` wrote its own stamp. -/
theorem live_edge_step {t : U} (h : ((g.apply o).1.edges u).cell v = some ⟨t, false⟩) :
    (g.edges u).cell v = some ⟨t, false⟩ ∨
      o = .addEdge u v t ∧ AddApplies (g.edges u).clearTime t ((g.edges u).cell v) := by
  rcases edge_step h with hold | ⟨ho, -, happ, -⟩ | ⟨_, -, -, -, he⟩ | ⟨_, -, -, he⟩ | ⟨he, -⟩
  · exact Or.inl hold
  · exact Or.inr ⟨ho, happ⟩
  · cases he
  · cases he
  · cases he

omit [DecidableEq Key] [Zero U] in
theorem advances_addedEdge (g : View Key U) (u v : Key) (s : U) :
    Advances (g.touchedEdge u v s) (g.addedEdge u v s) := by
  unfold addedEdge
  split_ifs
  · exact advances_write _ true _
  · exact Advances.refl _

theorem edge_advances (h : (g.edges u).cell v = some e) (o : GraphOp Key U) :
    ∃ e', ((g.apply o).1.edges u).cell v = some e' ∧ Advances e e' := by
  have hrem : ∀ s, Advances e (removeCell s ((g.edges u).cell v)) := by
    intro s
    rw [h]
    exact advances_write s true e
  rcases g.edge_cases o u v with ⟨s, -, hx⟩ | ⟨s, -, hx⟩ | ⟨s, -, -, -, hx⟩ | ⟨s, -, hx⟩ | hx
  · refine ⟨_, hx, Advances.trans ?_ (g.advances_addedEdge u v s)⟩
    unfold touchedEdge
    rw [h]
    exact advances_write s false e
  · exact ⟨_, hx, hrem s⟩
  · exact ⟨_, hx, hrem s⟩
  · rw [hx, h]
    exact advances_clearCell _ s e
  · exact ⟨e, hx.trans h, Advances.refl e⟩

theorem edge_mono (h : (g.edges u).cell v = some e) (o : GraphOp Key U) :
    ∃ e', ((g.apply o).1.edges u).cell v = some e' ∧ e.timestamp ≤ e'.timestamp :=
  (edge_advances h o).imp fun _ he => ⟨he.1, he.2.1⟩

theorem edge_named {s : U} (ho : o = .addEdge u v s ∨ o = .removeEdge u v s) :
    ∃ e, ((g.apply o).1.edges u).cell v = some e ∧ s ≤ e.timestamp := by
  rcases ho with rfl | rfl
  · refine ⟨_, (g.addEdge_cell u v u v s).trans (if_pos ⟨rfl, rfl⟩), ?_⟩
    exact (le_timestamp_addCell _ s _).trans (g.advances_addedEdge u v s).1
  · exact ⟨_, (g.removeEdge_cell u v u v s).trans (if_pos ⟨rfl, rfl⟩), le_timestamp_removeCell s _⟩

theorem le_of_clearsEdges {s : U} (hcl : ClearsEdges g u o s) (hs : (g.edges u).clearTime < s)
    (h : ((g.apply o).1.edges u).cell v = some e) : s ≤ e.timestamp := by
  rw [edges_of_clears hcl] at h
  exact Cells.le_of_clear hs h

/-- A `clear_vertices` that keeps an older edge of a visible vertex comes after a newer clear of its
edge set. -/
theorem le_edgeClear_of_kept {s : U} (hu : live (g.adj.cell u) = true)
    (h : ((g.apply (.clearVertices s)).1.edges u).cell v = some e) (hlt : e.timestamp < s) :
    s ≤ (g.edges u).clearTime := by
  by_contra hs
  have hle := le_of_clearsEdges (Or.inr (Or.inl ⟨rfl, hu⟩)) (not_le.mp hs) h
  exact absurd hlt hle.not_gt

theorem edgeClear_mono (g : View Key U) (o : GraphOp Key U) (u : Key) :
    (g.edges u).clearTime ≤ ((g.apply o).1.edges u).clearTime := by
  by_cases h : ∃ s, ClearsEdges g u o s
  · obtain ⟨s, hs⟩ := h
    rw [edges_of_clears hs]
    exact le_max_left _ _
  · exact (clearTime_of_not_clears fun s hs => h ⟨s, hs⟩).ge

theorem edge_of_removeVertex {s t : U} (huv : u ≠ v)
    (h : (g.edges u).cell v = some ⟨t, false⟩) (hts : t < s) :
    ((g.apply (.removeVertex v s)).1.edges u).cell v = some ⟨s, true⟩ := by
  refine (g.removeVertex_cell v u v s).trans ?_
  rw [if_neg huv, if_pos ⟨rfl, by rw [h]; rfl⟩, h, removeCell, write_of_lt hts]

theorem edge_of_clearVertices {s : U} (h : s ≤ (g.edges u).clearTime) (v : Key) :
    ((g.apply (.clearVertices s)).1.edges u).cell v = (g.edges u).cell v := by
  refine (g.clearVertices_cell u v s).trans ?_
  split_ifs
  · exact clearCell_of_le h _
  · rfl

theorem edge_of_touches {k : Key} (hk : Touches k o) (ho : ∀ s, o ≠ .addEdge u v s) :
    ((g.apply o).1.edges u).cell v = (g.edges u).cell v := by
  rcases g.edge_cases o u v with ⟨s, rfl, -⟩ | ⟨s, rfl, -⟩ | ⟨s, rfl, -⟩ |
    ⟨s, rfl | ⟨rfl, -⟩ | ⟨rfl, -⟩, -⟩ | hx
  · exact absurd rfl (ho s)
  · exact absurd hk not_touches_removeEdge
  · exact absurd hk not_touches_removeVertex
  · exact absurd hk not_touches_removeVertex
  · exact absurd hk not_touches_clearVertices
  · exact absurd hk not_touches_clearVertexEdges
  · exact hx

/-! ### Visible vertices -/

omit [DecidableEq Key] [Zero U] in
/-- The operation adds the vertex `k`, and the add takes effect. -/
def Revives (g : View Key U) (o : GraphOp Key U) (k : Key) : Prop :=
  Touches k o ∧ AddApplies g.adj.clearTime o.stamp (g.adj.cell k)

/-- **Where a visible vertex comes from**: it was there, or the operation revived it. -/
theorem vertex_step {k : Key} {t : U} (h : (g.apply o).1.adj.cell k = some ⟨t, false⟩) :
    g.adj.cell k = some ⟨t, false⟩ ∨ Revives g o k ∧ o.stamp = t := by
  have hrem : ∀ s, some (removeCell s (g.adj.cell k)) = some ⟨t, false⟩ →
      g.adj.cell k = some ⟨t, false⟩ := by
    intro s hs
    rcases removeCell_cases s (g.adj.cell k) with ⟨-, he⟩ | ⟨e, hold, -, he⟩
    · rw [he] at hs; cases hs
    · rw [he] at hs; exact hold.trans hs
  rcases g.vertex_cases o k with ⟨ht, hx⟩ | ⟨s, -, hx⟩ | ⟨_, _, _, -, -, hx⟩ | ⟨s, -, hx⟩ | ⟨-, hx⟩
  · replace h := Option.some.inj (hx.symm.trans h)
    rcases addCell_cases g.adj.clearTime o.stamp (g.adj.cell k) with
      ⟨ha, he⟩ | ⟨e, hold, -, he⟩ | ⟨-, -, he⟩
    · cases he.symm.trans h
      exact Or.inr ⟨⟨ht, ha⟩, rfl⟩
    · cases he.symm.trans h
      exact Or.inl hold
    · cases he.symm.trans h
  · exact Or.inl (hrem s (hx.symm.trans h))
  · exact Or.inl (hrem 0 (hx.symm.trans h))
  · rcases clearCell_cases g.adj.clearTime s (g.adj.cell k) with ⟨he, -⟩ | ⟨-, _, -, -, he⟩
    · exact Or.inl (he.symm.trans (hx.symm.trans h))
    · cases he.symm.trans (hx.symm.trans h)
  · exact Or.inl (hx.symm.trans h)

theorem live_vertex_step {k : Key} (h : live ((g.apply o).1.adj.cell k) = true) :
    live (g.adj.cell k) = true ∨ Revives g o k := by
  obtain ⟨t, ht⟩ := live_iff.mp h
  refine (vertex_step ht).imp (fun hold => ?_) And.left
  rw [hold]
  rfl

theorem adj_of_touches {k : Key} (h : Touches k o) :
    (g.apply o).1.adj.cell k = some (g.touched k o.stamp) := by
  rcases h with ⟨s, rfl⟩ | ⟨v, s, rfl⟩ | ⟨u, s, rfl⟩
  · exact Cells.add_cell_self _ k s
  · exact (Cells.add_add_cell g.adj k v k s).trans (if_pos (Or.inl rfl))
  · exact (Cells.add_add_cell g.adj u k k s).trans (if_pos (Or.inr rfl))

omit [DecidableEq Key] [Zero U] in
/-- The endpoints of a visible edge have entries at least as new as the edge. -/
def EndsDominate (g : View Key U) : Prop :=
  ∀ u v t, (g.edges u).cell v = some ⟨t, false⟩ → ∀ k, k = u ∨ k = v →
    ∃ e, g.adj.cell k = some e ∧ t ≤ e.timestamp

/-- **Every modifier keeps it**: an edge that was there has endpoints that only advance, and an
`add_edge` refreshes both endpoints with its own stamp first. -/
theorem endsDominate_step (h : g.EndsDominate) (o : GraphOp Key U) :
    (g.apply o).1.EndsDominate := by
  intro u v t ht k hk
  rcases live_edge_step ht with hold | ⟨rfl, -⟩
  · obtain ⟨e, he, hle⟩ := h u v t hold k hk
    obtain ⟨e', he', hadv⟩ := vertex_advances he o
    exact ⟨e', he', hle.trans hadv.1⟩
  · exact ⟨_, adj_of_touches (touches_addEdge hk t), le_timestamp_addCell _ t _⟩

theorem live_of_touches {k : Key} (h : Touches k o) (hl : live (g.adj.cell k) = true) :
    live ((g.apply o).1.adj.cell k) = true := by
  rw [adj_of_touches h]
  exact live_addCell.mpr (Or.inr hl)

theorem adj_of_revives {k : Key} (h : Revives g o k) :
    (g.apply o).1.adj.cell k = some ⟨o.stamp, false⟩ := by
  rw [adj_of_touches h.1]
  exact congrArg some (addCell_of_applies h.2)

theorem edge_of_live_ends {a : U}
    (hends : ∀ k, k = u ∨ k = v → live (g.adj.cell k) = true ∨
      AddApplies g.adj.clearTime a (g.adj.cell k)) :
    ((g.apply (.addEdge u v a)).1.edges u).cell v = some (g.touchedEdge u v a) := by
  have hlive : ∀ k, k = u ∨ k = v → (g.touched k a).isRemoved = false := by
    intro k hk
    have := live_addCell.mpr (hends k hk).symm
    rwa [live_some, Bool.not_eq_true'] at this
  have hadd : g.addedEdge u v a = g.touchedEdge u v a := by
    unfold addedEdge repairs
    rw [hlive u (Or.inl rfl), hlive v (Or.inr rfl), Bool.or_self, Bool.and_false]
    exact if_neg Bool.false_ne_true
  rw [← hadd]
  exact (addEdge_cell g u v u v a).trans (if_pos ⟨rfl, rfl⟩)

theorem adj_clearTime_of_touches {k : Key} (h : Touches k o) :
    (g.apply o).1.adj.clearTime = g.adj.clearTime := by
  rcases h with ⟨s, rfl⟩ | ⟨v, s, rfl⟩ | ⟨u, s, rfl⟩ <;> rfl

theorem adj_clearTime_step :
    (∃ s, o = .clearVertices s) ∨ (g.apply o).1.adj.clearTime = g.adj.clearTime := by
  cases o with
  | clearVertices s => exact Or.inl ⟨s, rfl⟩
  | clearVertexEdges k s =>
    refine Or.inr ?_
    show (g.clearVertexEdges k s).adj.clearTime = _
    rw [clearVertexEdges_adj]
  | _ => exact Or.inr rfl

theorem adj_clearTime_mono (g : View Key U) (o : GraphOp Key U) :
    g.adj.clearTime ≤ (g.apply o).1.adj.clearTime := by
  rcases adj_clearTime_step (g := g) (o := o) with ⟨s, rfl⟩ | h
  · exact le_max_left _ _
  · exact h.ge

theorem dead_vertex_step {k : Key} {t : U} (h : g.adj.cell k = some ⟨t, false⟩) (h0 : 0 ≤ t)
    (hd : ¬ live ((g.apply o).1.adj.cell k) = true) :
    (∃ s, o = .removeVertex k s ∧ t < s) ∨
      ∃ s, o = .clearVertices s ∧ g.adj.clearTime < s ∧ t < s := by
  rcases g.vertex_cases o k with ⟨-, hx⟩ | ⟨s, rfl, hx⟩ | ⟨_, _, _, -, -, hx⟩ | ⟨s, rfl, hx⟩ | ⟨-, hx⟩
  · rw [hx] at hd
    exact absurd (live_addCell.mpr (Or.inr (by rw [h]; rfl))) hd
  · rw [hx, h] at hd
    refine Or.inl ⟨s, rfl, ?_⟩
    by_contra hs
    rw [removeCell, write_of_le (not_lt.mp hs)] at hd
    exact hd rfl
  · rw [hx, h, removeCell, write_of_le h0] at hd
    exact absurd rfl hd
  · rw [hx, h] at hd
    rcases clearCell_cases g.adj.clearTime s (some ⟨t, false⟩) with ⟨he, -⟩ | ⟨hc, e, he, hlt, -⟩
    · rw [he] at hd
      exact absurd rfl hd
    · cases he
      exact Or.inr ⟨s, rfl, hc, hlt⟩
  · rw [hx, h] at hd
    exact absurd rfl hd

end Entry

end View

end CollabDatatypes.Graph
