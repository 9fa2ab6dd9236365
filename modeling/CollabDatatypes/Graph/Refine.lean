import CollabDatatypes.Container.Map
import CollabDatatypes.Graph.View

/-! # The graph refines its view

`LWWGraph.view` reads the two levels of entries of a graph. Every modifier commutes with it and
returns what the one of the views returns (`view_apply`), so a run of the graph is a run of the views
(`view_run`). -/

namespace CollabDatatypes.CmRDT.LWWGraph

open CollabDatatypes.Lib CollabDatatypes.Container CollabDatatypes.Graph

variable {Key T U : Type*} [DecidableEq Key]

/-! ### The abstraction -/

/-- The edges of a vertex, key by key. -/
def edgesOf [Zero U] (m : LWWMap Key (Vertex Key T U) U) (k : Key) : Cells Key U :=
  match m.valueOf k with
  | some v => v.edges.cells
  | none => Cells.init Key U

/-- The entries of the graph. -/
def view [Zero U] (g : LWWGraph Key T U) : View Key U := ⟨g.adj.cells, edgesOf g.adj⟩

section Edges

variable [Zero U] {m : LWWMap Key (Vertex Key T U) U} {k : Key}

theorem edgesOf_of_valueOf {v : Vertex Key T U} (h : m.valueOf k = some v) :
    edgesOf m k = v.edges.cells := by
  unfold edgesOf
  rw [h]

theorem edgesOf_of_lookup {e : Element (Vertex Key T U) U} (h : m.map.lookup k = some e) :
    edgesOf m k = e.value.edges.cells :=
  edgesOf_of_valueOf (by rw [LWWMap.valueOf, h]; rfl)

theorem edgesOf_modify {f : Vertex Key T U → Vertex Key T U} {F : Cells Key U → Cells Key U}
    (h : ∀ v, (f v).edges.cells = F v.edges.cells) {m : LWWMap Key (Vertex Key T U) U} {k : Key}
    (hk : (m.cells.cell k).isSome) :
    edgesOf (m.modify k f) = Function.update (edgesOf m) k (F (edgesOf m k)) := by
  funext k'
  rw [Function.update_apply]
  unfold edgesOf
  rw [LWWMap.valueOf_modify]
  split_ifs with hk'
  · subst hk'
    cases hv : m.valueOf k' with
    | none =>
      rw [LWWMap.valueOf_eq_none.mp hv] at hk
      cases hk
    | some v => exact h v
  · rfl

theorem edgesOf_forEach (m : LWWMap Key (Vertex Key T U) U) (k : Key)
    {f : Key → Element (Vertex Key T U) U → Vertex Key T U} {F : Key → Cells Key U → Cells Key U}
    (h : ∀ e, m.map.lookup k = some e → (f k e).edges.cells = F k e.value.edges.cells)
    (h0 : m.map.lookup k = none → F k (Cells.init Key U) = Cells.init Key U) :
    edgesOf (m.forEach f) k = F k (edgesOf m k) := by
  unfold edgesOf
  rw [LWWMap.valueOf_forEach]
  unfold LWWMap.valueOf
  cases he : m.map.lookup k with
  | none => exact (h0 he).symm
  | some e => exact h e he

variable [LinearOrder U]

theorem edgesOf_clear (m : LWWMap Key (Vertex Key T U) U) (s : U) :
    edgesOf (m.clear s).1 = edgesOf m := by
  funext k
  unfold edgesOf
  rw [LWWMap.valueOf_clear]

variable [Inhabited T]

theorem edgesOf_add (m : LWWMap Key (Vertex Key T U) U) (key : Key) (s : U) :
    edgesOf (m.add key s).1 = edgesOf m := by
  funext k
  unfold edgesOf
  rw [LWWMap.valueOf_add]
  split_ifs with hk
  · rw [hk]
    cases m.valueOf key <;> rfl
  · rfl

theorem edgesOf_remove (m : LWWMap Key (Vertex Key T U) U) (key : Key) (s : U) :
    edgesOf (m.remove key s).1 = edgesOf m := by
  funext k
  unfold edgesOf
  rw [LWWMap.valueOf_remove]
  split_ifs with hk
  · rw [hk]
    cases m.valueOf key <;> rfl
  · rfl

omit [LinearOrder U] in
theorem edgesOf_vertexAt (m : LWWMap Key (Vertex Key T U) U) (k : Key) :
    (vertexAt m k).edges.cells = edgesOf m k := by
  unfold vertexAt LWWMap.crdtFind edgesOf LWWMap.valueOf
  cases m.map.lookup k <;> rfl

omit [LinearOrder U] [Inhabited T] in
theorem metadataAt_of_cell {e : Metadata U} (h : m.cells.cell k = some e) :
    metadataAt m k = e := by
  rw [LWWMap.cells_cell] at h
  obtain ⟨e', he', rfl⟩ := Option.map_eq_some_iff.mp h
  unfold metadataAt LWWMap.crdtFind
  rw [he']

end Edges

/-! ### Lookup -/

section Lookup

variable [Zero U]

theorem view_empty : (empty : LWWGraph Key T U).view = View.init Key U := rfl

theorem hasVertex_eq (g : LWWGraph Key T U) (k : Key) : g.hasVertex k = live (g.view.adj.cell k) := by
  unfold hasVertex
  rw [Bool.eq_iff_iff, beq_iff_eq]
  exact LWWMap.count_eq_one g.adj k

theorem crdtHasVertex_eq (g : LWWGraph Key T U) (k : Key) :
    g.crdtHasVertex k = (g.view.adj.cell k).isSome := by
  unfold crdtHasVertex LWWMap.crdtCount
  show _ = (g.adj.cells.cell k).isSome
  rw [LWWMap.cells_cell, Option.isSome_map]
  cases g.adj.map.lookup k <;> rfl

/-- The edges of a removed vertex are hidden. -/
theorem hasEdge_eq (g : LWWGraph Key T U) (u v : Key) :
    g.hasEdge u v = (live (g.view.adj.cell u) && live ((g.view.edges u).cell v)) := by
  unfold hasEdge countEdge
  rw [LWWMap.find_eq]
  show _ = (live (g.adj.cells.cell u) && live ((edgesOf g.adj u).cell v))
  cases hl : live (g.adj.cells.cell u) with
  | false => rfl
  | true =>
    rw [if_pos rfl]
    cases hm : g.adj.map.lookup u with
    | none =>
      rw [LWWMap.cells_cell, hm] at hl
      cases hl
    | some e =>
      rw [edgesOf_of_lookup hm, Bool.true_and, Bool.eq_iff_iff, beq_iff_eq]
      exact LWWSet.count_eq_one e.value.edges v

theorem edges_of_not_isSome {g : LWWGraph Key T U} {k : Key}
    (h : ¬ (g.view.adj.cell k).isSome = true) : g.view.edges k = Cells.init Key U := by
  rw [Bool.not_eq_true, Option.isSome_eq_false_iff, Option.isNone_iff_eq_none] at h
  have hnone : g.adj.valueOf k = none := LWWMap.valueOf_eq_none.mpr h
  show edgesOf g.adj k = _
  unfold edgesOf
  rw [hnone]

omit [Zero U] in
/-- The CRDT state of a vertex, visible or not. -/
def vertexEntry (g : LWWGraph Key T U) (k : Key) : Option (Metadata U) :=
  (g.adj.crdtFind k).map Element.metadata

omit [Zero U] in
/-- The CRDT state of an edge, visible or not, in the edge set of a vertex, visible or not. -/
def edgeEntry (g : LWWGraph Key T U) (u v : Key) : Option (Metadata U) :=
  (g.adj.crdtFind u).bind fun vertex => vertex.value.edges.crdtFind v

omit [Zero U] in
/-- The time of the last clear of the edge set of a vertex. -/
def edgeClearTime (g : LWWGraph Key T U) (u : Key) : Option U :=
  (g.adj.crdtFind u).map fun vertex => vertex.value.edges.lastClearTime

theorem vertexEntry_eq (g : LWWGraph Key T U) (k : Key) : g.vertexEntry k = g.view.adj.cell k :=
  (LWWMap.cells_cell g.adj k).symm

theorem edgeEntry_eq (g : LWWGraph Key T U) (u v : Key) :
    g.edgeEntry u v = (g.view.edges u).cell v := by
  show (g.adj.map.lookup u).bind _ = (edgesOf g.adj u).cell v
  cases h : g.adj.map.lookup u with
  | none =>
    rw [edgesOf, LWWMap.valueOf, h]
    rfl
  | some vertex =>
    rw [edgesOf_of_lookup h]
    rfl

theorem edgeClearTime_eq (g : LWWGraph Key T U) (u : Key) :
    g.edgeClearTime u = (g.vertexEntry u).map fun _ => (g.view.edges u).clearTime := by
  show (g.adj.map.lookup u).map _ = ((g.adj.map.lookup u).map _).map fun _ =>
    (edgesOf g.adj u).clearTime
  cases h : g.adj.map.lookup u with
  | none => rfl
  | some vertex =>
    rw [edgesOf_of_lookup h]
    rfl

end Lookup

/-! ### Modifiers -/

variable [LinearOrder U] [Zero U]

theorem view_clearVertices (g : LWWGraph Key T U) (s : U) :
    (g.clearVertices s).1.view = g.view.clearVertices s ∧
      (g.clearVertices s).2 = decide (g.view.adj.clearTime < s) := by
  unfold clearVertices
  refine ⟨View.ext ?_ ?_, LWWMap.clear_snd _ s⟩
  · exact (LWWMap.cells_clear _ s).trans (congrArg (·.clear s) (LWWMap.cells_forEach g.adj _))
  · refine (edgesOf_clear _ s).trans (funext fun w => ?_)
    refine edgesOf_forEach (F := fun w x => if live (g.adj.cells.cell w) then x.clear s else x)
      g.adj w (fun e he => ?_) fun he => ?_
    · rw [LWWMap.cells_cell, he]
      cases h : e.isRemoved with
      | false => simp [h, Element.metadata, LWWSet.cells_clear]
      | true => simp [h, Element.metadata]
    · rw [LWWMap.cells_cell, he]
      rfl

theorem view_clearVertexEdges (g : LWWGraph Key T U) (k : Key) (s : U) :
    (g.clearVertexEdges k s).1.view = g.view.clearVertexEdges k s ∧
      (g.clearVertexEdges k s).2 =
        ((g.view.adj.cell k).isSome && decide ((g.view.edges k).clearTime < s)) := by
  have hcell : g.view.adj.cell k = (g.adj.map.lookup k).map Element.metadata :=
    LWWMap.cells_cell g.adj k
  unfold clearVertexEdges LWWMap.crdtFind View.clearVertexEdges
  rw [hcell, Option.isSome_map]
  cases he : g.adj.map.lookup k with
  | none => exact ⟨rfl, rfl⟩
  | some e =>
    have hedges : g.view.edges k = e.value.edges.cells := edgesOf_of_lookup he
    rw [hedges]
    refine ⟨View.ext (LWWMap.cells_modify g.adj k _) ?_, LWWSet.clear_snd e.value.edges s⟩
    exact edgesOf_modify (F := fun _ => e.value.edges.cells.clear s)
      (fun _ => LWWSet.cells_clear e.value.edges s) (by rw [LWWMap.cells_cell, he]; rfl)

variable [Inhabited T]

theorem view_addVertex (g : LWWGraph Key T U) (k : Key) (s : U) :
    (g.addVertex k s).1.view = g.view.addVertex k s ∧
      (g.addVertex k s).2 = (!live (g.view.adj.cell k) && live ((g.view.adj.add k s).cell k)) := by
  refine ⟨View.ext (LWWMap.cells_add g.adj k s) (edgesOf_add g.adj k s), ?_⟩
  exact LWWMap.add_snd g.adj k s

theorem view_removeVertex (g : LWWGraph Key T U) (k : Key) (s : U) :
    (g.removeVertex k s).1.view = g.view.removeVertex k s ∧
      (g.removeVertex k s).2 =
        (live (g.view.adj.cell k) && !live ((g.view.adj.remove k s).cell k)) := by
  unfold removeVertex
  refine ⟨View.ext ?_ (funext fun w => ?_), LWWMap.remove_snd g.adj k s⟩
  · refine (LWWMap.cells_forEach _ _).trans ((LWWMap.cells_modify _ k _).trans ?_)
    exact LWWMap.cells_remove g.adj k s
  · have hmod := edgesOf_modify (f := fun vertex : Vertex Key T U =>
      { vertex with edges := (vertex.edges.clear s).1 }) (F := fun x => x.clear s)
      (m := (g.adj.remove k s).1) (k := k) (fun v => LWWSet.cells_clear v.edges s)
      (by rw [LWWMap.cells_remove, Cells.remove_cell_self]; rfl)
    refine (edgesOf_forEach
      (F := fun w x => if w ≠ k ∧ live (x.cell k) = true then x.remove k s else x) _ w
      (fun e _ => ?_) fun _ => by simp [Cells.init]).trans ?_
    · have hcount := LWWSet.count_eq_one e.value.edges k
      by_cases h : w ≠ k ∧ e.value.edges.count k = 1
      · rw [if_pos h, if_pos ⟨h.1, hcount.mp h.2⟩]
        exact LWWSet.cells_remove e.value.edges k s
      · rw [if_neg h, if_neg fun h' => h ⟨h'.1, hcount.mpr h'.2⟩]
    · rw [hmod, edgesOf_remove, Function.update_apply]
      show _ = if w = k then (edgesOf g.adj w).clear s
        else if live ((edgesOf g.adj w).cell k) then (edgesOf g.adj w).remove k s
        else edgesOf g.adj w
      by_cases hw : w = k
      · simp [hw]
      · simp [hw]

/-- The vertices once `remove_edge` has made sure that both endpoints are there. -/
theorem removeBoth (m : LWWMap Key (Vertex Key T U) U) (u v : Key) (s : U) :
    (if u ≠ v then ((m.remove u s).1.remove v s).1 else (m.remove u s).1).cells =
        (m.cells.remove u s).remove v s ∧
      edgesOf (if u ≠ v then ((m.remove u s).1.remove v s).1 else (m.remove u s).1) =
        edgesOf m := by
  by_cases h : u = v
  · rw [if_neg (not_not.mpr h), LWWMap.cells_remove, edgesOf_remove, h]
    exact ⟨(Cells.remove_remove_self _ v s).symm, rfl⟩
  · rw [if_pos h, LWWMap.cells_remove, LWWMap.cells_remove, edgesOf_remove, edgesOf_remove]
    exact ⟨rfl, rfl⟩

theorem view_removeEdge (g : LWWGraph Key T U) (u v : Key) (s : U) :
    (g.removeEdge u v s).1.view = g.view.removeEdge u v s ∧
      (g.removeEdge u v s).2 =
        (live ((g.view.edges u).cell v) && !live (((g.view.edges u).remove v s).cell v)) := by
  obtain ⟨hcells, hedges⟩ := removeBoth g.adj u v 0
  unfold removeEdge
  dsimp only
  generalize (if u ≠ v then ((g.adj.remove u 0).1.remove v 0).1 else (g.adj.remove u 0).1) = m
    at hcells hedges ⊢
  have hu : (vertexAt m u).edges.cells = g.view.edges u := by rw [edgesOf_vertexAt, hedges]; rfl
  refine ⟨View.ext ((LWWMap.cells_modify m u _).trans hcells) ?_, ?_⟩
  · refine (edgesOf_modify (F := fun _ => (g.view.edges u).remove v s) (fun _ => ?_) ?_).trans ?_
    · rw [LWWSet.cells_remove, hu]
    · rw [hcells, Cells.remove_remove_cell, if_pos (Or.inl rfl)]
      rfl
    · rw [hedges]
      rfl
  · rw [LWWSet.remove_snd, hu]

/-- The vertices once `add_edge` has added both endpoints, and whether the destination became
visible. -/
theorem addBoth (m : LWWMap Key (Vertex Key T U) U) (u v : Key) (s : U) :
    (if u ≠ v then (m.add u s).1.add v s else ((m.add u s).1, false)).1.cells =
        (m.cells.add u s).add v s ∧
      edgesOf (if u ≠ v then (m.add u s).1.add v s else ((m.add u s).1, false)).1 = edgesOf m ∧
      (if u ≠ v then (m.add u s).1.add v s else ((m.add u s).1, false)).2 =
        (decide (u ≠ v) && (!live (m.cells.cell v) &&
          !(addCell m.cells.clearTime s (m.cells.cell v)).isRemoved)) := by
  by_cases h : u = v
  · rw [if_neg (not_not.mpr h), LWWMap.cells_add, edgesOf_add, h]
    exact ⟨(Cells.add_add_self _ v s).symm, rfl, by simp⟩
  · rw [if_pos h, LWWMap.cells_add, LWWMap.cells_add, edgesOf_add, edgesOf_add]
    refine ⟨rfl, rfl, ?_⟩
    rw [LWWMap.add_snd, LWWMap.cells_add, Cells.add_cell_self, Cells.add_cell_of_ne _ (Ne.symm h),
      decide_eq_true h]
    rfl

theorem view_addEdge (g : LWWGraph Key T U) (u v : Key) (s : U) :
    (g.addEdge u v s).1.view = g.view.addEdge u v s ∧
      (g.addEdge u v s).2 =
      { isEdgeAdded := !live ((g.view.edges u).cell v) &&
          !(g.view.touchedEdge u v s).isRemoved && !g.view.repairs u v s
        isFromAdded := !live (g.view.adj.cell u) && !(g.view.touched u s).isRemoved
        isToAdded := decide (u ≠ v) &&
          (!live (g.view.adj.cell v) && !(g.view.touched v s).isRemoved) } := by
  obtain ⟨hcells, hedges, hto⟩ := addBoth g.adj u v s
  have hfrom : (g.adj.add u s).2 =
      (!live (g.view.adj.cell u) && !(g.view.touched u s).isRemoved) := by
    rw [LWWMap.add_snd, Cells.add_cell_self]
    rfl
  unfold addEdge
  dsimp only
  rw [hto, hfrom]
  generalize (if u ≠ v then (g.adj.add u s).1.add v s else ((g.adj.add u s).1, false)).1 = m
    at hcells hedges ⊢
  have hu : (vertexAt m u).edges.cells = g.view.edges u := by rw [edgesOf_vertexAt, hedges]; rfl
  have hadd : ((vertexAt m u).edges.add v s).1.cells = (g.view.edges u).add v s := by
    rw [LWWSet.cells_add, hu]
  have hcell : ∀ k, k = u ∨ k = v → m.cells.cell k = some (g.view.touched k s) := by
    intro k hk
    rw [hcells, Cells.add_add_cell, if_pos hk]
    rfl
  have hfind : ((vertexAt m u).edges.add v s).1.crdtFind v = some (g.view.touchedEdge u v s) := by
    show ((vertexAt m u).edges.add v s).1.cells.cell v = _
    rw [hadd, Cells.add_cell_self]
    rfl
  have hedge : ((vertexAt m u).edges.add v s).2 =
      (!live ((g.view.edges u).cell v) && !(g.view.touchedEdge u v s).isRemoved) := by
    rw [LWWSet.add_snd, hu, Cells.add_cell_self]
    rfl
  have hmod := edgesOf_modify (f := fun vertex : Vertex Key T U =>
    { vertex with edges := ((vertexAt m u).edges.add v s).1 })
    (F := fun _ => (g.view.edges u).add v s) (m := m) (k := u) (fun _ => hadd)
    (by rw [hcell u (Or.inl rfl)]; rfl)
  have hcells₁ := LWWMap.cells_modify m u fun vertex : Vertex Key T U =>
    { vertex with edges := ((vertexAt m u).edges.add v s).1 }
  rw [hfind, hedge]
  generalize (m.modify u fun vertex : Vertex Key T U =>
    { vertex with edges := ((vertexAt m u).edges.add v s).1 }) = m₁ at hmod hcells₁ ⊢
  have hmeta : ∀ k, k = u ∨ k = v → metadataAt m₁ k = g.view.touched k s := fun k hk =>
    metadataAt_of_cell (by rw [hcells₁, hcell k hk])
  have hmax : ∀ a b : U, (if a > b then a else b) = max a b := by
    intro a b
    split_ifs with h
    · exact (max_eq_left h.le).symm
    · exact (max_eq_right (not_lt.mp h)).symm
  rw [hmeta u (Or.inl rfl), hmeta v (Or.inr rfl), hmax, Option.any_some]
  by_cases hr : g.view.repairs u v s = true
  · obtain ⟨h1, h2⟩ := (Bool.and_eq_true _ _).mp hr
    rw [if_pos h1, if_pos h2, hr]
    refine ⟨View.ext ((LWWMap.cells_modify m₁ u _).trans (hcells₁.trans hcells)) ?_,
      by rw [Bool.not_true, Bool.and_false]; rfl⟩
    refine (edgesOf_modify (F := fun x => x.remove v (g.view.highTime u v s))
      (fun vertex => LWWSet.cells_remove vertex.edges v _)
      (by rw [hcells₁, hcell u (Or.inl rfl)]; rfl)).trans ?_
    rw [hmod, Function.update_self, Function.update_idem, hedges]
    show _ = Function.update _ _ (if g.view.repairs u v s = true then _ else _)
    rw [if_pos hr]
    rfl
  · rw [Bool.eq_false_of_not_eq_true hr, Bool.not_false, Bool.and_true]
    split_ifs with h1 h2
    · exact absurd ((Bool.and_eq_true _ _).mpr ⟨h1, h2⟩) hr
    all_goals
      refine ⟨View.ext (hcells₁.trans hcells) ?_, rfl⟩
      show edgesOf m₁ = Function.update _ _ (if g.view.repairs u v s = true then _ else _)
      rw [if_neg hr, hmod, hedges]
      rfl

/-- **The graph refines its view**: same entries after every modifier, same result. -/
theorem view_apply (g : LWWGraph Key T U) (o : GraphOp Key U) :
    (g.apply o).1.view = (g.view.apply o).1 ∧ (g.apply o).2 = (g.view.apply o).2 := by
  cases o with
  | addVertex k s => exact (view_addVertex g k s).imp_right (congrArg Result.bool)
  | removeVertex k s => exact (view_removeVertex g k s).imp_right (congrArg Result.bool)
  | addEdge u v s => exact (view_addEdge g u v s).imp_right (congrArg Result.info)
  | removeEdge u v s => exact (view_removeEdge g u v s).imp_right (congrArg Result.bool)
  | clearVertices s => exact (view_clearVertices g s).imp_right (congrArg Result.bool)
  | clearVertexEdges k s => exact (view_clearVertexEdges g k s).imp_right (congrArg Result.bool)

theorem view_run (d : List (GraphOp Key U)) :
    ((machine Key T U).run d).view = (View.machine Key U).run d :=
  Machine.run_map view_empty (fun g o => (view_apply g o).1) d

end CollabDatatypes.CmRDT.LWWGraph
