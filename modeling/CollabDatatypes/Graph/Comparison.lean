import CollabDatatypes.Graph.Refine

/-! # Comparing graphs

`operator==` and `crdt_equal` compare the edge sets of the vertices by their counters first, so what
they mean rests on the counters being right in every vertex (`Counted`). With that, two graphs are
equal when the same vertices and the same edges are visible (`beq_iff`), and have equal internal
data when they have the same entries (`crdtEqual_iff`): the times of the last clears are not
compared. -/

namespace CollabDatatypes.CmRDT.LWWGraph

open CollabDatatypes.Lib CollabDatatypes.Container CollabDatatypes.Graph

variable {Key T U : Type*} [DecidableEq Key]

/-! ### What holds of every vertex -/

/-- Every vertex, visible or not, satisfies `Q`. -/
def AllVertices (Q : Vertex Key T U → Prop) (m : LWWMap Key (Vertex Key T U) U) : Prop :=
  ∀ k v, m.valueOf k = some v → Q v

section AllVertices

variable {Q : Vertex Key T U → Prop} {m : LWWMap Key (Vertex Key T U) U}

theorem AllVertices.modify (h : AllVertices Q m) {k : Key} {f : Vertex Key T U → Vertex Key T U}
    (hf : ∀ v, m.valueOf k = some v → Q v → Q (f v)) : AllVertices Q (m.modify k f) := by
  intro k' v hv
  rw [LWWMap.valueOf_modify] at hv
  split_ifs at hv with hk
  · obtain ⟨v', hv', rfl⟩ := Option.map_eq_some_iff.mp hv
    subst hk
    exact hf v' hv' (h k' v' hv')
  · exact h k' v hv

theorem AllVertices.forEach (h : AllVertices Q m)
    {f : Key → Element (Vertex Key T U) U → Vertex Key T U}
    (hf : ∀ k e, Q e.value → Q (f k e)) : AllVertices Q (m.forEach f) := by
  intro k v hv
  rw [LWWMap.valueOf_forEach] at hv
  obtain ⟨e, he, rfl⟩ := Option.map_eq_some_iff.mp hv
  exact hf k e (h k e.value (by rw [LWWMap.valueOf, he]; rfl))

variable [LinearOrder U] [Zero U]

omit [Zero U] in
theorem AllVertices.clear (h : AllVertices Q m) (s : U) : AllVertices Q (m.clear s).1 := by
  intro k v hv
  rw [LWWMap.valueOf_clear] at hv
  exact h k v hv

variable [Inhabited T]

omit [LinearOrder U] in
theorem AllVertices.getD (h : AllVertices Q m) (h0 : Q default) (k : Key) :
    Q ((m.valueOf k).getD default) := by
  cases hv : m.valueOf k with
  | none => exact h0
  | some v => exact h k v hv

theorem AllVertices.add (h : AllVertices Q m) (h0 : Q default) (key : Key) (s : U) :
    AllVertices Q (m.add key s).1 := by
  intro k v hv
  rw [LWWMap.valueOf_add] at hv
  split_ifs at hv
  · obtain rfl := Option.some.inj hv
    exact h.getD h0 key
  · exact h k v hv

theorem AllVertices.remove (h : AllVertices Q m) (h0 : Q default) (key : Key) (s : U) :
    AllVertices Q (m.remove key s).1 := by
  intro k v hv
  rw [LWWMap.valueOf_remove] at hv
  split_ifs at hv
  · obtain rfl := Option.some.inj hv
    exact h.getD h0 key
  · exact h k v hv

omit [LinearOrder U] in
theorem vertexAt_of_valueOf {k : Key} {v : Vertex Key T U} (h : m.valueOf k = some v) :
    vertexAt m k = v := by
  obtain ⟨e, he, rfl⟩ := Option.map_eq_some_iff.mp h
  unfold vertexAt LWWMap.crdtFind
  rw [he]

end AllVertices

/-! ### Induction over the modifiers -/

section Induction

variable [LinearOrder U] [Zero U] [Inhabited T]

/-- The vertex with one modifier applied to its edges. -/
def Vertex.applyEdges (v : Vertex Key T U) (o : Op Key U) : Vertex Key T U :=
  { v with edges := (v.edges.apply o).1 }

/-- **What the modifiers of a graph are made of**: additions, removals and clears of the vertex map,
and rewrites of one vertex or of all that apply a modifier to an edge set. A property of the vertex
map that survives these survives every modifier of the graph. -/
theorem adj_induction {I : LWWMap Key (Vertex Key T U) U → Prop}
    (hop : ∀ m o, I m → I (m.apply o).1)
    (hmod : ∀ m k f, I m → (∀ v, m.valueOf k = some v → ∃ o, f v = Vertex.applyEdges v o) →
      I (m.modify k f))
    (hfor : ∀ m f, I m → (∀ k e, f k e = e.value ∨ ∃ o, f k e = Vertex.applyEdges e.value o) →
      I (m.forEach f))
    {g : LWWGraph Key T U} (h : I g.adj) (o : GraphOp Key U) : I (g.apply o).1.adj := by
  cases o with
  | addVertex k s => exact hop _ (.add k s) h
  | removeVertex k s =>
    refine hfor _ _ (hmod _ k _ (hop _ (.remove k s) h) fun v _ => ⟨.clear s, rfl⟩) fun k' e => ?_
    split_ifs
    · exact Or.inr ⟨.remove k s, rfl⟩
    · exact Or.inl rfl
  | addEdge u v s =>
    have hboth : I (if u ≠ v then (g.adj.add u s).1.add v s else ((g.adj.add u s).1, false)).1 := by
      split_ifs
      · exact hop _ (.add v s) (hop _ (.add u s) h)
      · exact hop _ (.add u s) h
    show I (g.addEdge u v s).1.adj
    unfold addEdge
    dsimp only
    generalize (if u ≠ v then (g.adj.add u s).1.add v s else ((g.adj.add u s).1, false)).1 = m
      at hboth ⊢
    have hadd := hmod m u (fun vertex => { vertex with edges := ((vertexAt m u).edges.add v s).1 })
      hboth fun vertex hv => ⟨.add v s, by rw [vertexAt_of_valueOf hv]; rfl⟩
    have hite : ∀ (c : Prop) [Decidable c] (a b : LWWGraph Key T U × AddEdgeInfo),
        I a.1.adj → I b.1.adj → I (if c then a else b).1.adj := by
      intro c _ a b ha hb
      split_ifs
      · exact ha
      · exact hb
    exact hite _ _ _ (hite _ _ _ (hmod _ u _ hadd fun vertex _ => ⟨.remove v _, rfl⟩) hadd) hadd
  | removeEdge u v s =>
    have hboth : I (if u ≠ v then ((g.adj.remove u 0).1.remove v 0).1
        else (g.adj.remove u 0).1) := by
      split_ifs
      · exact hop _ (.remove v 0) (hop _ (.remove u 0) h)
      · exact hop _ (.remove u 0) h
    show I (g.removeEdge u v s).1.adj
    unfold removeEdge
    dsimp only
    generalize (if u ≠ v then ((g.adj.remove u 0).1.remove v 0).1 else (g.adj.remove u 0).1) = m
      at hboth ⊢
    exact hmod m u (fun vertex => { vertex with edges := ((vertexAt m u).edges.remove v s).1 })
      hboth fun vertex hv => ⟨.remove v s, by rw [vertexAt_of_valueOf hv]; rfl⟩
  | clearVertices s =>
    refine hop _ (.clear s) (hfor _ _ h fun k e => ?_)
    split_ifs
    · exact Or.inr ⟨.clear s, rfl⟩
    · exact Or.inl rfl
  | clearVertexEdges k s =>
    show I (g.clearVertexEdges k s).1.adj
    unfold clearVertexEdges LWWMap.crdtFind
    cases he : g.adj.map.lookup k with
    | none => exact h
    | some e =>
      refine hmod _ k (fun vertex => { vertex with edges := (e.value.edges.clear s).1 }) h
        fun vertex hv => ⟨.clear s, ?_⟩
      have hval : g.adj.valueOf k = some e.value := by rw [LWWMap.valueOf, he]; rfl
      obtain rfl := Option.some.inj (hv.symm.trans hval)
      rfl

theorem AllVertices.apply {Q : Vertex Key T U → Prop} (h0 : Q default)
    (hQ : ∀ v o, Q v → Q (Vertex.applyEdges v o)) {g : LWWGraph Key T U}
    (h : AllVertices Q g.adj) (o : GraphOp Key U) : AllVertices Q (g.apply o).1.adj := by
  refine adj_induction (fun m o hm => ?_) (fun m k f hm hf => ?_) (fun m f hm hf => ?_) h o
  · cases o with
    | add k s => exact hm.add h0 k s
    | remove k s => exact hm.remove h0 k s
    | clear s => exact hm.clear s
  · refine hm.modify fun v hv hq => ?_
    obtain ⟨o, he⟩ := hf v hv
    rw [he]
    exact hQ v o hq
  · refine hm.forEach fun k e hq => ?_
    rcases hf k e with he | ⟨o, he⟩
    · rw [he]; exact hq
    · rw [he]; exact hQ e.value o hq

end Induction

/-! ### The contents -/

section Contents

variable [LinearOrder U] [Zero U] [Inhabited T]

omit [LinearOrder U] in
theorem vertexAt_eq_getD (m : LWWMap Key (Vertex Key T U) U) (k : Key) :
    vertexAt m k = (m.valueOf k).getD default := by
  unfold vertexAt LWWMap.crdtFind LWWMap.valueOf
  cases m.map.lookup k <;> rfl

theorem content_apply (g : LWWGraph Key T U) (o : GraphOp Key U) (k : Key) :
    (vertexAt (g.apply o).1.adj k).content = (vertexAt g.adj k).content := by
  refine adj_induction (I := fun m => ∀ k, (vertexAt m k).content = (vertexAt g.adj k).content)
    (fun m o hm k => ?_) (fun m k' f hm hf k => ?_) (fun m f hm hf k => ?_) (fun _ => rfl) o k
  · rw [vertexAt_eq_getD, LWWMap.getD_valueOf_apply, ← vertexAt_eq_getD]
    exact hm k
  · rw [← hm k, vertexAt_eq_getD, vertexAt_eq_getD, LWWMap.valueOf_modify]
    split_ifs with hk
    · subst hk
      cases hv : m.valueOf k with
      | none => rfl
      | some v =>
        obtain ⟨o, he⟩ := hf v hv
        show (f v).content = v.content
        rw [he]
        rfl
    · rfl
  · rw [← hm k, vertexAt_eq_getD, vertexAt_eq_getD, LWWMap.valueOf_forEach, LWWMap.valueOf]
    cases m.map.lookup k with
    | none => rfl
    | some e =>
      show (f k e).content = e.value.content
      rcases hf k e with he | ⟨o, he⟩ <;> rw [he]
      rfl

end Contents

/-! ### The counters -/

section Counted

variable [LinearOrder U]

/-- The counters of the vertex map and of every edge set are right. -/
structure Counted (g : LWWGraph Key T U) : Prop where
  adj : g.adj.Counted
  edges : AllVertices (fun v => v.edges.Counted) g.adj

variable [Zero U]

omit [LinearOrder U] in
theorem counted_empty : (empty : LWWGraph Key T U).Counted :=
  ⟨LWWSet.counted_empty, fun _ _ h => by cases h⟩

omit [LinearOrder U] [Zero U] in
/-- A write of the user content of a vertex. -/
def writeContent (g : LWWGraph Key T U) (k : Key) (f : T → T) : LWWGraph Key T U :=
  ⟨g.adj.modify k fun v => { v with content := f v.content }⟩

omit [LinearOrder U] [Zero U] in
theorem Counted.writeContent {g : LWWGraph Key T U} (h : g.Counted) (k : Key) (f : T → T) :
    (g.writeContent k f).Counted :=
  ⟨h.adj.modify k _, h.edges.modify fun _ _ hv => hv⟩

variable [Inhabited T]

theorem counted_apply {g : LWWGraph Key T U} (h : g.Counted) (o : GraphOp Key U) :
    (g.apply o).1.Counted := by
  refine ⟨adj_induction (I := LWWMap.Counted) (fun m o hm => LWWMap.counted_apply hm o)
    (fun m k f hm _ => hm.modify k f) (fun m f hm _ => hm.forEach f) h.adj o, ?_⟩
  exact AllVertices.apply LWWSet.counted_empty (fun v o hv => LWWSet.counted_apply hv o) h.edges o

theorem counted_run (d : List (GraphOp Key U)) : ((machine Key T U).run d).Counted :=
  Machine.run_invariant (I := Counted) _ counted_empty (fun _ o h => counted_apply h o) d

end Counted

/-! ### Comparison -/

section Comparison

variable [Zero U]

theorem hasVertex_eq_visible (g : LWWGraph Key T U) (k : Key) :
    g.hasVertex k = (g.adj.visible k).isSome :=
  (hasVertex_eq g k).trans (LWWMap.isSome_visible g.adj k).symm

theorem hasEdge_eq_visible (g : LWWGraph Key T U) (u v : Key) :
    g.hasEdge u v = match g.adj.visible u with
      | some x => live (x.edges.map.lookup v)
      | none => false := by
  rw [hasEdge_eq]
  unfold LWWMap.visible LWWMap.valueOf
  show (live (g.adj.cells.cell u) && live ((edgesOf g.adj u).cell v)) = _
  rw [LWWMap.cells_cell]
  cases he : g.adj.map.lookup u with
  | none => rfl
  | some e =>
    rw [edgesOf_of_lookup he]
    cases hr : e.metadata.isRemoved <;> simp [hr]

omit [Zero U] in
theorem counted_visible {g : LWWGraph Key T U} (h : g.Counted) {k : Key} {x : Vertex Key T U}
    (hx : g.adj.visible k = some x) : x.edges.Counted :=
  h.edges k x (LWWMap.valueOf_of_visible hx)

variable [LinearOrder U] [BEq T]

omit [LinearOrder U] [Zero U] in
theorem vertex_beq_iff {x x' : Vertex Key T U} (h : x.edges.Counted) (h' : x'.edges.Counted) :
    ((x == x') = true ∧ (x' == x) = true) ↔
      (∀ v, live (x.edges.map.lookup v) = live (x'.edges.map.lookup v)) ∧
        (x.content == x'.content) = true ∧ (x'.content == x.content) = true := by
  show (x.edges == x'.edges && x.content == x'.content) = true ∧
    (x'.edges == x.edges && x'.content == x.content) = true ↔ _
  rw [Bool.and_eq_true, Bool.and_eq_true, LWWSet.beq_iff h h', LWWSet.beq_iff h' h]
  constructor
  · rintro ⟨⟨he, hc⟩, -, hc'⟩
    exact ⟨he, hc, hc'⟩
  · rintro ⟨he, hc, hc'⟩
    exact ⟨⟨he, hc⟩, fun v => (he v).symm, hc'⟩

omit [LinearOrder U] in
/-- **`operator==`**: the same vertices and edges are visible, the vertices with equal contents. -/
theorem beq_iff {g g' : LWWGraph Key T U} (h : g.Counted) (h' : g'.Counted) :
    (g == g') = true ↔ (∀ k, g.hasVertex k = g'.hasVertex k) ∧
      (∀ u v, g.hasEdge u v = g'.hasEdge u v) ∧
      ∀ k x x', g.adj.visible k = some x → g'.adj.visible k = some x' →
        (x.content == x'.content) = true ∧ (x'.content == x.content) = true := by
  have hadj : (g == g') = true ↔ (g.adj == g'.adj) = true := by
    show beq g g' = true ↔ LWWMap.beq g.adj g'.adj = true
    unfold beq
    by_cases hsize : g.adj.size ≠ g'.adj.size
    · rw [if_pos hsize, LWWMap.beq, if_pos hsize]
    · rw [if_neg hsize]
      exact Iff.rfl
  rw [hadj, LWWMap.beq_iff h.adj h'.adj]
  simp only [hasVertex_eq_visible, hasEdge_eq_visible]
  constructor
  · intro hk
    refine ⟨fun k => ?_, fun u v => ?_, fun k x x' hx hx' => ?_⟩
    · have := hk k
      cases hx : g.adj.visible k <;> cases hx' : g'.adj.visible k <;> simp_all
    · have := hk u
      cases hx : g.adj.visible u with
      | none => cases hx' : g'.adj.visible u <;> simp_all
      | some x =>
        cases hx' : g'.adj.visible u with
        | none => simp_all
        | some x' =>
          rw [hx, hx', Option.rel_some_some] at this
          exact ((vertex_beq_iff (counted_visible h hx) (counted_visible h' hx')).mp this).1 v
    · have := hk k
      rw [hx, hx', Option.rel_some_some] at this
      exact ((vertex_beq_iff (counted_visible h hx) (counted_visible h' hx')).mp this).2
  · rintro ⟨hv, he, hc⟩ k
    cases hx : g.adj.visible k with
    | none =>
      have := hv k
      cases hx' : g'.adj.visible k <;> simp_all
    | some x =>
      cases hx' : g'.adj.visible k with
      | none =>
        have := hv k
        simp_all
      | some x' =>
        rw [Option.rel_some_some]
        refine (vertex_beq_iff (counted_visible h hx) (counted_visible h' hx')).mpr
          ⟨fun v => ?_, hc k x x' hx hx'⟩
        have := he k v
        rwa [hx, hx'] at this

variable [Inhabited T]

omit [BEq T] in
theorem content_run (d : List (GraphOp Key U)) (k : Key) :
    (vertexAt ((machine Key T U).run d).adj k).content = default :=
  Machine.run_invariant (I := fun g : LWWGraph Key T U => (vertexAt g.adj k).content = default) _
    rfl (fun g o hg => (content_apply g o k).trans hg) d

theorem beq_run_iff (hT : ((default : T) == default) = true) (d d' : List (GraphOp Key U)) :
    ((machine Key T U).run d == (machine Key T U).run d') = true ↔
      (∀ k, ((machine Key T U).run d).hasVertex k = ((machine Key T U).run d').hasVertex k) ∧
      ∀ u v, ((machine Key T U).run d).hasEdge u v = ((machine Key T U).run d').hasEdge u v := by
  have hcontent : ∀ (d : List (GraphOp Key U)) k x,
      ((machine Key T U).run d).adj.visible k = some x → x.content = default := by
    intro d k x hx
    rw [← content_run (T := T) d k, vertexAt_of_valueOf (LWWMap.valueOf_of_visible hx)]
  rw [beq_iff (counted_run d) (counted_run d')]
  refine ⟨fun h => ⟨h.1, h.2.1⟩, fun h => ⟨h.1, h.2, fun k x x' hx hx' => ?_⟩⟩
  rw [hcontent d k x hx, hcontent d' k x' hx']
  exact ⟨hT, hT⟩

/-- **`crdt_equal`**: the same entries of vertices and of edges, and equal contents. -/
theorem crdtEqual_iff {g g' : LWWGraph Key T U} (h : g.Counted) (h' : g'.Counted) :
    g.crdtEqual g' = true ↔ (∀ k, g.view.adj.cell k = g'.view.adj.cell k) ∧
      (∀ u v, (g.view.edges u).cell v = (g'.view.edges u).cell v) ∧
      ∀ k x x', g.adj.valueOf k = some x → g'.adj.valueOf k = some x' →
        (x.content == x'.content) = true := by
  have hall : (g.adj.map.entries.all fun it =>
      it.2.value.edges.crdtEqual (vertexAt g'.adj it.1).edges) = true ↔
      ∀ k x, g.adj.valueOf k = some x → ∀ v,
        (edgesOf g.adj k).cell v = (edgesOf g'.adj k).cell v := by
    rw [List.all_eq_true]
    constructor
    · intro hit k x hx v
      obtain ⟨e, he, rfl⟩ := Option.map_eq_some_iff.mp hx
      rw [edgesOf_of_valueOf hx, ← edgesOf_vertexAt g'.adj k]
      exact LWWSet.crdtEqual_iff.mp (hit ⟨k, e⟩ (AList.mem_lookup_iff.mp he)) v
    · rintro hk ⟨k, e⟩ hit
      have hx : g.adj.valueOf k = some e.value := by
        rw [LWWMap.valueOf, AList.mem_lookup_iff.mpr hit]
        rfl
      refine LWWSet.crdtEqual_iff.mpr fun v => ?_
      have := hk k e.value hx v
      rwa [edgesOf_of_valueOf hx, ← edgesOf_vertexAt g'.adj k] at this
  have hif : g.crdtEqual g' = true ↔ g.adj.crdtEqual g'.adj = true ∧
      (g.adj.map.entries.all fun it =>
        it.2.value.edges.crdtEqual (vertexAt g'.adj it.1).edges) = true := by
    unfold crdtEqual
    cases g.adj.crdtEqual g'.adj <;> simp
  rw [hif, hall, LWWMap.crdtEqual_iff]
  constructor
  · rintro ⟨hk, he⟩
    refine ⟨fun k => (hk k).1, fun u v => ?_, fun k x x' hx hx' => ?_⟩
    · cases hx : g.adj.valueOf u with
      | some x => exact he u x hx v
      | none =>
        have hx' : g'.adj.valueOf u = none := by
          rw [LWWMap.valueOf_eq_none] at hx ⊢
          rw [← (hk u).1, hx]
        show (edgesOf g.adj u).cell v = (edgesOf g'.adj u).cell v
        unfold edgesOf
        rw [hx, hx']
    · have := (hk k).2
      rw [hx, hx', Option.rel_some_some] at this
      exact ((Bool.and_eq_true _ _).mp this).2
  · rintro ⟨hk, he, hc⟩
    refine ⟨fun k => ⟨hk k, ?_⟩, fun u x _ v => he u v⟩
    cases hx : g.adj.valueOf k with
    | none =>
      have hx' : g'.adj.valueOf k = none := by
        rw [LWWMap.valueOf_eq_none] at hx ⊢
        exact (hk k).symm.trans hx
      rw [hx']
      exact Option.Rel.none
    | some x =>
      cases hx' : g'.adj.valueOf k with
      | none =>
        have hnone : g.adj.valueOf k = none :=
          LWWMap.valueOf_eq_none.mpr ((hk k).trans (LWWMap.valueOf_eq_none.mp hx'))
        rw [hx] at hnone
        cases hnone
      | some x' =>
        refine Option.Rel.some ((Bool.and_eq_true _ _).mpr ⟨?_, hc k x x' hx hx'⟩)
        refine (LWWSet.beq_iff (h.edges k x hx) (h'.edges k x' hx')).mpr fun v => ?_
        have hv : (edgesOf g.adj k).cell v = (edgesOf g'.adj k).cell v := he k v
        rw [edgesOf_of_valueOf hx, edgesOf_of_valueOf hx'] at hv
        exact congrArg live hv

end Comparison

end CollabDatatypes.CmRDT.LWWGraph
