import CollabDatatypes.Lib.Independence
import CollabDatatypes.Graph.Congruence
import CollabDatatypes.Graph.Slice

/-! # Which orders of delivery matter

Nothing is assumed of the timestamps here, and every modifier may occur. Two modifiers that name no
common key act on different entries, unless both of them sweep: `remove_vertex` and
`clear_vertex_edges` reach edges of vertices they do not name. So two replicas that received the
operations on every key in one order, and the sweeping operations in one order, have the same internal
data and returned the same results, however the rest was interleaved (`same_order_same_graph`). The
sweeps do not commute, even on different vertices: the edge between them keeps the stamp of the one
that came first. -/

namespace CollabDatatypes.Graph

open CollabDatatypes.Lib CollabDatatypes.CmRDT CollabDatatypes.Container

variable {Key T U : Type*} [DecidableEq Key]

omit [DecidableEq Key] in
/-- The operations that reach edges of vertices they do not name. -/
def sweeps : GraphOp Key U → Bool
  | .removeVertex _ _ => true
  | .clearVertices _ => true
  | .clearVertexEdges _ _ => true
  | _ => false

/-- The resources of an operation: the keys it is about, and the sweep. -/
def uses (o : GraphOp Key U) : Option Key → Bool
  | some k => about (· = k) o
  | none => sweeps o

theorem uses_nonempty (o : GraphOp Key U) : ∃ i, uses o i = true := by
  cases o with
  | addVertex k s => exact ⟨some k, by simp [uses, about]⟩
  | removeVertex k s => exact ⟨none, rfl⟩
  | addEdge u v s => exact ⟨some u, by simp [uses, about]⟩
  | removeEdge u v s => exact ⟨some u, by simp [uses, about]⟩
  | clearVertices s => exact ⟨none, rfl⟩
  | clearVertexEdges k s => exact ⟨none, rfl⟩

/-- An operation about one of two keys, and about neither of the two taken alone, does not exist. -/
theorem about_pair {u v : Key} {o : GraphOp Key U}
    (hu : about (· = u) o = false) (hv : about (· = v) o = false) :
    about (fun k => k = u || k = v) o = false := by
  cases o <;> simp_all [about]

/-! ### One slice -/

section Slice

variable [LinearOrder U] [Zero U] {u v : Key} {a b o : GraphOp Key U}

theorem Slice.step_of_neither (hu : about (· = u) o = false) (hv : about (· = v) o = false)
    (x : Slice U) : x.step u v o = x :=
  Slice.step_of_not_about (about_pair hu hv) (by simp) (by simp) x

omit [Zero U] in
theorem Slice.edgesClear_of_not_about (hu : about (· = u) o = false) (x : Slice U) :
    x.edgesClearStep u o = x.edgesClear := by
  cases o with
  | removeVertex k s => exact if_neg fun h => by simp [about, h] at hu
  | clearVertices s => cases hu
  | clearVertexEdges k s => exact if_neg fun h => by simp [about, h.1] at hu
  | _ => rfl

omit [Zero U] in
theorem Slice.edge_of_not_sweeps (ho : sweeps o = false)
    (h : about (· = u) o = false ∨ about (· = v) o = false) (x : Slice U) :
    x.edgeStep u v o = x.edge := by
  cases o with
  | addVertex k s => rfl
  | removeVertex k s => cases ho
  | addEdge u' v' s =>
    refine if_neg ?_
    rintro ⟨rfl, rfl⟩
    simp [about] at h
  | removeEdge u' v' s =>
    refine if_neg ?_
    rintro ⟨rfl, rfl⟩
    simp [about] at h
  | clearVertices s => cases ho
  | clearVertexEdges k s => cases ho

omit [Zero U] in
theorem Slice.edge_congr (hu : about (· = u) o = false) {x y : Slice U} (he : x.edge = y.edge) :
    x.edgeStep u v o = y.edgeStep u v o := by
  have hne : ∀ k, about (· = u) (.addVertex k o.stamp) = false → u ≠ k := by
    rintro k hk rfl
    simp [about] at hk
  cases o with
  | addVertex k s => exact he
  | removeVertex k s =>
    refine (if_neg (hne k hu)).trans (Eq.trans ?_ (if_neg (hne k hu)).symm)
    rw [he]
  | addEdge u' v' s =>
    have huv : ¬ (u = u' ∧ v = v') := fun h => hne u' (Bool.or_eq_false_iff.mp hu).1 h.1
    exact (if_neg huv).trans (he.trans (if_neg huv).symm)
  | removeEdge u' v' s =>
    have huv : ¬ (u = u' ∧ v = v') := fun h => hne u' (Bool.or_eq_false_iff.mp hu).1 h.1
    exact (if_neg huv).trans (he.trans (if_neg huv).symm)
  | clearVertices s => cases hu
  | clearVertexEdges k s =>
    refine (if_neg fun h => hne k hu h.1).trans (he.trans (if_neg fun h => hne k hu h.1).symm)

omit [Zero U] in
theorem Slice.edge_congr_of_sweeps (ho : sweeps o = true) {x y : Slice U}
    (hs : x.source = y.source) (hc : x.edgesClear = y.edgesClear) (he : x.edge = y.edge) :
    x.edgeStep u v o = y.edgeStep u v o := by
  cases o with
  | removeVertex k s => simp only [edgeStep, hc, he]
  | clearVertices s => simp only [edgeStep, hs, hc, he]
  | clearVertexEdges k s => simp only [edgeStep, hs, hc, he]
  | _ => cases ho

omit [Zero U] in
theorem Slice.edgesClear_congr {x y : Slice U} (hs : x.source = y.source)
    (hc : x.edgesClear = y.edgesClear) : x.edgesClearStep u o = y.edgesClearStep u o := by
  cases o <;> simp only [edgesClearStep, hs, hc]

theorem vertexCell_of_ne {k : Key} (hk : about (· = k) o = false) (c : U)
    (x : Option (Metadata U)) : View.vertexCell k o c x = x :=
  vertexCell_of_not_about hk (by simp) c x

omit [DecidableEq Key] [Zero U] in
theorem Slice.clearStep_of_not_about {S : Key → Bool} (h : about S o = false) (x : Slice U) :
    x.clearStep o = x.clearTime := by
  cases o with
  | clearVertices s => cases h
  | _ => rfl

/-- **Operations on the two sides of an edge commute**, unless both sweep. -/
theorem Slice.step_comm (hau : about (· = v) a = false) (hbv : about (· = u) b = false)
    (hsw : sweeps a = false ∨ sweeps b = false) (x : Slice U) :
    (x.step u v a).step u v b = (x.step u v b).step u v a := by
  have hca := Slice.clearStep_of_not_about hau
  have hcb := Slice.clearStep_of_not_about hbv
  have hsource : (x.step u v b).source = x.source := vertexCell_of_ne hbv _ _
  have hclear : (x.step u v b).edgesClear = x.edgesClear := edgesClear_of_not_about hbv x
  refine Slice.ext ?_ ?_ ?_ ?_ ?_
  · show (x.step u v a).clearStep b = (x.step u v b).clearStep a
    rw [hca, hcb]
    exact (hca x).trans (hcb x).symm
  · show View.vertexCell u b _ _ = View.vertexCell u a (x.clearStep b) (x.step u v b).source
    rw [vertexCell_of_ne hbv, hcb, hsource]
    rfl
  · show View.vertexCell v b (x.clearStep a) (x.step u v a).target = View.vertexCell v a _ _
    have htarget : (x.step u v a).target = x.target := vertexCell_of_ne hau _ _
    rw [vertexCell_of_ne hau, hca, htarget]
    rfl
  · show (x.step u v a).edgesClearStep u b = (x.step u v b).edgesClearStep u a
    rw [edgesClear_of_not_about hbv, edgesClear_congr hsource hclear]
    rfl
  · show (x.step u v a).edgeStep u v b = (x.step u v b).edgeStep u v a
    rcases hsw with ha | hb
    · have hedge : (x.step u v a).edge = x.edge := edge_of_not_sweeps ha (Or.inr hau) x
      rw [edge_congr hbv hedge, edge_of_not_sweeps ha (Or.inr hau)]
      rfl
    · have hedge : (x.step u v b).edge = x.edge := edge_of_not_sweeps hb (Or.inl hbv) x
      rw [edge_of_not_sweeps hb (Or.inl hbv)]
      cases ha : sweeps a with
      | true => exact (edge_congr_of_sweeps ha hsource hclear hedge).symm
      | false =>
        rw [edge_of_not_sweeps ha (Or.inr hau), hedge]
        exact edge_of_not_sweeps ha (Or.inr hau) x

theorem Slice.step_comm_of_apart (h : UsesApart uses a b) (x : Slice U) :
    (x.step u v a).step u v b = (x.step u v b).step u v a := by
  have hsw : sweeps a = false ∨ sweeps b = false :=
    (Bool.eq_false_or_eq_true (sweeps a)).symm.imp_right (h none)
  cases hau : about (· = u) a with
  | true =>
    have hbu : about (· = u) b = false := h (some u) hau
    cases hav : about (· = v) a with
    | true =>
      have hbv : about (· = v) b = false := h (some v) hav
      rw [step_of_neither hbu hbv, step_of_neither hbu hbv]
    | false => exact step_comm hav hbu hsw x
  | false =>
    cases hav : about (· = v) a with
    | true =>
      have hbv : about (· = v) b = false := h (some v) hav
      exact (step_comm hbv hau hsw.symm x).symm
    | false => rw [step_of_neither hau hav, step_of_neither hau hav]

end Slice

/-! ### The whole graph -/

namespace View

variable [LinearOrder U] [Zero U] {a b o : GraphOp Key U}

omit [DecidableEq Key] [LinearOrder U] [Zero U] in
theorem ext_slice {g g' : View Key U} (hc : g.adj.clearTime = g'.adj.clearTime)
    (h : ∀ u v, g.slice u v = g'.slice u v) : g = g' := by
  refine View.ext (Cells.ext hc (funext fun u => congrArg Slice.source (h u u))) ?_
  exact funext fun u => Cells.ext (congrArg Slice.edgesClear (h u u))
    (funext fun v => congrArg Slice.edge (h u v))

theorem result_congr {g g' : View Key U} (hc : g.adj.clearTime = g'.adj.clearTime)
    (h : ∀ u v, about (· = u) o = true → about (· = v) o = true → g.slice u v = g'.slice u v) :
    (g.apply o).2 = (g'.apply o).2 := by
  have hvertex : ∀ k, about (· = k) o = true → g.adj.cell k = g'.adj.cell k := fun k hk =>
    congrArg Slice.source (h k k hk hk)
  have hclear : ∀ k, about (· = k) o = true →
      (g.edges k).clearTime = (g'.edges k).clearTime := fun k hk =>
    congrArg Slice.edgesClear (h k k hk hk)
  have hedge : ∀ u v, about (· = u) o = true → about (· = v) o = true →
      (g.edges u).cell v = (g'.edges u).cell v := fun u v hu hv =>
    congrArg Slice.edge (h u v hu hv)
  cases o with
  | addVertex k s =>
    have hk := hvertex k (by simp [about])
    simp only [apply, Cells.add_cell_self, hk, hc]
  | removeVertex k s =>
    have hk := hvertex k (by simp [about])
    simp only [apply, Cells.remove_cell_self, hk]
  | addEdge u v s =>
    have hu := hvertex u (by simp [about])
    have hv := hvertex v (by simp [about])
    have hcl := hclear u (by simp [about])
    have he := hedge u v (by simp [about]) (by simp [about])
    simp only [apply, repairs, touched, touchedEdge, hu, hv, hc, hcl, he]
  | removeEdge u v s =>
    have he := hedge u v (by simp [about]) (by simp [about])
    simp only [apply, Cells.remove_cell_self, he]
  | clearVertices s => simp only [apply, hc]
  | clearVertexEdges k s =>
    have hk := hvertex k (by simp [about])
    have hcl := hclear k (by simp [about])
    simp only [apply, hk, hcl]

theorem clearTime_of_apart (h : UsesApart uses a b) (g : View Key U) :
    (g.apply a).1.adj.clearTime = g.adj.clearTime := by
  rcases adj_clearTime_step (g := g) (o := a) with ⟨s, rfl⟩ | hc
  · -- `clear_vertices` shares a resource with every modifier
    obtain ⟨i, hi⟩ := uses_nonempty b
    have hno : uses b i = false := h i (by cases i <;> rfl)
    rw [hno] at hi
    cases hi
  · exact hc

theorem result_of_apart (h : UsesApart uses a b) (g : View Key U) :
    ((g.apply a).1.apply b).2 = (g.apply b).2 := by
  refine result_congr (clearTime_of_apart h g) fun u v hu hv => ?_
  have hne : ∀ k, about (· = k) b = true → about (· = k) a = false := by
    intro k hk
    rw [← Bool.not_eq_true]
    intro ha
    have hb : about (· = k) b = false := h (some k) ha
    rw [hb] at hk
    cases hk
  rw [slice_apply, Slice.step_of_neither (hne u hu) (hne v hv)]

theorem independent_of_apart (h : UsesApart uses a b) :
    Independent (apply : View Key U → GraphOp Key U → _) a b := by
  have hsymm : UsesApart uses b a := by
    intro i hi
    rw [← Bool.not_eq_true]
    intro ha
    rw [h i ha] at hi
    cases hi
  intro g
  refine ⟨?_, result_of_apart h g, result_of_apart hsymm g⟩
  refine ext_slice ?_ fun u v => ?_
  · have hb := clearTime_of_apart hsymm (g.apply a).1
    have ha := clearTime_of_apart h (g.apply b).1
    rw [hb, ha, clearTime_of_apart h, clearTime_of_apart hsymm]
  · rw [slice_apply, slice_apply, slice_apply, slice_apply]
    exact Slice.step_comm_of_apart h _

end View

end CollabDatatypes.Graph

namespace CollabDatatypes.CmRDT.LWWGraph

open CollabDatatypes.Lib CollabDatatypes.Container CollabDatatypes.Graph

variable {Key T U : Type*} [DecidableEq Key] [LinearOrder U] [Zero U] [Inhabited T]

theorem trace_view (d : List (GraphOp Key U)) (g : LWWGraph Key T U) :
    (trace apply g d).1.view = (trace View.apply g.view d).1 ∧
      (trace apply g d).2 = (trace View.apply g.view d).2 := by
  have hstep : ∀ (g : LWWGraph Key T U) (x : View Key U) (o : GraphOp Key U), g.view = x →
      (g.apply o).1.view = (x.apply o).1 ∧ (g.apply o).2 = (x.apply o).2 := by
    rintro g _ o rfl
    exact view_apply g o
  exact trace_eq (R := fun g x => g.view = x) hstep d g _ rfl

theorem crdtEqual_of_view [BEq T] (hT : ((default : T) == default) = true)
    {d d' : List (GraphOp Key U)} (h : (View.machine Key U).run d = (View.machine Key U).run d') :
    ((machine Key T U).run d).crdtEqual ((machine Key T U).run d') = true ∧
      SameClears ((machine Key T U).run d) ((machine Key T U).run d') := by
  rw [← view_run (T := T), ← view_run (T := T), view_eq_iff] at h
  obtain ⟨hclears, hk, he⟩ := h
  refine ⟨(crdtEqual_iff_content hT (counted_run d) (counted_run d')).mpr ⟨hk, he, fun k => ?_⟩,
    hclears⟩
  rw [content_run, content_run]
  exact hT

/-- **Replicas that received the operations on every key in one order, and the sweeps in one order**,
have the same internal data, clears included, and every operation returned the same results. -/
theorem same_order_same_graph [BEq T] (hT : ((default : T) == default) = true)
    {d d' : List (GraphOp Key U)} (h : SameOrder uses d d') :
    ((machine Key T U).run d).crdtEqual ((machine Key T U).run d') = true ∧
      SameClears ((machine Key T U).run d) ((machine Key T U).run d') ∧
      ∀ o, resultsOf o d (trace apply (empty : LWWGraph Key T U) d).2 =
        resultsOf o d' (trace apply (empty : LWWGraph Key T U) d').2 := by
  obtain ⟨hstate, hresults⟩ := h.outcome (f := View.apply) uses_nonempty
    (fun a b hab => View.independent_of_apart hab) (View.init Key U)
  have heq : (View.machine Key U).run d = (View.machine Key U).run d' :=
    (foldl_eq_trace _ d _).trans (hstate.trans (foldl_eq_trace _ d' _).symm)
  obtain ⟨hdata, hclears⟩ := crdtEqual_of_view (T := T) hT heq
  refine ⟨hdata, hclears, fun o => ?_⟩
  rw [(trace_view d empty).2, (trace_view d' empty).2]
  exact hresults o

/-- An `add_edge` and the removal of another vertex change places. -/
theorem same_order_same_graph_apart :
    ((machine ℕ ℕ ℕ).run [.addEdge 0 1 3, .removeVertex 2 4]).crdtEqual
        ((machine ℕ ℕ ℕ).run [.removeVertex 2 4, .addEdge 0 1 3]) = true ∧
      SameClears ((machine ℕ ℕ ℕ).run [.addEdge 0 1 3, .removeVertex 2 4])
        ((machine ℕ ℕ ℕ).run [.removeVertex 2 4, .addEdge 0 1 3]) ∧
      ∀ o, resultsOf o [GraphOp.addEdge 0 1 3, .removeVertex 2 4]
          (trace apply (empty : LWWGraph ℕ ℕ ℕ) [.addEdge 0 1 3, .removeVertex 2 4]).2 =
        resultsOf o [GraphOp.removeVertex 2 4, .addEdge 0 1 3]
          (trace apply (empty : LWWGraph ℕ ℕ ℕ) [.removeVertex 2 4, .addEdge 0 1 3]).2 := by
  refine same_order_same_graph rfl fun i => ?_
  cases i with
  | none => rfl
  | some k =>
    by_cases hk : k = 2
    · subst hk
      rfl
    · have hk' : ¬ 2 = k := fun h => hk h.symm
      simp [uses, about, hk', List.filter_cons]

/-- Two sweeps do not: the edge between the two vertices keeps the stamp of the first one. -/
example : ((machine ℕ ℕ ℕ).run [.addEdge 0 1 3, .removeVertex 0 5, .removeVertex 1 6]).crdtEqual
    ((machine ℕ ℕ ℕ).run [.addEdge 0 1 3, .removeVertex 1 6, .removeVertex 0 5]) = false := by
  decide

end CollabDatatypes.CmRDT.LWWGraph
