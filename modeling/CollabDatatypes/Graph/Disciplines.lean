import CollabDatatypes.Container.Reference
import CollabDatatypes.Graph.LastWriters

/-! # Collections that converge

Two disciplines of the users of a graph without clears that make replicas converge to the
last-writer-wins graph. If nobody adds a vertex again that was removed, the removed ones are gone for
good (`onceRemoved_exact`). If nobody removes an endpoint of an edge, its entry is the newest
`add_edge` or `remove_edge` (`edge_layer_exact`), and if nobody removes a vertex at all, not even the
internal data depend on the order (`crdtEqual_of_no_removal`). -/

namespace CollabDatatypes.Graph

open CollabDatatypes.Lib CollabDatatypes.CmRDT CollabDatatypes.Container

variable {Key U : Type*}

/-- `remove_edge` from `u` to `v`. -/
def RemovesEdge (u v : Key) (o : GraphOp Key U) : Prop := ∃ s, o = .removeEdge u v s

/-- `add_edge` or `remove_edge` from `u` to `v`. -/
def WritesEdge (u v : Key) (o : GraphOp Key U) : Prop := AddsEdge u v o ∨ RemovesEdge u v o

variable [LinearOrder U]

/-- A vertex that is removed is not added again: its removals are newer than what adds it. -/
def OnceRemoved (ops : List (GraphOp Key U)) : Prop :=
  ∀ k r, .removeVertex k r ∈ ops → ∀ o ∈ ops, Touches k o → o.stamp < r

namespace View

variable {d ops : List (GraphOp Key U)} {u v : Key}

/-- Then no edge diverges: an edge that ought to be visible has endpoints that nobody removed, and one
with a removed endpoint cannot come back. -/
theorem not_edgeDiverges_of_onceRemoved (h : OnceRemoved ops) : ¬ EdgeDiverges ops u v := by
  rintro ⟨e, he, ⟨hlast, k, k', a, r, o, hk, -, hr, -⟩ | ⟨⟨k, r, hk, hr, -⟩, hwin, -⟩⟩
  · have hend : k = u ∨ k = v := hk.imp And.left And.left
    have her : e < r := h k r hr _ he.1 (touches_addEdge hend e)
    exact absurd (removal_lt hlast hend hr) her.not_gt
  · obtain ⟨o, ho, htouch, hmax⟩ := hwin k hk
    exact absurd (hmax _ hr ⟨r, rfl⟩) (h k r hr o ho htouch).not_gt

theorem not_edgeDiverges_of_kept (hk : ∀ k r, k = u ∨ k = v → .removeVertex k r ∉ ops) :
    ¬ EdgeDiverges ops u v := by
  rintro ⟨e, -, ⟨-, k, k', a, r, o, hkk, -, hr, -⟩ | ⟨⟨k, r, hkk, hr, -⟩, -⟩⟩
  · exact hk k r (hkk.imp And.left And.left) hr
  · exact hk k r hkk hr

theorem lastWins_of_kept (hk : ∀ k r, k = u ∨ k = v → .removeVertex k r ∉ ops) :
    LastWins GraphOp.stamp (AddsEdge u v) (EndsEdge u v) ops ↔
      LastWins GraphOp.stamp (AddsEdge u v) (RemovesEdge u v) ops := by
  constructor
  · rintro ⟨a, ha, hadds, hmax⟩
    exact ⟨a, ha, hadds, fun o ho hrem => hmax o ho (Or.inr (Or.inr hrem))⟩
  · rintro ⟨a, ha, hadds, hmax⟩
    refine ⟨a, ha, hadds, fun o ho hend => ?_⟩
    rcases hend with ⟨r, rfl⟩ | ⟨r, rfl⟩ | hrem
    · exact absurd ho (hk u r (Or.inl rfl))
    · exact absurd ho (hk v r (Or.inr rfl))
    · exact hmax o ho hrem

variable [DecidableEq Key] [Zero U]

/-- **The entry of an edge whose endpoints nobody removes** shows the newest operation on it. -/
theorem edge_newest (h : Stamped GraphOp.stamp d) (hn : NoClear d)
    (hk : ∀ k r, k = u ∨ k = v → .removeVertex k r ∉ d) {o : GraphOp Key U}
    (ho : Newest GraphOp.stamp (WritesEdge u v) d o) :
    ∃ e, (((machine Key U).run d).edges u).cell v = some e ∧ e.timestamp = o.stamp ∧
      (e.isRemoved = true ↔ RemovesEdge u v o) := by
  obtain ⟨hod, hw, hmax⟩ := ho
  obtain ⟨⟨t, b⟩, he, hle⟩ : ∃ e, (((machine Key U).run d).edges u).cell v = some e ∧
      o.stamp ≤ e.timestamp := by
    rcases hw with ⟨s, rfl⟩ | ⟨s, rfl⟩
    · exact edge_le (Or.inl hod)
    · exact edge_le (Or.inr hod)
  -- the entry shows the stamp of an operation on the edge, so of the newest one
  have hshow : ∀ o' ∈ d, WritesEdge u v o' → o'.stamp = t → o = o' := fun o' ho' hw' ht =>
    h.inj o hod o' ho' (le_antisymm (hle.trans ht.ge) (hmax o' ho' hw'))
  refine ⟨_, he, ?_⟩
  cases b with
  | false =>
    obtain rfl := hshow _ (edge_live he) (Or.inl ⟨t, rfl⟩) rfl
    exact ⟨rfl, by simp [RemovesEdge]⟩
  | true =>
    rcases edge_dead he with rfl | hr | hr | ⟨p, o', q, hd, hcl⟩ | ⟨p, s, q, hd, hrep, -⟩
    · exact absurd (h.pos o hod) hle.not_gt
    · obtain rfl := hshow _ hr (Or.inr ⟨t, rfl⟩) rfl
      exact ⟨rfl, by simp [RemovesEdge]⟩
    · exact absurd hr (hk v t (Or.inr rfl))
    · have ho' : o' ∈ d := by rw [hd]; simp
      rcases hcl with rfl | ⟨rfl, -⟩ | ⟨rfl, -⟩
      · exact absurd ho' (hk u t (Or.inl rfl))
      · simpa [IsClear] using hn _ ho'
      · simpa [IsClear] using hn _ ho'
    · have hp : ∀ o ∈ p ++ [.addEdge u v s], o ∈ d := by
        intro o ho
        rw [hd]
        rcases List.mem_append.mp ho with ho | ho
        · exact List.mem_append_left _ ho
        · exact List.mem_append_right _ (by simp_all)
      obtain ⟨-, k, k', r, hkk, -, -, hr⟩ := repair_cases (h.of_subset hp)
        (fun o ho => hn o (hp o (List.mem_append_left _ ho))) hrep
      exact absurd (hp _ (List.mem_append_left _ hr)) (hk k r (hkk.imp And.left And.left))

theorem edge_unnamed (hw : ¬ ∃ o ∈ d, WritesEdge u v o) :
    (((machine Key U).run d).edges u).cell v = none := by
  by_contra hne
  obtain ⟨s, hs | hs⟩ := edge_mentioned hne
  · exact hw ⟨_, hs, Or.inl ⟨s, rfl⟩⟩
  · exact hw ⟨_, hs, Or.inr ⟨s, rfl⟩⟩

end View

end CollabDatatypes.Graph

namespace CollabDatatypes.CmRDT.LWWGraph

open CollabDatatypes.Lib CollabDatatypes.Container CollabDatatypes.Graph

variable {Key T U : Type*} [DecidableEq Key] [LinearOrder U]

omit [LinearOrder U] in
theorem crdtHasEdge_eq (g : LWWGraph Key T U) (u v : Key) :
    g.crdtHasEdge u v = (g.edgeEntry u v).isSome := by
  unfold crdtHasEdge crdtCountEdge edgeEntry
  cases g.adj.crdtFind u with
  | none => rfl
  | some e =>
    show (e.value.edges.crdtCount v == 1) = (e.value.edges.crdtFind v).isSome
    rw [Bool.eq_iff_iff, beq_iff_eq]
    exact LWWSet.crdtCount_eq_one e.value.edges v

variable [Zero U] [Inhabited T] {ops d : List (GraphOp Key U)}

/-- **If nobody adds a vertex again that was removed**, every delivery ends in the same graph: of the
vertices those that were added and never removed, of the edges those between vertices never removed
whose newest `add_edge` is newer than every `remove_edge`. -/
theorem onceRemoved_exact (h : Stamped GraphOp.stamp ops) (hn : NoClear ops) (h1 : OnceRemoved ops)
    (hd : Machine.Delivers ops d) :
    (∀ k, ((machine Key T U).run d).hasVertex k = true ↔
      (∃ o ∈ ops, Touches k o) ∧ ∀ r, .removeVertex k r ∉ ops) ∧
    ∀ u v, ((machine Key T U).run d).hasEdge u v = true ↔
      LastWins GraphOp.stamp (AddsEdge u v) (RemovesEdge u v) ops ∧
        ∀ k r, k = u ∨ k = v → .removeVertex k r ∉ ops := by
  refine ⟨fun k => ?_, fun u v => ?_⟩
  · rw [hasVertex_of_delivers h hn hd]
    constructor
    · rintro ⟨o, ho, htouch, hmax⟩
      exact ⟨⟨o, ho, htouch⟩, fun r hr =>
        absurd (hmax _ hr ⟨r, rfl⟩) (h1 k r hr o ho htouch).not_gt⟩
    · rintro ⟨⟨o, ho, htouch⟩, hno⟩
      refine ⟨o, ho, htouch, ?_⟩
      rintro _ hr ⟨r, rfl⟩
      exact absurd hr (hno r)
  · rw [hasEdge_of_delivers h hn hd (View.not_edgeDiverges_of_onceRemoved h1)]
    constructor
    · rintro ⟨a, ha, ⟨s, rfl⟩, hmax⟩
      have hno : ∀ k r, k = u ∨ k = v → .removeVertex k r ∉ ops := by
        intro k r hk hr
        have hlt : r < s := View.removal_lt hmax hk hr
        exact absurd hlt (h1 k r hr _ ha (touches_addEdge hk s)).not_gt
      exact ⟨(View.lastWins_of_kept hno).mp ⟨_, ha, ⟨s, rfl⟩, hmax⟩, hno⟩
    · rintro ⟨hwin, hno⟩
      exact (View.lastWins_of_kept hno).mpr hwin

/-- Vertex 1 is removed for good, after the edge from 0 was added; the edge to 2 is removed and added
again. -/
theorem onceRemoved_exact_readded :
    (∀ k, ((machine ℕ Unit ℕ).run [.removeVertex 1 5, .addEdge 0 2 7, .addEdge 0 1 3,
        .removeEdge 0 2 6]).hasVertex k = true ↔
      (∃ o ∈ [GraphOp.addEdge 0 1 3, .removeVertex 1 5, .removeEdge 0 2 6, .addEdge 0 2 7],
          Touches k o) ∧
        ∀ r, .removeVertex k r ∉
          [GraphOp.addEdge 0 1 3, .removeVertex 1 5, .removeEdge 0 2 6, .addEdge 0 2 7]) ∧
    ∀ u v, ((machine ℕ Unit ℕ).run [.removeVertex 1 5, .addEdge 0 2 7, .addEdge 0 1 3,
        .removeEdge 0 2 6]).hasEdge u v = true ↔
      LastWins GraphOp.stamp (AddsEdge u v) (RemovesEdge u v)
          [.addEdge 0 1 3, .removeVertex 1 5, .removeEdge 0 2 6, .addEdge 0 2 7] ∧
        ∀ k r, k = u ∨ k = v → .removeVertex k r ∉
          [GraphOp.addEdge 0 1 3, .removeVertex 1 5, .removeEdge 0 2 6, .addEdge 0 2 7] := by
  refine onceRemoved_exact (by decide) (by decide) ?_ (by decide)
  intro k r hr o ho htouch
  simp only [List.mem_cons, List.not_mem_nil, or_false] at hr ho
  rcases hr with hr | hr | hr | hr <;> cases hr
  rcases ho with rfl | rfl | rfl | rfl
  · show 3 < 5
    decide
  · exact absurd htouch not_touches_removeVertex
  · exact absurd htouch not_touches_removeEdge
  · rw [touches_addEdge_iff] at htouch
    simp at htouch

/-- **If nobody removes an endpoint**, the entry of an edge shows the newest `add_edge` or
`remove_edge`, after every delivery, and the edge is visible when an `add_edge` is newer than every
`remove_edge`. -/
theorem edge_layer_exact (h : Stamped GraphOp.stamp ops) (hn : NoClear ops) {u v : Key}
    (hk : ∀ k r, k = u ∨ k = v → .removeVertex k r ∉ ops) (hd : Machine.Delivers ops d) :
    (((machine Key T U).run d).crdtHasEdge u v = true ↔ ∃ o ∈ ops, WritesEdge u v o) ∧
    (∀ o, Newest GraphOp.stamp (WritesEdge u v) ops o →
      ∃ e, ((machine Key T U).run d).edgeEntry u v = some e ∧ e.timestamp = o.stamp ∧
        (e.isRemoved = true ↔ RemovesEdge u v o)) ∧
    (((machine Key T U).run d).hasEdge u v = true ↔
      LastWins GraphOp.stamp (AddsEdge u v) (RemovesEdge u v) ops) := by
  have hs := h.of_delivers hd
  have hc := hn.of_delivers hd
  have hkd : ∀ k r, k = u ∨ k = v → .removeVertex k r ∉ d := fun k r hkk hr =>
    hk k r hkk ((hd _).mp hr)
  have hnewest : ∀ o, Newest GraphOp.stamp (WritesEdge u v) ops o →
      ∃ e, ((machine Key T U).run d).edgeEntry u v = some e ∧ e.timestamp = o.stamp ∧
        (e.isRemoved = true ↔ RemovesEdge u v o) := by
    intro o ho
    rw [edgeEntry_eq, view_run]
    exact View.edge_newest hs hc hkd
      ⟨(hd o).mpr ho.1, ho.2.1, fun o' ho' => ho.2.2 o' ((hd o').mp ho')⟩
  refine ⟨?_, hnewest, ?_⟩
  · rw [crdtHasEdge_eq]
    constructor
    · intro he
      by_contra hw
      rw [edgeEntry_eq, view_run, View.edge_unnamed fun ⟨o, ho, hw'⟩ => hw ⟨o, (hd o).mp ho, hw'⟩]
        at he
      cases he
    · intro hw
      obtain ⟨o, ho⟩ := exists_newest GraphOp.stamp hw
      obtain ⟨e, he, -⟩ := hnewest o ho
      rw [he]
      rfl
  · rw [hasEdge_of_delivers h hn hd (View.not_edgeDiverges_of_kept hk)]
    exact View.lastWins_of_kept hk

/-- The endpoints of the edge stay, another vertex is removed. -/
theorem edge_layer_exact_other :
    (((machine ℕ Unit ℕ).run [.removeVertex 2 5, .addEdge 0 1 3, .removeEdge 0 1 4]).crdtHasEdge 0 1 =
        true ↔ ∃ o ∈ [GraphOp.addEdge 0 1 3, .removeEdge 0 1 4, .removeVertex 2 5],
          WritesEdge 0 1 o) ∧
    (∀ o, Newest GraphOp.stamp (WritesEdge 0 1)
        [.addEdge 0 1 3, .removeEdge 0 1 4, .removeVertex 2 5] o →
      ∃ e, ((machine ℕ Unit ℕ).run
          [.removeVertex 2 5, .addEdge 0 1 3, .removeEdge 0 1 4]).edgeEntry 0 1 = some e ∧
        e.timestamp = o.stamp ∧ (e.isRemoved = true ↔ RemovesEdge 0 1 o)) ∧
    (((machine ℕ Unit ℕ).run [.removeVertex 2 5, .addEdge 0 1 3, .removeEdge 0 1 4]).hasEdge 0 1 =
        true ↔ LastWins GraphOp.stamp (AddsEdge 0 1) (RemovesEdge 0 1)
          [.addEdge 0 1 3, .removeEdge 0 1 4, .removeVertex 2 5]) := by
  refine edge_layer_exact (by decide) (by decide) (fun k r hk hr => ?_) (by decide)
  rcases hk with rfl | rfl <;> simp at hr

/-- **If nobody removes a vertex**, the internal data of the graph, clears included, depend on the
operations delivered only. The default content has to equal itself. -/
theorem crdtEqual_of_no_removal [BEq T] (hT : ((default : T) == default) = true)
    (h : Stamped GraphOp.stamp ops) (hn : NoClear ops) (hr : ∀ k r, .removeVertex k r ∉ ops)
    {d' : List (GraphOp Key U)} (hd : Machine.Delivers ops d) (hd' : Machine.Delivers ops d') :
    ((machine Key T U).run d).crdtEqual ((machine Key T U).run d') = true ∧
      SameClears ((machine Key T U).run d) ((machine Key T U).run d') := by
  have hmem : ∀ o, o ∈ d' ↔ o ∈ d := fun o => (hd' o).trans (hd o).symm
  have hclear : ∀ d, Machine.Delivers ops d → ∀ u,
      (((View.machine Key U).run d).edges u).clearTime = 0 := by
    intro d hd u
    refine (View.removeVertex_of_edgeClear (hn.of_delivers hd)).resolve_right fun hmem => ?_
    exact hr u _ ((hd _).mp hmem)
  have hedge : ∀ u v, (((View.machine Key U).run d).edges u).cell v =
      (((View.machine Key U).run d').edges u).cell v := by
    intro u v
    have hkd : ∀ d, Machine.Delivers ops d → ∀ k r, k = u ∨ k = v → .removeVertex k r ∉ d :=
      fun d hd k r _ hmem => hr k r ((hd _).mp hmem)
    by_cases hw : ∃ o ∈ d, WritesEdge u v o
    · obtain ⟨o, ho⟩ := exists_newest GraphOp.stamp hw
      have ho' : Newest GraphOp.stamp (WritesEdge u v) d' o :=
        ⟨(hmem o).mpr ho.1, ho.2.1, fun o' hod' => ho.2.2 o' ((hmem o').mp hod')⟩
      obtain ⟨⟨t, b⟩, he, rfl, hb⟩ := View.edge_newest (h.of_delivers hd)
        (hn.of_delivers hd) (hkd d hd) ho
      obtain ⟨⟨t', b'⟩, he', rfl, hb'⟩ := View.edge_newest (h.of_delivers hd')
        (hn.of_delivers hd') (hkd d' hd') ho'
      have hbb : b = b' := Bool.eq_iff_iff.mpr (hb.trans hb'.symm)
      rw [he, he', hbb]
    · have hw' : ¬ ∃ o ∈ d', WritesEdge u v o := fun ⟨o, ho, hk⟩ => hw ⟨o, (hmem o).mp ho, hk⟩
      rw [View.edge_unnamed hw, View.edge_unnamed hw']
  refine crdtEqual_of_view hT (View.ext (Cells.ext ?_ (funext fun k => ?_)) (funext fun u =>
    Cells.ext ?_ (funext fun v => hedge u v)))
  · rw [View.clearTime_eq_zero (hn.of_delivers hd), View.clearTime_eq_zero (hn.of_delivers hd')]
  · exact (View.vertex_congr (h.of_delivers hd) (hn.of_delivers hd) hmem k).symm
  · rw [hclear d hd, hclear d' hd']

theorem crdtEqual_of_no_removal_swapped :
    ((machine ℕ ℕ ℕ).run [.addEdge 0 1 3, .removeEdge 0 1 4, .addVertex 1 5]).crdtEqual
        ((machine ℕ ℕ ℕ).run [.removeEdge 0 1 4, .addVertex 1 5, .addEdge 0 1 3]) = true ∧
      SameClears ((machine ℕ ℕ ℕ).run [.addEdge 0 1 3, .removeEdge 0 1 4, .addVertex 1 5])
        ((machine ℕ ℕ ℕ).run [.removeEdge 0 1 4, .addVertex 1 5, .addEdge 0 1 3]) := by
  have h : Stamped GraphOp.stamp [.addEdge 0 1 3, .removeEdge 0 1 4, .addVertex 1 5] := by decide
  exact crdtEqual_of_no_removal rfl h (by decide) (fun k r hr => by simp at hr) (by decide)
    (by decide)

end CollabDatatypes.CmRDT.LWWGraph
