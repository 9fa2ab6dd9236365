import CollabDatatypes.Graph.Convergence
import CollabDatatypes.Graph.Sequential

/-! # What graphs converge to

The last-writer-wins graph of a collection of operations (`IsLastWriters`) has the vertices whose
newest addition is newer than every removal and clear of them, and the edges whose newest `add_edge`
is newer than everything that ends them. A delivery in the order of the stamps ends in this graph,
with any of the six modifiers (`sorted_lastWriters`). Deliveries of a collection without clears end in
equal graphs exactly when each of them ends in it (`converges_iff_lastWriters`). -/

namespace CollabDatatypes.Graph

open CollabDatatypes.Lib CollabDatatypes.CmRDT CollabDatatypes.Container

variable {Key U : Type*}

/-- `remove_vertex` of `k`, or `clear_vertices`. -/
def KillsVertex (k : Key) (o : GraphOp Key U) : Prop :=
  (∃ s, o = .removeVertex k s) ∨ ∃ s, o = .clearVertices s

/-- A removal of the edge from `u` to `v` or of an endpoint, or a clear that covers the edge. -/
def KillsEdge (u v : Key) (o : GraphOp Key U) : Prop :=
  EndsEdge u v o ∨ (∃ s, o = .clearVertices s) ∨ ∃ s, o = .clearVertexEdges u s

namespace PlainGraph

variable [DecidableEq Key] {t : PlainGraph Key} {o : GraphOp Key U}

theorem vertex_apply {k : Key} : (t.apply o).1.vertex k = true ↔
    Touches k o ∨ ¬ KillsVertex k o ∧ t.vertex k = true := by
  unfold KillsVertex
  cases o with
  | addVertex k' s => simp [apply, addVertex, touches_addVertex_iff]
  | removeVertex k' s =>
    rcases eq_or_ne k k' with rfl | hk
    · simp [apply, removeVertex]
    · simp [apply, removeVertex, hk, hk.symm]
  | addEdge u v s => simp [apply, addEdge, touches_addEdge_iff]
  | removeEdge u v s => simp [apply, removeEdge]
  | clearVertices s => simp [apply, clearVertices]
  | clearVertexEdges k' s => simp [apply, clearVertexEdges]

theorem edge_apply {u v : Key} : (t.apply o).1.edge u v = true ↔
    AddsEdge u v o ∨ ¬ KillsEdge u v o ∧ t.edge u v = true := by
  unfold KillsEdge EndsEdge AddsEdge
  cases o with
  | addVertex k s => simp [apply, addVertex]
  | removeVertex k s =>
    have hu : k = u ↔ u = k := eq_comm
    have hv : k = v ↔ v = k := eq_comm
    simp [apply, removeVertex, hu, hv, and_assoc]
  | addEdge u' v' s =>
    have hu : u' = u ↔ u = u' := eq_comm
    have hv : v' = v ↔ v = v' := eq_comm
    simp [apply, addEdge, hu, hv]
  | removeEdge u' v' s =>
    have hu : u' = u ↔ u = u' := eq_comm
    have hv : v' = v ↔ v = v' := eq_comm
    simp [apply, removeEdge, hu, hv, imp_iff_not_or]
  | clearVertices s => simp [apply, clearVertices]
  | clearVertexEdges k s =>
    have hu : k = u ↔ u = k := eq_comm
    simp [apply, clearVertexEdges, hu]

/-- The plain graph as a machine. -/
def machine (Key U : Type*) [DecidableEq Key] : Machine (PlainGraph Key) (GraphOp Key U) :=
  ⟨empty, fun t o => (t.apply o).1⟩

/-- **In the order of the stamps**, the plain graph shows the last writers. -/
theorem lastWriters_run [LinearOrder U] {d : List (GraphOp Key U)}
    (hd : d.Pairwise fun o o' => o.stamp < o'.stamp) :
    (∀ k, ((machine Key U).run d).vertex k = true ↔
      LastWins GraphOp.stamp (Touches k) (KillsVertex k) d) ∧
    ∀ u v, ((machine Key U).run d).edge u v = true ↔
      LastWins GraphOp.stamp (AddsEdge u v) (KillsEdge u v) d := by
  induction d using List.reverseRecOn with
  | nil => simp [machine, empty, LastWins]
  | append_singleton d o ih =>
    obtain ⟨hp, -, hlt⟩ := List.pairwise_append.mp hd
    obtain ⟨hv, he⟩ := ih hp
    have hnew : ∀ o' ∈ d, o'.stamp < o.stamp := fun o' ho' => hlt o' ho' o (by simp)
    refine ⟨fun k => ?_, fun u v => ?_⟩
    · rw [Machine.run_concat, lastWins_concat hnew, ← hv]
      · exact vertex_apply
      · rintro htouch (⟨s, rfl⟩ | ⟨s, rfl⟩)
        · exact not_touches_removeVertex htouch
        · exact not_touches_clearVertices htouch
    · rw [Machine.run_concat, lastWins_concat hnew, ← he]
      · exact edge_apply
      · rintro ⟨s, rfl⟩ hk
        simp [KillsEdge, EndsEdge] at hk

end PlainGraph

theorem killsVertex_iff {ops : List (GraphOp Key U)} (hn : NoClear ops) {k : Key} :
    ∀ o ∈ ops, KillsVertex k o ↔ ∃ s, o = .removeVertex k s := by
  intro o ho
  refine ⟨fun hk => hk.resolve_right ?_, Or.inl⟩
  rintro ⟨s, rfl⟩
  simpa [IsClear] using hn _ ho

theorem killsEdge_iff {ops : List (GraphOp Key U)} (hn : NoClear ops) {u v : Key} :
    ∀ o ∈ ops, KillsEdge u v o ↔ EndsEdge u v o := by
  intro o ho
  refine ⟨fun hk => hk.resolve_right ?_, Or.inl⟩
  rintro (⟨s, rfl⟩ | ⟨s, rfl⟩)
  · simpa [IsClear] using hn _ ho
  · simpa [IsClear] using hn _ ho

theorem NoClear.of_delivers {ops d : List (GraphOp Key U)} (hn : NoClear ops)
    (hd : Machine.Delivers ops d) : NoClear d := fun o ho => hn o ((hd o).mp ho)

variable [LinearOrder U]

namespace View

variable [DecidableEq Key] [Zero U] {d : List (GraphOp Key U)} {u v : Key}

theorem live_edge_iff (h : Stamped GraphOp.stamp d) (hn : NoClear d) (hd : ¬ EdgeDiverges d u v) :
    live ((((machine Key U).run d).edges u).cell v) = true ↔
      LastWins GraphOp.stamp (AddsEdge u v) (EndsEdge u v) d := by
  by_cases hadd : ∃ o ∈ d, AddsEdge u v o
  · obtain ⟨o, ho⟩ := exists_newest GraphOp.stamp hadd
    obtain ⟨e, rfl⟩ := ho.2.1
    rw [lastWins_iff_newest ho]
    constructor
    · intro hl
      by_contra hlast
      exact hd ⟨e, ho, Or.inr (regains_of_live h hn ho hlast hl)⟩
    · intro hlast
      by_contra hdead
      exact hd ⟨e, ho, Or.inl (loses_of_dead h hn ho hlast hdead)⟩
  · constructor
    · intro hl
      obtain ⟨t, ht⟩ := live_iff.mp hl
      exact absurd ⟨_, edge_live ht, t, rfl⟩ hadd
    · rintro ⟨a, ha, hadds, -⟩
      exact absurd ⟨a, ha, hadds⟩ hadd

end View

end CollabDatatypes.Graph

namespace CollabDatatypes.CmRDT.LWWGraph

open CollabDatatypes.Lib CollabDatatypes.Container CollabDatatypes.Graph

variable {Key T U : Type*} [DecidableEq Key] [LinearOrder U]

/-- The graph shows the last writers of `ops`. -/
structure IsLastWriters (ops : List (GraphOp Key U)) (g : LWWGraph Key T U) : Prop where
  vertex : ∀ k, g.hasVertex k = true ↔
    LastWins GraphOp.stamp (Touches k) (KillsVertex k) ops
  edge : ∀ u v, g.hasEdge u v = true ↔
    LastWins GraphOp.stamp (AddsEdge u v) (KillsEdge u v) ops

variable [Zero U] [Inhabited T] {ops d : List (GraphOp Key U)}

/-- **A delivery in the order of the stamps** ends in the last-writer-wins graph, whatever the
modifiers. -/
theorem sorted_lastWriters {d : List (GraphOp Key U)} (h0 : ∀ o ∈ d, 0 < o.stamp)
    (hd : d.Pairwise fun o o' => o.stamp < o'.stamp) :
    IsLastWriters d ((machine Key T U).run d) := by
  have hempty : (empty : LWWGraph Key T U).view.Shows PlainGraph.empty :=
    ⟨fun _ => rfl, fun _ => rfl, fun _ _ => rfl⟩
  obtain ⟨hs, -⟩ := shows_run (T := T) (p := []) (fun _ ho => by cases ho)
    (noHiddenEdge_of_shows hempty) (q := d) ⟨h0, fun _ ho => (by cases ho), hd⟩
  have hrun : (trace PlainGraph.apply
      (((machine Key T U).run []).seen (noHiddenEdge_of_shows hempty)) d).1 =
        (PlainGraph.machine Key U).run d := by
    rw [show ((machine Key T U).run []).seen (noHiddenEdge_of_shows hempty) = PlainGraph.empty from
      seen_of_shows hempty]
    exact (foldl_eq_trace PlainGraph.apply d _).symm
  rw [hrun, List.nil_append] at hs
  obtain ⟨hv, he⟩ := lookups_of_shows hs
  obtain ⟨hvertex, hedge⟩ := PlainGraph.lastWriters_run hd
  refine ⟨fun k => ?_, fun u v => ?_⟩
  · rw [hv]
    exact hvertex k
  · rw [he]
    exact hedge u v

/-- A vertex is removed, added again and cleared. -/
theorem sorted_lastWriters_clear :
    IsLastWriters [.addEdge 0 1 3, .removeVertex 1 5, .addEdge 0 1 6, .clearVertexEdges 0 7,
        .clearVertices 8, .addVertex 1 9]
      ((machine ℕ ℕ ℕ).run [.addEdge 0 1 3, .removeVertex 1 5, .addEdge 0 1 6,
        .clearVertexEdges 0 7, .clearVertices 8, .addVertex 1 9]) :=
  sorted_lastWriters (by decide) (by decide)

theorem hasVertex_of_delivers (h : Stamped GraphOp.stamp ops) (hn : NoClear ops)
    (hd : Machine.Delivers ops d) (k : Key) : ((machine Key T U).run d).hasVertex k = true ↔
      LastWins GraphOp.stamp (Touches k) (fun o => ∃ s, o = .removeVertex k s) ops := by
  rw [hasVertex_run, View.live_vertex_iff (h.of_delivers hd) (hn.of_delivers hd)]
  exact LastWins.congr hd

theorem hasEdge_of_delivers (h : Stamped GraphOp.stamp ops) (hn : NoClear ops)
    (hd : Machine.Delivers ops d) {u v : Key} (hno : ¬ EdgeDiverges ops u v) :
    ((machine Key T U).run d).hasEdge u v = true ↔
      LastWins GraphOp.stamp (AddsEdge u v) (EndsEdge u v) ops := by
  have hs := h.of_delivers hd
  have hc := hn.of_delivers hd
  rw [hasEdge_run hs hc, View.live_edge_iff hs hc (mt (EdgeDiverges.congr hd u v).mp hno)]
  exact LastWins.congr hd

theorem isLastWriters_of_delivers (h : Stamped GraphOp.stamp ops) (hn : NoClear ops)
    (hd : Machine.Delivers ops d) (hno : ∀ u v, ¬ EdgeDiverges ops u v) :
    IsLastWriters ops ((machine Key T U).run d) where
  vertex k := (hasVertex_of_delivers h hn hd k).trans (LastWins.congr_rem (killsVertex_iff hn)).symm
  edge u v := (hasEdge_of_delivers h hn hd (hno u v)).trans
    (LastWins.congr_rem (killsEdge_iff hn)).symm

/-- **What graphs converge to**: deliveries of a collection without clears end in equal graphs exactly
when each of them ends in the last-writer-wins graph. The default content has to equal itself. -/
theorem converges_iff_lastWriters [BEq T] (hT : ((default : T) == default) = true)
    (h : Stamped GraphOp.stamp ops) (hn : NoClear ops) :
    (machine Key T U).ConvergesOn (fun a b => (a == b) = true) ops ↔
      ∀ d, Machine.Delivers ops d → IsLastWriters ops ((machine Key T U).run d) := by
  constructor
  · intro hc d hd
    refine isLastWriters_of_delivers h hn hd fun u v hdiv => ?_
    obtain ⟨⟨d₁, h₁, hl⟩, d₂, h₂, hdead⟩ := (View.exists_live_and_dead_iff h hn).mpr hdiv
    have he := ((beq_run_iff hT d₁ d₂).mp (hc d₁ d₂ h₁ h₂)).2 u v
    rw [hasEdge_run (h.of_delivers h₁) (hn.of_delivers h₁),
      hasEdge_run (h.of_delivers h₂) (hn.of_delivers h₂)] at he
    exact hdead (he.symm.trans hl)
  · intro hw d₁ d₂ h₁ h₂
    have hw₁ := hw d₁ h₁
    have hw₂ := hw d₂ h₂
    refine (beq_run_iff hT d₁ d₂).mpr ⟨fun k => ?_, fun u v => ?_⟩
    · exact Bool.eq_iff_iff.mpr ((hw₁.vertex k).trans (hw₂.vertex k).symm)
    · exact Bool.eq_iff_iff.mpr ((hw₁.edge u v).trans (hw₂.edge u v).symm)

theorem converges_iff_lastWriters_late :
    (machine ℕ Unit ℕ).ConvergesOn (fun a b => (a == b) = true)
        [.removeVertex 1 5, .addVertex 0 7, .addVertex 1 8, .addEdge 0 1 3] ↔
      ∀ d, Machine.Delivers [.removeVertex 1 5, .addVertex 0 7, .addVertex 1 8, .addEdge 0 1 3] d →
        IsLastWriters [.removeVertex 1 5, .addVertex 0 7, .addVertex 1 8, .addEdge 0 1 3]
          ((machine ℕ Unit ℕ).run d) :=
  converges_iff_lastWriters rfl (by decide) (by decide)

end CollabDatatypes.CmRDT.LWWGraph
