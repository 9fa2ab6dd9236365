import CollabDatatypes.Graph.Refine
import CollabDatatypes.Graph.History

/-! # What a clear of all vertices dominates

After a `clear_vertices` of the stamp `c`, whenever it was delivered, only what was added with a newer
stamp should be visible. In terms of the state: a visible vertex and a visible edge are newer than
the last clear (`NewerThanClear`). Four kinds of steps break this. An addition older than the clear
takes effect, on a vertex or an edge that left a tombstone with a stamp that is older still
(`RevivesStale`, `AddsStale`); a vertex comes back with an edge that the clear did not see, because
the vertex was removed then (`ExposesStale`); or the clear keeps a newer vertex whose edge set skips
it, having seen a newer one (`KeepsStale`). No other step does: `clearDominates_iff`. -/

namespace CollabDatatypes.Graph

open CollabDatatypes.Lib CollabDatatypes.CmRDT CollabDatatypes.Container

variable {Key U : Type*} [LinearOrder U]

namespace View

variable {g : View Key U} {o : GraphOp Key U}

/-- What is visible is newer than the last clear of the vertices. -/
structure NewerThanClear (g : View Key U) : Prop where
  vertex : ∀ k t, g.adj.cell k = some ⟨t, false⟩ → g.adj.clearTime < t
  edge : ∀ u v t, live (g.adj.cell u) = true → (g.edges u).cell v = some ⟨t, false⟩ →
    g.adj.clearTime < t

/-- An addition older than the last clear revives a vertex. -/
def RevivesStale (g : View Key U) (o : GraphOp Key U) : Prop :=
  ∃ k, Revives g o k ∧ o.stamp < g.adj.clearTime

/-- An `add_edge` older than the last clear takes effect between visible vertices. -/
def AddsStale (g : View Key U) (o : GraphOp Key U) : Prop :=
  ∃ u v s, o = .addEdge u v s ∧ s < g.adj.clearTime ∧ live (g.adj.cell u) = true ∧
    live (g.adj.cell v) = true ∧ AddApplies (g.edges u).clearTime s ((g.edges u).cell v)

/-- The operation revives a vertex with an edge, another one than it adds, older than the last
clear. -/
def ExposesStale (g : View Key U) (o : GraphOp Key U) : Prop :=
  ∃ u v t, Revives g o u ∧ (g.edges u).cell v = some ⟨t, false⟩ ∧ t < g.adj.clearTime ∧
    ∀ s, o ≠ .addEdge u v s

/-- The operation is a newer clear that keeps a vertex and an older edge of it, whose edge set has
seen a newer clear. -/
def KeepsStale (g : View Key U) (o : GraphOp Key U) : Prop :=
  ∃ c u v tu t, o = .clearVertices c ∧ g.adj.clearTime < c ∧ g.adj.cell u = some ⟨tu, false⟩ ∧
    c ≤ tu ∧ (g.edges u).cell v = some ⟨t, false⟩ ∧ t < c ∧ c ≤ (g.edges u).clearTime

/-- The operation makes something visible, or keeps it, that is older than a clear. -/
def BreaksClear (g : View Key U) (o : GraphOp Key U) : Prop :=
  RevivesStale g o ∨ AddsStale g o ∨ ExposesStale g o ∨ KeepsStale g o

variable [DecidableEq Key] [Zero U] {d : List (GraphOp Key U)}

omit [DecidableEq Key] in
theorem lt_stamp_of_le (h : Stamped GraphOp.stamp (d ++ [o])) {a : GraphOp Key U}
    (ha : a ∈ d ++ [o]) {k : Key} (hk : Touches k a) {c : U}
    (hc : c = 0 ∨ .clearVertices c ∈ d ++ [o]) (hle : c ≤ a.stamp) : c < a.stamp := by
  rcases hc with rfl | hc
  · exact h.pos a ha
  · refine h.lt_of_le_of_ne (a := .clearVertices c) hc ha hle ?_
    rintro rfl
    exact not_touches_clearVertices hk

/-- **The vertices stay newer than the last clear**, if no addition older than it revives one. -/
theorem vertex_newer_step (h : Stamped GraphOp.stamp (d ++ [o]))
    (hP : NewerThanClear ((machine Key U).run d))
    (hbad : ¬ RevivesStale ((machine Key U).run d) o) {k : Key} {t : U}
    (ht : ((machine Key U).run (d ++ [o])).adj.cell k = some ⟨t, false⟩) :
    ((machine Key U).run (d ++ [o])).adj.clearTime < t := by
  have hclear := clearVertices_mem (d ++ [o])
  obtain ⟨a, ha, htouch, rfl⟩ := vertex_live ht
  refine lt_stamp_of_le h ha htouch hclear ?_
  rw [run_concat] at ht ⊢
  rcases vertex_step ht with hold | ⟨hr, hst⟩
  · have hlt := hP.vertex k _ hold
    rcases adj_clearTime_step (g := (machine Key U).run d) (o := o) with ⟨s, rfl⟩ | hc
    · refine max_le hlt.le ?_
      by_cases hs : ((machine Key U).run d).adj.clearTime < s
      · exact Cells.le_of_clear hs ht
      · exact (not_lt.mp hs).trans hlt.le
    · rw [hc]
      exact hlt.le
  · rw [adj_clearTime_of_touches hr.1, ← hst]
    exact not_lt.mp fun hs => hbad ⟨k, hr, hs⟩

/-- A clear that keeps a visible edge is not newer than it, unless the edge set skips the clear. -/
theorem clearTime_le_of_kept {u v : Key} {t : U} (hlt : g.adj.clearTime < t)
    (hbad : ¬ KeepsStale g o) (hul : live (g.adj.cell u) = true)
    (hold : (g.edges u).cell v = some ⟨t, false⟩) (hu : live ((g.apply o).1.adj.cell u) = true)
    (ht : ((g.apply o).1.edges u).cell v = some ⟨t, false⟩) :
    (g.apply o).1.adj.clearTime ≤ t := by
  rcases adj_clearTime_step (g := g) (o := o) with ⟨s, rfl⟩ | hc
  · refine max_le hlt.le ?_
    by_contra hts
    rw [not_le] at hts
    have hs := hlt.trans hts
    obtain ⟨tu, htu'⟩ := live_iff.mp hu
    have htu := (vertex_step htu').resolve_right fun hr => not_touches_clearVertices hr.1.1
    exact hbad ⟨s, u, v, tu, t, rfl, hs, htu, Cells.le_of_clear hs htu', hold, hts,
      le_edgeClear_of_kept hul ht hts⟩
  · rw [hc]
    exact hlt.le

/-- **So do the edges**: one that was there is kept or comes back with its origin, one that `add_edge`
writes has visible endpoints. -/
theorem edge_newer_step (h : Stamped GraphOp.stamp (d ++ [o]))
    (hP : NewerThanClear ((machine Key U).run d))
    (hbad : ¬ BreaksClear ((machine Key U).run d) o) {u v : Key} {t : U}
    (hu : live (((machine Key U).run (d ++ [o])).adj.cell u) = true)
    (ht : (((machine Key U).run (d ++ [o])).edges u).cell v = some ⟨t, false⟩) :
    ((machine Key U).run (d ++ [o])).adj.clearTime < t := by
  refine lt_stamp_of_le h (edge_live ht) (touches_addEdge (Or.inl rfl) t)
    (clearVertices_mem (d ++ [o])) ?_
  show ((machine Key U).run (d ++ [o])).adj.clearTime ≤ t
  have hstep := ht
  rw [run_concat] at hu hstep ⊢
  rcases live_edge_step hstep with hold | ⟨rfl, happ⟩
  · by_cases hul : live (((machine Key U).run d).adj.cell u) = true
    · exact clearTime_le_of_kept (hP.edge u v t hul hold)
        (fun hk => hbad (Or.inr (Or.inr (Or.inr hk)))) hul hold hu hstep
    · have hr := (live_vertex_step hu).resolve_left hul
      rw [adj_clearTime_of_touches hr.1]
      by_contra hlt
      rw [not_le] at hlt
      exact hbad (Or.inr (Or.inr (Or.inl
        ⟨u, v, t, hr, hold, hlt, ne_addEdge_of_kept hr hold hstep⟩)))
  · show ((machine Key U).run d).adj.clearTime ≤ t
    by_contra hlt
    rw [not_le] at hlt
    -- an `add_edge` older than the clear revives no endpoint, so both were visible before it
    have hends : ∀ k, k = u ∨ k = v → live (((machine Key U).run d).adj.cell k) = true :=
      fun k hk => (live_or_revives_of_addEdge h (by rw [ht]; rfl) hk).resolve_right
        fun hr => hbad (Or.inl ⟨k, hr, hlt⟩)
    exact hbad (Or.inr (Or.inl ⟨u, v, t, rfl, hlt, hends u (Or.inl rfl), hends v (Or.inr rfl),
      happ⟩))

theorem not_newer_of_breaks (hbad : BreaksClear g o) : ¬ NewerThanClear (g.apply o).1 := by
  intro hP
  rcases hbad with ⟨k, hr, hs⟩ | ⟨u, v, s, rfl, hs, hu, hv, happ⟩ | ⟨u, v, t, hr, ht, hlt, hne⟩ |
    ⟨c, u, v, tu, t, rfl, hc, htu, hctu, ht, htc, hcu⟩
  · have hlt := hP.vertex k _ (adj_of_revives hr)
    rw [adj_clearTime_of_touches hr.1] at hlt
    exact absurd hs hlt.not_gt
  · have hends : ∀ k, k = u ∨ k = v → live (g.adj.cell k) = true := by
      rintro k (rfl | rfl)
      · exact hu
      · exact hv
    have hedge := (edge_of_live_ends fun k hk => Or.inl (hends k hk)).trans
      (congrArg some (addCell_of_applies happ))
    have htouch := touches_addEdge (u := u) (v := v) (Or.inl rfl) s
    have hlt := hP.edge u v s (live_of_touches htouch hu) hedge
    rw [adj_clearTime_of_touches htouch] at hlt
    exact absurd hs hlt.not_gt
  · have hlt' := hP.edge u v t (by rw [adj_of_revives hr]; rfl)
      ((edge_of_touches hr.1 hne).trans ht)
    rw [adj_clearTime_of_touches hr.1] at hlt'
    exact absurd hlt hlt'.not_gt
  · have hu : (g.apply (.clearVertices c)).1.adj.cell u = some ⟨tu, false⟩ := by
      show clearCell g.adj.clearTime c (g.adj.cell u) = _
      rw [htu, clearCell_of_le_timestamp hctu]
    have hlt := hP.edge u v t (by rw [hu]; rfl) ((edge_of_clearVertices hcu v).trans ht)
    exact absurd htc ((le_max_right _ _).trans_lt hlt).not_gt

end View

end CollabDatatypes.Graph

namespace CollabDatatypes.CmRDT.LWWGraph

open CollabDatatypes.Lib CollabDatatypes.Container CollabDatatypes.Graph

variable {Key T U : Type*} [DecidableEq Key] [LinearOrder U] [Zero U] [Inhabited T]

/-- Every visible vertex and every visible edge was added by an operation of `d` that is newer than
every `clear_vertices` of `d`. -/
def ClearDominates (d : List (GraphOp Key U)) (g : LWWGraph Key T U) : Prop :=
  ∀ c, .clearVertices c ∈ d →
    (∀ k, g.hasVertex k = true → ∃ o ∈ d, Touches k o ∧ c < o.stamp) ∧
      ∀ u v, g.hasEdge u v = true → ∃ s, .addEdge u v s ∈ d ∧ c < s

theorem clearDominates_iff_newer {d : List (GraphOp Key U)} (h : Stamped GraphOp.stamp d) :
    ClearDominates d ((machine Key T U).run d) ↔
      View.NewerThanClear ((View.machine Key U).run d) := by
  unfold ClearDominates
  simp only [hasVertex_eq, hasEdge_eq, view_run, Bool.and_eq_true]
  constructor
  · intro hd
    refine ⟨fun k t ht => ?_, fun u v t hu ht => ?_⟩
    · rcases View.clearVertices_mem d with h0 | hc
      · obtain ⟨o, ho, -, rfl⟩ := View.vertex_live ht
        rw [h0]
        exact h.pos o ho
      · obtain ⟨o, ho, htouch, hlt⟩ := (hd _ hc).1 k (by rw [ht]; rfl)
        obtain ⟨e, he, hle⟩ := View.vertex_le ho (Or.inl htouch)
        obtain rfl := Option.some.inj (ht.symm.trans he)
        exact hlt.trans_le hle
    · rcases View.clearVertices_mem d with h0 | hc
      · rw [h0]
        exact h.pos _ (View.edge_live ht)
      · obtain ⟨s, hs, hlt⟩ := (hd _ hc).2 u v ⟨hu, by rw [ht]; rfl⟩
        obtain ⟨e, he, hle⟩ := View.edge_le (Or.inl hs)
        obtain rfl := Option.some.inj (ht.symm.trans he)
        exact hlt.trans_le hle
  · intro hP c hc
    have hle := View.clearVertices_le hc
    refine ⟨fun k hk => ?_, fun u v ⟨hu, hv⟩ => ?_⟩
    · obtain ⟨t, ht⟩ := live_iff.mp hk
      obtain ⟨o, ho, htouch, rfl⟩ := View.vertex_live ht
      exact ⟨o, ho, htouch, hle.trans_lt (hP.vertex k _ ht)⟩
    · obtain ⟨t, ht⟩ := live_iff.mp hv
      exact ⟨t, View.edge_live ht, hle.trans_lt (hP.edge u v t hu ht)⟩

/-- **When a clear dominates**: in every state of a run, whatever is visible was added by an
operation newer than every `clear_vertices` delivered, exactly when no step of the run breaks a
clear. -/
theorem clearDominates_iff {d : List (GraphOp Key U)} (h : Stamped GraphOp.stamp d) :
    (∀ p, p <+: d → ClearDominates p ((machine Key T U).run p)) ↔
      ∀ p o q, d = p ++ o :: q → ¬ View.BreaksClear ((machine Key T U).run p).view o := by
  simp only [view_run]
  have hiff := Machine.always_iff (C := fun p => Stamped GraphOp.stamp p)
    (P := fun p => View.NewerThanClear ((View.machine Key U).run p))
    (B := fun p o => View.BreaksClear ((View.machine Key U).run p) o)
    (fun p o hC => hC.of_append) ?_ ?_ ?_ h
  · refine Iff.trans (forall_congr' fun p => forall_congr' fun hp => ?_) hiff
    obtain ⟨q, rfl⟩ := hp
    exact clearDominates_iff_newer h.of_append
  · exact ⟨fun k t ht => (by cases ht), fun u v t hu => (by cases hu)⟩
  · intro p o hs hP hbad
    exact ⟨fun k t ht => View.vertex_newer_step hs hP (fun hr => hbad (Or.inl hr)) ht,
      fun u v t hu ht => View.edge_newer_step hs hP hbad hu ht⟩
  · intro p o _ hbad
    rw [View.run_concat]
    exact View.not_newer_of_breaks hbad

theorem clearDominates_iff_late_addEdge :
    (∀ p, p <+: [GraphOp.clearVertices 5, .addEdge 0 1 3] →
        ClearDominates p ((machine ℕ Unit ℕ).run p)) ↔
      ∀ p o q, [GraphOp.clearVertices 5, .addEdge 0 1 3] = p ++ o :: q →
        ¬ View.BreaksClear ((machine ℕ Unit ℕ).run p).view o :=
  clearDominates_iff (by decide)

/-- All vertices are cleared at 10; then a `remove_edge` at 1 leaves a tombstone for vertex 0, and an
`add_vertex` at 5 makes the vertex visible. -/
theorem clear_passed :
    Stamped GraphOp.stamp [.clearVertices 10, .removeEdge 0 1 1, .addVertex 0 5] ∧
    ¬ ClearDominates [.clearVertices 10, .removeEdge 0 1 1, .addVertex 0 5]
      ((machine ℕ Unit ℕ).run [.clearVertices 10, .removeEdge 0 1 1, .addVertex 0 5]) := by
  refine ⟨by decide, fun h => ?_⟩
  obtain ⟨o, ho, htouch, hlt⟩ := (h 10 (by simp)).1 0 (by decide)
  simp only [List.mem_cons, List.not_mem_nil, or_false] at ho
  rcases ho with rfl | rfl | rfl
  · exact not_touches_clearVertices htouch
  · exact not_touches_removeEdge htouch
  · exact absurd hlt (by decide)

end CollabDatatypes.CmRDT.LWWGraph
