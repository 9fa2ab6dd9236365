import CollabDatatypes.Graph.Refine
import CollabDatatypes.Graph.History

/-! # Dangling edges

With clears an edge can stay visible although its destination is not. There are two ways. A
`clear_vertices` removes the destination of an edge, while the origin is newer and its edge set skips
the clear, because it has seen a newer one; the edge was planted by a `remove_edge` in between. Or a
removed vertex is added again, with edges that its removal skipped, and one of them leads to a vertex
that was removed meanwhile. `Dangles` says when a step does one of these. No other step makes an edge
dangle: `noDangling_iff`. -/

namespace CollabDatatypes.Graph

open CollabDatatypes.Lib CollabDatatypes.CmRDT CollabDatatypes.Container

variable {Key U : Type*} [LinearOrder U]

namespace View

variable {g : View Key U} {o : GraphOp Key U} {u v : Key}

/-- The operation clears the visible destination of a visible edge, but neither the origin, which is
newer, nor the edge, whose edge set has seen a newer clear. -/
def ClearsUnder (g : View Key U) (o : GraphOp Key U) (u v : Key) : Prop :=
  ∃ s tu tv, o = .clearVertices s ∧ g.adj.clearTime < s ∧
    g.adj.cell u = some ⟨tu, false⟩ ∧ s ≤ tu ∧ g.adj.cell v = some ⟨tv, false⟩ ∧ tv < s ∧
    live ((g.edges u).cell v) = true ∧ s ≤ (g.edges u).clearTime

/-- The operation makes the origin of an edge visible again, but not its destination, nor is it an
`add_edge` of this edge. -/
def RevivesUnder (g : View Key U) (o : GraphOp Key U) (u v : Key) : Prop :=
  Revives g o u ∧ ¬ live (g.adj.cell u) = true ∧ live ((g.edges u).cell v) = true ∧
    ¬ live (g.adj.cell v) = true ∧ ¬ Revives g o v ∧ ∀ s, o ≠ .addEdge u v s

/-- The operation makes the edge from `u` to `v` dangle. -/
def Dangles (g : View Key U) (o : GraphOp Key U) (u v : Key) : Prop :=
  ClearsUnder g o u v ∨ RevivesUnder g o u v

variable [DecidableEq Key] [Zero U]

theorem ends_live_step {d : List (GraphOp Key U)} (h : Stamped GraphOp.stamp (d ++ [o]))
    (hP : live (((machine Key U).run d).adj.cell u) = true →
      live ((((machine Key U).run d).edges u).cell v) = true →
      live (((machine Key U).run d).adj.cell v) = true)
    (hbad : ¬ Dangles ((machine Key U).run d) o u v)
    (hu : live (((machine Key U).run (d ++ [o])).adj.cell u) = true)
    (he : live ((((machine Key U).run (d ++ [o])).edges u).cell v) = true) :
    live (((machine Key U).run (d ++ [o])).adj.cell v) = true := by
  by_contra hv
  have hadd : ∀ s, o ≠ .addEdge u v s := by
    rintro s rfl
    exact hv (ends_live_of_addEdge h he (Or.inr rfl))
  obtain ⟨t, ht⟩ := live_iff.mp he
  rw [run_concat] at hu hv ht
  have hold : (((machine Key U).run d).edges u).cell v = some ⟨t, false⟩ :=
    (live_edge_step ht).resolve_right fun ho => hadd t ho.1
  -- a step that kills the destination takes the edge along, unless it is a clear that skips it
  have hkill : live (((machine Key U).run d).adj.cell v) = true →
      ClearsUnder ((machine Key U).run d) o u v := by
    intro hvl
    obtain ⟨tv, htv⟩ := live_iff.mp hvl
    obtain ⟨e, hev, hle⟩ := edge_dominated hold (Or.inr rfl)
    obtain rfl := Option.some.inj (htv.symm.trans hev)
    replace hle : t ≤ tv := hle
    rcases dead_vertex_step htv (vertex_nonneg h.of_append htv) hv with
      ⟨s, rfl, hlt⟩ | ⟨s, rfl, hc, hlt⟩
    · by_cases huv : u = v
      · rw [huv] at hu
        exact absurd hu hv
      · cases (edge_of_removeVertex huv hold (hle.trans_lt hlt)).symm.trans ht
    · obtain ⟨tu, htu'⟩ := live_iff.mp hu
      have htu := (vertex_step htu').resolve_right fun hr => not_touches_clearVertices hr.1.1
      exact ⟨s, tu, tv, rfl, hc, htu, Cells.le_of_clear hc htu', htv, hlt, by rw [hold]; rfl,
        le_edgeClear_of_kept (by rw [htu]; rfl) ht (hle.trans_lt hlt)⟩
  by_cases hul : live (((machine Key U).run d).adj.cell u) = true
  · exact hbad (Or.inl (hkill (hP hul (by rw [hold]; rfl))))
  · have hr := (live_vertex_step hu).resolve_left hul
    refine hbad (Or.inr ⟨hr, hul, by rw [hold]; rfl, fun hvl => ?_, fun hr' => ?_, hadd⟩)
    · obtain ⟨s, _, _, rfl, -⟩ := hkill hvl
      exact not_touches_clearVertices hr.1
    · rw [adj_of_revives hr'] at hv
      exact hv rfl

theorem dangling_of_dangles (hbad : Dangles g o u v) :
    live ((g.apply o).1.adj.cell u) = true ∧ live (((g.apply o).1.edges u).cell v) = true ∧
      ¬ live ((g.apply o).1.adj.cell v) = true := by
  rcases hbad with ⟨s, tu, tv, rfl, hc, htu, hs, htv, hlt, he, hcu⟩ | ⟨hr, -, he, hv, hnr, hadd⟩
  · refine ⟨?_, ?_, ?_⟩
    · show live (clearCell g.adj.clearTime s (g.adj.cell u)) = true
      rw [htu, clearCell_of_le_timestamp hs]
      rfl
    · rwa [edge_of_clearVertices hcu]
    · show ¬ live (clearCell g.adj.clearTime s (g.adj.cell v)) = true
      rw [htv, clearCell_some hc, write_of_lt hlt]
      exact Bool.false_ne_true
  · refine ⟨?_, ?_, fun hv' => ?_⟩
    · rw [adj_of_revives hr]
      rfl
    · rwa [edge_of_touches hr.1 hadd]
    · exact (live_vertex_step hv').elim hv hnr

end View

end CollabDatatypes.Graph

namespace CollabDatatypes.CmRDT.LWWGraph

open CollabDatatypes.Lib CollabDatatypes.Container CollabDatatypes.Graph

variable {Key T U : Type*} [DecidableEq Key] [LinearOrder U] [Zero U] [Inhabited T]

/-- **When no edge dangles**: in every state of a run the endpoints of a visible edge are visible,
exactly when no step of the run makes an edge dangle. -/
theorem noDangling_iff {d : List (GraphOp Key U)} (h : Stamped GraphOp.stamp d) :
    (∀ p, p <+: d → ∀ u v, ((machine Key T U).run p).hasEdge u v = true →
        ((machine Key T U).run p).hasVertex u = true ∧
          ((machine Key T U).run p).hasVertex v = true) ↔
      ∀ p o q, d = p ++ o :: q → ∀ u v, ¬ View.Dangles ((machine Key T U).run p).view o u v := by
  simp only [hasEdge_eq, hasVertex_eq, view_run, Bool.and_eq_true]
  have hiff := Machine.always_iff (C := fun p => Stamped GraphOp.stamp p)
    (P := fun p => ∀ u v, live (((View.machine Key U).run p).adj.cell u) = true ∧
        live ((((View.machine Key U).run p).edges u).cell v) = true →
      live (((View.machine Key U).run p).adj.cell u) = true ∧
        live (((View.machine Key U).run p).adj.cell v) = true)
    (B := fun p o => ∃ u v, View.Dangles ((View.machine Key U).run p) o u v)
    (fun p o hC => hC.of_append) ?_ ?_ ?_ h
  · simpa only [not_exists] using hiff
  · rintro u v ⟨hu, -⟩
    cases hu
  · rintro p o hs hP hbad u v ⟨hu, he⟩
    exact ⟨hu, View.ends_live_step hs (fun hu he => (hP u v ⟨hu, he⟩).2)
      (fun hb => hbad ⟨u, v, hb⟩) hu he⟩
  · rintro p o - ⟨u, v, hbad⟩ hP
    obtain ⟨hu, he, hv⟩ := View.dangling_of_dangles hbad
    rw [← View.run_concat] at hu he hv
    exact hv (hP u v ⟨hu, he⟩).2

theorem noDangling_iff_cleared :
    (∀ p, p <+: [GraphOp.addEdge 0 1 3, .clearVertices 5] →
        ∀ u v, ((machine ℕ Unit ℕ).run p).hasEdge u v = true →
        ((machine ℕ Unit ℕ).run p).hasVertex u = true ∧
          ((machine ℕ Unit ℕ).run p).hasVertex v = true) ↔
      ∀ p o q, [GraphOp.addEdge 0 1 3, .clearVertices 5] = p ++ o :: q →
        ∀ u v, ¬ View.Dangles ((machine ℕ Unit ℕ).run p).view o u v :=
  noDangling_iff (by decide)

/-- The edges of vertex 0 have seen a clear at 30 when an edge of the stamp 4 is added, over the
tombstone of a `remove_edge`; a `clear_vertices` at 15 then removes its destination only. -/
theorem edge_dangles :
    Stamped GraphOp.stamp [.addVertex 0 20, .clearVertexEdges 0 30, .removeEdge 0 1 3,
      .addEdge 0 1 4, .clearVertices 15] ∧
    ((machine ℕ Unit ℕ).run [.addVertex 0 20, .clearVertexEdges 0 30, .removeEdge 0 1 3,
      .addEdge 0 1 4, .clearVertices 15]).hasEdge 0 1 = true ∧
    ((machine ℕ Unit ℕ).run [.addVertex 0 20, .clearVertexEdges 0 30, .removeEdge 0 1 3,
      .addEdge 0 1 4, .clearVertices 15]).hasVertex 1 = false := by
  decide

end CollabDatatypes.CmRDT.LWWGraph
