import CollabDatatypes.Graph.Refine
import CollabDatatypes.Graph.Exchange

/-! # What a clear of the edges of a vertex dominates

After a `clear_vertex_edges` of `k` with the stamp `c`, whenever it was delivered, an edge out of `k`
should be visible only when a newer `add_edge` was delivered. Three kinds of steps break this: the
clear itself, when the edge set of `k` skips it, having seen a newer one (`KeepsEdge`); an `add_edge`
older than a clear that was delivered takes effect on an edge set that has not seen this clear, or
over a tombstone that is older still (`AddsEdgeLate`); the vertex comes back with an edge that a clear
should have taken (`ExposesEdge`). No other step does.

A clear that finds the entry of its vertex can be exchanged with older `add_edge`s (`ClearedAhead`);
one that finds none leaves no trace. The exchange may still leave tombstones with other stamps, which
operations that come later tell apart (`Graph.Exchange`). -/

namespace CollabDatatypes.Graph

open CollabDatatypes.Lib CollabDatatypes.CmRDT CollabDatatypes.Container

variable {Key U : Type*} [LinearOrder U]

namespace View

variable {g g' : View Key U} {o : GraphOp Key U} {k u v : Key} {c s : U}

/-! ### Steps that pass a clear -/

variable [DecidableEq Key] [Zero U] {d : List (GraphOp Key U)}

/-- `g'` is ahead of `g` by a clear of the edges of `k`: the entries of an edge are the same and at
least as new, or `g'` has none that is visible or that an older `add_edge` could revive, and `g` has
none that the clear would not remove. -/
structure ClearedAhead (k : Key) (c : U) (g g' : View Key U) : Prop where
  adj : g'.adj = g.adj
  clearTime : c ≤ (g'.edges k).clearTime
  cell : ∀ v, (∃ e, (g.edges k).cell v = some e ∧ (g'.edges k).cell v = some e ∧ c ≤ e.timestamp) ∨
    (∀ e, (g'.edges k).cell v = some e → e.isRemoved = true ∧ c ≤ e.timestamp) ∧
      ∀ t, (g.edges k).cell v = some ⟨t, false⟩ → t < c

omit [DecidableEq Key] [Zero U] in
theorem addedEdge_of_removed (h : (g.touchedEdge u v s).isRemoved = true) :
    g.addedEdge u v s = g.touchedEdge u v s := by
  unfold addedEdge repairs
  rw [h, Bool.not_true, Bool.false_and]
  exact if_neg Bool.false_ne_true

theorem addedEdge_live {t : U} (h : g.addedEdge u v s = ⟨t, false⟩) :
    (g.edges u).cell v = some ⟨t, false⟩ ∨ t = s := by
  have hcell : ((g.apply (.addEdge u v s)).1.edges u).cell v = some ⟨t, false⟩ :=
    ((addEdge_cell g u v u v s).trans (if_pos ⟨rfl, rfl⟩)).trans (congrArg some h)
  refine (live_edge_step hcell).imp_right fun ho => ?_
  cases ho.1
  rfl

theorem ClearedAhead.addEdge (h : ClearedAhead k c g g') (hs : s < c) :
    ClearedAhead k c (g.addEdge u v s) (g'.addEdge u v s) := by
  refine ⟨?_, ?_, fun w => ?_⟩
  · show (g'.adj.add u s).add v s = (g.adj.add u s).add v s
    rw [h.adj]
  · rw [clearTime_addEdge]
    exact h.clearTime
  · rw [addEdge_cell, addEdge_cell]
    by_cases hkw : k = u ∧ w = v
    · obtain ⟨rfl, rfl⟩ := hkw
      rw [if_pos ⟨rfl, rfl⟩, if_pos ⟨rfl, rfl⟩]
      rcases h.cell w with ⟨e, hx, hy, hle⟩ | ⟨hy, hx⟩
      · have ht : g.touchedEdge k w s = e := by
          unfold touchedEdge
          rw [hx, addCell_of_le (hs.le.trans hle)]
        have ht' : g'.touchedEdge k w s = e := by
          unfold touchedEdge
          rw [hy, addCell_of_le (hs.le.trans hle)]
        refine Or.inl ⟨_, rfl, congrArg some (addedEdge_congr h.adj (ht'.trans ht.symm)), ?_⟩
        rw [← ht] at hle
        exact hle.trans (g.advances_addedEdge k w s).1
      · refine Or.inr ⟨fun e he => ?_, fun t ht => ?_⟩
        · have ht' : (g'.touchedEdge k w s).isRemoved = true ∧
              c ≤ (g'.touchedEdge k w s).timestamp := by
            unfold touchedEdge
            cases hy' : (g'.edges k).cell w with
            | none =>
              rw [addCell_none_of_le (hs.le.trans h.clearTime)]
              exact ⟨rfl, h.clearTime⟩
            | some e' =>
              rw [addCell_of_le (hs.le.trans (hy e' hy').2)]
              exact hy e' hy'
          rw [← Option.some.inj he, addedEdge_of_removed ht'.1]
          exact ht'
        · rcases addedEdge_live (Option.some.inj ht) with hold | rfl
          · exact hx t hold
          · exact hs
    · rw [if_neg hkw, if_neg hkw]
      exact h.cell w

omit [DecidableEq Key] [Zero U] in
theorem ClearedAhead.live_eq (h : ClearedAhead k c g g') (hc : (g.edges k).clearTime < c) (v : Key) :
    live (clearCell (g.edges k).clearTime c ((g.edges k).cell v)) = live ((g'.edges k).cell v) := by
  rcases h.cell v with ⟨e, hx, hy, hle⟩ | ⟨hy, hx⟩
  · rw [hx, hy, clearCell_of_le_timestamp hle]
  · have hdead : live ((g'.edges k).cell v) = false := by
      cases hy' : (g'.edges k).cell v with
      | none => rfl
      | some e => rw [live_some, (hy e hy').1, Bool.not_true]
    rw [hdead, ← Bool.not_eq_true, live_iff]
    rintro ⟨t, ht⟩
    rcases clearCell_cases (g.edges k).clearTime c ((g.edges k).cell v) with
      ⟨he, hle⟩ | ⟨-, e, -, -, he⟩
    · exact (hx t (he.symm.trans ht)).not_ge (hle hc _ (he.symm.trans ht))
    · cases he.symm.trans ht

end View

end CollabDatatypes.Graph

namespace CollabDatatypes.CmRDT.LWWGraph

open CollabDatatypes.Lib CollabDatatypes.Container CollabDatatypes.Graph

variable {Key T U : Type*} [DecidableEq Key] [LinearOrder U] [Zero U] [Inhabited T]

end CollabDatatypes.CmRDT.LWWGraph
