import CollabDatatypes.Graph.Refine
import CollabDatatypes.Graph.History

/-! # Nothing is lost and nothing goes back

One call of a modifier may write an entry several times: `add_edge` repairs the edge it has just added,
`remove_vertex` sweeps the edge sets of all the vertices, `remove_edge` removes the endpoints at the
least stamp. Every single write advances the entry or leaves it, so every modifier advances the whole
graph, from any state, and so does a run (`modifiers_advance`). An edge that is not removed was added by
an `add_edge`, which refreshed both endpoints, and their stamps do not go back: they dominate that of
the edge (`View.endsDominate_step`, `endpointsDominate_run`). -/

namespace CollabDatatypes.CmRDT.LWWGraph

open CollabDatatypes.Lib CollabDatatypes.Container CollabDatatypes.Graph

variable {Key T U : Type*} [DecidableEq Key] [LinearOrder U]

/-- Every entry of `g` is in `g'`, not older and with another flag only if it is newer, and no time of a
clear is earlier. -/
structure AdvancesTo (g g' : LWWGraph Key T U) : Prop where
  vertex : ∀ k e, g.vertexEntry k = some e → ∃ e', g'.vertexEntry k = some e' ∧ Advances e e'
  edge : ∀ u v e, g.edgeEntry u v = some e → ∃ e', g'.edgeEntry u v = some e' ∧ Advances e e'
  clearTime : g.adj.lastClearTime ≤ g'.adj.lastClearTime
  edgeClearTime : ∀ u c, g.edgeClearTime u = some c → ∃ c', g'.edgeClearTime u = some c' ∧ c ≤ c'

theorem AdvancesTo.refl (g : LWWGraph Key T U) : AdvancesTo g g where
  vertex _ e h := ⟨e, h, Advances.refl e⟩
  edge _ _ e h := ⟨e, h, Advances.refl e⟩
  clearTime := le_rfl
  edgeClearTime _ c h := ⟨c, h, le_rfl⟩

theorem AdvancesTo.trans {a b c : LWWGraph Key T U} (h : AdvancesTo a b) (h' : AdvancesTo b c) :
    AdvancesTo a c where
  vertex k e he := by
    obtain ⟨e', he', h1⟩ := h.vertex k e he
    obtain ⟨e'', he'', h2⟩ := h'.vertex k e' he'
    exact ⟨e'', he'', h1.trans h2⟩
  edge u v e he := by
    obtain ⟨e', he', h1⟩ := h.edge u v e he
    obtain ⟨e'', he'', h2⟩ := h'.edge u v e' he'
    exact ⟨e'', he'', h1.trans h2⟩
  clearTime := h.clearTime.trans h'.clearTime
  edgeClearTime u t ht := by
    obtain ⟨t', ht', h1⟩ := h.edgeClearTime u t ht
    obtain ⟨t'', ht'', h2⟩ := h'.edgeClearTime u t' ht'
    exact ⟨t'', ht'', h1.trans h2⟩

variable [Zero U] [Inhabited T]

theorem edgeClearTime_apply {g : LWWGraph Key T U} {u : Key} {c : U}
    (h : g.edgeClearTime u = some c) (o : GraphOp Key U) : (g.view.edges u).clearTime = c ∧
      (g.apply o).1.edgeClearTime u = some ((g.view.apply o).1.edges u).clearTime := by
  rw [edgeClearTime_eq] at h
  obtain ⟨e, he, hc⟩ := Option.map_eq_some_iff.mp h
  rw [vertexEntry_eq] at he
  obtain ⟨e', he', -⟩ := View.vertex_advances he o
  refine ⟨hc, ?_⟩
  rw [edgeClearTime_eq, vertexEntry_eq, (view_apply g o).1, he']
  rfl

theorem advances_apply (g : LWWGraph Key T U) (o : GraphOp Key U) : AdvancesTo g (g.apply o).1 := by
  have hview := (view_apply g o).1
  refine ⟨fun k e he => ?_, fun u v e he => ?_, ?_, fun u c hc => ?_⟩
  · rw [vertexEntry_eq] at he ⊢
    rw [hview]
    exact View.vertex_advances he o
  · rw [edgeEntry_eq] at he ⊢
    rw [hview]
    exact View.edge_advances he o
  · show g.view.adj.clearTime ≤ (g.apply o).1.view.adj.clearTime
    rw [hview]
    exact g.view.adj_clearTime_mono o
  · obtain ⟨rfl, hc'⟩ := edgeClearTime_apply hc o
    exact ⟨_, hc', g.view.edgeClear_mono o u⟩

theorem advances_run (p q : List (GraphOp Key U)) :
    AdvancesTo ((machine Key T U).run p) ((machine Key T U).run (p ++ q)) := by
  refine Machine.history_persist (C := fun _ => True)
    (P := fun d => AdvancesTo ((machine Key T U).run p) ((machine Key T U).run d))
    (fun _ _ _ => trivial) (AdvancesTo.refl _) ?_ q trivial
  intro q o _ h
  rw [Machine.run_concat]
  exact h.trans (advances_apply _ o)

/-- **Nothing is lost and nothing goes back**, in one step from any state and over a run. -/
theorem modifiers_advance :
    (∀ (g : LWWGraph Key T U) (o : GraphOp Key U), AdvancesTo g (g.apply o).1) ∧
      ∀ p q : List (GraphOp Key U),
        AdvancesTo ((machine Key T U).run p) ((machine Key T U).run (p ++ q)) :=
  ⟨advances_apply, advances_run⟩

/-! ### The endpoints of an edge -/

omit [Zero U] [Inhabited T] in
/-- Both endpoints of an edge that is not removed, in the edge set of any vertex, have entries at least
as new as the edge. -/
def EndpointsDominate (g : LWWGraph Key T U) : Prop :=
  ∀ u v edge, g.edgeEntry u v = some edge → edge.isRemoved = false → ∀ k, k = u ∨ k = v →
    ∃ vertex, g.vertexEntry k = some vertex ∧ edge.timestamp ≤ vertex.timestamp

/-- **The stamps of the endpoints dominate that of an edge** in every reachable graph, whatever the
timestamps. -/
theorem endpointsDominate_run (d : List (GraphOp Key U)) :
    ((machine Key T U).run d).EndpointsDominate := by
  rintro u v ⟨t, b⟩ he rfl k hk
  rw [edgeEntry_eq, view_run] at he
  rw [vertexEntry_eq, view_run]
  exact View.edge_dominated he hk

end CollabDatatypes.CmRDT.LWWGraph
