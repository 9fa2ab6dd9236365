import CollabDatatypes.Container.Sequential
import CollabDatatypes.Graph.PlainGraph
import CollabDatatypes.Graph.Order
import CollabDatatypes.Graph.Vertices

/-! # One writer at a time: the graph is a plain graph

What the user of a graph sees while the stamps only grow. After any history that left no live edge at
a removed vertex, operations with fresh and increasing stamps change and report what they do on a
plain graph (`graph_sequential`), all six modifiers included. Histories without clears are of this
kind (`noHiddenEdge_of_noClear`). So replicas that have diverged agree again, and for good, once they
have received the same fresh `clear_vertices` and fresh operations after it (`fresh_agree`). -/

namespace CollabDatatypes.Graph

open CollabDatatypes.Lib CollabDatatypes.CmRDT CollabDatatypes.Container

variable {Key T U : Type*}

namespace View

variable [LinearOrder U] [Zero U]

/-- Nothing in the graph is as new as `u`, a possible stamp. -/
structure Below (g : View Key U) (u : U) : Prop where
  pos : 0 < u
  adj : g.adj.Below u
  edges : ∀ w, (g.edges w).Below u

omit [Zero U] in
/-- The view shows what the plain graph has. -/
structure Shows (g : View Key U) (t : PlainGraph Key) : Prop where
  known : ∀ k, (g.adj.cell k).isSome = t.known k
  vertex : ∀ k, live (g.adj.cell k) = t.vertex k
  edge : ∀ u v, live ((g.edges u).cell v) = t.edge u v

variable [DecidableEq Key] {g : View Key U} {t : PlainGraph Key} {o : GraphOp Key U} {u : U}

/-! ### What a step writes is as old as the operation -/

theorem touched_lt (h : g.Below u) {s : U} (hs : s < u) (k : Key) : (g.touched k s).timestamp < u :=
  (Cells.below_step h.adj (o := .add k s) hs).cell k _ (g.adj.add_cell_self k s)

theorem below_step (h : g.Below u) (ho : o.stamp < u) : (g.apply o).1.Below u := by
  have hupdate : ∀ (w : Key) (y : Cells Key U), y.Below u →
      ∀ w', (Function.update g.edges w y w').Below u := by
    intro w y hy w'
    rw [Function.update_apply]
    split_ifs
    · exact hy
    · exact h.edges w'
  have hclear : ∀ w, o.stamp < u → ((g.edges w).clear o.stamp).Below u := fun w hs =>
    Cells.below_step (h.edges w) (o := .clear o.stamp) hs
  refine ⟨h.pos, ?_, ?_⟩
  · cases o with
    | addVertex k s => exact Cells.below_step h.adj (o := .add k s) ho
    | removeVertex k s => exact Cells.below_step h.adj (o := .remove k s) ho
    | addEdge v w s =>
      exact Cells.below_step (Cells.below_step h.adj (o := .add v s) ho) (o := .add w s) ho
    | removeEdge v w s =>
      exact Cells.below_step (Cells.below_step h.adj (o := .remove v 0) h.pos)
        (o := .remove w 0) h.pos
    | clearVertices s => exact Cells.below_step h.adj (o := .clear s) ho
    | clearVertexEdges k s =>
      show (g.clearVertexEdges k s).adj.Below u
      rw [clearVertexEdges_adj]
      exact h.adj
  · cases o with
    | addVertex k s => exact h.edges
    | removeVertex k s =>
      intro w
      show (if w = k then _ else if _ then _ else _ : Cells Key U).Below u
      split_ifs
      · exact hclear w ho
      · exact Cells.below_step (h.edges w) (o := .remove k s) ho
      · exact h.edges w
    | addEdge v w s =>
      have hadd := Cells.below_step (h.edges v) (o := .add w s) ho
      refine hupdate v _ ?_
      split_ifs
      · exact Cells.below_step hadd (o := .remove w (g.highTime v w s))
          (max_lt (touched_lt h ho v) (touched_lt h ho w))
      · exact hadd
    | removeEdge v w s => exact hupdate v _ (Cells.below_step (h.edges v) (o := .remove w s) ho)
    | clearVertices s =>
      intro w
      show (if _ then _ else _ : Cells Key U).Below u
      split_ifs
      · exact hclear w ho
      · exact h.edges w
    | clearVertexEdges k s =>
      show ∀ w, ((g.clearVertexEdges k s).edges w).Below u
      unfold clearVertexEdges
      split_ifs
      · exact hupdate k _ (hclear k ho)
      · exact h.edges

theorem verticesNonneg_run {d : List (GraphOp Key U)} (hd : ∀ o ∈ d, 0 < o.stamp) :
    ((machine Key U).run d).VerticesNonneg :=
  Machine.run_invariant_of (I := VerticesNonneg) (Q := fun o => 0 < GraphOp.stamp o) _
    (fun _ _ he => by cases he) (fun _ _ ho hg => verticesNonneg_step hg ho.le) hd

theorem below_run {d : List (GraphOp Key U)} (h0 : 0 < u) (hd : ∀ o ∈ d, o.stamp < u) :
    ((machine Key U).run d).Below u := by
  have hinit : (Cells.init Key U).Below u := ⟨h0, fun _ _ he => by cases he⟩
  exact Machine.run_invariant_of (I := fun g : View Key U => g.Below u)
    (Q := fun o => GraphOp.stamp o < u) _ ⟨h0, hinit, fun _ => hinit⟩
    (fun _ _ ho hg => below_step hg ho) hd

/-! ### What a new operation shows -/

omit [DecidableEq Key] in
theorem repairs_of_below {s : U} (h : g.Below s) (v w : Key) : g.repairs v w s = false := by
  have hv : g.touched v s = ⟨s, false⟩ := Cells.addCell_of_below h.adj v
  have hw : g.touched w s = ⟨s, false⟩ := Cells.addCell_of_below h.adj w
  unfold repairs
  rw [hv, hw]
  simp

theorem vertex_of_below (h : g.Below o.stamp) (h0 : g.VerticesNonneg) (hs : g.Shows t) (k : Key) :
    live ((g.apply o).1.adj.cell k) = (t.apply o).1.vertex k := by
  rw [adj_apply_cell]
  have hk := hs.vertex k
  cases o with
  | addVertex k' s =>
    have ha := Cells.addCell_of_below h.adj k
    by_cases hkk : k = k' <;>
      simp_all [vertexCell, GraphOp.stamp, PlainGraph.apply, PlainGraph.addVertex]
  | removeVertex k' s =>
    have hr := Cells.removeCell_of_below h.adj k
    by_cases hkk : k = k' <;>
      simp_all [vertexCell, GraphOp.stamp, PlainGraph.apply, PlainGraph.removeVertex]
  | addEdge v w s =>
    have ha := Cells.addCell_of_below h.adj k
    by_cases hv : k = v <;> by_cases hw : k = w <;>
      simp_all [vertexCell, GraphOp.stamp, PlainGraph.apply, PlainGraph.addEdge]
  | removeEdge v w s =>
    show live (if k = v ∨ k = w then some (removeCell 0 (g.adj.cell k)) else g.adj.cell k) =
      t.vertex k
    rw [← hk]
    split_ifs
    · -- an entry is not older than the stamp `0` of this removal
      cases he : g.adj.cell k with
      | none => rfl
      | some e => rw [removeCell, write_of_le (h0 k e he)]
    · rfl
  | clearVertices s =>
    have hc : clearCell g.adj.clearTime s (g.adj.cell k) = (g.adj.cell k).map fun _ => ⟨s, true⟩ :=
      Cells.clearCell_of_below h.adj k
    show live (clearCell g.adj.clearTime s (g.adj.cell k)) = false
    rw [hc]
    cases g.adj.cell k <;> rfl
  | clearVertexEdges k' s => exact hk

omit [DecidableEq Key] in
theorem clear_of_below {s : U} (h : g.Below s) (v w : Key) :
    live (((g.edges v).clear s).cell w) = false := by
  have hc := Cells.clearCell_of_below (h.edges v) w
  rw [Cells.clear_cell, hc]
  cases (g.edges v).cell w <;> rfl

theorem edge_of_below (h : g.Below o.stamp) (hs : g.Shows t) (v w : Key) :
    live (((g.apply o).1.edges v).cell w) = (t.apply o).1.edge v w := by
  have hvw := hs.edge v w
  cases o with
  | addVertex k s => exact hvw
  | removeVertex k s =>
    refine (congrArg live (g.removeVertex_cell k v w s)).trans ?_
    have hclear := clear_of_below h v w
    have hr := Cells.removeCell_of_below (h.edges v) w
    by_cases hv : v = k <;> by_cases hw : w = k <;> cases hl : live ((g.edges v).cell w) <;>
      simp_all [GraphOp.stamp, PlainGraph.apply, PlainGraph.removeVertex]
  | addEdge v' w' s =>
    refine (congrArg live (g.addEdge_cell v' w' v w s)).trans ?_
    have hrep := repairs_of_below h v' w'
    have ha := Cells.addCell_of_below (h.edges v') w'
    by_cases hv : v = v' ∧ w = w'
    · simp_all [addedEdge, touchedEdge, GraphOp.stamp, PlainGraph.apply, PlainGraph.addEdge]
    · have hn : (decide (v = v') && decide (w = w')) = false := by simpa using hv
      rw [if_neg hv, hvw]
      show t.edge v w = (decide (v = v') && decide (w = w') || t.edge v w)
      rw [hn, Bool.false_or]
  | removeEdge v' w' s =>
    refine (congrArg live (g.removeEdge_cell v' w' v w s)).trans ?_
    have hr := Cells.removeCell_of_below (h.edges v') w'
    by_cases hv : v = v' ∧ w = w'
    · simp_all [GraphOp.stamp, PlainGraph.apply, PlainGraph.removeEdge]
    · have hn : (decide (v = v') && decide (w = w')) = false := by simpa using hv
      rw [if_neg hv, hvw]
      show t.edge v w = (!(decide (v = v') && decide (w = w')) && t.edge v w)
      rw [hn, Bool.not_false, Bool.true_and]
  | clearVertices s =>
    refine (congrArg live (g.clearVertices_cell v w s)).trans ?_
    have hclear := clear_of_below h v w
    have hends := t.ends v w
    rw [← hs.vertex, ← hvw] at hends
    show _ = false
    split_ifs with hv
    · exact hclear
    · exact Bool.eq_false_iff.mpr fun hl => hv (hends hl).1
  | clearVertexEdges k s =>
    refine (congrArg live (g.clearVertexEdges_cell k v w s)).trans ?_
    have hclear : live (((g.edges v).clear s).cell w) = false := clear_of_below h v w
    have hends := t.ends v w
    have hknown := t.known_of_vertex v
    rw [← hvw] at hends
    rw [← hs.known] at hknown
    show _ = (decide (v ≠ k) && t.edge v w)
    by_cases hv : v = k
    · subst hv
      by_cases hp : (g.adj.cell v).isSome = true
      · simpa [hp] using hclear
      · have hl : ¬ live ((g.edges v).cell w) = true := fun hl => hp (hknown (hends hl).1)
        simpa [hp] using hl
    · simpa [hv] using hvw

theorem known_of_shows (hs : g.Shows t) (k : Key) :
    ((g.apply o).1.adj.cell k).isSome = (t.apply o).1.known k := by
  rw [adj_apply_cell]
  have hk := hs.known k
  cases o with
  | addVertex k' s =>
    by_cases hkk : k = k' <;> simp_all [vertexCell, PlainGraph.apply, PlainGraph.addVertex]
  | removeVertex k' s =>
    by_cases hkk : k = k' <;> simp_all [vertexCell, PlainGraph.apply, PlainGraph.removeVertex]
  | addEdge v w s =>
    by_cases hv : k = v <;> by_cases hw : k = w <;>
      simp_all [vertexCell, PlainGraph.apply, PlainGraph.addEdge]
  | removeEdge v w s =>
    by_cases hv : k = v <;> by_cases hw : k = w <;>
      simp_all [vertexCell, PlainGraph.apply, PlainGraph.removeEdge]
  | clearVertices s =>
    show (clearCell g.adj.clearTime s (g.adj.cell k)).isSome = t.known k
    rw [← hk]
    unfold clearCell
    split_ifs <;> simp
  | clearVertexEdges k' s => exact hk

theorem result_of_below (h : g.Below o.stamp) (hs : g.Shows t) :
    (g.apply o).2 = (t.apply o).2 := by
  cases o with
  | addVertex k s =>
    have ha := Cells.addCell_of_below h.adj k
    have hk := hs.vertex k
    simp_all [apply, PlainGraph.apply, GraphOp.stamp]
  | removeVertex k s =>
    have hr := Cells.removeCell_of_below h.adj k
    have hk := hs.vertex k
    simp_all [apply, PlainGraph.apply, GraphOp.stamp]
  | addEdge v w s =>
    have hrep := repairs_of_below h v w
    have hv := Cells.addCell_of_below h.adj v
    have hw := Cells.addCell_of_below h.adj w
    have he := Cells.addCell_of_below (h.edges v) w
    have hsv := hs.vertex v
    have hsw := hs.vertex w
    have hse := hs.edge v w
    simp_all [apply, PlainGraph.apply, GraphOp.stamp, touched, touchedEdge]
  | removeEdge v w s =>
    have hr := Cells.removeCell_of_below (h.edges v) w
    have hse := hs.edge v w
    simp_all [apply, PlainGraph.apply, GraphOp.stamp]
  | clearVertices s =>
    have hc : g.adj.clearTime < s := h.adj.clearTime
    simp [apply, PlainGraph.apply, hc]
  | clearVertexEdges k s =>
    have hc : (g.edges k).clearTime < s := (h.edges k).clearTime
    have hk := hs.known k
    simp [apply, PlainGraph.apply, hc, hk]

/-- **An operation newer than the state** acts as on the plain graph. -/
theorem shows_step (h : g.Below o.stamp) (h0 : g.VerticesNonneg) (hs : g.Shows t) :
    (g.apply o).1.Shows (t.apply o).1 ∧ (g.apply o).2 = (t.apply o).2 :=
  ⟨⟨known_of_shows hs, vertex_of_below h h0 hs, edge_of_below h hs⟩, result_of_below h hs⟩

theorem shows_trace {q : List (GraphOp Key U)} (h : ∀ o ∈ q, g.Below o.stamp)
    (h0 : g.VerticesNonneg) (hq : q.Pairwise fun o o' => o.stamp < o'.stamp) (hs : g.Shows t) :
    (trace apply g q).1.Shows (trace PlainGraph.apply t q).1 ∧
      (trace apply g q).2 = (trace PlainGraph.apply t q).2 := by
  have hstep : ∀ (g : View Key U) (t : PlainGraph Key) (o : GraphOp Key U), g.Below o.stamp →
      g.VerticesNonneg ∧ g.Shows t → ((g.apply o).1.VerticesNonneg ∧
        (g.apply o).1.Shows (t.apply o).1) ∧ (g.apply o).2 = (t.apply o).2 := by
    rintro g t o hb ⟨h0, hs⟩
    obtain ⟨h1, h2⟩ := shows_step hb h0 hs
    exact ⟨⟨verticesNonneg_step h0 hb.pos.le, h1⟩, h2⟩
  have hbelow : ∀ (g : View Key U) (o : GraphOp Key U) (u : U), g.Below o.stamp → o.stamp < u →
      g.Below u → (g.apply o).1.Below u := fun g o u _ hou hg => below_step hg hou
  obtain ⟨h1, h2⟩ := trace_fresh hbelow hstep q g t hq h ⟨h0, hs⟩
  exact ⟨h1.2, h2⟩

end View

end CollabDatatypes.Graph

namespace CollabDatatypes.CmRDT.LWWGraph

open CollabDatatypes.Lib CollabDatatypes.Container CollabDatatypes.Graph

variable {Key T U : Type*} [DecidableEq Key]

/-- No edge is alive, hidden or not, at a vertex that is removed. -/
def NoHiddenEdge (g : LWWGraph Key T U) : Prop :=
  ∀ u v, live (g.edgeEntry u v) = true → g.hasVertex u = true ∧ g.hasVertex v = true

variable [Zero U]

/-- The plain graph that a user sees. -/
def seen (g : LWWGraph Key T U) (h : g.NoHiddenEdge) : PlainGraph Key where
  known := g.crdtHasVertex
  vertex := g.hasVertex
  edge := g.hasEdge
  known_of_vertex k hk := by
    rw [hasVertex_eq] at hk
    rw [crdtHasVertex_eq]
    exact isSome_of_live hk
  ends u v he := by
    rw [hasEdge_eq, Bool.and_eq_true] at he
    exact h u v (by rw [edgeEntry_eq]; exact he.2)

theorem shows_seen {g : LWWGraph Key T U} (h : g.NoHiddenEdge) : g.view.Shows (g.seen h) where
  known k := (crdtHasVertex_eq g k).symm
  vertex k := (hasVertex_eq g k).symm
  edge u v := by
    show _ = g.hasEdge u v
    rw [hasEdge_eq]
    have huv := h u v
    rw [edgeEntry_eq, hasVertex_eq] at huv
    cases hl : live ((g.view.edges u).cell v) with
    | true => rw [(huv hl).1]; rfl
    | false => rw [Bool.and_false]

theorem noHiddenEdge_of_shows {g : LWWGraph Key T U} {t : PlainGraph Key} (h : g.view.Shows t) :
    g.NoHiddenEdge := by
  intro u v hl
  rw [edgeEntry_eq, h.edge] at hl
  rw [hasVertex_eq, hasVertex_eq, h.vertex, h.vertex]
  exact t.ends u v hl

theorem seen_of_shows {g : LWWGraph Key T U} {t : PlainGraph Key} (hs : g.view.Shows t) :
    g.seen (noHiddenEdge_of_shows hs) = t := by
  have h := shows_seen (noHiddenEdge_of_shows hs)
  refine PlainGraph.ext ?_ ?_ ?_
  · funext k
    rw [← h.known, hs.known]
  · funext k
    rw [← h.vertex, hs.vertex]
  · funext u v
    rw [← h.edge, hs.edge]

theorem lookups_of_shows {g : LWWGraph Key T U} {t : PlainGraph Key} (hs : g.view.Shows t) :
    g.hasVertex = t.vertex ∧ g.hasEdge = t.edge := by
  have h := seen_of_shows hs
  exact ⟨congrArg PlainGraph.vertex h, congrArg PlainGraph.edge h⟩

variable [LinearOrder U] [Inhabited T]

theorem noHiddenEdge_of_noClear {p : List (GraphOp Key U)} (h : Stamped GraphOp.stamp p)
    (hn : NoClear p) : ((machine Key T U).run p).NoHiddenEdge := by
  intro u v hl
  rw [edgeEntry_eq, view_run] at hl
  rw [hasVertex_run, hasVertex_run]
  exact ⟨View.ends_live h hn hl (Or.inl rfl), View.ends_live h hn hl (Or.inr rfl)⟩

theorem shows_run {p q : List (GraphOp Key U)} (hp : ∀ o ∈ p, 0 < o.stamp)
    (hends : ((machine Key T U).run p).NoHiddenEdge) (hq : Fresh GraphOp.stamp p q) :
    ((machine Key T U).run (p ++ q)).view.Shows
        (trace PlainGraph.apply (((machine Key T U).run p).seen hends) q).1 ∧
      (trace apply ((machine Key T U).run p) q).2 =
        (trace PlainGraph.apply (((machine Key T U).run p).seen hends) q).2 := by
  have hview : ((machine Key T U).run p).view = (View.machine Key U).run p := view_run p
  have hb : ∀ o ∈ q, ((machine Key T U).run p).view.Below o.stamp := by
    intro o ho
    rw [hview]
    exact View.below_run (hq.pos o ho) fun o' ho' => hq.newer o' ho' o ho
  have h0 : ((machine Key T U).run p).view.VerticesNonneg := by
    rw [hview]
    exact View.verticesNonneg_run hp
  obtain ⟨h1, h2⟩ := View.shows_trace hb h0 hq.increasing (shows_seen hends)
  obtain ⟨h3, h4⟩ := trace_view q ((machine Key T U).run p)
  have hrun : (machine Key T U).run (p ++ q) = (trace apply ((machine Key T U).run p) q).1 :=
    run_append_eq_trace apply empty p q
  rw [hrun, h3]
  exact ⟨h1, h4.trans h2⟩

/-- **One writer at a time.** After a history that hides no edge, operations with fresh and
increasing stamps act on the graph as on the plain graph that the user sees, and return the same. -/
theorem graph_sequential {p q : List (GraphOp Key U)} (hp : ∀ o ∈ p, 0 < o.stamp)
    (hends : ((machine Key T U).run p).NoHiddenEdge) (hq : Fresh GraphOp.stamp p q) :
    ∃ h : ((machine Key T U).run (p ++ q)).NoHiddenEdge,
      ((machine Key T U).run (p ++ q)).seen h =
          (trace PlainGraph.apply (((machine Key T U).run p).seen hends) q).1 ∧
        (trace apply ((machine Key T U).run p) q).2 =
          (trace PlainGraph.apply (((machine Key T U).run p).seen hends) q).2 := by
  obtain ⟨hs, hr⟩ := shows_run hp hends hq
  exact ⟨noHiddenEdge_of_shows hs, seen_of_shows hs, hr⟩

/-- A late `add_edge` meets a removed vertex; then an edge is added and all vertices are cleared. -/
theorem graph_sequential_clear :
    ∃ h : ((machine ℕ ℕ ℕ).run [.removeVertex 1 5, .addEdge 0 1 3, .addEdge 0 1 6,
        .clearVertices 7]).NoHiddenEdge,
      ((machine ℕ ℕ ℕ).run [.removeVertex 1 5, .addEdge 0 1 3, .addEdge 0 1 6,
          .clearVertices 7]).seen h =
          (trace PlainGraph.apply (((machine ℕ ℕ ℕ).run [.removeVertex 1 5, .addEdge 0 1 3]).seen
            (noHiddenEdge_of_noClear (by decide) (by decide)))
            [GraphOp.addEdge 0 1 6, .clearVertices 7]).1 ∧
        (trace apply ((machine ℕ ℕ ℕ).run [.removeVertex 1 5, .addEdge 0 1 3])
            [.addEdge 0 1 6, .clearVertices 7]).2 =
          (trace PlainGraph.apply (((machine ℕ ℕ ℕ).run [.removeVertex 1 5, .addEdge 0 1 3]).seen
            (noHiddenEdge_of_noClear (by decide) (by decide)))
            [GraphOp.addEdge 0 1 6, .clearVertices 7]).2 :=
  graph_sequential (p := [.removeVertex 1 5, .addEdge 0 1 3])
    (q := [.addEdge 0 1 6, .clearVertices 7]) (by decide)
    (noHiddenEdge_of_noClear (by decide) (by decide)) (by decide)

variable [BEq T]

/-- **Replicas that agree keep agreeing** while one writer goes on with fresh stamps, and a fresh
`clear_vertices` makes any two replicas agree: histories without clears, equal or followed by it, and
then the same fresh operations, lead to equal graphs. The default content has to equal itself. -/
theorem fresh_agree (hT : ((default : T) == default) = true) {p₁ p₂ q : List (GraphOp Key U)}
    (h₁ : Stamped GraphOp.stamp p₁) (hn₁ : NoClear p₁) (h₂ : Stamped GraphOp.stamp p₂)
    (hn₂ : NoClear p₂) (hq₁ : Fresh GraphOp.stamp p₁ q) (hq₂ : Fresh GraphOp.stamp p₂ q)
    (heq : ((machine Key T U).run p₁ == (machine Key T U).run p₂) = true ∨
      ∃ s q', q = .clearVertices s :: q') :
    ((machine Key T U).run (p₁ ++ q) == (machine Key T U).run (p₂ ++ q)) = true := by
  obtain ⟨hs₁, -⟩ := shows_run (T := T) h₁.pos (noHiddenEdge_of_noClear h₁ hn₁) hq₁
  obtain ⟨hs₂, -⟩ := shows_run (T := T) h₂.pos (noHiddenEdge_of_noClear h₂ hn₂) hq₂
  obtain ⟨hv₁, he₁⟩ := lookups_of_shows hs₁
  obtain ⟨hv₂, he₂⟩ := lookups_of_shows hs₂
  rw [beq_run_iff hT, hv₁, he₁, hv₂, he₂]
  have hsame : PlainGraph.SameVisible
      (trace PlainGraph.apply (((machine Key T U).run p₁).seen (noHiddenEdge_of_noClear h₁ hn₁)) q).1
      (trace PlainGraph.apply
        (((machine Key T U).run p₂).seen (noHiddenEdge_of_noClear h₂ hn₂)) q).1 := by
    rcases heq with heq | ⟨s, q', rfl⟩
    · obtain ⟨hv, he⟩ := (beq_run_iff hT p₁ p₂).mp heq
      exact PlainGraph.sameVisible_trace q _ _ ⟨funext hv, funext fun u => funext (he u)⟩
    · exact PlainGraph.sameVisible_trace q' _ _ ⟨rfl, rfl⟩
  exact ⟨fun k => congrFun hsame.1 k, fun u v => congrFun (congrFun hsame.2 u) v⟩

/-- The same operations in two orders that diverge, and then a fresh clear and a fresh edge. -/
theorem fresh_agree_clear :
    ((machine ℕ ℕ ℕ).run [.removeVertex 1 5, .addVertex 0 7, .addVertex 1 8, .addEdge 0 1 3,
        .clearVertices 9, .addEdge 0 1 10] ==
      (machine ℕ ℕ ℕ).run [.addEdge 0 1 3, .removeVertex 1 5, .addVertex 0 7, .addVertex 1 8,
        .clearVertices 9, .addEdge 0 1 10]) = true := by
  have h₁ : Stamped GraphOp.stamp
      [.removeVertex 1 5, .addVertex 0 7, .addVertex 1 8, .addEdge 0 1 3] := by decide
  have h₂ : Stamped GraphOp.stamp
      [.addEdge 0 1 3, .removeVertex 1 5, .addVertex 0 7, .addVertex 1 8] := by decide
  have h := fresh_agree (T := ℕ) (q := [.clearVertices 9, .addEdge 0 1 10]) rfl h₁ (by decide) h₂
    (by decide) (by decide) (by decide) (Or.inr ⟨9, [.addEdge 0 1 10], rfl⟩)
  exact h

end CollabDatatypes.CmRDT.LWWGraph
