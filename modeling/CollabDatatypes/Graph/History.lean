import CollabDatatypes.Graph.Step
import CollabDatatypes.Lib.Stamp

/-! # What a graph remembers of its history

The map of the vertices is a container of its own: `vertexOps` translates the modifiers of the graph
into those of the map (`adj_run`), so that the history of a vertex is that of a key
(`Container.History`). The entries of the edges are followed step by step: a visible edge shows the
stamp of an `add_edge`, an entry is at least as new as every operation on the edge, and one older
than the last clear of its edge set was planted by a `remove_edge`. -/

namespace CollabDatatypes.Graph

open CollabDatatypes.Lib CollabDatatypes.CmRDT CollabDatatypes.Container

variable {Key U : Type*}

/-- What a modifier of the graph does to the map of the vertices. -/
def vertexOps [Zero U] : GraphOp Key U → List (Op Key U)
  | .addVertex k s => [.add k s]
  | .removeVertex k s => [.remove k s]
  | .addEdge u v s => [.add u s, .add v s]
  | .removeEdge u v _ => [.remove u 0, .remove v 0]
  | .clearVertices s => [.clear s]
  | .clearVertexEdges _ _ => []

/-- The operation names `k`, as a vertex or as an endpoint. -/
def Mentions (k : Key) : GraphOp Key U → Prop
  | .addVertex k' _ => k' = k
  | .removeVertex k' _ => k' = k
  | .addEdge u v _ => u = k ∨ v = k
  | .removeEdge u v _ => u = k ∨ v = k
  | .clearVertices _ => False
  | .clearVertexEdges _ _ => False

section Translation

variable [Zero U] {o : GraphOp Key U} {k : Key} {s : U}

theorem add_mem_vertexOps : .add k s ∈ vertexOps o ↔ Touches k o ∧ o.stamp = s := by
  unfold Touches
  cases o <;> (simp [vertexOps, GraphOp.stamp, eq_comm]; try tauto)

theorem remove_mem_vertexOps : .remove k s ∈ vertexOps o ↔
    o = .removeVertex k s ∨ s = 0 ∧ ∃ u v s', o = .removeEdge u v s' ∧ (k = u ∨ k = v) := by
  cases o <;> (simp [vertexOps, eq_comm]; try tauto)

theorem clear_mem_vertexOps : Op.clear s ∈ vertexOps o ↔ o = .clearVertices s := by
  cases o <;> simp [vertexOps, eq_comm]

theorem names_vertexOps : (∃ o' ∈ vertexOps o, Names k o') ↔ Mentions k o := by
  unfold Names Adds Removes
  cases o <;> simp [vertexOps, Mentions]

end Translation

namespace View

variable [DecidableEq Key] [LinearOrder U] [Zero U]

/-! ### Vertices -/

theorem adj_run (d : List (GraphOp Key U)) :
    ((machine Key U).run d).adj = (Cells.machine Key U).run (d.flatMap vertexOps) := by
  refine Machine.run_flatMap (N := Cells.machine Key U) rfl (fun g o => ?_) d
  cases o with
  | clearVertexEdges k s => exact g.clearVertexEdges_adj k s
  | _ => rfl

section Vertices

variable {d : List (GraphOp Key U)} {k : Key}

theorem vertex_live {t : U} (h : ((machine Key U).run d).adj.cell k = some ⟨t, false⟩) :
    ∃ o ∈ d, Touches k o ∧ o.stamp = t := by
  rw [adj_run] at h
  obtain ⟨o, ho, hadd⟩ := List.mem_flatMap.mp (Cells.live_mem h)
  exact ⟨o, ho, add_mem_vertexOps.mp hadd⟩

theorem vertex_dead {t : U} (h : ((machine Key U).run d).adj.cell k = some ⟨t, true⟩) :
    .removeVertex k t ∈ d ∨ .clearVertices t ∈ d ∨ t = 0 := by
  rw [adj_run] at h
  rcases Cells.dead_mem h with hr | hc | h0
  · obtain ⟨o, ho, hrem⟩ := List.mem_flatMap.mp hr
    rcases remove_mem_vertexOps.mp hrem with rfl | ⟨h0, -⟩
    · exact Or.inl ho
    · exact Or.inr (Or.inr h0)
  · obtain ⟨o, ho, hcl⟩ := List.mem_flatMap.mp hc
    rw [clear_mem_vertexOps] at hcl
    subst hcl
    exact Or.inr (Or.inl ho)
  · exact Or.inr (Or.inr h0)

theorem vertex_nonneg (h : Stamped GraphOp.stamp d) {e : Metadata U}
    (he : ((machine Key U).run d).adj.cell k = some e) : 0 ≤ e.timestamp :=
  Machine.run_invariant_of (I := VerticesNonneg) _ (fun _ _ h => by cases h)
    (fun _ _ ho h => verticesNonneg_step h ho) (fun o ho => (h.pos o ho).le) k e he

theorem vertex_le {o : GraphOp Key U} (ho : o ∈ d)
    (hk : Touches k o ∨ ∃ s, o = .removeVertex k s) :
    ∃ e, ((machine Key U).run d).adj.cell k = some e ∧ o.stamp ≤ e.timestamp := by
  rw [adj_run]
  rcases hk with hk | ⟨s, rfl⟩
  · exact Cells.le_cell (o := .add k o.stamp)
      (List.mem_flatMap.mpr ⟨o, ho, add_mem_vertexOps.mpr ⟨hk, rfl⟩⟩) (Or.inl ⟨_, rfl⟩)
  · exact Cells.le_cell (o := .remove k s)
      (List.mem_flatMap.mpr ⟨_, ho, remove_mem_vertexOps.mpr (Or.inl rfl)⟩) (Or.inr ⟨_, rfl⟩)

theorem vertex_of_removeEdge {u v : Key} {s : U} (ho : .removeEdge u v s ∈ d)
    (hk : k = u ∨ k = v) :
    ∃ e, ((machine Key U).run d).adj.cell k = some e ∧ 0 ≤ e.timestamp := by
  rw [adj_run]
  exact Cells.le_cell (o := .remove k 0) (List.mem_flatMap.mpr
    ⟨_, ho, remove_mem_vertexOps.mpr (Or.inr ⟨rfl, u, v, s, rfl, hk⟩)⟩) (Or.inr ⟨_, rfl⟩)

theorem vertex_isSome_iff :
    (((machine Key U).run d).adj.cell k).isSome = true ↔ ∃ o ∈ d, Mentions k o := by
  rw [adj_run]
  constructor
  · intro h
    obtain ⟨e, he⟩ := Option.isSome_iff_exists.mp h
    obtain ⟨o', ho', hn⟩ := Cells.named_of_cell he
    obtain ⟨o, ho, hmem⟩ := List.mem_flatMap.mp ho'
    exact ⟨o, ho, names_vertexOps.mp ⟨o', hmem, hn⟩⟩
  · rintro ⟨o, ho, hm⟩
    obtain ⟨o', hmem, hn⟩ := names_vertexOps.mpr hm
    obtain ⟨e, he, -⟩ := Cells.le_cell (List.mem_flatMap.mpr ⟨o, ho, hmem⟩) hn
    rw [he]
    rfl

theorem dead_stamp_ne (h : Stamped GraphOp.stamp d) {t : U}
    (hk : ((machine Key U).run d).adj.cell k = some ⟨t, true⟩) {o : GraphOp Key U} (ho : o ∈ d)
    {k' : Key} (htouch : Touches k' o) : o.stamp ≠ t := by
  rintro rfl
  rcases vertex_dead hk with hr | hc | h0
  · rw [h.inj o ho _ hr rfl] at htouch
    exact not_touches_removeVertex htouch
  · rw [h.inj o ho _ hc rfl] at htouch
    exact not_touches_clearVertices htouch
  · exact (h.pos o ho).ne' h0

theorem clearVertices_le {s : U} (h : .clearVertices s ∈ d) :
    s ≤ ((machine Key U).run d).adj.clearTime := by
  rw [adj_run]
  exact Cells.clear_le (List.mem_flatMap.mpr ⟨_, h, clear_mem_vertexOps.mpr rfl⟩)

theorem clearVertices_mem (d : List (GraphOp Key U)) :
    ((machine Key U).run d).adj.clearTime = 0 ∨
      .clearVertices ((machine Key U).run d).adj.clearTime ∈ d := by
  rw [adj_run]
  refine (Cells.clear_mem _).imp_right fun h => ?_
  obtain ⟨o, ho, hcl⟩ := List.mem_flatMap.mp h
  rw [clear_mem_vertexOps] at hcl
  exact hcl ▸ ho

end Vertices

/-! ### Edges -/

section Edges

variable {d : List (GraphOp Key U)} {u v : Key}

theorem edge_live {t : U} (h : (((machine Key U).run d).edges u).cell v = some ⟨t, false⟩) :
    .addEdge u v t ∈ d := by
  induction d using List.reverseRecOn with
  | nil => cases h
  | append_singleton d o ih =>
    rw [Machine.run_concat] at h
    rcases live_edge_step h with h | ⟨rfl, -⟩
    · exact List.mem_append_left _ (ih h)
    · simp

theorem edge_le {s : U} (h : .addEdge u v s ∈ d ∨ .removeEdge u v s ∈ d) :
    ∃ e, (((machine Key U).run d).edges u).cell v = some e ∧ s ≤ e.timestamp := by
  induction d using List.reverseRecOn with
  | nil => simp at h
  | append_singleton d o ih =>
    rw [Machine.run_concat]
    have hcases : (.addEdge u v s ∈ d ∨ .removeEdge u v s ∈ d) ∨
        o = .addEdge u v s ∨ o = .removeEdge u v s := by
      simp only [List.mem_append, List.mem_singleton] at h
      tauto
    rcases hcases with hd | ho
    · obtain ⟨e, he, hle⟩ := ih hd
      obtain ⟨e', he', hle'⟩ := edge_mono he o
      exact ⟨e', he', hle.trans hle'⟩
    · exact edge_named ho

theorem edge_mono_run {p : List (GraphOp Key U)} {e : Metadata U}
    (h : (((machine Key U).run p).edges u).cell v = some e) (q : List (GraphOp Key U)) :
    ∃ e', (((machine Key U).run (p ++ q)).edges u).cell v = some e' ∧
      e.timestamp ≤ e'.timestamp := by
  refine Machine.history_persist (C := fun _ => True) (P := fun d => ∃ e',
    (((machine Key U).run d).edges u).cell v = some e' ∧ e.timestamp ≤ e'.timestamp)
    (fun _ _ _ => trivial) ⟨e, h, le_rfl⟩ ?_ q trivial
  rintro q o - ⟨e', he', hle⟩
  rw [Machine.run_concat]
  obtain ⟨e'', he'', hle'⟩ := edge_mono he' o
  exact ⟨e'', he'', hle.trans hle'⟩

theorem edge_mentioned (h : (((machine Key U).run d).edges u).cell v ≠ none) :
    ∃ s, .addEdge u v s ∈ d ∨ .removeEdge u v s ∈ d := by
  induction d using List.reverseRecOn with
  | nil => exact absurd rfl h
  | append_singleton d o ih =>
    rw [Machine.run_concat] at h
    by_cases hx : (((machine Key U).run d).edges u).cell v = none
    · rcases edge_cases _ o u v with ⟨s, rfl, -⟩ | ⟨s, rfl, -⟩ | ⟨_, -, -, hl, -⟩ | ⟨s, -, hc⟩ | hc
      · exact ⟨s, by simp⟩
      · exact ⟨s, by simp⟩
      · rw [hx] at hl
        cases hl
      · rw [hx, clearCell_none] at hc
        exact absurd hc h
      · exact absurd (hc.trans hx) h
    · obtain ⟨s, hs⟩ := ih hx
      exact ⟨s, hs.imp (List.mem_append_left _) (List.mem_append_left _)⟩

theorem edgeClear_le {s : U} (h : .removeVertex u s ∈ d) :
    s ≤ (((machine Key U).run d).edges u).clearTime := by
  induction d using List.reverseRecOn with
  | nil => simp at h
  | append_singleton d o ih =>
    rw [Machine.run_concat]
    rcases List.mem_append.mp h with h | h
    · exact (ih h).trans (edgeClear_mono _ o u)
    · obtain rfl := List.mem_singleton.mp h
      show s ≤ ((View.apply _ _).1.edges u).clearTime
      rw [edges_of_clears (Or.inl rfl)]
      exact le_max_right _ _

theorem edgeClear_mem (d : List (GraphOp Key U)) (u : Key) :
    (((machine Key U).run d).edges u).clearTime = 0 ∨
      ∃ p o q, d = p ++ o :: q ∧
        ClearsEdges ((machine Key U).run p) u o (((machine Key U).run d).edges u).clearTime := by
  induction d using List.reverseRecOn with
  | nil => exact Or.inl rfl
  | append_singleton d o ih =>
    have hold : ∀ c, (∃ p o' q, d = p ++ o' :: q ∧ ClearsEdges ((machine Key U).run p) u o' c) →
        ∃ p o' q, d ++ [o] = p ++ o' :: q ∧ ClearsEdges ((machine Key U).run p) u o' c := by
      rintro c ⟨p, o', q, rfl, hc⟩
      exact ⟨p, o', q ++ [o], by simp, hc⟩
    rw [Machine.run_concat]
    show ((View.apply _ o).1.edges u).clearTime = 0 ∨ ∃ p o' q, d ++ [o] = p ++ o' :: q ∧
      ClearsEdges _ u o' ((View.apply _ o).1.edges u).clearTime
    by_cases h : ∃ s, ClearsEdges ((machine Key U).run d) u o s
    · obtain ⟨s, hs⟩ := h
      rw [edges_of_clears hs, Cells.clear_clearTime]
      rcases max_choice (((machine Key U).run d).edges u).clearTime s with hm | hm
      · rw [hm]
        exact ih.imp_right (hold _)
      · rw [hm]
        exact Or.inr ⟨d, o, [], rfl, hs⟩
    · rw [clearTime_of_not_clears fun s hs => h ⟨s, hs⟩]
      exact ih.imp_right (hold _)

/-- **An edge older than the last clear of its edge set was planted by a `remove_edge`.** -/
theorem edge_planted {e : Metadata U}
    (h : (((machine Key U).run d).edges u).cell v = some e)
    (hlt : e.timestamp < (((machine Key U).run d).edges u).clearTime) :
    ∃ r, .removeEdge u v r ∈ d ∧ r ≤ e.timestamp := by
  induction d using List.reverseRecOn generalizing e with
  | nil => cases h
  | append_singleton d o ih =>
    rw [Machine.run_concat] at h hlt
    have hold : ∀ e', (((machine Key U).run d).edges u).cell v = some e' →
        e'.timestamp ≤ e.timestamp → ∃ r, .removeEdge u v r ∈ d ++ [o] ∧ r ≤ e.timestamp := by
      intro e' he' hle
      have hlt' : e'.timestamp < (((machine Key U).run d).edges u).clearTime := by
        by_contra hge
        rw [not_lt] at hge
        by_cases hc : ∃ s, ClearsEdges ((machine Key U).run d) u o s
        · obtain ⟨s, hs⟩ := hc
          replace hlt : e.timestamp < ((View.apply _ o).1.edges u).clearTime := hlt
          rw [edges_of_clears hs] at hlt
          have hes := (lt_max_iff.mp hlt).resolve_left (hge.trans hle).not_gt
          exact absurd hes (le_of_clearsEdges hs ((hge.trans hle).trans_lt hes) h).not_gt
        · replace hlt : e.timestamp < ((View.apply _ o).1.edges u).clearTime := hlt
          rw [clearTime_of_not_clears fun s hs => hc ⟨s, hs⟩] at hlt
          exact absurd hlt (hge.trans hle).not_gt
      obtain ⟨r, hr, hre⟩ := ih he' hlt'
      exact ⟨r, List.mem_append_left _ hr, hre.trans hle⟩
    cases hx : (((machine Key U).run d).edges u).cell v with
    | some e' =>
      obtain ⟨e'', he'', hle⟩ := edge_mono hx o
      obtain rfl := Option.some.inj (he''.symm.trans h)
      exact hold e' hx hle
    | none =>
      rcases edge_cases _ o u v with ⟨s, rfl, hc⟩ | ⟨s, rfl, hc⟩ | ⟨_, -, -, hl, -⟩ | ⟨s, -, hc⟩ | hc
      · obtain rfl := Option.some.inj (hc.symm.trans h)
        replace hlt : _ < ((View.addEdge _ u v s).edges u).clearTime := hlt
        rw [clearTime_addEdge] at hlt
        have hle := (advances_addedEdge ((machine Key U).run d) u v s).1
        unfold touchedEdge at hle
        rw [hx] at hle
        exact absurd ((le_timestamp_addCell_none _ s).trans hle) hlt.not_ge
      · obtain rfl := Option.some.inj (hc.symm.trans h)
        rw [hx]
        exact ⟨s, by simp, le_rfl⟩
      · rw [hx] at hl
        cases hl
      · rw [hx, clearCell_none] at hc
        cases hc.symm.trans h
      · cases (hc.symm.trans h).symm.trans hx

/-- **Where a removed edge comes from**: the tombstone shows the stamp of a removal or of a clear, or
an `add_edge` left it with the time of a removed endpoint. -/
theorem edge_dead {t : U} (h : (((machine Key U).run d).edges u).cell v = some ⟨t, true⟩) :
    t = 0 ∨ .removeEdge u v t ∈ d ∨ .removeVertex v t ∈ d ∨
      (∃ p o q, d = p ++ o :: q ∧ ClearsEdges ((machine Key U).run p) u o t) ∨
      ∃ p s q, d = p ++ .addEdge u v s :: q ∧ ((machine Key U).run p).repairs u v s = true ∧
        t = ((machine Key U).run p).highTime u v s := by
  induction d using List.reverseRecOn with
  | nil => cases h
  | append_singleton d o ih =>
    rw [Machine.run_concat] at h
    have hold : ∀ {P : List (GraphOp Key U) → GraphOp Key U → Prop},
        (∃ p o' q, d = p ++ o' :: q ∧ P p o') → ∃ p o' q, d ++ [o] = p ++ o' :: q ∧ P p o' := by
      rintro P ⟨p, o', q, rfl, hp⟩
      exact ⟨p, o', q ++ [o], by simp, hp⟩
    rcases edge_step h with h | ⟨-, h, -⟩ | ⟨s, -, -, -, he⟩ | ⟨s, rfl, hr, he⟩ | ⟨-, ho⟩
    · rcases ih h with h0 | h1 | h2 | h3 | ⟨p, s, q, rfl, hp⟩
      · exact Or.inl h0
      · exact Or.inr (Or.inl (List.mem_append_left _ h1))
      · exact Or.inr (Or.inr (Or.inl (List.mem_append_left _ h2)))
      · exact Or.inr (Or.inr (Or.inr (Or.inl (hold h3))))
      · exact Or.inr (Or.inr (Or.inr (Or.inr ⟨p, s, q ++ [o], by simp, hp⟩)))
    · cases h
    · cases he
      rcases edgeClear_mem d u with h0 | hc
      · exact Or.inl h0
      · exact Or.inr (Or.inr (Or.inr (Or.inl (hold hc))))
    · cases he
      exact Or.inr (Or.inr (Or.inr (Or.inr ⟨d, s, [], rfl, hr, rfl⟩)))
    · rcases ho with rfl | rfl | ⟨hc, -⟩
      · exact Or.inr (Or.inl (by simp))
      · exact Or.inr (Or.inr (Or.inl (by simp)))
      · exact Or.inr (Or.inr (Or.inr (Or.inl ⟨d, o, [], rfl, hc⟩)))

theorem edge_dominated {t : U} (h : (((machine Key U).run d).edges u).cell v = some ⟨t, false⟩)
    {k : Key} (hk : k = u ∨ k = v) :
    ∃ e, ((machine Key U).run d).adj.cell k = some e ∧ t ≤ e.timestamp :=
  Machine.run_invariant (I := EndsDominate) _ (fun _ _ _ h => by cases h)
    (fun _ o h => endsDominate_step h o) d u v t h k hk

/-- An `add_edge` that revives the origin of a visible edge is newer than the edge, and rewrites it. -/
theorem ne_addEdge_of_kept {o : GraphOp Key U} {t : U} (hr : Revives ((machine Key U).run d) o u)
    (hold : (((machine Key U).run d).edges u).cell v = some ⟨t, false⟩)
    (ht : ((((machine Key U).run d).apply o).1.edges u).cell v = some ⟨t, false⟩) (s : U) :
    o ≠ .addEdge u v s := by
  rintro rfl
  obtain ⟨e, he, hse⟩ := edge_named (g := (machine Key U).run d) (u := u) (v := v) (Or.inl rfl)
  obtain rfl := Option.some.inj (ht.symm.trans he)
  obtain ⟨e, he, hte⟩ := edge_dominated hold (Or.inl rfl)
  have happ := hr.2
  rw [he, addApplies_some] at happ
  exact absurd (hte.trans_lt happ) hse.not_gt

/-- **After an `add_edge` the edge it names is visible between visible endpoints only.** -/
theorem ends_live_of_addEdge {s : U} (h : Stamped GraphOp.stamp (d ++ [.addEdge u v s]))
    (hl : live ((((machine Key U).run (d ++ [.addEdge u v s])).edges u).cell v) = true) {k : Key}
    (hk : k = u ∨ k = v) :
    live (((machine Key U).run (d ++ [.addEdge u v s])).adj.cell k) = true := by
  obtain ⟨t, ht⟩ := live_iff.mp hl
  by_contra hdead
  have hcell : ((machine Key U).run (d ++ [.addEdge u v s])).adj.cell k =
      some (((machine Key U).run d).touched k s) := by
    rw [run_concat]
    exact adj_of_touches (touches_addEdge hk s)
  have hrem : (((machine Key U).run d).touched k s).isRemoved = true := by
    rw [hcell, live_some, Bool.not_eq_true', Bool.not_eq_false] at hdead
    exact hdead
  have hedge : ((machine Key U).run d).addedEdge u v s = ⟨t, false⟩ := by
    rw [run_concat] at ht
    exact Option.some.inj (((addEdge_cell _ u v u v s).trans (if_pos ⟨rfl, rfl⟩)).symm.trans ht)
  have hrep : ((machine Key U).run d).touchedEdge u v s = ⟨t, false⟩ →
      ((machine Key U).run d).repairs u v s = true := by
    intro he
    unfold repairs
    rw [he]
    rcases hk with rfl | rfl <;> rw [hrem] <;> simp
  have hhigh : ((machine Key U).run d).highTime u v s ≤ t := by
    unfold addedEdge at hedge
    split_ifs at hedge with hr
    · rcases removeCell_cases (((machine Key U).run d).highTime u v s)
        (some (((machine Key U).run d).touchedEdge u v s)) with ⟨-, he⟩ | ⟨e, hx, hle, he⟩
      · rw [he] at hedge
        cases hedge
      · obtain rfl := he.symm.trans hedge
        exact hle
    · exact absurd (hrep hedge) hr
  obtain ⟨e, he, hte⟩ := edge_dominated ht hk
  obtain rfl := Option.some.inj (hcell.symm.trans he)
  have hst := le_antisymm ((timestamp_touched_le hk s).trans hhigh) hte
  refine dead_stamp_ne h (t := t) (k := k) ?_ (edge_live ht) (touches_addEdge hk t) rfl
  rw [hcell]
  generalize ((machine Key U).run d).touched k s = e at hrem hst
  rcases e with ⟨t', b⟩
  rw [show t' = t from hst, show b = true from hrem]

theorem live_or_revives_of_addEdge {s : U} (h : Stamped GraphOp.stamp (d ++ [.addEdge u v s]))
    (hl : live ((((machine Key U).run (d ++ [.addEdge u v s])).edges u).cell v) = true) {k : Key}
    (hk : k = u ∨ k = v) :
    live (((machine Key U).run d).adj.cell k) = true ∨
      Revives ((machine Key U).run d) (.addEdge u v s) k := by
  have hlive := ends_live_of_addEdge h hl hk
  rw [run_concat] at hlive
  exact live_vertex_step hlive

theorem live_vertex_of_addEdge {k : Key} (hk : k = u ∨ k = v) {s : U} :
    live (((machine Key U).run (d ++ [.addEdge u v s])).adj.cell k) =
      !(((machine Key U).run d).touched k s).isRemoved := by
  rw [run_concat, adj_of_touches (touches_addEdge hk s)]
  rfl

theorem live_edge_of_addEdge {s : U} (h : Stamped GraphOp.stamp (d ++ [.addEdge u v s])) :
    live ((((machine Key U).run (d ++ [.addEdge u v s])).edges u).cell v) =
      (!(((machine Key U).run d).touchedEdge u v s).isRemoved &&
        !((machine Key U).run d).repairs u v s) := by
  cases hr : ((machine Key U).run d).repairs u v s with
  | true =>
    rw [Bool.not_true, Bool.and_false, ← Bool.not_eq_true]
    intro hl
    have hu := ends_live_of_addEdge h hl (Or.inl rfl)
    have hv := ends_live_of_addEdge h hl (Or.inr rfl)
    rw [live_vertex_of_addEdge (Or.inl rfl), Bool.not_eq_true'] at hu
    rw [live_vertex_of_addEdge (Or.inr rfl), Bool.not_eq_true'] at hv
    rw [repairs, hu, hv, Bool.or_self, Bool.and_false] at hr
    cases hr
  | false =>
    have hedge := addEdge_cell ((machine Key U).run d) u v u v s
    rw [if_pos ⟨rfl, rfl⟩, addedEdge, hr] at hedge
    rw [run_concat, Bool.not_false, Bool.and_true]
    exact congrArg live hedge

end Edges

end View

end CollabDatatypes.Graph
