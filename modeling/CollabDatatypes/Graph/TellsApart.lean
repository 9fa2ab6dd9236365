import CollabDatatypes.Graph.Congruence
import CollabDatatypes.Graph.Redelivery

/-! # Operations that notice what `crdt_equal` leaves out

Two graphs with the same entries may have been cleared at different times. An operation notices that
when it adds a vertex or an edge without an entry and is not newer than both clears, or when it is a
clear that takes effect in one of the two only (`View.TellsApart`). There is one exception: an
`add_edge` that meets a removed endpoint may leave in one graph, as a repair, the tombstone that the
clear leaves in the other (`View.RepairsAlike`). `crdtEqual_step_iff` is the result for all three
containers: of two states that `crdt_equal` takes for equal, one operation keeps that and returns the
same result exactly when it does not notice. -/

namespace CollabDatatypes.Container.Cells

open CollabDatatypes.CmRDT

variable {Key U : Type*} [LinearOrder U] {x x' : Cells Key U} {s : U}

/-- The clear takes effect on an entry in one of the two containers only. -/
def ClearsApart (x x' : Cells Key U) (s : U) : Prop :=
  ¬ (x.clearTime < s ↔ x'.clearTime < s) ∧ ∃ k e, x.cell k = some e ∧ e.timestamp < s

theorem clearCell_eq_clearCell_iff {c c' s : U} {y : Option (Metadata U)} :
    clearCell c s y = clearCell c' s y ↔
      ((c < s ↔ c' < s) ∨ ∀ e, y = some e → s ≤ e.timestamp) := by
  cases y with
  | none => simp
  | some e => grind [clearCell, write]

theorem clear_alike_iff (h : ∀ k, x.cell k = x'.cell k) :
    (∀ k, (x.clear s).cell k = (x'.clear s).cell k) ↔ ¬ x.ClearsApart x' s := by
  simp only [clear_cell, ← h, clearCell_eq_clearCell_iff, ClearsApart]
  constructor
  · rintro hall ⟨hs, k, e, he, hlt⟩
    exact ((hall k).resolve_left hs e he).not_gt hlt
  · intro hno k
    refine or_iff_not_imp_left.mpr fun hs e he => not_lt.mp fun hlt => hno ⟨hs, k, e, he, hlt⟩

end CollabDatatypes.Container.Cells

namespace CollabDatatypes.Graph

open CollabDatatypes.Lib CollabDatatypes.CmRDT CollabDatatypes.Container

variable {Key U : Type*} [DecidableEq Key] [LinearOrder U]

namespace View

/-- The `add_edge` meets a removed endpoint, and the tombstone that it leaves in the graph without a
newer clear has the time of the clear in the other. -/
def RepairsAlike (x x' : View Key U) (u v : Key) (s : U) : Prop :=
  ((x.touched u s).isRemoved || (x.touched v s).isRemoved) = true ∧ s < x.highTime u v s ∧
    ((x.edges u).clearTime < s ∧ (x'.edges u).clearTime = x.highTime u v s ∨
      (x'.edges u).clearTime < s ∧ (x.edges u).clearTime = x.highTime u v s)

/-- The operation tells two graphs with the same entries apart. -/
def TellsApart (x x' : View Key U) : GraphOp Key U → Prop
  | .addVertex k s => x.adj.TellsApart x'.adj (.add k s)
  | .removeVertex k s => (x.edges k).ClearsApart (x'.edges k) s
  | .addEdge u v s =>
    x.adj.TellsApart x'.adj (.add u s) ∨ x.adj.TellsApart x'.adj (.add v s) ∨
      (x.edges u).TellsApart (x'.edges u) (.add v s) ∧ ¬ x.RepairsAlike x' u v s
  | .removeEdge _ _ _ => False
  | .clearVertices s =>
    x.adj.TellsApart x'.adj (.clear s) ∨
      ∃ k, live (x.adj.cell k) = true ∧ (x.edges k).ClearsApart (x'.edges k) s
  | .clearVertexEdges k s =>
    (x.adj.cell k).isSome = true ∧ (x.edges k).TellsApart (x'.edges k) (.clear s)

/-! ### One modifier -/

variable [Zero U] {x x' : View Key U} {u v k : Key} {s : U}

theorem addVertex_alike_iff (h : x.SameEntries x') :
    ((x.apply (.addVertex k s)).1.SameEntries (x'.apply (.addVertex k s)).1 ∧
      (x.apply (.addVertex k s)).2 = (x'.apply (.addVertex k s)).2) ↔
      ¬ x.adj.TellsApart x'.adj (.add k s) := by
  rw [← Cells.apply_alike_iff h.1 (.add k s)]
  constructor
  · rintro ⟨⟨hadj, -⟩, hr⟩
    exact ⟨hadj, Result.bool.inj hr⟩
  · rintro ⟨hadj, hr⟩
    exact ⟨⟨hadj, h.2⟩, congrArg Result.bool hr⟩

theorem removeVertex_alike_iff (h : x.SameEntries x') :
    ((x.apply (.removeVertex k s)).1.SameEntries (x'.apply (.removeVertex k s)).1 ∧
      (x.apply (.removeVertex k s)).2 = (x'.apply (.removeVertex k s)).2) ↔
      ¬ (x.edges k).ClearsApart (x'.edges k) s := by
  rw [← Cells.clear_alike_iff (h.2 k)]
  constructor
  · rintro ⟨⟨-, he⟩, -⟩ w
    have hw := he k w
    simp only [apply, removeVertex_cell, if_true] at hw
    exact hw
  · intro hc
    obtain ⟨hadj, hr⟩ := (Cells.apply_alike_iff h.1 (.remove k s)).mpr not_false
    refine ⟨⟨hadj, fun u w => ?_⟩, congrArg Result.bool hr⟩
    simp only [apply, removeVertex_cell]
    by_cases hu : u = k
    · subst hu
      rw [if_pos rfl, if_pos rfl]
      exact hc w
    · rw [if_neg hu, if_neg hu, h.2]

theorem removeEdge_alike (h : x.SameEntries x') :
    (x.apply (.removeEdge u v s)).1.SameEntries (x'.apply (.removeEdge u v s)).1 ∧
      (x.apply (.removeEdge u v s)).2 = (x'.apply (.removeEdge u v s)).2 := by
  refine ⟨⟨fun k => ?_, fun w k => ?_⟩, ?_⟩
  · simp only [apply, removeEdge, Cells.remove_remove_cell, h.1]
  · simp only [apply, removeEdge_cell, h.2]
  · simp only [apply, Cells.remove_cell_self, h.2]

theorem clearVertices_alike_iff (h : x.SameEntries x') :
    ((x.apply (.clearVertices s)).1.SameEntries (x'.apply (.clearVertices s)).1 ∧
      (x.apply (.clearVertices s)).2 = (x'.apply (.clearVertices s)).2) ↔
      ¬ (x.adj.TellsApart x'.adj (.clear s) ∨
        ∃ k, live (x.adj.cell k) = true ∧ (x.edges k).ClearsApart (x'.edges k) s) := by
  rw [not_or, ← Cells.apply_alike_iff h.1 (.clear s)]
  constructor
  · rintro ⟨⟨hadj, he⟩, hr⟩
    refine ⟨⟨hadj, Result.bool.inj hr⟩, ?_⟩
    rintro ⟨k, hk, hclear⟩
    refine (Cells.clear_alike_iff (h.2 k)).mp (fun w => ?_) hclear
    have hw := he k w
    simp only [apply, clearVertices_cell, ← h.1, hk, if_true] at hw
    exact hw
  · rintro ⟨⟨hadj, hr⟩, hno⟩
    refine ⟨⟨hadj, fun u w => ?_⟩, congrArg Result.bool hr⟩
    simp only [apply, clearVertices_cell, ← h.1]
    by_cases hu : live (x.adj.cell u) = true
    · rw [if_pos hu, if_pos hu]
      exact (Cells.clear_alike_iff (h.2 u)).mpr (fun hclear => hno ⟨u, hu, hclear⟩) w
    · rw [if_neg hu, if_neg hu, h.2]

theorem clearVertexEdges_alike_iff (h : x.SameEntries x') :
    ((x.apply (.clearVertexEdges k s)).1.SameEntries (x'.apply (.clearVertexEdges k s)).1 ∧
      (x.apply (.clearVertexEdges k s)).2 = (x'.apply (.clearVertexEdges k s)).2) ↔
      ¬ ((x.adj.cell k).isSome = true ∧ (x.edges k).TellsApart (x'.edges k) (.clear s)) := by
  have hadj : ∀ w, ((x.clearVertexEdges k s).adj).cell w = ((x'.clearVertexEdges k s).adj).cell w := by
    intro w
    rw [clearVertexEdges_adj, clearVertexEdges_adj, h.1]
  by_cases hp : (x.adj.cell k).isSome = true
  · rw [and_iff_right hp, ← Cells.apply_alike_iff (h.2 k) (.clear s)]
    have hp' : (x'.adj.cell k).isSome = true := by rwa [← h.1]
    constructor
    · rintro ⟨⟨-, he⟩, hr⟩
      refine ⟨fun w => ?_, ?_⟩
      · have hw := he k w
        simp only [apply, clearVertexEdges_cell, hp, hp', and_self, if_true] at hw
        exact hw
      · simp only [apply, hp, hp', Bool.true_and] at hr
        exact Result.bool.inj hr
    · rintro ⟨he, hr⟩
      refine ⟨⟨hadj, fun u w => ?_⟩, ?_⟩
      · simp only [apply, clearVertexEdges_cell, hp, hp', and_true]
        by_cases hu : u = k
        · subst hu
          rw [if_pos rfl, if_pos rfl]
          exact he w
        · rw [if_neg hu, if_neg hu, h.2]
      · simp only [apply, hp, hp', Bool.true_and]
        exact congrArg Result.bool hr
  · have hp' : ¬ (x'.adj.cell k).isSome = true := by rwa [← h.1]
    refine iff_of_true ⟨⟨hadj, fun u w => ?_⟩, ?_⟩ fun hc => hp hc.1
    · simp only [apply, clearVertexEdges_cell, hp, hp', Bool.false_eq_true, and_false, if_false, h.2]
    · simp only [apply, hp, hp', Bool.false_and]

omit [DecidableEq Key] [Zero U] in
/-- An entry that an `add_edge` creates and perhaps repairs, after two clears of which one at least is not
older. -/
theorem repaired_eq_iff {c c' t : U} (hne : c ≠ c') (hs : ¬ (c < s ∧ c' < s)) (b : Bool) :
    (if (!(addCell c s none).isRemoved && b) = true then removeCell t (some (addCell c s none))
        else addCell c s none) =
      (if (!(addCell c' s none).isRemoved && b) = true then removeCell t (some (addCell c' s none))
        else addCell c' s none) ↔
      b = true ∧ s < t ∧ (c < s ∧ c' = t ∨ c' < s ∧ c = t) := by
  cases b <;> grind [addCell, removeCell, write]

omit [DecidableEq Key] [Zero U] in
/-- Where the endpoints end alike, the edge does unless the clears of its edge set tell. -/
theorem addedEdge_alike_iff (h : x.SameEntries x') (hu : x.touched u s = x'.touched u s)
    (hv : x.touched v s = x'.touched v s) :
    (x.addedEdge u v s = x'.addedEdge u v s ↔
      ¬ ((x.edges u).TellsApart (x'.edges u) (.add v s) ∧ ¬ x.RepairsAlike x' u v s)) ∧
    (x.addedEdge u v s = x'.addedEdge u v s →
      (!(x.touchedEdge u v s).isRemoved && !x.repairs u v s) =
        (!(x'.touchedEdge u v s).isRemoved && !x'.repairs u v s)) := by
  have hhigh : x.highTime u v s = x'.highTime u v s := by
    unfold highTime
    rw [hu, hv]
  by_cases hT : (x.edges u).TellsApart (x'.edges u) (.add v s)
  · -- there is no entry, so only the repair can make up for the clears
    obtain ⟨hnone, hne, hs⟩ := id hT
    have hnone' : (x'.edges u).cell v = none := (h.2 u v).symm.trans hnone
    have hiff : x.addedEdge u v s = x'.addedEdge u v s ↔ x.RepairsAlike x' u v s := by
      unfold addedEdge repairs touchedEdge RepairsAlike
      rw [hnone, hnone', ← hu, ← hv, ← hhigh]
      exact repaired_eq_iff hne hs _
    refine ⟨by rw [hiff, and_iff_right hT, not_not], fun heq => ?_⟩
    obtain ⟨hdead, -⟩ := hiff.mp heq
    unfold repairs
    rw [← hu, ← hv, hdead]
    cases (x.touchedEdge u v s).isRemoved <;> cases (x'.touchedEdge u v s).isRemoved <;> rfl
  · have hedge : x.touchedEdge u v s = x'.touchedEdge u v s := (addCell_congr_iff (h.2 u v) s).mpr hT
    have hrep : x.repairs u v s = x'.repairs u v s := by
      unfold repairs
      rw [hedge, hu, hv]
    refine ⟨iff_of_true ?_ fun hc => hT hc.1, fun _ => by rw [hedge, hrep]⟩
    unfold addedEdge
    rw [hrep, hhigh, hedge]

theorem addEdge_alike_iff (h : x.SameEntries x') :
    ((x.apply (.addEdge u v s)).1.SameEntries (x'.apply (.addEdge u v s)).1 ∧
      (x.apply (.addEdge u v s)).2 = (x'.apply (.addEdge u v s)).2) ↔
      ¬ x.TellsApart x' (.addEdge u v s) := by
  show _ ↔ ¬ (_ ∨ _ ∨ _)
  rw [not_or, not_or, ← addCell_congr_iff (h.1 u), ← addCell_congr_iff (h.1 v)]
  constructor
  · rintro ⟨⟨hadj, he⟩, -⟩
    have hends : ∀ k, k = u ∨ k = v → x.touched k s = x'.touched k s := by
      intro k hk
      have hcell := hadj k
      simp only [apply, addEdge, Cells.add_add_cell, if_pos hk] at hcell
      exact Option.some.inj hcell
    have hu := hends u (Or.inl rfl)
    have hv := hends v (Or.inr rfl)
    have hedge := he u v
    simp only [apply, addEdge_cell, and_self, if_true] at hedge
    exact ⟨hu, hv, (addedEdge_alike_iff h hu hv).1.mp (Option.some.inj hedge)⟩
  · rintro ⟨hu, hv, hno⟩
    obtain ⟨hiff, hresult⟩ := addedEdge_alike_iff h hu hv
    have hedge := hiff.mpr hno
    refine ⟨⟨fun k => ?_, fun w k => ?_⟩, ?_⟩
    · simp only [apply, addEdge, Cells.add_add_cell]
      by_cases hk : k = u ∨ k = v
      · rw [if_pos hk, if_pos hk]
        rcases hk with rfl | rfl
        · exact congrArg some hu
        · exact congrArg some hv
      · rw [if_neg hk, if_neg hk, h.1]
    · simp only [apply, addEdge_cell, hedge, h.2]
    · have hr := hresult hedge
      have hu' : x.touched u s = x'.touched u s := hu
      have hv' : x.touched v s = x'.touched v s := hv
      simp only [apply, Bool.and_assoc, hr, hu', hv', h.1, h.2]

/-- **Which operations notice the times of the clears.** -/
theorem apply_alike_iff (h : x.SameEntries x') (o : GraphOp Key U) :
    ((x.apply o).1.SameEntries (x'.apply o).1 ∧ (x.apply o).2 = (x'.apply o).2) ↔
      ¬ x.TellsApart x' o := by
  cases o with
  | addVertex k s => exact addVertex_alike_iff h
  | removeVertex k s => exact removeVertex_alike_iff h
  | addEdge u v s => exact addEdge_alike_iff h
  | removeEdge u v s => exact iff_of_true (removeEdge_alike h) not_false
  | clearVertices s => exact clearVertices_alike_iff h
  | clearVertexEdges k s => exact clearVertexEdges_alike_iff h

end View

end CollabDatatypes.Graph

namespace CollabDatatypes.CmRDT.LWWGraph

open CollabDatatypes.Lib CollabDatatypes.Container CollabDatatypes.Graph

variable {Key T U : Type*} [DecidableEq Key] [LinearOrder U] [Zero U] [Inhabited T] [BEq T]

theorem graph_step_congruence_iff (hT : ((default : T) == default) = true) {a b : LWWGraph Key T U}
    (ha : Reachable a) (hb : Reachable b) (h : a.crdtEqual b = true) (o : GraphOp Key U) :
    ((a.apply o).1.crdtEqual (b.apply o).1 = true ∧ (a.apply o).2 = (b.apply o).2) ↔
      ¬ a.view.TellsApart b.view o := by
  obtain ⟨hk, he, hc⟩ := (crdtEqual_iff_content hT ha.counted hb.counted).mp h
  obtain ⟨hva, hra⟩ := view_apply a o
  obtain ⟨hvb, hrb⟩ := view_apply b o
  rw [crdtEqual_iff_content hT (ha.apply o).counted (hb.apply o).counted, hra, hrb, hva, hvb,
    ← View.apply_alike_iff ⟨hk, he⟩]
  simp only [content_apply, hc, implies_true, and_true]
  exact Iff.rfl

/-- **One operation on containers that `crdt_equal` takes for equal** keeps them so and returns the same
result on both, unless it tells the times of their clears apart. The default value has to equal
itself. -/
theorem crdtEqual_step_iff (hT : ((default : T) == default) = true) :
    (∀ a b : LWWSet Key U, a.crdtEqual b = true → ∀ o,
      ((a.apply o).1.crdtEqual (b.apply o).1 = true ∧ (a.apply o).2 = (b.apply o).2) ↔
        ¬ a.cells.TellsApart b.cells o) ∧
    (∀ a b : LWWMap Key T U, a.crdtEqual b = true → ∀ o,
      ((a.apply o).1.crdtEqual (b.apply o).1 = true ∧ (a.apply o).2 = (b.apply o).2) ↔
        ¬ a.cells.TellsApart b.cells o) ∧
    ∀ a b : LWWGraph Key T U, Reachable a → Reachable b → a.crdtEqual b = true → ∀ o,
      ((a.apply o).1.crdtEqual (b.apply o).1 = true ∧ (a.apply o).2 = (b.apply o).2) ↔
        ¬ a.view.TellsApart b.view o :=
  ⟨fun _ _ => set_step_congruence_iff, fun _ _ => map_step_congruence_iff hT,
    fun _ _ => graph_step_congruence_iff hT⟩

/-- An `add_edge` at 3 meets a removed origin, with the tombstone of a clear of the vertices in one graph
and of a removal in the other: only the removal has cleared the edges, and the repair makes up for it. -/
theorem crdtEqual_step_iff_repaired :
    (((((machine ℕ ℕ ℕ).run [.clearVertices 10, .addVertex 0 3]).apply (.addEdge 0 1 3)).1.crdtEqual
        (((machine ℕ ℕ ℕ).run [.removeVertex 0 10, .clearVertices 10]).apply (.addEdge 0 1 3)).1 =
          true ∧
      (((machine ℕ ℕ ℕ).run [.clearVertices 10, .addVertex 0 3]).apply (.addEdge 0 1 3)).2 =
        (((machine ℕ ℕ ℕ).run [.removeVertex 0 10, .clearVertices 10]).apply (.addEdge 0 1 3)).2) ↔
      ¬ ((machine ℕ ℕ ℕ).run [.clearVertices 10, .addVertex 0 3]).view.TellsApart
        ((machine ℕ ℕ ℕ).run [.removeVertex 0 10, .clearVertices 10]).view (.addEdge 0 1 3)) ∧
    (((machine ℕ ℕ ℕ).run [.clearVertices 10, .addVertex 0 3]).apply (.addEdge 0 1 3)).1.crdtEqual
      (((machine ℕ ℕ ℕ).run [.removeVertex 0 10, .clearVertices 10]).apply (.addEdge 0 1 3)).1 =
        true :=
  ⟨(crdtEqual_step_iff (by decide)).2.2 _ _ (.apply (.apply .empty _) _)
    (.apply (.apply .empty _) _) (by decide) _, by decide⟩

end CollabDatatypes.CmRDT.LWWGraph
