import CollabDatatypes.Container.Equality
import CollabDatatypes.Graph.Congruence

/-! # `operator==` of graphs compares what is visible

Two graphs are equal when the same vertices and edges are visible, the vertices with equal contents:
the comparison goes through the vertex map into the edge set of every visible vertex, and each level
compares its counters first. `beq_isObservational` is the result for all three containers. -/

namespace CollabDatatypes.CmRDT.LWWGraph

open CollabDatatypes.Lib CollabDatatypes.Container CollabDatatypes.Graph

variable {Key T U : Type*} [DecidableEq Key]

/-- The contents a user sees. -/
def visibleContent (g : LWWGraph Key T U) (k : Key) : Option T :=
  (g.adj.visible k).map Vertex.content

theorem atVertex_eq_ok {g : LWWGraph Key T U} {k : Key} {x : T} :
    g.atVertex k = .ok x ↔ g.visibleContent k = some x := by
  unfold atVertex visibleContent
  cases h : g.adj.atKey k with
  | ok v =>
    rw [LWWMap.atKey_eq_ok.mp h]
    simp [Except.map]
  | error e =>
    have hnone : g.adj.visible k = none := by
      by_contra hne
      obtain ⟨v, hv⟩ := Option.ne_none_iff_exists'.mp hne
      cases h.symm.trans (LWWMap.atKey_eq_ok.mpr hv)
    rw [hnone]
    simp [Except.map]

variable [BEq T]

/-- A user sees the same graph. -/
def SeenSame (g g' : LWWGraph Key T U) : Prop :=
  (∀ k, g.hasVertex k = g'.hasVertex k) ∧ (∀ u v, g.hasEdge u v = g'.hasEdge u v) ∧
    ∀ k x x', g.atVertex k = .ok x → g'.atVertex k = .ok x' → (x == x') = true

variable [Zero U]

theorem seenSame_iff {g g' : LWWGraph Key T U} : SeenSame g g' ↔
    Agree (fun x x' => (x == x') = true) g.visibleContent g'.visibleContent ∧
      g.hasEdge = g'.hasEdge := by
  have hvertex : ∀ (g : LWWGraph Key T U) k, g.hasVertex k = (g.visibleContent k).isSome := by
    intro g k
    rw [hasVertex_eq_visible, visibleContent, Option.isSome_map]
  unfold SeenSame
  simp only [agree_iff, atVertex_eq_ok, hvertex, funext_iff]
  tauto

variable [EquivBEq T]

theorem beq_iff_seenSame {g g' : LWWGraph Key T U} (h : g.Counted) (h' : g'.Counted) :
    (g == g') = true ↔ SeenSame g g' := by
  rw [beq_iff h h', SeenSame]
  refine and_congr_right fun _ => and_congr_right fun _ => forall_congr' fun k => ?_
  simp only [atVertex_eq_ok, visibleContent, Option.map_eq_some_iff]
  constructor
  · rintro hc _ _ ⟨x, hx, rfl⟩ ⟨x', hx', rfl⟩
    exact (hc x x' hx hx').1
  · intro hc x x' hx hx'
    have hcontent := hc x.content x'.content ⟨x, hx, rfl⟩ ⟨x', hx', rfl⟩
    exact ⟨hcontent, BEq.symm hcontent⟩

variable [LinearOrder U] [Inhabited T]

theorem seenSame_of_crdtEqual {g g' : LWWGraph Key T U} (h : g.Counted) (h' : g'.Counted)
    (heq : g.crdtEqual g' = true) : SeenSame g g' := by
  obtain ⟨hk, he, hc⟩ := (crdtEqual_iff h h').mp heq
  refine (beq_iff_seenSame h h').mp ((beq_iff h h').mpr
    ⟨fun k => ?_, fun u v => ?_, fun k x x' hx hx' => ?_⟩)
  · rw [hasVertex_eq, hasVertex_eq, hk]
  · rw [hasEdge_eq, hasEdge_eq, hk, he]
  · have hcontent := hc k x x' (LWWMap.valueOf_of_visible hx) (LWWMap.valueOf_of_visible hx')
    exact ⟨hcontent, BEq.symm hcontent⟩

theorem graph_isObservational {I : LWWGraph Key T U → Prop} (hI : ∀ g, I g → g.Counted) :
    IsObservational I (· == ·) crdtEqual SeenSame := by
  have hcontent := agree_equivalence (ι := Key) (LWWMap.beq_equivalence (T := T))
  have hR : Equivalence fun x y : (Key → Option T) × (Key → Key → Bool) =>
      Agree (fun v v' => (v == v') = true) x.1 y.1 ∧ x.2 = y.2 :=
    ⟨fun _ => ⟨hcontent.refl _, rfl⟩, fun h => ⟨hcontent.symm h.1, h.2.symm⟩,
      fun h h' => ⟨hcontent.trans h.1 h'.1, h.2.trans h'.2⟩⟩
  exact .of_iff hR (fun g => (g.visibleContent, g.hasEdge)) (fun a b => seenSame_iff)
    (fun a b ha hb => beq_iff_seenSame (hI a ha) (hI b hb))
    fun a b ha hb => seenSame_of_crdtEqual (hI a ha) (hI b hb)

/-- **`operator==` is observational equality** of reachable containers: it holds exactly when the
lookups agree (of sets: `count`; of maps: `count` and the values of the visible keys; of graphs:
`has_vertex`, `has_edge` and the contents of the visible vertices), it is an equivalence, and containers
with the same internal data are equal. -/
theorem beq_isObservational :
    IsObservational (LWWSet.machine Key U).Reached (· == ·) LWWSet.crdtEqual LWWSet.SeenSame ∧
    IsObservational (LWWMap.userMachine Key T U).Reached (· == ·) LWWMap.crdtEqual
      LWWMap.SeenSame ∧
    IsObservational (Reachable : LWWGraph Key T U → Prop) (· == ·) crdtEqual SeenSame :=
  ⟨LWWSet.set_isObservational fun _ h => h.of_run LWWSet.counted_run,
    LWWMap.map_isObservational fun _ h => h.of_run LWWMap.counted_userRun,
    graph_isObservational fun _ h => h.counted⟩

theorem beq_isObservational_nat :
    IsObservational (LWWSet.machine ℕ ℕ).Reached (· == ·) LWWSet.crdtEqual LWWSet.SeenSame ∧
    IsObservational (LWWMap.userMachine ℕ ℕ ℕ).Reached (· == ·) LWWMap.crdtEqual
      LWWMap.SeenSame ∧
    IsObservational (Reachable : LWWGraph ℕ ℕ ℕ → Prop) (· == ·) crdtEqual SeenSame :=
  beq_isObservational

/-- Stamps and tombstones are not compared. -/
example : ((machine ℕ ℕ ℕ).run [.addEdge 0 1 1] ==
      (machine ℕ ℕ ℕ).run [.removeVertex 2 3, .addEdge 0 1 2, .removeEdge 1 0 4]) = true ∧
    ((machine ℕ ℕ ℕ).run [.addEdge 0 1 1]).crdtEqual
      ((machine ℕ ℕ ℕ).run [.removeVertex 2 3, .addEdge 0 1 2, .removeEdge 1 0 4]) = false := by
  decide

end CollabDatatypes.CmRDT.LWWGraph
