import CollabDatatypes.Container.Congruence
import CollabDatatypes.Graph.Comparison

/-! # What `crdt_equal` leaves out of a graph

A graph has a time of the last clear for its vertices and one for the edges of every vertex, and
`crdt_equal` compares none of them. Two graphs that it takes for equal behave alike exactly when all
these times are the same (`graph_congruence_iff`). The comparison of two vertices trusts the counters
of their edge sets, so this is said of reachable graphs. `crdtEqual_congruence_iff` is the result for
all three containers. -/

namespace CollabDatatypes.CmRDT.LWWGraph

open CollabDatatypes.Lib CollabDatatypes.Container CollabDatatypes.Graph

variable {Key T U : Type*} [DecidableEq Key] [LinearOrder U] [Zero U] [Inhabited T]

/-- The graphs a program can reach from the empty one, by the modifiers and by writes to the contents
of vertices. -/
inductive Reachable : LWWGraph Key T U → Prop
  | empty : Reachable empty
  | apply {g : LWWGraph Key T U} (h : Reachable g) (o : GraphOp Key U) : Reachable (g.apply o).1
  | writeContent {g : LWWGraph Key T U} (h : Reachable g) (k : Key) (f : T → T) :
      Reachable (g.writeContent k f)

theorem Reachable.counted {g : LWWGraph Key T U} (h : Reachable g) : g.Counted := by
  induction h with
  | empty => exact counted_empty
  | apply _ o ih => exact counted_apply ih o
  | writeContent _ k f ih => exact ih.writeContent k f

/-- The vertices and the edges of every vertex have been cleared at the same times. -/
def SameClears (g g' : LWWGraph Key T U) : Prop :=
  g.view.adj.clearTime = g'.view.adj.clearTime ∧
    ∀ k, (g.view.edges k).clearTime = (g'.view.edges k).clearTime

omit [LinearOrder U] [Inhabited T] in
theorem view_eq_iff {g g' : LWWGraph Key T U} :
    g.view = g'.view ↔ SameClears g g' ∧ (∀ k, g.view.adj.cell k = g'.view.adj.cell k) ∧
      ∀ u v, (g.view.edges u).cell v = (g'.view.edges u).cell v := by
  constructor
  · intro h
    rw [SameClears, h]
    exact ⟨⟨rfl, fun _ => rfl⟩, fun _ => rfl, fun _ _ => rfl⟩
  · rintro ⟨⟨hc, hce⟩, hk, he⟩
    exact View.ext (Cells.ext hc (funext hk))
      (funext fun u => Cells.ext (hce u) (funext (he u)))

/-! ### The congruence -/

variable [BEq T]

theorem crdtEqual_iff_content (hT : ((default : T) == default) = true) {g g' : LWWGraph Key T U}
    (h : g.Counted) (h' : g'.Counted) :
    g.crdtEqual g' = true ↔ (∀ k, g.view.adj.cell k = g'.view.adj.cell k) ∧
      (∀ u v, (g.view.edges u).cell v = (g'.view.edges u).cell v) ∧
      ∀ k, ((vertexAt g.adj k).content == (vertexAt g'.adj k).content) = true := by
  rw [crdtEqual_iff h h']
  refine and_congr_right fun hk => and_congr_right fun _ => forall_congr' fun k => ?_
  have hnone : g.adj.valueOf k = none ↔ g'.adj.valueOf k = none := by
    rw [LWWMap.valueOf_eq_none, LWWMap.valueOf_eq_none]
    exact Eq.congr_left (hk k)
  rw [vertexAt_eq_getD, vertexAt_eq_getD]
  cases hv : g.adj.valueOf k with
  | none =>
    rw [hnone.mp hv]
    exact iff_of_true (fun _ _ hx => by cases hx) hT
  | some x =>
    cases hv' : g'.adj.valueOf k with
    | none => cases hv.symm.trans (hnone.mpr hv')
    | some x' =>
      refine ⟨fun hc => hc x x' rfl rfl, fun hc y y' hy hy' => ?_⟩
      obtain rfl := Option.some.inj hy
      obtain rfl := Option.some.inj hy'
      exact hc

theorem graph_congruence_iff (hT : ((default : T) == default) = true) {a b : LWWGraph Key T U}
    (ha : Reachable a) (hb : Reachable b) (h : a.crdtEqual b = true) :
    (StepAlike crdtEqual apply a b ↔ SameClears a b) ∧
      (RunAlike crdtEqual apply a b ↔ SameClears a b) := by
  refine congruence_iff (I := fun a b : LWWGraph Key T U => a.Counted ∧ b.Counted)
    (E := fun a b : LWWGraph Key T U => a.crdtEqual b = true) (K := SameClears)
    (fun a b o hI => ⟨counted_apply hI.1 o, counted_apply hI.2 o⟩)
    (fun a b o hI hE hK => ?_) (fun a b hI hE hr => ?_) ⟨ha.counted, hb.counted⟩ h
  · obtain ⟨hk, he, hc⟩ := (crdtEqual_iff_content hT hI.1 hI.2).mp hE
    have hview : a.view = b.view := view_eq_iff.mpr ⟨hK, hk, he⟩
    obtain ⟨hva, hra⟩ := view_apply a o
    obtain ⟨hvb, hrb⟩ := view_apply b o
    have hafter : (a.apply o).1.view = (b.apply o).1.view := by rw [hva, hvb, hview]
    obtain ⟨hK', hk', he'⟩ := view_eq_iff.mp hafter
    refine ⟨(crdtEqual_iff_content hT (counted_apply hI.1 o) (counted_apply hI.2 o)).mpr
      ⟨hk', he', fun k => ?_⟩, hK', ?_⟩
    · rw [content_apply, content_apply]
      exact hc k
    · rw [hra, hrb, hview]
  · have hresult : ∀ o, (a.view.apply o).2 = (b.view.apply o).2 := by
      intro o
      rw [← (view_apply a o).2, ← (view_apply b o).2]
      exact hr o
    refine ⟨eq_of_decide_lt fun s => Result.bool.inj (hresult (.clearVertices s)), fun k => ?_⟩
    obtain ⟨hk, -, -⟩ := (crdtEqual_iff_content hT hI.1 hI.2).mp hE
    by_cases hp : (a.view.adj.cell k).isSome = true
    · refine eq_of_decide_lt fun s => ?_
      have hs := Result.bool.inj (hresult (.clearVertexEdges k s))
      rwa [← hk k, hp, Bool.true_and, Bool.true_and] at hs
    · rw [edges_of_not_isSome hp, edges_of_not_isSome (by rwa [← hk k])]

/-- **What `crdt_equal` leaves out** of the three containers is the times of the clears: containers
that it takes for equal are kept so by every operation, and by every list of operations, with the same
results, exactly when they have been cleared at the same times. The default value has to equal
itself. -/
theorem crdtEqual_congruence_iff (hT : ((default : T) == default) = true) :
    (∀ a b : LWWSet Key U, a.crdtEqual b = true →
      (StepAlike LWWSet.crdtEqual LWWSet.apply a b ↔ a.lastClearTime = b.lastClearTime) ∧
        (RunAlike LWWSet.crdtEqual LWWSet.apply a b ↔ a.lastClearTime = b.lastClearTime)) ∧
    (∀ a b : LWWMap Key T U, a.crdtEqual b = true →
      (StepAlike LWWMap.crdtEqual LWWMap.apply a b ↔ a.lastClearTime = b.lastClearTime) ∧
        (RunAlike LWWMap.crdtEqual LWWMap.apply a b ↔ a.lastClearTime = b.lastClearTime)) ∧
    ∀ a b : LWWGraph Key T U, Reachable a → Reachable b → a.crdtEqual b = true →
      (StepAlike crdtEqual apply a b ↔ SameClears a b) ∧
        (RunAlike crdtEqual apply a b ↔ SameClears a b) :=
  ⟨fun _ _ => set_congruence_iff, fun _ _ => map_congruence_iff hT,
    fun _ _ => graph_congruence_iff hT⟩

theorem crdtEqual_congruence_iff_vertex :
    StepAlike LWWSet.crdtEqual LWWSet.apply ((LWWSet.machine ℕ ℕ).run [.add 0 3])
        ((LWWSet.machine ℕ ℕ).run [.add 0 1, .add 0 3]) ∧
      RunAlike crdtEqual apply (empty.apply (.addVertex 0 3) : LWWGraph ℕ ℕ ℕ × Result).1
        ((empty.apply (.addVertex 0 1)).1.apply (.addVertex 0 3)).1 := by
  have h := @crdtEqual_congruence_iff ℕ ℕ ℕ _ _ _ _ _ (by decide)
  refine ⟨(h.1 _ _ (by decide)).1.mpr rfl, (h.2.2 _ _ (.apply .empty _) (.apply (.apply .empty _) _)
    (by decide)).2.mpr ⟨rfl, fun k => ?_⟩⟩
  rw [(view_apply _ _).1, (view_apply _ _).1, (view_apply _ _).1]
  rfl

/-- An empty container and one that was cleared at 5 compare equal; an `add` at 3 succeeds on the one
and fails on the other. -/
theorem crdtEqual_not_congruence :
    ((LWWSet.empty : LWWSet ℕ ℕ).crdtEqual ((LWWSet.machine ℕ ℕ).run [.clear 5]) = true ∧
      ¬ StepAlike LWWSet.crdtEqual LWWSet.apply (LWWSet.empty : LWWSet ℕ ℕ)
        ((LWWSet.machine ℕ ℕ).run [.clear 5])) ∧
    ((LWWMap.empty : LWWMap ℕ ℕ ℕ).crdtEqual ((LWWMap.machine ℕ ℕ ℕ).run [.clear 5]) = true ∧
      ¬ StepAlike LWWMap.crdtEqual LWWMap.apply (LWWMap.empty : LWWMap ℕ ℕ ℕ)
        ((LWWMap.machine ℕ ℕ ℕ).run [.clear 5])) ∧
    (empty : LWWGraph ℕ ℕ ℕ).crdtEqual ((machine ℕ ℕ ℕ).run [.clearVertices 5]) = true ∧
      ¬ StepAlike crdtEqual apply (empty : LWWGraph ℕ ℕ ℕ)
        ((machine ℕ ℕ ℕ).run [.clearVertices 5]) := by
  refine ⟨⟨by decide, fun h => ?_⟩, ⟨by decide, fun h => ?_⟩, by decide, fun h => ?_⟩
  · exact absurd (h (.add 0 3)).2 (by decide)
  · exact absurd (h (.add 0 3)).2 (by decide)
  · exact absurd (h (.addVertex 0 3)).2 (by decide)

end CollabDatatypes.CmRDT.LWWGraph
