import CollabDatatypes.Graph.Refine
import CollabDatatypes.Graph.History

/-! # What a `remove_edge` does to the vertices

A `remove_edge` leaves a tombstone with the least stamp for an endpoint that has no entry. The run of
a graph is compared here with the run without its `remove_edge`s, vertex by vertex. The entries differ
only while such a tombstone stands for a vertex that is not there, or was marked by a clear and hides
an older removal (`Masked`). Users see the same vertices in both runs until an addition takes effect in
one of them only (`Interferes`): `noninterference_iff`. -/

namespace CollabDatatypes.Graph

open CollabDatatypes.Lib CollabDatatypes.CmRDT CollabDatatypes.Container

/-! ### One vertex -/

section Cell

variable {U : Type*} [LinearOrder U] [Zero U] {c s : U} {x y : Option (Metadata U)}

/-- The entry of a vertex, next to the one it has without the `remove_edge`s, the last clear of the
vertices having been at `c`: they are the same; or a tombstone, with the least stamp or with that of
the clear, stands where there is no entry; or it stands where an older one does. -/
inductive Masked (c : U) : Option (Metadata U) → Option (Metadata U) → Prop
  | same (x : Option (Metadata U)) : Masked c x x
  | planted : Masked c (some ⟨0, true⟩) none
  | cleared : Masked c (some ⟨c, true⟩) none
  | older {r t : U} (hrt : r < t) (htc : t ≤ c) : Masked c (some ⟨t, true⟩) (some ⟨r, true⟩)

/-- An addition of the stamp `s` takes effect on one of the two entries only. -/
def Interferes (c s : U) (x y : Option (Metadata U)) : Prop :=
  (x = some ⟨0, true⟩ ∧ y = none ∧ s ≤ c) ∨
    ∃ r t, x = some ⟨t, true⟩ ∧ y = some ⟨r, true⟩ ∧ r < s ∧ s ≤ t

namespace Masked

theorem live_eq (h : Masked c x y) : live x = live y := by cases h <;> rfl

theorem of_le {r t : U} (hrt : r ≤ t) (htc : t ≤ c) :
    Masked c (some ⟨t, true⟩) (some ⟨r, true⟩) := by
  rcases hrt.eq_or_lt with rfl | hrt
  · exact same _
  · exact older hrt htc

theorem add (h : Masked c x y) (hs : 0 < s) (hn : ¬ Interferes c s x y) :
    Masked c (some (addCell c s x)) (some (addCell c s y)) := by
  cases h with
  | same => exact same _
  | planted =>
    have hcs : c < s := not_le.mp fun hle => hn (Or.inl ⟨rfl, rfl, hle⟩)
    rw [addCell_of_applies (addApplies_some.mpr hs), addCell_of_applies (addApplies_none.mpr hcs)]
    exact same _
  | cleared =>
    rcases lt_or_ge c s with hcs | hcs
    · rw [addCell_of_applies (addApplies_some.mpr hcs), addCell_of_applies (addApplies_none.mpr hcs)]
      exact same _
    · rw [addCell_of_le hcs, addCell_none_of_le hcs]
      exact same _
  | @older r t hrt htc =>
    rcases lt_or_ge t s with hts | hts
    · rw [addCell_of_applies (addApplies_some.mpr hts),
        addCell_of_applies (addApplies_some.mpr (hrt.trans hts))]
      exact same _
    · have hsr : s ≤ r := not_lt.mp fun hrs => hn (Or.inr ⟨r, t, rfl, rfl, hrs, hts⟩)
      rw [addCell_of_le hts, addCell_of_le hsr]
      exact older hrt htc

theorem remove (h : Masked c x y) (hs : 0 < s) :
    Masked c (some (removeCell s x)) (some (removeCell s y)) := by
  cases h with
  | same => exact same _
  | planted =>
    rw [removeCell, write_of_lt hs]
    exact same _
  | cleared =>
    rcases lt_or_ge c s with hcs | hcs
    · rw [removeCell, write_of_lt hcs]
      exact same _
    · rw [removeCell, write_of_le hcs]
      exact of_le hcs le_rfl
  | @older r t hrt htc =>
    rcases lt_or_ge t s with hts | hts
    · rw [removeCell, write_of_lt hts, removeCell, write_of_lt (hrt.trans hts)]
      exact same _
    · rw [removeCell, write_of_le hts]
      rcases lt_or_ge r s with hrs | hrs
      · rw [removeCell, write_of_lt hrs]
        exact of_le hts htc
      · rw [removeCell, write_of_le hrs]
        exact older hrt htc

theorem plant (h : Masked c x y) (h0 : ∀ e, x = some e → 0 ≤ e.timestamp) :
    Masked c (some (removeCell 0 x)) y := by
  cases x with
  | none =>
    cases h
    exact planted
  | some e =>
    rw [removeCell, write_of_le (h0 e rfl)]
    exact h

theorem clear (h : Masked c x y) (hc : 0 ≤ c) (s : U) :
    Masked (max c s) (clearCell c s x) (clearCell c s y) := by
  rcases le_or_gt s c with hsc | hsc
  · rw [clearCell_of_le hsc, clearCell_of_le hsc, max_eq_left hsc]
    exact h
  · rw [max_eq_right hsc.le]
    cases h with
    | same => exact same _
    | planted =>
      rw [clearCell_some hsc, write_of_lt (hc.trans_lt hsc), clearCell_none]
      exact cleared
    | cleared =>
      rw [clearCell_some hsc, write_of_lt hsc, clearCell_none]
      exact cleared
    | older hrt htc =>
      rw [clearCell_some hsc, clearCell_some hsc, write_of_lt (htc.trans_lt hsc),
        write_of_lt ((hrt.trans_le htc).trans hsc)]
      exact same _

end Masked

theorem live_ne_of_interferes (hs : 0 < s) (h : Interferes c s x y) :
    live (some (addCell c s x)) ≠ live (some (addCell c s y)) := by
  rcases h with ⟨rfl, rfl, hsc⟩ | ⟨r, t, rfl, rfl, hrs, hst⟩
  · rw [addCell_of_applies (addApplies_some.mpr hs), addCell_none_of_le hsc]
    exact Bool.noConfusion
  · rw [addCell_of_le hst, addCell_of_applies (addApplies_some.mpr hrs)]
    exact Bool.noConfusion

end Cell

/-! ### The two runs -/

variable {Key U : Type*}

def IsRemoveEdge : GraphOp Key U → Bool
  | .removeEdge _ _ _ => true
  | _ => false

/-- The run without its `remove_edge`s. -/
def withoutRemoveEdges (d : List (GraphOp Key U)) : List (GraphOp Key U) :=
  d.filter fun o => !IsRemoveEdge o

section Filter

variable {d : List (GraphOp Key U)} {o : GraphOp Key U}

theorem withoutRemoveEdges_concat (h : IsRemoveEdge o = false) :
    withoutRemoveEdges (d ++ [o]) = withoutRemoveEdges d ++ [o] := by
  unfold withoutRemoveEdges
  rw [List.filter_append, List.filter_singleton, h]
  rfl

theorem withoutRemoveEdges_concat_removeEdge (h : IsRemoveEdge o = true) :
    withoutRemoveEdges (d ++ [o]) = withoutRemoveEdges d := by
  unfold withoutRemoveEdges
  rw [List.filter_append, List.filter_singleton, h]
  exact List.append_nil _

theorem not_isRemoveEdge_of_touches {k : Key} (h : Touches k o) : IsRemoveEdge o = false := by
  cases o with
  | removeEdge u v s => exact absurd h not_touches_removeEdge
  | _ => rfl

end Filter

namespace View

variable [LinearOrder U] [Zero U] {g g' : View Key U} {o : GraphOp Key U} {k : Key}

/-- The operation adds a vertex, and takes effect on it in one of the two states only. -/
def InterferesAt (g g' : View Key U) (o : GraphOp Key U) : Prop :=
  ∃ k, Touches k o ∧ Interferes g.adj.clearTime o.stamp (g.adj.cell k) (g'.adj.cell k)

variable [DecidableEq Key] {d : List (GraphOp Key U)}

theorem adj_clearTime_congr (h : g'.adj.clearTime = g.adj.clearTime) (o : GraphOp Key U) :
    (g'.apply o).1.adj.clearTime = (g.apply o).1.adj.clearTime := by
  rcases adj_clearTime_step (g := g) (o := o) with ⟨s, rfl⟩ | hg
  · exact congrArg (max · s) h
  · rcases adj_clearTime_step (g := g') (o := o) with ⟨s, rfl⟩ | hg'
    · exact congrArg (max · s) h
    · rw [hg, hg', h]

theorem adj_clearTime_withoutRemoveEdges (d : List (GraphOp Key U)) :
    ((machine Key U).run (withoutRemoveEdges d)).adj.clearTime =
      ((machine Key U).run d).adj.clearTime := by
  induction d using List.reverseRecOn with
  | nil => rfl
  | append_singleton d o ih =>
    rw [run_concat]
    cases ho : IsRemoveEdge o with
    | false =>
      rw [withoutRemoveEdges_concat ho, run_concat]
      exact adj_clearTime_congr ih o
    | true =>
      rw [withoutRemoveEdges_concat_removeEdge ho, ih]
      cases o with
      | removeEdge u v s => rfl
      | _ => cases ho

/-- **A step of both runs.** -/
theorem masked_step (htime : g'.adj.clearTime = g.adj.clearTime)
    (h : Masked g.adj.clearTime (g.adj.cell k) (g'.adj.cell k)) (ho : IsRemoveEdge o = false)
    (hs : 0 < o.stamp) (h0 : 0 ≤ g.adj.clearTime)
    (hn : Touches k o → ¬ Interferes g.adj.clearTime o.stamp (g.adj.cell k) (g'.adj.cell k)) :
    Masked (g.apply o).1.adj.clearTime ((g.apply o).1.adj.cell k) ((g'.apply o).1.adj.cell k) := by
  rw [adj_apply_cell, adj_apply_cell, htime]
  cases o with
  | addVertex k' s =>
    show Masked g.adj.clearTime (if k = k' then _ else _) (if k = k' then _ else _)
    by_cases hk : k = k'
    · rw [if_pos hk, if_pos hk]
      exact h.add hs (hn (touches_addVertex_iff.mpr hk))
    · rw [if_neg hk, if_neg hk]
      exact h
  | removeVertex k' s =>
    show Masked g.adj.clearTime (if k = k' then _ else _) (if k = k' then _ else _)
    by_cases hk : k = k'
    · rw [if_pos hk, if_pos hk]
      exact h.remove hs
    · rw [if_neg hk, if_neg hk]
      exact h
  | addEdge u v s =>
    show Masked g.adj.clearTime (if k = u ∨ k = v then _ else _) (if k = u ∨ k = v then _ else _)
    by_cases hk : k = u ∨ k = v
    · rw [if_pos hk, if_pos hk]
      exact h.add hs (hn (touches_addEdge hk s))
    · rw [if_neg hk, if_neg hk]
      exact h
  | removeEdge u v s => cases ho
  | clearVertices s => exact h.clear h0 s
  | clearVertexEdges k' s =>
    show Masked (g.clearVertexEdges k' s).adj.clearTime _ _
    rw [clearVertexEdges_adj]
    exact h

/-- A step of one run only. -/
theorem masked_removeEdge (h : Masked g.adj.clearTime (g.adj.cell k) (g'.adj.cell k))
    (ho : IsRemoveEdge o = true) (h0 : ∀ e, g.adj.cell k = some e → 0 ≤ e.timestamp) :
    Masked (g.apply o).1.adj.clearTime ((g.apply o).1.adj.cell k) (g'.adj.cell k) := by
  rw [adj_apply_cell]
  cases o with
  | removeEdge u v s =>
    show Masked g.adj.clearTime (if k = u ∨ k = v then _ else _) _
    split_ifs
    · exact h.plant h0
    · exact h
  | _ => cases ho

theorem adj_clearTime_nonneg (h : Stamped GraphOp.stamp d) :
    0 ≤ ((machine Key U).run d).adj.clearTime := by
  rcases clearVertices_mem d with h0 | hc
  · exact h0.ge
  · exact (h.pos _ hc).le

end View

end CollabDatatypes.Graph

namespace CollabDatatypes.CmRDT.LWWGraph

open CollabDatatypes.Lib CollabDatatypes.Container CollabDatatypes.Graph

variable {Key T U : Type*} [DecidableEq Key] [LinearOrder U] [Zero U] [Inhabited T]

/-- **When `remove_edge` does not interfere with the vertices**: in every state of a run users see the
vertices of the run without its `remove_edge`s, exactly when no addition of the run takes effect on a
vertex in one of the two runs only. -/
theorem noninterference_iff {d : List (GraphOp Key U)} (h : Stamped GraphOp.stamp d) :
    (∀ p, p <+: d → ∀ k, ((machine Key T U).run p).hasVertex k =
        ((machine Key T U).run (withoutRemoveEdges p)).hasVertex k) ↔
      ∀ p o q, d = p ++ o :: q → ¬ View.InterferesAt ((machine Key T U).run p).view
        ((machine Key T U).run (withoutRemoveEdges p)).view o := by
  simp only [hasVertex_eq, view_run]
  refine Machine.always_iff_of_invariant (C := fun p => Stamped GraphOp.stamp p)
    (I := fun p => ∀ k, Masked ((View.machine Key U).run p).adj.clearTime
      (((View.machine Key U).run p).adj.cell k)
      (((View.machine Key U).run (withoutRemoveEdges p)).adj.cell k))
    (fun p o hC => hC.of_append) (fun p _ hI k => (hI k).live_eq) (fun k => .same none)
    (fun p o hs hI hbad k => ?_) (fun p o hs hbad hP => ?_) h
  · rw [View.run_concat]
    cases ho : IsRemoveEdge o with
    | false =>
      rw [withoutRemoveEdges_concat ho, View.run_concat]
      exact View.masked_step (View.adj_clearTime_withoutRemoveEdges p) (hI k) ho
        (hs.pos o (by simp)) (View.adj_clearTime_nonneg hs.of_append)
        fun hk hi => hbad ⟨k, hk, hi⟩
    | true =>
      rw [withoutRemoveEdges_concat_removeEdge ho]
      exact View.masked_removeEdge (hI k) ho fun e he => View.vertex_nonneg hs.of_append he
  · obtain ⟨k, hk, hi⟩ := hbad
    refine live_ne_of_interferes (hs.pos o (by simp)) hi ?_
    have hlive := hP k
    rw [withoutRemoveEdges_concat (not_isRemoveEdge_of_touches hk), View.run_concat,
      View.run_concat, View.adj_of_touches hk, View.adj_of_touches hk] at hlive
    unfold View.touched at hlive
    rwa [View.adj_clearTime_withoutRemoveEdges] at hlive

theorem noninterference_iff_planted :
    (∀ p, p <+: [GraphOp.removeEdge 0 1 1, .addVertex 0 5] →
        ∀ k, ((machine ℕ Unit ℕ).run p).hasVertex k =
          ((machine ℕ Unit ℕ).run (withoutRemoveEdges p)).hasVertex k) ↔
      ∀ p o q, [GraphOp.removeEdge 0 1 1, .addVertex 0 5] = p ++ o :: q →
        ¬ View.InterferesAt ((machine ℕ Unit ℕ).run p).view
          ((machine ℕ Unit ℕ).run (withoutRemoveEdges p)).view o :=
  noninterference_iff (by decide)

/-- The vertices are cleared at 10; a `remove_edge` then plants a tombstone, and a late `add_vertex` at
5 takes effect on it. Without the `remove_edge` it does not. -/
theorem removeEdge_interferes :
    Stamped GraphOp.stamp [.clearVertices 10, .removeEdge 0 1 1, .addVertex 0 5] ∧
    ((machine ℕ Unit ℕ).run [.clearVertices 10, .removeEdge 0 1 1, .addVertex 0 5]).hasVertex 0 =
      true ∧
    ((machine ℕ Unit ℕ).run (withoutRemoveEdges
      [.clearVertices 10, .removeEdge 0 1 1, .addVertex 0 5])).hasVertex 0 = false := by
  decide

end CollabDatatypes.CmRDT.LWWGraph
