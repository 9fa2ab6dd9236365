import CollabDatatypes.Container.Map

/-! # What `crdt_equal` leaves out

`crdt_equal` compares the entries of two containers and not the times of their last clears. Those
decide what an `add` of a key without an entry does, and what a `clear` returns. So two containers
that `crdt_equal` takes for equal behave alike exactly when these times are the same:
`set_congruence_iff`, `map_congruence_iff`. One operation alone need not notice; `Cells.TellsApart` says
which ones do. -/

namespace CollabDatatypes.Container

open CollabDatatypes.Lib CollabDatatypes.CmRDT

variable {Key T U : Type*} [DecidableEq Key] [LinearOrder U]

/-- The modifier `f` keeps `a` and `b` equal for `eq` and returns the same result on both, whatever
the operation. -/
def StepAlike {σ ω ρ : Type*} (eq : σ → σ → Bool) (f : σ → ω → σ × ρ) (a b : σ) : Prop :=
  ∀ o, eq (f a o).1 (f b o).1 = true ∧ (f a o).2 = (f b o).2

/-- Every list of operations does. -/
def RunAlike {σ ω ρ : Type*} (eq : σ → σ → Bool) (f : σ → ω → σ × ρ) (a b : σ) : Prop :=
  ∀ l, eq (trace f a l).1 (trace f b l).1 = true ∧ (trace f a l).2 = (trace f b l).2

omit [DecidableEq Key] in
theorem eq_of_decide_lt {c c' : U} (h : ∀ s, decide (c < s) = decide (c' < s)) : c = c' :=
  eq_of_forall_gt_iff fun s => decide_eq_decide.mp (h s)

theorem addCell_none_eq_iff {c c' s : U} :
    addCell c s none = addCell c' s none ↔ ¬ (c ≠ c' ∧ ¬ (c < s ∧ c' < s)) := by
  grind [addCell]

/-- The operation tells two containers with the same entries apart: it adds a key without an entry, and
is not newer than both clears, or it is a clear that is newer than one of them only. -/
def Cells.TellsApart (x x' : Cells Key U) : Op Key U → Prop
  | .add k s =>
    x.cell k = none ∧ x.clearTime ≠ x'.clearTime ∧ ¬ (x.clearTime < s ∧ x'.clearTime < s)
  | .remove _ _ => False
  | .clear s => ¬ (x.clearTime < s ↔ x'.clearTime < s)

omit [DecidableEq Key] in
theorem addCell_congr_iff {x x' : Cells Key U} {k : Key} (h : x.cell k = x'.cell k) (s : U) :
    addCell x.clearTime s (x.cell k) = addCell x'.clearTime s (x'.cell k) ↔
      ¬ x.TellsApart x' (.add k s) := by
  unfold Cells.TellsApart
  rw [← h]
  cases hx : x.cell k with
  | none => simp only [addCell_none_eq_iff, hx, true_and]
  | some e => simp [addCell, hx]

/-- **Which operations notice the times of the clears.** -/
theorem Cells.apply_alike_iff {x x' : Cells Key U} (h : ∀ k, x.cell k = x'.cell k) (o : Op Key U) :
    ((∀ k, (x.apply o).1.cell k = (x'.apply o).1.cell k) ∧ (x.apply o).2 = (x'.apply o).2) ↔
      ¬ x.TellsApart x' o := by
  cases o with
  | add k s =>
    rw [← addCell_congr_iff (h k)]
    constructor
    · rintro ⟨hcell, -⟩
      have hk := hcell k
      simp only [apply, add_cell_self] at hk
      exact Option.some.inj hk
    · intro hk
      have hcell : ∀ k', (x.add k s).cell k' = (x'.add k s).cell k' := by
        intro k'
        rw [add_cell, add_cell, hk, h k']
      refine ⟨hcell, ?_⟩
      simp only [apply, h k, hcell k]
  | remove k s =>
    have hcell : ∀ k', (x.remove k s).cell k' = (x'.remove k s).cell k' := by
      intro k'
      rw [remove_cell, remove_cell, h k, h k']
    refine iff_of_true ⟨hcell, ?_⟩ not_false
    simp only [apply, h k, hcell k]
  | clear s =>
    simp only [TellsApart, not_not]
    constructor
    · rintro ⟨-, hs⟩
      exact decide_eq_decide.mp hs
    · intro hs
      refine ⟨fun k => ?_, decide_eq_decide.mpr hs⟩
      simp only [apply, clear_cell, clearCell, hs, h k]

theorem set_step_congruence_iff {a b : LWWSet Key U} (h : a.crdtEqual b = true) (o : Op Key U) :
    ((a.apply o).1.crdtEqual (b.apply o).1 = true ∧ (a.apply o).2 = (b.apply o).2) ↔
      ¬ a.cells.TellsApart b.cells o := by
  obtain ⟨ha, hra⟩ := LWWSet.cells_apply a o
  obtain ⟨hb, hrb⟩ := LWWSet.cells_apply b o
  rw [LWWSet.crdtEqual_iff, hra, hrb, ← Cells.apply_alike_iff (LWWSet.crdtEqual_iff.mp h), ← ha, ← hb]
  exact Iff.rfl

theorem set_congruence_iff {a b : LWWSet Key U} (h : a.crdtEqual b = true) :
    (StepAlike LWWSet.crdtEqual LWWSet.apply a b ↔ a.lastClearTime = b.lastClearTime) ∧
      (RunAlike LWWSet.crdtEqual LWWSet.apply a b ↔ a.lastClearTime = b.lastClearTime) := by
  refine congruence_iff (I := fun _ _ => True) (E := fun a b : LWWSet Key U => a.crdtEqual b = true)
    (K := fun a b => a.lastClearTime = b.lastClearTime) (fun _ _ _ _ => trivial)
    (fun a b o _ hE hK => ?_) (fun a b _ _ hr => ?_) trivial h
  · have hcells : a.cells = b.cells := Cells.ext hK (funext (LWWSet.crdtEqual_iff.mp hE))
    obtain ⟨ha, hra⟩ := LWWSet.cells_apply a o
    obtain ⟨hb, hrb⟩ := LWWSet.cells_apply b o
    have hafter : (a.apply o).1.cells = (b.apply o).1.cells := by rw [ha, hb, hcells]
    refine ⟨LWWSet.crdtEqual_iff.mpr fun k => congrFun (congrArg Cells.cell hafter) k,
      congrArg Cells.clearTime hafter, ?_⟩
    rw [hra, hrb, hcells]
  · refine eq_of_decide_lt fun s => ?_
    rw [← LWWSet.clear_snd, ← LWWSet.clear_snd]
    exact hr (.clear s)

/-! ### Maps -/

section Map

variable [Zero U] [Inhabited T] [BEq T]

omit [Zero U] in
theorem map_crdtEqual_iff (hT : ((default : T) == default) = true) {m m' : LWWMap Key T U} :
    m.crdtEqual m' = true ↔ (∀ k, m.cells.cell k = m'.cells.cell k) ∧
      ∀ k, ((m.valueOf k).getD default == (m'.valueOf k).getD default) = true := by
  rw [LWWMap.crdtEqual_iff, ← forall_and]
  refine forall_congr' fun k => and_congr_right fun hk => ?_
  have hnone : m.valueOf k = none ↔ m'.valueOf k = none := by
    rw [LWWMap.valueOf_eq_none, LWWMap.valueOf_eq_none, hk]
  cases hv : m.valueOf k with
  | none =>
    rw [hnone.mp hv]
    exact iff_of_true Option.Rel.none hT
  | some v =>
    cases hv' : m'.valueOf k with
    | none => cases hv.symm.trans (hnone.mpr hv')
    | some v' => rw [Option.rel_some_some, Option.getD_some, Option.getD_some]

theorem map_congruence_iff (hT : ((default : T) == default) = true) {a b : LWWMap Key T U}
    (h : a.crdtEqual b = true) :
    (StepAlike LWWMap.crdtEqual LWWMap.apply a b ↔ a.lastClearTime = b.lastClearTime) ∧
      (RunAlike LWWMap.crdtEqual LWWMap.apply a b ↔ a.lastClearTime = b.lastClearTime) := by
  refine congruence_iff (I := fun _ _ => True)
    (E := fun a b : LWWMap Key T U => a.crdtEqual b = true)
    (K := fun a b => a.lastClearTime = b.lastClearTime) (fun _ _ _ _ => trivial)
    (fun a b o _ hE hK => ?_) (fun a b _ _ hr => ?_) trivial h
  · obtain ⟨hcell, hvalue⟩ := (map_crdtEqual_iff hT).mp hE
    have hcells : a.cells = b.cells := Cells.ext hK (funext hcell)
    obtain ⟨ha, hra⟩ := LWWMap.cells_apply a o
    obtain ⟨hb, hrb⟩ := LWWMap.cells_apply b o
    have hafter : (a.apply o).1.cells = (b.apply o).1.cells := by rw [ha, hb, hcells]
    refine ⟨(map_crdtEqual_iff hT).mpr ⟨fun k => congrFun (congrArg Cells.cell hafter) k,
      fun k => ?_⟩, congrArg Cells.clearTime hafter, ?_⟩
    · rw [LWWMap.getD_valueOf_apply, LWWMap.getD_valueOf_apply]
      exact hvalue k
    · rw [hra, hrb, hcells]
  · refine eq_of_decide_lt fun s => ?_
    rw [← LWWMap.clear_snd, ← LWWMap.clear_snd]
    exact hr (.clear s)

theorem map_step_congruence_iff (hT : ((default : T) == default) = true) {a b : LWWMap Key T U}
    (h : a.crdtEqual b = true) (o : Op Key U) :
    ((a.apply o).1.crdtEqual (b.apply o).1 = true ∧ (a.apply o).2 = (b.apply o).2) ↔
      ¬ a.cells.TellsApart b.cells o := by
  obtain ⟨hcell, hvalue⟩ := (map_crdtEqual_iff hT).mp h
  obtain ⟨ha, hra⟩ := LWWMap.cells_apply a o
  obtain ⟨hb, hrb⟩ := LWWMap.cells_apply b o
  rw [map_crdtEqual_iff hT, hra, hrb, ← Cells.apply_alike_iff hcell, ha, hb]
  refine and_congr_left fun _ => and_iff_left fun k => ?_
  rw [LWWMap.getD_valueOf_apply, LWWMap.getD_valueOf_apply]
  exact hvalue k

end Map

end CollabDatatypes.Container
