import CollabDatatypes.Container.Map
import CollabDatatypes.Container.Schedules

/-! # When the containers converge

A key should be visible when an `add` of it is newer than every `remove` of it and every `clear`
(`LastWins`). It is, after every delivery, with one exception: a `remove` that arrives at a set
without the key leaves a tombstone with its own time even when a newer `clear` was seen, and an
older `add` then passes where the `clear` alone would have stopped it. `Diverges` says when the
operations of a collection allow that: with distinct stamps, these keys are the ones that may show and
were not added last (`diverges_iff`), so schedules for both outcomes are known. The collection converges
when there are none. -/

namespace CollabDatatypes.Container

open CollabDatatypes.Lib CollabDatatypes.CmRDT

variable {Key T U : Type*} [LinearOrder U]

/-- The newest `add` of `k` is newer than every `remove` of `k`, of which there is one, and older
than some `clear`. -/
def Diverges (ops : List (Op Key U)) (k : Key) : Prop :=
  ∃ a r c, Newest Op.stamp (Adds k) ops (.add k a) ∧ .remove k r ∈ ops ∧
    (∀ r', .remove k r' ∈ ops → r' < a) ∧ .clear c ∈ ops ∧ a < c

/-- With distinct stamps, a key diverges exactly when it may show and was not added last. -/
theorem diverges_iff [Zero U] {ops : List (Op Key U)} (h : Stamped Op.stamp ops) {k : Key} :
    Diverges ops k ↔ MayShow ops k ∧ ¬ LastWins Op.stamp (Adds k) (Kills k) ops := by
  constructor
  · rintro ⟨a, r, c, ha, hr, hrem, hc, hac⟩
    refine ⟨⟨a, ⟨ha.1, Or.inl ha.2.1, ?_⟩, Or.inr ⟨r, hr, hrem r hr⟩⟩, ?_⟩
    · rintro o ho (hadd | ⟨s, rfl⟩)
      · exact ha.2.2 o ho hadd
      · exact (hrem s ho).le
    · rw [lastWins_iff_newest ha]
      exact fun hall => lt_asymm hac (hall _ hc (Or.inr ⟨c, rfl⟩))
  · rintro ⟨⟨s, ⟨ha, -, hmax⟩, hor⟩, hw⟩
    have hnew : Newest Op.stamp (Adds k) ops (.add k s) :=
      ⟨ha, ⟨s, rfl⟩, fun o ho hadd => hmax o ho (Or.inl hadd)⟩
    have hlt : ∀ o ∈ ops, o.stamp ≤ s → o ≠ .add k s → o.stamp < s :=
      fun o ho hle hne => h.lt_of_le_of_ne ho ha hle hne
    have hrem : ∀ r, .remove k r ∈ ops → r < s := fun r hr =>
      hlt _ hr (hmax _ hr (Or.inr ⟨r, rfl⟩)) (by simp)
    rw [lastWins_iff_newest hnew] at hw
    push Not at hw
    obtain ⟨_, hc, ⟨r, rfl⟩ | ⟨c, rfl⟩, hle⟩ := hw
    · exact absurd (hrem r hc) hle.not_gt
    · have hsc : s < c := lt_of_le_of_ne hle fun he => by cases h.inj _ ha _ hc he
      obtain ⟨r, hr, -⟩ := hor.resolve_left fun hall => (hall c hc).not_gt hsc
      exact ⟨s, r, c, hnew, hr, hrem, hc, hsc⟩

theorem Cells.exists_live_and_dead_iff [DecidableEq Key] [Zero U] {ops : List (Op Key U)} {k : Key}
    (h : Stamped Op.stamp ops) :
    ((∃ d, Machine.Delivers ops d ∧ live (((machine Key U).run d).cell k) = true) ∧
      ∃ d, Machine.Delivers ops d ∧ ¬ live (((machine Key U).run d).cell k) = true) ↔
      Diverges ops k := by
  have hpos : Positive ops := Positive.of_pos h.pos
  rw [diverges_iff h]
  constructor
  · rintro ⟨⟨d₁, h₁, hl⟩, d₂, h₂, hn⟩
    refine ⟨(MayShow.congr h₁ k).mp (mayShow_of_live hl), fun hw => hn ?_⟩
    exact live_of_lastWriter (hpos.of_delivers h₂) ((LastWins.congr h₂).mpr hw)
  · rintro ⟨hk, hw⟩
    obtain ⟨d, d', hd, hd', hl, hdead⟩ := exists_live_and_dead hpos hk hw
    exact ⟨⟨d, hd, hl⟩, d', hd', hdead⟩

/-! ### The two containers -/

section Containers

variable [DecidableEq Key] [Zero U] {ops : List (Op Key U)}

theorem set_convergesOn_iff (h : Stamped Op.stamp ops) :
    (LWWSet.machine Key U).ConvergesOn (fun a b => (a == b) = true) ops ↔
      ∀ k, ¬ Diverges ops k := by
  rw [Machine.convergesOn_iff (O := fun k (s : LWWSet Key U) => live (s.cells.cell k) = true)]
  · refine forall_congr' fun k => not_congr ?_
    simp only [LWWSet.cells_run]
    exact Cells.exists_live_and_dead_iff h
  · intro d₁ d₂
    rw [LWWSet.beq_iff (LWWSet.counted_run d₁) (LWWSet.counted_run d₂)]
    exact forall_congr' fun k => Bool.eq_iff_iff

variable [Inhabited T]

theorem visible_run (d : List (Op Key U)) (k : Key) :
    ((LWWMap.machine Key T U).run d).visible k =
      if live (((LWWMap.machine Key T U).run d).cells.cell k) then some default else none := by
  unfold LWWMap.visible
  split_ifs with hl
  · cases hv : ((LWWMap.machine Key T U).run d).valueOf k with
    | none =>
      rw [LWWMap.valueOf_eq_none] at hv
      rw [hv] at hl
      cases hl
    | some v =>
      have hdefault := LWWMap.getD_valueOf_run (T := T) d k
      rw [hv, Option.getD_some] at hdefault
      rw [hdefault]
  · rfl

theorem map_convergesOn_iff [BEq T] (hT : ((default : T) == default) = true)
    (h : Stamped Op.stamp ops) :
    (LWWMap.machine Key T U).ConvergesOn (fun a b => (a == b) = true) ops ↔
      ∀ k, ¬ Diverges ops k := by
  rw [Machine.convergesOn_iff (O := fun k (m : LWWMap Key T U) => live (m.cells.cell k) = true)]
  · refine forall_congr' fun k => not_congr ?_
    simp only [LWWMap.cells_run]
    exact Cells.exists_live_and_dead_iff h
  · intro d₁ d₂
    rw [LWWMap.beq_iff (LWWMap.counted_run d₁) (LWWMap.counted_run d₂)]
    refine forall_congr' fun k => ?_
    rw [visible_run, visible_run]
    cases live (((LWWMap.machine Key T U).run d₁).cells.cell k) <;>
      cases live (((LWWMap.machine Key T U).run d₂).cells.cell k) <;> simp [hT]

/-- **When the two containers converge**: when no key diverges. The default value has to equal
itself. -/
theorem containers_convergeOn_iff [BEq T] (hT : ((default : T) == default) = true)
    (h : Stamped Op.stamp ops) :
    ((LWWSet.machine Key U).ConvergesOn (fun a b => (a == b) = true) ops ↔
      ∀ k, ¬ Diverges ops k) ∧
    ((LWWMap.machine Key T U).ConvergesOn (fun a b => (a == b) = true) ops ↔
      ∀ k, ¬ Diverges ops k) :=
  ⟨set_convergesOn_iff h, map_convergesOn_iff hT h⟩

end Containers

theorem containers_convergeOn_add_remove_clear :
    ((LWWSet.machine ℕ ℕ).ConvergesOn (fun a b => (a == b) = true)
        [.add 0 3, .remove 0 1, .clear 2] ↔
      ∀ k, ¬ Diverges [Op.add 0 3, .remove 0 1, .clear 2] k) ∧
    ((LWWMap.machine ℕ ℕ ℕ).ConvergesOn (fun a b => (a == b) = true)
        [.add 0 3, .remove 0 1, .clear 2] ↔
      ∀ k, ¬ Diverges [Op.add 0 3, .remove 0 1, .clear 2] k) :=
  containers_convergeOn_iff (by decide) (by decide)

/-- A clear at 5, a remove at 1 and an add at 3: the key is visible when they arrive in this order,
and not when the remove arrives last. -/
theorem containers_diverge :
    Stamped Op.stamp [Op.clear 5, .remove 0 1, .add 0 3] ∧
    ¬ (LWWSet.machine ℕ ℕ).ConvergesOn (fun a b => (a == b) = true)
      [.clear 5, .remove 0 1, .add 0 3] ∧
    ¬ (LWWMap.machine ℕ ℕ ℕ).ConvergesOn (fun a b => (a == b) = true)
      [.clear 5, .remove 0 1, .add 0 3] := by
  refine ⟨by decide, fun h => ?_, fun h => ?_⟩
  · exact absurd (h [.clear 5, .remove 0 1, .add 0 3] [.clear 5, .add 0 3, .remove 0 1] (by decide)
      (by decide)) (by decide)
  · exact absurd (h [.clear 5, .remove 0 1, .add 0 3] [.clear 5, .add 0 3, .remove 0 1] (by decide)
      (by decide)) (by decide)

end CollabDatatypes.Container
