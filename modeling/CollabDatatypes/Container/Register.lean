import CollabDatatypes.Lib.Stamp
import CollabDatatypes.CmRDT.LWWRegister

/-! # The register holds the newest write

The stamp of a register is the greatest of those delivered to it, or `0` (`timestamp_run_lt`), and
its value is that of an update with this stamp (`run_newest`). Both hold of any updates, by induction
over the delivery. When distinct updates carry distinct stamps, the greatest stamp names one update,
whatever the order and the number of the deliveries: `register_converges`. -/

namespace CollabDatatypes.CmRDT.LWWRegister

open CollabDatatypes.Lib

variable {T U : Type*} [LinearOrder U]

theorem apply_cases (r : LWWRegister T U) (o : Update T U) :
    (r.timestamp < o.stamp ∧ r.apply o = (⟨o.value, o.stamp⟩, true)) ∨
      (o.stamp ≤ r.timestamp ∧ r.apply o = (r, false)) := by
  rcases lt_or_ge r.timestamp o.stamp with h | h
  · exact Or.inl ⟨h, if_pos h⟩
  · exact Or.inr ⟨h, if_neg h.not_gt⟩

theorem apply_result (r : LWWRegister T U) (o : Update T U) :
    (r.apply o).2 = true ↔ r.timestamp < o.stamp := by
  rcases r.apply_cases o with ⟨h, he⟩ | ⟨h, he⟩
  · rw [he]
    exact iff_of_true rfl h
  · rw [he]
    exact iff_of_false Bool.false_ne_true h.not_gt

theorem timestamp_apply (r : LWWRegister T U) (o : Update T U) :
    (r.apply o).1.timestamp = max r.timestamp o.stamp := by
  rcases r.apply_cases o with ⟨h, he⟩ | ⟨h, he⟩
  · rw [he, max_eq_right h.le]
  · rw [he, max_eq_left h]

/-- **`crdt_equal`** compares the stamps besides the values that `operator==` compares. -/
theorem crdtEqual_iff [BEq T] {r r' : LWWRegister T U} :
    r.crdtEqual r' = true ↔ (r == r') = true ∧ r.timestamp = r'.timestamp := by
  show (r.reg == r'.reg && decide (r.timestamp = r'.timestamp)) = true ↔ (r.reg == r'.reg) = true ∧ _
  rw [Bool.and_eq_true, decide_eq_true_eq]

variable [Zero U]

theorem timestamp_run_lt (reg : T) (d : List (Update T U)) (s : U) :
    ((machine U reg).run d).timestamp < s ↔ 0 < s ∧ ∀ o ∈ d, o.stamp < s := by
  induction d using List.reverseRecOn with
  | nil => exact ⟨fun h => ⟨h, by simp⟩, fun h => h.1⟩
  | append_singleton d o ih =>
    rw [Machine.run_concat]
    show (((machine U reg).run d).apply o).1.timestamp < s ↔ _
    rw [timestamp_apply, max_lt_iff, ih, and_assoc]
    simp only [List.forall_mem_append, List.forall_mem_singleton]

/-- **The register holds the newest write**, once there is one above `0`. -/
theorem run_newest (reg : T) {d : List (Update T U)} (h : ∃ o ∈ d, 0 < o.stamp) :
    ∃ o, Newest Update.stamp (fun _ => True) d o ∧
      (machine U reg).run d = ⟨o.value, o.stamp⟩ := by
  induction d using List.reverseRecOn with
  | nil => simp at h
  | append_singleton d o ih =>
    rw [Machine.run_concat]
    have hlt := timestamp_run_lt reg d
    rcases ((machine U reg).run d).apply_cases o with ⟨hs, he⟩ | ⟨hs, he⟩
    · refine ⟨o, ⟨by simp, trivial, fun o' ho' _ => ?_⟩, congrArg Prod.fst he⟩
      rcases List.mem_append.mp ho' with ho' | ho'
      · exact (((hlt o.stamp).mp hs).2 o' ho').le
      · exact (congrArg Update.stamp (List.mem_singleton.mp ho')).le
    · -- a write that comes too late: the newest one is among the earlier ones
      have hd : ∃ o' ∈ d, 0 < o'.stamp := by
        obtain ⟨o', ho', hpos⟩ := h
        rcases List.mem_append.mp ho' with ho' | ho'
        · exact ⟨o', ho', hpos⟩
        · obtain rfl := List.mem_singleton.mp ho'
          by_contra hno
          push Not at hno
          exact hs.not_gt ((hlt _).mpr ⟨hpos, fun o hod => (hno o hod).trans_lt hpos⟩)
      obtain ⟨a, ⟨ha, -, hmax⟩, hrun⟩ := ih hd
      refine ⟨a, ⟨List.mem_append_left _ ha, trivial, fun o' ho' _ => ?_⟩,
        (congrArg Prod.fst he).trans hrun⟩
      rcases List.mem_append.mp ho' with ho' | ho'
      · exact hmax o' ho' trivial
      · rw [hrun] at hs
        exact (congrArg Update.stamp (List.mem_singleton.mp ho')).trans_le hs

/-! ### Convergence -/

section Delivery

variable {ops d : List (Update T U)} {a : Update T U}

theorem run_of_delivers (hs : Stamped Update.stamp ops)
    (ha : Newest Update.stamp (fun _ => True) ops a) (hd : Machine.Delivers ops d) (reg : T) :
    (machine U reg).run d = ⟨a.value, a.stamp⟩ := by
  obtain ⟨b, ⟨hb, -, hmax⟩, hrun⟩ := run_newest reg ⟨a, (hd a).mpr ha.1, hs.pos a ha.1⟩
  have hba : b = a := hs.inj b ((hd b).mp hb) a ha.1
    (le_antisymm (ha.2.2 b ((hd b).mp hb) trivial) (hmax a ((hd a).mpr ha.1) trivial))
  rw [hrun, hba]

theorem apply_result_of_delivers (hs : Stamped Update.stamp ops) (hd : Machine.Delivers ops d)
    (reg : T) {p q : List (Update T U)} {o : Update T U} (he : d = p ++ o :: q) :
    (((machine U reg).run p).apply o).2 = true ↔ ∀ o' ∈ p, o'.stamp < o.stamp := by
  rw [apply_result, timestamp_run_lt]
  exact and_iff_right (hs.pos o ((hd o).mp (by rw [he]; simp)))

end Delivery

/-- **The register converges to the newest write**: however the updates of a collection under the
contract are delivered, and whatever a new register holds, the replicas end with the value and the
stamp of the newest update, and an update succeeds when it is newer than all those before it. -/
theorem register_converges [BEq T] [ReflBEq T] {ops : List (Update T U)} (hne : ops ≠ [])
    (hs : Stamped Update.stamp ops) :
    ∃ a, Newest Update.stamp (fun _ => True) ops a ∧
      (∀ reg d, Machine.Delivers ops d →
        ((machine U reg).run d).query = a.value ∧ ((machine U reg).run d).timestamp = a.stamp) ∧
      (∀ reg reg' d d', Machine.Delivers ops d → Machine.Delivers ops d' →
        ((machine U reg).run d).crdtEqual ((machine U reg').run d') = true) ∧
      ∀ reg d, Machine.Delivers ops d → ∀ p o q, d = p ++ o :: q →
        ((((machine U reg).run p).apply o).2 = true ↔ ∀ o' ∈ p, o'.stamp < o.stamp) := by
  obtain ⟨o, ho⟩ := List.exists_mem_of_ne_nil ops hne
  obtain ⟨a, ha⟩ := exists_newest Update.stamp (p := fun _ => True) ⟨o, ho, trivial⟩
  refine ⟨a, ha, fun reg d hd => ?_, fun reg reg' d d' hd hd' => ?_, fun reg d hd p o q he => ?_⟩
  · rw [run_of_delivers hs ha hd reg]
    exact ⟨rfl, rfl⟩
  · rw [run_of_delivers hs ha hd reg, run_of_delivers hs ha hd' reg', crdtEqual_iff]
    exact ⟨BEq.rfl (a := a.value), rfl⟩
  · exact apply_result_of_delivers hs hd reg he

theorem register_converges_two :
    ∃ a, Newest Update.stamp (fun _ => True) [(⟨10, 2⟩ : Update ℕ ℕ), ⟨20, 1⟩] a ∧
      (∀ reg d, Machine.Delivers [(⟨10, 2⟩ : Update ℕ ℕ), ⟨20, 1⟩] d →
        ((machine ℕ reg).run d).query = a.value ∧ ((machine ℕ reg).run d).timestamp = a.stamp) ∧
      (∀ reg reg' d d', Machine.Delivers [(⟨10, 2⟩ : Update ℕ ℕ), ⟨20, 1⟩] d →
        Machine.Delivers [(⟨10, 2⟩ : Update ℕ ℕ), ⟨20, 1⟩] d' →
        ((machine ℕ reg).run d).crdtEqual ((machine ℕ reg').run d') = true) ∧
      ∀ reg d, Machine.Delivers [(⟨10, 2⟩ : Update ℕ ℕ), ⟨20, 1⟩] d → ∀ p o q, d = p ++ o :: q →
        ((((machine ℕ reg).run p).apply o).2 = true ↔ ∀ o' ∈ p, o'.stamp < o.stamp) :=
  register_converges (by decide) (by decide)

end CollabDatatypes.CmRDT.LWWRegister
