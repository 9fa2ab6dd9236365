import CollabDatatypes.Container.Map
import CollabDatatypes.Container.History
import CollabDatatypes.Lib.Stamp

/-! # When the time of the last clear bounds what is visible

A visible key should be newer than the last clear, in every state: no `add` at or before a clear is
ever to be seen once the clear was delivered. An `add` of a new key asks the time of the last clear.
An `add` of a key with an entry asks the entry only, and a `remove` that arrived first has left one
with its own stamp, which may be older than the clear. `AddsStale` is the step that slips through; no
other one does: `clearTime_iff`. -/

namespace CollabDatatypes.Container

open CollabDatatypes.Lib CollabDatatypes.CmRDT

variable {Key T U : Type*} [LinearOrder U]

namespace Cells

/-- Every visible key is newer than the last clear. -/
def NewerThanClear (x : Cells Key U) : Prop := ∀ k t, x.cell k = some ⟨t, false⟩ → x.clearTime < t

/-- The operation is an `add` newer than the entry of its key, but not than the last clear. -/
def AddsStale (x : Cells Key U) (o : Op Key U) : Prop :=
  ∃ k s e, o = .add k s ∧ x.cell k = some e ∧ e.timestamp < s ∧ s ≤ x.clearTime

variable [DecidableEq Key]

theorem not_newer_of_addsStale {x : Cells Key U} {o : Op Key U} (h : AddsStale x o) :
    ¬ NewerThanClear (x.apply o).1 := by
  obtain ⟨k, s, e, rfl, he, hlt, hle⟩ := h
  intro hP
  refine absurd (hP k s ?_) hle.not_gt
  refine (add_cell_self x k s).trans (congrArg some ?_)
  rw [he]
  exact addCell_of_applies hlt

variable [Zero U] {d : List (Op Key U)} {o : Op Key U}

theorem newer_step (h : Stamped Op.stamp (d ++ [o])) (hP : NewerThanClear ((machine Key U).run d))
    (hbad : ¬ AddsStale ((machine Key U).run d) o) :
    NewerThanClear ((machine Key U).run (d ++ [o])) := by
  intro k t ht
  have hadd := live_mem ht
  rw [Machine.run_concat] at ht ⊢
  rcases entry_step ht with hx | ⟨rfl, -, ha⟩ | ⟨-, hr⟩ | ⟨-, hr, -⟩ | ⟨s, -, -, -, he⟩
  · have hlt := hP k t hx
    rcases o with ⟨k', s⟩ | ⟨k', s⟩ | s
    · exact hlt
    · exact hlt
    · refine max_lt hlt ?_
      by_cases hs : ((machine Key U).run d).clearTime < s
      · -- the key survived the clear, and an add does not share its stamp
        exact h.lt_of_le_of_ne (a := .clear s) (b := .add k t) (by simp) hadd (le_of_clear hs ht)
          (by simp)
      · exact (not_lt.mp hs).trans_lt hlt
  · show ((machine Key U).run d).clearTime < t
    cases hx : ((machine Key U).run d).cell k with
    | none =>
      rw [hx] at ha
      exact ha
    | some e =>
      rw [hx] at ha
      by_contra hle
      exact hbad ⟨k, t, e, rfl, hx, ha, not_lt.mp hle⟩
  · cases hr
  · cases hr
  · cases he

theorem newer_iff (h : Stamped Op.stamp d) :
    (∀ p, p <+: d → NewerThanClear ((machine Key U).run p)) ↔
      ∀ p o q, d = p ++ o :: q → ¬ AddsStale ((machine Key U).run p) o := by
  refine Machine.always_iff (C := fun p => Stamped Op.stamp p)
    (P := fun p => NewerThanClear ((machine Key U).run p))
    (B := fun p o => AddsStale ((machine Key U).run p) o) (fun p o hC => hC.of_append) ?_
    (fun p o hs hP hbad => newer_step hs hP hbad) ?_ h
  · intro k t ht
    cases ht
  · intro p o _ hbad
    rw [Machine.run_concat]
    exact not_newer_of_addsStale hbad

theorem hidden_of_newer (hP : NewerThanClear ((machine Key U).run d)) {c : U} {k : Key}
    (hc : .clear c ∈ d) (ha : ∀ a, .add k a ∈ d → a ≤ c) :
    live (((machine Key U).run d).cell k) = false := by
  rw [← Bool.not_eq_true]
  intro hl
  obtain ⟨t, ht⟩ := live_iff.mp hl
  exact absurd ((clear_le hc).trans_lt (hP k t ht)) (ha t (live_mem ht)).not_gt

end Cells

end CollabDatatypes.Container

namespace CollabDatatypes.CmRDT

open CollabDatatypes.Lib CollabDatatypes.Container

variable {Key T U : Type*} [DecidableEq Key]

namespace LWWSet

theorem count_eq_zero (s : LWWSet Key U) (k : Key) :
    s.count k = 0 ↔ live (s.cells.cell k) = false := by
  unfold count
  rw [isSome_find, cells_cell]
  cases live (s.map.lookup k) <;> simp

variable [LinearOrder U]

/-- Every key that is not marked removed is newer than the last clear, and no key is visible whose
adds are all at or before a clear of `d`. -/
def ClearBounds (d : List (Op Key U)) (s : LWWSet Key U) : Prop :=
  (∀ k e, s.crdtFind k = some e → e.isRemoved = false → s.lastClearTime < e.timestamp) ∧
    ∀ c k, .clear c ∈ d → (∀ a, .add k a ∈ d → a ≤ c) → s.count k = 0

theorem newer_of_clearBounds {d : List (Op Key U)} {s : LWWSet Key U} (h : s.ClearBounds d) :
    s.cells.NewerThanClear := fun k t ht => h.1 k ⟨t, false⟩ ht rfl

theorem clearBounds_run [Zero U] {d : List (Op Key U)} :
    ((machine Key U).run d).ClearBounds d ↔ ((Cells.machine Key U).run d).NewerThanClear := by
  rw [← cells_run]
  refine ⟨newer_of_clearBounds, fun hP => ⟨?_, fun c k hc ha => ?_⟩⟩
  · rintro k ⟨t, b⟩ he hb
    obtain rfl : b = false := hb
    exact hP k t he
  · rw [count_eq_zero, cells_run]
    rw [cells_run] at hP
    exact Cells.hidden_of_newer hP hc ha

end LWWSet

namespace LWWMap

theorem count_eq_zero (m : LWWMap Key T U) (k : Key) :
    m.count k = 0 ↔ live (m.cells.cell k) = false := by
  unfold count
  rw [isSome_find]
  cases live (m.cells.cell k) <;> simp

variable [LinearOrder U]

/-- The same for a map. -/
def ClearBounds (d : List (Op Key U)) (m : LWWMap Key T U) : Prop :=
  (∀ k e, m.crdtFind k = some e → e.isRemoved = false → m.lastClearTime < e.timestamp) ∧
    ∀ c k, .clear c ∈ d → (∀ a, .add k a ∈ d → a ≤ c) → m.count k = 0

theorem newer_of_clearBounds {d : List (Op Key U)} {m : LWWMap Key T U} (h : m.ClearBounds d) :
    m.cells.NewerThanClear := by
  intro k t ht
  rw [cells_cell] at ht
  obtain ⟨e, he, hm⟩ := Option.map_eq_some_iff.mp ht
  have hlt := h.1 k e he (congrArg Metadata.isRemoved hm)
  rwa [show e.timestamp = t from congrArg Metadata.timestamp hm] at hlt

theorem clearBounds_run [Zero U] [Inhabited T] {d : List (Op Key U)} :
    ((machine Key T U).run d).ClearBounds d ↔ ((Cells.machine Key U).run d).NewerThanClear := by
  rw [← cells_run (T := T)]
  refine ⟨newer_of_clearBounds, fun hP => ⟨?_, fun c k hc ha => ?_⟩⟩
  · rintro k e he hb
    refine hP k e.timestamp ?_
    rw [cells_cell, show ((machine Key T U).run d).map.lookup k = some e from he, ← hb]
    rfl
  · rw [count_eq_zero, cells_run]
    rw [cells_run] at hP
    exact Cells.hidden_of_newer hP hc ha

end LWWMap

end CollabDatatypes.CmRDT

namespace CollabDatatypes.Container

open CollabDatatypes.Lib CollabDatatypes.CmRDT

variable {Key T U : Type*} [DecidableEq Key] [LinearOrder U] [Zero U] [Inhabited T]

/-- **When the time of the last clear bounds what is visible**, in every state of a run: exactly when
no `add` of the run slips through. -/
theorem clearTime_iff {d : List (Op Key U)} (h : Stamped Op.stamp d) :
    ((∀ p, p <+: d → ((LWWSet.machine Key U).run p).ClearBounds p) ↔
      ∀ p o q, d = p ++ o :: q → ¬ Cells.AddsStale ((LWWSet.machine Key U).run p).cells o) ∧
    ((∀ p, p <+: d → ((LWWMap.machine Key T U).run p).ClearBounds p) ↔
      ∀ p o q, d = p ++ o :: q → ¬ Cells.AddsStale ((LWWMap.machine Key T U).run p).cells o) := by
  simp only [LWWSet.clearBounds_run, LWWMap.clearBounds_run, LWWSet.cells_run, LWWMap.cells_run]
  exact ⟨Cells.newer_iff h, Cells.newer_iff h⟩

theorem clearTime_iff_late_add :
    ((∀ p, p <+: [Op.clear 5, .add 0 3] → ((LWWSet.machine ℕ ℕ).run p).ClearBounds p) ↔
      ∀ p o q, [Op.clear 5, .add 0 3] = p ++ o :: q →
        ¬ Cells.AddsStale ((LWWSet.machine ℕ ℕ).run p).cells o) ∧
    ((∀ p, p <+: [Op.clear 5, .add 0 3] → ((LWWMap.machine ℕ ℕ ℕ).run p).ClearBounds p) ↔
      ∀ p o q, [Op.clear 5, .add 0 3] = p ++ o :: q →
        ¬ Cells.AddsStale ((LWWMap.machine ℕ ℕ ℕ).run p).cells o) :=
  clearTime_iff (by decide)

/-- A clear at 10, a remove at 1, an add at 3: the add passes over the tombstone of the remove. -/
theorem stale_add_visible :
    Stamped Op.stamp [Op.clear 10, .remove 0 1, .add 0 3] ∧
    ¬ ((LWWSet.machine ℕ ℕ).run [Op.clear 10, .remove 0 1, .add 0 3]).ClearBounds
      [.clear 10, .remove 0 1, .add 0 3] ∧
    ¬ ((LWWMap.machine ℕ ℕ ℕ).run [Op.clear 10, .remove 0 1, .add 0 3]).ClearBounds
      [.clear 10, .remove 0 1, .add 0 3] := by
  refine ⟨by decide, fun h => ?_, fun h => ?_⟩
  · exact absurd (h.2 10 0 (by simp) (by simp)) (by decide)
  · exact absurd (h.2 10 0 (by simp) (by simp)) (by decide)

end CollabDatatypes.Container
