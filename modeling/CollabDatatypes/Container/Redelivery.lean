import CollabDatatypes.Container.Writes
import CollabDatatypes.Container.History

/-! # Delivering an operation again

Nothing is assumed of the timestamps. Once an `add` or a `remove` was delivered, its key has an entry
at least as new, for good (`Cells.le_cell`), and once a `clear` was, the time of the last clear is at
least as new (`Cells.clear_le`). A second delivery finds that and stops: it returns `false`, and not a
single entry, value or counter changes. -/

namespace CollabDatatypes.CmRDT

open CollabDatatypes.Lib CollabDatatypes.Container

variable {Key T U : Type*} [DecidableEq Key] [LinearOrder U]

namespace LWWSet

theorem apply_of_named {s : LWWSet Key U} {k : Key} {e : Metadata U} (he : s.map.lookup k = some e)
    {o : Op Key U} (hn : Names k o) (hle : o.stamp ≤ e.timestamp) : s.apply o = (s, false) := by
  rcases hn with ⟨stamp, rfl⟩ | ⟨stamp, rfl⟩
  · show s.add k stamp = _
    unfold add
    rw [he]
    exact if_neg (not_lt.mpr hle)
  · show s.remove k stamp = _
    unfold remove
    rw [he]
    exact if_neg (not_lt.mpr hle)

theorem apply_redelivered [Zero U] {d : List (Op Key U)} {o : Op Key U} (ho : o ∈ d) :
    ((machine Key U).run d).apply o = ((machine Key U).run d, false) := by
  have hnamed : ∀ k, Names k o →
      ((machine Key U).run d).apply o = ((machine Key U).run d, false) := by
    intro k hk
    obtain ⟨e, he, hle⟩ := Cells.le_cell ho hk
    rw [← cells_run] at he
    exact apply_of_named he hk hle
  cases o with
  | add k stamp => exact hnamed k (Or.inl ⟨stamp, rfl⟩)
  | remove k stamp => exact hnamed k (Or.inr ⟨stamp, rfl⟩)
  | clear stamp =>
    have hle := Cells.clear_le ho
    rw [← cells_run] at hle
    exact if_neg (not_lt.mpr hle)

end LWWSet

namespace LWWMap

variable [Zero U] [Inhabited T]

theorem apply_of_named {m : LWWMap Key T U} {k : Key} {e : Element T U}
    (he : m.map.lookup k = some e) {o : Op Key U} (hn : Names k o) (hle : o.stamp ≤ e.timestamp) :
    m.apply o = (m, false) := by
  rcases hn with ⟨stamp, rfl⟩ | ⟨stamp, rfl⟩
  · show m.add k stamp = _
    unfold add
    rw [he]
    exact if_neg (not_lt.mpr hle)
  · show m.remove k stamp = _
    unfold remove
    rw [he]
    exact if_neg (not_lt.mpr hle)

theorem apply_redelivered {l : List (Access Key T U)} {o : Op Key U} (ho : .modifier o ∈ l) :
    ((userMachine Key T U).run l).apply o = ((userMachine Key T U).run l, false) := by
  have hmem : o ∈ l.filterMap Access.asModifier := List.mem_filterMap.mpr ⟨_, ho, rfl⟩
  have hnamed : ∀ k, Names k o →
      ((userMachine Key T U).run l).apply o = ((userMachine Key T U).run l, false) := by
    intro k hk
    obtain ⟨e, he, hle⟩ := Cells.le_cell hmem hk
    rw [← cells_userRun, cells_cell] at he
    obtain ⟨e', he', rfl⟩ := Option.map_eq_some_iff.mp he
    exact apply_of_named he' hk hle
  cases o with
  | add k stamp => exact hnamed k (Or.inl ⟨stamp, rfl⟩)
  | remove k stamp => exact hnamed k (Or.inr ⟨stamp, rfl⟩)
  | clear stamp =>
    have hle := Cells.clear_le hmem
    rw [← cells_userRun] at hle
    exact if_neg (not_lt.mpr hle)

end LWWMap

end CollabDatatypes.CmRDT

namespace CollabDatatypes.Container

open CollabDatatypes.Lib CollabDatatypes.CmRDT

variable {Key T U : Type*} [DecidableEq Key] [LinearOrder U] [Zero U] [Inhabited T]

/-- **The containers absorb redelivery**: an operation that occurs in a run returns `false` when it is
delivered again, and leaves the whole state as it is. The run of a map may write values, too. -/
theorem containers_absorb (o : Op Key U) :
    (∀ d : List (Op Key U), o ∈ d →
      ((LWWSet.machine Key U).run d).apply o = ((LWWSet.machine Key U).run d, false)) ∧
    ∀ l : List (LWWMap.Access Key T U), .modifier o ∈ l →
      ((LWWMap.userMachine Key T U).run l).apply o = ((LWWMap.userMachine Key T U).run l, false) :=
  ⟨fun _ ho => LWWSet.apply_redelivered ho, fun _ ho => LWWMap.apply_redelivered ho⟩

/-- An `add` that arrives late, between a clear and a removal; and one whose value a user has
written. -/
theorem containers_absorb_late_add :
    ((LWWSet.machine ℕ ℕ).run [.clear 5, .add 0 3, .remove 0 4]).apply (.add 0 3) =
      ((LWWSet.machine ℕ ℕ).run [.clear 5, .add 0 3, .remove 0 4], false) ∧
    ((LWWMap.userMachine ℕ ℕ ℕ).run [.modifier (.add 0 3), .atKey 0 (· + 7)]).apply (.add 0 3) =
      ((LWWMap.userMachine ℕ ℕ ℕ).run [.modifier (.add 0 3), .atKey 0 (· + 7)], false) :=
  ⟨(containers_absorb (T := ℕ) (.add 0 3)).1 [.clear 5, .add 0 3, .remove 0 4] (by simp),
    (containers_absorb (.add 0 3)).2 [.modifier (.add 0 3), .atKey 0 (· + 7)] (by simp)⟩

end CollabDatatypes.Container
