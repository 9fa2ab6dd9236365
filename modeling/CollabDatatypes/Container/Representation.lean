import CollabDatatypes.CmRDT.Iterators
import CollabDatatypes.Container.Map

/-! # The counter, the iterators and the lookups agree

Three pieces of code decide which keys a user sees: the counter that the modifiers adjust by hand, the
iterators that skip the entries marked removed, and the lookups that test the mark. In every reachable
state they agree, whatever the timestamps: `containers_represent`. The counter of the model wraps at
zero as that of the code does (`decr`), so being the number of visible keys it never wrapped. -/

namespace CollabDatatypes.CmRDT

open CollabDatatypes.Lib CollabDatatypes.Container

variable {Key T U : Type*}

/-! ### The set -/

namespace LWWSet

/-- **The walk from `begin()` to `end()`** ends, and visits the keys not marked removed. -/
theorem walk_eq (s : LWWSet Key U) {n : ℕ} (h : s.crdtSize < n) : s.walk n = some s.keys :=
  UnorderedMap.walk_skip Metadata.isRemoved s.map.entries n h

variable [DecidableEq Key]

theorem findIt_ne_end (s : LWWSet Key U) (k : Key) :
    s.findIt k ≠ endIt ↔ live (s.map.lookup k) = true := by
  have hhead := UnorderedMap.head?_position k s.map
  unfold findIt
  cases hp : s.map.position k with
  | nil =>
    rw [hp] at hhead
    rw [← hhead]
    simp
  | cons e l =>
    rw [hp] at hhead
    rw [← hhead]
    cases hr : e.2.isRemoved <;> simp [endIt, hr]

/-- The counter is the number of entries not marked removed, and at most that of all entries. The
walk ends, and visits every key that is not marked removed once and no other. `count` and `find` find
the keys it visits. -/
def Represents (s : LWWSet Key U) : Prop :=
  s.size = (s.map.entries.filter fun elt => !elt.2.isRemoved).length ∧ s.size ≤ s.crdtSize ∧
    ∃ visited, (∀ n, s.crdtSize < n → s.walk n = some visited) ∧ visited.Nodup ∧
      (∀ k, k ∈ visited ↔ ∃ elt, s.crdtFind k = some elt ∧ elt.isRemoved = false) ∧
      ∀ k, (s.count k = 1 ↔ k ∈ visited) ∧ (s.findIt k ≠ endIt ↔ k ∈ visited)

theorem represents_of_counted {s : LWWSet Key U} (h : s.Counted) : s.Represents := by
  refine ⟨h.trans UnorderedMap.countWhere_eq_length, h.trans_le UnorderedMap.countWhere_le, s.keys,
    fun n hn => walk_eq s hn, UnorderedMap.nodup_keysWhere _ s.map, fun k => ?_, fun k => ⟨?_, ?_⟩⟩
  · rw [mem_keys, live_iff]
    constructor
    · rintro ⟨t, ht⟩
      exact ⟨_, ht, rfl⟩
    · rintro ⟨⟨t, b⟩, ht, rfl⟩
      exact ⟨t, ht⟩
  · rw [count_eq_one, mem_keys]
  · rw [findIt_ne_end, mem_keys]

end LWWSet

/-! ### The map -/

namespace LWWMap

theorem walk_eq (m : LWWMap Key T U) {n : ℕ} (h : m.crdtSize < n) : m.walk n = some m.keys :=
  UnorderedMap.walk_skip Element.isRemoved m.map.entries n h

variable [DecidableEq Key]

theorem findIt_ne_end (m : LWWMap Key T U) (k : Key) :
    m.findIt k ≠ endIt ↔ live (m.cells.cell k) = true := by
  have hhead := UnorderedMap.head?_position k m.map
  rw [cells_cell]
  unfold findIt
  cases hp : m.map.position k with
  | nil =>
    rw [hp] at hhead
    rw [← hhead]
    simp
  | cons e l =>
    rw [hp] at hhead
    rw [← hhead]
    cases hr : e.2.isRemoved <;> simp [endIt, skipRemoved, UnorderedMap.skip, Element.metadata, hr]

/-- The same for a map. -/
def Represents (m : LWWMap Key T U) : Prop :=
  m.size = (m.map.entries.filter fun elt => !elt.2.isRemoved).length ∧ m.size ≤ m.crdtSize ∧
    ∃ visited, (∀ n, m.crdtSize < n → m.walk n = some visited) ∧ visited.Nodup ∧
      (∀ k, k ∈ visited ↔ ∃ elt, m.crdtFind k = some elt ∧ elt.isRemoved = false) ∧
      ∀ k, (m.count k = 1 ↔ k ∈ visited) ∧ (m.findIt k ≠ endIt ↔ k ∈ visited)

theorem represents_of_counted {m : LWWMap Key T U} (h : m.Counted) : m.Represents := by
  have hsize : m.size = m.map.countWhere fun elt => !elt.isRemoved :=
    h.size_eq.trans (UnorderedMap.length_keysWhere _ m.map)
  refine ⟨hsize.trans UnorderedMap.countWhere_eq_length, hsize.trans_le UnorderedMap.countWhere_le,
    m.keys, fun n hn => walk_eq m hn, UnorderedMap.nodup_keysWhere _ m.map, fun k => ?_,
    fun k => ⟨?_, ?_⟩⟩
  · rw [keys, UnorderedMap.mem_keysWhere]
    refine exists_congr fun elt => and_congr_right fun _ => ?_
    rw [Bool.not_eq_true']
  · rw [count_eq_one, mem_keys]
  · rw [findIt_ne_end, mem_keys]

end LWWMap

end CollabDatatypes.CmRDT

namespace CollabDatatypes.Container

open CollabDatatypes.Lib CollabDatatypes.CmRDT

variable {Key T U : Type*} [DecidableEq Key] [LinearOrder U] [Zero U] [Inhabited T]

/-- **The counter, the iterators and the lookups agree** in every reachable set and map. -/
theorem containers_represent (d : List (Op Key U)) :
    ((LWWSet.machine Key U).run d).Represents ∧ ((LWWMap.machine Key T U).run d).Represents :=
  ⟨LWWSet.represents_of_counted (LWWSet.counted_run d),
    LWWMap.represents_of_counted (LWWMap.counted_run d)⟩

end CollabDatatypes.Container
