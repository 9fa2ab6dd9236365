import CollabDatatypes.Container.Writes

/-! # What the modifiers report

A modifier returns whether it changed what a user sees: an `add` whether the key appeared, a `remove`
whether it vanished, and the counter follows; a `clear` returns whether it is the newest one, and hides
the visible keys that are older. `Reports` says so of any container that can be asked for its elements,
its size and the time of its last clear; `containers_report` that the set and the map do, in every
state a user can reach. -/

namespace CollabDatatypes.Container

open CollabDatatypes.Lib CollabDatatypes.CmRDT

/-- What a container of elements `ε` can be asked for. -/
structure Observer (σ Key ε U : Type*) where
  find : σ → Key → Option ε
  crdtFind : σ → Key → Option ε
  timestamp : ε → U
  size : σ → ℕ
  lastClearTime : σ → U

variable {σ Key ε U : Type*} [LinearOrder U]

/-- The result of a modifier that took the container from `s` to `s'` is the visible change. -/
def Reports (O : Observer σ Key ε U) (s s' : σ) : Op Key U → Bool → Prop
  | .add k _, r => (r = true ↔ (O.find s k).isSome = false ∧ (O.find s' k).isSome = true) ∧
    O.size s' = O.size s + (if r then 1 else 0) ∧ ∀ k', k' ≠ k → O.crdtFind s' k' = O.crdtFind s k'
  | .remove k _, r => (r = true ↔ (O.find s k).isSome = true ∧ (O.find s' k).isSome = false) ∧
    O.size s = O.size s' + (if r then 1 else 0) ∧ ∀ k', k' ≠ k → O.crdtFind s' k' = O.crdtFind s k'
  | .clear stamp, r => (r = true ↔ O.lastClearTime s < stamp) ∧
    (r = true → ∀ k, O.find s' k = (O.find s k).filter fun e => stamp ≤ O.timestamp e) ∧
    (r = false → s' = s)

end CollabDatatypes.Container

namespace CollabDatatypes.CmRDT

open CollabDatatypes.Lib CollabDatatypes.Container

variable {Key T U : Type*} [DecidableEq Key] [LinearOrder U]

/-! ### The set -/

namespace LWWSet

/-- What a set can be asked for. -/
def observer (Key U : Type*) [DecidableEq Key] : Observer (LWWSet Key U) Key (Metadata U) U where
  find := find
  crdtFind := crdtFind
  timestamp := Metadata.timestamp
  size := size
  lastClearTime := lastClearTime

theorem size_remove {s : LWWSet Key U} (h : s.Counted) (key : Key) (stamp : U) :
    s.size = (s.remove key stamp).1.size + if (s.remove key stamp).2 then 1 else 0 := by
  show s.sizeAlive = (s.remove key stamp).1.sizeAlive + _
  rw [sizeAlive_remove]
  by_cases hr : (s.remove key stamp).2 = true
  · rw [if_pos hr, if_pos hr]
    have hpos : 0 < s.sizeAlive := by
      rw [remove_snd, Bool.and_eq_true] at hr
      rw [h, ← UnorderedMap.length_keysWhere]
      exact List.length_pos_of_mem (mem_keys.mpr hr.1)
    obtain ⟨n, hn⟩ := Nat.exists_eq_succ_of_ne_zero hpos.ne'
    rw [hn]
    rfl
  · rw [if_neg hr, if_neg hr]
    rfl

omit [DecidableEq Key] in
theorem clear_of_le {s : LWWSet Key U} {stamp : U} (h : stamp ≤ s.lastClearTime) :
    (s.clear stamp).1 = s := congrArg Prod.fst (if_neg h.not_gt)

theorem find_clear {s : LWWSet Key U} {stamp : U} (h : s.lastClearTime < stamp) (k : Key) :
    (s.clear stamp).1.find k = (s.find k).filter fun e => stamp ≤ e.timestamp := by
  have hlook : (s.clear stamp).1.map.lookup k = (s.map.lookup k).map (write stamp true) :=
    (congrFun (congrArg Cells.cell (cells_clear s stamp)) k).trans (if_pos h)
  unfold find
  rw [hlook]
  cases s.map.lookup k with
  | none => rfl
  | some e =>
    rcases e with ⟨t, b⟩
    rw [Option.map_some]
    by_cases hs : t < stamp
    · rw [write_of_lt hs]
      cases b <;> simp [Option.filter_some, hs]
    · rw [write_of_le (not_lt.mp hs)]
      cases b <;> simp [Option.filter_some, hs]

theorem reports_apply {s : LWWSet Key U} (h : s.Counted) (o : Op Key U) :
    Reports (observer Key U) s (s.apply o).1 o (s.apply o).2 := by
  cases o with
  | add k stamp =>
    refine ⟨?_, ?_, fun k' hk => (lookup_add s k k' stamp).trans (if_neg hk)⟩
    · show (s.add k stamp).2 = true ↔ (s.find k).isSome = false ∧
        ((s.add k stamp).1.find k).isSome = true
      rw [add_snd, isSome_find, isSome_find, ← cells_cell (s.add k stamp).1, cells_add,
        Bool.and_eq_true, Bool.not_eq_true', cells_cell]
    · refine (sizeAlive_add s k stamp).trans ?_
      show _ = s.sizeAlive + if (s.add k stamp).2 = true then 1 else 0
      cases (s.add k stamp).2 <;> rfl
  | remove k stamp =>
    refine ⟨?_, size_remove h k stamp, fun k' hk => (lookup_remove s k k' stamp).trans (if_neg hk)⟩
    show (s.remove k stamp).2 = true ↔ (s.find k).isSome = true ∧
      ((s.remove k stamp).1.find k).isSome = false
    rw [remove_snd, isSome_find, isSome_find, ← cells_cell (s.remove k stamp).1, cells_remove,
      Bool.and_eq_true, Bool.not_eq_true', cells_cell]
  | clear stamp =>
    have hr : (s.clear stamp).2 = true ↔ s.lastClearTime < stamp := by
      rw [clear_snd, decide_eq_true_iff]
    refine ⟨hr, fun ht k => find_clear (hr.mp ht) k, fun hf => clear_of_le ?_⟩
    by_contra hlt
    exact absurd (hr.mpr (not_le.mp hlt)) (by rw [show (s.clear stamp).2 = false from hf]; simp)

end LWWSet

/-! ### The map -/

namespace LWWMap

/-- What a map can be asked for. -/
def observer (Key T U : Type*) [DecidableEq Key] :
    Observer (LWWMap Key T U) Key (Element T U) U where
  find := find
  crdtFind := crdtFind
  timestamp := Element.timestamp
  size := size
  lastClearTime := lastClearTime

omit [DecidableEq Key] in
theorem clear_of_le {m : LWWMap Key T U} {stamp : U} (h : stamp ≤ m.lastClearTime) :
    (m.clear stamp).1 = m := congrArg Prod.fst (if_neg h.not_gt)

theorem find_clear {m : LWWMap Key T U} {stamp : U} (h : m.lastClearTime < stamp) (k : Key) :
    (m.clear stamp).1.find k = (m.find k).filter fun e => stamp ≤ e.timestamp := by
  unfold find
  rw [lookup_clear, if_pos h]
  cases m.map.lookup k with
  | none => rfl
  | some e =>
    rcases e with ⟨v, t, b⟩
    rw [Option.map_some]
    by_cases hs : t < stamp
    · cases b <;> simp [Option.filter_some, hs]
    · cases b <;> simp [Option.filter_some, hs]

variable [Zero U] [Inhabited T]

theorem reports_apply {m : LWWMap Key T U} (h : m.Counted) (o : Op Key U) :
    Reports (observer Key T U) m (m.apply o).1 o (m.apply o).2 := by
  cases o with
  | add k stamp =>
    obtain ⟨herase, hresult⟩ := erase_add m k stamp
    refine ⟨?_, ?_, fun k' hk => lookup_add_of_ne m hk stamp⟩
    · show (m.add k stamp).2 = true ↔ (m.find k).isSome = false ∧
        ((m.add k stamp).1.find k).isSome = true
      rw [add_snd, isSome_find, isSome_find, cells_add, Bool.and_eq_true, Bool.not_eq_true']
    · show (m.add k stamp).1.erase.size = m.erase.size + if (m.add k stamp).2 = true then 1 else 0
      rw [herase, hresult]
      exact (LWWSet.reports_apply h (.add k stamp)).2.1
  | remove k stamp =>
    obtain ⟨herase, hresult⟩ := erase_remove m k stamp
    refine ⟨?_, ?_, fun k' hk => lookup_remove_of_ne m hk stamp⟩
    · show (m.remove k stamp).2 = true ↔ (m.find k).isSome = true ∧
        ((m.remove k stamp).1.find k).isSome = false
      rw [remove_snd, isSome_find, isSome_find, cells_remove, Bool.and_eq_true, Bool.not_eq_true']
    · show m.erase.size =
        (m.remove k stamp).1.erase.size + if (m.remove k stamp).2 = true then 1 else 0
      rw [herase, hresult]
      exact LWWSet.size_remove h k stamp
  | clear stamp =>
    have hr : (m.clear stamp).2 = true ↔ m.lastClearTime < stamp := by
      rw [clear_snd, decide_eq_true_iff]
    refine ⟨hr, fun ht k => find_clear (hr.mp ht) k, fun hf => clear_of_le ?_⟩
    by_contra hlt
    exact absurd (hr.mpr (not_le.mp hlt)) (by rw [show (m.clear stamp).2 = false from hf]; simp)

end LWWMap

end CollabDatatypes.CmRDT

namespace CollabDatatypes.Container

open CollabDatatypes.Lib CollabDatatypes.CmRDT

variable {Key T U : Type*} [DecidableEq Key] [LinearOrder U] [Zero U] [Inhabited T]

/-- **The results of the modifiers are the visible changes**, in every state a set reaches by its
modifiers, and a map by its modifiers and by writes of values. -/
theorem containers_report :
    (∀ (d : List (Op Key U)) (o : Op Key U), Reports (LWWSet.observer Key U)
      ((LWWSet.machine Key U).run d) (((LWWSet.machine Key U).run d).apply o).1 o
      (((LWWSet.machine Key U).run d).apply o).2) ∧
    ∀ (l : List (LWWMap.Access Key T U)) (o : Op Key U), Reports (LWWMap.observer Key T U)
      ((LWWMap.userMachine Key T U).run l) (((LWWMap.userMachine Key T U).run l).apply o).1 o
      (((LWWMap.userMachine Key T U).run l).apply o).2 :=
  ⟨fun d o => LWWSet.reports_apply (LWWSet.counted_run d) o,
    fun l o => LWWMap.reports_apply (LWWMap.counted_userRun l) o⟩

end CollabDatatypes.Container
