import CollabDatatypes.Container.Cells

/-! # The set refines its cells

`LWWSet.cells` forgets the counter and the order of the entries. Every modifier commutes with it and
returns what the abstract one returns (`cells_apply`), so a run of the set is a run of the cells
(`cells_run`). The counter is the number of visible keys in every reachable set (`counted_run`);
with that, the two comparisons say what they should: `beq_iff`, `crdtEqual_iff`. -/

namespace CollabDatatypes.CmRDT.LWWSet

open CollabDatatypes.Lib CollabDatatypes.Container

variable {Key U : Type*} [DecidableEq Key]

/-- The set, key by key. -/
def cells (s : LWWSet Key U) : Cells Key U := ⟨s.lastClearTime, s.map.lookup⟩

@[simp] theorem cells_clearTime (s : LWWSet Key U) : s.cells.clearTime = s.lastClearTime := rfl

@[simp] theorem cells_cell (s : LWWSet Key U) (k : Key) : s.cells.cell k = s.map.lookup k := rfl

theorem cells_empty [Zero U] : (empty : LWWSet Key U).cells = Cells.init Key U := rfl

/-! ### Lookup -/

theorem isSome_find (s : LWWSet Key U) (k : Key) : (s.find k).isSome = live (s.map.lookup k) := by
  unfold find
  cases s.map.lookup k with
  | none => rfl
  | some e => cases h : e.isRemoved <;> simp [h]

theorem count_eq_one (s : LWWSet Key U) (k : Key) : s.count k = 1 ↔ live (s.map.lookup k) = true := by
  unfold count
  rw [isSome_find]
  split_ifs with h <;> simp [h]

theorem mem_keys {s : LWWSet Key U} {k : Key} : k ∈ s.keys ↔ live (s.map.lookup k) = true := by
  rw [keys, UnorderedMap.mem_keysWhere]
  cases s.map.lookup k <;> simp

/-! ### Modifiers -/

variable [LinearOrder U]

omit [DecidableEq Key] in
theorem clearElt_snd (stamp : U) (n : ℕ) (e : Metadata U) :
    (clearElt stamp n e).2 = write stamp true e := by
  unfold clearElt
  rcases e with ⟨t, b⟩
  by_cases h : stamp > t
  · rw [if_pos h, write_of_lt h]
    cases b <;> rfl
  · rw [if_neg h, write_of_le (not_lt.mp h)]

theorem cells_clear (s : LWWSet Key U) (stamp : U) :
    (s.clear stamp).1.cells = s.cells.clear stamp := by
  unfold clear
  by_cases h : stamp > s.lastClearTime
  · rw [if_pos h]
    ext1
    · exact (max_eq_right h.le).symm
    · funext k
      show ((s.map.loop (clearElt stamp) s.sizeAlive).2).lookup k = _
      rw [UnorderedMap.loop_snd (clearElt_snd stamp), UnorderedMap.lookup_mapVal]
      exact (if_pos h).symm
  · rw [if_neg h]
    have hle : stamp ≤ s.lastClearTime := not_lt.mp h
    ext1
    · exact (max_eq_left hle).symm
    · funext k
      exact (clearCell_of_le hle _).symm

theorem lookup_add (s : LWWSet Key U) (key k : Key) (stamp : U) :
    (s.add key stamp).1.map.lookup k =
      if k = key then some (addCell s.lastClearTime stamp (s.map.lookup key))
      else s.map.lookup k := by
  unfold add
  cases he : s.map.lookup key with
  | none =>
    by_cases h : s.lastClearTime < stamp
    · simp only [if_pos h, addCell, UnorderedMap.lookup_insert_eq]
    · simp only [if_neg h, addCell, UnorderedMap.lookup_modify, UnorderedMap.lookup_insert_eq]
      split_ifs <;> rfl
  | some e =>
    rcases e with ⟨t, b⟩
    by_cases h : t < stamp
    · simp only [if_pos h, addCell, write]
      cases b
      all_goals
        simp only [Bool.false_eq_true, if_true, if_false, UnorderedMap.lookup_modify]
        split_ifs with hk
        · rw [hk, he]; rfl
        · rfl
    · simp only [if_neg h, addCell, write]
      split_ifs with hk
      · rw [hk, he]
      · rfl

theorem lookup_remove (s : LWWSet Key U) (key k : Key) (stamp : U) :
    (s.remove key stamp).1.map.lookup k =
      if k = key then some (removeCell stamp (s.map.lookup key)) else s.map.lookup k := by
  unfold remove
  cases he : s.map.lookup key with
  | none => simp only [removeCell, UnorderedMap.lookup_insert_eq]
  | some e =>
    rcases e with ⟨t, b⟩
    by_cases h : t < stamp
    · simp only [if_pos h, removeCell, write]
      cases b
      all_goals
        simp only [Bool.true_eq_false, if_true, if_false, UnorderedMap.lookup_modify]
        split_ifs with hk
        · rw [hk, he]; rfl
        · rfl
    · simp only [if_neg h, removeCell, write]
      split_ifs with hk
      · rw [hk, he]
      · rfl

theorem cells_add (s : LWWSet Key U) (key : Key) (stamp : U) :
    (s.add key stamp).1.cells = s.cells.add key stamp := by
  ext1
  · unfold add
    cases s.map.lookup key <;> simp only <;> split_ifs <;> rfl
  · funext k
    rw [cells_cell, lookup_add, Cells.add_cell]
    rfl

theorem cells_remove (s : LWWSet Key U) (key : Key) (stamp : U) :
    (s.remove key stamp).1.cells = s.cells.remove key stamp := by
  ext1
  · unfold remove
    cases s.map.lookup key with
    | none => rfl
    | some e => simp only; split_ifs <;> rfl
  · funext k
    rw [cells_cell, lookup_remove, Cells.remove_cell]
    rfl

theorem add_snd (s : LWWSet Key U) (key : Key) (stamp : U) :
    (s.add key stamp).2 = (!live (s.cells.cell key) && live ((s.cells.add key stamp).cell key)) := by
  rw [Cells.add_cell_self, cells_cell]
  unfold add
  cases s.map.lookup key with
  | none =>
    by_cases h1 : s.lastClearTime < stamp
    · simp [addCell, h1]
    · simp [addCell, h1]
  | some e =>
    rcases e with ⟨t, b⟩
    simp only [addCell]
    by_cases h1 : stamp > t
    · rw [if_pos h1, write_of_lt h1]
      cases b <;> rfl
    · rw [if_neg h1, write_of_le (not_lt.mp h1)]
      cases b <;> rfl

theorem remove_snd (s : LWWSet Key U) (key : Key) (stamp : U) :
    (s.remove key stamp).2 =
      (live (s.cells.cell key) && !live ((s.cells.remove key stamp).cell key)) := by
  rw [Cells.remove_cell_self, cells_cell]
  unfold remove
  cases s.map.lookup key with
  | none => rfl
  | some e =>
    rcases e with ⟨t, b⟩
    simp only [removeCell]
    by_cases h1 : stamp > t
    · rw [if_pos h1, write_of_lt h1]
      cases b <;> rfl
    · rw [if_neg h1, write_of_le (not_lt.mp h1)]
      cases b <;> rfl

omit [DecidableEq Key] in
theorem clear_snd (s : LWWSet Key U) (stamp : U) :
    (s.clear stamp).2 = decide (s.lastClearTime < stamp) := by
  unfold clear
  by_cases h : stamp > s.lastClearTime
  · rw [if_pos h]; exact (decide_eq_true h).symm
  · rw [if_neg h]; exact (decide_eq_false h).symm

/-- **The set refines its cells**: same cells after every modifier, same result. -/
theorem cells_apply (s : LWWSet Key U) (o : Op Key U) :
    (s.apply o).1.cells = (s.cells.apply o).1 ∧ (s.apply o).2 = (s.cells.apply o).2 := by
  cases o with
  | add k stamp => exact ⟨cells_add s k stamp, add_snd s k stamp⟩
  | remove k stamp => exact ⟨cells_remove s k stamp, remove_snd s k stamp⟩
  | clear stamp => exact ⟨cells_clear s stamp, clear_snd s stamp⟩

theorem cells_run [Zero U] (d : List (Op Key U)) :
    ((machine Key U).run d).cells = (Cells.machine Key U).run d :=
  Machine.run_map cells_empty (fun s o => (cells_apply s o).1) d

/-! ### The counter -/

/-- The counter is the number of visible keys. -/
def Counted (s : LWWSet Key U) : Prop := s.sizeAlive = s.map.countWhere fun elt => !elt.isRemoved

omit [DecidableEq Key] [LinearOrder U] in
theorem Counted.size_eq {s : LWWSet Key U} (h : s.Counted) : s.size = s.keys.length :=
  h.trans (UnorderedMap.length_keysWhere _ s.map).symm

omit [DecidableEq Key] [LinearOrder U] in
theorem counted_empty [Zero U] : (empty : LWWSet Key U).Counted := rfl

theorem mem_keys_add {s : LWWSet Key U} {key k : Key} {stamp : U} :
    k ∈ (s.add key stamp).1.keys ↔
      if k = key then live (some (addCell s.lastClearTime stamp (s.map.lookup key))) = true
      else k ∈ s.keys := by
  rw [mem_keys, lookup_add]
  split_ifs
  · exact Iff.rfl
  · exact mem_keys.symm

theorem mem_keys_remove {s : LWWSet Key U} {key k : Key} {stamp : U} :
    k ∈ (s.remove key stamp).1.keys ↔
      if k = key then live (some (removeCell stamp (s.map.lookup key))) = true
      else k ∈ s.keys := by
  rw [mem_keys, lookup_remove]
  split_ifs
  · exact Iff.rfl
  · exact mem_keys.symm

theorem sizeAlive_add (s : LWWSet Key U) (key : Key) (stamp : U) :
    (s.add key stamp).1.sizeAlive = s.sizeAlive + (s.add key stamp).2.toNat := by
  unfold add
  cases s.map.lookup key <;> simp only <;> split_ifs <;> rfl

theorem sizeAlive_remove (s : LWWSet Key U) (key : Key) (stamp : U) :
    (s.remove key stamp).1.sizeAlive =
      if (s.remove key stamp).2 then decr s.sizeAlive else s.sizeAlive := by
  unfold remove
  cases s.map.lookup key with
  | none => rfl
  | some e => simp only; split_ifs <;> simp_all

theorem counted_add {s : LWWSet Key U} (h : s.Counted) (key : Key) (stamp : U) :
    (s.add key stamp).1.Counted := by
  unfold Counted at h ⊢
  rw [sizeAlive_add, h]
  symm
  by_cases hr : (s.add key stamp).2 = true
  · rw [hr]
    rw [add_snd, Cells.add_cell_self, cells_cell, Bool.and_eq_true, Bool.not_eq_true'] at hr
    refine UnorderedMap.countWhere_succ (k := key) ?_ fun k => ?_
    · show key ∉ s.keys
      rw [mem_keys, hr.1]; simp
    · show k ∈ (s.add key stamp).1.keys ↔ k = key ∨ k ∈ s.keys
      rw [mem_keys_add]
      split_ifs with hk
      · exact ⟨fun _ => Or.inl hk, fun _ => hr.2⟩
      · simp [hk]
  · rw [Bool.eq_false_of_not_eq_true hr, Bool.toNat_false, Nat.add_zero]
    rw [add_snd, Cells.add_cell_self, cells_cell] at hr
    refine UnorderedMap.countWhere_congr fun k => ?_
    show k ∈ (s.add key stamp).1.keys ↔ k ∈ s.keys
    rw [mem_keys_add]
    split_ifs with hk
    · rw [hk, mem_keys]
      have hmono : live (s.map.lookup key) = true →
          live (some (addCell s.lastClearTime stamp (s.map.lookup key))) = true :=
        fun hl => live_addCell.mpr (Or.inr hl)
      refine ⟨fun hl => ?_, hmono⟩
      by_contra hn
      exact hr (by rw [Bool.eq_false_of_not_eq_true hn]; exact hl)
    · exact Iff.rfl

theorem counted_remove {s : LWWSet Key U} (h : s.Counted) (key : Key) (stamp : U) :
    (s.remove key stamp).1.Counted := by
  unfold Counted at h ⊢
  rw [sizeAlive_remove, h]
  by_cases hr : (s.remove key stamp).2 = true
  · rw [if_pos hr]
    rw [remove_snd, Cells.remove_cell_self, cells_cell, Bool.and_eq_true, Bool.not_eq_true'] at hr
    have hc : s.map.countWhere (fun elt => !elt.isRemoved) =
        (s.remove key stamp).1.map.countWhere (fun elt => !elt.isRemoved) + 1 := by
      refine UnorderedMap.countWhere_succ (k := key) ?_ fun k => ?_
      · show key ∉ (s.remove key stamp).1.keys
        rw [mem_keys_remove, if_pos rfl, hr.2]; simp
      · show k ∈ s.keys ↔ k = key ∨ k ∈ (s.remove key stamp).1.keys
        rw [mem_keys_remove]
        split_ifs with hk
        · rw [hk, mem_keys]
          exact ⟨fun _ => Or.inl rfl, fun _ => hr.1⟩
        · simp [hk]
    rw [hc]; rfl
  · rw [if_neg hr]
    rw [remove_snd, Cells.remove_cell_self, cells_cell] at hr
    refine UnorderedMap.countWhere_congr fun k => ?_
    show k ∈ s.keys ↔ k ∈ (s.remove key stamp).1.keys
    rw [mem_keys_remove]
    split_ifs with hk
    · rw [hk, mem_keys]
      cases hl : s.map.lookup key with
      | none => simp [removeCell]
      | some e =>
        rcases e with ⟨t, b⟩
        rw [hl] at hr
        by_cases ht : t < stamp
        · rw [removeCell, write_of_lt ht] at hr ⊢
          cases b <;> simp_all
        · rw [removeCell, write_of_le (not_lt.mp ht)]
    · exact Iff.rfl

omit [DecidableEq Key] in
theorem counted_clear {s : LWWSet Key U} (h : s.Counted) (stamp : U) :
    (s.clear stamp).1.Counted := by
  unfold clear
  split_ifs
  · have hbody : ∀ (c n : ℕ) (e : Metadata U), n = c + (!e.isRemoved).toNat →
        (clearElt stamp n e).1 = c + (!(clearElt stamp n e).2.isRemoved).toNat := by
      rintro c n ⟨t, b⟩ rfl
      unfold clearElt
      cases b <;> split_ifs <;> simp_all [decr]
    exact UnorderedMap.loop_count (R := fun c n => n = c) hbody h
  · exact h

/-- **The counter is right in every reachable set**, whatever the timestamps. -/
theorem counted_apply {s : LWWSet Key U} (h : s.Counted) (o : Op Key U) :
    (s.apply o).1.Counted := by
  cases o with
  | add k stamp => exact counted_add h k stamp
  | remove k stamp => exact counted_remove h k stamp
  | clear stamp => exact counted_clear h stamp

theorem counted_run [Zero U] (d : List (Op Key U)) : ((machine Key U).run d).Counted :=
  Machine.run_invariant (machine Key U) counted_empty (fun _ o h => counted_apply h o) d

/-! ### Comparison -/

omit [LinearOrder U] in
/-- **`operator==`**: the same keys are visible. -/
theorem beq_iff {s s' : LWWSet Key U} (h : s.Counted) (h' : s'.Counted) :
    (s == s') = true ↔ ∀ k, live (s.map.lookup k) = live (s'.map.lookup k) := by
  have hloops : (s.keys.all (fun elt => (s'.find elt).isSome) &&
      s'.keys.all fun elt => (s.find elt).isSome) = true ↔
      ∀ k, live (s.map.lookup k) = live (s'.map.lookup k) := by
    simp only [Bool.and_eq_true, List.all_eq_true, isSome_find, mem_keys, ← forall_and]
    exact forall_congr' fun k => iff_iff_implies_and_implies.symm.trans Bool.eq_iff_iff.symm
  show beq s s' = true ↔ _
  unfold beq
  split_ifs with hsize
  · refine ⟨fun hf => absurd hf (by simp), fun hk => absurd ?_ hsize⟩
    show s.sizeAlive = s'.sizeAlive
    rw [h, h']
    refine UnorderedMap.countWhere_congr fun k => ?_
    show k ∈ s.keys ↔ k ∈ s'.keys
    rw [mem_keys, mem_keys, hk]
  · exact hloops

/-- **`crdt_equal`**: the same entries. The times of the last clear are not compared. -/
theorem crdtEqual_iff {s s' : LWWSet Key U} :
    s.crdtEqual s' = true ↔ ∀ k, s.map.lookup k = s'.map.lookup k := by
  unfold crdtEqual
  rw [UnorderedMap.equal_iff]
  refine forall_congr' fun k => ?_
  cases s.map.lookup k <;> cases s'.map.lookup k <;> simp [Metadata.beq_iff]

end CollabDatatypes.CmRDT.LWWSet
