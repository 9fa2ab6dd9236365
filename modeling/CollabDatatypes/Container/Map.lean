import CollabDatatypes.CmRDT.LWWMap
import CollabDatatypes.Container.Set

/-! # The map refines the set

`erase` forgets the values of a map. It commutes with every modifier, result included, and with a
write of a value it is unchanged (`erase_apply`, `erase_modify`): the map is a set with values, entry
by entry, counter and time of the last clear included. What was proved of the set therefore holds of
the map, and only the values are left to look at: `valueOf` keeps them all, except that a key gets
the default value when it gets its entry. -/

namespace CollabDatatypes.CmRDT.LWWMap

open CollabDatatypes.Lib CollabDatatypes.Container

variable {Key T U : Type*}

/-- The map without its values. -/
def erase (m : LWWMap Key T U) : LWWSet Key U :=
  ⟨m.map.mapVal fun _ => Element.metadata, m.sizeAlive, m.lastClearTime⟩

theorem keys_erase (m : LWWMap Key T U) : m.erase.keys = m.keys :=
  UnorderedMap.keysWhere_mapVal (f := fun _ => Element.metadata) (fun _ _ => rfl) m.map

variable [DecidableEq Key]

/-- The map, key by key. -/
def cells (m : LWWMap Key T U) : Cells Key U := m.erase.cells

@[simp] theorem cells_clearTime (m : LWWMap Key T U) : m.cells.clearTime = m.lastClearTime := rfl

@[simp] theorem cells_cell (m : LWWMap Key T U) (k : Key) :
    m.cells.cell k = (m.map.lookup k).map Element.metadata :=
  UnorderedMap.lookup_mapVal _ m.map k

theorem cells_empty [Zero U] : (empty : LWWMap Key T U).cells = Cells.init Key U := rfl

/-! ### Lookup -/

theorem find_eq (m : LWWMap Key T U) (k : Key) :
    m.find k = if live (m.cells.cell k) then m.map.lookup k else none := by
  unfold find
  rw [cells_cell]
  cases m.map.lookup k with
  | none => rfl
  | some e => rfl

theorem isSome_find (m : LWWMap Key T U) (k : Key) : (m.find k).isSome = live (m.cells.cell k) := by
  rw [find_eq, cells_cell]
  cases m.map.lookup k with
  | none => rfl
  | some e => cases h : e.metadata.isRemoved <;> simp [h]

theorem count_eq_one (m : LWWMap Key T U) (k : Key) :
    m.count k = 1 ↔ live (m.cells.cell k) = true := by
  unfold count
  rw [isSome_find]
  cases live (m.cells.cell k) <;> simp

theorem mem_keys {m : LWWMap Key T U} {k : Key} :
    k ∈ m.keys ↔ live (m.cells.cell k) = true := by
  rw [keys, UnorderedMap.mem_keysWhere, cells_cell]
  cases m.map.lookup k <;> simp [Element.metadata]

/-! ### Modifiers -/

theorem erase_modify (m : LWWMap Key T U) (k : Key) (f : T → T) : (m.modify k f).erase = m.erase := by
  unfold modify UnorderedMap.modify erase
  congr 1
  dsimp only
  refine UnorderedMap.mapVal_mapVal (fun k' e => ?_) m.map
  split_ifs <;> rfl

omit [DecidableEq Key] in
theorem erase_forEach (m : LWWMap Key T U) (f : Key → Element T U → T) :
    (m.forEach f).erase = m.erase := by
  unfold forEach erase
  congr 1
  dsimp only
  exact UnorderedMap.mapVal_mapVal (fun _ _ => rfl) m.map

theorem cells_modify (m : LWWMap Key T U) (k : Key) (f : T → T) : (m.modify k f).cells = m.cells := by
  rw [cells, erase_modify]
  rfl

theorem cells_forEach (m : LWWMap Key T U) (f : Key → Element T U → T) :
    (m.forEach f).cells = m.cells := by
  rw [cells, erase_forEach]
  rfl

variable [LinearOrder U]

omit [DecidableEq Key] in
theorem erase_clear (m : LWWMap Key T U) (stamp : U) :
    (m.clear stamp).1.erase = (m.erase.clear stamp).1 ∧
      (m.clear stamp).2 = (m.erase.clear stamp).2 := by
  have hbody : ∀ (n : ℕ) (e : Element T U), LWWSet.clearElt stamp n e.metadata =
      ((clearElt stamp n e).1, (clearElt stamp n e).2.metadata) := by
    rintro n ⟨v, t, b⟩
    unfold LWWSet.clearElt clearElt
    cases b <;> simp only [Element.metadata] <;> split_ifs <;> rfl
  have hl := UnorderedMap.loop_mapVal hbody m.sizeAlive m.map
  unfold clear LWWSet.clear
  by_cases h : stamp > m.lastClearTime
  · rw [if_pos h, if_pos (show stamp > m.erase.lastClearTime from h)]
    refine ⟨?_, rfl⟩
    simp only [erase]
    rw [hl]
  · rw [if_neg h, if_neg (show ¬ stamp > m.erase.lastClearTime from h)]
    exact ⟨rfl, rfl⟩

variable [Zero U] [Inhabited T]

theorem erase_add (m : LWWMap Key T U) (key : Key) (stamp : U) :
    (m.add key stamp).1.erase = (m.erase.add key stamp).1 ∧
      (m.add key stamp).2 = (m.erase.add key stamp).2 := by
  have hlook : m.erase.map.lookup key = (m.map.lookup key).map Element.metadata :=
    UnorderedMap.lookup_mapVal _ m.map key
  unfold add LWWSet.add
  rw [hlook]
  cases he : m.map.lookup key with
  | none =>
    have hins := UnorderedMap.mapVal_insert (g := fun _ => Element.metadata) he
    rw [Option.map_none]
    by_cases h : stamp > m.lastClearTime
    · rw [if_pos h, if_pos (show stamp > m.erase.lastClearTime from h)]
      exact ⟨congrArg (LWWSet.mk · _ _) (hins _), rfl⟩
    · rw [if_neg h, if_neg (show ¬ stamp > m.erase.lastClearTime from h)]
      refine ⟨congrArg (LWWSet.mk · _ _) ?_, rfl⟩
      dsimp only
      refine (UnorderedMap.mapVal_modify (u := fun _ => ⟨m.lastClearTime, true⟩)
        (by intro _; rfl) key _).trans ?_
      rw [hins]
      rfl
  | some e =>
    rcases e with ⟨v, t, b⟩
    rw [Option.map_some, Element.metadata_mk]
    dsimp only
    by_cases h : stamp > t
    · rw [if_pos h, if_pos h]
      cases b
      all_goals
        simp only [Bool.false_eq_true, if_true, if_false]
        refine ⟨congrArg (LWWSet.mk · _ _) ?_, trivial⟩
        exact UnorderedMap.mapVal_modify (by intro _; rfl) key m.map
    · rw [if_neg h, if_neg h]
      exact ⟨rfl, rfl⟩

theorem erase_remove (m : LWWMap Key T U) (key : Key) (stamp : U) :
    (m.remove key stamp).1.erase = (m.erase.remove key stamp).1 ∧
      (m.remove key stamp).2 = (m.erase.remove key stamp).2 := by
  have hlook : m.erase.map.lookup key = (m.map.lookup key).map Element.metadata :=
    UnorderedMap.lookup_mapVal _ m.map key
  unfold remove LWWSet.remove
  rw [hlook]
  cases he : m.map.lookup key with
  | none =>
    have hins := UnorderedMap.mapVal_insert (g := fun _ => Element.metadata) he
    rw [Option.map_none]
    exact ⟨congrArg (LWWSet.mk · _ _) (hins _), rfl⟩
  | some e =>
    rcases e with ⟨v, t, b⟩
    rw [Option.map_some, Element.metadata_mk]
    dsimp only
    by_cases h : stamp > t
    · rw [if_pos h, if_pos h]
      cases b
      all_goals
        simp only [Bool.true_eq_false, if_true, if_false]
        refine ⟨congrArg (LWWSet.mk · _ _) ?_, trivial⟩
        exact UnorderedMap.mapVal_modify (by intro _; rfl) key m.map
    · rw [if_neg h, if_neg h]
      exact ⟨rfl, rfl⟩

/-- **The map refines the set**: every modifier does to the erased map what it does to the set, and
returns the same. -/
theorem erase_apply (m : LWWMap Key T U) (o : Op Key U) :
    (m.apply o).1.erase = (m.erase.apply o).1 ∧ (m.apply o).2 = (m.erase.apply o).2 := by
  cases o with
  | add k stamp => exact erase_add m k stamp
  | remove k stamp => exact erase_remove m k stamp
  | clear stamp => exact erase_clear m stamp

theorem cells_apply (m : LWWMap Key T U) (o : Op Key U) :
    (m.apply o).1.cells = (m.cells.apply o).1 ∧ (m.apply o).2 = (m.cells.apply o).2 := by
  obtain ⟨h1, h2⟩ := erase_apply m o
  obtain ⟨h3, h4⟩ := LWWSet.cells_apply m.erase o
  exact ⟨by rw [cells, h1]; exact h3, h2.trans h4⟩

theorem cells_add (m : LWWMap Key T U) (k : Key) (stamp : U) :
    (m.add k stamp).1.cells = m.cells.add k stamp := (cells_apply m (.add k stamp)).1

theorem cells_remove (m : LWWMap Key T U) (k : Key) (stamp : U) :
    (m.remove k stamp).1.cells = m.cells.remove k stamp := (cells_apply m (.remove k stamp)).1

omit [Zero U] [Inhabited T] in
theorem cells_clear (m : LWWMap Key T U) (stamp : U) :
    (m.clear stamp).1.cells = m.cells.clear stamp := by
  rw [cells, (erase_clear m stamp).1]
  exact LWWSet.cells_clear m.erase stamp

theorem add_snd (m : LWWMap Key T U) (k : Key) (stamp : U) :
    (m.add k stamp).2 = (!live (m.cells.cell k) && live ((m.cells.add k stamp).cell k)) :=
  (cells_apply m (.add k stamp)).2

theorem remove_snd (m : LWWMap Key T U) (k : Key) (stamp : U) :
    (m.remove k stamp).2 = (live (m.cells.cell k) && !live ((m.cells.remove k stamp).cell k)) :=
  (cells_apply m (.remove k stamp)).2

omit [DecidableEq Key] [Zero U] [Inhabited T] in
theorem clear_snd (m : LWWMap Key T U) (stamp : U) :
    (m.clear stamp).2 = decide (m.lastClearTime < stamp) :=
  (erase_clear m stamp).2.trans (LWWSet.clear_snd m.erase stamp)

theorem cells_run (d : List (Op Key U)) :
    ((machine Key T U).run d).cells = (Cells.machine Key U).run d :=
  Machine.run_map cells_empty (fun m o => (cells_apply m o).1) d

/-- The counter is the number of visible keys. -/
def Counted (m : LWWMap Key T U) : Prop := m.erase.Counted

omit [DecidableEq Key] [LinearOrder U] [Zero U] [Inhabited T] in
theorem Counted.size_eq {m : LWWMap Key T U} (h : m.Counted) : m.size = m.keys.length := by
  rw [← keys_erase]
  exact LWWSet.Counted.size_eq h

theorem counted_apply {m : LWWMap Key T U} (h : m.Counted) (o : Op Key U) :
    (m.apply o).1.Counted := by
  unfold Counted
  rw [(erase_apply m o).1]
  exact LWWSet.counted_apply h o

omit [LinearOrder U] [Zero U] [Inhabited T] in
theorem Counted.modify {m : LWWMap Key T U} (h : m.Counted) (k : Key) (f : T → T) :
    (m.modify k f).Counted := by
  unfold Counted
  rwa [erase_modify]

omit [DecidableEq Key] [LinearOrder U] [Zero U] [Inhabited T] in
theorem Counted.forEach {m : LWWMap Key T U} (h : m.Counted) (f : Key → Element T U → T) :
    (m.forEach f).Counted := by
  unfold Counted
  rwa [erase_forEach]

theorem counted_run (d : List (Op Key U)) : ((machine Key T U).run d).Counted :=
  Machine.run_invariant (I := Counted) (machine Key T U) LWWSet.counted_empty
    (fun _ o h => counted_apply h o) d

/-! ### Elements -/

omit [Zero U] [Inhabited T] in
theorem lookup_clear (m : LWWMap Key T U) (stamp : U) (k : Key) :
    (m.clear stamp).1.map.lookup k =
      if m.lastClearTime < stamp then
        (m.map.lookup k).map fun e =>
          if e.timestamp < stamp then { e with timestamp := stamp, isRemoved := true } else e
      else m.map.lookup k := by
  have hbody : ∀ (n : ℕ) (e : Element T U), (clearElt stamp n e).2 =
      if e.timestamp < stamp then { e with timestamp := stamp, isRemoved := true } else e := by
    rintro n ⟨v, t, b⟩
    unfold clearElt
    cases b <;> split_ifs <;> simp_all
  unfold clear
  by_cases h : stamp > m.lastClearTime
  · rw [if_pos h, if_pos (show m.lastClearTime < stamp from h)]
    dsimp only
    rw [UnorderedMap.loop_snd hbody, UnorderedMap.lookup_mapVal]
  · rw [if_neg h, if_neg (show ¬ m.lastClearTime < stamp from h)]

theorem lookup_add_of_ne (m : LWWMap Key T U) {key k : Key} (hk : k ≠ key) (stamp : U) :
    (m.add key stamp).1.map.lookup k = m.map.lookup k := by
  unfold add
  cases m.map.lookup key with
  | none =>
    dsimp only
    split_ifs
    · rw [UnorderedMap.lookup_insert_eq, if_neg hk]
    · rw [UnorderedMap.lookup_modify, if_neg hk, UnorderedMap.lookup_insert_eq, if_neg hk]
  | some e =>
    dsimp only
    split_ifs
    · exact (UnorderedMap.lookup_modify key k _ m.map).trans (if_neg hk)
    · exact (UnorderedMap.lookup_modify key k _ m.map).trans (if_neg hk)
    · rfl

theorem lookup_remove_of_ne (m : LWWMap Key T U) {key k : Key} (hk : k ≠ key) (stamp : U) :
    (m.remove key stamp).1.map.lookup k = m.map.lookup k := by
  unfold remove
  cases m.map.lookup key with
  | none => exact (UnorderedMap.lookup_insert_eq key k _ m.map).trans (if_neg hk)
  | some e =>
    dsimp only
    split_ifs
    · exact (UnorderedMap.lookup_modify key k _ m.map).trans (if_neg hk)
    · exact (UnorderedMap.lookup_modify key k _ m.map).trans (if_neg hk)
    · rfl

/-! ### Values -/

omit [LinearOrder U] [Zero U] [Inhabited T] in
/-- The value stored under a key, visible or not. -/
def valueOf (m : LWWMap Key T U) (k : Key) : Option T := (m.map.lookup k).map Element.value

omit [LinearOrder U] [Zero U] [Inhabited T] in
theorem valueOf_eq_none {m : LWWMap Key T U} {k : Key} :
    m.valueOf k = none ↔ m.cells.cell k = none := by
  rw [valueOf, cells_cell, Option.map_eq_none_iff, Option.map_eq_none_iff]

omit [LinearOrder U] [Zero U] [Inhabited T] in
theorem valueOf_modify (m : LWWMap Key T U) (key k : Key) (f : T → T) :
    (m.modify key f).valueOf k = if k = key then (m.valueOf k).map f else m.valueOf k := by
  unfold modify valueOf
  rw [UnorderedMap.lookup_modify]
  split_ifs <;> cases m.map.lookup k <;> rfl

omit [LinearOrder U] [Zero U] [Inhabited T] in
theorem valueOf_forEach (m : LWWMap Key T U) (f : Key → Element T U → T) (k : Key) :
    (m.forEach f).valueOf k = (m.map.lookup k).map (f k) := by
  unfold forEach valueOf
  rw [UnorderedMap.lookup_mapVal]
  cases m.map.lookup k <;> rfl

omit [Zero U] [Inhabited T] in
theorem valueOf_clear (m : LWWMap Key T U) (stamp : U) (k : Key) :
    (m.clear stamp).1.valueOf k = m.valueOf k := by
  unfold valueOf
  rw [lookup_clear]
  split_ifs
  · cases m.map.lookup k with
    | none => rfl
    | some e => simp only [Option.map_some]; split_ifs <;> rfl
  · rfl

omit [LinearOrder U] [Zero U] [Inhabited T] in
theorem value_modify {f : Element T U → Element T U} (hf : ∀ e, (f e).value = e.value)
    (key k : Key) (m : UnorderedMap Key (Element T U)) :
    ((m.modify key f).lookup k).map Element.value = (m.lookup k).map Element.value := by
  rw [UnorderedMap.lookup_modify]
  split_ifs
  · cases m.lookup k with
    | none => rfl
    | some e => exact congrArg some (hf e)
  · rfl

theorem valueOf_add (m : LWWMap Key T U) (key k : Key) (stamp : U) :
    (m.add key stamp).1.valueOf k =
      if k = key then some ((m.valueOf key).getD default) else m.valueOf k := by
  by_cases hk : k = key
  · subst hk
    rw [if_pos rfl]
    unfold add valueOf
    cases he : m.map.lookup k with
    | none =>
      dsimp only
      split_ifs
      · rw [UnorderedMap.lookup_insert_eq, if_pos rfl]; rfl
      · rw [UnorderedMap.lookup_modify, if_pos rfl, UnorderedMap.lookup_insert_eq, if_pos rfl]; rfl
    | some e =>
      dsimp only
      split_ifs
      · exact (value_modify (by intro _; rfl) k k m.map).trans (by rw [he]; rfl)
      · exact (value_modify (by intro _; rfl) k k m.map).trans (by rw [he]; rfl)
      · rw [he]; rfl
  · rw [if_neg hk, valueOf, valueOf, lookup_add_of_ne m hk]

theorem valueOf_remove (m : LWWMap Key T U) (key k : Key) (stamp : U) :
    (m.remove key stamp).1.valueOf k =
      if k = key then some ((m.valueOf key).getD default) else m.valueOf k := by
  by_cases hk : k = key
  · subst hk
    rw [if_pos rfl]
    unfold remove valueOf
    cases he : m.map.lookup k with
    | none =>
      dsimp only
      rw [UnorderedMap.lookup_insert_eq, if_pos rfl]
      rfl
    | some e =>
      dsimp only
      split_ifs
      · exact (value_modify (by intro _; rfl) k k m.map).trans (by rw [he]; rfl)
      · exact (value_modify (by intro _; rfl) k k m.map).trans (by rw [he]; rfl)
      · rw [he]; rfl
  · rw [if_neg hk, valueOf, valueOf, lookup_remove_of_ne m hk]

theorem getD_valueOf_apply (m : LWWMap Key T U) (o : Op Key U) (k : Key) :
    ((m.apply o).1.valueOf k).getD default = (m.valueOf k).getD default := by
  cases o with
  | add key s =>
    refine (congrArg (Option.getD · default) (valueOf_add m key k s)).trans ?_
    split_ifs with hk
    · rw [hk]
      rfl
    · rfl
  | remove key s =>
    refine (congrArg (Option.getD · default) (valueOf_remove m key k s)).trans ?_
    split_ifs with hk
    · rw [hk]
      rfl
    · rfl
  | clear s => exact congrArg (Option.getD · default) (valueOf_clear m s k)

theorem getD_valueOf_run (d : List (Op Key U)) (k : Key) :
    (((machine Key T U).run d).valueOf k).getD default = default :=
  Machine.run_invariant (I := fun m : LWWMap Key T U => (m.valueOf k).getD default = default) _
    rfl (fun m o hm => (getD_valueOf_apply m o k).trans hm) d

/-! ### Comparison -/

omit [LinearOrder U] [Zero U] [Inhabited T] in
/-- The value a user sees under a key. -/
def visible (m : LWWMap Key T U) (k : Key) : Option T :=
  if live (m.cells.cell k) then m.valueOf k else none

omit [LinearOrder U] [Zero U] [Inhabited T] in
theorem valueOf_of_visible {m : LWWMap Key T U} {k : Key} {v : T} (h : m.visible k = some v) :
    m.valueOf k = some v := by
  unfold visible at h
  split_ifs at h
  exact h

omit [LinearOrder U] [Zero U] [Inhabited T] in
theorem isSome_visible (m : LWWMap Key T U) (k : Key) :
    (m.visible k).isSome = live (m.cells.cell k) := by
  unfold visible valueOf
  rw [cells_cell]
  cases m.map.lookup k with
  | none => rfl
  | some e => cases hl : e.metadata.isRemoved <;> simp [hl]

variable [BEq T]

omit [LinearOrder U] [Zero U] [Inhabited T] in
theorem beqLoop_iff {m m' : LWWMap Key T U} : beqLoop m m' = true ↔
    ∀ k v, m.visible k = some v → ∃ v', m'.visible k = some v' ∧ (v == v') = true := by
  unfold beqLoop
  rw [List.all_eq_true]
  refine forall_congr' fun k => ?_
  rw [mem_keys, find_eq, find_eq]
  unfold visible valueOf
  cases h : live (m.cells.cell k) with
  | false => simp
  | true =>
    rw [cells_cell] at h
    cases hm : m.map.lookup k with
    | none => rw [hm] at h; simp at h
    | some e =>
      cases h' : live (m'.cells.cell k) with
      | false => simp
      | true =>
        cases hm' : m'.map.lookup k with
        | none => simp
        | some e' => simp [bne]

omit [LinearOrder U] [Zero U] [Inhabited T] in
/-- **`operator==`**: the same keys are visible, with equal values. -/
theorem beq_iff {m m' : LWWMap Key T U} (h : m.Counted) (h' : m'.Counted) :
    (m == m') = true ↔ ∀ k, Option.Rel (fun v v' => (v == v') = true ∧ (v' == v) = true)
      (m.visible k) (m'.visible k) := by
  have hloops : (beqLoop m m' && beqLoop m' m) = true ↔
      ∀ k, Option.Rel (fun v v' => (v == v') = true ∧ (v' == v) = true)
        (m.visible k) (m'.visible k) := by
    rw [Bool.and_eq_true, beqLoop_iff, beqLoop_iff, ← forall_and]
    refine forall_congr' fun k => ?_
    cases m.visible k <;> cases m'.visible k <;> simp
  show beq m m' = true ↔ _
  unfold beq
  split_ifs with hsize
  · refine ⟨fun hf => absurd hf (by simp), fun hk => absurd ?_ hsize⟩
    show m.erase.sizeAlive = m'.erase.sizeAlive
    rw [h, h']
    refine UnorderedMap.countWhere_congr fun k => ?_
    show k ∈ m.erase.keys ↔ k ∈ m'.erase.keys
    rw [LWWSet.mem_keys, LWWSet.mem_keys]
    show live (m.cells.cell k) = true ↔ live (m'.cells.cell k) = true
    rw [← isSome_visible, ← isSome_visible]
    have := hk k
    cases hv : m.visible k <;> cases hv' : m'.visible k <;> simp_all
  · exact hloops

omit [Zero U] [Inhabited T] in
/-- **`crdt_equal`**: the same entries with equal values. The times of the last clear are not
compared. -/
theorem crdtEqual_iff {m m' : LWWMap Key T U} :
    m.crdtEqual m' = true ↔ ∀ k, m.cells.cell k = m'.cells.cell k ∧
      Option.Rel (fun v v' => (v == v') = true) (m.valueOf k) (m'.valueOf k) := by
  unfold crdtEqual
  rw [UnorderedMap.equal_iff]
  refine forall_congr' fun k => ?_
  rw [cells_cell, cells_cell]
  unfold valueOf
  cases m.map.lookup k <;> cases m'.map.lookup k <;> simp [Element.beq_iff, and_comm]

end CollabDatatypes.CmRDT.LWWMap
