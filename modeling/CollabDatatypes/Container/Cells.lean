import CollabDatatypes.CmRDT.LWWSet
import Mathlib.Logic.Function.Basic
import Mathlib.Order.MinMax

/-! # Cells: a container seen key by key

`Cells` is what a last-writer-wins container is about, with counters, values and the order of
iteration left out: the time of the last clear, and for every key the stamp and the flag of its
entry, if it has one. `Cells.apply` says what each modifier does to it and what it returns. The set
and the map refine this machine (`Container.Set`, `Container.Map`), the graph is built from two
levels of it (`Graph.View`). -/

namespace CollabDatatypes.Container

open CollabDatatypes.Lib CollabDatatypes.CmRDT

variable {Key U : Type*}

/-! ### One cell -/

section Cell

/-- The entry is there and not removed. -/
def live : Option (Metadata U) → Bool
  | some e => !e.isRemoved
  | none => false

@[simp] theorem live_none : live (none : Option (Metadata U)) = false := rfl

@[simp] theorem live_some (e : Metadata U) : live (some e) = !e.isRemoved := rfl

theorem live_iff {x : Option (Metadata U)} : live x = true ↔ ∃ t, x = some ⟨t, false⟩ := by
  rcases x with _ | ⟨t, b⟩
  · simp
  · cases b <;> simp

theorem isSome_of_live {x : Option (Metadata U)} (h : live x = true) : x.isSome = true := by
  cases x with
  | none => cases h
  | some e => rfl

variable [LinearOrder U]

/-- A write of the stamp `s`: it takes effect on an older entry. -/
def write (s : U) (removed : Bool) (e : Metadata U) : Metadata U :=
  if e.timestamp < s then ⟨s, removed⟩ else e

theorem write_of_lt {s : U} {e : Metadata U} (h : e.timestamp < s) (b : Bool) :
    write s b e = ⟨s, b⟩ := if_pos h

theorem write_of_le {s : U} {e : Metadata U} (h : s ≤ e.timestamp) (b : Bool) :
    write s b e = e := if_neg h.not_gt

theorem timestamp_write (s : U) (b : Bool) (e : Metadata U) :
    (write s b e).timestamp = max e.timestamp s := by
  rcases lt_or_ge e.timestamp s with h | h
  · rw [write_of_lt h, max_eq_right h.le]
  · rw [write_of_le h, max_eq_left h]

/-- `e'` may come after `e`: it is not older, and its flag is another one only if it is newer. -/
def Advances (e e' : Metadata U) : Prop :=
  e.timestamp ≤ e'.timestamp ∧ (e'.isRemoved ≠ e.isRemoved → e.timestamp < e'.timestamp)

theorem Advances.refl (e : Metadata U) : Advances e e := ⟨le_rfl, fun h => absurd rfl h⟩

theorem Advances.trans {a b c : Metadata U} (h : Advances a b) (h' : Advances b c) :
    Advances a c := by
  refine ⟨h.1.trans h'.1, fun hne => ?_⟩
  by_cases hab : b.isRemoved = a.isRemoved
  · exact h.1.trans_lt (h'.2 (by rwa [hab]))
  · exact (h.2 hab).trans_le h'.1

theorem advances_write (s : U) (b : Bool) (e : Metadata U) : Advances e (write s b e) := by
  rcases lt_or_ge e.timestamp s with h | h
  · rw [write_of_lt h]
    exact ⟨h.le, fun _ => h⟩
  · rw [write_of_le h]
    exact Advances.refl e

/-- An add of the stamp `s` takes effect: the entry is older, or there is none and the last clear
`c` is older. -/
def AddApplies (c s : U) : Option (Metadata U) → Prop
  | some e => e.timestamp < s
  | none => c < s

theorem addApplies_none {c s : U} : AddApplies c s none ↔ c < s := Iff.rfl

theorem addApplies_some {c s : U} {e : Metadata U} : AddApplies c s (some e) ↔ e.timestamp < s :=
  Iff.rfl

instance (c s : U) (x : Option (Metadata U)) : Decidable (AddApplies c s x) := by
  cases x <;> unfold AddApplies <;> infer_instance

/-- The entry after an add. -/
def addCell (c s : U) : Option (Metadata U) → Metadata U
  | some e => write s false e
  | none => if c < s then ⟨s, false⟩ else ⟨c, true⟩

/-- The entry after a remove. -/
def removeCell (s : U) : Option (Metadata U) → Metadata U
  | some e => write s true e
  | none => ⟨s, true⟩

/-- The entry after a clear at `s`, the last clear having been at `c`. -/
def clearCell (c s : U) (x : Option (Metadata U)) : Option (Metadata U) :=
  if c < s then x.map (write s true) else x

theorem addCell_of_applies {c s : U} {x : Option (Metadata U)} (h : AddApplies c s x) :
    addCell c s x = ⟨s, false⟩ := by
  cases x with
  | none => exact if_pos h
  | some e => exact write_of_lt h false

theorem addCell_of_le {c s : U} {e : Metadata U} (h : s ≤ e.timestamp) :
    addCell c s (some e) = e := write_of_le h false

theorem addCell_none_of_le {c s : U} (h : s ≤ c) : addCell c s none = ⟨c, true⟩ :=
  if_neg h.not_gt

/-- **The three outcomes of an add**: it takes effect, it leaves an entry at least as new, or it is
older than the last clear and leaves a tombstone with the time of that clear. -/
theorem addCell_cases (c s : U) (x : Option (Metadata U)) :
    (AddApplies c s x ∧ addCell c s x = ⟨s, false⟩) ∨
      (∃ e, x = some e ∧ s ≤ e.timestamp ∧ addCell c s x = e) ∨
      (x = none ∧ s ≤ c ∧ addCell c s x = ⟨c, true⟩) := by
  by_cases h : AddApplies c s x
  · exact Or.inl ⟨h, addCell_of_applies h⟩
  · cases x with
    | none =>
      have hle : s ≤ c := not_lt.mp h
      exact Or.inr (Or.inr ⟨rfl, hle, addCell_none_of_le hle⟩)
    | some e =>
      have hle : s ≤ e.timestamp := not_lt.mp h
      exact Or.inr (Or.inl ⟨e, rfl, hle, addCell_of_le hle⟩)

theorem live_addCell {c s : U} {x : Option (Metadata U)} :
    live (some (addCell c s x)) = true ↔ AddApplies c s x ∨ live x = true := by
  rcases addCell_cases c s x with ⟨h, he⟩ | ⟨e, rfl, h, he⟩ | ⟨rfl, h, he⟩
  · simp [he, h]
  · have hn : ¬ AddApplies c s (some e) := h.not_gt
    simp [he, hn]
  · have hn : ¬ AddApplies c s none := h.not_gt
    simp [he, hn]

theorem le_timestamp_addCell (c s : U) (x : Option (Metadata U)) :
    s ≤ (addCell c s x).timestamp := by
  rcases addCell_cases c s x with ⟨-, he⟩ | ⟨e, rfl, h, he⟩ | ⟨rfl, h, he⟩
  · rw [he]
  · rw [he]; exact h
  · rw [he]; exact h

theorem le_timestamp_addCell_some (c s : U) (e : Metadata U) :
    e.timestamp ≤ (addCell c s (some e)).timestamp := (advances_write s false e).1

theorem le_timestamp_addCell_none (c s : U) : c ≤ (addCell c s none).timestamp := by
  unfold addCell
  split_ifs with h
  · exact h.le
  · exact le_rfl

theorem addCell_idem (c s : U) (x : Option (Metadata U)) :
    addCell c s (some (addCell c s x)) = addCell c s x :=
  addCell_of_le (le_timestamp_addCell c s x)

theorem removeCell_cases (s : U) (x : Option (Metadata U)) :
    ((∀ e, x = some e → e.timestamp < s) ∧ removeCell s x = ⟨s, true⟩) ∨
      ∃ e, x = some e ∧ s ≤ e.timestamp ∧ removeCell s x = e := by
  cases x with
  | none => exact Or.inl ⟨fun _ h => (by cases h), rfl⟩
  | some e =>
    rcases lt_or_ge e.timestamp s with h | h
    · exact Or.inl ⟨fun _ he => Option.some.inj he ▸ h, write_of_lt h true⟩
    · exact Or.inr ⟨e, rfl, h, write_of_le h true⟩

theorem le_timestamp_removeCell (s : U) (x : Option (Metadata U)) :
    s ≤ (removeCell s x).timestamp := by
  cases x with
  | none => exact le_rfl
  | some e => rw [removeCell, timestamp_write]; exact le_max_right _ _

@[simp] theorem clearCell_none (c s : U) : clearCell c s none = none := by
  unfold clearCell; split_ifs <;> rfl

theorem clearCell_of_le {c s : U} (h : s ≤ c) (x : Option (Metadata U)) : clearCell c s x = x :=
  if_neg h.not_gt

theorem clearCell_some {c s : U} (h : c < s) (e : Metadata U) :
    clearCell c s (some e) = some (write s true e) := if_pos h

theorem clearCell_of_le_timestamp {s : U} {e : Metadata U} (h : s ≤ e.timestamp) (c : U) :
    clearCell c s (some e) = some e := by
  unfold clearCell
  split_ifs
  · rw [Option.map_some, write_of_le h]
  · rfl

theorem clearCell_cases (c s : U) (x : Option (Metadata U)) :
    (clearCell c s x = x ∧ (c < s → ∀ e, x = some e → s ≤ e.timestamp)) ∨
      c < s ∧ ∃ e, x = some e ∧ e.timestamp < s ∧ clearCell c s x = some ⟨s, true⟩ := by
  rcases lt_or_ge c s with hc | hc
  · cases x with
    | none => exact Or.inl ⟨clearCell_none c s, fun _ _ h => by cases h⟩
    | some e =>
      rw [clearCell_some hc]
      rcases lt_or_ge e.timestamp s with h | h
      · exact Or.inr ⟨hc, e, rfl, h, by rw [write_of_lt h]⟩
      · exact Or.inl ⟨by rw [write_of_le h], fun _ _ he => by cases he; exact h⟩
  · exact Or.inl ⟨clearCell_of_le hc x, fun h => absurd h hc.not_gt⟩

theorem advances_clearCell (c s : U) (e : Metadata U) :
    ∃ e', clearCell c s (some e) = some e' ∧ Advances e e' := by
  unfold clearCell
  split_ifs
  · exact ⟨_, rfl, advances_write s true e⟩
  · exact ⟨e, rfl, Advances.refl e⟩

theorem clearCell_eq_iff {c s : U} {x : Option (Metadata U)} :
    clearCell c s x = x ↔ (c < s → ∀ e, x = some e → s ≤ e.timestamp) := by
  rcases clearCell_cases c s x with ⟨he, hs⟩ | ⟨hc, e, rfl, hlt, he⟩
  · exact ⟨fun _ => hs, fun _ => he⟩
  · refine ⟨fun h => ?_, fun h => absurd (h hc e rfl) hlt.not_ge⟩
    obtain rfl := Option.some.inj (he.symm.trans h)
    exact absurd hlt (lt_irrefl s)

end Cell

/-! ### The abstract container -/

/-- The state of a container, key by key. -/
@[ext] structure Cells (Key U : Type*) where
  clearTime : U
  cell : Key → Option (Metadata U)

namespace Cells

variable [LinearOrder U]

/-- No entries, no clear. -/
def init (Key U : Type*) [Zero U] : Cells Key U := ⟨0, fun _ => none⟩

def clear (x : Cells Key U) (s : U) : Cells Key U where
  clearTime := max x.clearTime s
  cell k := clearCell x.clearTime s (x.cell k)

@[simp] theorem clear_clearTime (x : Cells Key U) (s : U) :
    (x.clear s).clearTime = max x.clearTime s := rfl

@[simp] theorem clear_cell (x : Cells Key U) (s : U) (k : Key) :
    (x.clear s).cell k = clearCell x.clearTime s (x.cell k) := rfl

variable [DecidableEq Key]

def add (x : Cells Key U) (key : Key) (s : U) : Cells Key U :=
  { x with cell := Function.update x.cell key (some (addCell x.clearTime s (x.cell key))) }

def remove (x : Cells Key U) (key : Key) (s : U) : Cells Key U :=
  { x with cell := Function.update x.cell key (some (removeCell s (x.cell key))) }

@[simp] theorem add_clearTime (x : Cells Key U) (k : Key) (s : U) :
    (x.add k s).clearTime = x.clearTime := rfl

@[simp] theorem remove_clearTime (x : Cells Key U) (k : Key) (s : U) :
    (x.remove k s).clearTime = x.clearTime := rfl

theorem add_cell (x : Cells Key U) (k k' : Key) (s : U) :
    (x.add k s).cell k' = if k' = k then some (addCell x.clearTime s (x.cell k)) else x.cell k' :=
  Function.update_apply ..

theorem remove_cell (x : Cells Key U) (k k' : Key) (s : U) :
    (x.remove k s).cell k' = if k' = k then some (removeCell s (x.cell k)) else x.cell k' :=
  Function.update_apply ..

@[simp] theorem add_cell_self (x : Cells Key U) (k : Key) (s : U) :
    (x.add k s).cell k = some (addCell x.clearTime s (x.cell k)) := Function.update_self ..

theorem add_cell_of_ne (x : Cells Key U) {k k' : Key} (h : k' ≠ k) (s : U) :
    (x.add k s).cell k' = x.cell k' := Function.update_of_ne h ..

@[simp] theorem remove_cell_self (x : Cells Key U) (k : Key) (s : U) :
    (x.remove k s).cell k = some (removeCell s (x.cell k)) := Function.update_self ..

theorem remove_cell_of_ne (x : Cells Key U) {k k' : Key} (h : k' ≠ k) (s : U) :
    (x.remove k s).cell k' = x.cell k' := Function.update_of_ne h ..

theorem add_add_cell (x : Cells Key U) (u v k : Key) (s : U) :
    ((x.add u s).add v s).cell k =
      if k = u ∨ k = v then some (addCell x.clearTime s (x.cell k)) else x.cell k := by
  by_cases hv : k = v
  · subst hv
    rw [add_cell_self, if_pos (Or.inr rfl), add_cell]
    split_ifs with hu
    · rw [hu]
      exact congrArg some (addCell_idem x.clearTime s (x.cell u))
    · rfl
  · rw [add_cell_of_ne _ hv, add_cell]
    by_cases hu : k = u
    · rw [if_pos hu, if_pos (Or.inl hu), hu]
    · rw [if_neg hu, if_neg (not_or.mpr ⟨hu, hv⟩)]

theorem remove_remove_cell (x : Cells Key U) (u v k : Key) (s : U) :
    ((x.remove u s).remove v s).cell k =
      if k = u ∨ k = v then some (removeCell s (x.cell k)) else x.cell k := by
  by_cases hv : k = v
  · subst hv
    rw [remove_cell_self, if_pos (Or.inr rfl), remove_cell]
    split_ifs with hu
    · rw [hu]
      exact congrArg some (write_of_le (le_timestamp_removeCell s (x.cell u)) true)
    · rfl
  · rw [remove_cell_of_ne _ hv, remove_cell]
    by_cases hu : k = u
    · rw [if_pos hu, if_pos (Or.inl hu), hu]
    · rw [if_neg hu, if_neg (not_or.mpr ⟨hu, hv⟩)]

theorem add_add_self (x : Cells Key U) (k : Key) (s : U) : (x.add k s).add k s = x.add k s := by
  ext1
  · rfl
  · funext k'
    rw [add_add_cell, add_cell]
    by_cases h : k' = k <;> simp [h]

theorem remove_remove_self (x : Cells Key U) (k : Key) (s : U) :
    (x.remove k s).remove k s = x.remove k s := by
  ext1
  · rfl
  · funext k'
    rw [remove_remove_cell, remove_cell]
    by_cases h : k' = k <;> simp [h]

/-- A modifier and its result: an add returns whether the key became visible, a remove whether it
vanished, a clear whether it is the newest one. -/
def apply (x : Cells Key U) : Op Key U → Cells Key U × Bool
  | .add k s => (x.add k s, !live (x.cell k) && live ((x.add k s).cell k))
  | .remove k s => (x.remove k s, live (x.cell k) && !live ((x.remove k s).cell k))
  | .clear s => (x.clear s, decide (x.clearTime < s))

/-- The abstract container as a machine. -/
def machine (Key U : Type*) [DecidableEq Key] [LinearOrder U] [Zero U] :
    Machine (Cells Key U) (Op Key U) := ⟨init Key U, fun x o => (x.apply o).1⟩

end Cells

/-! ### What a modifier does to one entry -/

variable [LinearOrder U]

/-- The time of the last clear after a modifier. -/
def clearTimeStep (c : U) : Op Key U → U
  | .clear s => max c s
  | _ => c

variable [DecidableEq Key]

/-- The entry of `k` after a modifier, the last clear having been at `c`. -/
def cellStep (k : Key) (c : U) (x : Option (Metadata U)) : Op Key U → Option (Metadata U)
  | .add k' s => if k = k' then some (addCell c s x) else x
  | .remove k' s => if k = k' then some (removeCell s x) else x
  | .clear s => clearCell c s x

theorem Cells.apply_clearTime (x : Cells Key U) (o : Op Key U) :
    (x.apply o).1.clearTime = clearTimeStep x.clearTime o := by
  cases o <;> rfl

theorem Cells.apply_cell (x : Cells Key U) (o : Op Key U) (k : Key) :
    (x.apply o).1.cell k = cellStep k x.clearTime (x.cell k) o := by
  cases o with
  | add k' s =>
    refine (x.add_cell k' k s).trans ?_
    by_cases hk : k = k'
    · subst hk; rfl
    · simp [cellStep, hk]
  | remove k' s =>
    refine (x.remove_cell k' k s).trans ?_
    by_cases hk : k = k'
    · subst hk; rfl
    · simp [cellStep, hk]
  | clear s => rfl

end CollabDatatypes.Container
