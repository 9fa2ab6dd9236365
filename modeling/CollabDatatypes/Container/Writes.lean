import CollabDatatypes.Container.Map

/-! # Maps and their users

A user of a map also writes values, through references and iterators. A write changes no key, stamp
or flag, so what was said of runs of the modifiers holds with any writes in between: the map without
its values is the set that received the same modifiers (`refines_set`), and the counter is right
(`counted_access`). -/

namespace CollabDatatypes.CmRDT

open CollabDatatypes.Lib CollabDatatypes.Container

variable {Key T U : Type*} [DecidableEq Key]

/-- The map agrees with the set: the same keys with the same stamps and flags, the same number of
visible keys, time of the last clear, and visible keys. -/
structure LWWMap.Agrees (m : LWWMap Key T U) (s : LWWSet Key U) : Prop where
  entries : ∀ k, (m.crdtFind k).map (fun e => (e.timestamp, e.isRemoved)) =
    (s.crdtFind k).map fun e => (e.timestamp, e.isRemoved)
  size : m.size = s.size
  lastClearTime : m.lastClearTime = s.lastClearTime
  keys : ∀ k, k ∈ m.keys ↔ k ∈ s.keys

namespace LWWMap

theorem agrees_erase (m : LWWMap Key T U) : m.Agrees m.erase where
  entries k := by
    show (m.map.lookup k).map _ = (m.cells.cell k).map _
    rw [cells_cell, Option.map_map]
    rfl
  size := rfl
  lastClearTime := rfl
  keys k := by
    rw [mem_keys, LWWSet.mem_keys]
    exact Iff.rfl

theorem erase_writeThrough (m : LWWMap Key T U) (key : Key) (f : T → T) (r : Except OutOfRange T) :
    (m.writeThrough key f r).erase = m.erase := by
  cases r with
  | error _ => rfl
  | ok _ => exact erase_modify m key f

variable [LinearOrder U] [Zero U] [Inhabited T]

theorem erase_access (m : LWWMap Key T U) {a : Access Key T U} (ha : a.asModifier = none) :
    (m.access a).1.erase = m.erase ∧ (m.access a).2 = none := by
  cases a with
  | modifier o => cases ha
  | atKey key f => exact ⟨erase_writeThrough m key f _, rfl⟩
  | crdtAt key f => exact ⟨erase_writeThrough m key f _, rfl⟩
  | loop f => exact ⟨erase_forEach m _, rfl⟩
  | crdtLoop f => exact ⟨erase_forEach m f, rfl⟩

theorem counted_access {m : LWWMap Key T U} (h : m.Counted) (a : Access Key T U) :
    (m.access a).1.Counted := by
  cases ha : a.asModifier with
  | none =>
    unfold Counted
    rwa [(erase_access m ha).1]
  | some o =>
    cases a with
    | modifier o => exact counted_apply h o
    | _ => cases ha

theorem counted_userRun (l : List (Access Key T U)) : ((userMachine Key T U).run l).Counted :=
  Machine.run_invariant (I := Counted) (userMachine Key T U) LWWSet.counted_empty
    (fun _ a h => counted_access h a) l

/-- From any state, a map that receives modifiers and writes answers like the set behind it. -/
theorem trace_erase (l : List (Access Key T U)) (m : LWWMap Key T U) :
    (trace access m l).1.erase = (trace LWWSet.apply m.erase (l.filterMap Access.asModifier)).1 ∧
      (trace access m l).2.reduceOption =
        (trace LWWSet.apply m.erase (l.filterMap Access.asModifier)).2 := by
  refine trace_filterMap (R := fun (m : LWWMap Key T U) s => m.erase = s) ?_ ?_ l m _ rfl
  · rintro m _ a o ha rfl
    cases a with
    | modifier o' =>
      obtain rfl := Option.some.inj ha
      obtain ⟨h1, h2⟩ := erase_apply m o'
      exact ⟨h1, congrArg some h2⟩
    | _ => cases ha
  · rintro m _ a ha rfl
    exact erase_access m ha

theorem erase_userRun (l : List (Access Key T U)) : ((userMachine Key T U).run l).erase =
    (LWWSet.machine Key U).run (l.filterMap Access.asModifier) := by
  have hp := (trace_erase l (empty : LWWMap Key T U)).1
  rw [← foldl_eq_trace, ← foldl_eq_trace] at hp
  exact hp

theorem cells_userRun (l : List (Access Key T U)) : ((userMachine Key T U).run l).cells =
    (Cells.machine Key U).run (l.filterMap Access.asModifier) := by
  rw [cells, erase_userRun, LWWSet.cells_run]

/-- **The map refines the set**: a map that receives modifiers and writes returns, at every modifier,
what a set returns that receives the modifiers, and agrees with it after every list of operations. -/
theorem refines_set (l : List (Access Key T U)) :
    (trace access (empty : LWWMap Key T U) l).2.reduceOption =
        (trace LWWSet.apply (LWWSet.empty : LWWSet Key U) (l.filterMap Access.asModifier)).2 ∧
      (trace access (empty : LWWMap Key T U) l).1.Agrees
        (trace LWWSet.apply LWWSet.empty (l.filterMap Access.asModifier)).1 := by
  obtain ⟨hstate, hresults⟩ := trace_erase l (empty : LWWMap Key T U)
  have hempty : (empty : LWWMap Key T U).erase = LWWSet.empty := rfl
  rw [hempty] at hstate hresults
  exact ⟨hresults, hstate ▸ agrees_erase _⟩

end LWWMap

end CollabDatatypes.CmRDT
