import CollabDatatypes.Lib.Fresh
import CollabDatatypes.Container.Order

/-! # One writer at a time: the containers are plain sets

Whatever happened before, operations whose stamps are newer than everything the container has seen,
and increase, act on the visible keys as they do on a plain set without stamps or tombstones, and
return what the plain set returns (`containers_sequential`). So a program that takes its stamps from
one clock need not know that the container is a CRDT. -/

namespace CollabDatatypes.Container

open CollabDatatypes.Lib CollabDatatypes.CmRDT

variable {Key T U : Type*} [DecidableEq Key]

/-- A plain set: which keys are in it. -/
abbrev PlainSet (Key : Type*) := Key → Bool

namespace PlainSet

def add (t : PlainSet Key) (key : Key) : PlainSet Key := Function.update t key true

def remove (t : PlainSet Key) (key : Key) : PlainSet Key := Function.update t key false

/-- A modifier of the plain set, and whether it changed the set; a clear always returns `true`. -/
def apply (t : PlainSet Key) : Op Key U → PlainSet Key × Bool
  | .add key _ => (t.add key, !t key)
  | .remove key _ => (t.remove key, t key)
  | .clear _ => (fun _ => false, true)

end PlainSet

namespace Cells

variable [LinearOrder U] {x : Cells Key U} {o : Op Key U} {u : U}

omit [DecidableEq Key] in
/-- Nothing in the container is as new as `u`. -/
structure Below (x : Cells Key U) (u : U) : Prop where
  clearTime : x.clearTime < u
  cell : ∀ k e, x.cell k = some e → e.timestamp < u

theorem below_step (h : x.Below u) (ho : o.stamp < u) : (x.apply o).1.Below u where
  clearTime := by
    rw [apply_clearTime]
    cases o with
    | add | remove => exact h.clearTime
    | clear s => exact max_lt h.clearTime ho
  cell k e he := by
    rcases entry_step he with he | ⟨rfl, -⟩ | ⟨rfl, -⟩ | ⟨rfl, -⟩ | ⟨s, -, -, -, rfl⟩
    · exact h.cell k e he
    · exact ho
    · exact ho
    · exact ho
    · exact h.clearTime

theorem below_run [Zero U] {d : List (Op Key U)} (h0 : 0 < u) (hd : ∀ o ∈ d, o.stamp < u) :
    ((machine Key U).run d).Below u :=
  Machine.run_invariant_of (I := fun x : Cells Key U => x.Below u) (Q := fun o => Op.stamp o < u) _
    ⟨h0, fun _ _ he => by cases he⟩ (fun _ _ ho hx => below_step hx ho) hd

omit [DecidableEq Key] in
theorem addApplies_of_below {s : U} (h : x.Below s) (k : Key) :
    AddApplies x.clearTime s (x.cell k) := by
  cases he : x.cell k with
  | none => exact h.clearTime
  | some e => exact h.cell k e he

omit [DecidableEq Key] in
theorem addCell_of_below {s : U} (h : x.Below s) (k : Key) :
    addCell x.clearTime s (x.cell k) = ⟨s, false⟩ := addCell_of_applies (addApplies_of_below h k)

omit [DecidableEq Key] in
theorem removeCell_of_below {s : U} (h : x.Below s) (k : Key) :
    removeCell s (x.cell k) = ⟨s, true⟩ := by
  rcases removeCell_cases s (x.cell k) with ⟨-, he⟩ | ⟨e, he, hle, -⟩
  · exact he
  · exact absurd (h.cell k e he) hle.not_gt

omit [DecidableEq Key] in
theorem clearCell_of_below {s : U} (h : x.Below s) (k : Key) :
    clearCell x.clearTime s (x.cell k) = (x.cell k).map fun _ => ⟨s, true⟩ := by
  cases he : x.cell k with
  | none => exact clearCell_none _ _
  | some e =>
    rw [clearCell_some h.clearTime, write_of_lt (h.cell k e he)]
    rfl

/-- The visible keys. -/
def seen (x : Cells Key U) : PlainSet Key := fun k => live (x.cell k)

/-- **An operation newer than the state** acts on the visible keys as on a plain set. -/
theorem seen_apply (h : x.Below o.stamp) :
    (x.apply o).1.seen = (x.seen.apply o).1 ∧ (x.apply o).2 = (x.seen.apply o).2 := by
  cases o with
  | add k s =>
    have ha : addCell x.clearTime s (x.cell k) = ⟨s, false⟩ := addCell_of_below h k
    refine ⟨funext fun k' => ?_, ?_⟩
    · show live ((x.add k s).cell k') = Function.update x.seen k true k'
      rw [add_cell, ha, Function.update_apply]
      split_ifs <;> rfl
    · show (!live (x.cell k) && live ((x.add k s).cell k)) = !live (x.cell k)
      simp [ha]
  | remove k s =>
    have hr : removeCell s (x.cell k) = ⟨s, true⟩ := removeCell_of_below h k
    refine ⟨funext fun k' => ?_, ?_⟩
    · show live ((x.remove k s).cell k') = Function.update x.seen k false k'
      rw [remove_cell, hr, Function.update_apply]
      split_ifs <;> rfl
    · show (live (x.cell k) && !live ((x.remove k s).cell k)) = live (x.cell k)
      simp [hr]
  | clear s =>
    refine ⟨funext fun k' => ?_, decide_eq_true h.clearTime⟩
    have hc : clearCell x.clearTime s (x.cell k') = (x.cell k').map fun _ => ⟨s, true⟩ :=
      clearCell_of_below h k'
    show live (clearCell x.clearTime s (x.cell k')) = false
    rw [hc]
    cases x.cell k' <;> rfl

theorem seen_trace {q : List (Op Key U)} (hx : ∀ o ∈ q, x.Below o.stamp)
    (hq : q.Pairwise fun o o' => o.stamp < o'.stamp) :
    (trace apply x q).1.seen = (trace PlainSet.apply x.seen q).1 ∧
      (trace apply x q).2 = (trace PlainSet.apply x.seen q).2 := by
  refine trace_fresh (R := fun x t => x.seen = t) (B := Below) (fun x o u _ hou hx => ?_)
    ?_ q x _ hq hx rfl
  · exact below_step hx hou
  · rintro x _ o hx rfl
    exact seen_apply hx

theorem below_of_fresh [Zero U] {p q : List (Op Key U)} (h : Fresh Op.stamp p q) (ho : o ∈ q) :
    ((machine Key U).run p).Below o.stamp :=
  below_run (h.pos o ho) fun o' ho' => h.newer o' ho' o ho

end Cells

end CollabDatatypes.Container

namespace CollabDatatypes.CmRDT

open CollabDatatypes.Lib CollabDatatypes.Container

variable {Key T U : Type*} [DecidableEq Key]

namespace LWWSet

/-- The keys a user finds. -/
def seen (s : LWWSet Key U) : PlainSet Key := fun k => s.count k == 1

theorem seen_eq (s : LWWSet Key U) : s.seen = s.cells.seen := by
  funext k
  rw [Bool.eq_iff_iff]
  show (s.count k == 1) = true ↔ live (s.map.lookup k) = true
  rw [beq_iff_eq, count_eq_one]

end LWWSet

namespace LWWMap

/-- The keys a user finds. -/
def seen (m : LWWMap Key T U) : PlainSet Key := fun k => m.count k == 1

theorem seen_eq (m : LWWMap Key T U) : m.seen = m.erase.seen := by
  funext k
  rw [Bool.eq_iff_iff]
  show (m.count k == 1) = true ↔ (m.erase.count k == 1) = true
  rw [beq_iff_eq, beq_iff_eq, count_eq_one, LWWSet.count_eq_one]
  exact Iff.rfl

end LWWMap

end CollabDatatypes.CmRDT

namespace CollabDatatypes.Container

open CollabDatatypes.Lib CollabDatatypes.CmRDT

variable {Key T U : Type*} [DecidableEq Key] [LinearOrder U] [Zero U]

theorem set_sequential {s : LWWSet Key U} {p q : List (Op Key U)}
    (hs : s.cells = (Cells.machine Key U).run p) (hq : Fresh Op.stamp p q) :
    (trace LWWSet.apply s q).1.seen = (trace PlainSet.apply s.seen q).1 ∧
      (trace LWWSet.apply s q).2 = (trace PlainSet.apply s.seen q).2 := by
  obtain ⟨h1, h2⟩ := trace_cells LWWSet.cells_apply q s
  obtain ⟨h3, h4⟩ := Cells.seen_trace (x := s.cells) (q := q)
    (fun o ho => hs ▸ Cells.below_of_fresh hq ho) hq.increasing
  rw [LWWSet.seen_eq, LWWSet.seen_eq, h1, h2]
  exact ⟨h3, h4⟩

variable [Inhabited T]

/-- **One writer at a time.** After any history, operations with fresh and increasing stamps act on a
set or a map as on a plain set: the visible keys are those of the plain set, and so is every result.
The user of a map may write values at any time. -/
theorem containers_sequential :
    (∀ p q : List (Op Key U), Fresh Op.stamp p q →
      let s := (LWWSet.machine Key U).run p
      (trace LWWSet.apply s q).1.seen = (trace PlainSet.apply s.seen q).1 ∧
        (trace LWWSet.apply s q).2 = (trace PlainSet.apply s.seen q).2) ∧
    ∀ p q : List (LWWMap.Access Key T U),
      Fresh Op.stamp (p.filterMap LWWMap.Access.asModifier)
        (q.filterMap LWWMap.Access.asModifier) →
      let m := (LWWMap.userMachine Key T U).run p
      let r := trace PlainSet.apply m.seen (q.filterMap LWWMap.Access.asModifier)
      (trace LWWMap.access m q).1.seen = r.1 ∧
        (trace LWWMap.access m q).2.reduceOption = r.2 := by
  refine ⟨fun p q h => set_sequential (LWWSet.cells_run p) h, fun p q h => ?_⟩
  intro m r
  obtain ⟨h1, h2⟩ := LWWMap.trace_erase q m
  obtain ⟨h3, h4⟩ := set_sequential (LWWMap.cells_userRun p) h
  rw [LWWMap.seen_eq, h1, h2]
  rw [← LWWMap.seen_eq m] at h3 h4
  exact ⟨h3, h4⟩

/-- A clear, a removal and an addition that came out of order, and then a removal and an addition. -/
theorem containers_sequential_late :
    (let s := (LWWSet.machine ℕ ℕ).run [.clear 5, .remove 0 1, .add 0 3]
     (trace LWWSet.apply s [.remove 0 6, .add 1 7]).1.seen =
          (trace PlainSet.apply s.seen [Op.remove 0 6, .add 1 7]).1 ∧
        (trace LWWSet.apply s [.remove 0 6, .add 1 7]).2 =
          (trace PlainSet.apply s.seen [Op.remove 0 6, .add 1 7]).2) ∧
    (let m := (LWWMap.userMachine ℕ ℕ ℕ).run [.modifier (.add 0 3), .atKey 0 (· + 1)]
     let r := trace PlainSet.apply m.seen [Op.remove 0 6]
     (trace LWWMap.access m [.modifier (.remove 0 6), .crdtAt 0 (· + 1)]).1.seen = r.1 ∧
        (trace LWWMap.access m [.modifier (.remove 0 6), .crdtAt 0 (· + 1)]).2.reduceOption =
          r.2) :=
  ⟨(containers_sequential (T := ℕ)).1 [.clear 5, .remove 0 1, .add 0 3] [.remove 0 6, .add 1 7]
      (by decide),
    containers_sequential.2 [.modifier (.add 0 3), .atKey 0 (· + 1)]
      [.modifier (.remove 0 6), .crdtAt 0 (· + 1)] (by decide)⟩

end CollabDatatypes.Container

/-! ### Replicas that meet again -/

namespace CollabDatatypes.Container

open CollabDatatypes.Lib CollabDatatypes.CmRDT

variable {Key T U : Type*}

/-- The modifier says whether `k` is in a plain set. -/
def Settles (k : Key) (o : Op Key U) : Prop := Names k o ∨ ∃ s, o = .clear s

variable [DecidableEq Key]

theorem PlainSet.apply_agree {t t' : PlainSet Key} {k : Key} {o : Op Key U} :
    (t.apply o).1 k = (t'.apply o).1 k ↔ Settles k o ∨ t k = t' k := by
  cases o with
  | add k' s =>
    have hk : k' = k ↔ k = k' := eq_comm
    by_cases h : k = k' <;> simp [apply, add, Settles, Names, Adds, Removes, hk, h]
  | remove k' s =>
    have hk : k' = k ↔ k = k' := eq_comm
    by_cases h : k = k' <;> simp [apply, remove, Settles, Names, Adds, Removes, hk, h]
  | clear s => simp [apply, Settles]

theorem PlainSet.trace_agree {k : Key} : ∀ (q : List (Op Key U)) (t t' : PlainSet Key),
    (trace apply t q).1 k = (trace apply t' q).1 k ↔ (∃ o ∈ q, Settles k o) ∨ t k = t' k := by
  intro q
  induction q with
  | nil => simp [trace]
  | cons o q ih =>
    intro t t'
    show (trace apply (t.apply o).1 q).1 k = (trace apply (t'.apply o).1 q).1 k ↔ _
    rw [ih, PlainSet.apply_agree]
    simp only [List.mem_cons, exists_eq_or_imp]
    rw [← or_assoc, or_comm (a := ∃ o ∈ q, Settles k o)]

variable [LinearOrder U] [Zero U]

theorem set_agree {s s' : LWWSet Key U} {p p' q : List (Op Key U)}
    (hs : s.cells = (Cells.machine Key U).run p) (hs' : s'.cells = (Cells.machine Key U).run p')
    (hq : Fresh Op.stamp p q) (hq' : Fresh Op.stamp p' q) (k : Key) :
    (trace LWWSet.apply s q).1.seen k = (trace LWWSet.apply s' q).1.seen k ↔
      (∃ o ∈ q, Settles k o) ∨ s.seen k = s'.seen k := by
  rw [(set_sequential hs hq).1, (set_sequential hs' hq').1]
  exact PlainSet.trace_agree q _ _

variable [Inhabited T]

/-- **Resynchronisation.** Two replicas, with any histories, that go on with the same fresh modifiers
agree on a key from then on exactly if one of these names the key or clears, or they agreed on it
before. The users of the maps may write values at any time. -/
theorem containers_resync :
    (∀ p p' q : List (Op Key U), Fresh Op.stamp p q → Fresh Op.stamp p' q → ∀ k,
      (((LWWSet.machine Key U).run (p ++ q)).seen k =
          ((LWWSet.machine Key U).run (p' ++ q)).seen k ↔
        (∃ o ∈ q, Settles k o) ∨
          ((LWWSet.machine Key U).run p).seen k = ((LWWSet.machine Key U).run p').seen k)) ∧
    ∀ p p' q q' : List (LWWMap.Access Key T U),
      q'.filterMap LWWMap.Access.asModifier = q.filterMap LWWMap.Access.asModifier →
      Fresh Op.stamp (p.filterMap LWWMap.Access.asModifier)
        (q.filterMap LWWMap.Access.asModifier) →
      Fresh Op.stamp (p'.filterMap LWWMap.Access.asModifier)
        (q.filterMap LWWMap.Access.asModifier) → ∀ k,
      (((LWWMap.userMachine Key T U).run (p ++ q)).seen k =
          ((LWWMap.userMachine Key T U).run (p' ++ q')).seen k ↔
        (∃ o ∈ q.filterMap LWWMap.Access.asModifier, Settles k o) ∨
          ((LWWMap.userMachine Key T U).run p).seen k =
            ((LWWMap.userMachine Key T U).run p').seen k) := by
  refine ⟨fun p p' q hq hq' k => ?_, fun p p' q q' hqq hq hq' k => ?_⟩
  · have hrun : ∀ p, (LWWSet.machine Key U).run (p ++ q) =
        (trace LWWSet.apply ((LWWSet.machine Key U).run p) q).1 :=
      fun p => run_append_eq_trace LWWSet.apply _ p q
    rw [hrun, hrun]
    exact set_agree (LWWSet.cells_run p) (LWWSet.cells_run p') hq hq' k
  · rw [LWWMap.seen_eq, LWWMap.seen_eq, LWWMap.seen_eq, LWWMap.seen_eq, LWWMap.erase_userRun,
      LWWMap.erase_userRun, LWWMap.erase_userRun, LWWMap.erase_userRun, List.filterMap_append,
      List.filterMap_append, hqq]
    have hrun : ∀ p, (LWWSet.machine Key U).run (p ++ q.filterMap LWWMap.Access.asModifier) =
        (trace LWWSet.apply ((LWWSet.machine Key U).run p)
          (q.filterMap LWWMap.Access.asModifier)).1 :=
      fun p => run_append_eq_trace LWWSet.apply _ p _
    rw [hrun, hrun]
    exact set_agree (LWWSet.cells_run _) (LWWSet.cells_run _) hq hq' k

/-- Two replicas that disagree on the keys `0` and `1`, and both see `0` removed. -/
theorem containers_resync_one :
    (((LWWSet.machine ℕ ℕ).run ([.add 0 3] ++ [.remove 0 6])).seen 1 =
        ((LWWSet.machine ℕ ℕ).run ([.add 1 4] ++ [.remove 0 6])).seen 1 ↔
      (∃ o ∈ [Op.remove 0 6], Settles 1 o) ∨
        ((LWWSet.machine ℕ ℕ).run [.add 0 3]).seen 1 =
          ((LWWSet.machine ℕ ℕ).run [.add 1 4]).seen 1) ∧
    (((LWWMap.userMachine ℕ ℕ ℕ).run
          ([.modifier (.add 0 3)] ++ [.modifier (.remove 0 6), .crdtAt 0 (· + 1)])).seen 0 =
        ((LWWMap.userMachine ℕ ℕ ℕ).run
          ([.modifier (.add 1 4)] ++ [.atKey 1 (· + 1), .modifier (.remove 0 6)])).seen 0 ↔
      (∃ o ∈ [LWWMap.Access.modifier (.remove 0 6), .crdtAt 0 (fun v : ℕ => v + 1)].filterMap
          LWWMap.Access.asModifier, Settles 0 o) ∨
        ((LWWMap.userMachine ℕ ℕ ℕ).run [.modifier (.add 0 3)]).seen 0 =
          ((LWWMap.userMachine ℕ ℕ ℕ).run [.modifier (.add 1 4)]).seen 0) :=
  ⟨(containers_resync (T := ℕ)).1 [.add 0 3] [.add 1 4] [.remove 0 6] (by decide) (by decide) 1,
    containers_resync.2 [.modifier (.add 0 3)] [.modifier (.add 1 4)]
      [.modifier (.remove 0 6), .crdtAt 0 (· + 1)] [.atKey 1 (· + 1), .modifier (.remove 0 6)]
      rfl (by decide) (by decide) 0⟩

end CollabDatatypes.Container
