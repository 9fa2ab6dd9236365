import CollabDatatypes.Lib.Standing
import CollabDatatypes.Container.Outcomes
import CollabDatatypes.Container.Register
import CollabDatatypes.Container.Writes

/-! # Maps of registers

The values of a map are no CRDTs by themselves; the source proposes registers for values, updated
where a lookup finds them. The register of a key is then a register that received the updates of this
key from the first modifier on that names the key: earlier ones find no element, and are lost
(`map_register_run`). If every update comes after such a modifier, replicas that received the same
modifiers and updates hold the same registers (`map_registers_converge`). -/

namespace CollabDatatypes.Container

open CollabDatatypes.Lib CollabDatatypes.CmRDT

/-- What the replicas of a container of registers send each other: its modifiers, and updates of the
register of a key. -/
inductive Message (ω Key V U : Type*)
  | modifier (o : ω)
  | update (key : Key) (o : Update V U)
  deriving DecidableEq

namespace Message

variable {ω Key V U : Type*}

def asModifier : Message ω Key V U → Option ω
  | .modifier o => some o
  | .update _ _ => none

/-- The update of the register of `k` that the message carries, if it does. -/
def asUpdate [DecidableEq Key] (k : Key) : Message ω Key V U → Option (Update V U)
  | .modifier _ => none
  | .update key o => if key = k then some o else none

/-- The message is a modifier that creates an element for a key it `names`. -/
def opens (names : ω → Bool) : Message ω Key V U → Bool
  | .modifier o => names o
  | .update _ _ => false

theorem asUpdate_of_opens [DecidableEq Key] {names : ω → Bool} (k : Key) (o : Message ω Key V U)
    (h : o.opens names = true) : o.asUpdate k = none := by
  cases o with
  | modifier o => rfl
  | update key o => cases h

theorem any_opens_of_update [DecidableEq Key] {opens : Message ω Key V U → Bool} {k : Key}
    {d : List (Message ω Key V U)} {us : List (Update V U)} {a : Update V U}
    (h : Announced opens (asUpdate k) d) (hd : Machine.Delivers us (d.filterMap (asUpdate k)))
    (ha : a ∈ us) : d.any opens = true := by
  obtain ⟨o, ho, hupd⟩ := List.mem_filterMap.mp ((hd a).mpr ha)
  obtain ⟨p, q, rfl⟩ := List.append_of_mem ho
  have hopen : p.any opens = true := h p o q rfl (by rw [hupd]; rfl)
  rw [List.any_append, hopen, Bool.true_or]

end Message

/-- The modifier is an `add` or a `remove` of `k`. -/
def namesKey {Key U : Type*} [DecidableEq Key] (k : Key) : Op Key U → Bool
  | .add key _ => key = k
  | .remove key _ => key = k
  | .clear _ => false

theorem Cells.isSome_apply {Key U : Type*} [DecidableEq Key] [LinearOrder U] (x : Cells Key U)
    (o : Op Key U) (k : Key) :
    ((x.apply o).1.cell k).isSome = ((x.cell k).isSome || namesKey k o) := by
  rw [apply_cell]
  cases o with
  | add key s => by_cases hk : k = key <;> simp [cellStep, namesKey, hk, eq_comm]
  | remove key s => by_cases hk : k = key <;> simp [cellStep, namesKey, hk, eq_comm]
  | clear s => by_cases hs : x.clearTime < s <;> simp [cellStep, clearCell, namesKey, hs]

end CollabDatatypes.Container

namespace CollabDatatypes.CmRDT

open CollabDatatypes.Lib CollabDatatypes.Container

variable {Key V U : Type*} [DecidableEq Key] [LinearOrder U] [Zero U] [Inhabited V]

/-- `LWWRegister()`, as the map creates it for a new key. -/
instance : Inhabited (LWWRegister V U) := ⟨LWWRegister.empty default⟩

/-- The register a new key gets, driven by its updates. -/
def LWWRegister.fresh (V U : Type*) [LinearOrder U] [Zero U] [Inhabited V] :
    Machine (LWWRegister V U) (Update V U) := LWWRegister.machine U default

omit [LinearOrder U] [Zero U] [Inhabited V] in
theorem LWWRegister.beq_self [BEq V] [ReflBEq V] (r : LWWRegister V U) : (r == r) = true :=
  BEq.rfl (a := r.reg)

omit [Inhabited V] in
theorem LWWRegister.run_congr {ops d d' : List (Update V U)} (h : Stamped Update.stamp ops)
    (hd : Machine.Delivers ops d) (hd' : Machine.Delivers ops d') (reg : V) :
    (LWWRegister.machine U reg).run d = (LWWRegister.machine U reg).run d' := by
  rcases ops with _ | ⟨o, ops⟩
  · have hnil : ∀ {d : List (Update V U)}, Machine.Delivers [] d → d = [] := fun hd =>
      List.eq_nil_iff_forall_not_mem.mpr fun o ho => List.not_mem_nil ((hd o).mp ho)
    rw [hnil hd, hnil hd']
  · obtain ⟨a, ha⟩ := exists_newest Update.stamp (p := fun _ => True) ⟨o, List.mem_cons_self, trivial⟩
    rw [run_of_delivers h ha hd reg, run_of_delivers h ha hd' reg]

namespace LWWMap

/-- A replica of a map of registers: an update goes through the reference that `crdt_at` returns. -/
def registers (Key V U : Type*) [DecidableEq Key] [LinearOrder U] [Zero U] [Inhabited V] :
    Machine (LWWMap Key (LWWRegister V U) U) (Message (Op Key U) Key V U) where
  init := empty
  step m
    | .modifier o => (m.apply o).1
    | .update key o => m.writeThrough key (fun r => (r.apply o).1) (m.crdtAt key)

/-- The register of `k`, a new one if there is no element. -/
def registerOf (m : LWWMap Key (LWWRegister V U) U) (k : Key) : LWWRegister V U :=
  (m.valueOf k).getD default

variable {m : LWWMap Key (LWWRegister V U) U} {k : Key}

theorem erase_registers (d : List (Message (Op Key U) Key V U)) :
    ((registers Key V U).run d).erase =
      (LWWSet.machine Key U).run (d.filterMap Message.asModifier) := by
  induction d using List.reverseRecOn with
  | nil => rfl
  | append_singleton d o ih =>
    rw [Machine.run_concat, List.filterMap_append]
    cases o with
    | modifier o =>
      show _ = (LWWSet.machine Key U).run (d.filterMap Message.asModifier ++ [o])
      rw [Machine.run_concat, ← ih]
      exact (erase_apply _ o).1
    | update key o =>
      show _ = (LWWSet.machine Key U).run (d.filterMap Message.asModifier ++ [])
      rw [List.append_nil, ← ih]
      exact erase_writeThrough _ key _ _

theorem cells_registers (d : List (Message (Op Key U) Key V U)) :
    ((registers Key V U).run d).cells =
      (Cells.machine Key U).run (d.filterMap Message.asModifier) := by
  rw [cells, erase_registers, LWWSet.cells_run]

theorem counted_registers (d : List (Message (Op Key U) Key V U)) :
    ((registers Key V U).run d).Counted := by
  unfold Counted
  rw [erase_registers]
  exact LWWSet.counted_run _

/-! ### The register of a key -/

theorem isSome_step (o : Message (Op Key U) Key V U) :
    (((registers Key V U).step m o).cells.cell k).isSome =
      ((m.cells.cell k).isSome || o.opens (namesKey k)) := by
  cases o with
  | modifier o =>
    show (((m.apply o).1).cells.cell k).isSome = ((m.cells.cell k).isSome || namesKey k o)
    rw [(cells_apply m o).1, Cells.isSome_apply]
  | update key o =>
    have hcells : ((registers Key V U).step m (.update key o)).cells = m.cells :=
      congrArg LWWSet.cells (erase_writeThrough m key _ _)
    rw [hcells]
    exact (Bool.or_false _).symm

theorem registerOf_step (o : Message (Op Key U) Key V U) :
    ((registers Key V U).step m o).registerOf k = if (m.cells.cell k).isSome then
      (o.asUpdate k).elim (m.registerOf k) ((LWWRegister.fresh V U).step (m.registerOf k))
    else m.registerOf k := by
  cases o with
  | modifier o =>
    show ((m.apply o).1.valueOf k).getD default = if _ then m.registerOf k else m.registerOf k
    rw [getD_valueOf_apply, ite_self]
    rfl
  | update key o =>
    show ((m.writeThrough key (fun r => (r.apply o).1) (m.crdtAt key)).valueOf k).getD default =
      if _ then (if key = k then some o else none).elim _ _ else _
    unfold crdtAt
    rw [cells_cell]
    rcases eq_or_ne key k with rfl | hk
    · cases he : m.map.lookup key with
      | none => rfl
      | some elt =>
        have hv : m.valueOf key = some elt.value := by rw [valueOf, he]; rfl
        show ((m.modify key _).valueOf key).getD default = _
        rw [valueOf_modify, if_pos rfl, hv]
        simp [registerOf, hv, LWWRegister.fresh, LWWRegister.machine]
    · have hsame : ((m.writeThrough key (fun r => (r.apply o).1) (m.crdtAt key)).valueOf k) =
          m.valueOf k := by
        cases m.crdtAt key with
        | ok _ => rw [writeThrough, valueOf_modify, if_neg hk.symm]
        | error _ => rfl
      rw [if_neg hk]
      simpa [registerOf, crdtAt] using congrArg (Option.getD · default) hsame

/-- **The register of a key** received the updates since a modifier first named the key. -/
theorem map_register_run (d : List (Message (Op Key U) Key V U)) (k : Key) :
    (((registers Key V U).run d).cells.cell k).isSome = d.any (Message.opens (namesKey k)) ∧
      ((registers Key V U).run d).registerOf k = (LWWRegister.fresh V U).run
        (sinceOpened (Message.opens (namesKey k)) (Message.asUpdate k) d) :=
  run_sinceOpened (f := fun m => registerOf m k)
    (e := fun m : LWWMap Key (LWWRegister V U) U => (m.cells.cell k).isSome)
    (Message.asUpdate_of_opens k) rfl rfl (fun _ o => isSome_step o) (fun _ o => registerOf_step o) d

/-! ### Replicas -/

omit [LinearOrder U] in
theorem visible_eq_registerOf (m : LWWMap Key (LWWRegister V U) U) (k : Key) :
    m.visible k = if live (m.cells.cell k) then some (m.registerOf k) else none := by
  unfold visible
  split_ifs with hl
  · obtain ⟨v, hv⟩ := Option.isSome_iff_exists.mp ((isSome_visible m k).trans hl)
    rw [registerOf, valueOf_of_visible hv]
    rfl
  · rfl

omit [LinearOrder U] in
theorem crdtAt_eq_registerOf (m : LWWMap Key (LWWRegister V U) U) (k : Key) : m.crdtAt k =
    if (m.cells.cell k).isSome then .ok (m.registerOf k) else .error noElement := by
  rw [cells_cell]
  unfold crdtAt registerOf valueOf
  cases m.map.lookup k <;> rfl

variable {ops d d' : List (Message (Op Key U) Key V U)}

theorem registerOf_of_announced (h : Announced (Message.opens (namesKey k)) (Message.asUpdate k) d) :
    ((registers Key V U).run d).registerOf k =
      (LWWRegister.fresh V U).run (d.filterMap (Message.asUpdate k)) := by
  rw [(map_register_run d k).2, sinceOpened_of_announced (Message.asUpdate_of_opens k) h]

/-- **Maps of registers converge** when their keys do: if no other key may show than those added last,
and every update comes after a modifier that names its key, replicas that received the same modifiers
and updates are equal, and `crdt_at` finds the newest update of a key. -/
theorem map_registers_converge [BEq V] [ReflBEq V]
    (hm : ∀ o ∈ ops.filterMap Message.asModifier, 0 < o.stamp)
    (hno : ∀ k, MayShow (ops.filterMap Message.asModifier) k →
      LastWins Op.stamp (Adds k) (Kills k) (ops.filterMap Message.asModifier))
    (hu : ∀ k, Stamped Update.stamp (ops.filterMap (Message.asUpdate k)))
    (hd : Machine.Delivers ops d) (hd' : Machine.Delivers ops d')
    (h : ∀ k, Announced (Message.opens (namesKey k)) (Message.asUpdate k) d)
    (h' : ∀ k, Announced (Message.opens (namesKey k)) (Message.asUpdate k) d') :
    ((registers Key V U).run d == (registers Key V U).run d') = true ∧
      ∀ k a, Newest Update.stamp (fun _ => True) (ops.filterMap (Message.asUpdate k)) a →
        ((registers Key V U).run d).crdtAt k = .ok ⟨a.value, a.stamp⟩ := by
  have hreg : ∀ k, ((registers Key V U).run d).registerOf k =
      ((registers Key V U).run d').registerOf k := by
    intro k
    rw [registerOf_of_announced (h k), registerOf_of_announced (h' k)]
    exact LWWRegister.run_congr (hu k) (delivers_filterMap hd _) (delivers_filterMap hd' _) default
  refine ⟨(beq_iff (counted_registers d) (counted_registers d')).mpr fun k => ?_, fun k a ha => ?_⟩
  · have hlive : live (((registers Key V U).run d).cells.cell k) =
        live (((registers Key V U).run d').cells.cell k) := by
      rw [cells_registers, cells_registers]
      exact (Cells.same_visible_iff (Positive.of_pos hm)).mpr hno _ _ (delivers_filterMap hd _)
        (delivers_filterMap hd' _) k
    rw [visible_eq_registerOf, visible_eq_registerOf, hlive, hreg k]
    split_ifs
    · exact Option.Rel.some ⟨LWWRegister.beq_self _, LWWRegister.beq_self _⟩
    · exact Option.Rel.none
  · rw [crdtAt_eq_registerOf, (map_register_run d k).1,
      if_pos (Message.any_opens_of_update (h k) (delivers_filterMap hd _) ha.1),
      registerOf_of_announced (h k)]
    exact congrArg Except.ok (LWWRegister.run_of_delivers (hu k) ha (delivers_filterMap hd _) default)

end LWWMap

end CollabDatatypes.CmRDT
