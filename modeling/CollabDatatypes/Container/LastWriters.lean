import CollabDatatypes.Container.Convergence
import CollabDatatypes.Container.Outcomes

/-! # What containers converge to

A delivery in the order of the stamps shows the last writers of the collection, the keys whose newest
`add` is newer than every `remove` and `clear` of them. Deliveries end in equal containers exactly
when all of them show these, that is, when no other key may show (`converge_iff_lastWriters`). -/

namespace CollabDatatypes.Container

open CollabDatatypes.Lib CollabDatatypes.CmRDT

variable {Key T U : Type*} [LinearOrder U] {ops d : List (Op Key U)} {k : Key}

/-! ### Deliveries in the order of the stamps -/

/-- The plain set as a machine. -/
def PlainSet.machine (Key U : Type*) [DecidableEq Key] : Machine (PlainSet Key) (Op Key U) :=
  ⟨fun _ => false, fun t o => (t.apply o).1⟩

omit [LinearOrder U] in
theorem PlainSet.apply_iff [DecidableEq Key] {t : PlainSet Key} {o : Op Key U} :
    (t.apply o).1 k = true ↔ Adds k o ∨ ¬ Kills k o ∧ t k = true := by
  cases o with
  | add k' s =>
    have hk : k' = k ↔ k = k' := eq_comm
    by_cases h : k = k' <;> simp [apply, add, Adds, Kills, Removes, hk, h]
  | remove k' s =>
    have hk : k' = k ↔ k = k' := eq_comm
    by_cases h : k = k' <;> simp [apply, remove, Adds, Kills, Removes, hk, h]
  | clear s => simp [apply, Adds, Kills]

/-- **In the order of the stamps**, the plain set shows the last writers. -/
theorem PlainSet.lastWriters_run [DecidableEq Key]
    (hd : d.Pairwise fun o o' => o.stamp < o'.stamp) : (PlainSet.machine Key U).run d k = true ↔
      LastWins Op.stamp (Adds k) (Kills k) d := by
  induction d using List.reverseRecOn with
  | nil => simp [machine, LastWins]
  | append_singleton d o ih =>
    obtain ⟨hp, -, hlt⟩ := List.pairwise_append.mp hd
    rw [Machine.run_concat, lastWins_concat fun o' ho' => hlt o' ho' o (by simp), ← ih hp]
    · exact PlainSet.apply_iff
    · rintro ⟨s, rfl⟩ hkill
      simp [Kills, Removes] at hkill

/-! ### The two containers -/

section Containers

variable [DecidableEq Key] [Zero U]

theorem sorted_live (h0 : ∀ o ∈ d, 0 < o.stamp) (hd : d.Pairwise fun o o' => o.stamp < o'.stamp)
    (k : Key) : live (((Cells.machine Key U).run d).cell k) = true ↔
      LastWins Op.stamp (Adds k) (Kills k) d := by
  obtain ⟨hs, -⟩ := Cells.seen_trace (x := Cells.init Key U)
    (fun o ho => ⟨h0 o ho, fun _ _ he => by cases he⟩) hd
  rw [← PlainSet.lastWriters_run hd]
  have hrun := congrFun hs k
  rw [← foldl_eq_trace, ← foldl_eq_trace] at hrun
  exact Bool.eq_iff_iff.mp hrun

theorem set_beq_run (d d' : List (Op Key U)) :
    ((LWWSet.machine Key U).run d == (LWWSet.machine Key U).run d') = true ↔ ∀ k,
      live (((Cells.machine Key U).run d).cell k) =
        live (((Cells.machine Key U).run d').cell k) := by
  rw [LWWSet.beq_iff (LWWSet.counted_run d) (LWWSet.counted_run d'), ← LWWSet.cells_run,
    ← LWWSet.cells_run]
  exact Iff.rfl

variable [Inhabited T] [BEq T]

theorem map_beq_run (hT : ((default : T) == default) = true) (d d' : List (Op Key U)) :
    ((LWWMap.machine Key T U).run d == (LWWMap.machine Key T U).run d') = true ↔ ∀ k,
      live (((Cells.machine Key U).run d).cell k) =
        live (((Cells.machine Key U).run d').cell k) := by
  rw [LWWMap.beq_iff (LWWMap.counted_run d) (LWWMap.counted_run d')]
  refine forall_congr' fun k => ?_
  rw [visible_run, visible_run, LWWMap.cells_run, LWWMap.cells_run]
  cases live (((Cells.machine Key U).run d).cell k) <;>
    cases live (((Cells.machine Key U).run d').cell k) <;> simp [hT]

/-- **What the containers converge to.** A delivery in the order of the stamps shows the last writers
of the collection. The deliveries end in equal containers exactly when all of them do, and exactly
when no other key may show. The default value has to equal itself. -/
theorem converge_iff_lastWriters (hT : ((default : T) == default) = true)
    (h : ∀ o ∈ ops, 0 < o.stamp) :
    (∀ d, Machine.Delivers ops d → (d.Pairwise fun o o' => o.stamp < o'.stamp) → ∀ k,
      (((LWWSet.machine Key U).run d).seen k = true ↔ LastWins Op.stamp (Adds k) (Kills k) ops) ∧
      (((LWWMap.machine Key T U).run d).seen k = true ↔
        LastWins Op.stamp (Adds k) (Kills k) ops)) ∧
    (((LWWSet.machine Key U).ConvergesOn (fun a b => (a == b) = true) ops ↔
        ∀ k, MayShow ops k → LastWins Op.stamp (Adds k) (Kills k) ops) ∧
      ((LWWSet.machine Key U).ConvergesOn (fun a b => (a == b) = true) ops ↔
        ∀ d, Machine.Delivers ops d → ∀ k, ((LWWSet.machine Key U).run d).seen k = true ↔
          LastWins Op.stamp (Adds k) (Kills k) ops)) ∧
    ((LWWMap.machine Key T U).ConvergesOn (fun a b => (a == b) = true) ops ↔
        ∀ k, MayShow ops k → LastWins Op.stamp (Adds k) (Kills k) ops) ∧
      ((LWWMap.machine Key T U).ConvergesOn (fun a b => (a == b) = true) ops ↔
        ∀ d, Machine.Delivers ops d → ∀ k, ((LWWMap.machine Key T U).run d).seen k = true ↔
          LastWins Op.stamp (Adds k) (Kills k) ops) := by
  have hsame := Cells.same_visible_iff (Positive.of_pos h)
  have hall := Cells.same_visible_iff_lastWriters (Positive.of_pos h)
  simp only [Machine.ConvergesOn, set_beq_run, map_beq_run hT, set_seen_run, map_seen_run]
  refine ⟨fun d hd hsorted k => ?_, ⟨hsame, hall⟩, hsame, hall⟩
  have hlast := sorted_live (fun o ho => h o ((hd o).mp ho)) hsorted k
  rw [LastWins.congr hd] at hlast
  exact ⟨hlast, hlast⟩

/-- A `remove` and an `add` of one stamp, older than the clear. -/
theorem converge_iff_lastWriters_cleared :
    (∀ d, Machine.Delivers [.add 0 3, .remove 0 3, .clear 4] d →
      (d.Pairwise fun o o' => o.stamp < o'.stamp) → ∀ k,
      (((LWWSet.machine ℕ ℕ).run d).seen k = true ↔
        LastWins Op.stamp (Adds k) (Kills k) [Op.add 0 3, .remove 0 3, .clear 4]) ∧
      (((LWWMap.machine ℕ ℕ ℕ).run d).seen k = true ↔
        LastWins Op.stamp (Adds k) (Kills k) [Op.add 0 3, .remove 0 3, .clear 4])) ∧
    (((LWWSet.machine ℕ ℕ).ConvergesOn (fun a b => (a == b) = true)
          [.add 0 3, .remove 0 3, .clear 4] ↔
        ∀ k, MayShow [Op.add 0 3, .remove 0 3, .clear 4] k →
          LastWins Op.stamp (Adds k) (Kills k) [Op.add 0 3, .remove 0 3, .clear 4]) ∧
      ((LWWSet.machine ℕ ℕ).ConvergesOn (fun a b => (a == b) = true)
          [.add 0 3, .remove 0 3, .clear 4] ↔
        ∀ d, Machine.Delivers [.add 0 3, .remove 0 3, .clear 4] d → ∀ k,
          ((LWWSet.machine ℕ ℕ).run d).seen k = true ↔
            LastWins Op.stamp (Adds k) (Kills k) [Op.add 0 3, .remove 0 3, .clear 4])) ∧
    ((LWWMap.machine ℕ ℕ ℕ).ConvergesOn (fun a b => (a == b) = true)
          [.add 0 3, .remove 0 3, .clear 4] ↔
        ∀ k, MayShow [Op.add 0 3, .remove 0 3, .clear 4] k →
          LastWins Op.stamp (Adds k) (Kills k) [Op.add 0 3, .remove 0 3, .clear 4]) ∧
      ((LWWMap.machine ℕ ℕ ℕ).ConvergesOn (fun a b => (a == b) = true)
          [.add 0 3, .remove 0 3, .clear 4] ↔
        ∀ d, Machine.Delivers [.add 0 3, .remove 0 3, .clear 4] d → ∀ k,
          ((LWWMap.machine ℕ ℕ ℕ).run d).seen k = true ↔
            LastWins Op.stamp (Adds k) (Kills k) [Op.add 0 3, .remove 0 3, .clear 4]) :=
  converge_iff_lastWriters rfl (by decide)

end Containers

end CollabDatatypes.Container
