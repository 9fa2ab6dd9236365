import CollabDatatypes.Lib.Observation
import CollabDatatypes.Container.Writes

/-! # `operator==` compares what is visible

`operator==` compares the counters first and then the visible keys both ways. The counters being right,
two sets are equal when `count` agrees at every key, and two maps when `count` agrees and the values of
the visible keys are equal. Stamps and tombstones play no part, so `crdt_equal`, which compares them
too, is finer. -/

namespace CollabDatatypes.CmRDT

open CollabDatatypes.Lib CollabDatatypes.Container

variable {Key T U : Type*} [DecidableEq Key]

/-! ### The set -/

namespace LWWSet

/-- A user sees the same set. -/
def SeenSame (s s' : LWWSet Key U) : Prop := ∀ k, s.count k = s'.count k

theorem seenSame_iff {s s' : LWWSet Key U} :
    SeenSame s s' ↔ ∀ k, live (s.map.lookup k) = live (s'.map.lookup k) := by
  refine forall_congr' fun k => ?_
  unfold count
  rw [isSome_find, isSome_find]
  cases live (s.map.lookup k) <;> cases live (s'.map.lookup k) <;> simp

variable [LinearOrder U]

theorem set_isObservational {I : LWWSet Key U → Prop} (hI : ∀ s, I s → s.Counted) :
    IsObservational I (· == ·) crdtEqual SeenSame := by
  refine .of_iff eq_equivalence (fun s k => live (s.map.lookup k))
    (fun a b => seenSame_iff.trans funext_iff.symm) (fun a b ha hb => ?_) fun a b _ _ hab => ?_
  · exact (beq_iff (hI a ha) (hI b hb)).trans seenSame_iff.symm
  · exact seenSame_iff.mpr fun k => congrArg live (crdtEqual_iff.mp hab k)

end LWWSet

/-! ### The map -/

namespace LWWMap

theorem atKey_eq_ok {m : LWWMap Key T U} {k : Key} {v : T} :
    m.atKey k = .ok v ↔ m.visible k = some v := by
  unfold atKey visible valueOf
  rw [cells_cell]
  cases m.map.lookup k with
  | none => simp
  | some e => cases hr : e.isRemoved <;> simp [hr, Element.metadata]

theorem count_eq_count_iff {m m' : LWWMap Key T U} {k : Key} :
    m.count k = m'.count k ↔ (m.visible k).isSome = (m'.visible k).isSome := by
  unfold count
  rw [isSome_find, isSome_find, isSome_visible, isSome_visible]
  cases live (m.cells.cell k) <;> cases live (m'.cells.cell k) <;> simp

variable [BEq T]

/-- A user sees the same map. -/
def SeenSame (m m' : LWWMap Key T U) : Prop :=
  (∀ k, m.count k = m'.count k) ∧
    ∀ k v v', m.atKey k = .ok v → m'.atKey k = .ok v' → (v == v') = true

theorem seenSame_iff {m m' : LWWMap Key T U} :
    SeenSame m m' ↔ Agree (fun v v' => (v == v') = true) m.visible m'.visible := by
  unfold SeenSame
  simp only [agree_iff, count_eq_count_iff, atKey_eq_ok]

variable [EquivBEq T]

omit [DecidableEq Key] in
theorem beq_equivalence : Equivalence fun v v' : T => (v == v') = true :=
  ⟨fun _ => BEq.rfl, BEq.symm, BEq.trans⟩

variable [LinearOrder U]

theorem map_isObservational {I : LWWMap Key T U → Prop} (hI : ∀ m, I m → m.Counted) :
    IsObservational I (· == ·) crdtEqual SeenSame := by
  refine .of_iff (agree_equivalence beq_equivalence) visible (fun a b => seenSame_iff)
    (fun a b ha hb => ?_) fun a b _ _ hab => ?_
  · rw [seenSame_iff]
    refine (beq_iff (hI a ha) (hI b hb)).trans (forall_congr' fun k => ?_)
    cases a.visible k <;> cases b.visible k <;> simp
    exact BEq.symm
  · refine seenSame_iff.mpr fun k => ?_
    obtain ⟨hcell, hval⟩ := crdtEqual_iff.mp hab k
    unfold visible
    rw [hcell]
    split_ifs
    · exact hval
    · exact Option.Rel.none

end LWWMap

end CollabDatatypes.CmRDT
