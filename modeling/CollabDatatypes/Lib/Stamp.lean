import Mathlib.Order.Basic
import Mathlib.Data.List.Infix
import Mathlib.Algebra.Notation.Defs
import Mathlib.Data.Finset.Max

/-! # Histories of stamped operations and the last writer

A history is a list of operations, each with a stamp from a linear order. `Stamped` is the contract
a last-writer-wins type asks of its users: distinct operations carry distinct stamps, all above the
least one (an operation may be repeated). `Newest` names the operation of a kind with the greatest
stamp, and `LastWins add rem d` is what "the last writer wins" means for a history: some operation
of the kind `add` is newer than every operation of the kind `rem`. It depends on the operations of
`d` only, not on their order or number. -/

namespace CollabDatatypes.Lib

variable {ω U : Type*} [LinearOrder U]

/-- **The contract on timestamps**: distinct operations carry distinct stamps, all above `0`. -/
structure Stamped [Zero U] (stamp : ω → U) (d : List ω) : Prop where
  pos : ∀ o ∈ d, 0 < stamp o
  inj : ∀ o ∈ d, ∀ o' ∈ d, stamp o = stamp o' → o = o'

instance [Zero U] [DecidableEq ω] (stamp : ω → U) (d : List ω) : Decidable (Stamped stamp d) :=
  decidable_of_iff ((∀ o ∈ d, 0 < stamp o) ∧ ∀ o ∈ d, ∀ o' ∈ d, stamp o = stamp o' → o = o')
    ⟨fun h => ⟨h.1, h.2⟩, fun h => ⟨h.pos, h.inj⟩⟩

namespace Stamped

variable [Zero U] {stamp : ω → U} {d d' : List ω}

theorem of_subset (h : Stamped stamp d) (hd : ∀ o ∈ d', o ∈ d) : Stamped stamp d' :=
  ⟨fun o ho => h.pos o (hd o ho), fun o ho o' ho' => h.inj o (hd o ho) o' (hd o' ho')⟩

theorem of_append {p q : List ω} (h : Stamped stamp (p ++ q)) : Stamped stamp p :=
  h.of_subset fun _ => List.mem_append_left q

theorem lt_of_le_of_ne (h : Stamped stamp d) {a b : ω} (ha : a ∈ d) (hb : b ∈ d)
    (hle : stamp a ≤ stamp b) (hne : a ≠ b) : stamp a < stamp b :=
  hle.lt_of_ne fun he => hne (h.inj a ha b hb he)

end Stamped

/-- `o` is the newest operation of the kind `p` in `d`. -/
def Newest (stamp : ω → U) (p : ω → Prop) (d : List ω) (o : ω) : Prop :=
  o ∈ d ∧ p o ∧ ∀ o' ∈ d, p o' → stamp o' ≤ stamp o

theorem exists_newest (stamp : ω → U) {p : ω → Prop} :
    ∀ {d : List ω}, (∃ o ∈ d, p o) → ∃ o, Newest stamp p d o
  | [], h => by simp at h
  | a :: d, h => by
    by_cases hd : ∃ o ∈ d, p o
    · obtain ⟨o, hod, hpo, hmax⟩ := exists_newest stamp hd
      by_cases ha : p a ∧ stamp o ≤ stamp a
      · refine ⟨a, List.mem_cons_self, ha.1, fun o' ho' hp' => ?_⟩
        rcases List.mem_cons.mp ho' with rfl | ho'
        · exact le_rfl
        · exact (hmax o' ho' hp').trans ha.2
      · refine ⟨o, List.mem_cons_of_mem a hod, hpo, fun o' ho' hp' => ?_⟩
        rcases List.mem_cons.mp ho' with rfl | ho'
        · exact (not_le.mp fun hle => ha ⟨hp', hle⟩).le
        · exact hmax o' ho' hp'
    · obtain ⟨o, ho, hpo⟩ := h
      have key : ∀ o' ∈ a :: d, p o' → o' = a := fun o' ho' hp' =>
        (List.mem_cons.mp ho').resolve_right fun hmem => hd ⟨o', hmem, hp'⟩
      refine ⟨o, ho, hpo, fun o' ho' hp' => ?_⟩
      rw [key o ho hpo, key o' ho' hp']

/-- **The last writer wins**: some `add` of the history is newer than every `rem`. -/
def LastWins (stamp : ω → U) (add rem : ω → Prop) (d : List ω) : Prop :=
  ∃ a ∈ d, add a ∧ ∀ r ∈ d, rem r → stamp r < stamp a

theorem LastWins.congr {stamp : ω → U} {add rem : ω → Prop} {d d' : List ω}
    (h : ∀ o, o ∈ d ↔ o ∈ d') : LastWins stamp add rem d ↔ LastWins stamp add rem d' := by
  simp only [LastWins, h]

theorem lastWins_iff_newest {stamp : ω → U} {add rem : ω → Prop} {d : List ω} {a : ω}
    (ha : Newest stamp add d a) :
    LastWins stamp add rem d ↔ ∀ r ∈ d, rem r → stamp r < stamp a := by
  constructor
  · rintro ⟨b, hb, hab, hr⟩ r hrd hrr
    exact (hr r hrd hrr).trans_le (ha.2.2 b hb hab)
  · intro h
    exact ⟨a, ha.1, ha.2.1, h⟩

end CollabDatatypes.Lib
