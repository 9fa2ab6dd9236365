import CollabDatatypes.Lib.Fresh

/-! # Equal stamps

A last-writer-wins type that replaces only older entries keeps, of the newest operations, the one that
came first (`FirstNewest`). Any newest operation of a collection comes first in some delivery
(`Newest.first`), so with equal stamps the result depends on the order, unless all newest operations
say the same. -/

namespace CollabDatatypes.Lib

variable {ω U : Type*} [LinearOrder U]

/-- `a` is the first one of the newest operations of the kind `p`. -/
def FirstNewest (stamp : ω → U) (p : ω → Prop) (d : List ω) (a : ω) : Prop :=
  ∃ q r, d = q ++ a :: r ∧ p a ∧ (∀ o ∈ q, p o → stamp o < stamp a) ∧
    ∀ o ∈ r, p o → stamp o ≤ stamp a

variable {stamp : ω → U} {p : ω → Prop} {d ops : List ω} {a o : ω}

theorem FirstNewest.newest (h : FirstNewest stamp p d a) : Newest stamp p d a := by
  obtain ⟨q, r, rfl, hp, hq, hr⟩ := h
  refine ⟨by simp, hp, fun o ho hpo => ?_⟩
  rcases List.mem_append.mp ho with ho | ho
  · exact (hq o ho hpo).le
  · rcases List.mem_cons.mp ho with rfl | ho
    · exact le_rfl
    · exact hr o ho hpo

/-- **One more operation**: it is newer than all before it, or the first newest one stays. -/
theorem firstNewest_concat : FirstNewest stamp p (d ++ [o]) a ↔
    (a = o ∧ p o ∧ ∀ o' ∈ d, p o' → stamp o' < stamp o) ∨
      FirstNewest stamp p d a ∧ (p o → stamp o ≤ stamp a) := by
  constructor
  · rintro ⟨q, r, he, hp, hq, hr⟩
    rcases List.eq_nil_or_concat r with rfl | ⟨r', b, rfl⟩
    · obtain ⟨rfl, hoa⟩ := List.append_inj' he rfl
      obtain rfl := List.singleton_inj.mp hoa
      exact Or.inl ⟨rfl, hp, hq⟩
    · rw [List.concat_eq_append, ← List.cons_append, ← List.append_assoc] at he
      obtain ⟨rfl, hob⟩ := List.append_inj' he rfl
      obtain rfl := List.singleton_inj.mp hob
      exact Or.inr ⟨⟨q, r', rfl, hp, hq, fun c hc => hr c (by simp [hc])⟩, hr o (by simp)⟩
  · rintro (⟨rfl, hp, hd⟩ | ⟨⟨q, r, rfl, hp, hq, hr⟩, ho⟩)
    · exact ⟨d, [], rfl, hp, hd, by simp⟩
    · refine ⟨q, r ++ [o], by simp, hp, hq, fun c hc hpc => ?_⟩
      rcases List.mem_append.mp hc with hc | hc
      · exact hr c hc hpc
      · obtain rfl := List.mem_singleton.mp hc
        exact ho hpc

theorem exists_firstNewest (stamp : ω → U) (h : ∃ o ∈ d, p o) : ∃ a, FirstNewest stamp p d a := by
  induction d using List.reverseRecOn with
  | nil => simp at h
  | append_singleton d o ih =>
    by_cases hd : ∃ o ∈ d, p o
    · obtain ⟨a, ha⟩ := ih hd
      by_cases ho : p o → stamp o ≤ stamp a
      · exact ⟨a, firstNewest_concat.mpr (Or.inr ⟨ha, ho⟩)⟩
      · push Not at ho
        refine ⟨o, firstNewest_concat.mpr (Or.inl ⟨rfl, ho.1, fun b hb hpb => ?_⟩)⟩
        exact (ha.newest.2.2 b hb hpb).trans_lt ho.2
    · obtain ⟨b, hb, hpb⟩ := h
      have hbo : b = o := by
        rcases List.mem_append.mp hb with hb | hb
        · exact absurd ⟨b, hb, hpb⟩ hd
        · exact List.mem_singleton.mp hb
      refine ⟨o, firstNewest_concat.mpr (Or.inl ⟨rfl, hbo ▸ hpb, fun c hc hpc => ?_⟩)⟩
      exact absurd ⟨c, hc, hpc⟩ hd

theorem Newest.first (h : Newest stamp p ops a) :
    Machine.Delivers ops (a :: ops) ∧ FirstNewest stamp p (a :: ops) a :=
  ⟨Machine.delivers_append (p := [a]) (by simpa using h.1), [], ops, rfl, h.2.1, by simp, h.2.2⟩

theorem Newest.stamp_eq {b : ω} (ha : Newest stamp p ops a) (hb : Newest stamp p ops b) :
    stamp a = stamp b := le_antisymm (hb.2.2 a ha.1 ha.2.1) (ha.2.2 b hb.1 hb.2.1)

end CollabDatatypes.Lib
