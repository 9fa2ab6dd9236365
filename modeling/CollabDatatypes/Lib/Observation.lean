import Mathlib.Logic.Relation

/-! # States compared by what is observed of them

What is observed of a keyed container is a partial function of the keys. Two of them agree when they
are defined at the same keys and have related values there (`Agree`). A comparison of states that says
exactly that their observations agree is an equivalence, since agreement is one
(`IsObservational.of_iff`). The comparison may rely on an invariant `I`: then this is said of the
states with `I`. -/

namespace CollabDatatypes.Lib

variable {σ τ ι α : Type*}

/-- Defined at the same keys, with values related by `r`. -/
def Agree (r : α → α → Prop) (f g : ι → Option α) : Prop := ∀ i, Option.Rel r (f i) (g i)

variable {r : α → α → Prop}

theorem optionRel_iff {x y : Option α} :
    Option.Rel r x y ↔ x.isSome = y.isSome ∧ ∀ a b, x = some a → y = some b → r a b := by
  cases x <;> cases y <;> simp

theorem agree_iff {f g : ι → Option α} : Agree r f g ↔
    (∀ i, (f i).isSome = (g i).isSome) ∧ ∀ i a b, f i = some a → g i = some b → r a b := by
  unfold Agree
  rw [← forall_and]
  exact forall_congr' fun _ => optionRel_iff

theorem optionRel_equivalence (hr : Equivalence r) : Equivalence (Option.Rel r) where
  refl
    | none => Option.Rel.none
    | some a => Option.Rel.some (hr.refl a)
  symm
    | Option.Rel.none => Option.Rel.none
    | Option.Rel.some h => Option.Rel.some (hr.symm h)
  trans
    | Option.Rel.none, Option.Rel.none => Option.Rel.none
    | Option.Rel.some h, Option.Rel.some h' => Option.Rel.some (hr.trans h h')

theorem agree_equivalence (hr : Equivalence r) :
    Equivalence (Agree r : (ι → Option α) → (ι → Option α) → Prop) where
  refl f i := (optionRel_equivalence hr).refl (f i)
  symm h i := (optionRel_equivalence hr).symm (h i)
  trans h h' i := (optionRel_equivalence hr).trans (h i) (h' i)

/-- The comparison `eq` of the states with `I` says exactly that they are observed to be the same, so
it is an equivalence of them; the comparison `fine` is finer. -/
structure IsObservational (I : σ → Prop) (eq fine : σ → σ → Bool) (same : σ → σ → Prop) : Prop where
  iff : ∀ a b, I a → I b → (eq a b = true ↔ same a b)
  equivalence : Equivalence fun a b : {s // I s} => eq a.1 b.1 = true
  of_fine : ∀ a b, I a → I b → fine a b = true → eq a b = true

/-- **A comparison that is agreement of the observations `f`** is an equivalence. -/
theorem IsObservational.of_iff {I : σ → Prop} {eq fine : σ → σ → Bool} {same : σ → σ → Prop}
    {R : τ → τ → Prop} (hR : Equivalence R) (f : σ → τ) (hsame : ∀ a b, same a b ↔ R (f a) (f b))
    (heq : ∀ a b, I a → I b → (eq a b = true ↔ same a b))
    (hfine : ∀ a b, I a → I b → fine a b = true → same a b) : IsObservational I eq fine same where
  iff := heq
  equivalence := by
    have h : ∀ a b : {s // I s}, eq a.1 b.1 = true ↔ R (f a.1) (f b.1) := fun a b =>
      (heq a.1 b.1 a.2 b.2).trans (hsame a.1 b.1)
    refine ⟨fun a => (h a a).mpr (hR.refl _), fun {a b} hab => (h b a).mpr (hR.symm ((h a b).mp hab)),
      fun {a b c} hab hbc => (h a c).mpr (hR.trans ((h a b).mp hab) ((h b c).mp hbc))⟩
  of_fine a b ha hb hab := (heq a b ha hb).mpr (hfine a b ha hb hab)

end CollabDatatypes.Lib
