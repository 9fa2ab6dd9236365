import CollabDatatypes.Lib.Machine
import Mathlib.Data.List.Basic

/-! # Operations that use different resources

Every operation uses some resources, and operations that share none are independent: they commute, and
none of them changes the result of the other (`Independent`). Then the order of two operations matters
only if they share a resource: two lists that show every resource the same operations in the same
order (`SameOrder`) end in the same state, and every operation returns the same results
(`SameOrder.outcome`). The proof brings the first operation of the one list to the front of the other,
past operations that share no resource with it (`outcome_front`). -/

namespace CollabDatatypes.Lib

variable {ω ι σ ρ : Type*}

/-- Every resource is used by the same operations, in the same order. -/
def SameOrder (uses : ω → ι → Bool) (d d' : List ω) : Prop :=
  ∀ i, d.filter (uses · i) = d'.filter (uses · i)

/-- No resource is used by both. -/
def UsesApart (uses : ω → ι → Bool) (a b : ω) : Prop := ∀ i, uses a i = true → uses b i = false

/-- The results that the deliveries of `o` returned, in this order. -/
def resultsOf [DecidableEq ω] (o : ω) (d : List ω) (rs : List ρ) : List ρ :=
  ((d.zip rs).filter fun x => x.1 = o).map Prod.snd

/-- The operations `a` and `b` commute, and neither changes the result of the other. -/
def Independent (f : σ → ω → σ × ρ) (a b : ω) : Prop :=
  ∀ s, (f (f s a).1 b).1 = (f (f s b).1 a).1 ∧
    (f (f s a).1 b).2 = (f s b).2 ∧ (f (f s b).1 a).2 = (f s a).2

/-- The lists end in one state, and every operation returned the same results in both. -/
def SameOutcome [DecidableEq ω] (f : σ → ω → σ × ρ) (s : σ) (d d' : List ω) : Prop :=
  (trace f s d).1 = (trace f s d').1 ∧
    ∀ o, resultsOf o d (trace f s d).2 = resultsOf o d' (trace f s d').2

section Outcome

variable [DecidableEq ω] {f : σ → ω → σ × ρ} {s : σ}

theorem SameOutcome.refl (d : List ω) : SameOutcome f s d d := ⟨rfl, fun _ => rfl⟩

theorem SameOutcome.trans {d d' d'' : List ω} (h : SameOutcome f s d d')
    (h' : SameOutcome f s d' d'') : SameOutcome f s d d'' :=
  ⟨h.1.trans h'.1, fun o => (h.2 o).trans (h'.2 o)⟩

theorem SameOutcome.symm {d d' : List ω} (h : SameOutcome f s d d') : SameOutcome f s d' d :=
  ⟨h.1.symm, fun o => (h.2 o).symm⟩

theorem resultsOf_cons (o a : ω) (d : List ω) (r : ρ) (rs : List ρ) :
    resultsOf o (a :: d) (r :: rs) =
      if a = o then r :: resultsOf o d rs else resultsOf o d rs := by
  unfold resultsOf
  rw [List.zip_cons_cons, List.filter_cons]
  by_cases h : a = o <;> simp [h]

theorem SameOutcome.cons {a : ω} {d d' : List ω} (h : SameOutcome f (f s a).1 d d') :
    SameOutcome f s (a :: d) (a :: d') := by
  refine ⟨h.1, fun o => ?_⟩
  show resultsOf o (a :: d) (_ :: _) = resultsOf o (a :: d') (_ :: _)
  rw [resultsOf_cons, resultsOf_cons, h.2 o]

theorem outcome_swap {a b : ω} (hne : a ≠ b) (h : Independent f a b) (d : List ω) :
    SameOutcome f s (a :: b :: d) (b :: a :: d) := by
  obtain ⟨hs, hb, ha⟩ := h s
  refine ⟨?_, fun o => ?_⟩
  · show (trace f (f (f s a).1 b).1 d).1 = (trace f (f (f s b).1 a).1 d).1
    rw [hs]
  · show resultsOf o (a :: b :: d) ((f s a).2 :: (f (f s a).1 b).2 :: (trace f _ d).2) =
      resultsOf o (b :: a :: d) ((f s b).2 :: (f (f s b).1 a).2 :: (trace f _ d).2)
    rw [resultsOf_cons, resultsOf_cons, resultsOf_cons, resultsOf_cons, hs, hb, ha]
    by_cases hao : a = o
    · rw [if_pos hao, if_pos hao, if_neg fun hbo => hne (hao.trans hbo.symm),
        if_neg fun hbo => hne (hao.trans hbo.symm)]
    · rw [if_neg hao, if_neg hao]

theorem outcome_front {a : ω} (y : List ω) :
    ∀ (x : List ω) (s : σ), (∀ b ∈ x, a ≠ b ∧ Independent f b a) →
      SameOutcome f s (x ++ a :: y) (a :: (x ++ y))
  | [], _, _ => SameOutcome.refl _
  | b :: x, s, h => by
    obtain ⟨hne, hind⟩ := h b List.mem_cons_self
    have ih := outcome_front y x (f s b).1 fun c hc => h c (List.mem_cons_of_mem b hc)
    exact ih.cons.trans (outcome_swap hne.symm hind (x ++ y))

end Outcome

/-! ### Lists with the same order -/

section Order

variable {uses : ω → ι → Bool} {d d' : List ω} {a : ω}

theorem filter_usesApart {x : List ω} (hx : ∀ b ∈ x, UsesApart uses a b) {i : ι}
    (hi : uses a i = true) : x.filter (uses · i) = [] :=
  List.filter_eq_nil_iff.mpr fun b hb => by rw [hx b hb i hi]; exact Bool.false_ne_true

/-- **The first operation of the one list** comes in the other one after operations only that share no
resource with it. -/
theorem SameOrder.split (h : SameOrder uses (a :: d) d') (ha : ∃ i, uses a i = true) :
    ∃ x y, d' = x ++ a :: y ∧ (∀ b ∈ x, UsesApart uses a b) ∧ SameOrder uses d (x ++ y) := by
  classical
  obtain ⟨i, hi⟩ := ha
  -- the first operation of `d'` that shares a resource with `a`
  have hex : ∃ b, d'.find? (fun b => decide (¬ UsesApart uses a b)) = some b := by
    rw [← Option.isSome_iff_exists, List.find?_isSome]
    have hmem : a ∈ d'.filter (uses · i) := by
      rw [← h i, List.filter_cons_of_pos (p := (uses · i)) hi]
      exact List.mem_cons_self
    obtain ⟨had, -⟩ := List.mem_filter.mp hmem
    exact ⟨a, had, decide_eq_true fun hdis => by rw [hdis i hi] at hi; cases hi⟩
  obtain ⟨b, hb⟩ := hex
  obtain ⟨hshare, x, y, rfl, hx⟩ := List.find?_eq_some_iff_append.mp hb
  have hdis : ∀ c ∈ x, UsesApart uses a c := by
    intro c hc
    simpa using hx c hc
  obtain ⟨j, haj, hbj⟩ : ∃ j, uses a j = true ∧ uses b j = true := by
    have hn := of_decide_eq_true hshare
    unfold UsesApart at hn
    push Not at hn
    obtain ⟨j, haj, hbj⟩ := hn
    exact ⟨j, haj, by simpa using hbj⟩
  have hj := h j
  rw [List.filter_cons_of_pos (p := (uses · j)) haj, List.filter_append,
    filter_usesApart hdis haj, List.filter_cons_of_pos (p := (uses · j)) hbj,
    List.nil_append] at hj
  obtain rfl := (List.cons.inj hj).1
  refine ⟨x, y, rfl, hdis, fun k => ?_⟩
  have hk := h k
  rw [List.filter_append] at hk ⊢
  cases hak : uses a k with
  | true =>
    rw [List.filter_cons_of_pos (p := (uses · k)) hak, filter_usesApart hdis hak,
      List.filter_cons_of_pos (p := (uses · k)) hak, List.nil_append] at hk
    rw [filter_usesApart hdis hak, List.nil_append]
    exact (List.cons.inj hk).2
  | false =>
    have hneg : ¬ (uses a k = true) := by rw [hak]; exact Bool.false_ne_true
    rwa [List.filter_cons_of_neg (p := (uses · k)) hneg,
      List.filter_cons_of_neg (p := (uses · k)) hneg] at hk

theorem SameOrder.eq_nil (h : SameOrder uses [] d') (huses : ∀ a, ∃ i, uses a i = true) :
    d' = [] := by
  cases d' with
  | nil => rfl
  | cons b d' =>
    obtain ⟨i, hi⟩ := huses b
    have hb := h i
    rw [List.filter_cons_of_pos (p := (uses · i)) hi] at hb
    cases hb

/-- **The order matters only between operations that share a resource.** -/
theorem SameOrder.outcome [DecidableEq ω] {f : σ → ω → σ × ρ} (huses : ∀ a, ∃ i, uses a i = true)
    (hind : ∀ a b, UsesApart uses a b → Independent f a b) (s : σ) (h : SameOrder uses d d') :
    SameOutcome f s d d' := by
  induction d generalizing s d' with
  | nil =>
    rw [h.eq_nil huses]
    exact SameOutcome.refl _
  | cons a d ih =>
    obtain ⟨x, y, rfl, hx, hrest⟩ := h.split (huses a)
    refine (ih (f s a).1 hrest).cons.trans (outcome_front y x s fun b hb => ⟨?_, ?_⟩).symm
    · rintro rfl
      obtain ⟨i, hi⟩ := huses a
      rw [hx a hb i hi] at hi
      cases hi
    · intro t
      obtain ⟨h1, h2, h3⟩ := hind a b (hx b hb) t
      exact ⟨h1.symm, h3, h2⟩

end Order

end CollabDatatypes.Lib
