import Mathlib.Data.List.Infix
import Mathlib.Data.List.ReduceOption

/-! # Machines driven by a list of operations

A machine is an initial state and a total step function; `run` is the state after a list of
operations, which is also the history of that state. The rules below are what a proof about such a
machine needs:

* `history_persist`: induction over the continuations of a history, under a condition on histories
  that prefixes inherit;
* `always_iff`, `always_iff_of_invariant`: a property that exactly the *bad* steps destroy holds in
  every state reached if and only if no step of the run is bad;
* `run_map`: a simulation of one machine by another; `run_filter`: steps that may be left out;
* `convergesOn_iff`: when all deliveries of one collection of operations end in equal states;
* `trace_eq`, `trace_filterMap`: bisimilar states answer every list of operations alike, also when
  some of the operations are silent;
* `congruence_iff`: when a comparison of states that leaves something out is a congruence. -/

namespace CollabDatatypes.Lib

/-- A machine with states `σ` and operations `ω`. -/
structure Machine (σ ω : Type*) where
  init : σ
  step : σ → ω → σ

namespace Machine

variable {σ τ ω ι : Type*} (M : Machine σ ω)

/-- The state after the operations `d`, in this order. -/
def run (d : List ω) : σ := d.foldl M.step M.init

@[simp] theorem run_nil : M.run [] = M.init := rfl

@[simp] theorem run_concat (d : List ω) (o : ω) : M.run (d ++ [o]) = M.step (M.run d) o := by
  simp only [run, List.foldl_append, List.foldl_cons, List.foldl_nil]

/-- Some run ends in the state `s`. -/
def Reached (s : σ) : Prop := ∃ d, M.run d = s

/-- **What holds of a history and survives every further operation** holds of every longer one. -/
theorem history_persist {C P : List ω → Prop} (hC : ∀ p o, C (p ++ [o]) → C p) {p₀ : List ω}
    (h0 : P p₀) (hs : ∀ p o, C (p₀ ++ p ++ [o]) → P (p₀ ++ p) → P (p₀ ++ p ++ [o])) :
    ∀ q, C (p₀ ++ q) → P (p₀ ++ q) := by
  intro q
  induction q using List.reverseRecOn with
  | nil => intro _; rwa [List.append_nil]
  | append_singleton q o ih =>
    intro hq
    rw [← List.append_assoc] at hq ⊢
    exact hs q o hq (ih (hC _ _ hq))

/-- **Safety by bad steps.** `P` follows from an invariant `I`, which holds at first and survives
every step that is not bad; a bad step destroys `P`. Then `P` holds in every state the run reaches if
and only if no step of the run is bad. -/
theorem always_iff_of_invariant {C P I : List ω → Prop} {B : List ω → ω → Prop}
    (hC : ∀ p o, C (p ++ [o]) → C p) (hI : ∀ p, C p → I p → P p) (h0 : I [])
    (hgood : ∀ p o, C (p ++ [o]) → I p → ¬ B p o → I (p ++ [o]))
    (hbad : ∀ p o, C (p ++ [o]) → B p o → ¬ P (p ++ [o])) {d : List ω} (hd : C d) :
    (∀ p, p <+: d → P p) ↔ ∀ p o q, d = p ++ o :: q → ¬ B p o := by
  have hpre : ∀ q p, C (p ++ q) → C p := by
    intro q
    induction q using List.reverseRecOn with
    | nil => intro p hp; rwa [List.append_nil] at hp
    | append_singleton q o ih =>
      intro p hp
      rw [← List.append_assoc] at hp
      exact ih p (hC _ _ hp)
  constructor
  · rintro h p o q rfl hb
    refine hbad p o (hpre q _ (by rwa [List.append_assoc])) hb (h _ ⟨q, ?_⟩)
    rw [List.append_assoc]; rfl
  · intro h p hp
    obtain ⟨q, rfl⟩ := hp
    refine hI p (hpre q p hd) ?_
    induction p using List.reverseRecOn generalizing q with
    | nil => exact h0
    | append_singleton p o ih =>
      have hd' : C (p ++ o :: q) := by rwa [List.append_assoc] at hd
      refine hgood p o (hpre q _ hd) (ih (o :: q) hd' fun p' o' q' he => h p' o' q' ?_)
        (h p o q ?_)
      · rw [List.append_assoc]; exact he
      · rw [List.append_assoc]; rfl

/-- The same for a property that is its own invariant. -/
theorem always_iff {C P : List ω → Prop} {B : List ω → ω → Prop}
    (hC : ∀ p o, C (p ++ [o]) → C p) (h0 : P [])
    (hgood : ∀ p o, C (p ++ [o]) → P p → ¬ B p o → P (p ++ [o]))
    (hbad : ∀ p o, C (p ++ [o]) → B p o → ¬ P (p ++ [o])) {d : List ω} (hd : C d) :
    (∀ p, p <+: d → P p) ↔ ∀ p o q, d = p ++ o :: q → ¬ B p o :=
  always_iff_of_invariant hC (fun _ _ h => h) h0 hgood hbad hd

/-! ### Simulation -/

/-- **A map of states that commutes with every step** commutes with every run. -/
theorem run_map {M : Machine σ ω} {N : Machine τ ω} {f : σ → τ} (h0 : f M.init = N.init)
    (hs : ∀ s o, f (M.step s o) = N.step (f s) o) (d : List ω) : f (M.run d) = N.run d := by
  induction d using List.reverseRecOn with
  | nil => exact h0
  | append_singleton d o ih => rw [run_concat, run_concat, hs, ih]

/-- A map of states that turns every step into a list of steps turns a run into the run of all the
lists. -/
theorem run_flatMap {υ : Type*} {M : Machine σ ω} {N : Machine τ υ} {f : σ → τ} {t : ω → List υ}
    (h0 : f M.init = N.init) (hs : ∀ s o, f (M.step s o) = (t o).foldl N.step (f s))
    (d : List ω) : f (M.run d) = N.run (d.flatMap t) := by
  induction d using List.reverseRecOn with
  | nil => exact h0
  | append_singleton d o ih =>
    rw [run_concat, hs, ih, List.flatMap_append, run, run, List.foldl_append]
    simp only [List.flatMap_cons, List.flatMap_nil, List.append_nil]

/-- **Operations that never do anything** may be left out of a run. -/
theorem run_filter {M : Machine σ ω} {p : ω → Bool} (h : ∀ s o, p o = false → M.step s o = s)
    (d : List ω) : M.run (d.filter p) = M.run d := by
  induction d using List.reverseRecOn with
  | nil => rfl
  | append_singleton d o ih =>
    rw [List.filter_append, run_concat]
    cases hp : p o with
    | true => rw [List.filter_cons_of_pos hp, List.filter_nil, run_concat, ih]
    | false =>
      rw [List.filter_cons_of_neg (by rw [hp]; exact Bool.false_ne_true), List.filter_nil,
        List.append_nil, ih, h _ o hp]

/-- An invariant of the steps by operations with `Q` holds after every run of such operations. -/
theorem run_invariant_of {I : σ → Prop} {Q : ω → Prop} (h0 : I M.init)
    (hs : ∀ s o, Q o → I s → I (M.step s o)) {d : List ω} (hd : ∀ o ∈ d, Q o) : I (M.run d) := by
  induction d using List.reverseRecOn with
  | nil => exact h0
  | append_singleton d o ih =>
    rw [run_concat]
    exact hs _ o (hd o (by simp)) (ih fun o' ho' => hd o' (List.mem_append_left _ ho'))

theorem run_invariant {I : σ → Prop} (h0 : I M.init) (hs : ∀ s o, I s → I (M.step s o))
    (d : List ω) : I (M.run d) :=
  M.run_invariant_of (Q := fun _ => True) h0 (fun s o _ => hs s o) fun _ _ => trivial

variable {M} in
theorem Reached.of_run {P : σ → Prop} (hP : ∀ d, P (M.run d)) {s : σ} (h : M.Reached s) : P s := by
  obtain ⟨d, rfl⟩ := h
  exact hP d

/-! ### Deliveries -/

/-- `d` delivers every operation of the collection `ops` at least once, and no other. -/
def Delivers (ops d : List ω) : Prop := ∀ o, o ∈ d ↔ o ∈ ops

instance [DecidableEq ω] (ops d : List ω) : Decidable (Delivers ops d) :=
  decidable_of_iff ((∀ o ∈ d, o ∈ ops) ∧ ∀ o ∈ ops, o ∈ d)
    ⟨fun h o => ⟨h.1 o, h.2 o⟩, fun h => ⟨fun o => (h o).mp, fun o => (h o).mpr⟩⟩

/-- A delivery may start with any schedule of operations of the collection. -/
theorem delivers_append {ops p : List ω} (hp : ∀ o ∈ p, o ∈ ops) : Delivers ops (p ++ ops) :=
  fun o => ⟨fun h => (List.mem_append.mp h).elim (hp o) id, fun h => List.mem_append_right p h⟩

/-- Any two deliveries of `ops` end in states related by `eq`. -/
def ConvergesOn (eq : σ → σ → Prop) (ops : List ω) : Prop :=
  ∀ d₁ d₂, Delivers ops d₁ → Delivers ops d₂ → eq (M.run d₁) (M.run d₂)

/-- **Convergence, observation by observation**: it fails exactly when some observation holds after
one delivery and fails after another. -/
theorem convergesOn_iff {eq : σ → σ → Prop} {O : ι → σ → Prop}
    (heq : ∀ d₁ d₂, eq (M.run d₁) (M.run d₂) ↔ ∀ i, O i (M.run d₁) ↔ O i (M.run d₂))
    (ops : List ω) :
    M.ConvergesOn eq ops ↔ ∀ i, ¬ ((∃ d, Delivers ops d ∧ O i (M.run d)) ∧
      ∃ d, Delivers ops d ∧ ¬ O i (M.run d)) := by
  constructor
  · rintro h i ⟨⟨d₁, h₁, ho⟩, d₂, h₂, hn⟩
    exact hn (((heq d₁ d₂).mp (h d₁ d₂ h₁ h₂) i).mp ho)
  · intro h d₁ d₂ h₁ h₂
    refine (heq d₁ d₂).mpr fun i => ⟨fun ho => ?_, fun ho => ?_⟩
    · by_contra hn
      exact h i ⟨⟨d₁, h₁, ho⟩, d₂, h₂, hn⟩
    · by_contra hn
      exact h i ⟨⟨d₂, h₂, ho⟩, d₁, h₁, hn⟩

end Machine

/-! ### Operations with results -/

section Results

variable {σ τ ω ρ : Type*}

/-- The operations of a list applied in order: the state reached and the results returned. -/
def trace (apply : σ → ω → σ × ρ) : σ → List ω → σ × List ρ
  | s, [] => (s, [])
  | s, o :: l =>
    let r := apply s o
    let r' := trace apply r.1 l
    (r'.1, r.2 :: r'.2)

theorem foldl_eq_trace (f : σ → ω → σ × ρ) : ∀ (l : List ω) (s : σ),
    l.foldl (fun s o => (f s o).1) s = (trace f s l).1
  | [], _ => rfl
  | o :: l, s => foldl_eq_trace f l (f s o).1

theorem run_append_eq_trace (f : σ → ω → σ × ρ) (init : σ) (p q : List ω) :
    (Machine.mk init fun s o => (f s o).1).run (p ++ q) =
      (trace f ((Machine.mk init fun s o => (f s o).1).run p) q).1 := by
  rw [Machine.run, List.foldl_append]
  exact foldl_eq_trace f q _

/-- **A relation that every operation keeps while returning the same result** makes any list of
operations return the same results. -/
theorem trace_eq {f : σ → ω → σ × ρ} {g : τ → ω → τ × ρ} {R : σ → τ → Prop}
    (h : ∀ s t o, R s t → R (f s o).1 (g t o).1 ∧ (f s o).2 = (g t o).2) :
    ∀ (l : List ω) (s : σ) (t : τ), R s t →
      R (trace f s l).1 (trace g t l).1 ∧ (trace f s l).2 = (trace g t l).2
  | [], _, _, hR => ⟨hR, rfl⟩
  | o :: l, s, t, hR => by
    obtain ⟨h1, h2⟩ := h s t o hR
    obtain ⟨h3, h4⟩ := trace_eq h l _ _ h1
    refine ⟨h3, ?_⟩
    simp only [trace]
    rw [h2, h4]

/-- **A simulation with silent operations.** The operations that `v` sees are answered by `g`, the
others leave the simulating state alone and return nothing; then the results of a list are those of
the operations seen. -/
theorem trace_filterMap {υ : Type*} {f : σ → ω → σ × Option ρ} {g : τ → υ → τ × ρ}
    {v : ω → Option υ} {R : σ → τ → Prop}
    (hvisible : ∀ s t o o', v o = some o' → R s t →
      R (f s o).1 (g t o').1 ∧ (f s o).2 = some (g t o').2)
    (hsilent : ∀ s t o, v o = none → R s t → R (f s o).1 t ∧ (f s o).2 = none) :
    ∀ (l : List ω) (s : σ) (t : τ), R s t → R (trace f s l).1 (trace g t (l.filterMap v)).1 ∧
      (trace f s l).2.reduceOption = (trace g t (l.filterMap v)).2
  | [], _, _, hR => ⟨hR, rfl⟩
  | o :: l, s, t, hR => by
    cases hv : v o with
    | none =>
      obtain ⟨h1, h2⟩ := hsilent s t o hv hR
      rw [List.filterMap_cons_none hv]
      simp only [trace, h2, List.reduceOption_cons_of_none]
      exact trace_filterMap hvisible hsilent l _ t h1
    | some o' =>
      obtain ⟨h1, h2⟩ := hvisible s t o o' hv hR
      obtain ⟨h3, h4⟩ := trace_filterMap hvisible hsilent l _ _ h1
      rw [List.filterMap_cons_some hv]
      simp only [trace, h2, List.reduceOption_cons_of_some]
      exact ⟨h3, congrArg _ h4⟩

/-- **When states that compare equal behave alike.** `E` is the comparison, `K` what it leaves out and
`I` an invariant. If operations keep `E` and `K` together and return the same results, and results
that are always the same show that `K` holds, then equal states are kept so by every operation, and
by every list of operations, with the same results, exactly when `K` holds of them. -/
theorem congruence_iff {f : σ → ω → σ × ρ} {g : τ → ω → τ × ρ} {I E K : σ → τ → Prop}
    (hinv : ∀ s t o, I s t → I (f s o).1 (g t o).1)
    (hkeep : ∀ s t o, I s t → E s t → K s t →
      E (f s o).1 (g t o).1 ∧ K (f s o).1 (g t o).1 ∧ (f s o).2 = (g t o).2)
    (htell : ∀ s t, I s t → E s t → (∀ o, (f s o).2 = (g t o).2) → K s t) {s : σ} {t : τ}
    (hI : I s t) (hE : E s t) :
    ((∀ o, E (f s o).1 (g t o).1 ∧ (f s o).2 = (g t o).2) ↔ K s t) ∧
      ((∀ l, E (trace f s l).1 (trace g t l).1 ∧ (trace f s l).2 = (trace g t l).2) ↔ K s t) := by
  refine ⟨⟨fun h => htell s t hI hE fun o => (h o).2, fun hK o => ?_⟩, fun h => ?_, fun hK l => ?_⟩
  · obtain ⟨h1, -, h3⟩ := hkeep s t o hI hE hK
    exact ⟨h1, h3⟩
  · exact htell s t hI hE fun o => (List.cons.inj (h [o]).2).1
  · have hR : ∀ s t o, I s t ∧ E s t ∧ K s t →
        (I (f s o).1 (g t o).1 ∧ E (f s o).1 (g t o).1 ∧ K (f s o).1 (g t o).1) ∧
        (f s o).2 = (g t o).2 := by
      rintro s t o ⟨hI, hE, hK⟩
      obtain ⟨h1, h2, h3⟩ := hkeep s t o hI hE hK
      exact ⟨⟨hinv s t o hI, h1, h2⟩, h3⟩
    obtain ⟨h1, h2⟩ := trace_eq hR l s t ⟨hI, hE, hK⟩
    exact ⟨h1.2.1, h2⟩

end Results

end CollabDatatypes.Lib
