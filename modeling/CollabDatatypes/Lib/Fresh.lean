import CollabDatatypes.Lib.Machine
import CollabDatatypes.Lib.Stamp

/-! # Operations with fresh stamps

The stamps of a last-writer-wins type decide between operations that arrive in different orders. Where
every operation is newer than all that came before it (`Fresh`), nothing is left to decide, and the
type should behave like a plain one without stamps. `trace_fresh` is the rule for such a proof: a
relation between the states of the two types that is kept by an operation newer than everything in the
state is kept by the whole list, with the same results. -/

namespace CollabDatatypes.Lib

variable {σ τ ω ρ U : Type*} [LinearOrder U]

/-- The operations of `q` come in the order of their stamps, all newer than those of `p`. -/
structure Fresh [Zero U] (stamp : ω → U) (p q : List ω) : Prop where
  pos : ∀ o ∈ q, 0 < stamp o
  newer : ∀ o ∈ p, ∀ o' ∈ q, stamp o < stamp o'
  increasing : q.Pairwise fun o o' => stamp o < stamp o'

instance [Zero U] (stamp : ω → U) (p q : List ω) : Decidable (Fresh stamp p q) :=
  decidable_of_iff ((∀ o ∈ q, 0 < stamp o) ∧ (∀ o ∈ p, ∀ o' ∈ q, stamp o < stamp o') ∧
      q.Pairwise fun o o' => stamp o < stamp o')
    ⟨fun h => ⟨h.1, h.2.1, h.2.2⟩, fun h => ⟨h.pos, h.newer, h.increasing⟩⟩

theorem Stamped.of_delivers [Zero U] {stamp : ω → U} {ops d : List ω} (h : Stamped stamp ops)
    (hd : Machine.Delivers ops d) : Stamped stamp d := h.of_subset fun o ho => (hd o).mp ho

theorem Newest.of_delivers {stamp : ω → U} {p : ω → Prop} {ops d : List ω} {a : ω}
    (hd : Machine.Delivers ops d) : Newest stamp p d a ↔ Newest stamp p ops a := by
  have hmem : ∀ o, o ∈ d ↔ o ∈ ops := hd
  simp only [Newest, hmem]

theorem LastWins.congr_rem {stamp : ω → U} {add rem rem' : ω → Prop} {d : List ω}
    (h : ∀ o ∈ d, rem o ↔ rem' o) : LastWins stamp add rem d ↔ LastWins stamp add rem' d := by
  refine exists_congr fun a => and_congr_right fun _ => and_congr_right fun _ => ?_
  exact forall_congr' fun r => forall_congr' fun hr => imp_congr_left (h r hr)

/-- **The last writer of a history in the order of the stamps**: what comes last decides, if it is of
one of the two kinds. -/
theorem lastWins_concat {stamp : ω → U} {add rem : ω → Prop} {d : List ω} {o : ω}
    (hd : ∀ o' ∈ d, stamp o' < stamp o) (hno : add o → ¬ rem o) :
    LastWins stamp add rem (d ++ [o]) ↔ add o ∨ ¬ rem o ∧ LastWins stamp add rem d := by
  constructor
  · rintro ⟨a, ha, hadd, hmax⟩
    rcases List.mem_append.mp ha with ha | ha
    · refine Or.inr ⟨fun hrem => ?_, a, ha, hadd, fun r hr => hmax r (List.mem_append_left _ hr)⟩
      exact absurd (hmax o (by simp) hrem) (hd a ha).not_gt
    · obtain rfl := List.mem_singleton.mp ha
      exact Or.inl hadd
  · rintro (hadd | ⟨hrem, a, ha, hadd, hmax⟩)
    · refine ⟨o, by simp, hadd, fun r hr hrr => ?_⟩
      rcases List.mem_append.mp hr with hr | hr
      · exact hd r hr
      · obtain rfl := List.mem_singleton.mp hr
        exact absurd hrr (hno hadd)
    · refine ⟨a, List.mem_append_left _ ha, hadd, fun r hr hrr => ?_⟩
      rcases List.mem_append.mp hr with hr | hr
      · exact hmax r hr hrr
      · obtain rfl := List.mem_singleton.mp hr
        exact absurd hrr hrem

/-- **A relation that operations newer than the state keep**, while returning the same result, is
kept by lists of operations with increasing stamps. `B s u` says that nothing in `s` is as new as
`u`. -/
theorem trace_fresh {stamp : ω → U} {f : σ → ω → σ × ρ} {g : τ → ω → τ × ρ} {B : σ → U → Prop}
    {R : σ → τ → Prop}
    (hbelow : ∀ s o u, B s (stamp o) → stamp o < u → B s u → B (f s o).1 u)
    (hstep : ∀ s t o, B s (stamp o) → R s t → R (f s o).1 (g t o).1 ∧ (f s o).2 = (g t o).2) :
    ∀ (q : List ω) (s : σ) (t : τ), (q.Pairwise fun o o' => stamp o < stamp o') →
      (∀ o ∈ q, B s (stamp o)) → R s t →
      R (trace f s q).1 (trace g t q).1 ∧ (trace f s q).2 = (trace g t q).2
  | [], _, _, _, _, hR => ⟨hR, rfl⟩
  | o :: q, s, t, hq, hb, hR => by
    obtain ⟨hnew, hq⟩ := List.pairwise_cons.mp hq
    have ho := hb o List.mem_cons_self
    obtain ⟨hR', hr⟩ := hstep s t o ho hR
    have hb' : ∀ o' ∈ q, B (f s o).1 (stamp o') := fun o' ho' =>
      hbelow s o _ ho (hnew o' ho') (hb o' (List.mem_cons_of_mem o ho'))
    obtain ⟨h1, h2⟩ := trace_fresh hbelow hstep q _ _ hq hb' hR'
    refine ⟨h1, ?_⟩
    simp only [trace]
    rw [hr, h2]

end CollabDatatypes.Lib
