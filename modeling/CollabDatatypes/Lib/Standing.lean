import CollabDatatypes.Lib.Machine
import Mathlib.Data.List.TakeWhile

/-! # What a history without stamps says

Some operations of a history set something up, others undo it: what was set up after the last undoing
*stands* (`Standing`). It is the last writer of a history whose operations carry no stamps, and the
only rule needed is the one for one more operation, `standing_concat`.

Some operations open a part of the state, and only from then on are others seen there
(`sinceOpened`). Such a part is a machine of its own, driven by what it has seen (`run_sinceOpened`);
it has seen everything if whatever it should see comes after something that opens it (`Announced`). -/

namespace CollabDatatypes.Lib

variable {ω : Type*}

/-- Some operation `sets`, and none after it `undoes`. -/
def Standing (sets undoes : ω → Prop) (d : List ω) : Prop :=
  ∃ p o q, d = p ++ o :: q ∧ sets o ∧ ∀ o' ∈ q, ¬ undoes o'

variable {sets undoes : ω → Prop}

theorem not_standing_nil : ¬ Standing sets undoes [] := by
  rintro ⟨p, o, q, he, -⟩
  simp at he

/-- **One more operation**: it sets up, or what stood before stands on unless it undoes. -/
theorem standing_concat {d : List ω} {o : ω} :
    Standing sets undoes (d ++ [o]) ↔ sets o ∨ Standing sets undoes d ∧ ¬ undoes o := by
  constructor
  · rintro ⟨p, a, q, he, ha, hq⟩
    rcases List.eq_nil_or_concat q with rfl | ⟨q', b, rfl⟩
    · obtain ⟨rfl, hoa⟩ := List.append_inj' he rfl
      have heq : o = a := List.singleton_inj.mp hoa
      exact Or.inl (heq ▸ ha)
    · rw [List.concat_eq_append, ← List.cons_append, ← List.append_assoc] at he
      obtain ⟨rfl, hob⟩ := List.append_inj' he rfl
      have heq : o = b := List.singleton_inj.mp hob
      have hlast : ¬ undoes o := hq o (by simp [heq])
      exact Or.inr ⟨⟨p, a, q', rfl, ha, fun c hc => hq c (by simp [hc])⟩, hlast⟩
  · rintro (ho | ⟨⟨p, a, q, rfl, ha, hq⟩, ho⟩)
    · exact ⟨d, o, [], rfl, ho, by simp⟩
    · refine ⟨p, a, q ++ [o], by simp, ha, fun c hc => ?_⟩
      rcases List.mem_append.mp hc with hc | hc
      · exact hq c hc
      · have heq : c = o := by simpa using hc
        exact heq ▸ ho

/-! ### Parts that are opened -/

section Opened

variable {σ τ υ : Type*} {opens : ω → Bool} {sees : ω → Option υ} {d : List ω}

/-- What is seen of a history from the first operation that opens on. -/
def sinceOpened (opens : ω → Bool) (sees : ω → Option υ) (d : List ω) : List υ :=
  (d.dropWhile fun o => !opens o).filterMap sees

theorem sinceOpened_of_closed (h : d.any opens = false) : sinceOpened opens sees d = [] := by
  have hdrop : d.dropWhile (fun o => !opens o) = [] := by
    rw [List.dropWhile_eq_nil_iff]
    intro o ho
    have hclosed := List.any_eq_false.mp h o ho
    simpa using hclosed
  rw [sinceOpened, hdrop, List.filterMap_nil]

theorem sinceOpened_concat {o : ω} (ho : opens o = true → sees o = none) :
    sinceOpened opens sees (d ++ [o]) =
      if d.any opens then sinceOpened opens sees d ++ (sees o).toList else [] := by
  unfold sinceOpened
  rw [List.dropWhile_append]
  have hnil : (d.dropWhile fun o => !opens o).isEmpty = !d.any opens := by
    induction d with
    | nil => rfl
    | cons a d ih => cases ha : opens a <;> simp [ha, ih]
  have hlast : [o].filterMap sees = (sees o).toList := by
    cases hs : sees o <;> simp [hs]
  rw [hnil]
  cases hd : d.any opens with
  | true => simp [hlast]
  | false => cases hopen : opens o <;> simp [hopen, ho]

/-- **A part of the state that is opened** is the machine that received what it has seen. -/
theorem run_sinceOpened {M : Machine σ ω} {N : Machine τ υ} {f : σ → τ} {e : σ → Bool}
    (hno : ∀ o, opens o = true → sees o = none) (h0 : f M.init = N.init)
    (hclosed : e M.init = false)
    (hopen : ∀ s o, e (M.step s o) = (e s || opens o))
    (hstep : ∀ s o, f (M.step s o) = if e s then (sees o).elim (f s) (N.step (f s)) else f s)
    (d : List ω) :
    e (M.run d) = d.any opens ∧ f (M.run d) = N.run (sinceOpened opens sees d) := by
  induction d using List.reverseRecOn with
  | nil => exact ⟨hclosed, h0⟩
  | append_singleton d o ih =>
    obtain ⟨hany, hrun⟩ := ih
    rw [Machine.run_concat, sinceOpened_concat (hno o), hopen, hstep, hany]
    refine ⟨by simp, ?_⟩
    cases hd : d.any opens with
    | true =>
      cases hs : sees o with
      | none => simpa using hrun
      | some u => simp [Machine.run_concat, hrun]
    | false =>
      rw [sinceOpened_of_closed hd] at hrun
      simpa using hrun

/-- Whatever is to be seen comes after something that opens. -/
def Announced (opens : ω → Bool) (sees : ω → Option υ) (d : List ω) : Prop :=
  ∀ p o q, d = p ++ o :: q → (sees o).isSome = true → p.any opens = true

theorem announced_iff : Announced opens sees d ↔
    ∀ i : Fin d.length, (sees (d.get i)).isSome = true → (d.take i).any opens = true := by
  constructor
  · intro h i
    have hsplit : d = d.take i ++ d.get i :: d.drop (i + 1) := by simp
    exact h _ _ _ hsplit
  · rintro h p o q rfl hs
    have hp := h ⟨p.length, by simp⟩ (by simpa using hs)
    simpa using hp

instance : Decidable (Announced opens sees d) := decidable_of_iff _ announced_iff.symm

theorem Announced.of_concat {o : ω} (h : Announced opens sees (d ++ [o])) :
    Announced opens sees d := fun p a q he => h p a (q ++ [o]) (by simp [he])

theorem sinceOpened_of_announced (hno : ∀ o, opens o = true → sees o = none)
    (h : Announced opens sees d) : sinceOpened opens sees d = d.filterMap sees := by
  induction d using List.reverseRecOn with
  | nil => rfl
  | append_singleton d o ih =>
    have hd := h.of_concat
    rw [sinceOpened_concat (hno o), List.filterMap_append, ih hd]
    cases hs : sees o with
    | none =>
      cases hany : d.any opens with
      | true => simp [hs]
      | false =>
        have hnone : d.filterMap sees = [] := by
          rw [← ih hd, sinceOpened_of_closed hany]
        simp [hs, hnone]
    | some u =>
      have hany : d.any opens = true := h d o [] rfl (by rw [hs]; rfl)
      simp [hs, hany]

end Opened

theorem delivers_filterMap {υ : Type*} {ops d : List ω} (h : Machine.Delivers ops d)
    (f : ω → Option υ) : Machine.Delivers (ops.filterMap f) (d.filterMap f) := by
  intro u
  simp only [List.mem_filterMap]
  exact exists_congr fun o => and_congr_left fun _ => h o

end CollabDatatypes.Lib
