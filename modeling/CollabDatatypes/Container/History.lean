import CollabDatatypes.Container.Cells

/-! # What the cells remember of their history

Nothing is assumed of the timestamps here. One step first: `entry_step` says where an entry comes
from, `advances_step` that no entry is lost or grows older. Then, by induction over the history, what
an entry says about the operations delivered so far: a visible key shows the stamp of an `add`, a
removed one that of a `remove` or of a `clear`, and both are at least as new as every operation that
named the key. The time of the last clear bounds an entry from below unless a `remove` planted it
(`planted`). -/

namespace CollabDatatypes.Container

open CollabDatatypes.Lib CollabDatatypes.CmRDT

variable {Key U : Type*}

/-- The operation is an `add` of `k`. -/
def Adds (k : Key) (o : Op Key U) : Prop := ∃ s, o = .add k s

/-- The operation is a `remove` of `k`. -/
def Removes (k : Key) (o : Op Key U) : Prop := ∃ s, o = .remove k s

/-- The operation is an `add` or a `remove` of `k`. -/
def Names (k : Key) (o : Op Key U) : Prop := Adds k o ∨ Removes k o

/-- A run of adds and removes. -/
def WithoutClears (d : List (Op Key U)) : Prop := ∀ s, .clear s ∉ d

namespace Cells

variable [DecidableEq Key] [LinearOrder U]

/-! ### One step -/

section Step

variable {x : Cells Key U} {o : Op Key U} {k : Key} {e : Metadata U}

/-- **Where an entry comes from**: it was there, or the operation wrote its own stamp, or an `add`
older than the last clear left a tombstone with the time of that clear. -/
theorem entry_step (h : (x.apply o).1.cell k = some e) :
    x.cell k = some e ∨
      (o = .add k e.timestamp ∧ e.isRemoved = false ∧
        AddApplies x.clearTime e.timestamp (x.cell k)) ∨
      (o = .remove k e.timestamp ∧ e.isRemoved = true) ∨
      (o = .clear e.timestamp ∧ e.isRemoved = true ∧ x.clearTime < e.timestamp) ∨
      (∃ s, o = .add k s ∧ x.cell k = none ∧ s ≤ x.clearTime ∧ e = ⟨x.clearTime, true⟩) := by
  rcases o with ⟨k', s⟩ | ⟨k', s⟩ | s
  · replace h : (x.add k' s).cell k = some e := h
    rw [add_cell] at h
    split_ifs at h with hk
    · subst hk
      obtain rfl := Option.some.inj h
      rcases addCell_cases x.clearTime s (x.cell k) with ⟨ha, he⟩ | ⟨e, hx, -, he⟩ | ⟨hx, hs, he⟩
      · rw [he]; exact Or.inr (Or.inl ⟨rfl, rfl, ha⟩)
      · rw [he]; exact Or.inl hx
      · rw [he]; exact Or.inr (Or.inr (Or.inr (Or.inr ⟨s, rfl, hx, hs, rfl⟩)))
    · exact Or.inl h
  · replace h : (x.remove k' s).cell k = some e := h
    rw [remove_cell] at h
    split_ifs at h with hk
    · subst hk
      obtain rfl := Option.some.inj h
      rcases removeCell_cases s (x.cell k) with ⟨-, he⟩ | ⟨e, hx, -, he⟩
      · rw [he]; exact Or.inr (Or.inr (Or.inl ⟨rfl, rfl⟩))
      · rw [he]; exact Or.inl hx
    · exact Or.inl h
  · replace h : clearCell x.clearTime s (x.cell k) = some e := h
    rcases clearCell_cases x.clearTime s (x.cell k) with ⟨he, -⟩ | ⟨hc, e', -, -, he⟩
    · exact Or.inl (he ▸ h)
    · rw [he] at h
      obtain rfl := Option.some.inj h
      exact Or.inr (Or.inr (Or.inr (Or.inl ⟨rfl, rfl, hc⟩)))

/-- No entry disappears, grows older, or changes its flag without being newer. -/
theorem advances_step (h : x.cell k = some e) (o : Op Key U) :
    ∃ e', (x.apply o).1.cell k = some e' ∧ Advances e e' := by
  rcases o with ⟨k', s⟩ | ⟨k', s⟩ | s
  · show ∃ e', (x.add k' s).cell k = some e' ∧ _
    rw [add_cell]
    split_ifs with hk
    · subst hk
      rw [h]
      exact ⟨_, rfl, advances_write s false e⟩
    · exact ⟨e, h, Advances.refl e⟩
  · show ∃ e', (x.remove k' s).cell k = some e' ∧ _
    rw [remove_cell]
    split_ifs with hk
    · subst hk
      rw [h]
      exact ⟨_, rfl, advances_write s true e⟩
    · exact ⟨e, h, Advances.refl e⟩
  · show ∃ e', clearCell x.clearTime s (x.cell k) = some e' ∧ _
    rw [h]
    exact advances_clearCell x.clearTime s e

theorem mono_step (h : x.cell k = some e) (o : Op Key U) :
    ∃ e', (x.apply o).1.cell k = some e' ∧ e.timestamp ≤ e'.timestamp :=
  (advances_step h o).imp fun _ he => ⟨he.1, he.2.1⟩

theorem names_step (x : Cells Key U) (h : Names k o) :
    ∃ e, (x.apply o).1.cell k = some e ∧ o.stamp ≤ e.timestamp := by
  rcases h with ⟨s, rfl⟩ | ⟨s, rfl⟩
  · exact ⟨_, add_cell_self x k s, le_timestamp_addCell _ _ _⟩
  · exact ⟨_, remove_cell_self x k s, le_timestamp_removeCell _ _⟩

theorem clearTime_mono (x : Cells Key U) (o : Op Key U) :
    x.clearTime ≤ (x.apply o).1.clearTime := by
  cases o with
  | add | remove => exact le_rfl
  | clear s => exact le_max_left _ _

omit [DecidableEq Key] in
theorem le_of_clear {s : U} (hs : x.clearTime < s) (h : (x.clear s).cell k = some e) :
    s ≤ e.timestamp := by
  rw [clear_cell] at h
  rcases clearCell_cases x.clearTime s (x.cell k) with ⟨he, hle⟩ | ⟨-, e', -, -, he⟩
  · exact hle hs e (he ▸ h)
  · rw [he] at h
    obtain rfl := Option.some.inj h
    exact le_rfl

end Step

/-! ### Runs -/

variable [Zero U] {d : List (Op Key U)} {k : Key}

theorem clear_le {s : U} (h : .clear s ∈ d) : s ≤ ((machine Key U).run d).clearTime := by
  induction d using List.reverseRecOn with
  | nil => simp at h
  | append_singleton d o ih =>
    rw [Machine.run_concat]
    rcases List.mem_append.mp h with h | h
    · exact (ih h).trans (clearTime_mono _ o)
    · obtain rfl := List.mem_singleton.mp h
      exact le_max_right _ _

theorem clear_mem (d : List (Op Key U)) : ((machine Key U).run d).clearTime = 0 ∨
    .clear ((machine Key U).run d).clearTime ∈ d := by
  induction d using List.reverseRecOn with
  | nil => exact Or.inl rfl
  | append_singleton d o ih =>
    rw [Machine.run_concat]
    have hold := ih.imp_right (List.mem_append_left [o])
    cases o with
    | add | remove => exact hold
    | clear s =>
      show max _ s = 0 ∨ Op.clear (max _ s) ∈ _
      rcases max_choice ((machine Key U).run d).clearTime s with h | h
      · rw [h]; exact hold
      · rw [h]; simp

theorem live_mem {t : U} (h : ((machine Key U).run d).cell k = some ⟨t, false⟩) : .add k t ∈ d := by
  induction d using List.reverseRecOn with
  | nil => cases h
  | append_singleton d o ih =>
    rw [Machine.run_concat] at h
    rcases entry_step h with h | ⟨rfl, -⟩ | ⟨-, h⟩ | ⟨-, h, -⟩ | ⟨s, -, -, -, h⟩
    · exact List.mem_append_left _ (ih h)
    · simp
    · cases h
    · cases h
    · cases h

theorem dead_mem {t : U} (h : ((machine Key U).run d).cell k = some ⟨t, true⟩) :
    .remove k t ∈ d ∨ .clear t ∈ d ∨ t = 0 := by
  induction d using List.reverseRecOn with
  | nil => cases h
  | append_singleton d o ih =>
    rw [Machine.run_concat] at h
    rcases entry_step h with h | ⟨-, h, -⟩ | ⟨rfl, -⟩ | ⟨rfl, -, -⟩ | ⟨s, -, -, -, h⟩
    · exact (ih h).imp (List.mem_append_left _) (Or.imp_left (List.mem_append_left _))
    · cases h
    · exact Or.inl (by simp)
    · exact Or.inr (Or.inl (by simp))
    · cases h
      exact Or.inr ((clear_mem d).symm.imp_left (List.mem_append_left _))

/-- A key has an entry as soon as an operation named it, at least as new as that operation. -/
theorem le_cell {o : Op Key U} (ho : o ∈ d) (hk : Names k o) :
    ∃ e, ((machine Key U).run d).cell k = some e ∧ o.stamp ≤ e.timestamp := by
  induction d using List.reverseRecOn with
  | nil => simp at ho
  | append_singleton d o' ih =>
    rw [Machine.run_concat]
    rcases List.mem_append.mp ho with ho | ho
    · obtain ⟨e, he, hle⟩ := ih ho
      obtain ⟨e', he', hle'⟩ := mono_step he o'
      exact ⟨e', he', hle.trans hle'⟩
    · obtain rfl := List.mem_singleton.mp ho
      exact names_step _ hk

theorem named_of_cell {e : Metadata U} (h : ((machine Key U).run d).cell k = some e) :
    ∃ o ∈ d, Names k o := by
  induction d using List.reverseRecOn generalizing e with
  | nil => cases h
  | append_singleton d o ih =>
    rw [Machine.run_concat] at h
    have hold : ∀ e, ((machine Key U).run d).cell k = some e → ∃ o' ∈ d ++ [o], Names k o' := by
      intro e he
      obtain ⟨o', ho', hn⟩ := ih he
      exact ⟨o', List.mem_append_left _ ho', hn⟩
    have hlast : ∀ o' : Op Key U, o = o' → Names k o' → ∃ o' ∈ d ++ [o], Names k o' :=
      fun o' ho hn => ⟨o', by simp [ho], hn⟩
    rcases entry_step h with h | ⟨ho, -⟩ | ⟨ho, -⟩ | ⟨rfl, -, -⟩ | ⟨s, ho, -, -, -⟩
    · exact hold e h
    · exact hlast _ ho (Or.inl ⟨_, rfl⟩)
    · exact hlast _ ho (Or.inr ⟨_, rfl⟩)
    · cases he : ((machine Key U).run d).cell k with
      | none =>
        replace h : clearCell _ _ _ = some e := h
        rw [he, clearCell_none] at h
        cases h
      | some e' => exact hold e' he
    · exact hlast _ ho (Or.inl ⟨_, rfl⟩)

/-- **An entry older than the last clear was planted by a `remove`** that found no entry. -/
theorem planted {e : Metadata U} (h : ((machine Key U).run d).cell k = some e)
    (hlt : e.timestamp < ((machine Key U).run d).clearTime) :
    ∃ r, .remove k r ∈ d ∧ r ≤ e.timestamp := by
  induction d using List.reverseRecOn generalizing e with
  | nil => cases h
  | append_singleton d o ih =>
    rw [Machine.run_concat] at h hlt
    have hold : ∀ e', ((machine Key U).run d).cell k = some e' → e'.timestamp ≤ e.timestamp →
        e'.timestamp < ((machine Key U).run d).clearTime →
        ∃ r, .remove k r ∈ d ++ [o] ∧ r ≤ e.timestamp := by
      intro e' he' hle hlt'
      obtain ⟨r, hr, hre⟩ := ih he' hlt'
      exact ⟨r, List.mem_append_left _ hr, hre.trans hle⟩
    rcases entry_step h with hx | ⟨rfl, -, ha⟩ | ⟨rfl, -⟩ | ⟨rfl, -, hc⟩ | ⟨s, rfl, -, -, rfl⟩
    · refine hold e hx le_rfl ?_
      by_contra hge
      rw [not_lt] at hge
      rcases o with ⟨k', s⟩ | ⟨k', s⟩ | s
      · exact absurd hlt hge.not_gt
      · exact absurd hlt hge.not_gt
      · have hs := (lt_max_iff.mp hlt).resolve_left hge.not_gt
        exact absurd hs (le_of_clear (hge.trans_lt hs) h).not_gt
    · cases hx : ((machine Key U).run d).cell k with
      | none =>
        rw [hx] at ha
        exact absurd hlt (lt_asymm ha)
      | some e' =>
        rw [hx] at ha
        exact hold e' hx (le_of_lt ha) (lt_trans ha hlt)
    · exact ⟨e.timestamp, by simp, le_rfl⟩
    · replace hlt : _ < max _ e.timestamp := hlt
      rw [max_eq_right hc.le] at hlt
      exact absurd hlt (lt_irrefl _)
    · exact absurd hlt (lt_irrefl _)

end Cells

end CollabDatatypes.Container
