import CollabDatatypes.Container.Map
import CollabDatatypes.Container.History
import CollabDatatypes.Lib.Stamp

/-! # The last-writer-wins reference

What a set should hold after a run is a matter of maxima over the operations delivered. In a run
without clears the entry of a key is the newest operation that names it. In a run without removes it
is the newer one of the newest `add` of the key and the newest `clear`. The set holds exactly that
(`named_newest`, `added_newest`), so its state depends on the operations only, not on their order or
number: `reference_exact`. With both clears and removes in the run this fails
(`Container.Convergence`). -/

namespace CollabDatatypes.Container

open CollabDatatypes.Lib CollabDatatypes.CmRDT

variable {Key U : Type*}

/-- A run of adds and clears. -/
def WithoutRemoves (d : List (Op Key U)) : Prop := ∀ k s, .remove k s ∉ d

variable [LinearOrder U] [Zero U]

/-- The greatest stamp of a clear, `0` if there is none. -/
def NewestClear (d : List (Op Key U)) (c : U) : Prop :=
  Newest Op.stamp (fun o => ∃ s, o = .clear s) d (.clear c) ∨ c = 0 ∧ WithoutClears d

theorem NewestClear.congr {d d' : List (Op Key U)} {c : U} (h : ∀ o, o ∈ d' ↔ o ∈ d) :
    NewestClear d' c ↔ NewestClear d c := by
  simp only [NewestClear, Newest, WithoutClears, h]

theorem exists_newestClear (d : List (Op Key U)) : ∃ c, NewestClear d c := by
  by_cases hc : ∃ o ∈ d, ∃ s, o = .clear s
  · obtain ⟨o, ho⟩ := exists_newest Op.stamp hc
    obtain ⟨s, rfl⟩ := ho.2.1
    exact ⟨s, Or.inl ho⟩
  · exact ⟨0, Or.inr ⟨rfl, fun s hs => hc ⟨_, hs, s, rfl⟩⟩⟩

namespace Cells

variable [DecidableEq Key] {d d' : List (Op Key U)} {k : Key}

theorem isSome_iff_named : (((machine Key U).run d).cell k).isSome = true ↔ ∃ o ∈ d, Names k o := by
  constructor
  · intro h
    obtain ⟨e, he⟩ := Option.isSome_iff_exists.mp h
    exact named_of_cell he
  · rintro ⟨o, ho, hn⟩
    obtain ⟨e, he, -⟩ := le_cell ho hn
    rw [he]
    rfl

theorem not_named_iff : ((machine Key U).run d).cell k = none ↔ ¬ ∃ o ∈ d, Names k o := by
  rw [← isSome_iff_named, Bool.not_eq_true, Option.isSome_eq_false_iff, Option.isNone_iff_eq_none]

theorem clearTime_of_newestClear (h : Stamped Op.stamp d) {c : U} (hc : NewestClear d c) :
    ((machine Key U).run d).clearTime = c := by
  rcases hc with ⟨hmem, -, hmax⟩ | ⟨rfl, hn⟩
  · refine le_antisymm ?_ (clear_le hmem)
    rcases clear_mem d with h0 | hcl
    · rw [h0]
      exact (h.pos _ hmem).le
    · exact hmax _ hcl ⟨_, rfl⟩
  · exact (clear_mem d).resolve_right (hn _)

/-! ### Adds and removes -/

/-- **Without clears, an entry shows the newest operation that names its key.** -/
theorem named_newest (h : Stamped Op.stamp d) (hn : WithoutClears d) {o : Op Key U}
    (ho : Newest Op.stamp (Names k) d o) :
    ∃ e, ((machine Key U).run d).cell k = some e ∧ e.timestamp = o.stamp ∧
      (e.isRemoved = true ↔ Removes k o) := by
  obtain ⟨hod, hname, hmax⟩ := ho
  obtain ⟨⟨t, b⟩, he, hle⟩ := le_cell hod hname
  refine ⟨_, he, ?_⟩
  cases b with
  | false =>
    have hadd := live_mem he
    have hst := le_antisymm (hmax _ hadd (Or.inl ⟨t, rfl⟩)) hle
    obtain rfl := h.inj _ hadd o hod hst
    refine ⟨rfl, iff_of_false Bool.false_ne_true ?_⟩
    rintro ⟨s, hs⟩
    cases hs
  | true =>
    have hrem : .remove k t ∈ d := by
      rcases dead_mem he with hr | hc | rfl
      · exact hr
      · exact absurd hc (hn t)
      · exact absurd (h.pos o hod) hle.not_gt
    have hst := le_antisymm (hmax _ hrem (Or.inr ⟨t, rfl⟩)) hle
    obtain rfl := h.inj _ hrem o hod hst
    exact ⟨rfl, iff_of_true rfl ⟨t, rfl⟩⟩

/-! ### Adds and clears -/

theorem clearTime_le_of_cell (hn : WithoutRemoves d) {e : Metadata U}
    (h : ((machine Key U).run d).cell k = some e) :
    ((machine Key U).run d).clearTime ≤ e.timestamp := by
  by_contra hlt
  obtain ⟨r, hr, -⟩ := planted h (not_le.mp hlt)
  exact hn k r hr

/-- **Without removes, an entry shows the newer one of the newest `add` and the newest clear.** -/
theorem added_newest (h : Stamped Op.stamp d) (hn : WithoutRemoves d) {a c : U}
    (ha : Newest Op.stamp (Adds k) d (.add k a)) (hc : NewestClear d c) :
    ((machine Key U).run d).cell k = some ⟨max a c, decide (a < c)⟩ := by
  obtain ⟨hmem, -, hmax⟩ := ha
  obtain ⟨⟨t, b⟩, he, hle⟩ := le_cell hmem (Or.inl ⟨a, rfl⟩)
  replace hle : a ≤ t := hle
  have hct : c ≤ t := by
    rw [← clearTime_of_newestClear h hc]
    exact clearTime_le_of_cell hn he
  rw [he]
  cases b with
  | false =>
    obtain rfl : a = t := le_antisymm hle (hmax _ (live_mem he) ⟨t, rfl⟩)
    rw [max_eq_left hct, decide_eq_false hct.not_gt]
  | true =>
    rcases dead_mem he with hr | hcl | rfl
    · exact absurd hr (hn k t)
    · have htc : t ≤ c := by
        rw [← clearTime_of_newestClear h hc]
        exact clear_le hcl
      obtain rfl := le_antisymm htc hct
      have hlt : a < t := h.lt_of_le_of_ne hmem hcl hle (by simp)
      rw [max_eq_right hle, decide_eq_true hlt]
    · exact absurd (h.pos _ hmem) hle.not_gt

/-! ### The order does not matter -/

theorem cells_congr (h : Stamped Op.stamp d) (hn : WithoutClears d ∨ WithoutRemoves d)
    (hd : ∀ o, o ∈ d' ↔ o ∈ d) : (machine Key U).run d' = (machine Key U).run d := by
  have h' : Stamped Op.stamp d' := h.of_subset fun o ho => (hd o).mp ho
  obtain ⟨c, hc⟩ := exists_newestClear d
  have hc' := (NewestClear.congr hd).mpr hc
  refine Cells.ext ?_ (funext fun k => ?_)
  · rw [clearTime_of_newestClear h hc, clearTime_of_newestClear h' hc']
  · have hnew : ∀ {p : Op Key U → Prop} {o}, Newest Op.stamp p d o → Newest Op.stamp p d' o :=
      fun ho => ⟨(hd _).mpr ho.1, ho.2.1, fun o' ho' => ho.2.2 o' ((hd o').mp ho')⟩
    by_cases hk : ∃ o ∈ d, Names k o
    · rcases hn with hn | hn
      · obtain ⟨o, ho⟩ := exists_newest Op.stamp hk
        obtain ⟨⟨t, b⟩, he, rfl, hb⟩ := named_newest h hn ho
        obtain ⟨⟨t', b'⟩, he', rfl, hb'⟩ :=
          named_newest h' (fun s hs => hn s ((hd _).mp hs)) (hnew ho)
        obtain rfl : b' = b := Bool.eq_iff_iff.mpr (hb'.trans hb.symm)
        rw [he, he']
      · have hadds : ∃ o ∈ d, Adds k o := by
          obtain ⟨o, ho, ha | ⟨s, rfl⟩⟩ := hk
          · exact ⟨o, ho, ha⟩
          · exact absurd ho (hn k s)
        obtain ⟨o, ho⟩ := exists_newest Op.stamp hadds
        obtain ⟨a, rfl⟩ := ho.2.1
        rw [added_newest h hn ho hc,
          added_newest h' (fun k s hs => hn k s ((hd _).mp hs)) (hnew ho) hc']
    · have hk' : ¬ ∃ o ∈ d', Names k o := fun ⟨o, ho, hn⟩ => hk ⟨o, (hd o).mp ho, hn⟩
      rw [not_named_iff.mpr hk, not_named_iff.mpr hk']

end Cells

end CollabDatatypes.Container

namespace CollabDatatypes.CmRDT.LWWSet

open CollabDatatypes.Lib CollabDatatypes.Container

variable {Key U : Type*} [DecidableEq Key]

theorem crdtCount_eq_one (s : LWWSet Key U) (k : Key) :
    s.crdtCount k = 1 ↔ (s.cells.cell k).isSome = true := by
  unfold crdtCount
  rw [cells_cell]
  split_ifs with h <;> simp [h]

theorem size_congr {s s' : LWWSet Key U} (h : s.Counted) (h' : s'.Counted)
    (hc : s.cells = s'.cells) : s.size = s'.size := by
  refine h.trans (Eq.trans ?_ h'.symm)
  refine UnorderedMap.countWhere_congr fun k => ?_
  show k ∈ s.keys ↔ k ∈ s'.keys
  rw [mem_keys, mem_keys, ← cells_cell, ← cells_cell, hc]

variable [LinearOrder U] [Zero U]

/-- **The set is the reference state** of a run without clears or without removes, and the state does
not depend on the order of the operations, nor on how often they are delivered. -/
theorem reference_exact {d : List (Op Key U)} (h : Stamped Op.stamp d)
    (hn : WithoutClears d ∨ WithoutRemoves d) :
    (WithoutClears d → ∀ k,
      (((machine Key U).run d).crdtCount k = 1 ↔ ∃ o ∈ d, Names k o) ∧
      ∀ o, Newest Op.stamp (Names k) d o → ∃ e, ((machine Key U).run d).crdtFind k = some e ∧
        e.timestamp = o.stamp ∧ (e.isRemoved = true ↔ Removes k o)) ∧
    (WithoutRemoves d → ∀ c, NewestClear d c → ((machine Key U).run d).lastClearTime = c ∧
      ∀ k, (((machine Key U).run d).crdtCount k = 1 ↔ ∃ a, .add k a ∈ d) ∧
        ∀ a, Newest Op.stamp (Adds k) d (.add k a) →
          ∃ e, ((machine Key U).run d).crdtFind k = some e ∧ e.timestamp = max a c ∧
            (e.isRemoved = true ↔ a < c)) ∧
    ∀ d', (∀ o, o ∈ d' ↔ o ∈ d) →
      (∀ k, ((machine Key U).run d').crdtFind k = ((machine Key U).run d).crdtFind k) ∧
      ((machine Key U).run d').size = ((machine Key U).run d).size ∧
      ((machine Key U).run d').lastClearTime = ((machine Key U).run d).lastClearTime := by
  have hcell : ∀ d k, ((machine Key U).run d).crdtFind k = ((Cells.machine Key U).run d).cell k :=
    fun d k => congrFun (congrArg Cells.cell (cells_run d)) k
  have hclear : ∀ d,
      ((machine Key U).run d).lastClearTime = ((Cells.machine Key U).run d).clearTime :=
    fun d => congrArg Cells.clearTime (cells_run d)
  simp only [crdtCount_eq_one, cells_run, hcell, hclear]
  refine ⟨fun hn k => ⟨Cells.isSome_iff_named, fun o ho => Cells.named_newest h hn ho⟩,
    fun hn c hc => ⟨Cells.clearTime_of_newestClear h hc, fun k => ⟨?_, fun a ha => ?_⟩⟩,
    fun d' hd => ?_⟩
  · rw [Cells.isSome_iff_named]
    constructor
    · rintro ⟨o, ho, ⟨a, rfl⟩ | ⟨s, rfl⟩⟩
      · exact ⟨a, ho⟩
      · exact absurd ho (hn k s)
    · rintro ⟨a, ha⟩
      exact ⟨_, ha, Or.inl ⟨a, rfl⟩⟩
  · exact ⟨_, Cells.added_newest h hn ha hc, rfl, decide_eq_true_iff⟩
  · have hcells := Cells.cells_congr h hn hd
    refine ⟨fun k => by rw [hcells], ?_, by rw [hcells]⟩
    refine size_congr (counted_run d') (counted_run d) ?_
    rw [cells_run, cells_run, hcells]

theorem reference_exact_add_clear :
    (WithoutClears [Op.add 0 3, .clear 5] → ∀ k,
      (((machine ℕ ℕ).run [.add 0 3, .clear 5]).crdtCount k = 1 ↔
        ∃ o ∈ [Op.add 0 3, .clear 5], Names k o) ∧
      ∀ o, Newest Op.stamp (Names k) [.add 0 3, .clear 5] o →
        ∃ e, ((machine ℕ ℕ).run [.add 0 3, .clear 5]).crdtFind k = some e ∧
        e.timestamp = o.stamp ∧ (e.isRemoved = true ↔ Removes k o)) ∧
    (WithoutRemoves [Op.add 0 3, .clear 5] → ∀ c, NewestClear [Op.add 0 3, .clear 5] c →
      ((machine ℕ ℕ).run [.add 0 3, .clear 5]).lastClearTime = c ∧
      ∀ k, (((machine ℕ ℕ).run [.add 0 3, .clear 5]).crdtCount k = 1 ↔
          ∃ a, .add k a ∈ [Op.add 0 3, .clear 5]) ∧
        ∀ a, Newest Op.stamp (Adds k) [.add 0 3, .clear 5] (.add k a) →
          ∃ e, ((machine ℕ ℕ).run [.add 0 3, .clear 5]).crdtFind k = some e ∧
            e.timestamp = max a c ∧ (e.isRemoved = true ↔ a < c)) ∧
    ∀ d', (∀ o, o ∈ d' ↔ o ∈ [Op.add 0 3, .clear 5]) →
      (∀ k, ((machine ℕ ℕ).run d').crdtFind k =
        ((machine ℕ ℕ).run [.add 0 3, .clear 5]).crdtFind k) ∧
      ((machine ℕ ℕ).run d').size = ((machine ℕ ℕ).run [.add 0 3, .clear 5]).size ∧
      ((machine ℕ ℕ).run d').lastClearTime =
        ((machine ℕ ℕ).run [.add 0 3, .clear 5]).lastClearTime :=
  reference_exact (by decide) (Or.inr fun k s hs => by simp at hs)

end CollabDatatypes.CmRDT.LWWSet
