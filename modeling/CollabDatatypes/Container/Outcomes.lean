import CollabDatatypes.Container.Congruence
import CollabDatatypes.Container.Schedules
import CollabDatatypes.Container.Sequential

/-! # What deliveries of a container can end in

Operations carry any positive stamps, and clears may be among them. What a set or a map shows after a
delivery follows from the schedules (`visible_sets`). The entries behind that agree in all deliveries
exactly when no key of `EntryDiverges` exists (`crdtEqual_converge_iff`). -/

namespace CollabDatatypes.Container

open CollabDatatypes.Lib CollabDatatypes.CmRDT

variable {Key T U : Type*} [LinearOrder U] {ops d p q : List (Op Key U)} {k : Key}

/-- An `add` among the newest operations that name `k` has a rival of the same stamp, and no clear is
newer; or `k` is removed, and a clear is newer than everything that names it. -/
def EntryDiverges (ops : List (Op Key U)) (k : Key) : Prop :=
  (∃ s, Newest Op.stamp (Names k) ops (.add k s) ∧ (∀ c, .clear c ∈ ops → c ≤ s) ∧
      (.remove k s ∈ ops ∨ .clear s ∈ ops)) ∨
    (∃ r, .remove k r ∈ ops) ∧ ∃ c, .clear c ∈ ops ∧ ∀ o ∈ ops, Names k o → o.stamp < c

theorem EntryDiverges.congr (h : Machine.Delivers ops d) (k : Key) :
    EntryDiverges d k ↔ EntryDiverges ops k := by
  have hmem : ∀ o, o ∈ d ↔ o ∈ ops := h
  simp only [EntryDiverges, Newest, hmem]

namespace Cells

variable [DecidableEq Key] [Zero U]

/-! ### The entries -/

theorem timestamp_of_newest (h : Positive d) {b : Op Key U} (hb : Newest Op.stamp (Names k) d b)
    (hc : ∀ c, .clear c ∈ d → c ≤ b.stamp) :
    ∃ e, ((machine Key U).run d).cell k = some e ∧ e.timestamp = b.stamp := by
  obtain ⟨⟨t, r⟩, he, hle⟩ := le_cell hb.1 hb.2.1
  refine ⟨_, he, le_antisymm ?_ hle⟩
  cases r with
  | false => exact hb.2.2 _ (live_mem he) (Or.inl ⟨t, rfl⟩)
  | true =>
    rcases dead_mem he with hr | hclear | rfl
    · exact hb.2.2 _ hr (Or.inr ⟨t, rfl⟩)
    · exact hc t hclear
    · exact h.nonneg b hb.1

theorem live_of_newest (h : Positive d) (hk : ¬ EntryDiverges d k) {b : Op Key U}
    (hb : Newest Op.stamp (Names k) d b) (hc : ∀ c, .clear c ∈ d → c ≤ b.stamp) :
    live (((machine Key U).run d).cell k) = true ↔ .add k b.stamp ∈ d := by
  obtain ⟨⟨t, r⟩, he, hst⟩ := timestamp_of_newest h hb hc
  obtain rfl : t = b.stamp := hst
  rw [he]
  cases r with
  | false => exact iff_of_true rfl (live_mem he)
  | true =>
    refine iff_of_false Bool.false_ne_true fun ha => ?_
    rcases dead_mem he with hr | hclear | h0
    · exact hk (Or.inl ⟨_, ⟨ha, Or.inl ⟨_, rfl⟩, hb.2.2⟩, hc, Or.inl hr⟩)
    · exact hk (Or.inl ⟨_, ⟨ha, Or.inl ⟨_, rfl⟩, hb.2.2⟩, hc, Or.inr hclear⟩)
    · exact (h.add k _ ha).ne' h0

theorem cell_of_cleared (h : Positive d) {b : Op Key U} (hb : b ∈ d) (hname : Names k b)
    (hno : ∀ r, .remove k r ∉ d) {c : U} (hc : Newest Op.stamp (fun o => ∃ s, o = .clear s) d (.clear c))
    (hlt : ∀ o ∈ d, Names k o → o.stamp < c) :
    ((machine Key U).run d).cell k = some ⟨c, true⟩ := by
  obtain ⟨⟨t, r⟩, he, -⟩ := le_cell hb hname
  have hct : c ≤ t := by
    by_contra hn
    have hold : t < ((machine Key U).run d).clearTime := (not_le.mp hn).trans_le (clear_le hc.1)
    obtain ⟨s, hs, -⟩ := planted he hold
    exact hno s hs
  rw [he]
  cases r with
  | false => exact absurd (hlt _ (live_mem he) (Or.inl ⟨t, rfl⟩)) hct.not_gt
  | true =>
    have hpos : 0 < c := (h.nonneg b hb).trans_lt (hlt b hb hname)
    rcases dead_mem he with hr | hclear | rfl
    · exact absurd hr (hno t)
    · have htc : t ≤ c := hc.2.2 _ hclear ⟨t, rfl⟩
      rw [le_antisymm htc hct]
    · exact absurd hpos hct.not_gt

/-- **The entry of a key that does not diverge** depends on the operations only. -/
theorem cell_eq_of_delivers {d' : List (Op Key U)} (h : Positive ops) (hk : ¬ EntryDiverges ops k)
    (hd : Machine.Delivers ops d) (hd' : Machine.Delivers ops d') :
    ((machine Key U).run d).cell k = ((machine Key U).run d').cell k := by
  by_cases hnamed : ∃ o ∈ ops, Names k o
  swap
  · have hnone : ∀ d, Machine.Delivers ops d → ((machine Key U).run d).cell k = none :=
      fun d hd => not_named_iff.mpr fun ⟨o, ho, hn⟩ => hnamed ⟨o, (hd o).mp ho, hn⟩
    rw [hnone d hd, hnone d' hd']
  obtain ⟨b, hb⟩ := exists_newest Op.stamp hnamed
  by_cases hc : ∀ c, .clear c ∈ ops → c ≤ b.stamp
  · -- the newest operations that name the key
    have hentry : ∀ d, Machine.Delivers ops d → ∃ e, ((machine Key U).run d).cell k = some e ∧
        e.timestamp = b.stamp ∧ (live (some e) = true ↔ .add k b.stamp ∈ ops) := by
      intro d hd
      have hpos := h.of_delivers hd
      have hnewest : Newest Op.stamp (Names k) d b := (Newest.of_delivers hd).mpr hb
      have hclear : ∀ c, .clear c ∈ d → c ≤ b.stamp := fun c hc' => hc c ((hd _).mp hc')
      obtain ⟨e, he, hst⟩ := timestamp_of_newest hpos hnewest hclear
      have hlive := live_of_newest hpos (mt (EntryDiverges.congr hd k).mp hk) hnewest hclear
      rw [he, hd] at hlive
      exact ⟨e, he, hst, hlive⟩
    obtain ⟨⟨t, r⟩, he, hst, hlive⟩ := hentry d hd
    obtain ⟨⟨t', r'⟩, he', hst', hlive'⟩ := hentry d' hd'
    have hr : (!r) = !r' := Bool.eq_iff_iff.mpr (hlive.trans hlive'.symm)
    rw [he, he', Bool.not_inj hr, show t = t' from hst.trans hst'.symm]
  · -- a clear that is newer than everything that names the key
    push Not at hc
    obtain ⟨c, hmem, hlt⟩ := hc
    obtain ⟨_, hC⟩ :=
      exists_newest Op.stamp (p := fun o : Op Key U => ∃ s, o = .clear s) ⟨_, hmem, c, rfl⟩
    obtain ⟨c', rfl⟩ := hC.2.1
    have hnew : ∀ o ∈ ops, Names k o → o.stamp < c' := fun o ho hn =>
      ((hb.2.2 o ho hn).trans_lt hlt).trans_le (hC.2.2 _ hmem ⟨c, rfl⟩)
    have hno : ∀ r, .remove k r ∉ ops := fun r hr => hk (Or.inr ⟨⟨r, hr⟩, c', hC.1, hnew⟩)
    have hcell : ∀ d, Machine.Delivers ops d →
        ((machine Key U).run d).cell k = some ⟨c', true⟩ := by
      intro d hd
      exact cell_of_cleared (h.of_delivers hd) ((hd b).mpr hb.1) hb.2.1
        (fun r hr => hno r ((hd _).mp hr)) ((Newest.of_delivers hd).mpr hC)
        fun o ho => hnew o ((hd o).mp ho)
    rw [hcell d hd, hcell d' hd']

theorem stays_older {c : U} (hct : c ≤ ((machine Key U).run p).clearTime) {e : Metadata U}
    (he : ((machine Key U).run p).cell k = some e) (hlt : e.timestamp < c)
    (hnames : ∀ o ∈ q, Names k o → o.stamp < c) (hclear : ∀ s, .clear s ∈ q → s ≤ c) :
    ∃ e', ((machine Key U).run (p ++ q)).cell k = some e' ∧ e'.timestamp < c := by
  induction q using List.reverseRecOn with
  | nil => exact ⟨e, by rwa [List.append_nil], hlt⟩
  | append_singleton q o ih =>
    obtain ⟨e', he', hlt'⟩ := ih (fun o ho => hnames o (List.mem_append_left _ ho))
      fun s hs => hclear s (List.mem_append_left _ hs)
    obtain ⟨e'', he'', -⟩ := mono_step he' o
    rw [← List.append_assoc, Machine.run_concat]
    refine ⟨e'', he'', ?_⟩
    rcases entry_step he'' with hx | ⟨rfl, -⟩ | ⟨rfl, -⟩ | ⟨rfl, -, hc⟩ | ⟨_, -, hx, -⟩
    · rw [he'] at hx
      obtain rfl := Option.some.inj hx
      exact hlt'
    · exact hnames _ (by simp) (Or.inl ⟨_, rfl⟩)
    · exact hnames _ (by simp) (Or.inr ⟨_, rfl⟩)
    · have hle : e''.timestamp ≤ c := hclear _ (by simp)
      exact absurd (hle.trans (hct.trans (clearTime_append p q))) hc.not_ge
    · rw [he'] at hx
      cases hx

/-- **Schedules for the entry of a key that diverges**: they leave different entries, whatever of the
collection follows. -/
theorem exists_schedules_ne (h : Positive ops) (hk : EntryDiverges ops k) :
    ∃ p p', (∀ o ∈ p ++ p', o ∈ ops ∧ concerns k o = true) ∧
      ((machine Key U).run (p ++ ops)).cell k ≠ ((machine Key U).run (p' ++ ops)).cell k := by
  rcases hk with ⟨s, hs, hc, hrival⟩ | ⟨⟨r, hr⟩, c, hmem, hlt⟩
  · have hw : ¬ LastWins Op.stamp (Adds k) (Kills k) ops := by
      have ha : Newest Op.stamp (Adds k) ops (.add k s) :=
        ⟨hs.1, ⟨s, rfl⟩, fun o ho hn => hs.2.2 o ho (Or.inl hn)⟩
      rw [lastWins_iff_newest ha]
      intro hall
      rcases hrival with hrival | hrival
      · exact absurd (hall _ hrival (Or.inl ⟨s, rfl⟩)) (lt_irrefl s)
      · exact absurd (hall _ hrival (Or.inr ⟨s, rfl⟩)) (lt_irrefl s)
    obtain ⟨p, hp, hl⟩ := exists_schedule_live h ⟨s, hs, Or.inl hc⟩
    obtain ⟨p', hp', hdead⟩ := exists_schedule_dead h hw
    refine ⟨p, p', ?_, fun he => hdead (he ▸ hl)⟩
    exact fun o ho => (List.mem_append.mp ho).elim (hp o) (hp' o)
  · obtain ⟨_, hC, ⟨c', rfl⟩, hmax⟩ :=
      exists_newest Op.stamp (p := fun o : Op Key U => ∃ s, o = .clear s) ⟨_, hmem, c, rfl⟩
    have hcc : c ≤ c' := hmax _ hmem ⟨c, rfl⟩
    have hrc : r < c' := (hlt _ hr (Or.inr ⟨r, rfl⟩)).trans_le hcc
    have hstart : ((machine Key U).run [.clear c', .remove k r]).cell k = some ⟨r, true⟩ := by
      show (((init Key U).clear c').remove k r).cell k = _
      rw [remove_cell_self, clear_cell]
      show some (removeCell r (clearCell 0 c' none)) = _
      rw [clearCell_none]
      rfl
    have hpos : 0 < c' := (h.nonneg _ hr).trans_lt hrc
    obtain ⟨e, he, hle⟩ := le_of_cleared (p := [.remove k r]) hpos (run_remove k r) ops
    obtain ⟨e', he', hlt'⟩ := stays_older (q := ops) (clear_le (by simp)) hstart hrc
      (fun o ho hn => (hlt o ho hn).trans_le hcc) fun s hs => hmax _ hs ⟨s, rfl⟩
    refine ⟨[.remove k r] ++ [.clear c'], [.clear c', .remove k r], ?_, fun heq => ?_⟩
    · simp [hr, hC, concerns]
    · obtain rfl := Option.some.inj (he.symm.trans (heq.trans he'))
      exact absurd hlt' hle.not_gt

end Cells

/-! ### The two containers -/

section Containers

variable [DecidableEq Key] [Zero U]

theorem set_seen_run (d : List (Op Key U)) (k : Key) : ((LWWSet.machine Key U).run d).seen k =
    live (((Cells.machine Key U).run d).cell k) := by
  rw [LWWSet.seen_eq, LWWSet.cells_run]
  rfl

variable [Inhabited T]

theorem map_seen_run (d : List (Op Key U)) (k : Key) : ((LWWMap.machine Key T U).run d).seen k =
    live (((Cells.machine Key U).run d).cell k) := by
  rw [LWWMap.seen_eq, LWWSet.seen_eq, ← LWWMap.cells_run (T := T)]
  rfl

/-- **What a set or a map can show** after deliveries of one collection, with any positive stamps: the
keys added last, and of the other keys that may show any choice. -/
theorem visible_sets (h : ∀ o ∈ ops, 0 < o.stamp) (V : Set Key) :
    ((∃ d, Machine.Delivers ops d ∧ ∀ k, ((LWWSet.machine Key U).run d).seen k = true ↔ k ∈ V) ↔
      (∀ k, LastWins Op.stamp (Adds k) (Kills k) ops → k ∈ V) ∧ ∀ k ∈ V, MayShow ops k) ∧
    ((∃ d, Machine.Delivers ops d ∧
        ∀ k, ((LWWMap.machine Key T U).run d).seen k = true ↔ k ∈ V) ↔
      (∀ k, LastWins Op.stamp (Adds k) (Kills k) ops → k ∈ V) ∧ ∀ k ∈ V, MayShow ops k) := by
  simp only [set_seen_run, map_seen_run]
  exact ⟨Cells.exists_delivery_iff (Positive.of_pos h) V,
    Cells.exists_delivery_iff (Positive.of_pos h) V⟩

/-- A tie, a key that a `remove` carries over a clear, and a key that is added last. -/
theorem visible_sets_one :
    ((∃ d, Machine.Delivers [.add 0 6, .remove 0 6, .add 1 4, .remove 1 2, .clear 5, .add 2 7] d ∧
        ∀ k, ((LWWSet.machine ℕ ℕ).run d).seen k = true ↔ k ∈ ({1, 2} : Set ℕ)) ↔
      (∀ k, LastWins Op.stamp (Adds k) (Kills k)
        [Op.add 0 6, .remove 0 6, .add 1 4, .remove 1 2, .clear 5, .add 2 7] →
          k ∈ ({1, 2} : Set ℕ)) ∧
      ∀ k ∈ ({1, 2} : Set ℕ),
        MayShow [Op.add 0 6, .remove 0 6, .add 1 4, .remove 1 2, .clear 5, .add 2 7] k) ∧
    ((∃ d, Machine.Delivers [.add 0 6, .remove 0 6, .add 1 4, .remove 1 2, .clear 5, .add 2 7] d ∧
        ∀ k, ((LWWMap.machine ℕ ℕ ℕ).run d).seen k = true ↔ k ∈ ({1, 2} : Set ℕ)) ↔
      (∀ k, LastWins Op.stamp (Adds k) (Kills k)
        [Op.add 0 6, .remove 0 6, .add 1 4, .remove 1 2, .clear 5, .add 2 7] →
          k ∈ ({1, 2} : Set ℕ)) ∧
      ∀ k ∈ ({1, 2} : Set ℕ),
        MayShow [Op.add 0 6, .remove 0 6, .add 1 4, .remove 1 2, .clear 5, .add 2 7] k) :=
  visible_sets (by decide) {1, 2}

/-- **The entries that deliveries leave**: all deliveries of one collection, with any positive stamps,
end in sets or maps equal under `crdt_equal` exactly when no key diverges. The default value has to
equal itself. -/
theorem crdtEqual_converge_iff [BEq T] (hT : ((default : T) == default) = true)
    (h : ∀ o ∈ ops, 0 < o.stamp) :
    ((LWWSet.machine Key U).ConvergesOn (fun a b => a.crdtEqual b = true) ops ↔
      ∀ k, ¬ EntryDiverges ops k) ∧
    ((LWWMap.machine Key T U).ConvergesOn (fun a b => a.crdtEqual b = true) ops ↔
      ∀ k, ¬ EntryDiverges ops k) := by
  have hset : ∀ d d', ((LWWSet.machine Key U).run d).crdtEqual ((LWWSet.machine Key U).run d') =
      true ↔ ∀ k, ((Cells.machine Key U).run d).cell k = ((Cells.machine Key U).run d').cell k := by
    intro d d'
    rw [LWWSet.crdtEqual_iff, ← LWWSet.cells_run, ← LWWSet.cells_run]
    exact Iff.rfl
  have hmap : ∀ d d', ((LWWMap.machine Key T U).run d).crdtEqual ((LWWMap.machine Key T U).run d') =
      true ↔ ∀ k, ((Cells.machine Key U).run d).cell k = ((Cells.machine Key U).run d').cell k := by
    intro d d'
    rw [map_crdtEqual_iff hT, LWWMap.cells_run, LWWMap.cells_run]
    refine and_iff_left fun k => ?_
    rw [LWWMap.getD_valueOf_run, LWWMap.getD_valueOf_run]
    exact hT
  have hcells : (∀ d d', Machine.Delivers ops d → Machine.Delivers ops d' → ∀ k,
      ((Cells.machine Key U).run d).cell k = ((Cells.machine Key U).run d').cell k) ↔
      ∀ k, ¬ EntryDiverges ops k := by
    constructor
    · intro hc k hk
      obtain ⟨p, p', hp, hne⟩ := Cells.exists_schedules_ne (Positive.of_pos h) hk
      exact hne (hc _ _ (Machine.delivers_append fun o ho => (hp o (List.mem_append_left _ ho)).1)
        (Machine.delivers_append fun o ho => (hp o (List.mem_append_right _ ho)).1) k)
    · intro hno d d' hd hd' k
      exact Cells.cell_eq_of_delivers (Positive.of_pos h) (hno k) hd hd'
  simp only [Machine.ConvergesOn, hset, hmap]
  exact ⟨hcells, hcells⟩

theorem crdtEqual_converge_iff_removed :
    ((LWWSet.machine ℕ ℕ).ConvergesOn (fun a b => a.crdtEqual b = true) [.remove 0 2, .clear 5] ↔
      ∀ k, ¬ EntryDiverges [Op.remove 0 2, .clear 5] k) ∧
    ((LWWMap.machine ℕ ℕ ℕ).ConvergesOn (fun a b => a.crdtEqual b = true) [.remove 0 2, .clear 5] ↔
      ∀ k, ¬ EntryDiverges [Op.remove 0 2, .clear 5] k) :=
  crdtEqual_converge_iff rfl (by decide)

end Containers

end CollabDatatypes.Container
