import CollabDatatypes.Container.History
import CollabDatatypes.Lib.Stamp

/-! # Schedules: what deliveries can show

The source asks for unique timestamps, and replicas may diverge when two are equal. Here operations
carry any positive stamps, and clears may be among them. A key whose newest `add` is newer than
everything that kills it (`LastWins`) is visible after every delivery; a key of `MayShow` is visible
after some. A schedule, the operations that a delivery starts with, decides whether a key ends visible,
whatever follows (`Plan`). Schedules for different keys can be joined, so the sets of visible keys that
deliveries end in lie between the two kinds of keys and are all such sets (`exists_delivery_iff`). A
schedule can also be carried over to operations that translate into lists of modifiers
(`exists_delivery_translated`). -/

namespace CollabDatatypes.Container

open CollabDatatypes.Lib CollabDatatypes.CmRDT

variable {Key U : Type*}

/-- The operation is a `remove` of `k` or a `clear`. -/
def Kills (k : Key) (o : Op Key U) : Prop := Removes k o ∨ ∃ s, o = .clear s

/-- No `add` has the least stamp, and nothing a smaller one. -/
structure Positive [LinearOrder U] [Zero U] (d : List (Op Key U)) : Prop where
  add : ∀ k s, .add k s ∈ d → 0 < s
  nonneg : ∀ o ∈ d, 0 ≤ o.stamp

theorem Positive.of_pos [LinearOrder U] [Zero U] {d : List (Op Key U)} (h : ∀ o ∈ d, 0 < o.stamp) :
    Positive d := ⟨fun _ _ ho => h _ ho, fun o ho => (h o ho).le⟩

theorem Positive.of_delivers [LinearOrder U] [Zero U] {ops d : List (Op Key U)} (h : Positive ops)
    (hd : Machine.Delivers ops d) : Positive d :=
  ⟨fun k s ho => h.add k s ((hd _).mp ho), fun o ho => h.nonneg o ((hd o).mp ho)⟩

variable [LinearOrder U] {ops d p q : List (Op Key U)} {k : Key}

/-- An `add` is among the newest operations that name `k`, and it is not older than any clear, or
newer than some `remove` of `k`. -/
def MayShow (ops : List (Op Key U)) (k : Key) : Prop :=
  ∃ s, Newest Op.stamp (Names k) ops (.add k s) ∧
    ((∀ c, .clear c ∈ ops → c ≤ s) ∨ ∃ r, .remove k r ∈ ops ∧ r < s)

theorem MayShow.congr (h : Machine.Delivers ops d) (k : Key) : MayShow d k ↔ MayShow ops k := by
  have hmem : ∀ o, o ∈ d ↔ o ∈ ops := h
  simp only [MayShow, Newest, hmem]

namespace Cells

variable [DecidableEq Key]

/-! ### What stays -/

theorem stays_step {x : Cells Key U} {e : Metadata U} {o : Op Key U} (he : x.cell k = some e)
    (hnames : Names k o → o.stamp ≤ e.timestamp)
    (hclear : ∀ s, o = .clear s → s ≤ x.clearTime ∨ s ≤ e.timestamp) :
    (x.apply o).1.cell k = some e := by
  rw [apply_cell, he]
  cases o with
  | add k' s =>
    by_cases hk : k = k'
    · subst hk
      exact (if_pos rfl).trans (congrArg some (addCell_of_le (hnames (Or.inl ⟨s, rfl⟩))))
    · exact if_neg hk
  | remove k' s =>
    by_cases hk : k = k'
    · subst hk
      exact (if_pos rfl).trans (congrArg some (write_of_le (hnames (Or.inr ⟨s, rfl⟩)) true))
    · exact if_neg hk
  | clear s =>
    rcases hclear s rfl with hs | hs
    · exact clearCell_of_le hs _
    · exact clearCell_of_le_timestamp hs _

theorem hidden_step {x : Cells Key U} {t : U} {o : Op Key U} (he : x.cell k = some ⟨t, true⟩)
    (hadd : ∀ s, o = .add k s → s ≤ t) :
    ∃ t', t ≤ t' ∧ (x.apply o).1.cell k = some ⟨t', true⟩ := by
  rw [apply_cell, he]
  cases o with
  | add k' s =>
    refine ⟨t, le_rfl, ?_⟩
    by_cases hk : k = k'
    · subst hk
      exact (if_pos rfl).trans (congrArg some (addCell_of_le (hadd s rfl)))
    · exact if_neg hk
  | remove k' s =>
    by_cases hk : k = k'
    · rcases lt_or_ge t s with hs | hs
      · exact ⟨s, hs.le, (if_pos hk).trans (congrArg some (write_of_lt hs true))⟩
      · exact ⟨t, le_rfl, (if_pos hk).trans (congrArg some (write_of_le hs true))⟩
    · exact ⟨t, le_rfl, if_neg hk⟩
  | clear s =>
    rcases clearCell_cases x.clearTime s (some ⟨t, true⟩) with ⟨hs, -⟩ | ⟨-, e, he, hlt, hs⟩
    · exact ⟨t, le_rfl, hs⟩
    · obtain rfl := Option.some.inj he
      exact ⟨s, hlt.le, hs⟩

variable [Zero U]

theorem clearTime_append (p q : List (Op Key U)) :
    ((machine Key U).run p).clearTime ≤ ((machine Key U).run (p ++ q)).clearTime :=
  Machine.history_persist (C := fun _ => True)
    (P := fun q => ((machine Key U).run p).clearTime ≤ ((machine Key U).run q).clearTime)
    (fun _ _ _ => trivial) le_rfl (fun q o _ hle => by
      rw [Machine.run_concat]
      exact hle.trans (clearTime_mono _ o)) q trivial

/-- **An entry stays** through operations that are not newer. -/
theorem stays {e : Metadata U} (he : ((machine Key U).run p).cell k = some e)
    (hnames : ∀ o ∈ q, Names k o → o.stamp ≤ e.timestamp)
    (hclear : ∀ s, .clear s ∈ q → s ≤ ((machine Key U).run p).clearTime ∨ s ≤ e.timestamp) :
    ((machine Key U).run (p ++ q)).cell k = some e := by
  induction q using List.reverseRecOn with
  | nil => rwa [List.append_nil]
  | append_singleton q o ih =>
    have hold := ih (fun o ho => hnames o (List.mem_append_left _ ho))
      fun s hs => hclear s (List.mem_append_left _ hs)
    rw [← List.append_assoc, Machine.run_concat]
    refine stays_step hold (hnames o (by simp)) ?_
    rintro s rfl
    exact (hclear s (by simp)).imp_left fun hs => hs.trans (clearTime_append p q)

theorem stays_hidden {t : U} (he : ((machine Key U).run p).cell k = some ⟨t, true⟩)
    (hadd : ∀ s, .add k s ∈ q → s ≤ t) :
    ¬ live (((machine Key U).run (p ++ q)).cell k) = true := by
  have hkey : ∃ t', t ≤ t' ∧ ((machine Key U).run (p ++ q)).cell k = some ⟨t', true⟩ := by
    induction q using List.reverseRecOn with
    | nil => exact ⟨t, le_rfl, by rwa [List.append_nil]⟩
    | append_singleton q o ih =>
      obtain ⟨t', hle, hold⟩ := ih fun s hs => hadd s (List.mem_append_left _ hs)
      rw [← List.append_assoc, Machine.run_concat]
      have hstep : ∀ s, o = .add k s → s ≤ t' := by
        rintro s rfl
        exact (hadd s (by simp)).trans hle
      obtain ⟨t'', hle', hnew⟩ := hidden_step hold hstep
      exact ⟨t'', hle.trans hle', hnew⟩
  obtain ⟨t', -, hcell⟩ := hkey
  rw [hcell]
  exact Bool.false_ne_true

theorem le_of_cleared {c : U} {e : Metadata U} (hct : ((machine Key U).run p).clearTime < c)
    (he : ((machine Key U).run p).cell k = some e) (q : List (Op Key U)) :
    ∃ e', ((machine Key U).run (p ++ [.clear c] ++ q)).cell k = some e' ∧ c ≤ e'.timestamp := by
  refine Machine.history_persist (C := fun _ => True)
    (P := fun p => ∃ e, ((machine Key U).run p).cell k = some e ∧ c ≤ e.timestamp)
    (fun _ _ _ => trivial) ?_ ?_ q trivial
  · obtain ⟨e', he', -⟩ := mono_step he (.clear c)
    rw [Machine.run_concat]
    exact ⟨e', he', le_of_clear hct he'⟩
  · rintro p o - ⟨e, he, hle⟩
    obtain ⟨e', he', hle'⟩ := mono_step he o
    rw [Machine.run_concat]
    exact ⟨e', he', hle.trans hle'⟩

/-! ### What a visible key tells -/

/-- A visible key older than the last clear was added over the tombstone of a `remove`. -/
theorem live_planted {t : U} (he : ((machine Key U).run d).cell k = some ⟨t, false⟩)
    (hlt : t < ((machine Key U).run d).clearTime) : ∃ r, .remove k r ∈ d ∧ r < t := by
  induction d using List.reverseRecOn with
  | nil => cases he
  | append_singleton d o ih =>
    rw [Machine.run_concat] at he hlt
    rcases entry_step he with hx | ⟨rfl, -, ha⟩ | ⟨-, hb⟩ | ⟨-, hb, -⟩ | ⟨_, -, -, -, hb⟩
    · by_cases hold : t < ((machine Key U).run d).clearTime
      · obtain ⟨r, hr, hrt⟩ := ih hx hold
        exact ⟨r, List.mem_append_left _ hr, hrt⟩
      · exfalso
        rcases o with ⟨k', s⟩ | ⟨k', s⟩ | s
        · exact hold hlt
        · exact hold hlt
        · have hs : t < s := (lt_max_iff.mp hlt).resolve_left hold
          exact absurd hs (le_of_clear ((not_lt.mp hold).trans_lt hs) he).not_gt
    · cases hx : ((machine Key U).run d).cell k with
      | none =>
        rw [hx] at ha
        exact absurd hlt (lt_asymm ha)
      | some e =>
        rw [hx] at ha
        have het : e.timestamp < t := ha
        obtain ⟨r, hr, hre⟩ := planted hx (het.trans hlt)
        exact ⟨r, List.mem_append_left _ hr, hre.trans_lt het⟩
    · cases hb
    · cases hb
    · cases hb

theorem mayShow_of_live (hl : live (((machine Key U).run d).cell k) = true) : MayShow d k := by
  obtain ⟨t, ht⟩ := live_iff.mp hl
  refine ⟨t, ⟨live_mem ht, Or.inl ⟨t, rfl⟩, fun o ho hn => ?_⟩, ?_⟩
  · obtain ⟨e, he, hle⟩ := le_cell ho hn
    rw [ht] at he
    obtain rfl := Option.some.inj he
    exact hle
  · by_cases hc : ((machine Key U).run d).clearTime ≤ t
    · exact Or.inl fun c hmem => (clear_le hmem).trans hc
    · exact Or.inr (live_planted ht (not_le.mp hc))

theorem live_of_lastWriter (h : Positive d) (hw : LastWins Op.stamp (Adds k) (Kills k) d) :
    live (((machine Key U).run d).cell k) = true := by
  obtain ⟨_, ha, ⟨a, rfl⟩, hmax⟩ := hw
  obtain ⟨⟨t, b⟩, he, hle⟩ := le_cell ha (Or.inl ⟨a, rfl⟩)
  rw [he]
  cases b with
  | false => rfl
  | true =>
    rcases dead_mem he with hr | hc | rfl
    · exact absurd (hmax _ hr (Or.inl ⟨t, rfl⟩)) hle.not_gt
    · exact absurd (hmax _ hc (Or.inr ⟨t, rfl⟩)) hle.not_gt
    · exact absurd (h.add k a ha) hle.not_gt

/-! ### One key looks only at what concerns it -/

omit [LinearOrder U] [Zero U] in
/-- The operation names `k` or is a clear. -/
def concerns (k : Key) : Op Key U → Bool
  | .add k' _ | .remove k' _ => decide (k' = k)
  | .clear _ => true

omit [LinearOrder U] [Zero U] in
theorem concerns_of_names {k' : Key} {o : Op Key U} (h : Names k' o) :
    concerns k o = decide (k' = k) := by
  rcases h with ⟨s, rfl⟩ | ⟨s, rfl⟩ <;> rfl

omit [Zero U] in
/-- The two containers are the same as far as `k` is concerned. -/
def SameAt (k : Key) (x y : Cells Key U) : Prop :=
  x.clearTime = y.clearTime ∧ x.cell k = y.cell k

section SameAt

omit [Zero U]

variable {x y : Cells Key U} {a o : Op Key U} {l : List (Op Key U)}

theorem SameAt.step (h : SameAt k x y) (o : Op Key U) : SameAt k (x.apply o).1 (y.apply o).1 := by
  refine ⟨?_, ?_⟩
  · rw [apply_clearTime, apply_clearTime, h.1]
  · rw [apply_cell, apply_cell, h.1, h.2]

theorem sameAt_of_not_concerns (x : Cells Key U) (ho : ¬ concerns k o = true) :
    SameAt k (x.apply o).1 x := by
  cases o with
  | clear s => exact absurd rfl ho
  | add k' s =>
    have hk : k ≠ k' := fun he => ho (decide_eq_true he.symm)
    exact ⟨rfl, add_cell_of_ne x hk s⟩
  | remove k' s =>
    have hk : k ≠ k' := fun he => ho (decide_eq_true he.symm)
    exact ⟨rfl, remove_cell_of_ne x hk s⟩

theorem sameAt_again (x : Cells Key U) (a : Op Key U) (k : Key) :
    SameAt k ((x.apply a).1.apply a).1 (x.apply a).1 := by
  cases a with
  | add k' s => exact ⟨rfl, congrArg (fun y => Cells.cell y k) (add_add_self x k' s)⟩
  | remove k' s => exact ⟨rfl, congrArg (fun y => Cells.cell y k) (remove_remove_self x k' s)⟩
  | clear s => exact ⟨max_eq_left (le_max_right _ _), clearCell_of_le (le_max_right _ _) _⟩

variable [Zero U]

theorem SameAt.foldl (h : SameAt k x y) (l : List (Op Key U)) :
    SameAt k (l.foldl (machine Key U).step x) (l.foldl (machine Key U).step y) := by
  induction l generalizing x y with
  | nil => exact h
  | cons o l ih => exact ih (h.step o)

theorem sameAt_foldl_again (hl : ∀ b ∈ l, concerns k b = true → b = a) :
    SameAt k (l.foldl (machine Key U).step (x.apply a).1) (x.apply a).1 := by
  induction l with
  | nil => exact ⟨rfl, rfl⟩
  | cons b l ih =>
    have hb : SameAt k ((x.apply a).1.apply b).1 (x.apply a).1 := by
      by_cases hk : concerns k b = true
      · rw [hl b (by simp) hk]
        exact sameAt_again x a k
      · exact sameAt_of_not_concerns _ hk
    have hrest := ih fun b' hb' => hl b' (List.mem_cons_of_mem b hb')
    have htail := hb.foldl l
    exact ⟨htail.1.trans hrest.1, htail.2.trans hrest.2⟩

/-- A list that tells `k` nothing but `a`, perhaps several times, is `a` for `k`. -/
theorem sameAt_foldl (ha : a ∈ l) (hk : concerns k a = true)
    (hl : ∀ b ∈ l, concerns k b = true → b = a) :
    SameAt k (l.foldl (machine Key U).step x) (x.apply a).1 := by
  induction l generalizing x with
  | nil => cases ha
  | cons b l ih =>
    have hrest : ∀ b' ∈ l, concerns k b' = true → b' = a := fun b' hb' =>
      hl b' (List.mem_cons_of_mem b hb')
    by_cases hb : concerns k b = true
    · obtain rfl := hl b (by simp) hb
      exact sameAt_foldl_again hrest
    · have hal : a ∈ l := (List.mem_cons.mp ha).resolve_left fun he => hb (he ▸ hk)
      have hx := ih (x := (x.apply b).1) hal hrest
      have hskip := (sameAt_of_not_concerns x hb).step a
      exact ⟨hx.1.trans hskip.1, hx.2.trans hskip.2⟩

end SameAt

/-- A run looks the same to a key as the run of the operations that concern it. -/
theorem run_concerns (k : Key) (d : List (Op Key U)) :
    SameAt k ((machine Key U).run (d.filter (concerns k))) ((machine Key U).run d) := by
  induction d using List.reverseRecOn with
  | nil => exact ⟨rfl, rfl⟩
  | append_singleton d o ih =>
    rw [List.filter_append, Machine.run_concat]
    by_cases ho : concerns k o = true
    · rw [List.filter_cons_of_pos ho, List.filter_nil, Machine.run_concat]
      exact ih.step o
    · have hskip := sameAt_of_not_concerns ((machine Key U).run d) ho
      rw [List.filter_cons_of_neg ho, List.filter_nil, List.append_nil]
      exact ⟨ih.1.trans hskip.1.symm, ih.2.trans hskip.2.symm⟩

/-! ### Schedules for one key -/

/-- The newest clear of the collection, if there is one. -/
def LastClear (ops cs : List (Op Key U)) : Prop :=
  cs = [] ∧ WithoutClears ops ∨
    ∃ c, cs = [.clear c] ∧ Newest Op.stamp (fun o => ∃ s, o = .clear s) ops (.clear c)

omit [DecidableEq Key] [Zero U] in
theorem exists_lastClear (ops : List (Op Key U)) : ∃ cs, LastClear ops cs := by
  by_cases hc : ∃ o ∈ ops, ∃ s, o = .clear s
  · obtain ⟨_, ho, ⟨c, rfl⟩, hmax⟩ := exists_newest Op.stamp hc
    exact ⟨_, Or.inr ⟨c, rfl, ho, ⟨c, rfl⟩, hmax⟩⟩
  · exact ⟨[], Or.inl ⟨rfl, fun s hs => hc ⟨_, hs, s, rfl⟩⟩⟩

omit [DecidableEq Key] [Zero U] in
theorem LastClear.mem {cs : List (Op Key U)} (h : LastClear ops cs) : ∀ o ∈ cs, o ∈ ops := by
  rcases h with ⟨rfl, -⟩ | ⟨c, rfl, hc, -⟩
  · simp
  · simpa using hc

/-- With `A` before the clears `cs` and `B` after them, `k` ends visible or hidden, as `v` says. -/
structure Plan (ops cs : List (Op Key U)) (k : Key) (v : Prop) (A B : List (Op Key U)) : Prop where
  mem : ∀ o ∈ A ++ B, o ∈ ops ∧ Names k o
  decides : ∀ q, (∀ o ∈ q, o ∈ ops) →
    (live (((machine Key U).run (A ++ cs ++ B ++ q)).cell k) = true ↔ v)

theorem run_add_of_pos {s : U} (hs : 0 < s) :
    ((machine Key U).run [.add k s]).cell k = some ⟨s, false⟩ :=
  (add_cell_self _ k s).trans (congrArg some (addCell_of_applies (addApplies_none.mpr hs)))

theorem run_remove (k : Key) (s : U) : ((machine Key U).run [.remove k s]).cell k = some ⟨s, true⟩ :=
  remove_cell_self _ k s

/-- **Add first, or clear, remove and add**: the key stays visible. -/
theorem exists_plan_live {cs : List (Op Key U)} (h : Positive ops) (hcs : LastClear ops cs)
    (hk : MayShow ops k) : ∃ A B, Plan ops cs k True A B := by
  obtain ⟨s, ⟨ha, hname, hmax⟩, hor⟩ := hk
  by_cases hle : ∀ c, .clear c ∈ ops → c ≤ s
  · refine ⟨[.add k s], [], by simpa using ⟨ha, hname⟩, fun q hq => iff_of_true ?_ trivial⟩
    have hrest : ∀ o ∈ cs ++ [] ++ q, o ∈ ops := by
      simp only [List.append_nil, List.mem_append]
      exact fun o ho => ho.elim (hcs.mem o) (hq o)
    rw [List.append_assoc, List.append_assoc, ← List.append_assoc cs]
    exact live_iff.mpr ⟨s, stays (run_add_of_pos (h.add k s ha))
      (fun o ho hn => hmax o (hrest o ho) hn) fun c hc => Or.inr (hle c (hrest _ hc))⟩
  · obtain ⟨r, hr, hrs⟩ := hor.resolve_left hle
    rcases hcs with ⟨-, hno⟩ | ⟨c, rfl, hc⟩
    · exact absurd (fun c hc => absurd hc (hno c)) hle
    · refine ⟨[], [.remove k r, .add k s], ?_, fun q hq => iff_of_true ?_ trivial⟩
      · simpa using ⟨⟨hr, Or.inr ⟨r, rfl⟩⟩, ha, hname⟩
      have hstart : ((machine Key U).run [.clear c, .remove k r, .add k s]).cell k =
          some ⟨s, false⟩ := by
        show ((((init Key U).clear c).remove k r).add k s).cell k = _
        rw [add_cell_self, remove_cell_self, clear_cell]
        show some (addCell _ s (some (removeCell r (clearCell 0 c none)))) = _
        rw [clearCell_none, removeCell, addCell_of_applies (addApplies_some.mpr hrs)]
      have hct : c ≤ ((machine Key U).run [.clear c, .remove k r, .add k s]).clearTime :=
        clear_le (by simp)
      refine live_iff.mpr ⟨s, stays hstart (fun o ho hn => hmax o (hq o ho) hn) fun c' hc' => ?_⟩
      exact Or.inl ((hc.2.2 _ (hq _ hc') ⟨c', rfl⟩).trans hct)

/-- **Remove first, or clear before the addition**: the key stays hidden, unless its last writer is an
`add`. -/
theorem exists_plan_dead {cs : List (Op Key U)} (h : Positive ops) (hcs : LastClear ops cs)
    (hw : ¬ LastWins Op.stamp (Adds k) (Kills k) ops) : ∃ A B, Plan ops cs k False A B := by
  by_cases hadd : ∃ o ∈ ops, Adds k o
  swap
  · refine ⟨[], [], by simp, fun q hq => iff_of_false (fun hl => ?_) not_false⟩
    obtain ⟨t, ht⟩ := live_iff.mp hl
    have hmem : .add k t ∈ cs ++ q := by simpa using live_mem ht
    exact hadd ⟨_, (List.mem_append.mp hmem).elim (hcs.mem _) (hq _), t, rfl⟩
  obtain ⟨_, hA⟩ := exists_newest Op.stamp hadd
  obtain ⟨ha, ⟨a, rfl⟩, hmax⟩ := id hA
  rw [lastWins_iff_newest hA] at hw
  push Not at hw
  obtain ⟨b, hb, ⟨r, rfl⟩ | ⟨c, rfl⟩, hle⟩ := hw
  · refine ⟨[.remove k r], [], ?_, fun q hq => iff_of_false ?_ not_false⟩
    · simpa using ⟨hb, Or.inr ⟨r, rfl⟩⟩
    rw [List.append_assoc, List.append_assoc, ← List.append_assoc cs]
    refine stays_hidden (run_remove k r) fun s hs => ?_
    have hmem : .add k s ∈ cs ++ q := by simpa using hs
    have hsa : s ≤ a := hmax _ ((List.mem_append.mp hmem).elim (hcs.mem _) (hq _)) ⟨s, rfl⟩
    exact hsa.trans hle
  · rcases hcs with ⟨-, hno⟩ | ⟨c', rfl, hc'⟩
    · exact absurd hb (hno c)
    have hac : a ≤ c' := hle.trans (hc'.2.2 _ hb ⟨c, rfl⟩)
    refine ⟨[], [.add k a], by simpa using ⟨ha, Or.inl ⟨a, rfl⟩⟩,
      fun q hq => iff_of_false ?_ not_false⟩
    have hstart : ((machine Key U).run [.clear c', .add k a]).cell k = some ⟨c', true⟩ := by
      have hct : ((init Key U).clear c').clearTime = c' := max_eq_right (h.nonneg _ hc'.1)
      show (((init Key U).clear c').add k a).cell k = _
      rw [add_cell_self, clear_cell, hct]
      show some (addCell c' a (clearCell 0 c' none)) = _
      rw [clearCell_none, addCell_none_of_le hac]
    exact stays_hidden hstart fun s hs => (hmax _ (hq _ hs) ⟨s, rfl⟩).trans hac

theorem Plan.concerns_of_mem {cs A B : List (Op Key U)} {v : Prop} (hcs : LastClear ops cs)
    (hAB : Plan ops cs k v A B) : ∀ o ∈ A ++ cs ++ B, o ∈ ops ∧ concerns k o = true := by
  have hname : ∀ o ∈ A ++ B, o ∈ ops ∧ concerns k o = true := fun o ho =>
    ⟨(hAB.mem o ho).1, (concerns_of_names (hAB.mem o ho).2).trans (decide_eq_true rfl)⟩
  intro o ho
  rcases List.mem_append.mp ho with ho | ho
  · rcases List.mem_append.mp ho with ho | ho
    · exact hname o (List.mem_append_left _ ho)
    · refine ⟨hcs.mem o ho, ?_⟩
      rcases hcs with ⟨rfl, -⟩ | ⟨c, rfl, -⟩
      · cases ho
      · rw [List.mem_singleton.mp ho]
        rfl
  · exact hname o (List.mem_append_right _ ho)

theorem exists_schedule_live (h : Positive ops) (hk : MayShow ops k) :
    ∃ p, (∀ o ∈ p, o ∈ ops ∧ concerns k o = true) ∧
      live (((machine Key U).run (p ++ ops)).cell k) = true := by
  obtain ⟨cs, hcs⟩ := exists_lastClear ops
  obtain ⟨A, B, hAB⟩ := exists_plan_live h hcs hk
  exact ⟨_, hAB.concerns_of_mem hcs, (hAB.decides ops fun _ => id).mpr trivial⟩

theorem exists_schedule_dead (h : Positive ops)
    (hw : ¬ LastWins Op.stamp (Adds k) (Kills k) ops) :
    ∃ p, (∀ o ∈ p, o ∈ ops ∧ concerns k o = true) ∧
      ¬ live (((machine Key U).run (p ++ ops)).cell k) = true := by
  obtain ⟨cs, hcs⟩ := exists_lastClear ops
  obtain ⟨A, B, hAB⟩ := exists_plan_dead h hcs hw
  exact ⟨_, hAB.concerns_of_mem hcs, (hAB.decides ops fun _ => id).mp⟩

/-! ### Schedules for all keys -/

omit [LinearOrder U] [Zero U] in
theorem filter_flatMap {L : List Key} (hL : L.Nodup) (hk : k ∈ L) {A : Key → List (Op Key U)}
    (hA : ∀ j, ∀ o ∈ A j, Names j o) : (L.flatMap A).filter (concerns k) = A k := by
  have hother : ∀ L' : List Key, k ∉ L' → (L'.flatMap A).filter (concerns k) = [] := by
    intro L' hk'
    refine List.filter_eq_nil_iff.mpr fun o ho => ?_
    obtain ⟨j, hj, hmem⟩ := List.mem_flatMap.mp ho
    rw [concerns_of_names (hA j o hmem), decide_eq_true_eq]
    rintro rfl
    exact hk' hj
  have hself : (A k).filter (concerns k) = A k := List.filter_eq_self.mpr fun o ho =>
    (concerns_of_names (hA k o ho)).trans (decide_eq_true rfl)
  obtain ⟨L₁, L₂, rfl⟩ := List.append_of_mem hk
  obtain ⟨-, h₂, hdisj⟩ := List.nodup_append.mp hL
  have hk₁ : k ∉ L₁ := fun hmem => hdisj k hmem k List.mem_cons_self rfl
  rw [List.flatMap_append, List.flatMap_cons, List.filter_append, List.filter_append,
    hother L₁ hk₁, hself, hother L₂ (List.nodup_cons.mp h₂).1, List.nil_append, List.append_nil]

omit [LinearOrder U] [Zero U] in
theorem exists_added (ops : List (Op Key U)) :
    ∃ L : List Key, L.Nodup ∧ ∀ k, k ∈ L ↔ ∃ o ∈ ops, Adds k o := by
  let key : Op Key U → Option Key
    | .add k _ => some k
    | _ => none
  refine ⟨(ops.filterMap key).dedup, List.nodup_dedup _, fun k => ?_⟩
  rw [List.mem_dedup, List.mem_filterMap]
  refine exists_congr fun o => and_congr_right fun _ => ?_
  cases o <;> simp [key, Adds]

/-- **The sets of visible keys that deliveries end in** are those between the last writers and the keys
that may show. -/
theorem exists_delivery_iff (h : Positive ops) (V : Set Key) :
    (∃ d, Machine.Delivers ops d ∧ ∀ k, live (((machine Key U).run d).cell k) = true ↔ k ∈ V) ↔
      (∀ k, LastWins Op.stamp (Adds k) (Kills k) ops → k ∈ V) ∧ ∀ k ∈ V, MayShow ops k := by
  constructor
  · rintro ⟨d, hd, hV⟩
    refine ⟨fun k hw => (hV k).mp ?_, fun k hk => ?_⟩
    · exact live_of_lastWriter (h.of_delivers hd) ((LastWins.congr hd).mpr hw)
    · exact (MayShow.congr hd k).mp (mayShow_of_live ((hV k).mpr hk))
  · rintro ⟨hlow, hhigh⟩
    obtain ⟨cs, hcs⟩ := exists_lastClear ops
    have hplan : ∀ k, ∃ A B, Plan ops cs k (k ∈ V) A B := by
      intro k
      by_cases hk : k ∈ V
      · simpa [hk] using exists_plan_live h hcs (hhigh k hk)
      · simpa [hk] using exists_plan_dead h hcs (mt (hlow k) hk)
    choose A B hAB using hplan
    obtain ⟨L, hL, hadded⟩ := exists_added ops
    have hA : ∀ k, ∀ o ∈ A k, o ∈ ops ∧ Names k o := fun k o ho =>
      (hAB k).mem o (List.mem_append_left _ ho)
    have hB : ∀ k, ∀ o ∈ B k, o ∈ ops ∧ Names k o := fun k o ho =>
      (hAB k).mem o (List.mem_append_right _ ho)
    have hmem : ∀ o ∈ L.flatMap A ++ cs ++ L.flatMap B, o ∈ ops := by
      intro o ho
      simp only [List.mem_append, List.mem_flatMap] at ho
      rcases ho with (⟨k, -, ho⟩ | ho) | ⟨k, -, ho⟩
      · exact (hA k o ho).1
      · exact hcs.mem o ho
      · exact (hB k o ho).1
    refine ⟨_, Machine.delivers_append hmem, fun k => ?_⟩
    by_cases hk : k ∈ L
    · have hclear : cs.filter (concerns k) = cs := by
        rcases hcs with ⟨rfl, -⟩ | ⟨c, rfl, -⟩ <;> rfl
      rw [← (run_concerns k _).2, List.filter_append, List.filter_append, List.filter_append,
        filter_flatMap hL hk fun j o ho => (hA j o ho).2, hclear,
        filter_flatMap hL hk fun j o ho => (hB j o ho).2]
      exact (hAB k).decides _ fun o ho => (List.mem_filter.mp ho).1
    · -- a key that nobody adds
      have hno : ¬ ∃ o ∈ ops, Adds k o := mt (hadded k).mpr hk
      refine iff_of_false (fun hl => hno ?_) fun hV => hno ?_
      · obtain ⟨t, ht⟩ := live_iff.mp hl
        exact ⟨_, (Machine.delivers_append hmem _).mp (live_mem ht), t, rfl⟩
      · obtain ⟨s, ⟨hs, -⟩, -⟩ := hhigh k hV
        exact ⟨_, hs, s, rfl⟩

theorem exists_live_and_dead (h : Positive ops) (hk : MayShow ops k)
    (hw : ¬ LastWins Op.stamp (Adds k) (Kills k) ops) :
    ∃ d d', Machine.Delivers ops d ∧ Machine.Delivers ops d' ∧
      live (((machine Key U).run d).cell k) = true ∧
      ¬ live (((machine Key U).run d').cell k) = true := by
  obtain ⟨p, hp, hl⟩ := exists_schedule_live h hk
  obtain ⟨p', hp', hdead⟩ := exists_schedule_dead h hw
  exact ⟨_, _, Machine.delivers_append fun o ho => (hp o ho).1,
    Machine.delivers_append fun o ho => (hp' o ho).1, hl, hdead⟩

theorem lastWriters_of_delivers (h : Positive ops)
    (hno : ∀ k, MayShow ops k → LastWins Op.stamp (Adds k) (Kills k) ops) (d : List (Op Key U))
    (hd : Machine.Delivers ops d) (k : Key) : live (((machine Key U).run d).cell k) = true ↔
      LastWins Op.stamp (Adds k) (Kills k) ops := by
  obtain ⟨hlow, hhigh⟩ := (exists_delivery_iff h
    {j | live (((machine Key U).run d).cell j) = true}).mp ⟨d, hd, fun _ => Iff.rfl⟩
  exact ⟨fun hl => hno k (hhigh k hl), hlow k⟩

/-- **All deliveries show the same keys** exactly when every key that may show was added last. -/
theorem same_visible_iff (h : Positive ops) :
    (∀ d d', Machine.Delivers ops d → Machine.Delivers ops d' → ∀ k,
      live (((machine Key U).run d).cell k) = live (((machine Key U).run d').cell k)) ↔
      ∀ k, MayShow ops k → LastWins Op.stamp (Adds k) (Kills k) ops := by
  constructor
  · intro hc k hk
    by_contra hw
    obtain ⟨d, d', hd, hd', hl, hdead⟩ := exists_live_and_dead h hk hw
    exact hdead ((hc d d' hd hd' k).symm.trans hl)
  · intro hno d d' hd hd' k
    have hlast := lastWriters_of_delivers h hno
    exact Bool.eq_iff_iff.mpr ((hlast d hd k).trans (hlast d' hd' k).symm)

theorem same_visible_iff_lastWriters (h : Positive ops) :
    (∀ d d', Machine.Delivers ops d → Machine.Delivers ops d' → ∀ k,
      live (((machine Key U).run d).cell k) = live (((machine Key U).run d').cell k)) ↔
      ∀ d, Machine.Delivers ops d → ∀ k, live (((machine Key U).run d).cell k) = true ↔
        LastWins Op.stamp (Adds k) (Kills k) ops := by
  refine ⟨fun hc => lastWriters_of_delivers h ((same_visible_iff h).mp hc), fun hlast => ?_⟩
  intro d d' hd hd' k
  exact Bool.eq_iff_iff.mpr ((hlast d hd k).trans (hlast d' hd' k).symm)

/-! ### Operations that translate into modifiers -/

section Translated

variable {ω : Type*} {tr : ω → List (Op Key U)} {ops' : List ω}

omit [LinearOrder U] [Zero U] in
/-- The list tells `k` at most one thing, perhaps several times. -/
def SaysOnce (k : Key) (l : List (Op Key U)) : Prop :=
  ∀ a ∈ l, ∀ b ∈ l, concerns k a = true → concerns k b = true → b = a

/-- For one key, a schedule of modifiers is one of operations that translate into them. -/
theorem exists_lift (honce : ∀ o ∈ ops', SaysOnce k (tr o)) {l : List (Op Key U)}
    (hl : ∀ a ∈ l, a ∈ ops'.flatMap tr ∧ concerns k a = true) :
    ∃ d : List ω, (∀ o ∈ d, o ∈ ops') ∧
      SameAt k ((machine Key U).run (d.flatMap tr)) ((machine Key U).run l) := by
  induction l using List.reverseRecOn with
  | nil => exact ⟨[], by simp, rfl, rfl⟩
  | append_singleton l a ih =>
    obtain ⟨d, hd, hsame⟩ := ih fun b hb => hl b (List.mem_append_left _ hb)
    obtain ⟨hmem, hk⟩ := hl a (by simp)
    obtain ⟨o, ho, ha⟩ := List.mem_flatMap.mp hmem
    refine ⟨d ++ [o], ?_, ?_⟩
    · intro o' ho'
      rcases List.mem_append.mp ho' with h | h
      · exact hd o' h
      · exact (List.mem_singleton.mp h) ▸ ho
    · -- the whole translation of `o` is no more than `a` for `k`
      have hone := sameAt_foldl (x := (machine Key U).run (d.flatMap tr)) ha hk
        fun b hb => honce o ho a ha b hb hk
      have hstep := hsame.step a
      rw [List.flatMap_append, List.flatMap_cons, List.flatMap_nil, List.append_nil,
        Machine.run_concat, Machine.run, List.foldl_append]
      exact ⟨hone.1.trans hstep.1, hone.2.trans hstep.2⟩

/-- **A delivery of operations that translate** may start, for one key, with any schedule of their
modifiers. -/
theorem exists_delivery_translated (honce : ∀ o ∈ ops', SaysOnce k (tr o)) {l : List (Op Key U)}
    (hl : ∀ a ∈ l, a ∈ ops'.flatMap tr ∧ concerns k a = true) :
    ∃ d, Machine.Delivers ops' d ∧ ((machine Key U).run (d.flatMap tr)).cell k =
      ((machine Key U).run (l ++ ops'.flatMap tr)).cell k := by
  obtain ⟨d, hd, hsame⟩ := exists_lift honce hl
  refine ⟨d ++ ops', Machine.delivers_append hd, ?_⟩
  rw [List.flatMap_append, Machine.run, Machine.run, List.foldl_append, List.foldl_append]
  exact (hsame.foldl (ops'.flatMap tr)).2

end Translated

end Cells

end CollabDatatypes.Container
