import CollabDatatypes.Lib.Independence
import CollabDatatypes.Container.Results
import CollabDatatypes.Container.Reference

/-! # The order in which a container receives its operations

Two questions about two modifiers that reach a container one after the other. When does their order
matter? `ConflictAt` is the table of the answers: on a key with an entry only an equal stamp does
harm, on a key without one the stamp of a tombstone is that of the last clear or that of a `remove`,
whichever came first (`containers_commute_iff`). And what of a whole run may be reordered without
looking at states? Modifiers of different keys; only a clear has to stay in its place
(`containers_same_order`). -/

namespace CollabDatatypes.Container

open CollabDatatypes.Lib CollabDatatypes.CmRDT

variable {Key T U : Type*}

/-! ### Two modifiers and one entry -/

section Cell

variable [LinearOrder U]

theorem addCell_comm (c s s' : U) (x : Option (Metadata U)) :
    addCell c s' (some (addCell c s x)) = addCell c s (some (addCell c s' x)) := by
  cases x <;> grind [addCell, write]

theorem removeCell_comm (s s' : U) (x : Option (Metadata U)) :
    removeCell s' (some (removeCell s x)) = removeCell s (some (removeCell s' x)) := by
  cases x <;> grind [removeCell, write]

theorem clearCell_comm (c s s' : U) (x : Option (Metadata U)) :
    clearCell (max c s) s' (clearCell c s x) = clearCell (max c s') s (clearCell c s' x) := by
  cases x <;> grind [clearCell, write]

theorem add_remove_comm_iff {c s r : U} {x : Option (Metadata U)} :
    removeCell r (some (addCell c s x)) = addCell c s (some (removeCell r x)) ↔
      ¬ (s = r ∧ AddApplies c s x ∨ x = none ∧ s ≤ c ∧ r < c) := by
  cases x <;> grind [addCell, removeCell, write, AddApplies]

theorem add_clear_comm_iff {c s t : U} {x : Option (Metadata U)} :
    clearCell c t (some (addCell c s x)) = some (addCell (max c t) s (clearCell c t x)) ↔
      ¬ (s = t ∧ c < t ∧ AddApplies c s x) := by
  cases x <;> grind [addCell, clearCell, write, AddApplies]

theorem remove_clear_comm_iff {c r t : U} {x : Option (Metadata U)} :
    clearCell c t (some (removeCell r x)) = some (removeCell r (clearCell c t x)) ↔
      ¬ (x = none ∧ c < t ∧ r < t) := by
  cases x <;> grind [removeCell, clearCell, write]

end Cell

section Order

variable [LinearOrder U]

/-- The order of the two modifiers matters for `k`, which has the entry `x` when the last clear was
at `c`. -/
def ConflictAt (k : Key) (c : U) (x : Option (Metadata U)) : Op Key U → Op Key U → Prop
  | .add k₁ s, .remove k₂ r =>
    k = k₁ ∧ k = k₂ ∧ (s = r ∧ AddApplies c s x ∨ x = none ∧ s ≤ c ∧ r < c)
  | .add k₁ s, .clear t => k = k₁ ∧ s = t ∧ c < t ∧ AddApplies c s x
  | .remove k₁ r, .clear t => k = k₁ ∧ x = none ∧ c < t ∧ r < t
  | _, _ => False

variable [DecidableEq Key]

omit [DecidableEq Key] in
theorem clearTimeStep_comm (c : U) (a b : Op Key U) :
    clearTimeStep (clearTimeStep c a) b = clearTimeStep (clearTimeStep c b) a := by
  cases a <;> cases b <;> simp only [clearTimeStep, max_right_comm]

section Pairs

variable {k k₁ k₂ : Key} {c s r t : U} {x : Option (Metadata U)}

/-- The modifiers `a` and `b` leave the same entry in both orders. -/
def CommuteAt (k : Key) (c : U) (x : Option (Metadata U)) (a b : Op Key U) : Prop :=
  cellStep k (clearTimeStep c a) (cellStep k c x a) b =
    cellStep k (clearTimeStep c b) (cellStep k c x b) a

theorem CommuteAt.comm {a b : Op Key U} : CommuteAt k c x a b ↔ CommuteAt k c x b a := eq_comm

theorem commuteAt_add_remove : CommuteAt k c x (.add k₁ s) (.remove k₂ r) ↔
    ¬ ConflictAt k c x (.add k₁ s) (.remove k₂ r) := by
  have h := add_remove_comm_iff (c := c) (s := s) (r := r) (x := x)
  rcases eq_or_ne k k₁ with rfl | h1
  · rcases eq_or_ne k k₂ with rfl | h2
    · simpa [CommuteAt, cellStep, clearTimeStep, ConflictAt] using h
    · simp [CommuteAt, cellStep, clearTimeStep, ConflictAt, h2]
  · simp [CommuteAt, cellStep, ConflictAt, h1]

theorem commuteAt_add_clear : CommuteAt k c x (.add k₁ s) (.clear t) ↔
    ¬ ConflictAt k c x (.add k₁ s) (.clear t) := by
  have h := add_clear_comm_iff (c := c) (s := s) (t := t) (x := x)
  rcases eq_or_ne k k₁ with rfl | h1
  · simpa [CommuteAt, cellStep, clearTimeStep, ConflictAt] using h
  · simp [CommuteAt, cellStep, clearTimeStep, ConflictAt, h1]

theorem commuteAt_remove_clear : CommuteAt k c x (.remove k₁ r) (.clear t) ↔
    ¬ ConflictAt k c x (.remove k₁ r) (.clear t) := by
  have h := remove_clear_comm_iff (c := c) (r := r) (t := t) (x := x)
  rcases eq_or_ne k k₁ with rfl | h1
  · simpa [CommuteAt, cellStep, clearTimeStep, ConflictAt] using h
  · simp [CommuteAt, cellStep, clearTimeStep, ConflictAt, h1]

theorem commuteAt_add_add {s' : U} : CommuteAt k c x (.add k₁ s) (.add k₂ s') := by
  have h := addCell_comm c s s' x
  rcases eq_or_ne k k₁ with rfl | h1
  · rcases eq_or_ne k k₂ with rfl | h2
    · simpa [CommuteAt, cellStep, clearTimeStep] using h
    · simp [CommuteAt, cellStep, clearTimeStep, h2]
  · simp [CommuteAt, cellStep, clearTimeStep, h1]

theorem commuteAt_remove_remove {r' : U} : CommuteAt k c x (.remove k₁ r) (.remove k₂ r') := by
  have h := removeCell_comm r r' x
  rcases eq_or_ne k k₁ with rfl | h1
  · rcases eq_or_ne k k₂ with rfl | h2
    · simpa [CommuteAt, cellStep, clearTimeStep] using h
    · simp [CommuteAt, cellStep, h2]
  · simp [CommuteAt, cellStep, h1]

theorem commuteAt_iff {a b : Op Key U} :
    CommuteAt k c x a b ↔ ¬ (ConflictAt k c x a b ∨ ConflictAt k c x b a) := by
  cases a with
  | add k₁ s =>
    cases b with
    | add k₂ s' => simpa [ConflictAt] using commuteAt_add_add
    | remove k₂ r => simpa [ConflictAt] using commuteAt_add_remove
    | clear t => simpa [ConflictAt] using commuteAt_add_clear
  | remove k₁ r =>
    cases b with
    | add k₂ s => simpa [ConflictAt] using CommuteAt.comm.trans commuteAt_add_remove
    | remove k₂ r' => simpa [ConflictAt] using commuteAt_remove_remove
    | clear t => simpa [ConflictAt] using commuteAt_remove_clear
  | clear t =>
    cases b with
    | add k₁ s => simpa [ConflictAt] using CommuteAt.comm.trans commuteAt_add_clear
    | remove k₁ r => simpa [ConflictAt] using CommuteAt.comm.trans commuteAt_remove_clear
    | clear t' =>
      have h : CommuteAt k c x (.clear t) (.clear t') := clearCell_comm c t t' x
      simpa [ConflictAt] using h

end Pairs

theorem Cells.apply_comm_iff (x : Cells Key U) (a b : Op Key U) :
    ((x.apply a).1.apply b).1 = ((x.apply b).1.apply a).1 ↔
      ∀ k, ¬ (ConflictAt k x.clearTime (x.cell k) a b ∨ ConflictAt k x.clearTime (x.cell k) b a) := by
  have hcell : ∀ k, ((x.apply a).1.apply b).1.cell k = ((x.apply b).1.apply a).1.cell k ↔
      CommuteAt k x.clearTime (x.cell k) a b := by
    intro k
    rw [apply_cell, apply_cell, apply_cell, apply_cell, apply_clearTime, apply_clearTime]
    exact Iff.rfl
  constructor
  · intro h k
    exact commuteAt_iff.mp ((hcell k).mp (by rw [h]))
  · intro h
    refine Cells.ext ?_ (funext fun k => (hcell k).mpr (commuteAt_iff.mpr (h k)))
    rw [apply_clearTime, apply_clearTime, apply_clearTime, apply_clearTime]
    exact clearTimeStep_comm _ a b

/-! ### Runs -/

/-- The resources of a modifier: the key it names; a clear takes all keys and `none`. -/
def takes : Op Key U → Option Key → Bool
  | .add k _, i => decide (i = some k)
  | .remove k _, i => decide (i = some k)
  | .clear _, _ => true

omit [LinearOrder U] in
theorem takes_nonempty (o : Op Key U) : ∃ i, takes o i = true := by
  cases o with
  | add k s => exact ⟨some k, by simp [takes]⟩
  | remove k s => exact ⟨some k, by simp [takes]⟩
  | clear s => exact ⟨none, rfl⟩

omit [LinearOrder U] in
theorem names_of_apart {a b : Op Key U} (h : UsesApart takes a b) :
    ∃ k k', k ≠ k' ∧ Names k a ∧ Names k' b := by
  have hclear : ∀ s, b ≠ .clear s := by
    rintro s rfl
    obtain ⟨i, hi⟩ := takes_nonempty a
    exact absurd (h i hi) (by simp [takes])
  have hnames : ∀ k, takes a (some k) = true → ∃ k', k ≠ k' ∧ Names k' b := by
    intro k hk
    have hb := h (some k) hk
    cases b with
    | add k' s => exact ⟨k', by simpa [takes] using hb, Or.inl ⟨s, rfl⟩⟩
    | remove k' s => exact ⟨k', by simpa [takes] using hb, Or.inr ⟨s, rfl⟩⟩
    | clear s => exact absurd rfl (hclear s)
  cases a with
  | add k s =>
    obtain ⟨k', hne, hb⟩ := hnames k (by simp [takes])
    exact ⟨k, k', hne, Or.inl ⟨s, rfl⟩, hb⟩
  | remove k s =>
    obtain ⟨k', hne, hb⟩ := hnames k (by simp [takes])
    exact ⟨k, k', hne, Or.inr ⟨s, rfl⟩, hb⟩
  | clear s =>
    obtain ⟨i, hi⟩ := takes_nonempty b
    exact absurd (h i rfl) (by simp [hi])

omit [DecidableEq Key] in
theorem not_conflictAt {k k₁ k₂ : Key} {c : U} {x : Option (Metadata U)}
    {a b : Op Key U} (hne : k₁ ≠ k₂) (ha : Names k₁ a) (hb : Names k₂ b) :
    ¬ ConflictAt k c x a b := by
  rcases ha with ⟨s, rfl⟩ | ⟨s, rfl⟩ <;> rcases hb with ⟨s', rfl⟩ | ⟨s', rfl⟩ <;>
    simp only [ConflictAt, not_false_eq_true]
  rintro ⟨rfl, rfl, -⟩
  exact hne rfl

theorem Cells.result_congr {x y : Cells Key U} {k : Key} {o : Op Key U} (ho : Names k o)
    (hc : x.clearTime = y.clearTime) (hk : x.cell k = y.cell k) :
    (x.apply o).2 = (y.apply o).2 := by
  rcases ho with ⟨s, rfl⟩ | ⟨s, rfl⟩
  · simp only [apply, add_cell_self, hc, hk]
  · simp only [apply, remove_cell_self, hk]

theorem Cells.apply_of_names {x : Cells Key U} {k k' : Key} {o : Op Key U} (ho : Names k' o)
    (hne : k ≠ k') : (x.apply o).1.cell k = x.cell k ∧ (x.apply o).1.clearTime = x.clearTime := by
  rcases ho with ⟨s, rfl⟩ | ⟨s, rfl⟩
  · exact ⟨x.add_cell_of_ne hne s, rfl⟩
  · exact ⟨x.remove_cell_of_ne hne s, rfl⟩

theorem Cells.independent_of_apart {a b : Op Key U} (h : UsesApart takes a b) :
    Independent (apply : Cells Key U → Op Key U → _) a b := by
  obtain ⟨k, k', hne, ha, hb⟩ := names_of_apart h
  intro x
  obtain ⟨hk', hca⟩ := apply_of_names (x := x) ha hne.symm
  obtain ⟨hk, hcb⟩ := apply_of_names (x := x) hb hne
  refine ⟨(x.apply_comm_iff a b).mpr fun i => ?_, result_congr hb hca hk', result_congr ha hcb hk⟩
  exact not_or.mpr ⟨not_conflictAt hne ha hb, not_conflictAt hne.symm hb ha⟩

end Order

/-- The containers store the same elements, counters and clears. -/
def Observer.Same {σ ε : Type*} (O : Observer σ Key ε U) (s s' : σ) : Prop :=
  (∀ k, O.crdtFind s k = O.crdtFind s' k) ∧ O.size s = O.size s' ∧
    O.lastClearTime s = O.lastClearTime s'

end CollabDatatypes.Container

namespace CollabDatatypes.CmRDT

open CollabDatatypes.Lib CollabDatatypes.Container

variable {Key T U : Type*} [DecidableEq Key]

theorem LWWSet.same_iff {s s' : LWWSet Key U} (h : s.Counted) (h' : s'.Counted) :
    (observer Key U).Same s s' ↔ s.cells = s'.cells := by
  constructor
  · rintro ⟨hk, -, hc⟩
    exact Cells.ext hc (funext hk)
  · intro he
    exact ⟨congrFun (congrArg Cells.cell he), size_congr h h' he, congrArg Cells.clearTime he⟩

namespace LWWMap

variable [Inhabited T]

theorem lookup_congr {m m' : LWWMap Key T U} {k : Key} (hk : m.cells.cell k = m'.cells.cell k)
    (hv : (m.valueOf k).getD default = (m'.valueOf k).getD default) :
    m.map.lookup k = m'.map.lookup k := by
  rw [cells_cell, cells_cell] at hk
  unfold valueOf at hv
  cases he : m.map.lookup k with
  | none =>
    cases he' : m'.map.lookup k with
    | none => rfl
    | some e' => simp [he, he'] at hk
  | some e =>
    cases he' : m'.map.lookup k with
    | none => simp [he, he'] at hk
    | some e' =>
      obtain ⟨v, t, b⟩ := e
      obtain ⟨v', t', b'⟩ := e'
      simp [he, he', Element.metadata] at hk hv
      simp [hk, hv]

theorem same_iff {m m' : LWWMap Key T U} (h : m.Counted) (h' : m'.Counted)
    (hv : ∀ k, (m.valueOf k).getD default = (m'.valueOf k).getD default) :
    (observer Key T U).Same m m' ↔ m.cells = m'.cells := by
  constructor
  · rintro ⟨hk, -, hc⟩
    refine Cells.ext hc (funext fun k => ?_)
    rw [cells_cell, cells_cell]
    exact congrArg (Option.map Element.metadata) (hk k)
  · intro he
    exact ⟨fun k => lookup_congr (congrFun (congrArg Cells.cell he) k) (hv k),
      LWWSet.size_congr h h' he, congrArg Cells.clearTime he⟩

end LWWMap

end CollabDatatypes.CmRDT

namespace CollabDatatypes.Container

open CollabDatatypes.Lib CollabDatatypes.CmRDT

variable {Key T U : Type*} [DecidableEq Key] [LinearOrder U] [Zero U] [Inhabited T]

/-- **When two modifiers of a container commute**, in any state a user can reach: when the table
`ConflictAt` says so of every key. Otherwise the container keeps another entry. -/
theorem containers_commute_iff (a b : Op Key U) :
    (∀ d : List (Op Key U), let s := (LWWSet.machine Key U).run d
      (LWWSet.observer Key U).Same ((s.apply a).1.apply b).1 ((s.apply b).1.apply a).1 ↔
        ∀ k, ¬ (ConflictAt k s.lastClearTime (s.crdtFind k) a b ∨
          ConflictAt k s.lastClearTime (s.crdtFind k) b a)) ∧
    ∀ l : List (LWWMap.Access Key T U), let m := (LWWMap.userMachine Key T U).run l
      (LWWMap.observer Key T U).Same ((m.apply a).1.apply b).1 ((m.apply b).1.apply a).1 ↔
        ∀ k, ¬ (ConflictAt k m.lastClearTime ((m.crdtFind k).map Element.metadata) a b ∨
          ConflictAt k m.lastClearTime ((m.crdtFind k).map Element.metadata) b a) := by
  refine ⟨fun d => ?_, fun l => ?_⟩
  · intro s
    have hs : s.Counted := LWWSet.counted_run d
    have happly : ∀ o o', ((s.apply o).1.apply o').1.cells = ((s.cells.apply o).1.apply o').1 := by
      intro o o'
      rw [(LWWSet.cells_apply _ o').1, (LWWSet.cells_apply s o).1]
    refine (LWWSet.same_iff (LWWSet.counted_apply (LWWSet.counted_apply hs a) b)
      (LWWSet.counted_apply (LWWSet.counted_apply hs b) a)).trans ?_
    rw [happly, happly]
    exact s.cells.apply_comm_iff a b
  · intro m
    have hm : m.Counted := LWWMap.counted_userRun l
    have happly : ∀ o o', ((m.apply o).1.apply o').1.cells = ((m.cells.apply o).1.apply o').1 := by
      intro o o'
      rw [(LWWMap.cells_apply _ o').1, (LWWMap.cells_apply m o).1]
    refine (LWWMap.same_iff (LWWMap.counted_apply (LWWMap.counted_apply hm a) b)
      (LWWMap.counted_apply (LWWMap.counted_apply hm b) a) fun k => ?_).trans ?_
    · rw [LWWMap.getD_valueOf_apply, LWWMap.getD_valueOf_apply, LWWMap.getD_valueOf_apply,
        LWWMap.getD_valueOf_apply]
    · rw [happly, happly]
      refine (m.cells.apply_comm_iff a b).trans (forall_congr' fun k => ?_)
      rw [LWWMap.cells_cell]
      exact Iff.rfl

omit [Zero U] in
theorem trace_cells {σ : Type*} {f : σ → Op Key U → σ × Bool} {cells : σ → Cells Key U}
    (hcells : ∀ s o,
      cells (f s o).1 = ((cells s).apply o).1 ∧ (f s o).2 = ((cells s).apply o).2)
    (d : List (Op Key U)) (s : σ) :
    cells (trace f s d).1 = (trace Cells.apply (cells s) d).1 ∧
      (trace f s d).2 = (trace Cells.apply (cells s) d).2 := by
  have hstep : ∀ s x o, cells s = x →
      cells (f s o).1 = (x.apply o).1 ∧ (f s o).2 = (x.apply o).2 := by
    rintro s _ o rfl
    exact hcells s o
  exact trace_eq (R := fun s x => cells s = x) hstep d s _ rfl

/-- **Replicas that received the operations on every key in one order**, and each clear after the
same ones, store the same elements, and every operation returned the same results. -/
theorem containers_same_order {d d' : List (Op Key U)} (h : SameOrder takes d d') :
    ((LWWSet.observer Key U).Same ((LWWSet.machine Key U).run d) ((LWWSet.machine Key U).run d') ∧
      ∀ o, resultsOf o d (trace LWWSet.apply (LWWSet.empty : LWWSet Key U) d).2 =
        resultsOf o d' (trace LWWSet.apply (LWWSet.empty : LWWSet Key U) d').2) ∧
    ((LWWMap.observer Key T U).Same ((LWWMap.machine Key T U).run d)
        ((LWWMap.machine Key T U).run d') ∧
      ∀ o, resultsOf o d (trace LWWMap.apply (LWWMap.empty : LWWMap Key T U) d).2 =
        resultsOf o d' (trace LWWMap.apply (LWWMap.empty : LWWMap Key T U) d').2) := by
  obtain ⟨hstate, hresults⟩ := h.outcome (f := Cells.apply) takes_nonempty
    (fun a b hab => Cells.independent_of_apart hab) (Cells.init Key U)
  have hrun : (Cells.machine Key U).run d = (Cells.machine Key U).run d' :=
    (foldl_eq_trace _ d _).trans (hstate.trans (foldl_eq_trace _ d' _).symm)
  refine ⟨⟨?_, fun o => ?_⟩, ?_, fun o => ?_⟩
  · rw [LWWSet.same_iff (LWWSet.counted_run d) (LWWSet.counted_run d'), LWWSet.cells_run,
      LWWSet.cells_run, hrun]
  · rw [(trace_cells LWWSet.cells_apply d LWWSet.empty).2,
      (trace_cells LWWSet.cells_apply d' LWWSet.empty).2]
    exact hresults o
  · refine (LWWMap.same_iff (LWWMap.counted_run d) (LWWMap.counted_run d') fun k => ?_).mpr ?_
    · rw [LWWMap.getD_valueOf_run, LWWMap.getD_valueOf_run]
    · rw [LWWMap.cells_run, LWWMap.cells_run, hrun]
  · rw [(trace_cells LWWMap.cells_apply d LWWMap.empty).2,
      (trace_cells LWWMap.cells_apply d' LWWMap.empty).2]
    exact hresults o

/-- An `add` and a `remove` of another key change places, before and after a clear. -/
theorem containers_same_order_apart :
    ((LWWSet.observer ℕ ℕ).Same
        ((LWWSet.machine ℕ ℕ).run [.add 0 3, .remove 1 2, .clear 2, .remove 0 1, .add 1 4])
        ((LWWSet.machine ℕ ℕ).run [.remove 1 2, .add 0 3, .clear 2, .add 1 4, .remove 0 1]) ∧
      ∀ o, resultsOf o [Op.add 0 3, .remove 1 2, .clear 2, .remove 0 1, .add 1 4]
          (trace LWWSet.apply (LWWSet.empty : LWWSet ℕ ℕ)
            [.add 0 3, .remove 1 2, .clear 2, .remove 0 1, .add 1 4]).2 =
        resultsOf o [Op.remove 1 2, .add 0 3, .clear 2, .add 1 4, .remove 0 1]
          (trace LWWSet.apply (LWWSet.empty : LWWSet ℕ ℕ)
            [.remove 1 2, .add 0 3, .clear 2, .add 1 4, .remove 0 1]).2) ∧
    ((LWWMap.observer ℕ ℕ ℕ).Same
        ((LWWMap.machine ℕ ℕ ℕ).run [.add 0 3, .remove 1 2, .clear 2, .remove 0 1, .add 1 4])
        ((LWWMap.machine ℕ ℕ ℕ).run [.remove 1 2, .add 0 3, .clear 2, .add 1 4, .remove 0 1]) ∧
      ∀ o, resultsOf o [Op.add 0 3, .remove 1 2, .clear 2, .remove 0 1, .add 1 4]
          (trace LWWMap.apply (LWWMap.empty : LWWMap ℕ ℕ ℕ)
            [.add 0 3, .remove 1 2, .clear 2, .remove 0 1, .add 1 4]).2 =
        resultsOf o [Op.remove 1 2, .add 0 3, .clear 2, .add 1 4, .remove 0 1]
          (trace LWWMap.apply (LWWMap.empty : LWWMap ℕ ℕ ℕ)
            [.remove 1 2, .add 0 3, .clear 2, .add 1 4, .remove 0 1]).2) := by
  refine containers_same_order fun i => ?_
  cases i with
  | none => rfl
  | some k =>
    by_cases h0 : k = 0
    · subst h0
      rfl
    · by_cases h1 : k = 1
      · subst h1
        rfl
      · simp [takes, h0, h1]

end CollabDatatypes.Container
