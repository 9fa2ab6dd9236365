import CollabDatatypes.Graph.Comparison
import CollabDatatypes.Graph.Edges

/-! # When graphs converge

The vertices of two graphs that received the same operations without clears agree
(`View.vertex_congr`), so what is left to compare is the edges, one by one. With a newest `add_edge`
of the stamp `e` there are two ways to disagree: the edge ought to be visible, and a schedule exists
in which it is spoiled (`Loses`); or it ought not to be, and a schedule exists in which it is
resurrected (`Regains`). Both are conditions on the collection alone, and `EdgeDiverges`, which says
that one of them holds, is exact: `graph_convergesOn_iff`. -/

namespace CollabDatatypes.Graph

open CollabDatatypes.Lib CollabDatatypes.CmRDT CollabDatatypes.Container

variable {Key U : Type*} [LinearOrder U] {d ops : List (GraphOp Key U)} {u v : Key} {e : U}

/-- Every removal of the edge and of its endpoints is older than `e`, but an `add_edge` older than a
removal of one endpoint can meet the other endpoint with an addition newer than `e`. For the removal
of the origin, which clears its edges, that takes a `remove_edge` older than this `add_edge`. -/
def Loses (ops : List (GraphOp Key U)) (u v : Key) (e : U) : Prop :=
  (∀ r ∈ ops, EndsEdge u v r → r.stamp < e) ∧
    ∃ k k' a r o, (k = u ∧ k' = v ∨ k = v ∧ k' = u) ∧ .addEdge u v a ∈ ops ∧
      .removeVertex k r ∈ ops ∧ a < r ∧ o ∈ ops ∧ Touches k' o ∧ ¬ Touches k o ∧ e < o.stamp ∧
      (k = u → ∃ c, .removeEdge u v c ∈ ops ∧ c < a)

/-- An endpoint is removed with a stamp newer than `e`, but both endpoints are visible in the end and
every `remove_edge` is older than `e`. When the removed endpoint is the origin, there is one. -/
def Regains (ops : List (GraphOp Key U)) (u v : Key) (e : U) : Prop :=
  (∃ k r, (k = u ∨ k = v) ∧ .removeVertex k r ∈ ops ∧ e < r) ∧
    (∀ k, k = u ∨ k = v →
      LastWins GraphOp.stamp (Touches k) (fun o => ∃ s, o = .removeVertex k s) ops) ∧
    (∀ c, .removeEdge u v c ∈ ops → c < e) ∧
    ((∃ r, .removeVertex u r ∈ ops ∧ e < r) → ∃ c, .removeEdge u v c ∈ ops)

/-- The edge from `u` to `v` can be visible after one delivery of `ops` and not after another. -/
def EdgeDiverges (ops : List (GraphOp Key U)) (u v : Key) : Prop :=
  ∃ e, Newest GraphOp.stamp (AddsEdge u v) ops (.addEdge u v e) ∧
    (Loses ops u v e ∨ Regains ops u v e)

theorem EdgeDiverges.congr (h : Machine.Delivers ops d) (u v : Key) :
    EdgeDiverges d u v ↔ EdgeDiverges ops u v := by
  have hmem : ∀ o, o ∈ d ↔ o ∈ ops := h
  simp only [EdgeDiverges, Newest, Loses, Regains, LastWins, hmem]

namespace View

variable [DecidableEq Key] [Zero U]

/-! ### A disagreement is one of the two -/

theorem loses_of_dead (h : Stamped GraphOp.stamp d) (hn : NoClear d)
    (he : Newest GraphOp.stamp (AddsEdge u v) d (.addEdge u v e))
    (hlast : ∀ r ∈ d, EndsEdge u v r → r.stamp < e)
    (hdead : ¬ live ((((machine Key U).run d).edges u).cell v) = true) : Loses d u v e := by
  by_contra hno
  refine hdead (live_of_not_spoils h hn he hlast ?_)
  rintro p a q rfl ⟨happ, k, k', r, ⟨t, b⟩, hk, hr, har, hk', het⟩
  have hend : k = u ∨ k = v := hk.imp And.left And.left
  have hend' : k' = u ∨ k' = v := hk.elim (fun h => Or.inr h.2) fun h => Or.inl h.2
  have ha : .addEdge u v a ∈ p ++ .addEdge u v a :: q := by simp
  have h0a : (0 : U) < a := h.pos _ ha
  have h0t : (0 : U) < t := (h.pos _ he.1).trans het
  have hrem := removeVertex_of_dead hn.of_append hr (h0a.trans har).ne'
  have hre : r < e := removal_lt hlast hend (List.mem_append_left _ hrem)
  obtain rfl : b = false := by
    by_contra hb
    rw [Bool.not_eq_false] at hb
    subst hb
    have hrem' := removeVertex_of_dead hn.of_append hk' h0t.ne'
    exact absurd (removal_lt hlast hend' (List.mem_append_left _ hrem')) het.not_gt
  obtain ⟨o, ho, htouch, rfl⟩ := vertex_live hk'
  refine hno ⟨hlast, k, k', a, r, o, hk, ha, List.mem_append_left _ hrem, har,
    List.mem_append_left _ ho, htouch, fun htk => ?_, het, ?_⟩
  · obtain ⟨m, hm, hle⟩ := vertex_le ho (Or.inl htk)
    obtain rfl := Option.some.inj (hr.symm.trans hm)
    exact absurd (het.trans_le hle) hre.not_gt
  · rintro rfl
    have hclear : a < (((machine Key U).run p).edges k).clearTime := har.trans_le (edgeClear_le hrem)
    cases hx : (((machine Key U).run p).edges k).cell v with
    | none =>
      rw [hx, addApplies_none] at happ
      exact absurd happ hclear.not_gt
    | some m =>
      rw [hx, addApplies_some] at happ
      obtain ⟨c, hc, hcm⟩ := edge_planted hx (happ.trans hclear)
      exact ⟨c, List.mem_append_left _ hc, hcm.trans_lt happ⟩

theorem regains_of_live (h : Stamped GraphOp.stamp d) (hn : NoClear d)
    (he : Newest GraphOp.stamp (AddsEdge u v) d (.addEdge u v e))
    (hlast : ¬ ∀ r ∈ d, EndsEdge u v r → r.stamp < e)
    (hl : live ((((machine Key U).run d).edges u).cell v) = true) : Regains d u v e := by
  obtain ⟨t, ht⟩ := live_iff.mp hl
  obtain ⟨m, hm, het⟩ := edge_le (Or.inl he.1)
  obtain rfl := Option.some.inj (ht.symm.trans hm)
  obtain rfl : e = t := le_antisymm het (he.2.2 _ (edge_live ht) ⟨t, rfl⟩)
  have hremoveEdge : ∀ c, .removeEdge u v c ∈ d → c < e := by
    intro c hc
    obtain ⟨m, hm, hcm⟩ := edge_le (Or.inr hc)
    obtain rfl := Option.some.inj (ht.symm.trans hm)
    exact h.lt_of_le_of_ne (a := .removeEdge u v c) (b := .addEdge u v e) hc he.1 hcm (by simp)
  have hremoveVertex : ∀ k r, .removeVertex k r ∈ d → ¬ r < e → e < r := fun k r hr hre =>
    h.lt_of_le_of_ne (a := .addEdge u v e) (b := .removeVertex k r) he.1 hr (not_lt.mp hre) (by simp)
  refine ⟨?_, fun k hk => (live_vertex_iff h hn).mp (ends_live h hn hl hk), hremoveEdge, ?_⟩
  · push Not at hlast
    obtain ⟨_, hr, ⟨r, rfl⟩ | ⟨r, rfl⟩ | ⟨c, rfl⟩, hle⟩ := hlast
    · exact ⟨u, r, Or.inl rfl, hr, hremoveVertex u r hr (not_lt.mpr hle)⟩
    · exact ⟨v, r, Or.inr rfl, hr, hremoveVertex v r hr (not_lt.mpr hle)⟩
    · exact absurd (hremoveEdge c hr) (not_lt.mpr hle)
  · rintro ⟨r, hr, her⟩
    obtain ⟨c, hc, -⟩ := edge_planted ht (her.trans_le (edgeClear_le hr))
    exact ⟨c, hc⟩

/-! ### The schedules of a loss -/

/-- The newest `add_edge` first: the others come too late to spoil the edge. -/
theorem exists_live_of_loses (h : Stamped GraphOp.stamp ops) (hn : NoClear ops)
    (he : Newest GraphOp.stamp (AddsEdge u v) ops (.addEdge u v e)) (hk : Loses ops u v e) :
    ∃ d, Machine.Delivers ops d ∧ live ((((machine Key U).run d).edges u).cell v) = true := by
  have hd : Machine.Delivers ops ([.addEdge u v e] ++ ops) :=
    Machine.delivers_append (by simpa using he.1)
  refine ⟨_, hd, live_of_not_spoils (s := e) (h.of_subset fun o ho => (hd o).mp ho)
    (fun o ho => hn o ((hd o).mp ho)) ⟨by simp, ⟨e, rfl⟩, fun o ho => he.2.2 o ((hd o).mp ho)⟩
    (fun r hr => hk.1 r ((hd r).mp hr)) ?_⟩
  rintro p a q hp ⟨happ, k, -, r, -, -, hr, -⟩
  have ha : a ≤ e := he.2.2 (.addEdge u v a) ((hd _).mp (by rw [hp]; simp)) ⟨a, rfl⟩
  rcases p with _ | ⟨o, p⟩
  · cases hr
  · obtain rfl : .addEdge u v e = o := (List.cons.inj hp).1
    obtain ⟨m, hm, hle⟩ := edge_le (d := .addEdge u v e :: p) (u := u) (v := v) (s := e)
      (Or.inl (by simp))
    rw [hm, addApplies_some] at happ
    exact absurd (hle.trans_lt happ) ha.not_gt

theorem addApplies_of_planted {p : List (GraphOp Key U)} {c a : U}
    (hp : (((machine Key U).run p).edges u).cell v = none) (hca : c < a) :
    AddApplies (((machine Key U).run (p ++ [.removeEdge u v c])).edges u).clearTime a
      ((((machine Key U).run (p ++ [.removeEdge u v c])).edges u).cell v) := by
  have hcell : (((machine Key U).run (p ++ [.removeEdge u v c])).edges u).cell v =
      some ⟨c, true⟩ := by
    rw [run_concat]
    refine (removeEdge_cell _ u v u v c).trans ?_
    rw [if_pos ⟨rfl, rfl⟩, hp]
    rfl
  rw [hcell, addApplies_some]
  exact hca

theorem addApplies_of_not_removed {p : List (GraphOp Key U)} {a : U} (hn : NoClear p)
    (hr : ∀ r, .removeVertex u r ∉ p) (hp : (((machine Key U).run p).edges u).cell v = none)
    (h0 : 0 < a) :
    AddApplies (((machine Key U).run p).edges u).clearTime a
      ((((machine Key U).run p).edges u).cell v) := by
  rw [hp, addApplies_none, (removeVertex_of_edgeClear hn).resolve_right (hr _)]
  exact h0

/-- The removal of the one endpoint and the addition of the other first: the next `add_edge` spoils
the edge. -/
theorem exists_dead_of_loses (h : Stamped GraphOp.stamp ops) (hn : NoClear ops)
    (he : Newest GraphOp.stamp (AddsEdge u v) ops (.addEdge u v e)) (hk : Loses ops u v e) :
    ∃ d, Machine.Delivers ops d ∧ ¬ live ((((machine Key U).run d).edges u).cell v) = true := by
  obtain ⟨-, k, k', a, r, o, hkk, ha, hr, har, ho, htouch, hnot, heo, hplant⟩ := hk
  obtain ⟨c, hc⟩ : ∃ c : List (GraphOp Key U), (∀ x ∈ c, x ∈ ops ∧ ∃ s, x = .removeEdge u v s) ∧
      AddApplies (((machine Key U).run ([.removeVertex k r, o] ++ c)).edges u).clearTime a
        ((((machine Key U).run ([.removeVertex k r, o] ++ c)).edges u).cell v) := by
    have hnone : (((machine Key U).run [.removeVertex k r, o]).edges u).cell v = none := by
      by_contra hx
      obtain ⟨s, hs⟩ := edge_mentioned hx
      simp only [List.mem_cons, List.not_mem_nil, or_false, reduceCtorEq, false_or] at hs
      rcases hs with rfl | rfl
      · exact hnot (touches_addEdge (hkk.imp And.left And.left) s)
      · exact not_touches_removeEdge htouch
    by_cases hku : k = u
    · obtain ⟨c, hc, hca⟩ := hplant hku
      exact ⟨[.removeEdge u v c], by simpa using hc, addApplies_of_planted hnone hca⟩
    · refine ⟨[], by simp, ?_⟩
      rw [List.append_nil]
      refine addApplies_of_not_removed ?_ (fun r' hr' => ?_) hnone (h.pos _ ha)
      · rintro x (_ | ⟨_, _ | ⟨_, hx⟩⟩)
        · rfl
        · exact hn o ho
        · cases hx
      · simp only [List.mem_cons, List.not_mem_nil, or_false, GraphOp.removeVertex.injEq] at hr'
        rcases hr' with ⟨hx, -⟩ | rfl
        · exact hku hx.symm
        · exact not_touches_removeVertex htouch
  have hp : ∀ x ∈ [.removeVertex k r, o] ++ c, x ∈ ops := by
    intro x hx
    simp only [List.mem_append, List.mem_cons, List.not_mem_nil, or_false] at hx
    rcases hx with (rfl | rfl) | hx
    · exact hr
    · exact ho
    · exact (hc.1 x hx).1
  have hd : Machine.Delivers ops ([.removeVertex k r, o] ++ c ++ [.addEdge u v a] ++ ops) := by
    refine Machine.delivers_append fun x hx => ?_
    rcases List.mem_append.mp hx with hx | hx
    · exact hp x hx
    · exact List.mem_singleton.mp hx ▸ ha
  have hcell : ((machine Key U).run ([.removeVertex k r, o] ++ c)).adj.cell k = some ⟨r, true⟩ := by
    refine vertex_newest (o := .removeVertex k r) (h.of_subset hp) (fun x hx => hn x (hp x hx))
      ⟨by simp, writes_iff.mpr (Or.inr ⟨r, rfl⟩), fun x hx hw => ?_⟩
    simp only [List.mem_append, List.mem_cons, List.not_mem_nil, or_false] at hx
    rcases hx with (rfl | rfl) | hx
    · exact le_rfl
    · rcases writes_iff.mp hw with ht | ⟨s, rfl⟩
      · exact absurd ht hnot
      · exact absurd htouch not_touches_removeVertex
    · obtain ⟨-, s, rfl⟩ := hc.1 x hx
      exact absurd rfl (hw.2 u v s)
  obtain ⟨m, hm, hle⟩ := vertex_le (d := [.removeVertex k r, o] ++ c) (o := o) (k := k') (by simp)
    (Or.inl htouch)
  rw [List.append_assoc, List.singleton_append] at hd
  exact ⟨_, hd, dead_of_spoils (fun b hb => he.2.2 _ ((hd _).mp hb) ⟨b, rfl⟩)
    ⟨hc.2, k, k', r, m, hkk, hcell, har, hm, heo.trans_le hle⟩⟩

/-! ### The schedules of a regain -/

/-- The newest `add_edge` and then the newer removal first: the edge stays removed. -/
theorem exists_dead_of_regains (h : Stamped GraphOp.stamp ops)
    (he : Newest GraphOp.stamp (AddsEdge u v) ops (.addEdge u v e)) (hk : Regains ops u v e) :
    ∃ d, Machine.Delivers ops d ∧ ¬ live ((((machine Key U).run d).edges u).cell v) = true := by
  obtain ⟨⟨k, r, hkk, hr, her⟩, -⟩ := hk
  have hd : Machine.Delivers ops ([.addEdge u v e, .removeVertex k r] ++ ops) := by
    refine Machine.delivers_append ?_
    simp only [List.mem_cons, List.not_mem_nil, or_false, forall_eq_or_imp, forall_eq]
    exact ⟨he.1, hr⟩
  refine ⟨_, hd, fun hl => ?_⟩
  obtain ⟨t, ht⟩ := live_iff.mp hl
  have hte : t ≤ e := he.2.2 _ ((hd _).mp (edge_live ht)) ⟨t, rfl⟩
  have h0e : (0 : U) < e := h.pos _ he.1
  have hadd : (((machine Key U).run [.addEdge u v e]).edges u).cell v = some ⟨e, false⟩ := by
    refine (edge_of_live_ends fun w _ => Or.inr ?_).trans (congrArg some ?_)
    · exact addApplies_none.mpr h0e
    · exact addCell_of_applies (addApplies_none.mpr h0e)
  have hrem : ∃ m, (((machine Key U).run [.addEdge u v e, .removeVertex k r]).edges u).cell v =
      some m ∧ r ≤ m.timestamp := by
    obtain ⟨m, hm, -⟩ := edge_mono hadd (.removeVertex k r)
    refine ⟨m, hm, ?_⟩
    by_cases hku : k = u
    · refine le_of_clearsEdges (Or.inl (by rw [hku])) ?_ hm
      rw [show ((machine Key U).run [.addEdge u v e]) = _ from rfl]
      exact (clearTime_addEdge _ u v u e).trans_lt (h0e.trans her)
    · obtain rfl := hkk.resolve_left hku
      have hcell := removeVertex_cell ((machine Key U).run [.addEdge u k e]) k u k r
      rw [if_neg (Ne.symm hku), if_pos ⟨rfl, by rw [hadd]; rfl⟩] at hcell
      obtain rfl := Option.some.inj (hm.symm.trans hcell)
      exact le_timestamp_removeCell r _
  obtain ⟨m, hm, hrm⟩ := hrem
  obtain ⟨m', hm', hle⟩ := edge_mono_run hm ops
  obtain rfl := Option.some.inj (ht.symm.trans hm')
  exact absurd (her.trans_le (hrm.trans hle)) hte.not_gt

/-- What follows the removals of vertices, `add_edge` apart, leaves no edge entry but those of the
`remove_edge`. -/
theorem edge_lt_append {p q : List (GraphOp Key U)}
    (hp : (((machine Key U).run p).edges u).cell v = none)
    (hq : ∀ o ∈ q, IsRemoveVertex o = false ∧ IsClear o = false ∧ ¬ AddsEdge u v o)
    (hlt : ∀ c, .removeEdge u v c ∈ q → c < e) :
    ∀ m, (((machine Key U).run (p ++ q)).edges u).cell v = some m → m.timestamp < e := by
  induction q using List.reverseRecOn with
  | nil =>
    intro m hm
    rw [List.append_nil, hp] at hm
    cases hm
  | append_singleton q o ih =>
    intro m hm
    obtain ⟨hrem, hcl, hadd⟩ := hq o (by simp)
    rw [← List.append_assoc, run_concat] at hm
    rcases edge_step hm with hm | ⟨ho, -⟩ | ⟨s, ho, -⟩ | ⟨s, ho, -⟩ | ⟨-, ho | ho | ⟨ho, -⟩⟩
    · exact ih (fun o ho => hq o (List.mem_append_left _ ho))
        (fun c hc => hlt c (List.mem_append_left _ hc)) m hm
    · exact absurd ⟨_, ho⟩ hadd
    · exact absurd ⟨_, ho⟩ hadd
    · exact absurd ⟨_, ho⟩ hadd
    · exact hlt _ (by simp [ho])
    · rw [ho] at hrem
      cases hrem
    · rcases ho with ho | ⟨ho, -⟩ | ⟨ho, -⟩
      · rw [ho] at hrem
        cases hrem
      · rw [ho] at hcl
        cases hcl
      · rw [ho] at hcl
        cases hcl

theorem edge_append_addEdge {p q : List (GraphOp Key U)} (h : Stamped GraphOp.stamp (p ++ q))
    (hn : NoClear (p ++ q)) (hp : (((machine Key U).run p).edges u).cell v = some ⟨e, false⟩)
    (hq : ∀ o ∈ q, ∃ a, o = .addEdge u v a ∧ a ≤ e) :
    (((machine Key U).run (p ++ q)).edges u).cell v = some ⟨e, false⟩ := by
  induction q using List.reverseRecOn with
  | nil => rwa [List.append_nil]
  | append_singleton q o ih =>
    rw [← List.append_assoc] at h hn ⊢
    have hedge := ih h.of_append hn.of_append fun o ho => hq o (List.mem_append_left _ ho)
    obtain ⟨a, rfl, hae⟩ := hq o (by simp)
    rw [run_concat, edge_of_live_ends fun k hk => Or.inl
      (ends_live h.of_append hn.of_append (by rw [hedge]; rfl) hk)]
    unfold touchedEdge
    rw [hedge]
    exact congrArg some (addCell_of_le hae)

/-- A schedule `p ++ q` of the operations but the `add_edge` from `u` to `v`, with the removals of
vertices first. -/
structure RemovalsFirst (ops : List (GraphOp Key U)) (u v : Key) (p q : List (GraphOp Key U)) :
    Prop where
  mem : ∀ o, o ∈ p ++ q ↔ o ∈ ops ∧ ¬ AddsEdge u v o
  removal : ∀ o ∈ p, IsRemoveVertex o = true
  other : ∀ o ∈ q, IsRemoveVertex o = false

omit [LinearOrder U] [DecidableEq Key] [Zero U] in
theorem exists_removalsFirst (ops : List (GraphOp Key U)) (u v : Key) :
    ∃ p q, RemovalsFirst ops u v p q := by
  classical
  refine ⟨ops.filter fun o => IsRemoveVertex o,
    ops.filter fun o => !IsRemoveVertex o && !decide (AddsEdge u v o), fun o => ?_, fun o ho => ?_,
    fun o ho => ?_⟩
  · have hne : IsRemoveVertex o = true → ¬ AddsEdge u v o := by
      rintro hr ⟨s, rfl⟩
      cases hr
    simp only [List.mem_append, List.mem_filter, Bool.and_eq_true, Bool.not_eq_true',
      decide_eq_false_iff_not]
    cases hr : IsRemoveVertex o <;> simp [hr] at hne ⊢
    exact fun _ => hne
  · exact (List.mem_filter.mp ho).2
  · exact Bool.not_eq_true' _ ▸ ((Bool.and_eq_true _ _).mp (List.mem_filter.mp ho).2).1

namespace RemovalsFirst

variable {p q : List (GraphOp Key U)} (hs : RemovalsFirst ops u v p q)
  (he : Newest GraphOp.stamp (AddsEdge u v) ops (.addEdge u v e))
include hs he

omit [DecidableEq Key] [Zero U] in
theorem mem_ops : ∀ o ∈ p ++ q ++ [.addEdge u v e], o ∈ ops := by
  intro o ho
  rcases List.mem_append.mp ho with ho | ho
  · exact ((hs.mem o).mp ho).1
  · exact List.mem_singleton.mp ho ▸ he.1

variable (h : Stamped GraphOp.stamp ops) (hn : NoClear ops) (hk : Regains ops u v e)
include h hn hk

theorem addApplies :
    AddApplies (((machine Key U).run (p ++ q)).edges u).clearTime e
      ((((machine Key U).run (p ++ q)).edges u).cell v) := by
  obtain ⟨-, -, hremoveEdge, hplant⟩ := hk
  have hnone : (((machine Key U).run p).edges u).cell v = none := by
    by_contra hx
    obtain ⟨s, hs' | hs'⟩ := edge_mentioned hx <;> cases hs.removal _ hs'
  have hlt : ∀ m, (((machine Key U).run (p ++ q)).edges u).cell v = some m → m.timestamp < e := by
    refine edge_lt_append hnone (fun o ho => ?_) fun c hc =>
      hremoveEdge c ((hs.mem _).mp (List.mem_append_right p hc)).1
    obtain ⟨hmem, hadd⟩ := (hs.mem o).mp (List.mem_append_right p ho)
    exact ⟨hs.other o ho, hn o hmem, hadd⟩
  cases hx : (((machine Key U).run (p ++ q)).edges u).cell v with
  | some m => exact addApplies_some.mpr (hlt m hx)
  | none =>
    rw [addApplies_none]
    have hc : NoClear (p ++ q) := fun o ho => hn o ((hs.mem o).mp ho).1
    rcases removeVertex_of_edgeClear (u := u) hc with h0 | hr
    · rw [h0]
      exact h.pos _ he.1
    · by_contra hle
      have hr' := ((hs.mem _).mp hr).1
      obtain ⟨c, hcr⟩ := hplant ⟨_, hr', h.lt_of_le_of_ne (a := .addEdge u v e) he.1 hr'
        (not_lt.mp hle) (by simp)⟩
      obtain ⟨m, hm, -⟩ := edge_le (Or.inr ((hs.mem _).mpr ⟨hcr, by simp [AddsEdge]⟩))
      cases hx.symm.trans hm

theorem ends_live {k : Key} (hku : k = u ∨ k = v) :
    live (((machine Key U).run (p ++ q ++ [.addEdge u v e])).adj.cell k) = true := by
  have hsub := hs.mem_ops he
  refine (live_vertex_iff (h.of_subset hsub) fun o ho => hn o (hsub o ho)).mpr ?_
  obtain ⟨o, ho, htouch, hmax⟩ := hk.2.1 k hku
  have hmax' : ∀ r ∈ p ++ q ++ [.addEdge u v e], (∃ s, r = .removeVertex k s) →
      r.stamp < o.stamp := fun r hr => hmax r (hsub r hr)
  by_cases ha : AddsEdge u v o
  · have hoe := he.2.2 o ho ha
    exact ⟨_, by simp, touches_addEdge hku e, fun r hr hrk => (hmax' r hr hrk).trans_le hoe⟩
  · exact ⟨o, List.mem_append_left _ ((hs.mem o).mpr ⟨ho, ha⟩), htouch, hmax'⟩

theorem edge_cell :
    (((machine Key U).run (p ++ q ++ [.addEdge u v e])).edges u).cell v = some ⟨e, false⟩ := by
  have happ := hs.addApplies he h hn hk
  rw [run_concat]
  refine (edge_of_live_ends fun k hku => ?_).trans (congrArg some (addCell_of_applies happ))
  have hlive := hs.ends_live he h hn hk hku
  rw [run_concat, adj_of_touches (touches_addEdge hku e)] at hlive
  exact (live_addCell.mp hlive).symm

end RemovalsFirst

/-- The removals of vertices first, the `add_edge` operations last and the newest of them before the
others: the edge is visible in the end. -/
theorem exists_live_of_regains (h : Stamped GraphOp.stamp ops) (hn : NoClear ops)
    (he : Newest GraphOp.stamp (AddsEdge u v) ops (.addEdge u v e)) (hk : Regains ops u v e) :
    ∃ d, Machine.Delivers ops d ∧ live ((((machine Key U).run d).edges u).cell v) = true := by
  obtain ⟨p, q, hs⟩ := exists_removalsFirst ops u v
  obtain ⟨l, hl⟩ : ∃ l : List (GraphOp Key U), ∀ o, o ∈ l ↔ o ∈ ops ∧ AddsEdge u v o := by
    classical
    exact ⟨ops.filter fun o => decide (AddsEdge u v o), by simp⟩
  have hd : Machine.Delivers ops (p ++ q ++ [.addEdge u v e] ++ l) := by
    refine fun o => ⟨fun ho => ?_, fun ho => ?_⟩
    · exact (List.mem_append.mp ho).elim (hs.mem_ops he o) fun ho => ((hl o).mp ho).1
    · by_cases ha : AddsEdge u v o
      · exact List.mem_append_right _ ((hl o).mpr ⟨ho, ha⟩)
      · exact List.mem_append_left _ (List.mem_append_left _ ((hs.mem o).mpr ⟨ho, ha⟩))
  refine ⟨_, hd, ?_⟩
  have hedge := edge_append_addEdge (h.of_subset fun o ho => (hd o).mp ho)
    (fun o ho => hn o ((hd o).mp ho)) (hs.edge_cell he h hn hk) fun o ho => ?_
  · rw [hedge]
    rfl
  · obtain ⟨hmem, a, rfl⟩ := (hl o).mp ho
    exact ⟨a, rfl, he.2.2 _ hmem ⟨a, rfl⟩⟩

theorem exists_live_and_dead_iff (h : Stamped GraphOp.stamp ops) (hn : NoClear ops) :
    ((∃ d, Machine.Delivers ops d ∧ live ((((machine Key U).run d).edges u).cell v) = true) ∧
      ∃ d, Machine.Delivers ops d ∧ ¬ live ((((machine Key U).run d).edges u).cell v) = true) ↔
      EdgeDiverges ops u v := by
  constructor
  · rintro ⟨⟨d₁, h₁, hl⟩, d₂, h₂, hdead⟩
    have hs : ∀ {d}, Machine.Delivers ops d → Stamped GraphOp.stamp d :=
      fun hd => h.of_subset fun o ho => (hd o).mp ho
    have hc : ∀ {d}, Machine.Delivers ops d → NoClear d := fun hd o ho => hn o ((hd o).mp ho)
    obtain ⟨t, ht⟩ := live_iff.mp hl
    obtain ⟨_, he⟩ := exists_newest GraphOp.stamp (p := AddsEdge u v) ⟨_, edge_live ht, t, rfl⟩
    obtain ⟨e, rfl⟩ := he.2.1
    by_cases hlast : ∀ r ∈ d₁, EndsEdge u v r → r.stamp < e
    · have hd : ∀ o, o ∈ d₂ ↔ o ∈ d₁ := fun o => (h₂ o).trans (h₁ o).symm
      refine (EdgeDiverges.congr h₂ u v).mp ⟨e, ?_, Or.inl (loses_of_dead (hs h₂) (hc h₂) ?_
        (fun r hr => hlast r ((hd r).mp hr)) hdead)⟩ <;>
        exact ⟨(hd _).mpr he.1, ⟨e, rfl⟩, fun o ho => he.2.2 o ((hd o).mp ho)⟩
    · exact (EdgeDiverges.congr h₁ u v).mp
        ⟨e, he, Or.inr (regains_of_live (hs h₁) (hc h₁) he hlast hl)⟩
  · rintro ⟨e, he, hk | hk⟩
    · exact ⟨exists_live_of_loses h hn he hk, exists_dead_of_loses h hn he hk⟩
    · exact ⟨exists_live_of_regains h hn he hk, exists_dead_of_regains h he hk⟩

end View

end CollabDatatypes.Graph

namespace CollabDatatypes.CmRDT.LWWGraph

open CollabDatatypes.Lib CollabDatatypes.Container CollabDatatypes.Graph

variable {Key T U : Type*} [DecidableEq Key] [LinearOrder U] [Zero U] [Inhabited T]

/-- What `operator==` observes of a graph that nobody wrote a content to: a vertex or an edge. -/
def Observed : Key ⊕ Key × Key → LWWGraph Key T U → Prop
  | .inl k, g => g.hasVertex k = true
  | .inr (u, v), g => g.hasEdge u v = true

/-- **When graphs converge**: a collection of operations without clears leads to equal graphs, in
whatever order and however often they are delivered, exactly when no edge diverges. The default
content has to equal itself. -/
theorem graph_convergesOn_iff [BEq T] (hT : ((default : T) == default) = true)
    {ops : List (GraphOp Key U)} (h : Stamped GraphOp.stamp ops) (hn : NoClear ops) :
    (machine Key T U).ConvergesOn (fun a b => (a == b) = true) ops ↔
      ∀ u v, ¬ EdgeDiverges ops u v := by
  have hs : ∀ {d}, Machine.Delivers ops d → Stamped GraphOp.stamp d :=
    fun hd => h.of_subset fun o ho => (hd o).mp ho
  have hc : ∀ {d}, Machine.Delivers ops d → NoClear d := fun hd o ho => hn o ((hd o).mp ho)
  have hedge : ∀ u v, ((∃ d, Machine.Delivers ops d ∧
      ((machine Key T U).run d).hasEdge u v = true) ∧
      ∃ d, Machine.Delivers ops d ∧ ¬ ((machine Key T U).run d).hasEdge u v = true) ↔
      EdgeDiverges ops u v := by
    intro u v
    rw [← View.exists_live_and_dead_iff h hn]
    refine and_congr (exists_congr fun d => and_congr_right fun hd => ?_)
      (exists_congr fun d => and_congr_right fun hd => not_congr ?_) <;>
    rw [hasEdge_run (hs hd) (hc hd)]
  rw [Machine.convergesOn_iff (O := Observed)]
  · refine ⟨fun hi u v hk => hi (.inr (u, v)) ((hedge u v).mpr hk), fun hk i => ?_⟩
    rcases i with k | ⟨u, v⟩
    · rintro ⟨⟨d₁, h₁, hl⟩, d₂, h₂, hdead⟩
      refine hdead ?_
      show ((machine Key T U).run d₂).hasVertex k = true
      replace hl : ((machine Key T U).run d₁).hasVertex k = true := hl
      rw [hasVertex_run, View.vertex_congr h hn h₁] at hl
      rw [hasVertex_run, View.vertex_congr h hn h₂]
      exact hl
    · exact fun hi => hk u v ((hedge u v).mp hi)
  · intro d₁ d₂
    rw [beq_run_iff hT]
    constructor
    · rintro ⟨hv, he⟩ (k | ⟨u, v⟩)
      · exact Bool.eq_iff_iff.mp (hv k)
      · exact Bool.eq_iff_iff.mp (he u v)
    · intro hi
      exact ⟨fun k => Bool.eq_iff_iff.mpr (hi (.inl k)),
        fun u v => Bool.eq_iff_iff.mpr (hi (.inr (u, v)))⟩

theorem graph_convergesOn_removeVertex :
    (machine ℕ Unit ℕ).ConvergesOn (fun a b => (a == b) = true)
        [.addEdge 0 1 3, .removeVertex 1 5] ↔
      ∀ u v, ¬ EdgeDiverges [GraphOp.addEdge 0 1 3, .removeVertex 1 5] u v :=
  graph_convergesOn_iff rfl (by decide) (by decide)

/-- Vertex 1 is removed at 5 and added again at 8: an `add_edge` at 3 is visible in the end when it
arrives last, and not when it arrives first. -/
theorem graph_diverges :
    Stamped GraphOp.stamp [.removeVertex 1 5, .addVertex 0 7, .addVertex 1 8, .addEdge 0 1 3] ∧
    NoClear [.removeVertex 1 5, .addVertex 0 7, .addVertex 1 8, .addEdge 0 1 3] ∧
    ¬ (machine ℕ Unit ℕ).ConvergesOn (fun a b => (a == b) = true)
      [.removeVertex 1 5, .addVertex 0 7, .addVertex 1 8, .addEdge 0 1 3] := by
  refine ⟨by decide, by decide, fun h => ?_⟩
  exact absurd (h [.removeVertex 1 5, .addVertex 0 7, .addVertex 1 8, .addEdge 0 1 3]
    [.addEdge 0 1 3, .removeVertex 1 5, .addVertex 0 7, .addVertex 1 8] (by decide) (by decide))
    (by decide)

end CollabDatatypes.CmRDT.LWWGraph
