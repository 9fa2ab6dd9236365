import CollabDatatypes.Graph.History

/-! # Runs without clears

Runs of `add_vertex`, `remove_vertex`, `add_edge` and `remove_edge` under the contract on timestamps.
The vertices are then an exact last-writer-wins map (`vertex_newest`, `vertex_planted`): the entry of
a vertex shows the newest operation that writes it. And a visible edge has visible endpoints
(`ends_live`), which is what makes `add_edge` repair only the edges it has just written
(`repair_cases`). -/

namespace CollabDatatypes.Graph

open CollabDatatypes.Lib CollabDatatypes.CmRDT CollabDatatypes.Container

variable {Key U : Type*}

/-- `clear_vertices` or `clear_vertex_edges`. -/
def IsClear : GraphOp Key U → Bool
  | .clearVertices _ => true
  | .clearVertexEdges _ _ => true
  | _ => false

/-- A run of the other four modifiers. -/
def NoClear (d : List (GraphOp Key U)) : Prop := ∀ o ∈ d, IsClear o = false

instance (d : List (GraphOp Key U)) : Decidable (NoClear d) := by
  unfold NoClear; infer_instance

/-- The operation writes the entry of the vertex `k`: it mentions `k` and is no `remove_edge`. -/
def Writes (k : Key) (o : GraphOp Key U) : Prop := Mentions k o ∧ ∀ u v s, o ≠ .removeEdge u v s

/-- `remove_vertex`. -/
def IsRemoveVertex : GraphOp Key U → Bool
  | .removeVertex _ _ => true
  | _ => false

theorem writes_iff {k : Key} {o : GraphOp Key U} :
    Writes k o ↔ Touches k o ∨ ∃ s, o = .removeVertex k s := by
  unfold Writes Touches
  cases o <;> simp [Mentions]

theorem NoClear.of_append {p q : List (GraphOp Key U)} (h : NoClear (p ++ q)) : NoClear p :=
  fun o ho => h o (List.mem_append_left q ho)

namespace View

variable [DecidableEq Key] [LinearOrder U] [Zero U] {d : List (GraphOp Key U)} {u v k : Key}

theorem clearTime_eq_zero (hn : NoClear d) : ((machine Key U).run d).adj.clearTime = 0 :=
  (clearVertices_mem d).resolve_right fun h => by simpa [IsClear] using hn _ h

theorem removeVertex_of_dead (hn : NoClear d) {t : U}
    (h : ((machine Key U).run d).adj.cell k = some ⟨t, true⟩) (ht : t ≠ 0) :
    .removeVertex k t ∈ d :=
  (vertex_dead h).resolve_right fun h' =>
    h'.elim (fun hc => by simpa [IsClear] using hn _ hc) ht

theorem removeVertex_of_edgeClear (hn : NoClear d) :
    (((machine Key U).run d).edges u).clearTime = 0 ∨
      .removeVertex u (((machine Key U).run d).edges u).clearTime ∈ d := by
  refine (edgeClear_mem d u).imp_right ?_
  rintro ⟨p, o, q, hd, hc⟩
  have ho : o ∈ d := by rw [hd]; simp
  rcases hc with rfl | ⟨rfl, -⟩ | ⟨rfl, -⟩
  · exact ho
  · simpa [IsClear] using hn _ ho
  · simpa [IsClear] using hn _ ho

/-! ### Vertices -/

/-- **The newest operation that writes a vertex** is what its entry shows. -/
theorem vertex_newest (h : Stamped GraphOp.stamp d) (hn : NoClear d) {o : GraphOp Key U}
    (ho : Newest GraphOp.stamp (Writes k) d o) :
    ((machine Key U).run d).adj.cell k = some ⟨o.stamp, IsRemoveVertex o⟩ := by
  obtain ⟨hod, hw, hmax⟩ := ho
  obtain ⟨⟨t, b⟩, he, hle⟩ := vertex_le hod (writes_iff.mp hw)
  rw [he]
  cases b with
  | false =>
    obtain ⟨o', ho', htouch, rfl⟩ := vertex_live he
    have hst := le_antisymm hle (hmax o' ho' (writes_iff.mpr (Or.inl htouch)))
    obtain rfl := h.inj o hod o' ho' hst
    rcases htouch with ⟨s, rfl⟩ | ⟨v, s, rfl⟩ | ⟨u, s, rfl⟩ <;> rfl
  | true =>
    have hpos : t ≠ 0 := ((h.pos o hod).trans_le hle).ne'
    have hr := removeVertex_of_dead hn he hpos
    have hst := le_antisymm hle (hmax _ hr (writes_iff.mpr (Or.inr ⟨t, rfl⟩)))
    obtain rfl := h.inj o hod _ hr hst
    rfl

theorem vertex_planted (hn : NoClear d) (hm : ∃ o ∈ d, Mentions k o)
    (hw : ¬ ∃ o ∈ d, Writes k o) :
    ((machine Key U).run d).adj.cell k = some ⟨0, true⟩ := by
  obtain ⟨⟨t, b⟩, he⟩ := Option.isSome_iff_exists.mp (vertex_isSome_iff.mpr hm)
  rw [he]
  cases b with
  | false =>
    obtain ⟨o, ho, htouch, -⟩ := vertex_live he
    exact absurd ⟨o, ho, writes_iff.mpr (Or.inl htouch)⟩ hw
  | true =>
    by_cases ht : t = 0
    · rw [ht]
    · exact absurd ⟨_, removeVertex_of_dead hn he ht, writes_iff.mpr (Or.inr ⟨t, rfl⟩)⟩ hw

theorem vertex_unmentioned (hm : ¬ ∃ o ∈ d, Mentions k o) :
    ((machine Key U).run d).adj.cell k = none := by
  rw [← vertex_isSome_iff, Bool.not_eq_true, Option.isSome_eq_false_iff] at hm
  exact Option.isNone_iff_eq_none.mp hm

theorem live_vertex_iff (h : Stamped GraphOp.stamp d) (hn : NoClear d) :
    live (((machine Key U).run d).adj.cell k) = true ↔
      LastWins GraphOp.stamp (Touches k) (fun o => ∃ s, o = .removeVertex k s) d := by
  constructor
  · intro hl
    obtain ⟨t, ht⟩ := live_iff.mp hl
    obtain ⟨o, ho, htouch, rfl⟩ := vertex_live ht
    refine ⟨o, ho, htouch, ?_⟩
    rintro r hr ⟨s, rfl⟩
    obtain ⟨e, he, hle⟩ := vertex_le hr (Or.inr ⟨s, rfl⟩)
    obtain rfl := Option.some.inj (ht.symm.trans he)
    refine h.lt_of_le_of_ne hr ho hle ?_
    rintro rfl
    exact not_touches_removeVertex htouch
  · rintro ⟨o, ho, htouch, hmax⟩
    obtain ⟨⟨t, b⟩, he, hle⟩ := vertex_le ho (Or.inl htouch)
    rw [he]
    cases b with
    | false => rfl
    | true =>
      have hr := removeVertex_of_dead hn he ((h.pos o ho).trans_le hle).ne'
      exact absurd (hmax _ hr ⟨t, rfl⟩) hle.not_gt

theorem vertex_congr {d' : List (GraphOp Key U)} (h : Stamped GraphOp.stamp d) (hn : NoClear d)
    (hd : ∀ o, o ∈ d' ↔ o ∈ d) (k : Key) :
    ((machine Key U).run d').adj.cell k = ((machine Key U).run d).adj.cell k := by
  have h' : Stamped GraphOp.stamp d' := h.of_subset fun o ho => (hd o).mp ho
  have hn' : NoClear d' := fun o ho => hn o ((hd o).mp ho)
  by_cases hw : ∃ o ∈ d, Writes k o
  · obtain ⟨o, ho⟩ := exists_newest GraphOp.stamp hw
    have ho' : Newest GraphOp.stamp (Writes k) d' o :=
      ⟨(hd o).mpr ho.1, ho.2.1, fun o' hod' => ho.2.2 o' ((hd o').mp hod')⟩
    rw [vertex_newest h hn ho, vertex_newest h' hn' ho']
  · have hw' : ¬ ∃ o ∈ d', Writes k o := fun ⟨o, ho, hk⟩ => hw ⟨o, (hd o).mp ho, hk⟩
    by_cases hm : ∃ o ∈ d, Mentions k o
    · have hm' : ∃ o ∈ d', Mentions k o := hm.imp fun o ho => ⟨(hd o).mpr ho.1, ho.2⟩
      rw [vertex_planted hn hm hw, vertex_planted hn' hm' hw']
    · have hm' : ¬ ∃ o ∈ d', Mentions k o := fun ⟨o, ho, hk⟩ => hm ⟨o, (hd o).mp ho, hk⟩
      rw [vertex_unmentioned hm, vertex_unmentioned hm']

/-! ### Edges -/

theorem removeVertex_takes_edge (hn : NoClear d) {s t tk : U}
    (hs : 0 < s) (ht : (((machine Key U).run d).edges u).cell v = some ⟨t, false⟩)
    (hk : k = u ∨ k = v) (hck : ((machine Key U).run d).adj.cell k = some ⟨tk, false⟩)
    (hlt : tk < s) :
    ((((machine Key U).run d).removeVertex k s).edges u).cell v ≠ some ⟨t, false⟩ := by
  intro hafter
  have hts : t < s := by
    obtain ⟨e, he, hle⟩ := edge_dominated ht hk
    obtain rfl := Option.some.inj (hck.symm.trans he)
    exact hle.trans_lt hlt
  by_cases hku : u = k
  · subst hku
    have hcs : (((machine Key U).run d).edges u).clearTime < s := by
      rcases removeVertex_of_edgeClear hn with h0 | hr
      · rw [h0]; exact hs
      · obtain ⟨e, he, hle⟩ := vertex_le hr (Or.inr ⟨_, rfl⟩)
        obtain rfl := Option.some.inj (hck.symm.trans he)
        exact hle.trans_lt hlt
    exact absurd (le_of_clearsEdges (Or.inl rfl) hcs hafter) hts.not_ge
  · obtain rfl := hk.resolve_left fun h => hku h.symm
    cases (edge_of_removeVertex hku ht hts).symm.trans hafter

theorem ends_live (h : Stamped GraphOp.stamp d) (hn : NoClear d)
    (hl : live ((((machine Key U).run d).edges u).cell v) = true) (hk : k = u ∨ k = v) :
    live (((machine Key U).run d).adj.cell k) = true := by
  induction d using List.reverseRecOn with
  | nil => cases hl
  | append_singleton d o ih =>
    obtain ⟨t, ht⟩ := live_iff.mp hl
    have hd := h.of_append
    have hmem : o ∈ d ++ [o] := by simp
    rw [Machine.run_concat] at ht ⊢
    rcases live_edge_step ht with hold | ⟨rfl, -⟩
    · by_contra hdead
      obtain ⟨tk, hck⟩ := live_iff.mp (ih hd hn.of_append (by rw [hold]; rfl))
      rcases dead_vertex_step hck (vertex_nonneg hd hck) hdead with ⟨s, rfl, hlt⟩ | ⟨s, rfl, -⟩
      · exact removeVertex_takes_edge hn.of_append (h.pos _ hmem) hold hk hck hlt ht
      · simpa [IsClear] using hn _ hmem
    · rw [← Machine.run_concat]
      exact ends_live_of_addEdge h hl hk

/-- **When `add_edge` repairs**: the edge is one it has just written, and an endpoint was removed by
a newer `remove_vertex`. -/
theorem repair_cases {s : U} (h : Stamped GraphOp.stamp (d ++ [.addEdge u v s])) (hn : NoClear d)
    (hr : ((machine Key U).run d).repairs u v s = true) :
    AddApplies (((machine Key U).run d).edges u).clearTime s
        ((((machine Key U).run d).edges u).cell v) ∧
      ∃ k k' r, (k = u ∧ k' = v ∨ k = v ∧ k' = u) ∧
        ((machine Key U).run d).adj.cell k = some ⟨r, true⟩ ∧ s < r ∧ .removeVertex k r ∈ d := by
  obtain ⟨hlive, hrem⟩ := (Bool.and_eq_true _ _).mp hr
  have hs : 0 < s := h.pos (.addEdge u v s) (by simp)
  have hremoved : ∀ k, (((machine Key U).run d).touched k s).isRemoved = true →
      ∃ r, ((machine Key U).run d).adj.cell k = some ⟨r, true⟩ ∧ s < r ∧ .removeVertex k r ∈ d := by
    intro k hk
    rcases addCell_cases ((machine Key U).run d).adj.clearTime s
      (((machine Key U).run d).adj.cell k) with ⟨-, he⟩ | ⟨⟨r, b⟩, hc, hle, he⟩ | ⟨-, hle, -⟩
    · rw [touched, he] at hk
      cases hk
    · rw [touched, he] at hk
      obtain rfl : b = true := hk
      have hmem := removeVertex_of_dead hn hc (hs.trans_le hle).ne'
      refine ⟨r, hc, ?_, hmem⟩
      exact h.lt_of_le_of_ne (a := .addEdge u v s) (b := .removeVertex k r) (by simp)
        (List.mem_append_left _ hmem) hle (by simp)
    · rw [clearTime_eq_zero hn] at hle
      exact absurd hs hle.not_gt
  have hend : ∃ k k' r, (k = u ∧ k' = v ∨ k = v ∧ k' = u) ∧
      ((machine Key U).run d).adj.cell k = some ⟨r, true⟩ ∧ s < r ∧ .removeVertex k r ∈ d := by
    rcases (Bool.or_eq_true _ _).mp hrem with hu | hv
    · obtain ⟨r, hr⟩ := hremoved u hu
      exact ⟨u, v, r, Or.inl ⟨rfl, rfl⟩, hr⟩
    · obtain ⟨r, hr⟩ := hremoved v hv
      exact ⟨v, u, r, Or.inr ⟨rfl, rfl⟩, hr⟩
  refine ⟨?_, hend⟩
  obtain ⟨k, k', r, hk, hc, -⟩ := hend
  rcases addCell_cases (((machine Key U).run d).edges u).clearTime s
    ((((machine Key U).run d).edges u).cell v) with ⟨ha, -⟩ | ⟨e, hx, -, he⟩ | ⟨-, -, he⟩
  · exact ha
  · rw [touchedEdge, he] at hlive
    have hl := ends_live h.of_append hn (u := u) (v := v) (k := k)
      (by rw [hx]; exact hlive) (hk.imp And.left And.left)
    rw [hc] at hl
    cases hl
  · rw [touchedEdge, he] at hlive
    cases hlive

end View

end CollabDatatypes.Graph
