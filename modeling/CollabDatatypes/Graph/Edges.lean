import CollabDatatypes.Graph.Vertices

/-! # Edges against removals

In a run without clears an edge ought to be visible when its newest `add_edge` is newer than every
removal of the edge and of its endpoints (`LastWins`), and ought not to be when a removal is newer.
Neither holds of every run. An `add_edge` that finds an endpoint removed writes a tombstone with the
greater of the stamps of *both* endpoints, and the other one may be newer than the newest `add_edge`
(`Spoils`). And an `add_edge` that arrives after its endpoints were removed and added again finds no
trace of the removal (`Resurrects`). These are the only two ways: `noLostEdge_iff`,
`removalDominates_iff`. -/

namespace CollabDatatypes.Graph

open CollabDatatypes.Lib CollabDatatypes.CmRDT CollabDatatypes.Container

variable {Key U : Type*}

/-- `add_edge` from `u` to `v`. -/
def AddsEdge (u v : Key) (o : GraphOp Key U) : Prop := ∃ s, o = .addEdge u v s

/-- A removal of the edge from `u` to `v` or of an endpoint. -/
def EndsEdge (u v : Key) (o : GraphOp Key U) : Prop :=
  (∃ s, o = .removeVertex u s) ∨ (∃ s, o = .removeVertex v s) ∨ ∃ s, o = .removeEdge u v s

/-- An `add_edge` of the stamp `a` that takes effect while an endpoint is removed with a newer stamp
and the other endpoint has an entry newer than `s`. -/
def Spoils [LinearOrder U] (g : View Key U) (u v : Key) (a s : U) : Prop :=
  AddApplies (g.edges u).clearTime a ((g.edges u).cell v) ∧
    ∃ k k' r e, (k = u ∧ k' = v ∨ k = v ∧ k' = u) ∧ g.adj.cell k = some ⟨r, true⟩ ∧ a < r ∧
      g.adj.cell k' = some e ∧ s < e.timestamp

/-- An `add_edge` of the stamp `a` that takes effect and leaves both endpoints visible, although a
removal delivered before it is newer than it and every other `add_edge`. -/
def Resurrects [LinearOrder U] (p : List (GraphOp Key U)) (g : View Key U) (u v : Key) (a : U) :
    Prop :=
  LastWins GraphOp.stamp (EndsEdge u v) (AddsEdge u v) (p ++ [.addEdge u v a]) ∧
    AddApplies (g.edges u).clearTime a ((g.edges u).cell v) ∧
    ∀ k, k = u ∨ k = v →
      live (g.adj.cell k) = true ∨ AddApplies g.adj.clearTime a (g.adj.cell k)

namespace View

variable [DecidableEq Key] [LinearOrder U] [Zero U] {d : List (GraphOp Key U)} {u v : Key} {s : U}

omit [DecidableEq Key] [Zero U] in
theorem removal_lt (hlast : ∀ r ∈ d, EndsEdge u v r → r.stamp < s) {k : Key} (hk : k = u ∨ k = v)
    {r : U} (hr : .removeVertex k r ∈ d) : r < s := by
  rcases hk with rfl | rfl
  · exact hlast _ hr (Or.inl ⟨r, rfl⟩)
  · exact hlast _ hr (Or.inr (Or.inl ⟨r, rfl⟩))

/-- A spoiled edge is removed with a stamp newer than every `add_edge`, for good. -/
theorem dead_of_spoils {p q : List (GraphOp Key U)} {a : U}
    (hnew : ∀ b, .addEdge u v b ∈ p ++ .addEdge u v a :: q → b ≤ s)
    (hsp : Spoils ((machine Key U).run p) u v a s) :
    ¬ live ((((machine Key U).run (p ++ .addEdge u v a :: q)).edges u).cell v) = true := by
  obtain ⟨happ, k, k', r, e, hk, hr, har, hk', hse⟩ := hsp
  intro hl
  obtain ⟨t, ht⟩ := live_iff.mp hl
  have hts : t ≤ s := hnew t (edge_live ht)
  have hedge : ((machine Key U).run p).touchedEdge u v a = ⟨a, false⟩ := addCell_of_applies happ
  have hrem : ((machine Key U).run p).touched k a = ⟨r, true⟩ := by
    unfold touched
    rw [hr]
    exact addCell_of_le har.le
  have hrep : ((machine Key U).run p).repairs u v a = true := by
    unfold repairs
    rw [hedge]
    rcases hk with ⟨rfl, -⟩ | ⟨rfl, -⟩ <;> rw [hrem] <;> simp
  have hhigh : ∀ w, w = u ∨ w = v → ∀ m, ((machine Key U).run p).adj.cell w = some m →
      m.timestamp ≤ ((machine Key U).run p).highTime u v a := by
    intro w hw m hm
    refine le_trans ?_ (timestamp_touched_le hw a)
    unfold touched
    rw [hm]
    exact le_timestamp_addCell_some _ a m
  have hlow : a < ((machine Key U).run p).highTime u v a :=
    har.trans_le (hhigh k (hk.imp And.left And.left) _ hr)
  have hadd : ((machine Key U).run p).addedEdge u v a =
      ⟨((machine Key U).run p).highTime u v a, true⟩ := by
    unfold addedEdge
    rw [if_pos hrep, hedge, removeCell, write_of_lt hlow]
  obtain ⟨e', he', hle⟩ := edge_mono_run (p := p ++ [.addEdge u v a]) (u := u) (v := v)
    (e := ⟨((machine Key U).run p).highTime u v a, true⟩) (by
      rw [run_concat, ← hadd]
      exact (addEdge_cell _ u v u v a).trans (if_pos ⟨rfl, rfl⟩)) q
  rw [List.append_assoc, List.singleton_append] at he'
  obtain rfl := Option.some.inj (ht.symm.trans he')
  have hgt := hhigh k' (hk.elim (fun h => Or.inr h.2) fun h => Or.inl h.2) e hk'
  exact absurd (hse.trans_le (hgt.trans hle)) hts.not_gt

theorem timestamp_ne {p q : List (GraphOp Key U)} (h : Stamped GraphOp.stamp (p ++ q))
    (hn : NoClear p) (hs : .addEdge u v s ∈ p ++ q) {k k' : Key} (hk : k = u ∨ k = v)
    {r e : Metadata U} (hr : ((machine Key U).run p).adj.cell k = some r) (hrs : r.timestamp < s)
    (he : ((machine Key U).run p).adj.cell k' = some e) : e.timestamp ≠ s := by
  intro hes
  have hpos : 0 < s := h.pos _ hs
  rcases e with ⟨t, b⟩
  obtain rfl : t = s := hes
  cases b with
  | false =>
    obtain ⟨o, ho, -, hst⟩ := vertex_live he
    obtain rfl := h.inj o (List.mem_append_left q ho) _ hs hst
    obtain ⟨e, he', hle⟩ := vertex_le ho (Or.inl (touches_addEdge hk t))
    obtain rfl := Option.some.inj (hr.symm.trans he')
    exact absurd hrs (not_lt.mpr hle)
  | true =>
    have hmem := removeVertex_of_dead hn he hpos.ne'
    cases h.inj _ (List.mem_append_left q hmem) _ hs rfl

theorem spoils_of_repairs {p q : List (GraphOp Key U)} {a : U}
    (h : Stamped GraphOp.stamp (p ++ .addEdge u v a :: q)) (hn : NoClear p)
    (hs : .addEdge u v s ∈ p ++ .addEdge u v a :: q)
    (hlast : ∀ r ∈ p ++ .addEdge u v a :: q, EndsEdge u v r → r.stamp < s)
    (hrep : ((machine Key U).run p).repairs u v a = true)
    (hle : s ≤ ((machine Key U).run p).highTime u v a) :
    Spoils ((machine Key U).run p) u v a s := by
  have hp : Stamped GraphOp.stamp (p ++ [.addEdge u v a]) := by
    refine h.of_subset fun o ho => ?_
    simp only [List.mem_append, List.mem_cons, List.not_mem_nil, or_false] at ho ⊢
    tauto
  obtain ⟨happ, k, k', r, hk, hr, har, hmem⟩ := repair_cases hp hn hrep
  have hrs : r < s := removal_lt hlast (hk.imp And.left And.left) (List.mem_append_left _ hmem)
  have htouched : ((machine Key U).run p).touched k a = ⟨r, true⟩ := by
    unfold touched
    rw [hr]
    exact addCell_of_le har.le
  have hother : s ≤ (((machine Key U).run p).touched k' a).timestamp := by
    unfold highTime at hle
    rcases hk with ⟨rfl, rfl⟩ | ⟨rfl, rfl⟩
    · rw [htouched] at hle
      exact (le_max_iff.mp hle).resolve_left hrs.not_ge
    · rw [htouched] at hle
      exact (le_max_iff.mp hle).resolve_right hrs.not_ge
  refine ⟨happ, k, k', r, ?_⟩
  rcases addCell_cases ((machine Key U).run p).adj.clearTime a
    (((machine Key U).run p).adj.cell k') with ⟨-, he⟩ | ⟨e, hc, -, he⟩ | ⟨-, -, he⟩
  · rw [touched, he] at hother
    exact absurd (har.trans hrs) hother.not_gt
  · rw [touched, he] at hother
    have hne := timestamp_ne h hn hs (hk.imp And.left And.left) hr hrs hc
    exact ⟨e, hk, hr, har, hc, hother.lt_of_ne hne.symm⟩
  · rw [touched, he, clearTime_eq_zero hn] at hother
    exact absurd (h.pos _ hs) hother.not_gt

theorem live_of_not_spoils (h : Stamped GraphOp.stamp d) (hn : NoClear d)
    (hs : Newest GraphOp.stamp (AddsEdge u v) d (.addEdge u v s))
    (hlast : ∀ r ∈ d, EndsEdge u v r → r.stamp < s)
    (hsp : ∀ p a q, d = p ++ .addEdge u v a :: q → ¬ Spoils ((machine Key U).run p) u v a s) :
    live ((((machine Key U).run d).edges u).cell v) = true := by
  obtain ⟨hmem, -, hnew⟩ := hs
  obtain ⟨⟨t, b⟩, he, hle⟩ := edge_le (Or.inl hmem)
  replace hle : s ≤ t := hle
  rw [he]
  cases b with
  | false => rfl
  | true =>
    have h0 : (0 : U) < s := h.pos _ hmem
    rcases edge_dead he with rfl | hr | hr | ⟨p, o, q, rfl, hc⟩ | ⟨p, a, q, rfl, hrep, rfl⟩
    · exact absurd h0 hle.not_gt
    · exact absurd (hlast _ hr (Or.inr (Or.inr ⟨t, rfl⟩))) hle.not_gt
    · exact absurd (removal_lt hlast (Or.inr rfl) hr) hle.not_gt
    · rcases hc with rfl | ⟨rfl, -⟩ | ⟨rfl, -⟩
      · exact absurd (removal_lt hlast (Or.inl rfl) (r := t) (by simp)) hle.not_gt
      · simpa [IsClear] using hn (.clearVertices t) (by simp)
      · simpa [IsClear] using hn (.clearVertexEdges u t) (by simp)
    · exact absurd (spoils_of_repairs h hn.of_append hmem hlast hrep hle) (hsp p a q rfl)

/-- **A removal that is last to win** hides the edge, if it did so already wherever it came before. -/
theorem dead_of_endsEdge {o : GraphOp Key U} (h : Stamped GraphOp.stamp (d ++ [o])) (hn : NoClear d)
    (hP : LastWins GraphOp.stamp (EndsEdge u v) (AddsEdge u v) d →
      ¬ live ((((machine Key U).run d).edges u).cell v) = true)
    (hw : LastWins GraphOp.stamp (EndsEdge u v) (AddsEdge u v) (d ++ [o])) {t : U}
    (hold : (((machine Key U).run d).edges u).cell v = some ⟨t, false⟩) :
    (((machine Key U).run (d ++ [o])).edges u).cell v ≠ some ⟨t, false⟩ := by
  obtain ⟨r, hr, hends, hmax⟩ := hw
  have hlive : live ((((machine Key U).run d).edges u).cell v) = true := by rw [hold]; rfl
  rcases List.mem_append.mp hr with hr | hr
  · exact absurd hlive (hP ⟨r, hr, hends, fun b hb => hmax b (List.mem_append_left _ hb)⟩)
  obtain rfl := List.mem_singleton.mp hr
  have htr : t < r.stamp := hmax _ (List.mem_append_left _ (edge_live hold)) ⟨t, rfl⟩
  rw [run_concat]
  intro hafter
  have hcleared : ∀ s, r ≠ .removeVertex u s := by
    rintro s rfl
    by_cases hc : (((machine Key U).run d).edges u).clearTime < s
    · exact absurd (le_of_clearsEdges (Or.inl rfl) hc hafter) htr.not_ge
    · rw [not_lt] at hc
      have hs : (0 : U) < s := h.pos (.removeVertex u s) (by simp)
      have hmem := (removeVertex_of_edgeClear hn).resolve_left (hs.trans_le hc).ne'
      refine absurd hlive (hP ⟨_, hmem, Or.inl ⟨_, rfl⟩, fun b hb hadd => ?_⟩)
      exact (hmax b (List.mem_append_left _ hb) hadd).trans_le hc
  have hremoved : removeCell r.stamp ((((machine Key U).run d).edges u).cell v) =
      ⟨r.stamp, true⟩ := by
    rw [hold]
    exact write_of_lt htr true
  rcases hends with ⟨s, rfl⟩ | ⟨s, rfl⟩ | ⟨s, rfl⟩
  · exact hcleared s rfl
  · have huv : u ≠ v := fun huv => hcleared s (by rw [huv])
    cases (edge_of_removeVertex huv hold htr).symm.trans hafter
  · replace hafter : ((((machine Key U).run d).removeEdge u v s).edges u).cell v = _ := hafter
    rw [removeEdge_cell, if_pos ⟨rfl, rfl⟩] at hafter
    cases hafter.symm.trans (congrArg some hremoved)

theorem live_of_resurrects {a : U} (hr : Resurrects d ((machine Key U).run d) u v a) :
    live ((((machine Key U).run (d ++ [.addEdge u v a])).edges u).cell v) = true := by
  obtain ⟨-, happ, hends⟩ := hr
  have hadd : ((machine Key U).run d).touchedEdge u v a = ⟨a, false⟩ := addCell_of_applies happ
  rw [run_concat, edge_of_live_ends hends, hadd]
  rfl

end View

end CollabDatatypes.Graph

namespace CollabDatatypes.CmRDT.LWWGraph

open CollabDatatypes.Lib CollabDatatypes.Container CollabDatatypes.Graph

variable {Key T U : Type*} [DecidableEq Key] [LinearOrder U] [Zero U] [Inhabited T]

/-- **When a newest `add_edge` is not lost**: an edge that is last to win is visible at the end of the
run exactly when no `add_edge` of the run spoiled it. -/
theorem noLostEdge_iff {d : List (GraphOp Key U)} (h : Stamped GraphOp.stamp d) (hn : NoClear d)
    (u v : Key) :
    (LastWins GraphOp.stamp (AddsEdge u v) (EndsEdge u v) d →
        ((machine Key T U).run d).hasEdge u v = true) ↔
      ∀ s, Newest GraphOp.stamp (AddsEdge u v) d (.addEdge u v s) →
        (∀ r ∈ d, EndsEdge u v r → r.stamp < s) →
        ∀ p a q, d = p ++ .addEdge u v a :: q →
          ¬ Spoils ((machine Key T U).run p).view u v a s := by
  simp only [view_run]
  rw [hasEdge_run h hn]
  constructor
  · rintro hedge s hs hlast p a q rfl hsp
    refine View.dead_of_spoils (fun b hb => hs.2.2 _ hb ⟨b, rfl⟩) hsp (hedge ?_)
    exact ⟨_, hs.1, hs.2.1, hlast⟩
  · intro hsp hw
    obtain ⟨_, ha, hadd, -⟩ := id hw
    obtain ⟨_, hs⟩ := exists_newest GraphOp.stamp ⟨_, ha, hadd⟩
    obtain ⟨s, rfl⟩ := hs.2.1
    have hlast := (lastWins_iff_newest hs).mp hw
    exact View.live_of_not_spoils h hn hs hlast (hsp s hs hlast)

theorem noLostEdge_iff_readded :
    (LastWins GraphOp.stamp (AddsEdge 0 1) (EndsEdge 0 1) [.removeVertex 1 5, .addEdge 0 1 7] →
        ((machine ℕ Unit ℕ).run [.removeVertex 1 5, .addEdge 0 1 7]).hasEdge 0 1 = true) ↔
      ∀ s, Newest GraphOp.stamp (AddsEdge 0 1) [.removeVertex 1 5, .addEdge 0 1 7]
          (.addEdge 0 1 s) →
        (∀ r ∈ [GraphOp.removeVertex 1 5, .addEdge 0 1 7], EndsEdge 0 1 r → r.stamp < s) →
        ∀ p a q, [GraphOp.removeVertex 1 5, .addEdge 0 1 7] = p ++ .addEdge 0 1 a :: q →
          ¬ Spoils ((machine ℕ Unit ℕ).run p).view 0 1 a s :=
  noLostEdge_iff (by decide) (by decide) 0 1

/-- The edge is added at 7, after every removal, and lost: an older `add_edge` met the removed
destination and left a tombstone with the time 10 of the origin. -/
theorem edge_lost :
    Stamped GraphOp.stamp [.removeVertex 1 5, .addVertex 0 10, .addEdge 0 1 3, .addEdge 0 1 7] ∧
    NoClear [.removeVertex 1 5, .addVertex 0 10, .addEdge 0 1 3, .addEdge 0 1 7] ∧
    ¬ (LastWins GraphOp.stamp (AddsEdge 0 1) (EndsEdge 0 1)
        [.removeVertex 1 5, .addVertex 0 10, .addEdge 0 1 3, .addEdge 0 1 7] →
      ((machine ℕ Unit ℕ).run
        [.removeVertex 1 5, .addVertex 0 10, .addEdge 0 1 3, .addEdge 0 1 7]).hasEdge 0 1 =
          true) := by
  refine ⟨by decide, by decide, fun h => absurd (h ?_) (by decide)⟩
  refine ⟨.addEdge 0 1 7, by simp, ⟨7, rfl⟩, ?_⟩
  simp [EndsEdge, GraphOp.stamp]

/-- **When removals dominate**: in every state of a run, an edge whose newest removal is newer than
every `add_edge` is hidden, exactly when no `add_edge` of the run resurrected it. -/
theorem removalDominates_iff {d : List (GraphOp Key U)} (h : Stamped GraphOp.stamp d)
    (hn : NoClear d) (u v : Key) :
    (∀ p, p <+: d → LastWins GraphOp.stamp (EndsEdge u v) (AddsEdge u v) p →
        ((machine Key T U).run p).hasEdge u v = false) ↔
      ∀ p a q, d = p ++ .addEdge u v a :: q →
        ¬ Resurrects p ((machine Key T U).run p).view u v a := by
  simp only [view_run]
  have hiff := Machine.always_iff
    (C := fun p => Stamped GraphOp.stamp p ∧ NoClear p)
    (P := fun p => LastWins GraphOp.stamp (EndsEdge u v) (AddsEdge u v) p →
      ((machine Key T U).run p).hasEdge u v = false)
    (B := fun p o => ∃ a, o = .addEdge u v a ∧ Resurrects p ((View.machine Key U).run p) u v a)
    (fun p o hC => ⟨hC.1.of_append, hC.2.of_append⟩) ?_ ?_ ?_ ⟨h, hn⟩
  · refine hiff.trans ⟨fun hb p a q hd hr => hb p _ q hd ⟨a, rfl, hr⟩, fun hb p o q hd => ?_⟩
    rintro ⟨a, rfl, hr⟩
    exact hb p a q hd hr
  · rintro ⟨r, hr, -⟩
    simp at hr
  · rintro p o ⟨hs, hnp⟩ hP hbad hw
    rw [hasEdge_run hs hnp, ← Bool.not_eq_true]
    intro hl
    obtain ⟨t, ht⟩ := live_iff.mp hl
    have hP' : LastWins GraphOp.stamp (EndsEdge u v) (AddsEdge u v) p →
        ¬ live ((((View.machine Key U).run p).edges u).cell v) = true := by
      rw [← hasEdge_run (T := T) hs.of_append hnp.of_append, Bool.not_eq_true]
      exact hP
    have hstep := ht
    rw [View.run_concat] at hstep
    rcases View.live_edge_step hstep with hold | ⟨rfl, happ⟩
    · exact View.dead_of_endsEdge hs hnp.of_append hP' hw hold ht
    · exact hbad ⟨t, rfl, hw, happ, fun k hk =>
        (View.live_or_revives_of_addEdge hs hl hk).imp_right And.right⟩
  · rintro p _ ⟨hs, hnp⟩ ⟨a, rfl, hr⟩ hP
    have hl := View.live_of_resurrects hr
    rw [← hasEdge_run (T := T) hs hnp, hP hr.1] at hl
    cases hl

theorem removalDominates_iff_swept :
    (∀ p, p <+: [GraphOp.addEdge 0 1 3, .removeVertex 1 5] →
        LastWins GraphOp.stamp (EndsEdge 0 1) (AddsEdge 0 1) p →
        ((machine ℕ Unit ℕ).run p).hasEdge 0 1 = false) ↔
      ∀ p a q, [GraphOp.addEdge 0 1 3, .removeVertex 1 5] = p ++ .addEdge 0 1 a :: q →
        ¬ Resurrects p ((machine ℕ Unit ℕ).run p).view 0 1 a :=
  removalDominates_iff (by decide) (by decide) 0 1

/-- The destination is removed at 5 and added again at 8; an `add_edge` at 3 that arrives last is
visible. -/
theorem edge_resurrected :
    Stamped GraphOp.stamp [.removeVertex 1 5, .addVertex 0 7, .addVertex 1 8, .addEdge 0 1 3] ∧
    NoClear [.removeVertex 1 5, .addVertex 0 7, .addVertex 1 8, .addEdge 0 1 3] ∧
    ¬ (LastWins GraphOp.stamp (EndsEdge 0 1) (AddsEdge 0 1)
        [.removeVertex 1 5, .addVertex 0 7, .addVertex 1 8, .addEdge 0 1 3] →
      ((machine ℕ Unit ℕ).run
        [.removeVertex 1 5, .addVertex 0 7, .addVertex 1 8, .addEdge 0 1 3]).hasEdge 0 1 =
          false) := by
  refine ⟨by decide, by decide, fun h => absurd (h ?_) (by decide)⟩
  refine ⟨.removeVertex 1 5, by simp, Or.inr (Or.inl ⟨5, rfl⟩), ?_⟩
  simp [AddsEdge, GraphOp.stamp]

end CollabDatatypes.CmRDT.LWWGraph
