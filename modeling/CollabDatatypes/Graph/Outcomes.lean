import CollabDatatypes.Container.Outcomes
import CollabDatatypes.Graph.LastWriters

/-! # What deliveries of a graph can show

The vertices of a graph are a map that receives the translation of every operation (`vertexOps`). It
tells a vertex at most one thing (`saysOnce_vertexOps`), so the schedules of a map
(`Container.Schedules`, `Container.Outcomes`) can be carried over, and what deliveries of a map can end
in tells the same of vertices, with any of the six modifiers and any positive stamps. In a graph also a
`remove_edge` plants an entry, at its endpoints and with the least stamp, and then an addition that a
clear should stop may pass it (`vertex_outcomes`, `vertexEntry_converge_iff`). -/

namespace CollabDatatypes.Graph

open CollabDatatypes.Lib CollabDatatypes.CmRDT CollabDatatypes.Container

variable {Key U : Type*}

/-- The operation adds the vertex `k` or removes it. -/
def Decides (k : Key) (o : GraphOp Key U) : Prop := Touches k o ∨ ∃ s, o = .removeVertex k s

/-- Where there is no vertex `k`, the operation enters it as removed, with the stamp `r`. -/
def Plants [Zero U] (k : Key) (r : U) (o : GraphOp Key U) : Prop :=
  o = .removeVertex k r ∨ r = 0 ∧ ∃ u v s, o = .removeEdge u v s ∧ (k = u ∨ k = v)

variable [LinearOrder U] [Zero U] {ops d p q : List (GraphOp Key U)} {k : Key}

/-- An addition is among the newest operations that add or remove `k`, and it is not older than any
clear, or newer than what something plants. -/
def MayShowVertex (ops : List (GraphOp Key U)) (k : Key) : Prop :=
  ∃ o, Newest GraphOp.stamp (Decides k) ops o ∧ Touches k o ∧
    ((∀ c, .clearVertices c ∈ ops → c ≤ o.stamp) ∨ ∃ r, (∃ b ∈ ops, Plants k r b) ∧ r < o.stamp)

/-- An addition among the newest operations that add or remove `k` has a rival of the same stamp, and
no clear is newer; or something plants `k`, and a clear is newer than everything that adds or removes
it. -/
def VertexDiverges (ops : List (GraphOp Key U)) (k : Key) : Prop :=
  (∃ o, Newest GraphOp.stamp (Decides k) ops o ∧ Touches k o ∧
      (∀ c, .clearVertices c ∈ ops → c ≤ o.stamp) ∧
      (.removeVertex k o.stamp ∈ ops ∨ .clearVertices o.stamp ∈ ops)) ∨
    (∃ r, ∃ b ∈ ops, Plants k r b) ∧
      ∃ c, .clearVertices c ∈ ops ∧ ∀ o ∈ ops, Decides k o → o.stamp < c

/-! ### The translation -/

section Translation

omit [LinearOrder U] in
theorem add_mem_flatMap {s : U} :
    .add k s ∈ ops.flatMap vertexOps ↔ ∃ o ∈ ops, Touches k o ∧ o.stamp = s := by
  simp only [List.mem_flatMap, add_mem_vertexOps]

omit [LinearOrder U] in
theorem remove_mem_flatMap {r : U} :
    .remove k r ∈ ops.flatMap vertexOps ↔ ∃ o ∈ ops, Plants k r o := by
  simp only [List.mem_flatMap, remove_mem_vertexOps, Plants]

omit [LinearOrder U] in
theorem clear_mem_flatMap {c : U} :
    .clear c ∈ ops.flatMap vertexOps ↔ .clearVertices c ∈ ops := by
  simp only [List.mem_flatMap, clear_mem_vertexOps, exists_eq_right]

omit [LinearOrder U] in
theorem delivers_vertexOps (hd : Machine.Delivers ops d) :
    Machine.Delivers (ops.flatMap vertexOps) (d.flatMap vertexOps) := by
  intro o
  simp only [List.mem_flatMap]
  exact exists_congr fun o' => and_congr_left fun _ => hd o'

theorem positive_vertexOps (h : ∀ o ∈ ops, 0 < o.stamp) : Positive (ops.flatMap vertexOps) where
  add k s hs := by
    obtain ⟨o, ho, -, rfl⟩ := add_mem_flatMap.mp hs
    exact h o ho
  nonneg o ho := by
    cases o with
    | add k s =>
      obtain ⟨b, hb, -, rfl⟩ := add_mem_flatMap.mp ho
      exact (h b hb).le
    | remove k r =>
      obtain ⟨b, hb, rfl | ⟨rfl, -⟩⟩ := remove_mem_flatMap.mp ho
      · exact (h _ hb).le
      · exact le_rfl
    | clear c => exact (h _ (clear_mem_flatMap.mp ho)).le

omit [LinearOrder U] in
/-- What names a vertex in the translation adds or removes it, unless its stamp is the least one. -/
theorem decides_of_names {o' : Op Key U} (h : o' ∈ ops.flatMap vertexOps) (hk : Names k o') :
    (∃ o ∈ ops, Decides k o ∧ o.stamp = o'.stamp) ∨ o'.stamp = 0 := by
  rcases hk with ⟨s, rfl⟩ | ⟨s, rfl⟩
  · obtain ⟨o, ho, htouch, hs⟩ := add_mem_flatMap.mp h
    exact Or.inl ⟨o, ho, Or.inl htouch, hs⟩
  · obtain ⟨o, ho, rfl | ⟨rfl, -⟩⟩ := remove_mem_flatMap.mp h
    · exact Or.inl ⟨_, ho, Or.inr ⟨s, rfl⟩, rfl⟩
    · exact Or.inr rfl

omit [LinearOrder U] in
theorem exists_names_of_decides {o : GraphOp Key U} (ho : o ∈ ops) (hk : Decides k o) :
    ∃ o' ∈ ops.flatMap vertexOps, Names k o' ∧ o'.stamp = o.stamp := by
  rcases hk with htouch | ⟨s, rfl⟩
  · exact ⟨.add k o.stamp, add_mem_flatMap.mpr ⟨o, ho, htouch, rfl⟩, Or.inl ⟨_, rfl⟩, rfl⟩
  · exact ⟨.remove k s, remove_mem_flatMap.mpr ⟨_, ho, Or.inl rfl⟩, Or.inr ⟨s, rfl⟩, rfl⟩

omit [LinearOrder U] in
theorem saysOnce_vertexOps [DecidableEq Key] (k : Key) (o : GraphOp Key U) :
    Cells.SaysOnce k (vertexOps o) := by
  intro a ha b hb hka hkb
  cases o <;> grind [vertexOps, Cells.concerns]

theorem newest_translated_iff (h : ∀ o ∈ ops, 0 < o.stamp) {s : U} :
    Newest Op.stamp (Names k) (ops.flatMap vertexOps) (.add k s) ↔
      ∃ o, Newest GraphOp.stamp (Decides k) ops o ∧ Touches k o ∧ o.stamp = s := by
  constructor
  · intro hs
    obtain ⟨o, ho, htouch, rfl⟩ := add_mem_flatMap.mp hs.1
    refine ⟨o, ⟨ho, Or.inl htouch, fun b hb hk => ?_⟩, htouch, rfl⟩
    obtain ⟨b', hb', hname, hst⟩ := exists_names_of_decides hb hk
    exact hst ▸ hs.2.2 b' hb' hname
  · rintro ⟨o, ⟨ho, -, hmax⟩, htouch, rfl⟩
    refine ⟨add_mem_flatMap.mpr ⟨o, ho, htouch, rfl⟩, Or.inl ⟨_, rfl⟩, fun b' hb' hname => ?_⟩
    rcases decides_of_names hb' hname with ⟨b, hb, hk, hst⟩ | hst
    · exact hst ▸ hmax b hb hk
    · exact hst ▸ (h o ho).le

theorem mayShow_translated_iff (h : ∀ o ∈ ops, 0 < o.stamp) :
    MayShow (ops.flatMap vertexOps) k ↔ MayShowVertex ops k := by
  simp only [MayShow, MayShowVertex, newest_translated_iff h, clear_mem_flatMap, remove_mem_flatMap]
  constructor
  · rintro ⟨s, ⟨o, ho, htouch, rfl⟩, hor⟩
    exact ⟨o, ho, htouch, hor⟩
  · rintro ⟨o, ho, htouch, hor⟩
    exact ⟨o.stamp, ⟨o, ho, htouch, rfl⟩, hor⟩

theorem remove_mem_flatMap_of_pos {s : U} (hs : 0 < s) :
    .remove k s ∈ ops.flatMap vertexOps ↔ .removeVertex k s ∈ ops := by
  rw [remove_mem_flatMap]
  constructor
  · rintro ⟨b, hb, rfl | ⟨h0, -⟩⟩
    · exact hb
    · exact absurd h0 hs.ne'
  · exact fun hr => ⟨_, hr, Or.inl rfl⟩

theorem stamp_lt_translated_iff {c : U} (hc : 0 < c) :
    (∀ o ∈ ops.flatMap vertexOps, Names k o → o.stamp < c) ↔
      ∀ o ∈ ops, Decides k o → o.stamp < c := by
  constructor
  · intro hlt o ho hk
    obtain ⟨o', ho', hname, hs⟩ := exists_names_of_decides ho hk
    exact hs ▸ hlt o' ho' hname
  · intro hlt o' ho' hname
    rcases decides_of_names ho' hname with ⟨b, hb, hk, hs⟩ | hs
    · exact hs ▸ hlt b hb hk
    · exact hs ▸ hc

theorem entryDiverges_translated_iff (h : ∀ o ∈ ops, 0 < o.stamp) :
    EntryDiverges (ops.flatMap vertexOps) k ↔ VertexDiverges ops k := by
  simp only [EntryDiverges, VertexDiverges, newest_translated_iff h, clear_mem_flatMap]
  refine or_congr ⟨?_, ?_⟩ (and_congr ?_ ?_)
  · rintro ⟨s, ⟨o, ho, htouch, rfl⟩, hc, hrival⟩
    exact ⟨o, ho, htouch, hc, hrival.imp_left (remove_mem_flatMap_of_pos (h o ho.1)).mp⟩
  · rintro ⟨o, ho, htouch, hc, hrival⟩
    exact ⟨o.stamp, ⟨o, ho, htouch, rfl⟩, hc,
      hrival.imp_left (remove_mem_flatMap_of_pos (h o ho.1)).mpr⟩
  · exact exists_congr fun r => remove_mem_flatMap
  · exact exists_congr fun c => and_congr_right fun hc => stamp_lt_translated_iff (h _ hc)

theorem lastWins_translated_iff (h : ∀ o ∈ ops, 0 < o.stamp) :
    LastWins Op.stamp (Adds k) (Kills k) (ops.flatMap vertexOps) ↔
      LastWins GraphOp.stamp (Touches k) (KillsVertex k) ops := by
  constructor
  · rintro ⟨_, ha, ⟨s, rfl⟩, hmax⟩
    obtain ⟨o, ho, htouch, rfl⟩ := add_mem_flatMap.mp ha
    refine ⟨o, ho, htouch, ?_⟩
    rintro _ hb (⟨r, rfl⟩ | ⟨c, rfl⟩)
    · exact hmax (.remove k r) (remove_mem_flatMap.mpr ⟨_, hb, Or.inl rfl⟩) (Or.inl ⟨r, rfl⟩)
    · exact hmax (.clear c) (clear_mem_flatMap.mpr hb) (Or.inr ⟨c, rfl⟩)
  · rintro ⟨o, ho, htouch, hmax⟩
    refine ⟨.add k o.stamp, add_mem_flatMap.mpr ⟨o, ho, htouch, rfl⟩, ⟨_, rfl⟩, ?_⟩
    rintro _ hmem (⟨r, rfl⟩ | ⟨c, rfl⟩)
    · obtain ⟨b, hb, rfl | ⟨rfl, -⟩⟩ := remove_mem_flatMap.mp hmem
      · exact hmax _ hb (Or.inl ⟨r, rfl⟩)
      · exact h o ho
    · exact hmax _ (clear_mem_flatMap.mp hmem) (Or.inr ⟨c, rfl⟩)

end Translation

namespace View

variable [DecidableEq Key]

/-- A delivery may start with any schedule of the translation, as far as one vertex is concerned. -/
theorem exists_delivery {p : List (Op Key U)}
    (hp : ∀ a ∈ p, a ∈ ops.flatMap vertexOps ∧ Cells.concerns k a = true) :
    ∃ d, Machine.Delivers ops d ∧ ((machine Key U).run d).adj.cell k =
      ((Cells.machine Key U).run (p ++ ops.flatMap vertexOps)).cell k := by
  simp only [adj_run]
  exact Cells.exists_delivery_translated (fun o _ => saysOnce_vertexOps k o) hp

theorem exists_vertex_live_iff (h : ∀ o ∈ ops, 0 < o.stamp) :
    (∃ d, Machine.Delivers ops d ∧ live (((machine Key U).run d).adj.cell k) = true) ↔
      MayShowVertex ops k := by
  rw [← mayShow_translated_iff h]
  constructor
  · rintro ⟨d, hd, hl⟩
    rw [adj_run] at hl
    exact (MayShow.congr (delivers_vertexOps hd) k).mp (Cells.mayShow_of_live hl)
  · intro hk
    obtain ⟨p, hp, hl⟩ := Cells.exists_schedule_live (positive_vertexOps h) hk
    obtain ⟨d, hd, hcell⟩ := exists_delivery hp
    exact ⟨d, hd, by rwa [hcell]⟩

theorem exists_vertex_dead_iff (h : ∀ o ∈ ops, 0 < o.stamp) :
    (∃ d, Machine.Delivers ops d ∧ ¬ live (((machine Key U).run d).adj.cell k) = true) ↔
      ¬ LastWins GraphOp.stamp (Touches k) (KillsVertex k) ops := by
  rw [← lastWins_translated_iff h]
  have hpos := positive_vertexOps h
  constructor
  · rintro ⟨d, hd, hdead⟩ hw
    rw [adj_run] at hdead
    have hdel := delivers_vertexOps hd
    exact hdead (Cells.live_of_lastWriter (hpos.of_delivers hdel) ((LastWins.congr hdel).mpr hw))
  · intro hw
    obtain ⟨p, hp, hdead⟩ := Cells.exists_schedule_dead hpos hw
    obtain ⟨d, hd, hcell⟩ := exists_delivery hp
    exact ⟨d, hd, by rwa [hcell]⟩

theorem same_entry_iff (h : ∀ o ∈ ops, 0 < o.stamp) :
    (∀ d d', Machine.Delivers ops d → Machine.Delivers ops d' →
      ((machine Key U).run d).adj.cell k = ((machine Key U).run d').adj.cell k) ↔
      ¬ VertexDiverges ops k := by
  rw [← entryDiverges_translated_iff h]
  constructor
  · intro hc hk
    obtain ⟨p, p', hp, hne⟩ := Cells.exists_schedules_ne (positive_vertexOps h) hk
    obtain ⟨d, hd, hcell⟩ := exists_delivery fun a ha => hp a (List.mem_append_left _ ha)
    obtain ⟨d', hd', hcell'⟩ := exists_delivery fun a ha => hp a (List.mem_append_right _ ha)
    exact hne (hcell.symm.trans ((hc d d' hd hd').trans hcell'))
  · intro hno d d' hd hd'
    rw [adj_run, adj_run]
    exact Cells.cell_eq_of_delivers (positive_vertexOps h) hno (delivers_vertexOps hd)
      (delivers_vertexOps hd')

end View

end CollabDatatypes.Graph

namespace CollabDatatypes.CmRDT.LWWGraph

open CollabDatatypes.Lib CollabDatatypes.Container CollabDatatypes.Graph

variable {Key T U : Type*} [DecidableEq Key] [LinearOrder U] [Zero U] [Inhabited T]
  {ops : List (GraphOp Key U)}

/-- **Which vertices a graph can show**, with any of the six modifiers and any positive stamps. Some
delivery shows the vertices that may show, some delivery hides a vertex whose last writer is no
addition, and all deliveries show the same vertices exactly when no vertex is of both kinds. -/
theorem vertex_outcomes (h : ∀ o ∈ ops, 0 < o.stamp) :
    (∀ k, (∃ d, Machine.Delivers ops d ∧ ((machine Key T U).run d).hasVertex k = true) ↔
      MayShowVertex ops k) ∧
    (∀ k, (∃ d, Machine.Delivers ops d ∧ ((machine Key T U).run d).hasVertex k = false) ↔
      ¬ LastWins GraphOp.stamp (Touches k) (KillsVertex k) ops) ∧
    ((machine Key T U).ConvergesOn (fun g g' => ∀ k, g.hasVertex k = g'.hasVertex k) ops ↔
      ∀ k, MayShowVertex ops k → LastWins GraphOp.stamp (Touches k) (KillsVertex k) ops) := by
  have hshow : ∀ k, (∃ d, Machine.Delivers ops d ∧ ((machine Key T U).run d).hasVertex k = true) ↔
      MayShowVertex ops k := by
    intro k
    simp only [hasVertex_run]
    exact View.exists_vertex_live_iff h
  have hhide : ∀ k, (∃ d, Machine.Delivers ops d ∧
      ((machine Key T U).run d).hasVertex k = false) ↔
      ¬ LastWins GraphOp.stamp (Touches k) (KillsVertex k) ops := by
    intro k
    simp only [hasVertex_run, ← Bool.not_eq_true]
    exact View.exists_vertex_dead_iff h
  refine ⟨hshow, hhide, ?_⟩
  rw [Machine.convergesOn_iff (machine Key T U)
    (O := fun k (g : LWWGraph Key T U) => g.hasVertex k = true)
    (fun d d' => forall_congr' fun k => Bool.eq_iff_iff) ops]
  simp only [Bool.not_eq_true]
  refine forall_congr' fun k => ?_
  rw [hshow, hhide, not_and, not_not]

/-- A `remove_edge` plants its endpoint; an addition and a clear then depend on the order. -/
theorem vertex_outcomes_planted :
    (∀ k, (∃ d, Machine.Delivers [.addVertex 0 3, .removeEdge 1 0 2, .clearVertices 5] d ∧
        ((machine ℕ Unit ℕ).run d).hasVertex k = true) ↔
      MayShowVertex [GraphOp.addVertex 0 3, .removeEdge 1 0 2, .clearVertices 5] k) ∧
    (∀ k, (∃ d, Machine.Delivers [.addVertex 0 3, .removeEdge 1 0 2, .clearVertices 5] d ∧
        ((machine ℕ Unit ℕ).run d).hasVertex k = false) ↔
      ¬ LastWins GraphOp.stamp (Touches k) (KillsVertex k)
          [GraphOp.addVertex 0 3, .removeEdge 1 0 2, .clearVertices 5]) ∧
    ((machine ℕ Unit ℕ).ConvergesOn (fun g g' => ∀ k, g.hasVertex k = g'.hasVertex k)
        [.addVertex 0 3, .removeEdge 1 0 2, .clearVertices 5] ↔
      ∀ k, MayShowVertex [GraphOp.addVertex 0 3, .removeEdge 1 0 2, .clearVertices 5] k →
        LastWins GraphOp.stamp (Touches k) (KillsVertex k)
          [GraphOp.addVertex 0 3, .removeEdge 1 0 2, .clearVertices 5]) :=
  vertex_outcomes (by decide)

/-- **The entries of the vertices** after deliveries with any positive stamps agree exactly when no
vertex diverges. -/
theorem vertexEntry_converge_iff (h : ∀ o ∈ ops, 0 < o.stamp) :
    (machine Key T U).ConvergesOn (fun g g' => ∀ k, g.vertexEntry k = g'.vertexEntry k) ops ↔
      ∀ k, ¬ VertexDiverges ops k := by
  simp only [Machine.ConvergesOn, vertexEntry_eq, view_run, ← View.same_entry_iff h]
  exact ⟨fun hc k d d' hd hd' => hc d d' hd hd' k, fun hc d d' hd hd' k => hc k d d' hd hd'⟩

/-- An edge and the removal of its target with one stamp. -/
theorem vertexEntry_converge_iff_tie :
    (machine ℕ Unit ℕ).ConvergesOn (fun g g' => ∀ k, g.vertexEntry k = g'.vertexEntry k)
        [.addEdge 0 1 4, .removeVertex 1 4, .removeEdge 2 1 9] ↔
      ∀ k, ¬ VertexDiverges [GraphOp.addEdge 0 1 4, .removeVertex 1 4, .removeEdge 2 1 9] k :=
  vertexEntry_converge_iff (by decide)

end CollabDatatypes.CmRDT.LWWGraph
