import CollabDatatypes.Container.Registers
import CollabDatatypes.Graph.LastWriters

/-! # Graphs of registers

What holds of maps of registers holds of graphs whose vertices have registers for contents: an update
that arrives after an operation naming its vertex reaches the register, also while the vertex is
removed, and earlier ones are lost (`registers_alone`). Updates that are announced by such an
operation converge together with the graph (`registers_converge`). -/

namespace CollabDatatypes.Graph

open CollabDatatypes.Lib CollabDatatypes.CmRDT CollabDatatypes.Container

variable {Key U : Type*} [DecidableEq Key]

/-- The modifier names `k`, as a vertex or as an endpoint. -/
def mentionsKey [Zero U] (k : Key) (o : GraphOp Key U) : Bool := (vertexOps o).any (namesKey k)

variable [LinearOrder U] [Zero U]

theorem View.isSome_apply (x : View Key U) (o : GraphOp Key U) (k : Key) :
    (((x.apply o).1.adj.cell k).isSome) = ((x.adj.cell k).isSome || mentionsKey k o) := by
  have hadj : (x.apply o).1.adj = (vertexOps o).foldl (Cells.machine Key U).step x.adj := by
    cases o with
    | clearVertexEdges k s => exact x.clearVertexEdges_adj k s
    | _ => rfl
  have hfold : ∀ (l : List (Op Key U)) (y : Cells Key U),
      ((l.foldl (Cells.machine Key U).step y).cell k).isSome =
        ((y.cell k).isSome || l.any (namesKey k)) := by
    intro l
    induction l with
    | nil => simp
    | cons a l ih =>
      intro y
      have hstep : (((Cells.machine Key U).step y a).cell k).isSome =
          ((y.cell k).isSome || namesKey k a) := Cells.isSome_apply y a k
      rw [List.foldl_cons, ih, hstep, List.any_cons, Bool.or_assoc]
  rw [hadj, hfold, mentionsKey]

end CollabDatatypes.Graph

namespace CollabDatatypes.CmRDT.LWWGraph

open CollabDatatypes.Lib CollabDatatypes.Container CollabDatatypes.Graph

variable {Key V U : Type*} [DecidableEq Key] [LinearOrder U] [Zero U] [Inhabited V]

/-- An update goes through the reference that `crdt_at_vertex` returns, if it did not throw. -/
def updateVertex (g : LWWGraph Key (LWWRegister V U) U) (key : Key) (o : Update V U) :
    Except OutOfRange (LWWRegister V U) → LWWGraph Key (LWWRegister V U) U
  | .ok _ => g.writeContent key fun r => (r.apply o).1
  | .error _ => g

/-- A replica of a graph of registers. -/
def registers (Key V U : Type*) [DecidableEq Key] [LinearOrder U] [Zero U] [Inhabited V] :
    Machine (LWWGraph Key (LWWRegister V U) U) (Message (GraphOp Key U) Key V U) where
  init := empty
  step g
    | .modifier o => (g.apply o).1
    | .update key o => g.updateVertex key o (g.crdtAtVertex key)

/-- The register of `k`, a new one if there is no vertex. -/
def registerOf (g : LWWGraph Key (LWWRegister V U) U) (k : Key) : LWWRegister V U :=
  (vertexAt g.adj k).content

variable {g : LWWGraph Key (LWWRegister V U) U} {k : Key}

omit [LinearOrder U] [Inhabited V] in
theorem view_writeContent {T : Type*} (g : LWWGraph Key T U) (k : Key) (f : T → T) :
    (g.writeContent k f).view = g.view := by
  refine View.ext (LWWMap.cells_modify g.adj k _) (funext fun k' => ?_)
  show edgesOf (g.adj.modify k _) k' = edgesOf g.adj k'
  unfold edgesOf
  rw [LWWMap.valueOf_modify]
  split_ifs with hk
  · subst hk
    cases g.adj.valueOf k' <;> rfl
  · rfl

omit [Inhabited V] in
theorem view_updateVertex (key : Key) (o : Update V U) (r : Except OutOfRange (LWWRegister V U)) :
    (g.updateVertex key o r).view = g.view := by
  cases r with
  | ok _ => exact view_writeContent g key _
  | error _ => rfl

theorem view_registers (d : List (Message (GraphOp Key U) Key V U)) :
    ((registers Key V U).run d).view =
      (View.machine Key U).run (d.filterMap Message.asModifier) := by
  induction d using List.reverseRecOn with
  | nil => exact view_empty
  | append_singleton d o ih =>
    rw [Machine.run_concat, List.filterMap_append]
    cases o with
    | modifier o =>
      show _ = (View.machine Key U).run (d.filterMap Message.asModifier ++ [o])
      rw [Machine.run_concat, ← ih]
      exact (view_apply _ o).1
    | update key o =>
      show _ = (View.machine Key U).run (d.filterMap Message.asModifier ++ [])
      rw [List.append_nil, ← ih]
      exact view_updateVertex key o _

theorem counted_registers (d : List (Message (GraphOp Key U) Key V U)) :
    ((registers Key V U).run d).Counted := by
  refine Machine.run_invariant (I := Counted) _ counted_empty (fun g o hg => ?_) d
  cases o with
  | modifier o => exact counted_apply hg o
  | update key o =>
    show (g.updateVertex key o (g.crdtAtVertex key)).Counted
    cases g.crdtAtVertex key with
    | ok _ => exact hg.writeContent key fun r => (r.apply o).1
    | error _ => exact hg

/-! ### The register of a vertex -/

theorem isSome_step (o : Message (GraphOp Key U) Key V U) :
    (((registers Key V U).step g o).view.adj.cell k).isSome =
      ((g.view.adj.cell k).isSome || o.opens (mentionsKey k)) := by
  cases o with
  | modifier o =>
    show (((g.apply o).1).view.adj.cell k).isSome = ((g.view.adj.cell k).isSome || mentionsKey k o)
    rw [(view_apply g o).1, View.isSome_apply]
  | update key o =>
    have hview : ((registers Key V U).step g (.update key o)).view = g.view :=
      view_updateVertex key o _
    rw [hview]
    exact (Bool.or_false _).symm

theorem registerOf_step (o : Message (GraphOp Key U) Key V U) :
    ((registers Key V U).step g o).registerOf k = if (g.view.adj.cell k).isSome then
      (o.asUpdate k).elim (g.registerOf k) ((LWWRegister.fresh V U).step (g.registerOf k))
    else g.registerOf k := by
  cases o with
  | modifier o =>
    show (vertexAt (g.apply o).1.adj k).content = if _ then g.registerOf k else g.registerOf k
    rw [content_apply, ite_self]
    rfl
  | update key o =>
    show (vertexAt (g.updateVertex key o (g.crdtAtVertex key)).adj k).content =
      if (g.adj.cells.cell k).isSome then (if key = k then some o else none).elim _ _ else _
    rw [LWWMap.cells_cell]
    unfold crdtAtVertex LWWMap.crdtAt registerOf
    rcases eq_or_ne key k with rfl | hk
    · cases he : g.adj.map.lookup key with
      | none => rfl
      | some elt =>
        have hv : g.adj.valueOf key = some elt.value := by rw [LWWMap.valueOf, he]; rfl
        show (vertexAt (g.adj.modify key _) key).content = _
        rw [vertexAt_eq_getD, vertexAt_eq_getD, LWWMap.valueOf_modify, if_pos rfl, hv]
        simp [LWWRegister.fresh, LWWRegister.machine]
    · rw [if_neg hk]
      have hsame : ∀ r, (vertexAt (g.updateVertex key o r).adj k).content =
          (vertexAt g.adj k).content := by
        intro r
        cases r with
        | ok _ =>
          show (vertexAt (g.adj.modify key _) k).content = _
          rw [vertexAt_eq_getD, vertexAt_eq_getD, LWWMap.valueOf_modify, if_neg hk.symm]
        | error _ => rfl
      rw [hsame, Option.elim_none, ite_self]

/-- **The register of a vertex** received the updates since a modifier first named the vertex. -/
theorem graph_register_run (d : List (Message (GraphOp Key U) Key V U)) (k : Key) :
    (((registers Key V U).run d).view.adj.cell k).isSome = d.any (Message.opens (mentionsKey k)) ∧
      ((registers Key V U).run d).registerOf k = (LWWRegister.fresh V U).run
        (sinceOpened (Message.opens (mentionsKey k)) (Message.asUpdate k) d) :=
  run_sinceOpened (f := fun g => registerOf g k)
    (e := fun g : LWWGraph Key (LWWRegister V U) U => (g.view.adj.cell k).isSome)
    (Message.asUpdate_of_opens k) rfl rfl (fun _ o => isSome_step o) (fun _ o => registerOf_step o) d

omit [LinearOrder U] in
theorem crdtAtVertex_eq (g : LWWGraph Key (LWWRegister V U) U) (k : Key) :
    g.crdtAtVertex k = if (g.view.adj.cell k).isSome then .ok (g.registerOf k)
      else .error noElement := by
  show (g.adj.crdtAt k).map _ = if (g.adj.cells.cell k).isSome then _ else _
  rw [LWWMap.cells_cell]
  unfold LWWMap.crdtAt registerOf
  rw [vertexAt_eq_getD, LWWMap.valueOf]
  cases g.adj.map.lookup k <;> rfl

/-! ### Replicas -/

variable {ops d d' : List (Message (GraphOp Key U) Key V U)}

theorem hasVertex_registers (d : List (Message (GraphOp Key U) Key V U)) (k : Key) :
    ((registers Key V U).run d).hasVertex k =
      ((machine Key V U).run (d.filterMap Message.asModifier)).hasVertex k := by
  rw [hasVertex_eq, hasVertex_eq, view_registers, view_run]

theorem hasEdge_registers (d : List (Message (GraphOp Key U) Key V U)) (u v : Key) :
    ((registers Key V U).run d).hasEdge u v =
      ((machine Key V U).run (d.filterMap Message.asModifier)).hasEdge u v := by
  rw [hasEdge_eq, hasEdge_eq, view_registers, view_run]

theorem registerOf_of_announced
    (h : Announced (Message.opens (mentionsKey k)) (Message.asUpdate k) d) :
    ((registers Key V U).run d).registerOf k =
      (LWWRegister.fresh V U).run (d.filterMap (Message.asUpdate k)) := by
  rw [(graph_register_run d k).2, sinceOpened_of_announced (Message.asUpdate_of_opens k) h]

theorem graph_registers_converge [BEq V] [ReflBEq V]
    (hm : Stamped GraphOp.stamp (ops.filterMap Message.asModifier))
    (hn : NoClear (ops.filterMap Message.asModifier))
    (hno : ∀ u v, ¬ EdgeDiverges (ops.filterMap Message.asModifier) u v)
    (hu : ∀ k, Stamped Update.stamp (ops.filterMap (Message.asUpdate k)))
    (hd : Machine.Delivers ops d) (hd' : Machine.Delivers ops d')
    (h : ∀ k, Announced (Message.opens (mentionsKey k)) (Message.asUpdate k) d)
    (h' : ∀ k, Announced (Message.opens (mentionsKey k)) (Message.asUpdate k) d') :
    ((registers Key V U).run d == (registers Key V U).run d') = true ∧
      ∀ k a, Newest Update.stamp (fun _ => True) (ops.filterMap (Message.asUpdate k)) a →
        ((registers Key V U).run d).crdtAtVertex k = .ok ⟨a.value, a.stamp⟩ := by
  have hreg : ∀ k, ((registers Key V U).run d).registerOf k =
      ((registers Key V U).run d').registerOf k := by
    intro k
    rw [registerOf_of_announced (h k), registerOf_of_announced (h' k)]
    exact LWWRegister.run_congr (hu k) (delivers_filterMap hd _) (delivers_filterMap hd' _) default
  have hw := isLastWriters_of_delivers (T := V) hm hn (delivers_filterMap hd _) hno
  have hw' := isLastWriters_of_delivers (T := V) hm hn (delivers_filterMap hd' _) hno
  refine ⟨(beq_iff (counted_registers d) (counted_registers d')).mpr
    ⟨fun k => ?_, fun u v => ?_, fun k x x' hx hx' => ?_⟩, fun k a ha => ?_⟩
  · rw [hasVertex_registers, hasVertex_registers]
    exact Bool.eq_iff_iff.mpr ((hw.vertex k).trans (hw'.vertex k).symm)
  · rw [hasEdge_registers, hasEdge_registers]
    exact Bool.eq_iff_iff.mpr ((hw.edge u v).trans (hw'.edge u v).symm)
  · have hk := hreg k
    unfold registerOf at hk
    rw [vertexAt_of_valueOf (LWWMap.valueOf_of_visible hx),
      vertexAt_of_valueOf (LWWMap.valueOf_of_visible hx')] at hk
    rw [hk]
    exact ⟨LWWRegister.beq_self _, LWWRegister.beq_self _⟩
  · rw [crdtAtVertex_eq, (graph_register_run d k).1,
      if_pos (Message.any_opens_of_update (h k) (delivers_filterMap hd _) ha.1),
      registerOf_of_announced (h k)]
    exact congrArg Except.ok (LWWRegister.run_of_delivers (hu k) ha (delivers_filterMap hd _) default)

end CollabDatatypes.CmRDT.LWWGraph

namespace CollabDatatypes.Container

open CollabDatatypes.Lib CollabDatatypes.CmRDT CollabDatatypes.Graph

variable {Key V U : Type*} [DecidableEq Key] [LinearOrder U] [Zero U] [Inhabited V]

/-- **Containers of registers converge** as far as their keys, vertices and edges do, if every update
comes after a modifier that names its key: replicas that received the same modifiers and updates are
equal, and the lookup finds the newest update. -/
theorem registers_converge [BEq V] [ReflBEq V] :
    (∀ ops d d' : List (Message (Op Key U) Key V U),
      (∀ o ∈ ops.filterMap Message.asModifier, 0 < o.stamp) →
      (∀ k, MayShow (ops.filterMap Message.asModifier) k →
        LastWins Op.stamp (Adds k) (Kills k) (ops.filterMap Message.asModifier)) →
      (∀ k, Stamped Update.stamp (ops.filterMap (Message.asUpdate k))) →
      Machine.Delivers ops d → Machine.Delivers ops d' →
      (∀ k, Announced (Message.opens (namesKey k)) (Message.asUpdate k) d) →
      (∀ k, Announced (Message.opens (namesKey k)) (Message.asUpdate k) d') →
      ((LWWMap.registers Key V U).run d == (LWWMap.registers Key V U).run d') = true ∧
        ∀ k a, Newest Update.stamp (fun _ => True) (ops.filterMap (Message.asUpdate k)) a →
          ((LWWMap.registers Key V U).run d).crdtAt k = .ok ⟨a.value, a.stamp⟩) ∧
    ∀ ops d d' : List (Message (GraphOp Key U) Key V U),
      Stamped GraphOp.stamp (ops.filterMap Message.asModifier) →
      NoClear (ops.filterMap Message.asModifier) →
      (∀ u v, ¬ EdgeDiverges (ops.filterMap Message.asModifier) u v) →
      (∀ k, Stamped Update.stamp (ops.filterMap (Message.asUpdate k))) →
      Machine.Delivers ops d → Machine.Delivers ops d' →
      (∀ k, Announced (Message.opens (mentionsKey k)) (Message.asUpdate k) d) →
      (∀ k, Announced (Message.opens (mentionsKey k)) (Message.asUpdate k) d') →
      ((LWWGraph.registers Key V U).run d == (LWWGraph.registers Key V U).run d') = true ∧
        ∀ k a, Newest Update.stamp (fun _ => True) (ops.filterMap (Message.asUpdate k)) a →
          ((LWWGraph.registers Key V U).run d).crdtAtVertex k = .ok ⟨a.value, a.stamp⟩ :=
  ⟨fun _ _ _ hm hno hu hd hd' h h' => LWWMap.map_registers_converge hm hno hu hd hd' h h',
    fun _ _ _ hm hn hno hu hd hd' h h' =>
      LWWGraph.graph_registers_converge hm hn hno hu hd hd' h h'⟩

/-- Updates of a removed key, and of an endpoint, in two orders. -/
theorem registers_converge_swapped :
    (((LWWMap.registers (Fin 2) ℕ ℕ).run
        [.modifier (.add 0 1), .update 0 ⟨10, 2⟩, .modifier (.remove 0 3), .update 0 ⟨20, 4⟩] ==
      (LWWMap.registers (Fin 2) ℕ ℕ).run
        [.modifier (.remove 0 3), .update 0 ⟨20, 4⟩, .modifier (.add 0 1), .update 0 ⟨10, 2⟩]) =
          true ∧
      ∀ k a, Newest Update.stamp (fun _ => True) ([Message.modifier (Op.add (0 : Fin 2) 1),
        .update 0 ⟨10, 2⟩, .modifier (.remove 0 3), .update 0 ⟨20, 4⟩].filterMap
          (Message.asUpdate k)) a →
        ((LWWMap.registers (Fin 2) ℕ ℕ).run [.modifier (.add 0 1), .update 0 ⟨10, 2⟩,
          .modifier (.remove 0 3), .update 0 ⟨20, 4⟩]).crdtAt k = .ok ⟨a.value, a.stamp⟩) ∧
    (((LWWGraph.registers (Fin 2) ℕ ℕ).run
        [.modifier (.addEdge 0 1 1), .update 1 ⟨10, 2⟩, .update 1 ⟨20, 3⟩] ==
      (LWWGraph.registers (Fin 2) ℕ ℕ).run
        [.modifier (.addEdge 0 1 1), .update 1 ⟨20, 3⟩, .update 1 ⟨10, 2⟩]) = true ∧
      ∀ k a, Newest Update.stamp (fun _ => True) ([Message.modifier (GraphOp.addEdge (0 : Fin 2) 1 1),
        .update 1 ⟨10, 2⟩, .update 1 ⟨20, 3⟩].filterMap (Message.asUpdate k)) a →
        ((LWWGraph.registers (Fin 2) ℕ ℕ).run [.modifier (.addEdge 0 1 1), .update 1 ⟨10, 2⟩,
          .update 1 ⟨20, 3⟩]).crdtAtVertex k = .ok ⟨a.value, a.stamp⟩) := by
  refine ⟨registers_converge.1 _ _ _ (by decide) ?_ (by decide) (by decide) (by decide)
    (by decide) (by decide), registers_converge.2 _ _ _ (by decide) (by decide) ?_ (by decide)
    (by decide) (by decide) (by decide) (by decide)⟩
  · rintro k ⟨s, ⟨hs, -, hmax⟩, -⟩
    obtain ⟨rfl, rfl⟩ : k = 0 ∧ s = 1 := by simpa [Message.asModifier] using hs
    exact absurd (hmax (.remove 0 3) (by decide) (Or.inr ⟨3, rfl⟩)) (by decide)
  · rintro u v ⟨e, -, ⟨-, k, -, -, r, -, -, -, hr, -⟩ | ⟨⟨k, r, -, hr, -⟩, -⟩⟩
    · simp [Message.asModifier] at hr
    · simp [Message.asModifier] at hr

end CollabDatatypes.Container
