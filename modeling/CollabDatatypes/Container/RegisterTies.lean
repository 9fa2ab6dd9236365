import CollabDatatypes.Lib.FirstNewest
import CollabDatatypes.Container.Register

/-! # What equal stamps cost a register

The source asks for unique timestamps. Of updates with equal stamps a register keeps the one delivered
first (`run_firstNewest`), so deliveries of a collection end in equal registers exactly when all its
newest updates have equal values (`register_ties_exact`). -/

namespace CollabDatatypes.CmRDT.LWWRegister

open CollabDatatypes.Lib

variable {T U : Type*} [LinearOrder U] [Zero U] {ops d : List (Update T U)} {a : Update T U}

/-- **Of the newest updates the first one stays.** -/
theorem run_firstNewest (reg : T) (hp : ∀ o ∈ d, 0 < o.stamp)
    (ha : FirstNewest Update.stamp (fun _ => True) d a) :
    (machine U reg).run d = ⟨a.value, a.stamp⟩ := by
  induction d using List.reverseRecOn generalizing a with
  | nil => exact absurd ha.newest.1 List.not_mem_nil
  | append_singleton d o ih =>
    have hp' : ∀ o' ∈ d, 0 < o'.stamp := fun o' ho' => hp o' (List.mem_append_left _ ho')
    rw [Machine.run_concat]
    show (((machine U reg).run d).apply o).1 = _
    rcases firstNewest_concat.mp ha with ⟨rfl, -, hnew⟩ | ⟨ha', hold⟩
    · have hlt : ((machine U reg).run d).timestamp < a.stamp :=
        (timestamp_run_lt reg d a.stamp).mpr ⟨hp a (by simp), fun o ho => hnew o ho trivial⟩
      rcases ((machine U reg).run d).apply_cases a with ⟨-, he⟩ | ⟨hle, -⟩
      · rw [he]
      · exact absurd hlt hle.not_gt
    · rw [ih hp' ha']
      rcases (LWWRegister.mk a.value a.stamp).apply_cases o with ⟨hlt, -⟩ | ⟨-, he⟩
      · exact absurd hlt (hold trivial).not_gt
      · rw [he]

/-- **Equal stamps in a register**: deliveries of some updates end in the same register, by
`operator==` and also by `crdt_equal`, exactly when all the newest updates have equal values. -/
theorem register_ties_exact [BEq T] (reg : T) (hne : ops ≠ []) (hp : ∀ o ∈ ops, 0 < o.stamp) :
    ((machine U reg).ConvergesOn (fun r r' => r.crdtEqual r' = true) ops ↔
      ∀ a b, Newest Update.stamp (fun _ => True) ops a →
        Newest Update.stamp (fun _ => True) ops b → (a.value == b.value) = true) ∧
    ((machine U reg).ConvergesOn (fun r r' => (r == r') = true) ops ↔
      ∀ a b, Newest Update.stamp (fun _ => True) ops a →
        Newest Update.stamp (fun _ => True) ops b → (a.value == b.value) = true) := by
  have hpos : ∀ {d}, Machine.Delivers ops d → ∀ o ∈ d, 0 < o.stamp := fun hd o ho =>
    hp o ((hd o).mp ho)
  have hvalues : (machine U reg).ConvergesOn (fun r r' => (r == r') = true) ops →
      ∀ a b, Newest Update.stamp (fun _ => True) ops a →
        Newest Update.stamp (fun _ => True) ops b → (a.value == b.value) = true := by
    intro hc a b ha hb
    obtain ⟨hd, hfirst⟩ := ha.first
    obtain ⟨hd', hfirst'⟩ := hb.first
    have heq := hc _ _ hd hd'
    rw [run_firstNewest reg (hpos hd) hfirst, run_firstNewest reg (hpos hd') hfirst'] at heq
    exact heq
  have hequal : (∀ a b, Newest Update.stamp (fun _ => True) ops a →
        Newest Update.stamp (fun _ => True) ops b → (a.value == b.value) = true) →
      (machine U reg).ConvergesOn (fun r r' => r.crdtEqual r' = true) ops := by
    intro hv d d' hd hd'
    have hsome : ∀ {d}, Machine.Delivers ops d →
        ∃ a, FirstNewest Update.stamp (fun _ => True) d a := by
      intro d hd
      obtain ⟨o, ho⟩ := List.exists_mem_of_ne_nil ops hne
      exact exists_firstNewest Update.stamp ⟨o, (hd o).mpr ho, trivial⟩
    obtain ⟨a, ha⟩ := hsome hd
    obtain ⟨b, hb⟩ := hsome hd'
    have hna := (Newest.of_delivers hd).mp ha.newest
    have hnb := (Newest.of_delivers hd').mp hb.newest
    rw [run_firstNewest reg (hpos hd) ha, run_firstNewest reg (hpos hd') hb]
    exact crdtEqual_iff.mpr ⟨hv a b hna hnb, hna.stamp_eq hnb⟩
  have hweak : (machine U reg).ConvergesOn (fun r r' => r.crdtEqual r' = true) ops →
      (machine U reg).ConvergesOn (fun r r' => (r == r') = true) ops := fun hc d d' hd hd' =>
    (crdtEqual_iff.mp (hc d d' hd hd')).1
  exact ⟨⟨fun hc => hvalues (hweak hc), hequal⟩, hvalues, fun hv => hweak (hequal hv)⟩

theorem register_ties_exact_two :
    ((machine ℕ 0).ConvergesOn (fun r r' => r.crdtEqual r' = true) [⟨10, 2⟩, ⟨20, 2⟩, ⟨30, 1⟩] ↔
      ∀ a b, Newest Update.stamp (fun _ => True) [⟨10, 2⟩, ⟨20, 2⟩, ⟨30, 1⟩] a →
        Newest Update.stamp (fun _ => True) [⟨10, 2⟩, ⟨20, 2⟩, (⟨30, 1⟩ : Update ℕ ℕ)] b →
          (a.value == b.value) = true) ∧
    ((machine ℕ 0).ConvergesOn (fun r r' => (r == r') = true) [⟨10, 2⟩, ⟨20, 2⟩, ⟨30, 1⟩] ↔
      ∀ a b, Newest Update.stamp (fun _ => True) [⟨10, 2⟩, ⟨20, 2⟩, ⟨30, 1⟩] a →
        Newest Update.stamp (fun _ => True) [⟨10, 2⟩, ⟨20, 2⟩, (⟨30, 1⟩ : Update ℕ ℕ)] b →
          (a.value == b.value) = true) :=
  register_ties_exact 0 (by decide) (by decide)

end CollabDatatypes.CmRDT.LWWRegister
