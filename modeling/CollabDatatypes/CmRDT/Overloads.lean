import CollabDatatypes.CmRDT.LWWGraph
import CollabDatatypes.Lib.Calls

/-! # The lookups for `const` objects

`at`, `crdt_at`, `at_vertex` and `crdt_at_vertex` come in two overloads, for a `const` object and for
one that is not. The `const` overload is written as a call of the lookup of the same name through
`this`. In a `const` member function `this` points to a `const` object, so that the call resolves to
the `const` overload again: no call of it returns. The other overload finds the element, or throws
(`const_lookups_diverge`). -/

namespace CollabDatatypes.CmRDT

open CollabDatatypes.Lib

/-- The overloads of a lookup. -/
inductive Overload
  | nonConst
  | const
  deriving DecidableEq

/-- The overload that a call through `this` resolves to: `this` is as `const` as the member function
around the call. -/
def Overload.resolve : Overload → Overload
  | nonConst => nonConst
  | const => const

variable {Key T U : Type*} [DecidableEq Key]

def LWWMap.atBody (m : LWWMap Key T U) (key : Key) : Overload → Body Overload (Except OutOfRange T)
  | .nonConst => .ret (m.atKey key)
  | .const => .call (Overload.resolve .const)

def LWWMap.crdtAtBody (m : LWWMap Key T U) (key : Key) :
    Overload → Body Overload (Except OutOfRange T)
  | .nonConst => .ret (m.crdtAt key)
  | .const => .call (Overload.resolve .const)

def LWWGraph.atVertexBody (g : LWWGraph Key T U) (key : Key) :
    Overload → Body Overload (Except OutOfRange T)
  | .nonConst => .ret (g.atVertex key)
  | .const => .call (Overload.resolve .const)

def LWWGraph.crdtAtVertexBody (g : LWWGraph Key T U) (key : Key) :
    Overload → Body Overload (Except OutOfRange T)
  | .nonConst => .ret (g.crdtAtVertex key)
  | .const => .call (Overload.resolve .const)

/-- A call of the `const` overload returns, what the other one returns. -/
def ConstAgrees {R : Type*} (body : Overload → Body Overload R) : Prop :=
  ∃ r, Returns body .const r ∧ Returns body .nonConst r

/-! ### The overload that is not `const` -/

/-- The element of a key, or the exception. -/
def valueOrThrow (elt : Option (Element T U)) : Except OutOfRange T :=
  match elt with
  | some elt => .ok elt.value
  | none => .error noElement

theorem LWWMap.atKey_eq (m : LWWMap Key T U) (key : Key) :
    m.atKey key = valueOrThrow (m.find key) := by
  unfold LWWMap.atKey LWWMap.find
  cases m.map.lookup key with
  | none => rfl
  | some elt => cases h : elt.isRemoved <;> simp [valueOrThrow, h]

theorem LWWMap.crdtAt_eq (m : LWWMap Key T U) (key : Key) :
    m.crdtAt key = valueOrThrow (m.crdtFind key) := by
  unfold LWWMap.crdtAt LWWMap.crdtFind
  cases m.map.lookup key <;> rfl

/-! ### The `const` overload -/

theorem not_returns_const {R : Type*} {body : Overload → Body Overload R}
    (h : body .const = .call (Overload.resolve .const)) (r : R) : ¬ Returns body .const r := by
  refine not_returns (S := {Overload.const}) ?_ rfl
  rintro _ rfl
  exact ⟨_, rfl, h⟩

theorem not_constAgrees {R : Type*} {body : Overload → Body Overload R}
    (h : body .const = .call (Overload.resolve .const)) : ¬ ConstAgrees body := by
  rintro ⟨r, hr, -⟩
  exact not_returns_const h r hr

/-- **A lookup whose `const` overload calls itself**: the other overload returns its result, the `const`
one returns nothing, so that the two do not agree. -/
theorem const_diverges {R : Type*} {body : Overload → Body Overload R} {r' : R}
    (hn : body .nonConst = .ret r') (hc : body .const = .call (Overload.resolve .const)) :
    ¬ ConstAgrees body ∧ ∀ r, ¬ Returns body .const r ∧ (Returns body .nonConst r ↔ r = r') :=
  ⟨not_constAgrees hc, fun r => ⟨not_returns_const hc r, returns_iff_of_ret hn⟩⟩

/-- **No `const` lookup agrees with the other one**: on no map, graph or key does it return. The lookup
that is not `const` returns the value, or throws when the key is absent; `at` and `at_vertex` also when
it is marked removed. -/
theorem const_lookups_diverge (m : LWWMap Key T U) (g : LWWGraph Key T U) (key : Key) :
    (¬ ConstAgrees (m.atBody key) ∧ ∀ r, ¬ Returns (m.atBody key) .const r ∧
      (Returns (m.atBody key) .nonConst r ↔ r = valueOrThrow (m.find key))) ∧
    (¬ ConstAgrees (m.crdtAtBody key) ∧ ∀ r, ¬ Returns (m.crdtAtBody key) .const r ∧
      (Returns (m.crdtAtBody key) .nonConst r ↔ r = valueOrThrow (m.crdtFind key))) ∧
    (¬ ConstAgrees (g.atVertexBody key) ∧ ∀ r, ¬ Returns (g.atVertexBody key) .const r ∧
      (Returns (g.atVertexBody key) .nonConst r ↔
        r = (valueOrThrow (g.adj.find key)).map Vertex.content)) ∧
    (¬ ConstAgrees (g.crdtAtVertexBody key) ∧ ∀ r, ¬ Returns (g.crdtAtVertexBody key) .const r ∧
      (Returns (g.crdtAtVertexBody key) .nonConst r ↔
        r = (valueOrThrow (g.adj.crdtFind key)).map Vertex.content)) := by
  refine ⟨?_, ?_, ?_, ?_⟩
  · rw [← LWWMap.atKey_eq]
    exact const_diverges rfl rfl
  · rw [← LWWMap.crdtAt_eq]
    exact const_diverges rfl rfl
  · rw [← LWWMap.atKey_eq]
    exact const_diverges rfl rfl
  · rw [← LWWMap.crdtAt_eq]
    exact const_diverges rfl rfl

/-- A map with the key 0: `at` returns its value, and does not when the map is `const`. -/
theorem const_at_diverges :
    Returns (((LWWMap.machine ℕ ℕ ℕ).run [.add 0 3]).atBody 0) .nonConst (.ok 0) ∧
    ¬ ConstAgrees (((LWWMap.machine ℕ ℕ ℕ).run [.add 0 3]).atBody 0) :=
  ⟨⟨1, rfl⟩, not_constAgrees rfl⟩

end CollabDatatypes.CmRDT
