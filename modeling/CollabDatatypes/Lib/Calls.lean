import Mathlib.Data.Nat.Notation
import Mathlib.Data.Set.Defs

/-! # Functions that return or call one another

The bodies of a family of functions, each of which returns a result or passes on the result of another
function of the family. A call returns if the chain of calls comes to an end; `not_returns` is the rule
for a chain that does not: functions that only call functions of the same kind. -/

namespace CollabDatatypes.Lib

/-- What the body of a function does: it returns a result, or the result of a call. -/
inductive Body (F R : Type*)
  | ret (r : R)
  | call (f : F)

variable {F R : Type*} {body : F → Body F R} {f : F} {r r' : R}

/-- The result of a call of `f`, if the chain of calls has at most `n` links. -/
def callWithin (body : F → Body F R) : ℕ → F → Option R
  | 0, _ => none
  | n + 1, f =>
    match body f with
    | .ret r => some r
    | .call g => callWithin body n g

/-- A call of `f` returns `r`. -/
def Returns (body : F → Body F R) (f : F) (r : R) : Prop := ∃ n, callWithin body n f = some r

theorem returns_iff_of_ret (h : body f = .ret r) : Returns body f r' ↔ r' = r := by
  constructor
  · rintro ⟨n, hn⟩
    cases n with
    | zero => cases hn
    | succ n =>
      rw [callWithin, h] at hn
      exact (Option.some.inj hn).symm
  · rintro rfl
    exact ⟨1, by rw [callWithin, h]⟩

/-- **A chain of calls that never leaves `S`** returns nothing. -/
theorem not_returns {S : Set F} (hS : ∀ f ∈ S, ∃ g ∈ S, body f = .call g) (hf : f ∈ S) :
    ¬ Returns body f r := by
  rintro ⟨n, hn⟩
  induction n generalizing f with
  | zero => cases hn
  | succ n ih =>
    obtain ⟨g, hg, hcall⟩ := hS f hf
    rw [callWithin, hcall] at hn
    exact ih hg hn

end CollabDatatypes.Lib
