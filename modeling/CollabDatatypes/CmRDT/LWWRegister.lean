import CollabDatatypes.Lib.Machine
import Mathlib.Order.Lattice
import Mathlib.Algebra.GroupWithZero.Nat

/-! # `LWWRegister`: the last-writer-wins register

The register keeps one value and the stamp of the update that wrote it. Its constructor leaves `_reg`
to the default constructor of `T`, and that of a built-in type sets no value: a new register holds
any value here. -/

namespace CollabDatatypes.CmRDT

open CollabDatatypes.Lib

/-- `LWWRegister`. The field `timestamp` is also what `timestamp()` returns. -/
structure LWWRegister (T U : Type*) where
  reg : T
  timestamp : U

/-- The arguments of an `update`. -/
structure Update (T U : Type*) where
  value : T
  stamp : U
  deriving DecidableEq

namespace LWWRegister

variable {T U : Type*} [LinearOrder U]

/-- A new register, `LWWRegister()`. -/
def empty [Zero U] (reg : T) : LWWRegister T U := ⟨reg, 0⟩

def query (r : LWWRegister T U) : T := r.reg

def update (r : LWWRegister T U) (value : T) (stamp : U) : LWWRegister T U × Bool :=
  if stamp > r.timestamp then (⟨value, stamp⟩, true) else (r, false)

/-- The update of a message, and its result. -/
def apply (r : LWWRegister T U) (o : Update T U) : LWWRegister T U × Bool :=
  r.update o.value o.stamp

/-- The register as a machine driven by its updates. -/
def machine (U : Type*) [LinearOrder U] [Zero U] (reg : T) :
    Machine (LWWRegister T U) (Update T U) := ⟨empty reg, fun r o => (r.apply o).1⟩

/-! ### Comparison -/

variable [BEq T]

def crdtEqual (r other : LWWRegister T U) : Bool :=
  r.reg == other.reg && decide (r.timestamp = other.timestamp)

omit [LinearOrder U] in
/-- `operator==`. -/
def beq (lhs rhs : LWWRegister T U) : Bool := lhs.reg == rhs.reg

instance : BEq (LWWRegister T U) := ⟨beq⟩

end LWWRegister

end CollabDatatypes.CmRDT
