import CollabDatatypes.Lib.UnorderedMap
import CollabDatatypes.Lib.Machine
import Mathlib.Order.Lattice
import Mathlib.Algebra.GroupWithZero.Nat

/-! # `LWWSet`: the last-writer-wins set

The set keeps, for every key that was ever named, the stamp of the last operation that took effect
on it and a removed flag, and besides them the number of keys that are alive and the stamp of the
last `clear`. The stamps are a linear order `U` with a constant `0`, the `U{0}` of the source; it is
nowhere assumed to be the least stamp.

A modifier returns the new set and the boolean the method returns. -/

namespace CollabDatatypes.CmRDT

open CollabDatatypes.Lib

/-- `--n` on a `size_type`, which wraps below zero. (`++n` does not wrap: a container of `2 ^ 64`
elements does not fit in memory.) -/
def decr : ℕ → ℕ
  | 0 => 2 ^ 64 - 1
  | n + 1 => n

/-- The modifiers of a set or of a map. -/
inductive Op (Key U : Type*)
  | add (key : Key) (stamp : U)
  | remove (key : Key) (stamp : U)
  | clear (stamp : U)
  deriving DecidableEq

/-- The timestamp of a modifier. -/
def Op.stamp {Key U : Type*} : Op Key U → U
  | add _ s => s
  | remove _ s => s
  | clear s => s

/-- `LWWSet::Metadata`: the CRDT state of a key. -/
structure Metadata (U : Type*) where
  timestamp : U
  isRemoved : Bool
  deriving DecidableEq

namespace Metadata

variable {U : Type*} [DecidableEq U]

/-- `operator==` of `Metadata`. -/
def beq (rhs lhs : Metadata U) : Bool :=
  decide (rhs.timestamp = lhs.timestamp) && rhs.isRemoved == lhs.isRemoved

theorem beq_iff {a b : Metadata U} : a.beq b = true ↔ a = b := by
  cases a; cases b; simp [beq]

end Metadata

/-- `LWWSet`. -/
structure LWWSet (Key U : Type*) where
  map : UnorderedMap Key (Metadata U)
  sizeAlive : ℕ
  lastClearTime : U

namespace LWWSet

variable {Key U : Type*} [DecidableEq Key] [LinearOrder U] [Zero U]

/-- The empty set, `LWWSet()`. -/
def empty : LWWSet Key U := ⟨∅, 0, 0⟩

/-! ### Capacity and lookup -/

/-- `empty()`; the name is that of the empty set here. -/
def isEmpty (s : LWWSet Key U) : Bool := s.sizeAlive == 0

def size (s : LWWSet Key U) : ℕ := s.sizeAlive

def crdtSize (s : LWWSet Key U) : ℕ := s.map.entries.length

/-- The entry `find` points to, `none` for `end()`. -/
def find (s : LWWSet Key U) (key : Key) : Option (Metadata U) :=
  match s.map.lookup key with
  | some elt => if !elt.isRemoved then some elt else none
  | none => none

/-- The entry `crdt_find` points to, `none` for `crdt_end()`. -/
def crdtFind (s : LWWSet Key U) (key : Key) : Option (Metadata U) := s.map.lookup key

def count (s : LWWSet Key U) (key : Key) : ℕ := if (s.find key).isSome then 1 else 0

def crdtCount (s : LWWSet Key U) (key : Key) : ℕ := if (s.map.lookup key).isSome then 1 else 0

/-- The keys `for (const auto& elt : *this)` visits: the iterators skip the removed entries. -/
def keys (s : LWWSet Key U) : List Key := s.map.keysWhere fun elt => !elt.isRemoved

/-! ### Modifiers -/

/-- The body of the loop of `clear`. -/
def clearElt (stamp : U) (sizeAlive : ℕ) (elt : Metadata U) : ℕ × Metadata U :=
  if stamp > elt.timestamp then
    if elt.isRemoved = false then (decr sizeAlive, ⟨stamp, true⟩)
    else (sizeAlive, { elt with timestamp := stamp })
  else (sizeAlive, elt)

def clear (s : LWWSet Key U) (stamp : U) : LWWSet Key U × Bool :=
  if stamp > s.lastClearTime then
    let r := s.map.loop (clearElt stamp) s.sizeAlive
    (⟨r.2, r.1, stamp⟩, true)
  else (s, false)

def add (s : LWWSet Key U) (key : Key) (stamp : U) : LWWSet Key U × Bool :=
  match s.map.lookup key with
  | some elt =>
    -- the insertion found the key
    if stamp > elt.timestamp then
      if elt.isRemoved then
        ({ s with map := s.map.modify key fun _ => ⟨stamp, false⟩,
                  sizeAlive := s.sizeAlive + 1 }, true)
      else ({ s with map := s.map.modify key fun elt => { elt with timestamp := stamp } }, false)
    else (s, false)
  | none =>
    let map : UnorderedMap Key (Metadata U) := AList.insert key ⟨stamp, false⟩ s.map
    if stamp > s.lastClearTime then
      ({ s with map := map, sizeAlive := s.sizeAlive + 1 }, true)
    else ({ s with map := map.modify key fun _ => ⟨s.lastClearTime, true⟩ }, false)

def remove (s : LWWSet Key U) (key : Key) (stamp : U) : LWWSet Key U × Bool :=
  match s.map.lookup key with
  | some elt =>
    if stamp > elt.timestamp then
      if elt.isRemoved = false then
        ({ s with map := s.map.modify key fun _ => ⟨stamp, true⟩,
                  sizeAlive := decr s.sizeAlive }, true)
      else ({ s with map := s.map.modify key fun elt => { elt with timestamp := stamp } }, false)
    else (s, false)
  | none => ({ s with map := AList.insert key ⟨stamp, true⟩ s.map }, false)

/-- A modifier and its result. -/
def apply (s : LWWSet Key U) : Op Key U → LWWSet Key U × Bool
  | .add key stamp => s.add key stamp
  | .remove key stamp => s.remove key stamp
  | .clear stamp => s.clear stamp

/-! ### Comparison -/

def crdtEqual (s other : LWWSet Key U) : Bool := s.map.equal Metadata.beq other.map

/-- `operator==`. -/
def beq (lhs rhs : LWWSet Key U) : Bool :=
  if lhs.size ≠ rhs.size then false
  else lhs.keys.all (fun elt => (rhs.find elt).isSome) &&
    rhs.keys.all (fun elt => (lhs.find elt).isSome)

instance : BEq (LWWSet Key U) := ⟨beq⟩

/-- The set as a machine driven by its modifiers. -/
def machine (Key U : Type*) [DecidableEq Key] [LinearOrder U] [Zero U] :
    Machine (LWWSet Key U) (Op Key U) := ⟨empty, fun s o => (s.apply o).1⟩

end LWWSet

end CollabDatatypes.CmRDT
