import CollabDatatypes.CmRDT.LWWSet

/-! # `LWWMap`: the last-writer-wins map

The map repeats the concurrency logic of `LWWSet` in code of its own, with a user value in every
element. The modifiers never read a value; a new element gets the default one. The key that an
element stores beside its value (`_internalValue.first`, a constant) is the key it is stored under,
so an element is its value, stamp and flag here, and the iterators pair it with the key of the
entry. -/

namespace CollabDatatypes.CmRDT

open CollabDatatypes.Lib

/-- `LWWMap::Element`. -/
structure Element (T U : Type*) where
  value : T
  timestamp : U
  isRemoved : Bool
  deriving DecidableEq

namespace Element

variable {T U : Type*}

/-- `Element(key)`: a default value, the stamp `U{0}`, not removed. -/
def new (T U : Type*) [Inhabited T] [Zero U] : Element T U := ⟨default, 0, false⟩

/-- `operator==` of `Element`, on elements of the same key. -/
def beq [BEq T] [DecidableEq U] (rhs lhs : Element T U) : Bool :=
  rhs.value == lhs.value && rhs.isRemoved == lhs.isRemoved &&
    decide (rhs.timestamp = lhs.timestamp)

/-- The CRDT state of the element. -/
def metadata (e : Element T U) : Metadata U := ⟨e.timestamp, e.isRemoved⟩

@[simp] theorem metadata_mk (v : T) (t : U) (b : Bool) :
    (⟨v, t, b⟩ : Element T U).metadata = ⟨t, b⟩ := rfl

theorem beq_iff [BEq T] [DecidableEq U] {a b : Element T U} :
    a.beq b = true ↔ (a.value == b.value) = true ∧ a.metadata = b.metadata := by
  cases a; cases b
  simp [beq, metadata]
  tauto

end Element

/-- `std::out_of_range`. -/
structure OutOfRange where
  what : String
  deriving DecidableEq

/-- What the lookups throw. -/
def noElement : OutOfRange := ⟨"No element for this key"⟩

/-- `LWWMap`. -/
structure LWWMap (Key T U : Type*) where
  map : UnorderedMap Key (Element T U)
  sizeAlive : ℕ
  lastClearTime : U

namespace LWWMap

variable {Key T U : Type*} [DecidableEq Key] [LinearOrder U] [Zero U]

/-- The empty map, `LWWMap()`. -/
def empty : LWWMap Key T U := ⟨∅, 0, 0⟩

/-! ### Capacity and lookup -/

/-- `empty()`. -/
def isEmpty (m : LWWMap Key T U) : Bool := m.sizeAlive == 0

def size (m : LWWMap Key T U) : ℕ := m.sizeAlive

def crdtSize (m : LWWMap Key T U) : ℕ := m.map.entries.length

/-- `at`, a keyword here. -/
def atKey (m : LWWMap Key T U) (key : Key) : Except OutOfRange T :=
  match m.map.lookup key with
  | some elt => if elt.isRemoved then .error noElement else .ok elt.value
  | none => .error noElement

def crdtAt (m : LWWMap Key T U) (key : Key) : Except OutOfRange T :=
  match m.map.lookup key with
  | some elt => .ok elt.value
  | none => .error noElement

/-- The element `find` points to, `none` for `end()`. -/
def find (m : LWWMap Key T U) (key : Key) : Option (Element T U) :=
  match m.map.lookup key with
  | some elt => if !elt.isRemoved then some elt else none
  | none => none

/-- The element `crdt_find` points to, `none` for `crdt_end()`. -/
def crdtFind (m : LWWMap Key T U) (key : Key) : Option (Element T U) := m.map.lookup key

def count (m : LWWMap Key T U) (key : Key) : ℕ := if (m.find key).isSome then 1 else 0

def crdtCount (m : LWWMap Key T U) (key : Key) : ℕ := if (m.map.lookup key).isSome then 1 else 0

/-- The keys `for (const auto& elt : *this)` visits: the iterators skip the removed entries. -/
def keys (m : LWWMap Key T U) : List Key := m.map.keysWhere fun elt => !elt.isRemoved

/-- The value of `key` written through a reference (`at`, `crdt_at`, an iterator). -/
def modify (m : LWWMap Key T U) (key : Key) (f : T → T) : LWWMap Key T U :=
  { m with map := m.map.modify key fun elt => { elt with value := f elt.value } }

/-- The loop `for (it = crdt_begin(); it != crdt_end(); ++it)` that rewrites values. -/
def forEach (m : LWWMap Key T U) (f : Key → Element T U → T) : LWWMap Key T U :=
  { m with map := m.map.mapVal fun key elt => { elt with value := f key elt } }

/-! ### Modifiers -/

/-- The body of the loop of `clear`. -/
def clearElt (stamp : U) (sizeAlive : ℕ) (elt : Element T U) : ℕ × Element T U :=
  if stamp > elt.timestamp then
    if elt.isRemoved = false then
      (decr sizeAlive, { elt with timestamp := stamp, isRemoved := true })
    else (sizeAlive, { elt with timestamp := stamp })
  else (sizeAlive, elt)

def clear (m : LWWMap Key T U) (stamp : U) : LWWMap Key T U × Bool :=
  if stamp > m.lastClearTime then
    let r := m.map.loop (clearElt stamp) m.sizeAlive
    (⟨r.2, r.1, stamp⟩, true)
  else (m, false)

def add [Inhabited T] (m : LWWMap Key T U) (key : Key) (stamp : U) : LWWMap Key T U × Bool :=
  match m.map.lookup key with
  | some elt =>
    if stamp > elt.timestamp then
      if elt.isRemoved then
        ({ m with
            map := m.map.modify key fun elt => { elt with timestamp := stamp, isRemoved := false }
            sizeAlive := m.sizeAlive + 1 }, true)
      else ({ m with map := m.map.modify key fun elt => { elt with timestamp := stamp } }, false)
    else (m, false)
  | none =>
    let newElt : Element T U := { Element.new T U with timestamp := stamp, isRemoved := false }
    let map : UnorderedMap Key (Element T U) := AList.insert key newElt m.map
    if stamp > m.lastClearTime then
      ({ m with map := map, sizeAlive := m.sizeAlive + 1 }, true)
    else
      ({ m with map := map.modify key fun elt =>
            { elt with timestamp := m.lastClearTime, isRemoved := true } }, false)

def remove [Inhabited T] (m : LWWMap Key T U) (key : Key) (stamp : U) : LWWMap Key T U × Bool :=
  match m.map.lookup key with
  | some elt =>
    if stamp > elt.timestamp then
      if elt.isRemoved = false then
        ({ m with
            map := m.map.modify key fun elt => { elt with timestamp := stamp, isRemoved := true }
            sizeAlive := decr m.sizeAlive }, true)
      else ({ m with map := m.map.modify key fun elt => { elt with timestamp := stamp } }, false)
    else (m, false)
  | none =>
    let newElt : Element T U := { Element.new T U with timestamp := stamp, isRemoved := true }
    ({ m with map := AList.insert key newElt m.map }, false)

/-- A modifier and its result. -/
def apply [Inhabited T] (m : LWWMap Key T U) : Op Key U → LWWMap Key T U × Bool
  | .add key stamp => m.add key stamp
  | .remove key stamp => m.remove key stamp
  | .clear stamp => m.clear stamp

/-! ### Writes of values -/

/-- What a user of a map does: a modifier, or a write to values through a reference that a lookup
returned or through the iterators of a loop. A write is a function of the value that is there. -/
inductive Access (Key T U : Type*)
  | modifier (o : Op Key U)
  | atKey (key : Key) (f : T → T)
  | crdtAt (key : Key) (f : T → T)
  | loop (f : Key → T → T)
  | crdtLoop (f : Key → Element T U → T)

/-- The modifier of an access, if it is one. -/
def Access.asModifier {Key T U : Type*} : Access Key T U → Option (Op Key U)
  | .modifier o => some o
  | _ => none

/-- A write through the reference that a lookup of `key` returned, if it did not throw. -/
def writeThrough (m : LWWMap Key T U) (key : Key) (f : T → T) :
    Except OutOfRange T → LWWMap Key T U
  | .ok _ => m.modify key f
  | .error _ => m

/-- An access, and the result of a modifier. -/
def access [Inhabited T] (m : LWWMap Key T U) : Access Key T U → LWWMap Key T U × Option Bool
  | .modifier o => let r := m.apply o; (r.1, some r.2)
  | .atKey key f => (m.writeThrough key f (m.atKey key), none)
  | .crdtAt key f => (m.writeThrough key f (m.crdtAt key), none)
  | .loop f =>
    -- the iterators skip the removed elements
    (m.forEach fun key elt => if !elt.isRemoved then f key elt.value else elt.value, none)
  | .crdtLoop f => (m.forEach f, none)

/-- The map as a machine driven by its user. -/
def userMachine (Key T U : Type*) [DecidableEq Key] [LinearOrder U] [Zero U] [Inhabited T] :
    Machine (LWWMap Key T U) (Access Key T U) := ⟨empty, fun m a => (m.access a).1⟩

/-! ### Comparison -/

variable [BEq T]

def crdtEqual (m other : LWWMap Key T U) : Bool := m.map.equal Element.beq other.map

/-- One of the two loops of `operator==`: every visible key of `lhs` is one of `rhs`, with an equal
value. -/
def beqLoop (lhs rhs : LWWMap Key T U) : Bool :=
  lhs.keys.all fun key =>
    match lhs.find key, rhs.find key with
    | some elt, some other => !(elt.value != other.value)
    | _, _ => false

/-- `operator==`. -/
def beq (lhs rhs : LWWMap Key T U) : Bool :=
  if lhs.size ≠ rhs.size then false else beqLoop lhs rhs && beqLoop rhs lhs

instance : BEq (LWWMap Key T U) := ⟨beq⟩

omit [BEq T] in
/-- The map as a machine driven by its modifiers. -/
def machine (Key T U : Type*) [DecidableEq Key] [LinearOrder U] [Zero U] [Inhabited T] :
    Machine (LWWMap Key T U) (Op Key U) := ⟨empty, fun m o => (m.apply o).1⟩

end LWWMap

end CollabDatatypes.CmRDT
