import CollabDatatypes.Lib.Machine

/-! # `CollabData`: observers and broadcaster

The base class of the data built on the CRDTs keeps a vector of pointers to observers and a pointer to
a broadcaster. An observer is an element of `Observer` here, so that no pointer of the vector is null,
and the second assertion of `notifyOperationObservers` never fails. What an observer does in
`onOperation` is its own affair: the functions return the calls of `onOperation` that they make, in
this order. Of an operation only `getType` is read. `ndebug` says whether the assertions are compiled
away, as they are in a release build. -/

namespace CollabDatatypes.Collabdata

open CollabDatatypes.Lib

structure CollabData (Observer : Type*) where
  operationObservers : List Observer
  broadcaster : Option Observer

namespace CollabData

variable {Observer Operation : Type*}

/-- `CollabData()`. -/
def empty : CollabData Observer := ⟨[], none⟩

/-- The calls of `onOperation`, or `none` where the assertion fails. -/
def notifyOperationObservers (ndebug : Bool) (getType : Operation → UInt32)
    (data : CollabData Observer) (op : Operation) : Option (List (Observer × Operation)) :=
  if ndebug = true ∨ getType op ≠ 0 then
    some (data.operationObservers.map fun superman => (superman, op))
  else none

def addOperationObserver [DecidableEq Observer] (data : CollabData Observer) (observer : Observer) :
    CollabData Observer × Bool :=
  if data.operationObservers.any fun obs => obs = observer then (data, false)
  else ({ data with operationObservers := data.operationObservers ++ [observer] }, true)

def clearOperationObservers (data : CollabData Observer) : CollabData Observer :=
  { data with operationObservers := [] }

def sizeOperationObserver (data : CollabData Observer) : ℕ := data.operationObservers.length

/-- The calls of `onOperation`. -/
def notifyOperationBroadcaster (data : CollabData Observer) (op : Operation) :
    List (Observer × Operation) :=
  match data.broadcaster with
  | some broadcaster => [(broadcaster, op)]
  | none => []

def setOperationBroadcaster (data : CollabData Observer) (observer : Observer) :
    CollabData Observer := { data with broadcaster := some observer }

def removeOperationBroadcaster (data : CollabData Observer) : CollabData Observer :=
  { data with broadcaster := none }

def hasBroadcaster (data : CollabData Observer) : Bool := data.broadcaster.isSome

end CollabData

/-! ### Sessions -/

/-- The calls that change a data object, or that make it call its observers. -/
inductive Call (Observer Operation : Type*)
  | notifyOperationObservers (op : Operation)
  | addOperationObserver (observer : Observer)
  | clearOperationObservers
  | notifyOperationBroadcaster (op : Operation)
  | setOperationBroadcaster (observer : Observer)
  | removeOperationBroadcaster
  deriving DecidableEq

namespace CollabData

variable {Observer Operation : Type*} [DecidableEq Observer]

/-- One call: the data object after it and the calls of `onOperation`. -/
def call (ndebug : Bool) (getType : Operation → UInt32) (data : CollabData Observer) :
    Call Observer Operation → Option (CollabData Observer × List (Observer × Operation))
  | .notifyOperationObservers op =>
    (data.notifyOperationObservers ndebug getType op).map fun sent => (data, sent)
  | .addOperationObserver observer => some ((data.addOperationObserver observer).1, [])
  | .clearOperationObservers => some (data.clearOperationObservers, [])
  | .notifyOperationBroadcaster op => some (data, data.notifyOperationBroadcaster op)
  | .setOperationBroadcaster observer => some (data.setOperationBroadcaster observer, [])
  | .removeOperationBroadcaster => some (data.removeOperationBroadcaster, [])

/-- A data object and its users: the calls of `onOperation` so far are kept, and a failed assertion
ends the session. -/
def session (Observer : Type*) [DecidableEq Observer] (ndebug : Bool)
    (getType : Operation → UInt32) :
    Machine (Option (CollabData Observer × List (Observer × Operation)))
      (Call Observer Operation) where
  init := some (empty, [])
  step s c := s.bind fun (data, log) =>
    (data.call ndebug getType c).map fun (data', sent) => (data', log ++ sent)

end CollabData

end CollabDatatypes.Collabdata
