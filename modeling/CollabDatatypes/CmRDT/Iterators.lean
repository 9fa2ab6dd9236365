import CollabDatatypes.CmRDT.LWWMap

/-! # The iterators of the containers

An iterator of a container is a position in its map; it rests on entries that are not marked removed
and on the end. The constructors and `operator++` skip the removed entries, except that `find` of the
set puts the iterator on the entry it found. `iterator` and `const_iterator` of the map are the same
code. -/

namespace CollabDatatypes.CmRDT

open CollabDatatypes.Lib

namespace LWWSet

variable {Key U : Type*}

/-- `LWWSet::const_iterator`. -/
abbrev ConstIterator (Key U : Type*) := List (Σ _ : Key, Metadata U)

/-- The loop of the constructor and of `operator++`. -/
def skipRemoved (it : ConstIterator Key U) : ConstIterator Key U :=
  UnorderedMap.skip Metadata.isRemoved it

def begin (s : LWWSet Key U) : ConstIterator Key U := skipRemoved s.map.entries

/-- `end`, a keyword here. -/
def endIt : ConstIterator Key U := []

/-- `operator++`. -/
def next (it : ConstIterator Key U) : ConstIterator Key U := skipRemoved it.tail

/-- `for (it = begin(); it != end(); ++it)`: the keys visited, if the loop ends within `n` tests. -/
def walk (s : LWWSet Key U) (n : ℕ) : Option (List Key) := UnorderedMap.walk next n s.begin

variable [DecidableEq Key]

/-- The iterator `find` returns. -/
def findIt (s : LWWSet Key U) (key : Key) : ConstIterator Key U :=
  match s.map.position key with
  | elt :: l => if !elt.2.isRemoved then elt :: l else endIt
  | [] => endIt

end LWWSet

namespace LWWMap

variable {Key T U : Type*}

/-- `LWWMap::iterator` and `LWWMap::const_iterator`. -/
abbrev Iterator (Key T U : Type*) := List (Σ _ : Key, Element T U)

/-- The loop of the constructors and of `operator++`. -/
def skipRemoved (it : Iterator Key T U) : Iterator Key T U :=
  UnorderedMap.skip Element.isRemoved it

def begin (m : LWWMap Key T U) : Iterator Key T U := skipRemoved m.map.entries

/-- `end`, a keyword here. -/
def endIt : Iterator Key T U := skipRemoved []

/-- `operator++`. -/
def next (it : Iterator Key T U) : Iterator Key T U := skipRemoved it.tail

/-- `for (it = begin(); it != end(); ++it)`: the keys visited, if the loop ends within `n` tests. -/
def walk (m : LWWMap Key T U) (n : ℕ) : Option (List Key) := UnorderedMap.walk next n m.begin

variable [DecidableEq Key]

/-- The iterator `find` returns. -/
def findIt (m : LWWMap Key T U) (key : Key) : Iterator Key T U :=
  match m.map.position key with
  | elt :: l => if !elt.2.isRemoved then skipRemoved (elt :: l) else endIt
  | [] => endIt

end LWWMap

end CollabDatatypes.CmRDT
