import CollabDatatypes.Lib.Fresh
import CollabDatatypes.Lib.Independence
import CollabDatatypes.Lib.Machine
import CollabDatatypes.Lib.Stamp
import CollabDatatypes.Lib.UnorderedMap
import CollabDatatypes.CmRDT.Iterators
import CollabDatatypes.CmRDT.LWWGraph
import CollabDatatypes.CmRDT.LWWMap
import CollabDatatypes.CmRDT.LWWRegister
import CollabDatatypes.CmRDT.LWWSet
import CollabDatatypes.CmRDT.Overloads
import CollabDatatypes.Container.Cells
import CollabDatatypes.Container.ClearTime
import CollabDatatypes.Container.Congruence
import CollabDatatypes.Container.Convergence
import CollabDatatypes.Container.Equality
import CollabDatatypes.Container.History
import CollabDatatypes.Container.LastWriters
import CollabDatatypes.Container.Map
import CollabDatatypes.Container.Order
import CollabDatatypes.Container.Outcomes
import CollabDatatypes.Container.Redelivery
import CollabDatatypes.Container.Reference
import CollabDatatypes.Container.Register
import CollabDatatypes.Container.RegisterTies
import CollabDatatypes.Container.Registers
import CollabDatatypes.Container.Representation
import CollabDatatypes.Container.Results
import CollabDatatypes.Container.Schedules
import CollabDatatypes.Container.Sequential
import CollabDatatypes.Container.Set
import CollabDatatypes.Container.Writes
import CollabDatatypes.Graph.Advance
import CollabDatatypes.Graph.Clears
import CollabDatatypes.Graph.Comparison
import CollabDatatypes.Graph.Congruence
import CollabDatatypes.Graph.Convergence
import CollabDatatypes.Graph.Dangling
import CollabDatatypes.Graph.Disciplines
import CollabDatatypes.Graph.EdgeClears
import CollabDatatypes.Graph.Edges
import CollabDatatypes.Graph.Equality
import CollabDatatypes.Graph.Frame
import CollabDatatypes.Graph.History
import CollabDatatypes.Graph.Interference
import CollabDatatypes.Graph.Memory
import CollabDatatypes.Graph.NoClear
import CollabDatatypes.Graph.Order
import CollabDatatypes.Graph.Outcomes
import CollabDatatypes.Graph.Redelivery
import CollabDatatypes.Graph.Refine
import CollabDatatypes.Graph.Registers
import CollabDatatypes.Graph.Removal
import CollabDatatypes.Graph.Sequential
import CollabDatatypes.Graph.Slice
import CollabDatatypes.Graph.Step
import CollabDatatypes.Graph.TellsApart
import CollabDatatypes.Graph.Totals
import CollabDatatypes.Graph.Vertices
import CollabDatatypes.Graph.View
import CollabDatatypes.Collabdata.CollabData
import CollabDatatypes.Collabdata.Session
