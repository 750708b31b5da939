import FlowGraph.Graph.Path
import FlowGraph.Main
import FlowGraph.Proofs.Dominator.Reached
import FlowGraph.Proofs.Dominator.Renaming
import FlowGraph.Proofs.Index.SlotMap
import FlowGraph.Proofs.LinkEval.Balanced
import FlowGraph.Proofs.LinkEval.Simple
import FlowGraph.Proofs.Report.Faults
import FlowGraph.Proofs.Report.Indentation
import FlowGraph.Proofs.Search.Bound
import FlowGraph.Proofs.Source.RoundTrip
import FlowGraph.Search.Capacity
import FlowGraph.Proofs.Index.BitSet
import FlowGraph.Proofs.Dominator.Detours
import FlowGraph.Proofs.Search.Finished
import FlowGraph.Proofs.LinkEval.Depth
import FlowGraph.Proofs.LinkEval.Twins
import FlowGraph.Proofs.Dominator.Safety
import FlowGraph.Proofs.Source.Indexed
import FlowGraph.Proofs.Dominator.AnyTable
import FlowGraph.Proofs.LinkEval.Recursion
import FlowGraph.Proofs.LinkEval.RootChains
import FlowGraph.Proofs.Command.Endings
