import CallTargets.Ident
import CallTargets.Fault
import CallTargets.Ty
import CallTargets.Program
import CallTargets.Program.Builder
import CallTargets.Location
import CallTargets.Store
import CallTargets.Store.Lemmas
import CallTargets.Flow.Graph
import CallTargets.Flow.Solver
import CallTargets.Flow.Recording
import CallTargets.Analysis.Config
import CallTargets.Analysis.Session
import CallTargets.Analysis.Offset
import CallTargets.Analysis.Transfer
import CallTargets.Analysis.Call
import CallTargets.Analysis.Table
import CallTargets.Analysis.Run
import CallTargets.Analysis.Log
import CallTargets.Text.Ranges
import CallTargets.Text.Alphanumeric
import CallTargets.Text.Visible
import CallTargets.Text.Quoted
import CallTargets.Text.Lines
import CallTargets.Report.Line
import CallTargets.Report.Parser
import CallTargets.Report.Check
import CallTargets.Command.Arguments
import CallTargets.Command.Files
import CallTargets.Command.Check
import CallTargets.Main
import CallTargets.Proofs.Outcome
import CallTargets.Proofs.StoreHeight
import CallTargets.Proofs.GraphFacts
import CallTargets.Proofs.PlainSolver
import CallTargets.Proofs.Equations
import CallTargets.Proofs.StoreOrder
import CallTargets.Proofs.SolverBudget
import CallTargets.Proofs.CallAgreement
import CallTargets.Proofs.SearchDepth
import CallTargets.Proofs.Termination
import CallTargets.Proofs.RunEquations
import CallTargets.Proofs.BuiltProgram
import CallTargets.Proofs.KeptInvariants
import CallTargets.Proofs.StoreInvariant
import CallTargets.Proofs.TransferInvariant
import CallTargets.Proofs.Occurrence
import CallTargets.Proofs.EdgeRecording
import CallTargets.Proofs.LeastSolution
import CallTargets.Proofs.EdgeTables
import CallTargets.Proofs.Independence
import CallTargets.Proofs.OperandFlow
import CallTargets.Proofs.AddressTaken
import CallTargets.Proofs.DirectCalls
import CallTargets.Proofs.Coverage
import CallTargets.Proofs.RecursionGuard
import CallTargets.Proofs.DepthCap
import CallTargets.Proofs.VisitingOrder
import CallTargets.Proofs.FinishingOrder
import CallTargets.Proofs.TypeLayout
import CallTargets.Proofs.TypeParts
import CallTargets.Proofs.ProgramEdits
import CallTargets.Proofs.ClosedProgram
import CallTargets.Proofs.Safety
import CallTargets.Proofs.SafeTransfer
import CallTargets.Proofs.ExactOffsets
import CallTargets.Proofs.FaultFree
import CallTargets.Proofs.EdgeGrouping
import CallTargets.Proofs.ReportRoundTrip
import CallTargets.Proofs.SinglePass
import CallTargets.Proofs.EnteredCallees
import CallTargets.Proofs.CutoffEdges
import CallTargets.Proofs.Ownership
import CallTargets.Proofs.BoundStores
import CallTargets.Proofs.Proviso
import CallTargets.Proofs.ParameterBinding
import CallTargets.Proofs.CheckVerdict
import CallTargets.Proofs.ListedOnce
import CallTargets.Proofs.StepAnswers
import CallTargets.Proofs.CoherentProgram
import CallTargets.Proofs.ReturnedValues
import CallTargets.Proofs.FactsAtCalls
import CallTargets.Proofs.MemoryWrites
import CallTargets.Proofs.StrictLines
import CallTargets.Proofs.LenientLines
import CallTargets.Proofs.RecordedRuns
import CallTargets.Proofs.OnePass
import CallTargets.Proofs.AmbiguousStores
import CallTargets.Proofs.LoadedValues
import CallTargets.Proofs.SearchStack
import CallTargets.Proofs.VisitingNumbers
import CallTargets.Proofs.AddressTypes
import CallTargets.Proofs.ChainedAddresses
import CallTargets.Proofs.StoreFreeCallees
