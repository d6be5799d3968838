import Bracelet.Machine
import Bracelet.DlsymRuntime
import Bracelet.DlsymPages
import Bracelet.EdgeHashSet
import Bracelet.EdgeHashSetResize
import Bracelet.EdgeHashSetRuns
import Bracelet.Records
import Bracelet.TraceFiles
import Bracelet.FunctionFacts
import Bracelet.SimpleRules
import Bracelet.Flow
import Bracelet.Dict
import Bracelet.CallGraph
import Bracelet.CallGraphAgreement
import Bracelet.PhaseRules
import Bracelet.Summaries
import Bracelet.DirectAccess
import Bracelet.TargetFunctions
import Bracelet.Entrypoint
import Bracelet.Verdicts
import Bracelet.EnumerationOrder
import Bracelet.EdgeNodes
import Bracelet.EdgeWriter
import Bracelet.EdgeStream
import Bracelet.EdgeReader
import Bracelet.EdgeFrames
import Bracelet.EdgeCodecs
import Bracelet.EdgeRoundTrip
import Bracelet.VhmallocRuns
import Bracelet.ElfSegmentsCoverage
import Bracelet.RuntimeFormatRoundTrip
import Bracelet.VersionRanges
import Bracelet.ThreadCreation
import Bracelet.EdgeOutput
import Bracelet.DlsymWalks
import Bracelet.CandidateFunctions
import Bracelet.EdgeVisitor
import Bracelet.VisitorNodes
import Bracelet.VisitorEdges
import Bracelet.VisitorStart
import Bracelet.VisitedInstructions
import Bracelet.NullNodes
import Bracelet.VhmallocTails
import Bracelet.WeakOrders
import Bracelet.EdgeOrder
import Bracelet.ConstantFlow
import Bracelet.VisitorLocals
import Bracelet.NodeNumbers
import Bracelet.LargeFunctions
import Bracelet.OrderedMaps
import Bracelet.StaticObject
import Bracelet.SectionLookup
import Bracelet.StaticRuns
import Bracelet.StaticAddresses
import Bracelet.SymbolNames
import Bracelet.GuardedReader
import Bracelet.MalformedFunctions
import Bracelet.MalformedGraphs
import Bracelet.FlatOrders
import Bracelet.PointsTo
import Bracelet.NodeStates
import Bracelet.InitialPass
import Bracelet.EdgeHashSetCrashes
import Bracelet.SarifThreadFlows
import Bracelet.SarifLocations
import Bracelet.WeightedWalks
import Bracelet.CallTables
import Bracelet.UnitFiles
import Bracelet.StructLayouts
import Bracelet.RuntimeFormatCodes
import Bracelet.DepthFirst
import Bracelet.TypeDeclarations
import Bracelet.DebugLocations
import Bracelet.DebugLocationNames
import Bracelet.Signatures
import Bracelet.BaseNames
import Bracelet.PrintedEdges
import Bracelet.Utf8
import Bracelet.LoadEdges
import Bracelet.FactFiles
import Bracelet.InstructionRanges
import Bracelet.EdgeShapes
import Bracelet.RecordedCalls
import Bracelet.RecordedValues
import Bracelet.Executions
import Bracelet.RecordedPrograms
import Bracelet.ExecutedFlows
import Bracelet.ExecutedCalls
import Bracelet.DumpedPrograms
import Bracelet.DlsymDumps
import Bracelet.ExecutedVerdicts
import Bracelet.DerivedFlows
import Bracelet.CallSlices
import Bracelet.TraceBuffers
import Bracelet.TraceRuntime
import Bracelet.VhmallocSizes
import Bracelet.Substitution
import Bracelet.Overrides
import Bracelet.OverrideRenaming
import Bracelet.CallGraphExport
import Bracelet.TraceChecks
import Bracelet.EmittedConservative
