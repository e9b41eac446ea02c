import ByteFormula.Main
import ByteFormula.Files.Directory
import ByteFormula.Proofs.Packing
import ByteFormula.Proofs.PlainTree
import ByteFormula.Proofs.TreeContents
import ByteFormula.Proofs.TreeVisits
import ByteFormula.Proofs.TreeOperations
import ByteFormula.Proofs.TreeSession
import ByteFormula.Proofs.Registration
import ByteFormula.Proofs.Heads
import ByteFormula.Proofs.RoundTrip
import ByteFormula.Proofs.CallByNeed
import ByteFormula.Proofs.BaseRegistry
import ByteFormula.Proofs.BaseSource
import ByteFormula.Proofs.Extension
import ByteFormula.Proofs.Consistency
import ByteFormula.Proofs.Stability
import ByteFormula.Proofs.Observations
import ByteFormula.Proofs.Lookups
import ByteFormula.Proofs.Safety
import ByteFormula.Proofs.TreeCoherence
import ByteFormula.Proofs.PackedForms
import ByteFormula.Proofs.SourceEvaluation
import ByteFormula.Proofs.Decompilation
import ByteFormula.Proofs.ArrayRuns
import ByteFormula.Proofs.TreeEvaluation
import ByteFormula.Proofs.DefinitionText
import ByteFormula.Proofs.Listing
import ByteFormula.Proofs.TreeBranches
import ByteFormula.Proofs.TreePushes
import ByteFormula.Proofs.Frames
import ByteFormula.Proofs.Executions
import ByteFormula.Proofs.StackDiscipline
import ByteFormula.Proofs.Restarts
import ByteFormula.Proofs.Demand
import ByteFormula.Proofs.DepthBound
import ByteFormula.Proofs.Truncation
import ByteFormula.Proofs.Layout
import ByteFormula.Proofs.RegistrationPaths
import ByteFormula.Proofs.Applications
import ByteFormula.Proofs.ReferenceChecks
import ByteFormula.Proofs.IntegerFunctions
import ByteFormula.Proofs.Comparisons
import ByteFormula.Proofs.ArrayReads
import ByteFormula.Proofs.BlamedLines
import ByteFormula.Proofs.CheckReports
import ByteFormula.Proofs.HeadSymbols
import ByteFormula.Proofs.Arena
import ByteFormula.Proofs.ArenaDiscipline
import ByteFormula.Proofs.ArenaOperations
import ByteFormula.Proofs.ArenaTrees
import ByteFormula.Proofs.ArenaVisits
import ByteFormula.Proofs.ArenaSessions
