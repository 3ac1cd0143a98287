import SliceLineage.Analysis
import SliceLineage.Build.Expr
import SliceLineage.Build.Monad
import SliceLineage.Build.Stmt
import SliceLineage.Check.Ledger
import SliceLineage.Check.Report
import SliceLineage.Composition
import SliceLineage.Error
import SliceLineage.Flow.Calls
import SliceLineage.Flow.Cursor
import SliceLineage.Flow.Graph
import SliceLineage.Flow.Reachable
import SliceLineage.Flow.Trace
import SliceLineage.Ident
import SliceLineage.Json.Basic
import SliceLineage.Json.Graph
import SliceLineage.Json.Report
import SliceLineage.Json.Source
import SliceLineage.Json.Summary
import SliceLineage.Json.Text
import SliceLineage.Leaves.Closure
import SliceLineage.Leaves.Rules
import SliceLineage.Lexicographic
import SliceLineage.Lowering.Basic
import SliceLineage.Lowering.CellTable
import SliceLineage.Lowering.Chain
import SliceLineage.Operation
import SliceLineage.Proofs.Build.Invariants
import SliceLineage.Proofs.Check.History
import SliceLineage.Proofs.Check.Success
import SliceLineage.Proofs.Flow.Growth
import SliceLineage.Proofs.Flow.Traces
import SliceLineage.Proofs.Leaves.Alignment
import SliceLineage.Proofs.Leaves.LeafPaths
import SliceLineage.Proofs.Lowering.Cells
import SliceLineage.Proofs.Lowering.Chains
import SliceLineage.Proofs.Lowering.DataFlow
import SliceLineage.Proofs.Lowering.Emission
import SliceLineage.Proofs.Reachability
import SliceLineage.Saturation
import SliceLineage.Scope
import SliceLineage.Selector
import SliceLineage.Settings.Basic
import SliceLineage.Settings.Document
import SliceLineage.Settings.Error
import SliceLineage.Settings.File
import SliceLineage.Source.Expr
import SliceLineage.Source.Span
import SliceLineage.Source.Stmt
import SliceLineage.Summary.Basic
import SliceLineage.Summary.Registry
import SliceLineage.Yaml.Document
import SliceLineage.Yaml.Node
import SliceLineage.Yaml.Render
import SliceLineage.Yaml.Resolve
import SliceLineage.Yaml.Scalar
import SliceLineage.Yaml.Token
import SliceLineage.Proofs.Leaves.LeastClosure
import SliceLineage.Proofs.Check.FirstConflicts
import SliceLineage.Proofs.Lowering.Strands
import SliceLineage.Proofs.Check.Growths
import SliceLineage.Proofs.Build.Shape
import SliceLineage.Proofs.Lowering.Refinement
import SliceLineage.Proofs.Check.Limits
import SliceLineage.Proofs.Build.Extension
import SliceLineage.Proofs.Build.Acceptance
import SliceLineage.Proofs.Build.DeadCode
import SliceLineage.Proofs.Check.Mirror
import SliceLineage.Proofs.Lowering.Splitting
import SliceLineage.Proofs.Lowering.SplitCells
import SliceLineage.Proofs.Lowering.StrandOrder
import SliceLineage.Proofs.Lowering.Twins
import SliceLineage.Proofs.Check.DeadCode
import SliceLineage.Proofs.Check.EffectStatements
import SliceLineage.Proofs.Build.Keeps
import SliceLineage.Proofs.Build.Course
import SliceLineage.Proofs.Build.Ends
import SliceLineage.Proofs.Build.Positions
import SliceLineage.Proofs.Build.Returns
import SliceLineage.Proofs.Lowering.Returns
import SliceLineage.Proofs.Flow.Acyclic
import SliceLineage.Proofs.Lowering.Acyclic
import SliceLineage.Proofs.Check.LoopFree
import SliceLineage.Proofs.Source.Renaming
import SliceLineage.Proofs.Source.Resolution
import SliceLineage.Proofs.Build.Parallel
import SliceLineage.Proofs.Build.Lexical
import SliceLineage.Proofs.Flow.History
import SliceLineage.Proofs.Build.Advance
import SliceLineage.Proofs.Build.Stops
import SliceLineage.Proofs.Build.Temporaries
import SliceLineage.Proofs.Build.TupleAssignment
import SliceLineage.Proofs.Lowering.SelfCopies
import SliceLineage.Proofs.Json.Trees
import SliceLineage.Proofs.Json.Lossless
import SliceLineage.Proofs.Build.BlankAssignments
import SliceLineage.Proofs.Build.CallSites
import SliceLineage.Proofs.Build.StructLiteral
import SliceLineage.Proofs.Lowering.CallOutputs
import SliceLineage.Proofs.Lowering.SilentCalls
import SliceLineage.Proofs.Check.Absorption
import SliceLineage.Proofs.Lowering.Origins
import SliceLineage.Proofs.Lowering.Pairing
import SliceLineage.Proofs.Check.Independence
import SliceLineage.Proofs.Projection
import SliceLineage.Proofs.Summary.Faults
import SliceLineage.Proofs.Summary.Binding
import SliceLineage.Proofs.Leaves.Reuse
import SliceLineage.Proofs.Summary.Registration
import SliceLineage.Proofs.Build.CursorCalls
import SliceLineage.Proofs.Leaves.PathOrder
import SliceLineage.Proofs.Settings.Documents
import SliceLineage.Proofs.Settings.Reload
import SliceLineage.Proofs.Build.BoundedGrowths
import SliceLineage.Proofs.Check.Regrowth
import SliceLineage.Proofs.Check.DetachedGrowths
import SliceLineage.Proofs.Lowering.CellNumbers
