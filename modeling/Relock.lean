import Relock.Text.Basic
import Relock.Text.Pattern
import Relock.Lock.Kind
import Relock.Lock.Symbol
import Relock.Guard.Symbol
import Relock.Audit.Symbol
import Relock.Policy
import Relock.Json.Number
import Relock.Json.Basic
import Relock.Json.Token
import Relock.Json.Parser
import Relock.Json.Pretty
import Relock.Program.Basic
import Relock.Program.Lookup
import Relock.Program.DefUse
import Relock.Program.Chain
import Relock.Alias
import Relock.Builder.Basic
import Relock.Builder.Step
import Relock.Description.Basic
import Relock.Description.Decode
import Relock.Description.TypeText
import Relock.Description.Elaborate
import Relock.Description.Load
import Relock.Grouping
import Relock.Closure
import Relock.CallGraph.Basic
import Relock.CallGraph.Search
import Relock.Lock.Site
import Relock.Lock.Identity
import Relock.Guard.Release
import Relock.Report.Basic
import Relock.Detector.Walk
import Relock.Detector.Basic
import Relock.Audit.Basic
import Relock.Text.Visible
import Relock.CallGraph.Dot
import Relock.Options.Words
import Relock.Options.Usage
import Relock.Options.Basic
import Relock.Command
import Relock.Main
import Relock.Proofs.Faults
import Relock.Proofs.Closure
import Relock.Proofs.Grouping
import Relock.Proofs.Text.Pattern
import Relock.Proofs.Program.InRange
import Relock.Proofs.Program.DefUse
import Relock.Proofs.Program.Chain
import Relock.Proofs.Program.Safety
import Relock.Proofs.Program.Arrangement
import Relock.Proofs.Builder.Arrangement
import Relock.Proofs.Builder.InRange
import Relock.Proofs.Builder.Entries
import Relock.Proofs.Description.InRange
import Relock.Proofs.Description.TypeText
import Relock.Proofs.Description.Types
import Relock.Proofs.Description.Meaning
import Relock.Proofs.Description.Elaboration
import Relock.Proofs.Description.Faithful
import Relock.Proofs.Description.Ownership
import Relock.Proofs.Description.WellFormed
import Relock.Proofs.Description.Acceptance
import Relock.Proofs.Alias
import Relock.Proofs.Alias.Coherence
import Relock.Proofs.Alias.Offset
import Relock.Proofs.CallGraph.Passes
import Relock.Proofs.CallGraph
import Relock.Proofs.Lock.Site
import Relock.Proofs.Lock.Identity
import Relock.Proofs.Lock.Symbol
import Relock.Proofs.Guard.Symbol
import Relock.Proofs.Guard.Release
import Relock.Proofs.Detector.Pursuit
import Relock.Proofs.Detector.Walk
import Relock.Proofs.Detector.Check
import Relock.Proofs.Detector.Loop
import Relock.Proofs.Detector.Precedence
import Relock.Proofs.Detector.Detect
import Relock.Proofs.Audit
import Relock.Proofs.Detector.Safety
import Relock.Proofs.Analysis
import Relock.Proofs.Detector.Selection
import Relock.Proofs.Detector.Companions
import Relock.Proofs.Program.Bare
import Relock.Proofs.Guard.Bare
import Relock.Proofs.Detector.Bare
import Relock.Proofs.CallGraph.Search
import Relock.Proofs.CallGraph.Exact
import Relock.Proofs.CallGraph.Chain
import Relock.Proofs.Detector.Callchain
import Relock.Proofs.Persistence
import Relock.Proofs.Program.Extension
import Relock.Proofs.Builder.Extension
import Relock.Proofs.Guard.Extension
import Relock.Proofs.CallGraph.Extension
import Relock.Proofs.Lock.Extension
import Relock.Proofs.Detector.Extension
import Relock.Proofs.Builder.Users
import Relock.Proofs.Audit.Exact
import Relock.Proofs.Audit.Symbol
import Relock.Proofs.Builder.Canonical
import Relock.Proofs.Description.TypeTable
import Relock.Proofs.Description.TypeName
import Relock.Proofs.Builder.Listing
import Relock.Proofs.Lock.Partition
