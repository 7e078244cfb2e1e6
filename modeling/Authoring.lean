import Authoring.Main
import Authoring.Proofs.Builder.Helpers
import Authoring.Proofs.Change.Unmanaged
import Authoring.Proofs.Compile.Ranking
import Authoring.Proofs.Creation
import Authoring.Proofs.Declarations
import Authoring.Proofs.Expression.Junctions
import Authoring.Proofs.Frame.Merging
import Authoring.Proofs.Graph.Lists
import Authoring.Proofs.Graph.Namespaces
import Authoring.Proofs.Graph.Naming
import Authoring.Proofs.Graph.Pairing
import Authoring.Proofs.Graph.Reading
import Authoring.Proofs.Graph.Rendering
import Authoring.Proofs.Graph.Settled
import Authoring.Proofs.Graph.Taxonomy
import Authoring.Proofs.Graph.Traces
import Authoring.Proofs.Hierarchy.Converse
import Authoring.Proofs.Hierarchy.Separation
import Authoring.Proofs.Kinds
import Authoring.Proofs.Ledger.Plan
import Authoring.Proofs.Local.Operations
import Authoring.Proofs.Members
import Authoring.Proofs.Probe.Adding
import Authoring.Proofs.Probe.Restoring
import Authoring.Proofs.Probe.Unwinding
import Authoring.Proofs.Reference.Resolving
import Authoring.Proofs.Refinement
import Authoring.Proofs.Regardless
import Authoring.Proofs.Registries
import Authoring.Proofs.Removal
import Authoring.Proofs.Scope.Affixes
import Authoring.Proofs.Scope.Covering
import Authoring.Proofs.Scope.Variables
import Authoring.Proofs.Session.Answers
import Authoring.Proofs.Store.Notices
import Authoring.Proofs.Term.Leaves
import Authoring.Proofs.Window.Catalogue
import Authoring.Script
