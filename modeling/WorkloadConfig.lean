import WorkloadConfig.Deployment
import WorkloadConfig.Logging
import WorkloadConfig.Store.Memory
import WorkloadConfig.Value.Write
import WorkloadConfig.Proofs.Lookup
import WorkloadConfig.Proofs.Stages
import WorkloadConfig.Proofs.Rendering
import WorkloadConfig.Proofs.Documents
import WorkloadConfig.Proofs.AllOrNothing
import WorkloadConfig.Proofs.Publishing
import WorkloadConfig.Proofs.History
import WorkloadConfig.Proofs.Justified
import WorkloadConfig.Proofs.Blindness
import WorkloadConfig.Proofs.Isolation
import WorkloadConfig.Proofs.Paths
import WorkloadConfig.Proofs.Substitution
import WorkloadConfig.Proofs.Patching
import WorkloadConfig.Proofs.Sharing
import WorkloadConfig.Proofs.References
import WorkloadConfig.Proofs.Cleanliness
import WorkloadConfig.Proofs.Coverage
import WorkloadConfig.Proofs.Idempotence
import WorkloadConfig.Proofs.Literals
import WorkloadConfig.Proofs.Order.Tables
import WorkloadConfig.Proofs.Order.Values
import WorkloadConfig.Proofs.Order.Reading
import WorkloadConfig.Proofs.Order.Loading
import WorkloadConfig.Proofs.Order.Merging
import WorkloadConfig.Proofs.Order.Fields
import WorkloadConfig.Proofs.Order.Lookups
import WorkloadConfig.Proofs.Order.Resources
import WorkloadConfig.Proofs.Order.Passes
import WorkloadConfig.Proofs.Identities
import WorkloadConfig.Proofs.Separation
import WorkloadConfig.Proofs.Agreement
import WorkloadConfig.Proofs.Order.Declarations
import WorkloadConfig.Proofs.Order.Templates
import WorkloadConfig.Proofs.Independence
import WorkloadConfig.Proofs.Reporting.Loading
import WorkloadConfig.Proofs.Reporting.Stages
import WorkloadConfig.Proofs.Reporting
import WorkloadConfig.Proofs.Json.Scalars
import WorkloadConfig.Proofs.Json.Values
import WorkloadConfig.Proofs.Storing
import WorkloadConfig.Proofs.Hosting
import WorkloadConfig.Proofs.Directories
import WorkloadConfig.Proofs.Refinement
import WorkloadConfig.Proofs.Confinement
import WorkloadConfig.Proofs.Grammar
import WorkloadConfig.Proofs.Referring
import WorkloadConfig.Proofs.Selection
import WorkloadConfig.Proofs.Positions
import WorkloadConfig.Proofs.MergePatch
import WorkloadConfig.Proofs.Layering
import WorkloadConfig.Proofs.Precedence
import WorkloadConfig.Proofs.Json.Unambiguous
import WorkloadConfig.Proofs.Asking
import WorkloadConfig.Proofs.Consistency
import WorkloadConfig.Proofs.Priority
import WorkloadConfig.Proofs.Recording
import WorkloadConfig.Proofs.Marking
import WorkloadConfig.Proofs.Json.NormalForm
import WorkloadConfig.Proofs.Lenses
import WorkloadConfig.Proofs.Leaves
import WorkloadConfig.Proofs.Retention
import WorkloadConfig.Proofs.Deployments
import WorkloadConfig.Proofs.Designs
