import Lineage.Access.Guard
import Lineage.Access.Policy
import Lineage.Access.Rule
import Lineage.Access.Scope
import Lineage.Attribute
import Lineage.Behavior.Capability
import Lineage.Behavior.Compose
import Lineage.Behavior.Contributor
import Lineage.Behavior.Description
import Lineage.Behavior.Factory
import Lineage.Behavior.Stock
import Lineage.BuildId
import Lineage.Catalogue.Basic
import Lineage.Catalogue.Flatten
import Lineage.Catalogue.Inheritance
import Lineage.Catalogue.Metadata
import Lineage.Codec.Attribute
import Lineage.Codec.Outcome
import Lineage.Codec.Rule
import Lineage.Codec.Types
import Lineage.Config
import Lineage.Descriptor
import Lineage.Discovery
import Lineage.Double
import Lineage.Fault
import Lineage.Hierarchy.Ancestors
import Lineage.Hierarchy.Basic
import Lineage.Hierarchy.Builder
import Lineage.Hierarchy.Order
import Lineage.Ident
import Lineage.Instance
import Lineage.Json.Basic
import Lineage.Json.Number
import Lineage.Json.Reader
import Lineage.Json.Record
import Lineage.Json.Token
import Lineage.LogLevel
import Lineage.Outcome
import Lineage.Proofs.Access.Aliases
import Lineage.Proofs.Access.Boundary
import Lineage.Proofs.Access.Declared
import Lineage.Proofs.Access.Guard
import Lineage.Proofs.Access.Hiding
import Lineage.Proofs.Access.Independence
import Lineage.Proofs.Access.Renaming
import Lineage.Proofs.Access.Rules
import Lineage.Proofs.Access.Scope
import Lineage.Proofs.Access.Specificity
import Lineage.Proofs.Access.Translation
import Lineage.Proofs.Behavior.AddNew
import Lineage.Proofs.Behavior.Composing
import Lineage.Proofs.Behavior.Contributions
import Lineage.Proofs.Behavior.Evaluation
import Lineage.Proofs.Behavior.Joining
import Lineage.Proofs.Behavior.Locality
import Lineage.Proofs.Behavior.Order
import Lineage.Proofs.Behavior.Placeholders
import Lineage.Proofs.Behavior.Sharing
import Lineage.Proofs.Bounded
import Lineage.Proofs.Catalogue.AccessPaths
import Lineage.Proofs.Catalogue.Attributes
import Lineage.Proofs.Catalogue.Classification
import Lineage.Proofs.Catalogue.Components
import Lineage.Proofs.Catalogue.Declarations
import Lineage.Proofs.Catalogue.Descent
import Lineage.Proofs.Catalogue.Flatten
import Lineage.Proofs.Catalogue.Inheritance
import Lineage.Proofs.Catalogue.Managed
import Lineage.Proofs.Catalogue.Merging
import Lineage.Proofs.Catalogue.Metadata
import Lineage.Proofs.Catalogue.Requirements
import Lineage.Proofs.Codec
import Lineage.Proofs.Discovery
import Lineage.Proofs.Fallible
import Lineage.Proofs.Hierarchy.AncestorOrder
import Lineage.Proofs.Hierarchy.Ancestors
import Lineage.Proofs.Hierarchy.Atomicity
import Lineage.Proofs.Hierarchy.Building
import Lineage.Proofs.Hierarchy.Cycles
import Lineage.Proofs.Hierarchy.Detection
import Lineage.Proofs.Hierarchy.Faithful
import Lineage.Proofs.Hierarchy.Fieldless
import Lineage.Proofs.Hierarchy.Insertion
import Lineage.Proofs.Hierarchy.Reordering
import Lineage.Proofs.Hierarchy.Step
import Lineage.Proofs.Hierarchy.Termination
import Lineage.Proofs.Hierarchy.Topological
import Lineage.Proofs.Hierarchy.Traversal
import Lineage.Proofs.Hierarchy.Verdict
import Lineage.Proofs.Hierarchy.WellFormed
import Lineage.Proofs.Json.Codec
import Lineage.Proofs.Json.Normal
import Lineage.Proofs.Markers
import Lineage.Proofs.Overlay
import Lineage.Proofs.Registry
import Lineage.Proofs.Substrate
import Lineage.Proofs.Subtypes
import Lineage.Proofs.Table
import Lineage.Registry
import Lineage.Substrate
import Lineage.Table
import Lineage.Text.Blank
import Lineage.Text.Invisible
import Lineage.Text.Quoted
