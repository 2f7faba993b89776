import Synapse.Kernel.Report
import Synapse.Main
import Synapse.Proofs.Typing
import Synapse.Text.Lines
import Synapse.Proofs.Shape
import Synapse.Proofs.Passes
import Synapse.Proofs.WellFormed
import Synapse.Proofs.Building
import Synapse.Proofs.Grouping
import Synapse.Proofs.Semantics
import Synapse.Proofs.Emission
import Synapse.Proofs.Recipes
import Synapse.Proofs.Execution
import Synapse.Proofs.CodeTypes
import Synapse.Proofs.Lowering
import Synapse.Proofs.Scopes
import Synapse.Proofs.Listings
import Synapse.Proofs.Ensembles
import Synapse.Proofs.Layers
import Synapse.Proofs.Histories
import Synapse.Proofs.Sessions
import Synapse.Proofs.Propagation
import Synapse.Proofs.Kernels
import Synapse.Proofs.Merging
import Synapse.Proofs.Totality
import Synapse.Proofs.Regrouping
import Synapse.Proofs.Freshness
import Synapse.Proofs.Arity
import Synapse.Proofs.Traces
import Synapse.Proofs.Outcomes
import Synapse.Proofs.Mirrors
import Synapse.Proofs.Invariance
import Synapse.Proofs.Edges
import Synapse.Proofs.Tables
import Synapse.Proofs.Addresses
import Synapse.Proofs.Interning
import Synapse.Proofs.Assembly
import Synapse.Proofs.Perceptrons
import Synapse.Proofs.Samples
import Synapse.Proofs.Comparison
import Synapse.Proofs.Partition
import Synapse.Proofs.Layout
import Synapse.Proofs.Sharing
import Synapse.Proofs.Footprints
import Synapse.Proofs.Recording
import Synapse.Proofs.Assignments
import Synapse.Proofs.Connecting
import Synapse.Proofs.Checking
import Synapse.Proofs.Unfolding
import Synapse.Proofs.Containment
import Synapse.Proofs.Bindings
import Synapse.Proofs.BoundOnce
import Synapse.Proofs.Joins
import Synapse.Proofs.Preorder
