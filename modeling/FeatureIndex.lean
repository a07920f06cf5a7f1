import FeatureIndex.Cas
import FeatureIndex.Choice
import FeatureIndex.Comparator
import FeatureIndex.Config
import FeatureIndex.Constraint
import FeatureIndex.Cursor.Basic
import FeatureIndex.Cursor.Concat
import FeatureIndex.Cursor.Filtered
import FeatureIndex.Cursor.Leaf
import FeatureIndex.Cursor.Merge
import FeatureIndex.Decimal.Layout
import FeatureIndex.Decimal.Shortest
import FeatureIndex.Definition
import FeatureIndex.Document
import FeatureIndex.Error
import FeatureIndex.Index
import FeatureIndex.IndexSpec
import FeatureIndex.Iter
import FeatureIndex.KeySpec
import FeatureIndex.Proofs.Annotations
import FeatureIndex.Proofs.Arrays
import FeatureIndex.Proofs.Ascending
import FeatureIndex.Proofs.Bag
import FeatureIndex.Proofs.Binding
import FeatureIndex.Proofs.BulkRemoval
import FeatureIndex.Proofs.CasResemblance
import FeatureIndex.Proofs.Clients
import FeatureIndex.Proofs.Committing
import FeatureIndex.Proofs.Comparing
import FeatureIndex.Proofs.Concat
import FeatureIndex.Proofs.Constraints
import FeatureIndex.Proofs.Contents
import FeatureIndex.Proofs.Drafts
import FeatureIndex.Proofs.Ending
import FeatureIndex.Proofs.Evolution
import FeatureIndex.Proofs.Filtered
import FeatureIndex.Proofs.Filtering
import FeatureIndex.Proofs.Foreign
import FeatureIndex.Proofs.Generations
import FeatureIndex.Proofs.Guarded
import FeatureIndex.Proofs.Handed
import FeatureIndex.Proofs.Hierarchy
import FeatureIndex.Proofs.Identities
import FeatureIndex.Proofs.InLine
import FeatureIndex.Proofs.Index
import FeatureIndex.Proofs.Isolation
import FeatureIndex.Proofs.Iter
import FeatureIndex.Proofs.IterLockstep
import FeatureIndex.Proofs.Iteration
import FeatureIndex.Proofs.Joining
import FeatureIndex.Proofs.KeyClasses
import FeatureIndex.Proofs.Landing
import FeatureIndex.Proofs.Layout
import FeatureIndex.Proofs.Leaf
import FeatureIndex.Proofs.Lending
import FeatureIndex.Proofs.ListCursor
import FeatureIndex.Proofs.Lockstep
import FeatureIndex.Proofs.Merge
import FeatureIndex.Proofs.NamedKeys
import FeatureIndex.Proofs.Navigation
import FeatureIndex.Proofs.Numbering
import FeatureIndex.Proofs.Opening
import FeatureIndex.Proofs.Order
import FeatureIndex.Proofs.OrderedSet
import FeatureIndex.Proofs.Placing
import FeatureIndex.Proofs.Positioning
import FeatureIndex.Proofs.Preorder
import FeatureIndex.Proofs.Priorities
import FeatureIndex.Proofs.Ranking
import FeatureIndex.Proofs.Rebinding
import FeatureIndex.Proofs.Refreshing
import FeatureIndex.Proofs.Refusals
import FeatureIndex.Proofs.Removal
import FeatureIndex.Proofs.Repository
import FeatureIndex.Proofs.RepositoryResemblance
import FeatureIndex.Proofs.Representation
import FeatureIndex.Proofs.Requests
import FeatureIndex.Proofs.Resemblance
import FeatureIndex.Proofs.Reset
import FeatureIndex.Proofs.Resolving
import FeatureIndex.Proofs.Settled
import FeatureIndex.Proofs.Sharing
import FeatureIndex.Proofs.Specifications
import FeatureIndex.Proofs.Stretches
import FeatureIndex.Proofs.Structure
import FeatureIndex.Proofs.TypeSystem
import FeatureIndex.Proofs.Uniqueness
import FeatureIndex.Proofs.Views
import FeatureIndex.Proofs.Walking
import FeatureIndex.Repository
import FeatureIndex.Session.Basic
import FeatureIndex.Session.Indexes
import FeatureIndex.Session.Iterators
import FeatureIndex.Session.Reference
import FeatureIndex.Session.Stores
import FeatureIndex.Session.Types
import FeatureIndex.Store.Bag
import FeatureIndex.Store.Bisection
import FeatureIndex.Store.Leaf
import FeatureIndex.Store.OrderedSet
import FeatureIndex.Store.Ring
import FeatureIndex.Store.Snapshot
import FeatureIndex.Structure
import FeatureIndex.StructureId
import FeatureIndex.Text.Hidden
import FeatureIndex.Text.Quoted
import FeatureIndex.TypeSystem.Basic
import FeatureIndex.TypeSystem.Code
import FeatureIndex.TypeSystem.Commit
import FeatureIndex.TypeSystem.Declarations
import FeatureIndex.Value
