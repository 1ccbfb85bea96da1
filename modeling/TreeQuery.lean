import TreeQuery.Proofs.Tree.Edit
import TreeQuery.Proofs.Tree.Route
import TreeQuery.Query.Select
import TreeQuery.Selector.Printer
import TreeQuery.Stored.Selectors
import TreeQuery.Tree.Build
import TreeQuery.Proofs.Tree.Forest
import TreeQuery.Proofs.Query.Assignment
import TreeQuery.Proofs.Query.Narrow
import TreeQuery.Proofs.Selector.Grammar
import TreeQuery.Proofs.Selector.Assembly
import TreeQuery.Proofs.Selector.Canonical
import TreeQuery.Proofs.Selector.Writing
import TreeQuery.Proofs.Selector.WideCount
import TreeQuery.Proofs.Selector.Reparse
import TreeQuery.Proofs.Query.Run
import TreeQuery.Proofs.Selector.Derivation
import TreeQuery.Proofs.Tree.Links
import TreeQuery.Proofs.Tree.Likeness
import TreeQuery.Proofs.Query.Likeness
import TreeQuery.Proofs.Tree.Order
import TreeQuery.Proofs.Query.Order
import TreeQuery.Proofs.Query.Scope
import TreeQuery.Proofs.Query.Append
import TreeQuery.Proofs.Selector.Spelling
import TreeQuery.Proofs.Query.Relaxed
import TreeQuery.Proofs.Selector.Seam
import TreeQuery.Proofs.Selector.Joined
import TreeQuery.Proofs.Selector.Part
import TreeQuery.Proofs.Query.Part
import TreeQuery.Proofs.Selector.Halting
import TreeQuery.Proofs.Selector.Location
import TreeQuery.Proofs.Selector.Qualified
import TreeQuery.Proofs.Query.Concurrent
import TreeQuery.Proofs.Tree.Names
import TreeQuery.Proofs.Tree.Retag
import TreeQuery.Proofs.Query.TagCase
import TreeQuery.Proofs.Tree.Attributes
import TreeQuery.Proofs.Query.Classes
import TreeQuery.Proofs.Stored.Restore
import TreeQuery.Proofs.Stored.Rewording
import TreeQuery.Proofs.Tree.History
import TreeQuery.Proofs.Tree.Records
import TreeQuery.Proofs.Tree.Failure
import TreeQuery.Proofs.Query.Failure
import TreeQuery.Proofs.Tree.Traversal
import TreeQuery.Proofs.Tree.Adoption
import TreeQuery.Proofs.Tree.Shadowing
import TreeQuery.Proofs.Selector.Values
import TreeQuery.Proofs.Tree.Siblings
import TreeQuery.Proofs.Query.Structural
import TreeQuery.Proofs.Query.Correspondence
import TreeQuery.Proofs.Query.Shorthand
import TreeQuery.Proofs.Tree.Text
import TreeQuery.Proofs.Selector.Segments
import TreeQuery.Proofs.Selector.Cut
import TreeQuery.Proofs.Tree.Numbering
import TreeQuery.Proofs.Query.Walks
import TreeQuery.Proofs.Selector.Unfinished
import TreeQuery.Proofs.Query.Arrival
