import NestedColumns.Fault
import NestedColumns.Record.Equality
import NestedColumns.Record.Text
import NestedColumns.Schema.Ancestor
import NestedColumns.Schema.Draft
import NestedColumns.Schema.Text
import NestedColumns.Column.Text
import NestedColumns.Projection.Erase
import NestedColumns.Striping.Staged
import NestedColumns.Machine.Graph
import NestedColumns.Assembly.Stream
import NestedColumns.Table.Read
import NestedColumns.Sample.Document
import NestedColumns.Json.Record
import NestedColumns.Table.OptionsText
import NestedColumns.Sample.Documents
import NestedColumns.Sample.Records
import NestedColumns.Proofs.Schema.Accepted
import NestedColumns.Proofs.Schema.Sharing
import NestedColumns.Proofs.Projection.Selection
import NestedColumns.Proofs.Machine.Targets
import NestedColumns.Proofs.Machine.Meaning
import NestedColumns.Proofs.Machine.Moves
import NestedColumns.Proofs.Striping.Stripe
import NestedColumns.Proofs.Striping.Alignment
import NestedColumns.Proofs.Column.Holding
import NestedColumns.Proofs.Column.Filled
import NestedColumns.Proofs.Table.Log
import NestedColumns.Proofs.Table.Appending
import NestedColumns.Proofs.Table.Columns
import NestedColumns.Proofs.Record.Focus
import NestedColumns.Proofs.Record.Pruned
import NestedColumns.Proofs.Record.Shape
import NestedColumns.Proofs.Projection.Erasure
import NestedColumns.Proofs.Assembly.Order
import NestedColumns.Proofs.Assembly.Feed
import NestedColumns.Proofs.Assembly.Rebuild
import NestedColumns.Proofs.Assembly.Run
import NestedColumns.Proofs.Table.RoundTrip
import NestedColumns.Proofs.Assembly.Steps
import NestedColumns.Proofs.Assembly.Consumption
import NestedColumns.Proofs.Assembly.Unfinished
import NestedColumns.Proofs.Assembly.Shaped
import NestedColumns.Proofs.Assembly.Opened
import NestedColumns.Proofs.Assembly.Safety
import NestedColumns.Proofs.Assembly.Iteration
import NestedColumns.Proofs.Schema.Trees
import NestedColumns.Proofs.Table.Reading
import NestedColumns.Proofs.Projection.Kept
import NestedColumns.Proofs.Schema.Entries
import NestedColumns.Proofs.Projection.Reduced
import NestedColumns.Proofs.Projection.StoresLess
import NestedColumns.Proofs.Striping.Conformity
import NestedColumns.Proofs.Table.Delivery
import NestedColumns.Proofs.Json.RoundTrip
import NestedColumns.Proofs.Assembly.Ended
import NestedColumns.Proofs.Table.Shortened
import NestedColumns.Proofs.Schema.Derived
import NestedColumns.Proofs.Schema.Paths
import NestedColumns.Proofs.Schema.Renumbering
import NestedColumns.Proofs.Striping.Renumbering
import NestedColumns.Proofs.Projection.Canonical
import NestedColumns.Proofs.Projection.Intersection
import NestedColumns.Proofs.Column.Log
import NestedColumns.Proofs.Record.EmptyLists
import NestedColumns.Proofs.Json.Required
import NestedColumns.Proofs.Json.NormalForm
import NestedColumns.Proofs.Schema.Drafts
import NestedColumns.Proofs.Sample.Conformity
import NestedColumns.Proofs.Schema.Ancestors
import NestedColumns.Proofs.Striping.Absence
