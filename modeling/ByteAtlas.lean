import ByteAtlas.Cbor
import ByteAtlas.Decimal.Binary
import ByteAtlas.Decimal.Numeral
import ByteAtlas.Decimal.Shortest
import ByteAtlas.Declarations.Order
import ByteAtlas.Declarations.Text
import ByteAtlas.Definition.Adoption
import ByteAtlas.Definition.Canonical
import ByteAtlas.Definition.Rivals
import ByteAtlas.Digest.Blake3
import ByteAtlas.Document.Basic
import ByteAtlas.Document.Edits
import ByteAtlas.Edit.Apply
import ByteAtlas.Edit.Basic
import ByteAtlas.Edit.Error
import ByteAtlas.Edit.OnTree
import ByteAtlas.Files
import ByteAtlas.History
import ByteAtlas.Json.Basic
import ByteAtlas.Json.Order
import ByteAtlas.Json.Reader
import ByteAtlas.Json.Record
import ByteAtlas.Json.Writer
import ByteAtlas.Kind
import ByteAtlas.Listing.Basic
import ByteAtlas.Listing.Values
import ByteAtlas.Members
import ByteAtlas.Node
import ByteAtlas.Preferences
import ByteAtlas.Settings.Service
import ByteAtlas.Settings.Store
import ByteAtlas.Source.Basic
import ByteAtlas.Source.Buffer
import ByteAtlas.Source.Image
import ByteAtlas.Source.Remote
import ByteAtlas.Stored.Node
import ByteAtlas.Stored.Tree
import ByteAtlas.Text.Blank
import ByteAtlas.Text.Digits
import ByteAtlas.Text.Printable
import ByteAtlas.Text.Quoted
import ByteAtlas.Text.Utf16
import ByteAtlas.Text.Utf8
import ByteAtlas.Tree.Address
import ByteAtlas.Tree.Basic
import ByteAtlas.Tree.Extent
import ByteAtlas.Tree.Places
import ByteAtlas.Tree.Walk
import ByteAtlas.Value.Error
import ByteAtlas.Value.Read
import ByteAtlas.Value.Show
import ByteAtlas.Word
import ByteAtlas.Workspace
import ByteAtlas.Proofs.Tree.Forest
import ByteAtlas.Proofs.Tree.WellFormed
import ByteAtlas.Proofs.Tree.Changes
import ByteAtlas.Proofs.Tree.InPlace
import ByteAtlas.Proofs.Tree.Structure
import ByteAtlas.Proofs.Tree.Subtree
import ByteAtlas.Proofs.Tree.Restore
import ByteAtlas.Proofs.Source.Buffer
import ByteAtlas.Proofs.Tree.Alike
import ByteAtlas.Proofs.Edit.Alike
import ByteAtlas.Proofs.Edit.Faithful
import ByteAtlas.Proofs.Tree.Building
import ByteAtlas.Proofs.Definition.Ids
import ByteAtlas.Proofs.Value.Length
import ByteAtlas.Proofs.Edit.Sound
import ByteAtlas.Proofs.Document.Requests
import ByteAtlas.Proofs.Document.Reachable
import ByteAtlas.Proofs.Document.Timeline
import ByteAtlas.Proofs.Definition.Copies
import ByteAtlas.Proofs.Definition.Drafts
import ByteAtlas.Proofs.Definition.Plan
import ByteAtlas.Proofs.Text.Digits
import ByteAtlas.Proofs.Value.Numbers
import ByteAtlas.Proofs.Json.Scan
import ByteAtlas.Proofs.Json.RoundTrip
import ByteAtlas.Proofs.Json.Record
import ByteAtlas.Proofs.Stored.RoundTrip
import ByteAtlas.Proofs.Text.Coding
import ByteAtlas.Proofs.Text.Utf8
import ByteAtlas.Proofs.Text.Utf16
import ByteAtlas.Proofs.Value.Texts
import ByteAtlas.Proofs.Cbor
import ByteAtlas.Proofs.Tree.Outline
import ByteAtlas.Proofs.Tree.Replica
import ByteAtlas.Proofs.Definition.Shape
import ByteAtlas.Proofs.Definition.Canonical
import ByteAtlas.Proofs.Definition.Names
import ByteAtlas.Proofs.Document.Imports
import ByteAtlas.Proofs.Definition.Fidelity
import ByteAtlas.Proofs.Stored.Reopen
import ByteAtlas.Proofs.Declarations.Order
import ByteAtlas.Proofs.Tree.Address
import ByteAtlas.Proofs.Tree.Preorder
import ByteAtlas.Proofs.Listing.Rows
import ByteAtlas.Proofs.Source.Settled
import ByteAtlas.Proofs.Edit.Quiet
import ByteAtlas.Proofs.Document.Refusals
import ByteAtlas.Proofs.Tree.Mapped
import ByteAtlas.Proofs.Tree.Sizing
import ByteAtlas.Proofs.Tree.Acyclic
import ByteAtlas.Proofs.Listing.Blocks
import ByteAtlas.Proofs.Listing.Openings
import ByteAtlas.Proofs.Listing.Embedded
import ByteAtlas.Proofs.Listing.Brackets
import ByteAtlas.Proofs.Document.Mapping
import ByteAtlas.Proofs.Document.Relocated
import ByteAtlas.Proofs.Document.Offsets
import ByteAtlas.Proofs.Stored.Accepted
import ByteAtlas.Proofs.Document.Issued
import ByteAtlas.Proofs.History.Limit
import ByteAtlas.Proofs.Tree.PlainSize
import ByteAtlas.Proofs.Edit.Removal
import ByteAtlas.Proofs.Edit.Admitted
import ByteAtlas.Proofs.Tree.Corresponding
import ByteAtlas.Proofs.Tree.Descent
import ByteAtlas.Proofs.Listing.Covered
import ByteAtlas.Proofs.Definition.Sizes
import ByteAtlas.Proofs.Document.Copied
import ByteAtlas.Proofs.Document.TypeNames
import ByteAtlas.Proofs.Value.Pairs
import ByteAtlas.Proofs.Value.Numerals
import ByteAtlas.Proofs.Text.Continued
import ByteAtlas.Proofs.Listing.Shortened
import ByteAtlas.Proofs.Declarations.Lines
import ByteAtlas.Proofs.Declarations.Reach
import ByteAtlas.Proofs.Members.Spans
import ByteAtlas.Proofs.Members.Runs
import ByteAtlas.Proofs.Members.Partition
import ByteAtlas.Proofs.Declarations.Gaps
import ByteAtlas.Proofs.Declarations.Tags
import ByteAtlas.Proofs.Declarations.MemberTags
import ByteAtlas.Proofs.Source.Calls
import ByteAtlas.Proofs.Source.Written
import ByteAtlas.Proofs.Source.Coverage
import ByteAtlas.Proofs.Source.Forwarded
import ByteAtlas.Proofs.Source.Exchange
import ByteAtlas.Proofs.Edit.Moved
import ByteAtlas.Proofs.Definition.Lookup
import ByteAtlas.Proofs.Workspace.Origin
import ByteAtlas.Proofs.Settings.Preferences
