import BinaryLayout.Atom.Compare
import BinaryLayout.Atom.Summary
import BinaryLayout.Bitmap.Arithmetic
import BinaryLayout.Bitmap.Scan
import BinaryLayout.Document.Operations
import BinaryLayout.Proofs.Bitmap.Arithmetic
import BinaryLayout.Proofs.Bitmap.Pieces
import BinaryLayout.Proofs.Bitmap.Vector
import BinaryLayout.Proofs.Blame.Document
import BinaryLayout.Proofs.Comparison.Bytes
import BinaryLayout.Proofs.Document.Commit
import BinaryLayout.Proofs.Document.Places
import BinaryLayout.Proofs.Document.Rules
import BinaryLayout.Proofs.Ending.Array
import BinaryLayout.Proofs.Ending.Bits
import BinaryLayout.Proofs.Ending.Limit
import BinaryLayout.Proofs.Ending.Load
import BinaryLayout.Proofs.Ending.Read
import BinaryLayout.Proofs.Ending.Terminated
import BinaryLayout.Proofs.Ending.View
import BinaryLayout.Proofs.Exact.Bitmap
import BinaryLayout.Proofs.Exact.Document
import BinaryLayout.Proofs.Exact.Refused
import BinaryLayout.Proofs.Exact.Text
import BinaryLayout.Proofs.Exact.Varint
import BinaryLayout.Proofs.Extent.Allocate
import BinaryLayout.Proofs.Extent.Document
import BinaryLayout.Proofs.Extent.Partition
import BinaryLayout.Proofs.Flags.Document
import BinaryLayout.Proofs.FloatingPoint.Half
import BinaryLayout.Proofs.FloatingPoint.Rounding
import BinaryLayout.Proofs.Frame.Document
import BinaryLayout.Proofs.Handles.Balance
import BinaryLayout.Proofs.Handles.Document
import BinaryLayout.Proofs.Handles.Edit
import BinaryLayout.Proofs.Handles.Forest
import BinaryLayout.Proofs.Handles.Load
import BinaryLayout.Proofs.Handles.Operations
import BinaryLayout.Proofs.Handles.Surroundings
import BinaryLayout.Proofs.Handles.Walk
import BinaryLayout.Proofs.Isolation.Load
import BinaryLayout.Proofs.Layout.Uses
import BinaryLayout.Proofs.Locality.Array
import BinaryLayout.Proofs.Locality.Bits
import BinaryLayout.Proofs.Locality.Document
import BinaryLayout.Proofs.Locality.Load
import BinaryLayout.Proofs.Locality.Read
import BinaryLayout.Proofs.Locality.View
import BinaryLayout.Proofs.Naming.Basic
import BinaryLayout.Proofs.Naming.Document
import BinaryLayout.Proofs.Naming.Edit
import BinaryLayout.Proofs.Naming.Load
import BinaryLayout.Proofs.Naming.Lookup
import BinaryLayout.Proofs.Naming.Members
import BinaryLayout.Proofs.Naming.Surroundings
import BinaryLayout.Proofs.Naming.Text
import BinaryLayout.Proofs.Placement.Basic
import BinaryLayout.Proofs.Placement.Bits
import BinaryLayout.Proofs.Placement.Covering
import BinaryLayout.Proofs.Placement.Document
import BinaryLayout.Proofs.Placement.Edit
import BinaryLayout.Proofs.Placement.Failure
import BinaryLayout.Proofs.Placement.Load
import BinaryLayout.Proofs.Placement.Surroundings
import BinaryLayout.Proofs.Pointers.Address
import BinaryLayout.Proofs.Pointers.Document
import BinaryLayout.Proofs.Pointers.Exact
import BinaryLayout.Proofs.Prediction.Document
import BinaryLayout.Proofs.Registry.History
import BinaryLayout.Proofs.Replay.Copy
import BinaryLayout.Proofs.Replay.Document
import BinaryLayout.Proofs.Resize.Document
import BinaryLayout.Proofs.RoundTrip.Bits
import BinaryLayout.Proofs.RoundTrip.Fields
import BinaryLayout.Proofs.RoundTrip.Load
import BinaryLayout.Proofs.RoundTrip.Read
import BinaryLayout.Proofs.RoundTrip.Truncation
import BinaryLayout.Proofs.Run
import BinaryLayout.Proofs.Source.Contract
import BinaryLayout.Proofs.Source.Read
import BinaryLayout.Proofs.Span.Bits
import BinaryLayout.Proofs.Span.Load
import BinaryLayout.Proofs.Tree.Outline
import BinaryLayout.Proofs.Tree.Recast
import BinaryLayout.Proofs.Tree.Rename
import BinaryLayout.Proofs.Tree.Shape
import BinaryLayout.Proofs.Tree.Walk
import BinaryLayout.Template.Rules
import BinaryLayout.Term.Template
