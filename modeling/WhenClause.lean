import WhenClause.Editor
import WhenClause.Storage
import WhenClause.Proofs.Tree.Lookup
import WhenClause.Proofs.Tree.Place
import WhenClause.Proofs.Tree.Stored
import WhenClause.Proofs.Tree.Forest
import WhenClause.Proofs.Tree.Shape
import WhenClause.Proofs.Tree.Run
import WhenClause.Proofs.Tree.SinglePath
import WhenClause.Proofs.Slab.Expiry
import WhenClause.Proofs.Tree.Vantage
import WhenClause.Proofs.Tree.Stale
import WhenClause.Proofs.Tree.Issued
import WhenClause.Proofs.Tree.Change
import WhenClause.Proofs.Tree.Refinement
import WhenClause.Proofs.Binary64.Nearest
import WhenClause.Proofs.Notation.Grammar
import WhenClause.Proofs.Notation.Soundness
import WhenClause.Proofs.Notation.Completeness
import WhenClause.Proofs.Notation.Acceptance
import WhenClause.Proofs.Decimal.ReadBack
import WhenClause.Proofs.Condition.Listing
import WhenClause.Proofs.Notation.Printing
import WhenClause.Proofs.Notation.RoundTrip
import WhenClause.Proofs.Utf8.Decoding
import WhenClause.Proofs.Snapshot.Wire
import WhenClause.Proofs.Snapshot.Reading
import WhenClause.Proofs.Snapshot.Writing
import WhenClause.Proofs.Snapshot.Acceptance
import WhenClause.Proofs.Snapshot.RoundTrip
import WhenClause.Proofs.Editor.Notification
import WhenClause.Proofs.Snapshot.Canonical
import WhenClause.Proofs.Notation.Front
import WhenClause.Proofs.Notation.Rejection
import WhenClause.Proofs.Tree.Addressed
import WhenClause.Proofs.Editor.Move
import WhenClause.Proofs.Editor.Indistinguishable
import WhenClause.Proofs.Tree.Parent
import WhenClause.Proofs.Tree.Footprint
import WhenClause.Proofs.Tree.Pruning
import WhenClause.Proofs.Tree.Sandbox
import WhenClause.Proofs.Snapshot.Truncation
import WhenClause.Proofs.Editor.Gesture
import WhenClause.Proofs.Snapshot.Damage
import WhenClause.Proofs.Slab.InPlace
import WhenClause.Proofs.Tree.Retune
import WhenClause.Proofs.Editor.Toggling
import WhenClause.Proofs.Tree.Listing
import WhenClause.Proofs.Utf8.Order
import WhenClause.Proofs.Condition.Canonical
import WhenClause.Proofs.Tree.Descent
import WhenClause.Proofs.Tree.Settling
