import WhenClause.Blake3
import WhenClause.Rule
import WhenClause.Snapshot.Codec

/-!
# Saving and loading rules

The payload of a rule states how many nodes its live tree stores and holds the plain group that the
tree stands for. Loading builds a new tree from that group, so no handle outlives a snapshot.
-/

namespace WhenClause.Rule

open Snapshot (Digest Payload)

def toPayload (r : Rule) : Payload :=
  ⟨r.tree.groupCount, r.tree.conditionCount, r.name, r.tree.rootGroup?⟩

def ofPayload (p : Payload) : Rule := ofGroup? p.name p.group

def encode (digest : Bytes → Digest) (r : Rule) : Bytes := Snapshot.encode digest r.toPayload

def decode (digest : Bytes → Digest) (bytes : Bytes) : Except Snapshot.Error Rule :=
  (Snapshot.decode digest bytes).map ofPayload

def toBytes (r : Rule) : Bytes := r.encode Blake3.digest

def ofBytes (bytes : Bytes) : Except Snapshot.Error Rule := decode Blake3.digest bytes

end WhenClause.Rule
