import WhenClause.Proofs.Snapshot.Acceptance
import WhenClause.Proofs.Snapshot.Writing

/-!
# Rules and their snapshots

A rule that was edited in any way loads from its snapshot, with the same name, the same value and
the same counts. That its counts are those of its value is because no edit leaves a node in store
that does not hang from the root. Only a payload of four gibibytes or more does not load, because
the header has no room for its length.
-/

namespace WhenClause.Snapshot

open Wire

theorem littleEndian_mod (width n : Nat) :
    littleEndian width (n % capacity width) = littleEndian width n := by
  induction width generalizing n with
  | zero => rfl
  | succ width ih =>
    have hlow : UInt8.ofNat (n % (capacity width * 256)) = UInt8.ofNat n := by
      rw [← UInt8.toNat_inj, UInt8.toNat_ofNat', UInt8.toNat_ofNat']
      exact Nat.mod_mod_of_dvd n (Nat.dvd_mul_left 256 (capacity width))
    have hhigh : n % (capacity width * 256) / 256 = n / 256 % capacity width := by
      rw [Nat.mul_comm, Nat.mod_mul_right_div_self]
    rw [littleEndian, littleEndian, capacity_succ, hlow, hhigh, ih]

variable {digest : Bytes → Digest} {p : Payload}

theorem length_unread : (littleEndian 2 writerVersion ++ littleEndian 4 0).length = 6 := by decide

theorem encode_eq (digest : Bytes → Digest) (p : Payload) :
    encode digest p = frame (littleEndian 2 writerVersion ++ littleEndian 4 0)
      (p.write.length % capacity 4) (digest p.write).toList p.write := by
  simp only [encode, wrap, header, frame, littleEndian_mod, List.append_assoc]

theorem counts_le_length_write (p : Payload) :
    p.countGroups + p.countConditions ≤ p.write.length := by
  have hwhole : p.countGroups + p.countConditions ≤ (writeWhole p.group).length := by
    rw [Payload.countGroups, Payload.countConditions]
    cases p.group with
    | none => exact Nat.zero_le _
    | some g => exact Nat.le_succ_of_le (counts_le_length_writeGroup g)
  rw [write_eq]
  simp only [List.length_append]
  omega

theorem held_of_counted (h : p.write.length ≤ largestBuffer)
    (hgroups : p.groupCount = p.countGroups) (hconditions : p.conditionCount = p.countConditions) :
    p.Held := by
  have hcounts := counts_le_length_write p
  have hwide := largestBuffer_lt_capacity
  exact fits_of_length hwide (by omega) (by omega) (Nat.lt_succ_of_le h)

theorem accepted_encode (digest : Bytes → Digest) (h : p.write.length < capacity 4)
    (hgroups : p.groupCount = p.countGroups) (hconditions : p.conditionCount = p.countConditions) :
    Accepted digest p (encode digest p) := by
  have hwide : capacity 4 ≤ largestBuffer := by decide
  have hle : p.write.length ≤ largestBuffer := Nat.le_trans (Nat.le_of_lt h) hwide
  have hform : PayloadForm p p.write :=
    payloadForm_write (held_of_counted hle hgroups hconditions)
  rw [encode_eq, Nat.mod_eq_of_lt h]
  exact .mk length_unread h hform hgroups hconditions

theorem fails_encode (h : capacity 4 ≤ p.write.length) :
    Fails digest (encode digest p)
      (.lengthMismatch (p.write.length % capacity 4) p.write.length) := by
  have hmod : p.write.length % capacity 4 < capacity 4 := Nat.mod_lt _ (by decide)
  rw [encode_eq]
  exact .length length_unread hmod (Vector.length_toList ..) (by omega)

end WhenClause.Snapshot

namespace WhenClause.Rule

open Snapshot (Digest capacity)

variable {r : Rule}

/-- Nothing but the handles in which two rules may differ. -/
structure Alike (r' r : Rule) : Prop where
  name : r'.name = r.name
  group : r'.tree.rootGroup? = r.tree.rootGroup?
  groupCount : r'.tree.groupCount = r.tree.groupCount
  conditionCount : r'.tree.conditionCount = r.tree.conditionCount

theorem Loads.alike {r' : Rule} (h : r'.Loads r.toPayload) : r'.Alike r :=
  ⟨h.name, h.group, h.groupCount, h.conditionCount⟩

theorem exists_decode_encode (h : r.tree.Reachable) (digest : Bytes → Digest)
    (hshort : r.toPayload.write.length < capacity 4) :
    ∃ r', decode digest (r.encode digest) = .ok r' ∧ r'.Alike r := by
  obtain ⟨_, hshape⟩ := h.shape
  have haccepted := Snapshot.accepted_encode digest hshort hshape.counted.groups
    hshape.counted.conditions
  exact ⟨_, decode_of_accepted haccepted, (loads_of_accepted haccepted).alike⟩

theorem decode_encode_of_long (digest : Bytes → Digest)
    (hlong : capacity 4 ≤ r.toPayload.write.length) :
    decode digest (r.encode digest) = .error (.lengthMismatch
      (r.toPayload.write.length % capacity 4) r.toPayload.write.length) :=
  decode_of_fails (Snapshot.fails_encode hlong)

/-- An edited rule survives a snapshot exactly if its payload is shorter than four gibibytes. -/
theorem decode_encode (h : r.tree.Reachable) (digest : Bytes → Digest) :
    (r.toPayload.write.length < 0x100000000 →
      ∃ r', decode digest (r.encode digest) = .ok r' ∧ r'.Alike r) ∧
    (0x100000000 ≤ r.toPayload.write.length →
      decode digest (r.encode digest) = .error (.lengthMismatch
        (r.toPayload.write.length % 0x100000000) r.toPayload.write.length)) ∧
    ((∃ r', decode digest (r.encode digest) = .ok r' ∧ r'.Alike r) ↔
      r.toPayload.write.length < 0x100000000) := by
  have hcapacity : 0x100000000 = capacity 4 := by decide
  rw [hcapacity]
  refine ⟨exists_decode_encode h digest, decode_encode_of_long digest, ?_,
    exists_decode_encode h digest⟩
  rintro ⟨r', hr', _⟩
  by_contra hlong
  rw [decode_encode_of_long digest (Nat.not_lt.1 hlong)] at hr'
  cases hr'

/-- One of the values is not a number, and a group comes and goes. -/
theorem decode_encode_reused_slot :
    let t := (Tree.ofGroup ⟨none, [.ofList [("limit", .float ⟨0x7ff8000000000001⟩)], .empty],
      []⟩).run [.addGroup (.group ⟨⟨0, 0⟩⟩) none, .addCondition ⟨⟨1, 0⟩⟩ none,
        .removeGroup ⟨⟨1, 0⟩⟩, .addCondition ⟨⟨0, 0⟩⟩ none, .toggle ⟨⟨0, 0⟩⟩]
    let r : Rule := ⟨"credit", t⟩
    r.tree.Reachable ∧ r.toPayload.write.length = 32 ∧
      ∃ r', decode Blake3.digest (r.encode Blake3.digest) = .ok r' ∧ r'.Alike r := by
  have hreached : ∀ es, ((Tree.ofGroup ⟨none, [.ofList [("limit",
      .float ⟨0x7ff8000000000001⟩)], .empty], []⟩).run es).Reachable :=
    fun es => ⟨_, es, .ofGroup _, rfl⟩
  refine ⟨hreached _, by decide +kernel, (decode_encode (hreached _) _).1 ?_⟩
  decide +kernel

end WhenClause.Rule
