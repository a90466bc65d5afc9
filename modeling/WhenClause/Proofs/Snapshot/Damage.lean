import WhenClause.Proofs.Snapshot.RoundTrip

/-!
# Damaged snapshots

Damage to a snapshot is found, and the fault is that of the first part that is not as it was. Six
bytes of the header may be anything. No check can tell a snapshot from one that was made anew, with
another payload and the digest of it. But if the digest was not touched, two payloads share it.
-/

namespace WhenClause.Snapshot

/-- The first part of a snapshot that is not as it was, by the fault that this leads to. -/
inductive Damaged (b b' : Bytes) : Error → Prop
  | magic (word : b'.take 4 ≠ b.take 4) : Damaged b b' .badMagic
  | version (word : b'.take 4 = b.take 4) (version : (b'.drop 4).take 2 ≠ (b.drop 4).take 2) :
      Damaged b b' (.incompatibleVersion (ofLittleEndian ((b'.drop 4).take 2)))
  | length (front : b'.take 6 = b.take 6) (length : (b'.drop 12).take 4 ≠ (b.drop 12).take 4) :
      Damaged b b' (.lengthMismatch (ofLittleEndian ((b'.drop 12).take 4))
        (b'.length - headerLength))
  | checksum (front : b'.take 6 = b.take 6) (length : (b'.drop 12).take 4 = (b.drop 12).take 4)
      (rest : b'.drop 16 ≠ b.drop 16) : Damaged b b' .checksumMismatch

/-- Another payload, with the digest of it. -/
structure Forged (digest : Bytes → Digest) (b b' : Bytes) : Prop where
  front : b'.take 6 = b.take 6
  length : (b'.drop 12).take 4 = (b.drop 12).take 4
  payload : b'.drop headerLength ≠ b.drop headerLength
  hash : (digest (b'.drop headerLength)).toList = (b'.drop 16).take 16

structure Intact (digest : Bytes → Digest) (b : Bytes) : Prop where
  long : headerLength ≤ b.length
  word : b.take 4 = magic
  version : ofLittleEndian ((b.drop 4).take 2) = formatVersion
  length : (b.drop headerLength).length = ofLittleEndian ((b.drop 12).take 4)
  hash : (digest (b.drop headerLength)).toList = (b.drop 16).take 16

variable {digest : Bytes → Digest} {b b' payload : Bytes}

theorem Intact.unwrap (h : Intact digest b) :
    unwrap digest b = .ok (b.drop headerLength) := by
  rw [unwrap_eq, if_neg (Nat.not_lt.2 h.long), if_neg (not_not.2 h.word),
    if_neg (not_not.2 h.version), if_neg (not_not.2 h.length), if_neg (not_not.2 h.hash)]

theorem intact_of_unwrap (h : unwrap digest b = .ok payload) :
    Intact digest b ∧ b.drop headerLength = payload := by
  rw [unwrap_eq] at h
  split_ifs at h with hlong hword hversion hlength hhash
  cases h
  exact ⟨⟨Nat.not_lt.1 hlong, not_not.1 hword, not_not.1 hversion, not_not.1 hlength,
    not_not.1 hhash⟩, rfl⟩

theorem intact_encode {p : Payload} (h : p.write.length < capacity 4) :
    Intact digest (encode digest p) ∧ (encode digest p).drop headerLength = p.write := by
  apply intact_of_unwrap
  rw [encode_eq, Nat.mod_eq_of_lt h, unwrap_frame length_unread (Vector.length_toList ..) h,
    if_neg (not_not.2 rfl), if_neg (not_not.2 rfl)]

/-! ## Parts that are as they were -/

theorem field_eq_of_take {s w n : Nat} (h : b'.take n = b.take n) (hle : s + w ≤ n) :
    (b'.drop s).take w = (b.drop s).take w := by
  have hpart (bytes : Bytes) : (bytes.drop s).take w = ((bytes.take n).take (s + w)).drop s := by
    rw [List.take_take, Nat.min_eq_left hle, List.take_drop]
  rw [hpart b', hpart b, h]

theorem take_eq_of_take {m n : Nat} (h : b'.take n = b.take n) (hle : m ≤ n) :
    b'.take m = b.take m :=
  field_eq_of_take (s := 0) h (by omega)

theorem drop_eq_of_drop {m n : Nat} (h : b'.drop m = b.drop m) (hle : m ≤ n) :
    b'.drop n = b.drop n := by
  obtain ⟨k, rfl⟩ := Nat.le.dest hle
  rw [← List.drop_drop, ← List.drop_drop, h]

theorem field_eq_iff {start width : Nat} (h : start + width ≤ b.length)
    (h' : start + width ≤ b'.length) :
    ofLittleEndian ((b'.drop start).take width) = ofLittleEndian ((b.drop start).take width) ↔
      (b'.drop start).take width = (b.drop start).take width := by
  constructor
  · intro heq
    rw [← littleEndian_field h', heq, littleEndian_field h]
  · exact congrArg ofLittleEndian

theorem Intact.word_and_version (h : Intact digest b) (hfront : b'.take 6 = b.take 6) :
    b'.take 4 = magic ∧ ofLittleEndian ((b'.drop 4).take 2) = formatVersion := by
  rw [take_eq_of_take hfront (by decide), field_eq_of_take hfront (by decide)]
  exact ⟨h.word, h.version⟩

theorem same_iff :
    (∀ i, i < 6 ∨ 12 ≤ i → b'[i]? = b[i]?) ↔ b'.take 6 = b.take 6 ∧ b'.drop 12 = b.drop 12 := by
  constructor
  · intro h
    constructor
    · apply List.ext_getElem?
      intro i
      rw [List.getElem?_take, List.getElem?_take]
      split
      · exact h i (.inl ‹_›)
      · rfl
    · apply List.ext_getElem?
      intro i
      rw [List.getElem?_drop, List.getElem?_drop]
      exact h (12 + i) (.inr (Nat.le_add_right 12 i))
  · rintro ⟨hfront, hrest⟩ i (hi | hi)
    · have hget := congrArg (·[i]?) hfront
      simpa only [List.getElem?_take, if_pos hi] using hget
    · have hget := congrArg (·[i - 12]?) hrest
      simpa only [List.getElem?_drop, Nat.add_sub_cancel' hi] using hget

theorem unwrap_congr (hlength : b'.length = b.length) (hfront : b'.take 6 = b.take 6)
    (hrest : b'.drop 12 = b.drop 12) : unwrap digest b' = unwrap digest b := by
  have hword : b'.take 4 = b.take 4 := take_eq_of_take hfront (by decide)
  have hversion : (b'.drop 4).take 2 = (b.drop 4).take 2 := field_eq_of_take hfront (by decide)
  have hhash : b'.drop 16 = b.drop 16 := drop_eq_of_drop hrest (by decide)
  have hpayload : b'.drop headerLength = b.drop headerLength := drop_eq_of_drop hrest (by decide)
  rw [unwrap_eq, unwrap_eq, hlength, hword, hversion, hrest, hhash, hpayload]

/-! ## Parts that are not -/

theorem exists_damaged (h : ¬ ∀ i, i < 6 ∨ 12 ≤ i → b'[i]? = b[i]?) : ∃ e, Damaged b b' e := by
  rw [same_iff] at h
  by_cases hword : b'.take 4 = b.take 4
  case neg => exact ⟨_, .magic hword⟩
  by_cases hversion : (b'.drop 4).take 2 = (b.drop 4).take 2
  case neg => exact ⟨_, .version hword hversion⟩
  have hfront : b'.take 6 = b.take 6 := by
    rw [List.take_add (i := 4) (j := 2), List.take_add (i := 4) (j := 2), hword, hversion]
  by_cases hlength : (b'.drop 12).take 4 = (b.drop 12).take 4
  case neg => exact ⟨_, .length hfront hlength⟩
  refine ⟨_, .checksum hfront hlength fun hrest => h ⟨hfront, ?_⟩⟩
  rw [← field_append_drop b' 12 4, ← field_append_drop b 12 4, hlength, hrest]

theorem unwrap_of_damaged (h : Intact digest b) (hlength : b'.length = b.length) {e : Error}
    (hdamaged : Damaged b b' e) (hforged : ¬ Forged digest b b') :
    unwrap digest b' = .error e := by
  have hlong : 32 ≤ b.length := h.long
  have hlong' : ¬ b'.length < headerLength := by
    rw [hlength]
    exact Nat.not_lt.2 hlong
  rw [unwrap_eq, if_neg hlong']
  cases hdamaged with
  | magic word =>
    rw [h.word] at word
    rw [if_pos word]
  | version word version =>
    rw [← h.word, ← h.version, if_neg (not_not.2 word),
      if_pos fun heq => version ((field_eq_iff (by omega) (by omega)).1 heq)]
  | length front length =>
    have hother : (b'.drop headerLength).length ≠ ofLittleEndian ((b'.drop 12).take 4) := by
      rw [List.length_drop, hlength, ← List.length_drop, h.length]
      exact fun heq => length ((field_eq_iff (by omega) (by omega)).1 heq.symm)
    obtain ⟨hword, hversion⟩ := h.word_and_version front
    rw [if_neg (not_not.2 hword), if_neg (not_not.2 hversion), if_pos hother, List.length_drop]
  | checksum front length rest =>
    have hsame : (b'.drop headerLength).length = ofLittleEndian ((b'.drop 12).take 4) := by
      rw [List.length_drop, hlength, ← List.length_drop, h.length, length]
    have hother : (digest (b'.drop headerLength)).toList ≠ (b'.drop 16).take 16 := by
      intro hhash
      -- The digest of the old payload is the old digest, and then nothing would differ.
      by_cases hpayload : b'.drop headerLength = b.drop headerLength
      · apply rest
        have hfield : (b'.drop 16).take 16 = (b.drop 16).take 16 := by
          rw [← hhash, hpayload, h.hash]
        rw [← field_append_drop b' 16 16, ← field_append_drop b 16 16, hfield]
        exact congrArg _ hpayload
      · exact hforged ⟨front, length, hpayload, hhash⟩
    obtain ⟨hword, hversion⟩ := h.word_and_version front
    rw [if_neg (not_not.2 hword), if_neg (not_not.2 hversion), if_neg (not_not.2 hsame),
      if_pos hother]

namespace Forged

theorem intact (h : Forged digest b b') (hb : Intact digest b) (hlength : b'.length = b.length) :
    Intact digest b' where
  long := hlength ▸ hb.long
  word := (hb.word_and_version h.front).1
  version := (hb.word_and_version h.front).2
  length := by rw [List.length_drop, hlength, ← List.length_drop, hb.length, h.length]
  hash := h.hash

theorem eq_checksumMismatch (h : Forged digest b b') {e : Error} (hdamaged : Damaged b b' e) :
    e = .checksumMismatch := by
  cases hdamaged with
  | magic word => exact absurd (take_eq_of_take h.front (by decide)) word
  | version _ version => exact absurd (field_eq_of_take h.front (by decide)) version
  | length _ length => exact absurd h.length length
  | checksum => rfl

theorem collision (h : Forged digest b b') (hb : Intact digest b)
    (hhash : (b'.drop 16).take 16 = (b.drop 16).take 16) :
    digest (b'.drop headerLength) = digest (b.drop headerLength) := by
  rw [← Vector.toList_inj, h.hash, hhash, hb.hash]

end Forged

theorem Intact.decode_ne_checksumMismatch (h : Intact digest b) :
    decode digest b ≠ .error .checksumMismatch := by
  intro herror
  rw [decode, h.unwrap] at herror
  -- Behind the header there are only the faults of the payload and of its counts.
  have hpayload : Payload.read (b.drop headerLength) >>= Payload.validate =
    .error .checksumMismatch := herror
  cases hread : Payload.read (b.drop headerLength) with
  | error e =>
    rw [hread] at hpayload
    cases hpayload
    rw [Payload.read] at hread
    split at hread <;> cases hread
  | ok q =>
    rw [hread] at hpayload
    have hvalidate : q.validate = .error .checksumMismatch := hpayload
    rw [validate_eq] at hvalidate
    split at hvalidate
    · cases hvalidate
    · split at hvalidate <;> cases hvalidate

/-! ## Other lengths -/

theorem Intact.unwrap_of_length (h : Intact digest b) (hfront : b'.take 16 = b.take 16)
    (hlong : headerLength ≤ b'.length) (hlength : b'.length ≠ b.length) :
    Snapshot.unwrap digest b' =
      .error (.lengthMismatch (b.length - headerLength) (b'.length - headerLength)) := by
  obtain ⟨hword, hversion⟩ := h.word_and_version (take_eq_of_take hfront (by decide))
  have hstated : ofLittleEndian ((b'.drop 12).take 4) = b.length - headerLength := by
    rw [field_eq_of_take hfront (by decide), ← h.length, List.length_drop]
  have hlong' := h.long
  rw [unwrap_eq, if_neg (Nat.not_lt.2 hlong), if_neg (not_not.2 hword),
    if_neg (not_not.2 hversion), hstated, List.length_drop, if_pos (by omega)]

theorem Intact.unwrap_of_cut {front back : Bytes} (h : Intact digest (front ++ back))
    (hback : back ≠ []) :
    Snapshot.unwrap digest front = .error (if front.length < headerLength
      then .lengthMismatch headerLength front.length
      else .lengthMismatch ((front ++ back).length - headerLength)
        (front.length - headerLength)) := by
  have hpos : 0 < back.length := List.length_pos_iff.2 hback
  by_cases hlong : front.length < headerLength
  · rw [unwrap_eq, if_pos hlong, if_pos hlong]
  · have hheader : 16 ≤ headerLength := by decide
    have hfront : front.take 16 = (front ++ back).take 16 :=
      (List.take_append_of_le_length (by omega)).symm
    have hlength : front.length ≠ (front ++ back).length := by
      rw [List.length_append]
      omega
    rw [h.unwrap_of_length hfront (Nat.not_lt.1 hlong) hlength, if_neg hlong]

theorem Intact.unwrap_append (h : Intact digest b) {back : Bytes} (hback : back ≠ []) :
    Snapshot.unwrap digest (b ++ back) = .error (.lengthMismatch (b.length - headerLength)
      (b.length - headerLength + back.length)) := by
  have hpos : 0 < back.length := List.length_pos_iff.2 hback
  have hlong := h.long
  have hheader : 16 ≤ headerLength := by decide
  have hfront : (b ++ back).take 16 = b.take 16 := List.take_append_of_le_length (by omega)
  have hlength : (b ++ back).length = b.length + back.length := List.length_append
  rw [h.unwrap_of_length hfront (by omega) (by omega), hlength, Nat.sub_add_comm hlong]

end WhenClause.Snapshot

namespace WhenClause.Rule

open Snapshot (Damaged Digest Forged Intact capacity headerLength)

variable {r : Rule} {digest : Bytes → Digest} {bytes : Bytes}

theorem decode_of_unwrap {e : Snapshot.Error} (h : Snapshot.unwrap digest bytes = .error e) :
    decode digest bytes = .error e := by
  rw [decode, Snapshot.decode_of_unwrap h]
  rfl

theorem decode_ne_checksumMismatch (h : Intact digest bytes) :
    decode digest bytes ≠ .error .checksumMismatch := by
  intro herror
  apply h.decode_ne_checksumMismatch
  rw [decode] at herror
  cases hdecode : Snapshot.decode digest bytes with
  | error e =>
    rw [hdecode] at herror
    cases herror
    rfl
  | ok q =>
    rw [hdecode] at herror
    cases herror

theorem decode_congr {bytes' : Bytes}
    (h : Snapshot.unwrap digest bytes' = Snapshot.unwrap digest bytes) :
    decode digest bytes' = decode digest bytes := by
  rw [decode, decode, Snapshot.decode, Snapshot.decode, h]

theorem decode_of_damaged {b b' : Bytes} (h : Intact digest b) (hlength : b'.length = b.length)
    (hdiffers : ∃ i, (i < 6 ∨ 12 ≤ i) ∧ b'[i]? ≠ b[i]?) :
    (∃ e, Damaged b b' e ∧ decode digest b' = .error e) ↔ ¬ Forged digest b b' := by
  constructor
  · rintro ⟨e, hdamaged, herror⟩ hforged
    rw [hforged.eq_checksumMismatch hdamaged] at herror
    exact decode_ne_checksumMismatch (hforged.intact h hlength) herror
  · intro hforged
    obtain ⟨i, hi, hne⟩ := hdiffers
    obtain ⟨e, hdamaged⟩ := Snapshot.exists_damaged fun hsame => hne (hsame i hi)
    exact ⟨e, hdamaged, decode_of_unwrap (Snapshot.unwrap_of_damaged h hlength hdamaged hforged)⟩

/-- A snapshot that is cut off or continued has the wrong length. One that was changed in place has
the fault of the first part that is not as it was, unless it is forged, which takes two payloads of
one digest if the digest is as it was. Six bytes of the header may be anything. -/
theorem decode_damaged (h : r.tree.Reachable) (hsize : r.toPayload.write.length < 0x100000000)
    (digest : Bytes → Digest) :
    let b := r.encode digest
    let size := r.toPayload.write.length
    (∀ front back, b = front ++ back → back ≠ [] →
      decode digest front = .error (if front.length < headerLength
        then .lengthMismatch headerLength front.length
        else .lengthMismatch size (front.length - headerLength))) ∧
    (∀ back, back ≠ [] →
      decode digest (b ++ back) = .error (.lengthMismatch size (size + back.length))) ∧
    (∀ b', b'.length = b.length → (∃ i, (i < 6 ∨ 12 ≤ i) ∧ b'[i]? ≠ b[i]?) →
      ((∃ e, Damaged b b' e ∧ decode digest b' = .error e) ↔ ¬ Forged digest b b') ∧
      (Forged digest b b' → (b'.drop 16).take 16 = (b.drop 16).take 16 →
        b'.drop headerLength ≠ r.toPayload.write ∧
          digest (b'.drop headerLength) = digest r.toPayload.write)) ∧
    ∀ b', b'.length = b.length → (∀ i, i < 6 ∨ 12 ≤ i → b'[i]? = b[i]?) →
      decode digest b' = decode digest b ∧ ∃ r', decode digest b' = .ok r' ∧ r'.Alike r := by
  intro b size
  have hcapacity : 0x100000000 = capacity 4 := by decide
  rw [hcapacity] at hsize
  obtain ⟨hintact, hpayload⟩ : Intact digest b ∧ b.drop headerLength = r.toPayload.write :=
    Snapshot.intact_encode hsize
  have hlength : b.length - headerLength = size := by
    rw [← List.length_drop, hpayload]
  refine ⟨?_, ?_, ?_, ?_⟩
  · intro front back hsplit hback
    rw [hsplit] at hintact hlength
    rw [decode_of_unwrap (hintact.unwrap_of_cut hback), hlength]
  · intro back hback
    rw [decode_of_unwrap (hintact.unwrap_append hback), hlength]
  · intro b' hb' hdiffers
    refine ⟨decode_of_damaged hintact hb' hdiffers, fun hforged hhash => ?_⟩
    rw [← hpayload]
    exact ⟨hforged.payload, hforged.collision hintact hhash⟩
  · intro b' hb' hsame
    obtain ⟨hfront, hrest⟩ := Snapshot.same_iff.1 hsame
    have hcongr : decode digest b' = decode digest b :=
      decode_congr (Snapshot.unwrap_congr hb' hfront hrest)
    rw [hcongr]
    exact ⟨rfl, exists_decode_encode h digest hsize⟩

/-- Damage to the name, and a use of the flags. Under a digest that is the same for all payloads
nothing guards the name. -/
theorem decode_damaged_name :
    let t := (Tree.ofGroup ⟨none, [.ofList [("limit", .int 300)]], []⟩).run [.toggle ⟨⟨0, 0⟩⟩]
    let r : Rule := ⟨"credit", t⟩
    let b := r.encode Blake3.digest
    let constant : Bytes → Digest := fun _ => Vector.replicate 16 0
    let c := r.encode constant
    r.tree.Reachable ∧ r.toPayload.write.length = 25 ∧
      decode Blake3.digest (b.take 40) = .error (.lengthMismatch 25 8) ∧
      decode Blake3.digest (b ++ [0]) = .error (.lengthMismatch 25 26) ∧
      (¬ Forged Blake3.digest b (b.set 35 67) ∧
        ∃ e, Damaged b (b.set 35 67) e ∧ decode Blake3.digest (b.set 35 67) = .error e) ∧
      (Forged constant c (c.set 35 67) ∧
        ¬ ∃ e, Damaged c (c.set 35 67) e ∧ decode constant (c.set 35 67) = .error e) ∧
      ∃ r', decode Blake3.digest (b.set 8 1) = .ok r' ∧ r'.Alike r := by
  intro t r b constant c
  have hreached : r.tree.Reachable := ⟨_, _, .ofGroup _, rfl⟩
  have hlength : r.toPayload.write.length = 25 := by decide +kernel
  have hshort : r.toPayload.write.length < 0x100000000 := by decide +kernel
  obtain ⟨hcut, hextended, hchanged, hunread⟩ := decode_damaged hreached hshort Blake3.digest
  have hgenuine : ¬ Forged Blake3.digest b (b.set 35 67) := by
    intro hforged
    have hhash := hforged.hash
    revert hhash
    decide +kernel
  have hforged : Forged constant c (c.set 35 67) :=
    ⟨by decide +kernel, by decide +kernel, by decide +kernel, by decide +kernel⟩
  refine ⟨hreached, hlength, ?_, ?_, ⟨hgenuine, ?_⟩, ⟨hforged, ?_⟩, ?_⟩
  · have hsplit : b = b.take 40 ++ b.drop 40 := (List.take_append_drop 40 b).symm
    have herror := hcut (b.take 40) (b.drop 40) hsplit (by decide +kernel)
    have hforty : (b.take 40).length = 40 := by decide +kernel
    rw [hlength, hforty] at herror
    exact herror
  · have herror := hextended [0] (by decide)
    rw [hlength] at herror
    exact herror
  · exact (hchanged (b.set 35 67) List.length_set ⟨35, by decide, by decide +kernel⟩).1.2 hgenuine
  · obtain ⟨_, _, hchanged', _⟩ := decode_damaged hreached hshort constant
    have hiff := (hchanged' (c.set 35 67) List.length_set ⟨35, by decide, by decide +kernel⟩).1
    exact fun herror => hiff.1 herror hforged
  · refine (hunread (b.set 8 1) List.length_set fun i hi => ?_).2
    rw [List.getElem?_set_ne (by omega)]

end WhenClause.Rule
