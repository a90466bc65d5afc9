import WhenClause.Proofs.Snapshot.Overflow
import WhenClause.Proofs.Tree.Refinement

/-!
# Which bytes are a snapshot

A snapshot is a header and a payload in the wire format whose counts are those of its group. The
header has the magic word, the version of the format, six bytes that nobody looks at, and the
length and the digest of the payload. Any other bytes fail, and with the fault of the first check
that they do not pass. Among the payloads that are not in the wire format are those that stop the
program, where all others are reported.
-/

namespace WhenClause.Snapshot

open Wire

def frame (unread : Bytes) (length : Nat) (hash payload : Bytes) : Bytes :=
  magic ++ (littleEndian 2 formatVersion ++ (unread ++ (littleEndian 4 length ++
    (hash ++ payload))))

inductive Accepted (digest : Bytes → Digest) (q : Payload) : Bytes → Prop
  | mk {unread payload : Bytes} (six : unread.length = 6) (short : payload.length < capacity 4)
      (form : PayloadForm q payload) (groups : q.groupCount = q.countGroups)
      (conditions : q.conditionCount = q.countConditions) :
      Accepted digest q (frame unread payload.length (digest payload).toList payload)

/-- The checks in their order, each with the fault that bytes have which pass those before it. -/
inductive Fails (digest : Bytes → Digest) : Bytes → Error → Prop
  | header {bytes : Bytes} (h : bytes.length < headerLength) :
      Fails digest bytes (.lengthMismatch headerLength bytes.length)
  | magic {word rest : Bytes} (four : word.length = 4) (h : headerLength ≤ (word ++ rest).length)
      (other : word ≠ magic) : Fails digest (word ++ rest) .badMagic
  | version {version : Nat} {rest : Bytes} (two : version < capacity 2)
      (h : headerLength ≤ (Snapshot.magic ++ (littleEndian 2 version ++ rest)).length)
      (other : version ≠ formatVersion) :
      Fails digest (Snapshot.magic ++ (littleEndian 2 version ++ rest))
        (.incompatibleVersion version)
  | length {unread hash payload : Bytes} {length : Nat} (six : unread.length = 6)
      (four : length < capacity 4) (sixteen : hash.length = 16) (other : payload.length ≠ length) :
      Fails digest (frame unread length hash payload) (.lengthMismatch length payload.length)
  | checksum {unread hash payload : Bytes} (six : unread.length = 6)
      (short : payload.length < capacity 4) (sixteen : hash.length = 16)
      (other : (digest payload).toList ≠ hash) :
      Fails digest (frame unread payload.length hash payload) .checksumMismatch
  | malformed {unread payload : Bytes} {f : Fault} (six : unread.length = 6)
      (short : payload.length < capacity 4)
      (none : ∀ q front rest, payload = front ++ rest → ¬ PayloadForm q front)
      (held : ∀ front rest, payload = front ++ rest → ¬ PayloadOverflow front)
      (fault : Reader.payload payload = .error (.fault f)) :
      Fails digest (frame unread payload.length (digest payload).toList payload) (.malformed f)
  | overflow {unread front rest : Bytes} (six : unread.length = 6)
      (short : (front ++ rest).length < capacity 4) (text : PayloadOverflow front) :
      Fails digest (frame unread (front ++ rest).length (digest (front ++ rest)).toList
        (front ++ rest)) .capacityOverflow
  | unread {unread front rest : Bytes} {q : Payload} (six : unread.length = 6)
      (short : (front ++ rest).length < capacity 4) (form : PayloadForm q front)
      (more : rest ≠ []) :
      Fails digest (frame unread (front ++ rest).length (digest (front ++ rest)).toList
        (front ++ rest)) (.lengthMismatch (front ++ rest).length front.length)
  | groups {unread payload : Bytes} {q : Payload} (six : unread.length = 6)
      (short : payload.length < capacity 4) (form : PayloadForm q payload)
      (other : q.groupCount ≠ q.countGroups) :
      Fails digest (frame unread payload.length (digest payload).toList payload)
        (.groupCountMismatch q.groupCount q.countGroups)
  | conditions {unread payload : Bytes} {q : Payload} (six : unread.length = 6)
      (short : payload.length < capacity 4) (form : PayloadForm q payload)
      (groups : q.groupCount = q.countGroups) (other : q.conditionCount ≠ q.countConditions) :
      Fails digest (frame unread payload.length (digest payload).toList payload)
        (.conditionCountMismatch q.conditionCount q.countConditions)

variable {digest : Bytes → Digest} {bytes unread hash payload : Bytes} {q : Payload}

/-! ## The header -/

theorem unwrap_eq :
    unwrap digest bytes =
      if bytes.length < headerLength then .error (.lengthMismatch headerLength bytes.length)
      else if bytes.take 4 ≠ magic then .error .badMagic
      else if ofLittleEndian ((bytes.drop 4).take 2) ≠ formatVersion then
        .error (.incompatibleVersion (ofLittleEndian ((bytes.drop 4).take 2)))
      else if (bytes.drop headerLength).length ≠ ofLittleEndian ((bytes.drop 12).take 4) then
        .error (.lengthMismatch (ofLittleEndian ((bytes.drop 12).take 4))
          (bytes.drop headerLength).length)
      else if (digest (bytes.drop headerLength)).toList ≠ (bytes.drop 16).take 16 then
        .error .checksumMismatch
      else .ok (bytes.drop headerLength) :=
  rfl

theorem length_frame (six : unread.length = 6) (sixteen : hash.length = 16) (n : Nat)
    (payload : Bytes) :
    (frame unread n hash payload).length = headerLength + payload.length := by
  have hmagic : magic.length = 4 := by decide
  simp only [frame, List.length_append, length_littleEndian, hmagic, six, sixteen, headerLength]
  omega

theorem length_magic : magic.length = 4 := by decide

theorem take_drop_append {front part : Bytes} {start width : Nat} (h : front.length = start)
    (hpart : part.length = width) (back : Bytes) :
    ((front ++ (part ++ back)).drop start).take width = part := by
  rw [List.drop_left' h, List.take_left' hpart]

theorem unwrap_frame (six : unread.length = 6) (sixteen : hash.length = 16) {n : Nat}
    (four : n < capacity 4) :
    unwrap digest (frame unread n hash payload) =
      if payload.length ≠ n then .error (.lengthMismatch n payload.length)
      else if (digest payload).toList ≠ hash then .error .checksumMismatch
      else .ok payload := by
  have hlength := length_frame six sixteen n payload
  have hword : (frame unread n hash payload).take 4 = magic := List.take_left' length_magic
  have hversion : ((frame unread n hash payload).drop 4).take 2 = littleEndian 2 formatVersion :=
    take_drop_append length_magic (length_littleEndian ..) _
  have hcount : ((frame unread n hash payload).drop 12).take 4 = littleEndian 4 n := by
    have hfront : (magic ++ (littleEndian 2 formatVersion ++ unread)).length = 12 := by
      simp [length_magic, six]
    have hpart := take_drop_append hfront (length_littleEndian 4 n) (hash ++ payload)
    simpa only [frame, List.append_assoc] using hpart
  have hhash : ((frame unread n hash payload).drop 16).take 16 = hash := by
    have hfront : (magic ++ (littleEndian 2 formatVersion ++ (unread ++ littleEndian 4 n))).length =
        16 := by simp [length_magic, six]
    have hpart := take_drop_append hfront sixteen payload
    simpa only [frame, List.append_assoc] using hpart
  have hpayload : (frame unread n hash payload).drop headerLength = payload := by
    have hfront : (magic ++ (littleEndian 2 formatVersion ++ (unread ++ (littleEndian 4 n ++
        hash)))).length = headerLength := by simp [length_magic, six, sixteen, headerLength]
    refine Eq.trans ?_ (List.drop_left' hfront)
    simp only [frame, List.append_assoc]
  rw [unwrap_eq, if_neg (by omega), if_neg (not_not.2 hword), hversion,
    ofLittleEndian_littleEndian (by decide), if_neg (not_not.2 rfl), hpayload, hcount,
    ofLittleEndian_littleEndian four, hhash]

/-! ### The fields of a header -/

theorem length_field {width start : Nat} (h : start + width ≤ bytes.length) :
    ((bytes.drop start).take width).length = width := by
  rw [List.length_take, List.length_drop]
  omega

theorem field_append_drop (bytes : Bytes) (start width : Nat) :
    (bytes.drop start).take width ++ bytes.drop (start + width) = bytes.drop start := by
  rw [← List.drop_drop, List.take_append_drop]

theorem ofLittleEndian_field_lt {width start : Nat} (h : start + width ≤ bytes.length) :
    ofLittleEndian ((bytes.drop start).take width) < capacity width := by
  have hlt := ofLittleEndian_lt ((bytes.drop start).take width)
  rwa [length_field h] at hlt

theorem littleEndian_field {width start : Nat} (h : start + width ≤ bytes.length) :
    littleEndian width (ofLittleEndian ((bytes.drop start).take width)) =
      (bytes.drop start).take width := by
  have hfield := littleEndian_ofLittleEndian ((bytes.drop start).take width)
  rwa [length_field h] at hfield

theorem eq_magic_append_version (h : headerLength ≤ bytes.length) (hword : bytes.take 4 = magic) :
    bytes = magic ++ (littleEndian 2 (ofLittleEndian ((bytes.drop 4).take 2)) ++ bytes.drop 6) := by
  have hlong : 32 ≤ bytes.length := h
  rw [← hword, littleEndian_field (by omega), field_append_drop bytes 4 2, List.take_append_drop]

theorem exists_frame (h : headerLength ≤ bytes.length) (hword : bytes.take 4 = magic)
    (hversion : ofLittleEndian ((bytes.drop 4).take 2) = formatVersion) :
    ∃ unread n hash payload, unread.length = 6 ∧ n < capacity 4 ∧ hash.length = 16 ∧
      bytes = frame unread n hash payload := by
  have hlong : 32 ≤ bytes.length := h
  have hsplit := field_append_drop bytes
  refine ⟨(bytes.drop 6).take 6, ofLittleEndian ((bytes.drop 12).take 4), (bytes.drop 16).take 16,
    bytes.drop 32, length_field (by omega), ofLittleEndian_field_lt (by omega),
    length_field (by omega), ?_⟩
  rw [frame, littleEndian_field (by omega), hsplit 16 16, hsplit 12 4, hsplit 6 6, ← hversion]
  exact eq_magic_append_version h hword

/-! ## The payload -/

theorem validate_eq (q : Payload) :
    q.validate =
      if q.groupCount ≠ q.countGroups then .error (.groupCountMismatch q.groupCount q.countGroups)
      else if q.conditionCount ≠ q.countConditions then
        .error (.conditionCountMismatch q.conditionCount q.countConditions)
      else .ok q :=
  rfl

theorem read_of_form {front : Bytes} (h : PayloadForm q front) (rest : Bytes) :
    Payload.read (front ++ rest) =
      if rest = [] then .ok q
      else .error (.lengthMismatch (front ++ rest).length front.length) := by
  rw [Payload.read, (Reader.reads_payload q rest).2 ⟨front, rfl, h⟩]
  cases rest with
  | nil => rfl
  | cons b rest =>
    simp only [List.length_append, Nat.add_sub_cancel_right, reduceCtorEq, if_false]

theorem read_of_fault {f : Fault} (h : Reader.payload payload = .error (.fault f)) :
    Payload.read payload = .error (.malformed f) := by
  rw [Payload.read, h]

theorem read_of_overflow {front : Bytes} (h : PayloadOverflow front) (rest : Bytes) :
    Payload.read (front ++ rest) = .error .capacityOverflow := by
  rw [Payload.read, Reader.overflows_payload.2 ⟨front, rest, rfl, h⟩]

theorem decode_frame (six : unread.length = 6) (short : payload.length < capacity 4) :
    decode digest (frame unread payload.length (digest payload).toList payload) =
      Payload.read payload >>= Payload.validate := by
  rw [decode, unwrap_frame six (Vector.length_toList ..) short, if_neg (not_not.2 rfl),
    if_neg (not_not.2 rfl)]
  rfl

theorem decode_of_form (six : unread.length = 6) (short : payload.length < capacity 4)
    (form : PayloadForm q payload) :
    decode digest (frame unread payload.length (digest payload).toList payload) = q.validate := by
  have hread := read_of_form form []
  rw [List.append_nil, if_pos rfl] at hread
  rw [decode_frame six short, hread]
  rfl

/-! ## The whole -/

theorem decode_of_accepted (h : Accepted digest q bytes) : decode digest bytes = .ok q := by
  obtain ⟨six, short, form, groups, conditions⟩ := h
  rw [decode_of_form six short form, validate_eq, if_neg (not_not.2 groups),
    if_neg (not_not.2 conditions)]

theorem decode_of_unwrap {e : Error} (h : unwrap digest bytes = .error e) :
    decode digest bytes = .error e := by
  rw [decode, h]
  rfl

theorem decode_of_fails {e : Error} (h : Fails digest bytes e) :
    decode digest bytes = .error e := by
  cases h with
  | header h =>
    apply decode_of_unwrap
    rw [unwrap_eq, if_pos h]
  | magic four h other =>
    apply decode_of_unwrap
    rw [unwrap_eq, if_neg (Nat.not_lt.2 h), List.take_left' four, if_pos other]
  | version two h other =>
    apply decode_of_unwrap
    rw [unwrap_eq, if_neg (Nat.not_lt.2 h), List.take_left' length_magic, if_neg (not_not.2 rfl),
      take_drop_append length_magic (length_littleEndian ..), ofLittleEndian_littleEndian two,
      if_pos other]
  | length six four sixteen other =>
    apply decode_of_unwrap
    rw [unwrap_frame six sixteen four, if_pos other]
  | checksum six short sixteen other =>
    apply decode_of_unwrap
    rw [unwrap_frame six sixteen short, if_neg (not_not.2 rfl), if_pos other]
  | malformed six short none held fault =>
    rw [decode_frame six short, read_of_fault fault]
    rfl
  | overflow six short text =>
    rw [decode_frame six short, read_of_overflow text]
    rfl
  | unread six short form more =>
    rw [decode_frame six short, read_of_form form, if_neg more]
    rfl
  | groups six short form other =>
    rw [decode_of_form six short form, validate_eq, if_pos other]
  | conditions six short form groups other =>
    rw [decode_of_form six short form, validate_eq, if_neg (not_not.2 groups), if_pos other]

theorem accepted_or_fails (digest : Bytes → Digest) (bytes : Bytes) :
    (∃ q, Accepted digest q bytes) ∨ ∃ e, Fails digest bytes e := by
  by_cases hlong : bytes.length < headerLength
  · exact .inr ⟨_, .header hlong⟩
  have hle := Nat.not_lt.1 hlong
  have hsplit := List.take_append_drop 4 bytes
  by_cases hword : bytes.take 4 = magic
  case neg =>
    have hfour : (bytes.take 4).length = 4 := by
      rw [List.length_take]
      simp only [headerLength] at hle
      omega
    have hfails := @Fails.magic digest _ _ hfour (hsplit.symm ▸ hle) hword
    exact .inr ⟨_, hsplit ▸ hfails⟩
  by_cases hversion : ofLittleEndian ((bytes.drop 4).take 2) = formatVersion
  case neg =>
    have hbytes := eq_magic_append_version hle hword
    have htwo : 4 + 2 ≤ bytes.length := Nat.le_trans (by decide) hle
    have hfails := @Fails.version digest _ _ (ofLittleEndian_field_lt htwo) (hbytes ▸ hle)
      hversion
    exact .inr ⟨_, hbytes.symm ▸ hfails⟩
  obtain ⟨unread, n, hash, payload, six, four, sixteen, rfl⟩ := exists_frame hle hword hversion
  by_cases hlength : payload.length = n
  case neg => exact .inr ⟨_, .length six four sixteen hlength⟩
  subst hlength
  by_cases hhash : (digest payload).toList = hash
  case neg => exact .inr ⟨_, .checksum six four sixteen hhash⟩
  subst hhash
  cases hread : Reader.payload payload with
  | error halt =>
    cases halt with
    | fault f =>
      -- A form at the front would have been read, and too long a text would have stopped it.
      refine .inr ⟨_, .malformed six four (fun q front rest heq form => ?_)
        (fun front rest heq text => ?_) hread⟩
      · have hok := (Reader.reads_payload q rest).2 ⟨front, heq, form⟩
        rw [hread] at hok
        cases hok
      · have hstop := Reader.overflows_payload.2 ⟨front, rest, heq, text⟩
        rw [hread] at hstop
        cases hstop
    | capacityOverflow =>
      obtain ⟨front, rest, rfl, text⟩ := Reader.overflows_payload.1 hread
      exact .inr ⟨_, .overflow six four text⟩
  | ok result =>
    obtain ⟨q, rest⟩ := result
    obtain ⟨front, rfl, form⟩ := (Reader.reads_payload q rest).1 hread
    by_cases hrest : rest = []
    case neg => exact .inr ⟨_, .unread six four form hrest⟩
    subst hrest
    rw [List.append_nil] at four ⊢
    by_cases hgroups : q.groupCount = q.countGroups
    case neg => exact .inr ⟨_, .groups six four form hgroups⟩
    by_cases hconditions : q.conditionCount = q.countConditions
    case neg => exact .inr ⟨_, .conditions six four form hgroups hconditions⟩
    exact .inl ⟨q, six, four, form, hgroups, hconditions⟩

end WhenClause.Snapshot

namespace WhenClause.Rule

open Snapshot (Accepted Digest Fails Payload)
open Snapshot.Wire (PayloadForm)

variable {q : Payload}

/-- The rule that a payload makes: of its name and its group, in a new tree as large as the payload
says. -/
structure Loads (r : Rule) (q : Payload) : Prop where
  made : r = ofPayload q
  name : r.name = q.name
  group : r.tree.rootGroup? = q.group
  singlePath : r.tree.SinglePath
  groupCount : r.tree.groupCount = q.groupCount
  conditionCount : r.tree.conditionCount = q.conditionCount

theorem rootGroup?_ofPayload (q : Payload) : (ofPayload q).tree.rootGroup? = q.group := by
  cases hg : q.group with
  | none =>
    rw [ofPayload, hg]
    rfl
  | some g =>
    rw [ofPayload, hg]
    exact Tree.rootGroup?_ofGroup g

theorem loads_ofPayload (hgroups : q.groupCount = q.countGroups)
    (hconditions : q.conditionCount = q.countConditions) : (ofPayload q).Loads q := by
  obtain ⟨_, hshape⟩ := Tree.shape_ofGroup? q.name q.group
  have hcounted := hshape.counted
  have hgroup := rootGroup?_ofPayload q
  refine ⟨rfl, rfl, hgroup, hshape.singlePath, ?_, ?_⟩
  · rw [hgroups, Payload.countGroups, ← hgroup]
    exact hcounted.groups
  · rw [hconditions, Payload.countConditions, ← hgroup]
    exact hcounted.conditions

theorem loads_of_accepted {digest : Bytes → Digest} {bytes : Bytes} (h : Accepted digest q bytes) :
    (ofPayload q).Loads q := by
  obtain ⟨_, _, _, hgroups, hconditions⟩ := h
  exact loads_ofPayload hgroups hconditions

theorem decode_of_accepted {digest : Bytes → Digest} {bytes : Bytes}
    (h : Accepted digest q bytes) : decode digest bytes = .ok (ofPayload q) := by
  rw [decode, Snapshot.decode_of_accepted h]
  rfl

theorem decode_of_fails {digest : Bytes → Digest} {bytes : Bytes} {e : Snapshot.Error}
    (h : Fails digest bytes e) : decode digest bytes = .error e := by
  rw [decode, Snapshot.decode_of_fails h]
  rfl

theorem exists_accepted_of_decode {digest : Bytes → Digest} {bytes : Bytes} {r : Rule}
    (h : decode digest bytes = .ok r) : ∃ q, Accepted digest q bytes ∧ r.Loads q := by
  rcases Snapshot.accepted_or_fails digest bytes with ⟨q, hq⟩ | ⟨e, he⟩
  · cases (decode_of_accepted hq).symm.trans h
    exact ⟨q, hq, loads_of_accepted hq⟩
  · cases (decode_of_fails he).symm.trans h

theorem fails_of_decode {digest : Bytes → Digest} {bytes : Bytes} {e : Snapshot.Error}
    (h : decode digest bytes = .error e) : Fails digest bytes e := by
  rcases Snapshot.accepted_or_fails digest bytes with ⟨q, hq⟩ | ⟨e', he⟩
  · cases (decode_of_accepted hq).symm.trans h
  · cases (decode_of_fails he).symm.trans h
    exact he

/-- Bytes load as a rule when they are a snapshot of it, and otherwise fail the first check that
they do not pass, or stop the program there. -/
theorem decode_eq_iff (digest : Bytes → Digest) (bytes : Bytes) :
    (∀ r, decode digest bytes = .ok r ↔ ∃ q, Accepted digest q bytes ∧ r.Loads q) ∧
      ∀ e, decode digest bytes = .error e ↔ Fails digest bytes e := by
  constructor
  · intro r
    constructor
    · exact exists_accepted_of_decode
    · rintro ⟨q, hq, hloads⟩
      rw [decode_of_accepted hq, hloads.made]
  · intro e
    exact ⟨fails_of_decode, decode_of_fails⟩

/-- The header is intact and no payload is in the wire format, but no fault is handed back. The
name is said to be longer than any buffer. -/
theorem decode_eq_capacityOverflow :
    let payload : Bytes := [0, 0, 253, 255, 255, 255, 255, 255, 255, 255, 255]
    let bytes := Snapshot.frame [1, 0, 0, 0, 0, 0] payload.length (Blake3.digest payload).toList
      payload
    (∀ q front rest, payload = front ++ rest → ¬ PayloadForm q front) ∧
      decode Blake3.digest bytes = .error .capacityOverflow ∧
        ¬ ∃ f, decode Blake3.digest bytes = .error (.malformed f) := by
  intro payload bytes
  have hread : Snapshot.Reader.payload payload = .error .capacityOverflow := rfl
  have hdecode : decode Blake3.digest bytes = .error .capacityOverflow := by
    rw [decode, Snapshot.decode_frame (by decide) (by decide)]
    rfl
  refine ⟨fun q front rest heq form => ?_, hdecode, ?_⟩
  · rw [(Snapshot.Reader.reads_payload q rest).2 ⟨front, heq, form⟩] at hread
    cases hread
  · rintro ⟨f, herror⟩
    rw [hdecode] at herror
    cases herror

end WhenClause.Rule
