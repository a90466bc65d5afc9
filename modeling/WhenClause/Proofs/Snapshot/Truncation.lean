import WhenClause.Proofs.Snapshot.Canonical

/-!
# Payloads that are cut off

Where a payload ends is told by the payload alone. If a reader gets through some bytes, then on the
first few of them it does the same or asks for bytes that were cut off, and for no other reason
does it fail. So no payload begins with another one, and whatever stands behind one is left over.
-/

namespace WhenClause.Snapshot.Reader

variable {α β : Type} {input : Bytes}

/-- On its way through these bytes and whatever follows them the one reader does what the other
does on these bytes alone, until that one runs out of them. -/
def Truncates (r r' : Reader α) (input : Bytes) : Prop :=
  ∀ back a rest, r (input ++ back) = .ok (a, rest) →
    (∃ left, left <:+ input ∧ rest = left ++ back ∧ r' input = .ok (a, left)) ∨
      ∃ k, 1 ≤ k ∧ k ≤ back.length ∧ r' input = .error (.fault (.unexpectedEnd k))

namespace Truncates

variable {r r' : Reader α}

theorem pure (a : α) : Truncates (Pure.pure a) (Pure.pure a) input := by
  intro back b rest hread
  cases hread
  exact .inl ⟨input, List.suffix_refl input, rfl, rfl⟩

theorem fail (f : Fault) (r' : Reader α) : Truncates (Reader.fail f) r' input := by
  intro back b rest hread
  cases hread

theorem bind {k k' : α → Reader β} (h : Truncates r r' input)
    (hk : ∀ a left, left <:+ input → r' input = .ok (a, left) → Truncates (k a) (k' a) left) :
    Truncates (r >>= k) (r' >>= k') input := by
  intro back b rest hread
  obtain ⟨a, mid, hr, hmid⟩ := bind_eq_ok_iff.1 hread
  have hnext : (r' >>= k') input = r' input >>= fun p => k' p.1 p.2 := rfl
  rw [hnext]
  obtain ⟨left, hleft, rfl, hr'⟩ | ⟨n, hpos, hle, hr'⟩ := h back a mid hr
  · rw [hr']
    obtain ⟨left₁, hleft₁, hrest, hk'⟩ | hends := hk a left hleft hr' back b rest hmid
    · exact .inl ⟨left₁, hleft₁.trans hleft, hrest, hk'⟩
    · exact .inr hends
  · rw [hr']
    exact .inr ⟨n, hpos, hle, rfl⟩

theorem map (h : Truncates r r' input) (f : α → β) :
    Truncates (r >>= fun a => Pure.pure (f a)) (r' >>= fun a => Pure.pure (f a)) input :=
  h.bind fun a _ _ _ => pure (f a)

end Truncates

/-! ## Numbers and texts -/

theorem truncates_take (n : Nat) : Truncates (take n) (take n) input := by
  intro back bytes rest hread
  simp only [take] at hread ⊢
  split at hread
  case isFalse => cases hread
  case isTrue hlength =>
    cases hread
    rw [List.length_take, List.length_append] at hlength
    by_cases hn : n ≤ input.length
    · refine .inl ⟨input.drop n, List.drop_suffix n input, List.drop_append_of_le_length hn, ?_⟩
      rw [List.take_append_of_le_length hn, if_pos (List.length_take_of_le hn)]
    · have hall : input.take n = input := List.take_of_length_le (by omega)
      refine .inr ⟨n - input.length, by omega, by omega, ?_⟩
      rw [hall, if_neg (by omega)]

theorem truncates_byte : Truncates byte byte input := by
  intro back n rest hread
  cases input with
  | nil =>
    cases back with
    | nil => cases hread
    | cons b back => exact .inr ⟨1, Nat.le_refl 1, Nat.succ_pos _, rfl⟩
  | cons b bytes =>
    cases hread
    exact .inl ⟨bytes, List.suffix_cons b bytes, rfl, rfl⟩

theorem truncates_varint (p : Purpose) : Truncates (varint p) (varint p) input := by
  intro back n rest hread
  cases input with
  | nil =>
    cases back with
    | nil => cases hread
    | cons b back => exact .inr ⟨1, Nat.le_refl 1, Nat.succ_pos _, rfl⟩
  | cons b bytes =>
    rw [List.cons_append, varint_cons] at hread
    rw [varint_cons]
    by_cases hone : b.toNat < 251
    · rw [if_pos hone] at hread ⊢
      cases hread
      exact .inl ⟨bytes, List.suffix_cons b bytes, rfl, rfl⟩
    rw [if_neg hone] at hread ⊢
    cases hwidth : p.width? b.toNat with
    | none =>
      rw [hwidth] at hread
      cases hread
    | some width =>
      rw [hwidth] at hread
      have hnumber : Truncates _ _ bytes := (truncates_take width).map ofLittleEndian
      obtain ⟨left, hleft, hends⟩ | hends := hnumber back n rest hread
      · exact .inl ⟨left, hleft.trans (List.suffix_cons b bytes), hends⟩
      · exact .inr hends

theorem truncates_buffer (n : Nat) : Truncates (buffer n) (buffer n) input := by
  rw [buffer_eq]
  split
  · intro back bytes rest hread
    cases hread
  · exact truncates_take n

theorem truncates_text : Truncates text text input := by
  refine (truncates_varint .count).bind fun n _ _ _ => ?_
  refine (truncates_buffer n).bind fun bytes _ _ _ => ?_
  cases Utf8.decode bytes with
  | ok s => exact .pure _
  | error f => exact .fail _ _

/-! ## Choices -/

theorem truncates_bool : Truncates bool bool input := by
  refine truncates_byte.bind fun n _ _ _ => ?_
  match n with
  | 0 => exact .pure false
  | 1 => exact .pure true
  | n + 2 => exact .fail _ _

theorem truncates_option {r r' : Reader α} (h : ∀ left, left <:+ input → Truncates r r' left) :
    Truncates (option r) (option r') input := by
  refine truncates_byte.bind fun n left hleft _ => ?_
  match n with
  | 0 => exact .pure none
  | 1 => exact (h left hleft).map some
  | n + 2 => exact .fail _ _

theorem truncates_choice (count : Nat) : Truncates (choice count) (choice count) input := by
  refine (truncates_varint .variant).bind fun n _ _ _ => ?_
  split
  · exact .pure _
  · exact .fail _ _

theorem truncates_operator : Truncates operator operator input := by
  refine (truncates_choice 2).bind fun i _ _ _ => ?_
  match i with
  | 0 => exact .pure Operator.and
  | 1 => exact .pure Operator.or

theorem truncates_value : Truncates value value input := by
  refine (truncates_choice 4).bind fun i _ _ _ => ?_
  match i with
  | 0 => exact (truncates_varint .integer).map fun m => Value.int (Int64.ofInt (unzigzag m))
  | 1 =>
    exact (truncates_take 8).map fun bytes => Value.float ⟨UInt64.ofNat (ofLittleEndian bytes)⟩
  | 2 => exact truncates_bool.map Value.bool
  | 3 => exact truncates_text.map Value.str

theorem truncates_entry : Truncates entry entry input :=
  truncates_text.bind fun key _ _ _ => truncates_value.map fun v => (key, v)

/-! ## Lists and groups -/

section

variable {r r' : Reader α}

theorem truncates_exactly (h : ∀ left, left <:+ input → Truncates r r' left) (n : Nat) :
    Truncates (exactly r n) (exactly r' n) input := by
  induction n generalizing input with
  | zero => exact .pure []
  | succ n ih =>
    refine (h input (List.suffix_refl input)).bind fun a left hleft _ => ?_
    exact (ih fun left₁ hleft₁ => h left₁ (hleft₁.trans hleft)).map fun as => a :: as

theorem truncates_list (h : ∀ left, left <:+ input → Truncates r r' left) :
    Truncates (list r) (list r') input :=
  (truncates_varint .length).bind fun n _ hleft _ =>
    truncates_exactly (fun left₁ hleft₁ => h left₁ (hleft₁.trans hleft)) n

end

theorem truncates_condition : Truncates condition condition input :=
  (truncates_list fun _ _ => truncates_entry).map Condition.ofList

theorem group_nil (depth : Nat) : group depth [] = .error (.fault (.unexpectedEnd 1)) := by
  cases depth <;> rfl

/-- The bytes alone may be read as less deep than with what follows them. The depth is enough for
them, so they run out before it does. -/
theorem truncates_group {depth depth' : Nat} (h : input.length ≤ depth') :
    Truncates (group depth) (group depth') input := by
  induction depth' generalizing depth input with
  | zero =>
    obtain rfl := List.eq_nil_of_length_eq_zero (Nat.le_zero.1 h)
    intro back g rest hread
    cases back with
    | nil =>
      rw [List.append_nil, group_nil] at hread
      cases hread
    | cons b back => exact .inr ⟨1, Nat.le_refl 1, Nat.succ_pos _, rfl⟩
  | succ depth' ih =>
    cases depth with
    | zero => exact .fail _ _
    | succ depth =>
      refine (truncates_option fun _ _ => truncates_operator).bind fun o left _ hread => ?_
      refine (truncates_list fun _ _ => truncates_condition).bind fun items left₁ hleft₁ _ => ?_
      refine (truncates_list fun left₂ hleft₂ => ih ?_).map fun groups => Group.mk o items groups
      -- Whether there is an operator is read first and takes a byte, as going down takes a depth.
      obtain ⟨front, rfl, hfront⟩ := (reads_option (fun _ _ _ => reads_operator) o left).1 hread
      have hpos := hfront.length_pos
      have hle := (hleft₂.trans hleft₁).length_le
      rw [List.length_append] at h
      omega

theorem truncates_payload : Truncates payload payload input := by
  intro back p rest hread
  have hparts : ∀ depth, Truncates (α := Payload)
      (do return ⟨← varint .count, ← varint .count, ← text, ← option (group depth)⟩)
      (do return ⟨← varint .count, ← varint .count, ← text, ← option (group input.length)⟩)
      input := by
    intro depth
    refine (truncates_varint .count).bind fun gc left hleft _ => ?_
    refine (truncates_varint .count).bind fun cc left₁ hleft₁ _ => ?_
    refine truncates_text.bind fun name left₂ hleft₂ _ => ?_
    refine (truncates_option fun left₃ hleft₃ => truncates_group ?_).map fun whole =>
      Payload.mk gc cc name whole
    exact (((hleft₃.trans hleft₂).trans hleft₁).trans hleft).length_le
  exact hparts _ back p rest hread

end WhenClause.Snapshot.Reader

namespace WhenClause.Snapshot

variable {p : Payload} {front back : Bytes}

theorem payload_of_cut (h : p.Held) (hsplit : p.write = front ++ back) (hback : back ≠ []) :
    ∃ k, 1 ≤ k ∧ k ≤ back.length ∧
      Reader.payload front = .error (.fault (.unexpectedEnd k)) := by
  have hread : Reader.payload p.write = .ok (p, []) :=
    (Reader.reads_payload p []).2 ⟨p.write, (List.append_nil _).symm, payloadForm_write h⟩
  rw [hsplit] at hread
  obtain ⟨left, _, hnil, _⟩ | hends := Reader.truncates_payload back p [] hread
  · exact absurd (List.append_eq_nil_iff.1 hnil.symm).2 hback
  · exact hends

end WhenClause.Snapshot

namespace WhenClause.Rule

open Snapshot (Digest capacity frame largestBuffer)

variable {r : Rule}

/-- A payload is written into a buffer, and is then no longer than a buffer can be. -/
theorem held_toPayload (h : r.tree.Reachable)
    (hsize : r.toPayload.write.length ≤ largestBuffer) : r.toPayload.Held := by
  obtain ⟨hgroups, hconditions⟩ := counts_toPayload h
  exact Snapshot.held_of_counted hsize hgroups hconditions

/-- Under a header that fits, a payload that lacks some of its last bytes fails for want of bytes
that were cut off, and one that goes on after its end fails because not all of it was read. That
lengths are of sixty-four bits and texts no longer than buffers is true of any rule in memory. -/
theorem decode_cut_or_extended (hheld : r.toPayload.Held) (digest : Bytes → Digest)
    {unread : Bytes} (six : unread.length = 6) :
    (∀ front back, r.toPayload.write = front ++ back → back ≠ [] → front.length < 0x100000000 →
      ∃ k, 1 ≤ k ∧ k ≤ back.length ∧
        decode digest (frame unread front.length (digest front).toList front) =
          .error (.malformed (.unexpectedEnd k))) ∧
    ∀ tail, tail ≠ [] → (r.toPayload.write ++ tail).length < 0x100000000 →
      decode digest (frame unread (r.toPayload.write ++ tail).length
          (digest (r.toPayload.write ++ tail)).toList (r.toPayload.write ++ tail)) =
        .error (.lengthMismatch (r.toPayload.write.length + tail.length)
          r.toPayload.write.length) := by
  have hcapacity : 0x100000000 = capacity 4 := by decide
  rw [hcapacity]
  constructor
  · intro front back hsplit hback short
    obtain ⟨k, hpos, hle, hread⟩ := Snapshot.payload_of_cut hheld hsplit hback
    refine ⟨k, hpos, hle, ?_⟩
    rw [decode, Snapshot.decode_frame six short, Snapshot.read_of_fault hread]
    rfl
  · intro tail htail short
    have hform := Snapshot.payloadForm_write hheld
    rw [decode_of_fails (.unread six short hform htail), List.length_append]

/-- The cut is between the two bytes of a character. -/
theorem decode_cut_or_extended_inside_character :
    let t := (Tree.ofGroup ⟨none, [.ofList [("limit", .int 300)]], []⟩).run
      [.addGroup (.group ⟨⟨0, 0⟩⟩) none, .removeGroup ⟨⟨1, 0⟩⟩, .toggle ⟨⟨0, 0⟩⟩]
    let r : Rule := ⟨"é", t⟩
    let q := r.toPayload.write
    let wrapped (payload : Bytes) :=
      frame [2, 0, 7, 0, 0, 0] payload.length (Blake3.digest payload).toList payload
    t.Reachable ∧ r.toPayload.Held ∧ q.take 4 = [1, 1, 2, 0xC3] ∧ q.length = 21 ∧
      (∃ k, 1 ≤ k ∧ k ≤ (q.drop 4).length ∧
        decode Blake3.digest (wrapped (q.take 4)) = .error (.malformed (.unexpectedEnd k))) ∧
      decode Blake3.digest (wrapped (q ++ [0])) =
        .error (.lengthMismatch (q.length + 1) q.length) := by
  intro t r q wrapped
  have hreached : t.Reachable := ⟨_, _, .ofGroup _, rfl⟩
  have hlength : q.length = 21 := by decide +kernel
  have six : ([2, 0, 7, 0, 0, 0] : Bytes).length = 6 := rfl
  have hheld : r.toPayload.Held := held_toPayload hreached (by decide +kernel)
  obtain ⟨hcut, hextended⟩ := decode_cut_or_extended hheld Blake3.digest six
  refine ⟨hreached, hheld, by decide +kernel, hlength, ?_, ?_⟩
  · exact hcut (q.take 4) (q.drop 4) (List.take_append_drop 4 q).symm (by decide +kernel)
      (by decide +kernel)
  · exact hextended [0] (by decide) (by decide +kernel)

end WhenClause.Rule
