import WhenClause.Utf8

/-!
# Decoding is the inverse of encoding

The bytes that decode to a text are those that the text encodes to, and no others. Each character
has one form in bytes: the range of the second byte leaves out the forms that would be longer than
needed, the surrogates and the numbers beyond the last character.
-/

namespace WhenClause.Utf8

theorem ofNat_eq_of_toNat {n : Nat} {b : UInt8} (h : n = b.toNat) : UInt8.ofNat n = b := by
  rw [h, UInt8.ofNat_toNat]

abbrev IsTail (b : UInt8) : Prop := 0x80 ≤ b.toNat ∧ b.toNat ≤ 0xBF

/-- The forms of a character in bytes, each with the number that it spells. -/
inductive Spells : Bytes → Nat → Prop
  | one {b : UInt8} (h : b.toNat < 0x80) : Spells [b] b.toNat
  | two {b b₁ : UInt8} (h : 0xC2 ≤ b.toNat ∧ b.toNat < 0xE0) (h₁ : IsTail b₁) :
      Spells [b, b₁] ((b.toNat - 0xC0) * 64 + (b₁.toNat - 0x80))
  | three {b b₁ b₂ : UInt8} (h : 0xE0 ≤ b.toNat ∧ b.toNat < 0xF0) (h₁ : IsTail b₁)
      (low : b.toNat = 0xE0 → 0xA0 ≤ b₁.toNat) (high : b.toNat = 0xED → b₁.toNat ≤ 0x9F)
      (h₂ : IsTail b₂) :
      Spells [b, b₁, b₂] (((b.toNat - 0xE0) * 64 + (b₁.toNat - 0x80)) * 64 + (b₂.toNat - 0x80))
  | four {b b₁ b₂ b₃ : UInt8} (h : 0xF0 ≤ b.toNat ∧ b.toNat < 0xF5) (h₁ : IsTail b₁)
      (low : b.toNat = 0xF0 → 0x90 ≤ b₁.toNat) (high : b.toNat = 0xF4 → b₁.toNat ≤ 0x8F)
      (h₂ : IsTail b₂) (h₃ : IsTail b₃) :
      Spells [b, b₁, b₂, b₃]
        ((((b.toNat - 0xF0) * 64 + (b₁.toNat - 0x80)) * 64 + (b₂.toNat - 0x80)) * 64 +
          (b₃.toNat - 0x80))

namespace Spells

variable {form : Bytes} {n : Nat}

theorem ne_nil (h : Spells form n) : form ≠ [] := by
  cases h <;> exact nofun

theorem isValidChar (h : Spells form n) : n.isValidChar := by
  unfold Nat.isValidChar
  cases h <;> omega

theorem of_eq {m : Nat} (h : Spells form n) (heq : n = m) : Spells form m := heq ▸ h

theorem encodeChar_eq (h : Spells form n) : encodeChar (Char.ofNat n) = form := by
  have hchar : (Char.ofNat n).toNat = n := by
    rw [Char.ofNat, dif_pos h.isValidChar]
    rfl
  rw [encodeChar, hchar]
  simp only []
  cases h with
  | one h => rw [if_pos h, UInt8.ofNat_toNat]
  | two h h₁ =>
    rw [if_neg (by omega), if_pos (by omega)]
    simp only [List.cons.injEq, and_true]
    exact ⟨ofNat_eq_of_toNat (by omega), ofNat_eq_of_toNat (by omega)⟩
  | three h h₁ low high h₂ =>
    rw [if_neg (by omega), if_neg (by omega), if_pos (by omega)]
    simp only [List.cons.injEq, and_true]
    exact ⟨ofNat_eq_of_toNat (by omega), ofNat_eq_of_toNat (by omega),
      ofNat_eq_of_toNat (by omega)⟩
  | four h h₁ low high h₂ h₃ =>
    rw [if_neg (by omega), if_neg (by omega), if_neg (by omega)]
    simp only [List.cons.injEq, and_true]
    exact ⟨ofNat_eq_of_toNat (by omega), ofNat_eq_of_toNat (by omega),
      ofNat_eq_of_toNat (by omega), ofNat_eq_of_toNat (by omega)⟩

end Spells

theorem spells_encodeChar (c : Char) : Spells (encodeChar c) c.toNat := by
  have hvalid : c.toNat < 0xD800 ∨ 0xDFFF < c.toNat ∧ c.toNat < 0x110000 := c.valid
  unfold encodeChar
  generalize c.toNat = n at hvalid
  have htail : ∀ k, (UInt8.ofNat (0x80 + k % 64)).toNat = 0x80 + k % 64 := fun k =>
    UInt8.toNat_ofNat_of_lt' (show _ < 256 by omega)
  have hrange : ∀ k, IsTail (UInt8.ofNat (0x80 + k % 64)) := fun k => by
    rw [IsTail, htail]
    omega
  simp only []
  split
  · have hb : (UInt8.ofNat n).toNat = n := UInt8.toNat_ofNat_of_lt' (show _ < 256 by omega)
    have hone := Spells.one (b := UInt8.ofNat n) (by omega)
    exact hone.of_eq hb
  split
  · have hb : (UInt8.ofNat (0xC0 + n / 64)).toNat = 0xC0 + n / 64 :=
      UInt8.toNat_ofNat_of_lt' (show _ < 256 by omega)
    have htwo := Spells.two (b := UInt8.ofNat (0xC0 + n / 64)) (by omega) (hrange n)
    rw [hb, htail] at htwo
    exact htwo.of_eq (by omega)
  split
  · have hb : (UInt8.ofNat (0xE0 + n / 4096)).toNat = 0xE0 + n / 4096 :=
      UInt8.toNat_ofNat_of_lt' (show _ < 256 by omega)
    have hthree := Spells.three (b := UInt8.ofNat (0xE0 + n / 4096)) (by omega) (hrange (n / 64))
      (by rw [hb, htail]; omega) (by rw [hb, htail]; omega) (hrange n)
    rw [hb, htail, htail] at hthree
    exact hthree.of_eq (by omega)
  · have hb : (UInt8.ofNat (0xF0 + n / 262144)).toNat = 0xF0 + n / 262144 :=
      UInt8.toNat_ofNat_of_lt' (show _ < 256 by omega)
    have hfour := Spells.four (b := UInt8.ofNat (0xF0 + n / 262144)) (by omega)
      (hrange (n / 4096)) (by rw [hb, htail]; omega) (by rw [hb, htail]; omega) (hrange (n / 64))
      (hrange n)
    rw [hb, htail, htail, htail] at hfour
    exact hfour.of_eq (by omega)

/-! ## The machine -/

section Steps

variable {offset : Nat} {b : UInt8} {bytes : Bytes} {p : Pending} {s : List Char}

theorem decodeFrom_ascii (h : b.toNat < 0x80) :
    decodeFrom offset none (b :: bytes) =
      (Char.ofNat b.toNat :: ·) <$> decodeFrom (offset + 1) none bytes := by
  rw [decodeFrom, if_pos h]

theorem decodeFrom_lead (h : lead? b.toNat = some p) :
    decodeFrom offset none (b :: bytes) = decodeFrom offset (some p) bytes := by
  have hb : ¬ b.toNat < 0x80 := by
    intro hb
    rw [lead?, if_pos (by omega)] at h
    cases h
  rw [decodeFrom, if_neg hb, h]

theorem decodeFrom_last (h : p.left = 1) (hb : p.low ≤ b.toNat ∧ b.toNat ≤ p.high) :
    decodeFrom offset (some p) (b :: bytes) =
      (Char.ofNat (p.number * 64 + (b.toNat - 0x80)) :: ·) <$>
        decodeFrom (offset + p.seen + 1) none bytes := by
  rw [decodeFrom, if_pos hb, if_pos h]

theorem decodeFrom_more (h : p.left ≠ 1) (hb : p.low ≤ b.toNat ∧ b.toNat ≤ p.high) :
    decodeFrom offset (some p) (b :: bytes) =
      decodeFrom offset
        (some ⟨p.number * 64 + (b.toNat - 0x80), p.seen + 1, p.left - 1, 0x80, 0xBF⟩) bytes := by
  rw [decodeFrom, if_pos hb, if_neg h]

theorem exists_next_of_decodeFrom (h : decodeFrom offset (some p) bytes = .ok s) :
    ∃ b rest, bytes = b :: rest ∧ p.low ≤ b.toNat ∧ b.toNat ≤ p.high := by
  cases bytes with
  | nil => simp [decodeFrom] at h
  | cons b rest =>
    rw [decodeFrom] at h
    split at h
    · rename_i hb
      exact ⟨b, rest, rfl, hb⟩
    · cases h

end Steps

theorem narrowed_iff {b n least low most high : Nat} (hlow : 0x80 ≤ low) (hhigh : high ≤ 0xBF) :
    ((if b = least then low else 0x80) ≤ n ∧ n ≤ if b = most then high else 0xBF) ↔
      (0x80 ≤ n ∧ n ≤ 0xBF) ∧ (b = least → low ≤ n) ∧ (b = most → n ≤ high) := by
  split <;> split <;> omega

theorem lead?_two {b : Nat} (h : 0xC2 ≤ b ∧ b < 0xE0) :
    lead? b = some ⟨b - 0xC0, 1, 1, 0x80, 0xBF⟩ := by
  rw [lead?, if_neg (by omega), if_pos (by omega)]

theorem lead?_three {b : Nat} (h : 0xE0 ≤ b ∧ b < 0xF0) :
    lead? b = some ⟨b - 0xE0, 1, 2, if b = 0xE0 then 0xA0 else 0x80,
      if b = 0xED then 0x9F else 0xBF⟩ := by
  rw [lead?, if_neg (by omega), if_neg (by omega), if_pos (by omega)]

theorem lead?_four {b : Nat} (h : 0xF0 ≤ b ∧ b < 0xF5) :
    lead? b = some ⟨b - 0xF0, 1, 3, if b = 0xF0 then 0x90 else 0x80,
      if b = 0xF4 then 0x8F else 0xBF⟩ := by
  rw [lead?, if_neg (by omega), if_neg (by omega), if_neg (by omega), if_pos (by omega)]

theorem Spells.decodeFrom_append {form : Bytes} {n : Nat} (h : Spells form n) (offset : Nat)
    (rest : Bytes) : decodeFrom offset none (form ++ rest) =
      (Char.ofNat n :: ·) <$> decodeFrom (offset + form.length) none rest := by
  cases h with
  | one h => exact decodeFrom_ascii h
  | two h h₁ => exact (decodeFrom_lead (lead?_two h)).trans (decodeFrom_last rfl h₁)
  | three h h₁ low high h₂ =>
    refine (decodeFrom_lead (lead?_three h)).trans ?_
    have hnext := (narrowed_iff (by decide) (by decide)).2 ⟨h₁, low, high⟩
    exact (decodeFrom_more (by simp) hnext).trans (decodeFrom_last rfl h₂)
  | four h h₁ low high h₂ h₃ =>
    refine (decodeFrom_lead (lead?_four h)).trans ?_
    have hnext := (narrowed_iff (by decide) (by decide)).2 ⟨h₁, low, high⟩
    refine (decodeFrom_more (by simp) hnext).trans ?_
    exact (decodeFrom_more (by simp) h₂).trans (decodeFrom_last rfl h₃)

theorem exists_spells_of_decodeFrom {offset : Nat} {b : UInt8} {bytes : Bytes} {s : List Char}
    (h : decodeFrom offset none (b :: bytes) = .ok s) :
    ∃ form n rest, b :: bytes = form ++ rest ∧ Spells form n := by
  by_cases hascii : b.toNat < 0x80
  · exact ⟨[b], _, bytes, rfl, .one hascii⟩
  by_cases htwo : 0xC2 ≤ b.toNat ∧ b.toNat < 0xE0
  · rw [decodeFrom_lead (lead?_two htwo)] at h
    obtain ⟨b₁, rest, rfl, h₁⟩ := exists_next_of_decodeFrom h
    exact ⟨[b, b₁], _, rest, rfl, .two htwo h₁⟩
  by_cases hthree : 0xE0 ≤ b.toNat ∧ b.toNat < 0xF0
  · rw [decodeFrom_lead (lead?_three hthree)] at h
    obtain ⟨b₁, rest, rfl, h₁⟩ := exists_next_of_decodeFrom h
    rw [decodeFrom_more (by simp) h₁] at h
    obtain ⟨b₂, rest, rfl, h₂⟩ := exists_next_of_decodeFrom h
    obtain ⟨h₁, low, high⟩ := (narrowed_iff (by decide) (by decide)).1 h₁
    exact ⟨[b, b₁, b₂], _, rest, rfl, .three hthree h₁ low high h₂⟩
  by_cases hfour : 0xF0 ≤ b.toNat ∧ b.toNat < 0xF5
  · rw [decodeFrom_lead (lead?_four hfour)] at h
    obtain ⟨b₁, rest, rfl, h₁⟩ := exists_next_of_decodeFrom h
    rw [decodeFrom_more (by simp) h₁] at h
    obtain ⟨b₂, rest, rfl, h₂⟩ := exists_next_of_decodeFrom h
    rw [decodeFrom_more (by simp) h₂] at h
    obtain ⟨b₃, rest, rfl, h₃⟩ := exists_next_of_decodeFrom h
    obtain ⟨h₁, low, high⟩ := (narrowed_iff (by decide) (by decide)).1 h₁
    exact ⟨[b, b₁, b₂, b₃], _, rest, rfl, .four hfour h₁ low high h₂ h₃⟩
  have hnone : lead? b.toNat = none := by
    by_cases hlow : b.toNat < 0xC2
    · rw [lead?, if_pos hlow]
    · rw [lead?, if_neg hlow, if_neg (by omega), if_neg (by omega), if_neg (by omega)]
  rw [decodeFrom, if_neg hascii, hnone] at h
  cases h

theorem decodeFrom_encode (offset : Nat) (s : List Char) :
    decodeFrom offset none (encode s) = .ok s := by
  induction s generalizing offset with
  | nil => rw [encode, List.flatMap_nil, decodeFrom]
  | cons c s ih =>
    have h := (spells_encodeChar c).decodeFrom_append offset (encode s)
    rw [Char.ofNat_toNat, ih] at h
    exact h

theorem eq_encode_of_decodeFrom {offset : Nat} {bytes : Bytes} {s : List Char}
    (h : decodeFrom offset none bytes = .ok s) : bytes = encode s := by
  match bytes with
  | [] =>
    rw [decodeFrom] at h
    cases h
    rfl
  | b :: bytes =>
    obtain ⟨form, n, rest, hbytes, hspells⟩ := exists_spells_of_decodeFrom h
    rw [hbytes, hspells.decodeFrom_append] at h
    have hlength : rest.length < (b :: bytes).length := by
      have := List.length_pos_iff.2 hspells.ne_nil
      rw [hbytes, List.length_append]
      omega
    cases hrest : decodeFrom (offset + form.length) none rest with
    | error f =>
      rw [hrest] at h
      cases h
    | ok s' =>
      rw [hrest] at h
      cases h
      rw [hbytes, eq_encode_of_decodeFrom hrest]
      exact congrArg (· ++ encode s') hspells.encodeChar_eq.symm
termination_by bytes.length
decreasing_by exact hlength

theorem decode_eq_ok_iff {bytes : Bytes} {s : List Char} :
    decode bytes = .ok s ↔ bytes = encode s :=
  ⟨eq_encode_of_decodeFrom, fun h => h ▸ decodeFrom_encode 0 s⟩

theorem encode_injective {s t : List Char} (h : encode s = encode t) : s = t := by
  have hs : decode (encode s) = .ok s := decode_eq_ok_iff.2 rfl
  rw [h, decode_eq_ok_iff.2 rfl] at hs
  cases hs
  rfl

end WhenClause.Utf8
