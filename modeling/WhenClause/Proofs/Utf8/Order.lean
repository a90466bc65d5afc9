import WhenClause.Proofs.Utf8.Decoding

/-!
# The order of encoded texts

Texts compare character by character as their bytes compare byte by byte. Of two characters the
one with the greater number has the greater first byte, or they have as many bytes and the first of
these that differ are in the order of the numbers.
-/

namespace WhenClause.Utf8

theorem Spells.append_lt_append {form form' : Bytes} {n m : Nat} (h : Spells form n)
    (h' : Spells form' m) (hlt : n < m) (x y : Bytes) : form ++ x < form' ++ y := by
  -- A longer form has a greater first byte; forms of one length hold the digits of their numbers.
  cases h <;> cases h' <;>
    simp only [List.cons_append, List.nil_append, List.cons_lt_cons_iff, UInt8.lt_iff_toNat_lt,
      ← UInt8.toNat_inj] <;>
    omega

theorem encodeChar_append_lt {c d : Char} (h : c < d) (x y : Bytes) :
    encodeChar c ++ x < encodeChar d ++ y :=
  (spells_encodeChar c).append_lt_append (spells_encodeChar d) (UInt32.lt_iff_toNat_lt.1 h) x y

theorem encode_cons (c : Char) (s : List Char) : encode (c :: s) = encodeChar c ++ encode s := rfl

theorem encode_lt_of_lt {s t : List Char} (h : s < t) : encode s < encode t := by
  induction h with
  | @nil d t =>
    have hne := (spells_encodeChar d).ne_nil
    rw [encode_cons]
    cases hform : encodeChar d with
    | nil => exact absurd hform hne
    | cons => exact List.nil_lt_cons ..
  | rel h => exact encodeChar_append_lt h _ _
  | cons _ ih => exact List.append_left_lt ih

end WhenClause.Utf8
