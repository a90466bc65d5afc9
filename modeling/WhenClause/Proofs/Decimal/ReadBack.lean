import WhenClause.Decimal.Shortest
import WhenClause.Proofs.Binary64.Nearest

/-!
# Decimals that read back

The digits of a decimal give that decimal again, and the decimal that a finite number is written
with gives that number again: a whole number and the decimal with all places are exact, and any
shorter decimal is taken only if it reads back.
-/

namespace WhenClause

namespace Decimal

theorem scale_pos (places : Nat) : 0 < scale places := Nat.pow_pos (by decide)

variable {width n : Nat}

theorem length_padded (hwidth : 0 < width) (h : n < scale width) :
    (padded width n).length = width := by
  have hlength := (Nat.length_toDigits_le_iff (by decide) hwidth).2 h
  simp only [padded, List.length_append, List.length_replicate]
  omega

theorem isDigit_of_mem_padded {c : Char} (h : c ∈ padded width n) : c.isDigit = true := by
  rcases List.mem_append.1 h with h | h
  · rw [List.eq_of_mem_replicate h]
    rfl
  · exact Nat.isDigit_of_mem_toDigits (by decide) (by decide) h

theorem ofDigitChars_padded (hwidth : 0 < width) (h : n < scale width) (front : Nat) :
    Nat.ofDigitChars 10 (padded width n) front = scale width * front + n := by
  rw [Nat.ofDigitChars_eq_ofDigitChars_zero, length_padded hwidth h]
  simp only [padded, Nat.ofDigitChars_append, Nat.ofDigitChars_replicate_zero, Nat.mul_zero,
    Nat.ofDigitChars_ten_toDigits]
  rfl

theorem exists_digits_of_print (x : Decimal) (h : 0 < x.places) :
    ∃ whole fraction, x.print = whole ++ '.' :: fraction ∧ whole ≠ [] ∧ fraction ≠ [] ∧
      (∀ c ∈ whole ++ fraction, c.isDigit = true) ∧ ofDigits whole fraction = x := by
  have hmod := Nat.mod_lt x.units (scale_pos x.places)
  have hlength := length_padded h hmod
  refine ⟨_, _, rfl, Nat.toDigits_ne_nil, ?_, fun c hc => ?_, ?_⟩
  · intro hnil
    rw [hnil] at hlength
    exact absurd hlength (Nat.ne_of_lt h)
  · rcases List.mem_append.1 hc with hc | hc
    · exact Nat.isDigit_of_mem_toDigits (by decide) (by decide) hc
    · exact isDigit_of_mem_padded hc
  · have hunits : Nat.ofDigitChars 10 (Nat.toDigits 10 (x.units / scale x.places) ++
        padded x.places (x.units % scale x.places)) 0 = x.units := by
      rw [Nat.ofDigitChars_append, Nat.ofDigitChars_ten_toDigits, ofDigitChars_padded h hmod,
        Nat.div_add_mod]
    rw [ofDigits, hlength, hunits]

end Decimal

namespace Binary64

variable {x : Binary64}

theorem nearestBits_wholeDecimal (h : x.isWhole = true) :
    x.wholeDecimal.nearestBits = x.unsignedBits := by
  obtain ⟨hfinite, hwhole⟩ := Bool.and_eq_true_iff.1 h
  apply nearestBits_of_exact (Decimal.scale_pos 1) (Nat.le_of_lt (isFinite_iff.1 hfinite))
  have hunits : x.units / unitsPerOne * unitsPerOne = x.units :=
    Nat.div_mul_cancel (Nat.dvd_of_mod_eq_zero (by simpa using hwhole))
  rw [wholeDecimal, Nat.mul_right_comm, hunits]
  rfl

theorem shiftLeft_dvd_scale (places : Nat) : 1 <<< places ∣ Decimal.scale places := by
  rw [Nat.one_shiftLeft]
  cases places with
  | zero => exact Nat.dvd_refl 1
  | succ k => exact (Nat.pow_dvd_pow_iff k.succ_ne_zero).2 (by decide)

theorem nearestBits_exactDecimal (h : x.isFinite = true) :
    x.exactDecimal.nearestBits = x.unsignedBits := by
  apply nearestBits_of_exact (Decimal.scale_pos 1074) (Nat.le_of_lt (isFinite_iff.1 h))
  have hscale : unitsPerOne ∣ Decimal.scale 1074 := shiftLeft_dvd_scale 1074
  rw [exactDecimal, Nat.div_mul_cancel (Nat.dvd_mul_left_of_dvd hscale x.units)]
  rfl

theorem places_of_readsBackAt? {places : Nat} {d : Decimal} (h : x.readsBackAt? places = some d) :
    d.places = places := by
  have hmem := List.mem_of_find?_eq_some h
  split at hmem <;>
  · simp only [List.mem_cons, List.not_mem_nil, or_false] at hmem
    rcases hmem with rfl | rfl <;> rfl

theorem shortestDecimal_cases (x : Binary64) :
    (x.readsBack x.shortestDecimal = true ∧ 0 < x.shortestDecimal.places) ∨
      x.shortestDecimal = x.exactDecimal := by
  -- Whatever the search finds reads back, and where it finds nothing all places are written.
  unfold shortestDecimal
  cases hfound : (List.range 1074).findSome? fun i => x.readsBackAt? (i + 1) with
  | none => exact .inr rfl
  | some d =>
    obtain ⟨i, _, hd⟩ := List.exists_of_findSome?_eq_some hfound
    refine .inl ⟨readsBack_of_readsBackAt? hd, ?_⟩
    rw [Option.getD_some, places_of_readsBackAt? hd]
    exact i.succ_pos

theorem nearestBits_decimal (h : x.isFinite = true) : x.decimal.nearestBits = x.unsignedBits := by
  unfold decimal
  split
  · exact nearestBits_wholeDecimal ‹_›
  · rcases shortestDecimal_cases x with ⟨hback, _⟩ | hexact
    · exact eq_of_beq hback
    · rw [hexact]
      exact nearestBits_exactDecimal h

theorem places_decimal_pos (x : Binary64) : 0 < x.decimal.places := by
  unfold decimal
  split
  · exact Nat.one_pos
  · rcases shortestDecimal_cases x with ⟨_, hpos⟩ | hexact
    · exact hpos
    · rw [hexact]
      exact Nat.succ_pos _

end Binary64

end WhenClause
