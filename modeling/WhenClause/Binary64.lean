/-!
# Binary floating point numbers of 64 bits

A number is its word: a sign bit, eleven exponent bits and fifty-two fraction bits. Two numbers
are equal in Lean when their words are, so the two zeros differ and every NaN equals itself.
`agrees` is the numeric comparison, in which the zeros are one number and no NaN agrees with
anything.

The magnitude of a finite number is a natural number of units, the unit being `2 ^ -1074`, the
smallest positive number of the format. All arithmetic below is exact arithmetic on units.
-/

namespace WhenClause

structure Binary64 where
  bits : UInt64
  deriving DecidableEq, Repr, Inhabited

namespace Binary64

def signWeight : Nat := 0x8000000000000000

def exponentWeight : Nat := 0x10000000000000

def infinityBits : Nat := 0x7FF0000000000000

def unitsPerOne : Nat := 1 <<< 1074

def negative (x : Binary64) : Bool := signWeight ≤ x.bits.toNat

def unsignedBits (x : Binary64) : Nat := x.bits.toNat % signWeight

def isFinite (x : Binary64) : Bool := x.unsignedBits < infinityBits

def isNaN (x : Binary64) : Bool := infinityBits < x.unsignedBits

theorem isFinite_iff {x : Binary64} : x.isFinite = true ↔ x.unsignedBits < infinityBits := by
  simp [isFinite]

theorem isNaN_iff {x : Binary64} : x.isNaN = true ↔ infinityBits < x.unsignedBits := by
  simp [isNaN]

def ofSignBits (negative : Bool) (bits : Nat) : Binary64 :=
  ⟨UInt64.ofNat (if negative then signWeight + bits else bits)⟩

def infinity : Binary64 := ofSignBits false infinityBits

def negInfinity : Binary64 := ofSignBits true infinityBits

def nan : Binary64 := ofSignBits false 0x7FF8000000000000

theorem unsignedBits_lt (x : Binary64) : x.unsignedBits < signWeight :=
  Nat.mod_lt _ (by decide)

theorem toNat_bits_ofSignBits {negative : Bool} {bits : Nat} (h : bits < signWeight) :
    (ofSignBits negative bits).bits.toNat = if negative then signWeight + bits else bits := by
  have hw : signWeight = 2 ^ 63 := by decide
  simp only [ofSignBits, UInt64.toNat_ofNat']
  apply Nat.mod_eq_of_lt
  split <;> omega

@[simp] theorem ofSignBits_eta (x : Binary64) :
    ofSignBits x.negative x.unsignedBits = x := by
  have hlt := x.bits.toNat_lt
  have hbits : (ofSignBits x.negative x.unsignedBits).bits = x.bits := by
    rw [← UInt64.toNat_inj, toNat_bits_ofSignBits x.unsignedBits_lt]
    by_cases h : signWeight ≤ x.bits.toNat
    · simp only [negative, unsignedBits, h, decide_true, if_true]
      simp only [signWeight] at *
      omega
    · simp only [negative, unsignedBits, h, decide_false, Bool.false_eq_true, if_false]
      exact Nat.mod_eq_of_lt (Nat.lt_of_not_le h)
  exact congrArg Binary64.mk hbits

def agrees (x y : Binary64) : Bool :=
  !x.isNaN && !y.isNaN && (x == y || x.unsignedBits == 0 && y.unsignedBits == 0)

def exponentField (bits : Nat) : Nat := bits / exponentWeight

/-- Units of a word without its sign: below the first normal word a word is its own magnitude,
and from there each step of the exponent field doubles the unit of the fifty-three bit
significand. -/
def unitsOfBits (bits : Nat) : Nat :=
  if exponentField bits = 0 then bits
  else (exponentWeight + bits % exponentWeight) <<< (exponentField bits - 1)

def units (x : Binary64) : Nat := unitsOfBits x.unsignedBits

def isWhole (x : Binary64) : Bool := x.isFinite && x.units % unitsPerOne == 0

end Binary64

end WhenClause
