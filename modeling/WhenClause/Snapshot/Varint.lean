import WhenClause.Snapshot.Fault

/-!
# Numbers on the wire

A number below 251 is one byte. A larger one is a marker, 251, 252 or 253, and two, four or eight
bytes, the lowest first; readers also accept a wider form than a number needs. A signed number is
first mapped to an unsigned one, small magnitudes to small numbers.
-/

namespace WhenClause.Snapshot

def littleEndian : Nat → Nat → Bytes
  | 0, _ => []
  | width + 1, n => UInt8.ofNat n :: littleEndian width (n / 256)

def ofLittleEndian : Bytes → Nat
  | [] => 0
  | b :: bytes => b.toNat + 256 * ofLittleEndian bytes

@[simp] theorem length_littleEndian (width n : Nat) : (littleEndian width n).length = width := by
  induction width generalizing n with
  | zero => rfl
  | succ width ih => simp [littleEndian, ih]

def capacity (width : Nat) : Nat := Nat.pow 256 width

theorem capacity_succ (width : Nat) : capacity (width + 1) = capacity width * 256 :=
  rfl

theorem ofLittleEndian_littleEndian {width n : Nat} (h : n < capacity width) :
    ofLittleEndian (littleEndian width n) = n := by
  induction width generalizing n with
  | zero => simp_all [littleEndian, ofLittleEndian, capacity]
  | succ width ih =>
    have hdiv : n / 256 < capacity width := by
      rw [capacity_succ] at h
      omega
    simp only [littleEndian, ofLittleEndian, ih hdiv, UInt8.toNat_ofNat']
    omega

theorem littleEndian_ofLittleEndian (bytes : Bytes) :
    littleEndian bytes.length (ofLittleEndian bytes) = bytes := by
  induction bytes with
  | nil => rfl
  | cons b bytes ih =>
    have hlow : UInt8.ofNat (b.toNat + 256 * ofLittleEndian bytes) = b := by
      rw [← UInt8.toNat_inj, UInt8.toNat_ofNat']
      have := b.toNat_lt
      omega
    have hrest : (b.toNat + 256 * ofLittleEndian bytes) / 256 = ofLittleEndian bytes := by
      have := b.toNat_lt
      omega
    rw [ofLittleEndian, List.length_cons, littleEndian, hlow, hrest, ih]

theorem ofLittleEndian_lt (bytes : Bytes) : ofLittleEndian bytes < capacity bytes.length := by
  induction bytes with
  | nil => simp [ofLittleEndian, capacity]
  | cons b bytes ih =>
    have := b.toNat_lt
    simp only [ofLittleEndian, List.length_cons, capacity_succ]
    omega

def varint (n : Nat) : Bytes :=
  if n < 251 then [UInt8.ofNat n]
  else if n < 0x10000 then 251 :: littleEndian 2 n
  else if n < 0x100000000 then 252 :: littleEndian 4 n
  else 253 :: littleEndian 8 n

def zigzag (n : Int) : Nat :=
  if 0 ≤ n then 2 * n.toNat else 2 * (-n - 1).toNat + 1

def unzigzag (n : Nat) : Int :=
  if n % 2 = 0 then (n / 2 : Nat) else -((n / 2 : Nat) : Int) - 1

@[simp] theorem unzigzag_zigzag (n : Int) : unzigzag (zigzag n) = n := by
  unfold unzigzag zigzag
  split <;> split <;> omega

@[simp] theorem zigzag_unzigzag (n : Nat) : zigzag (unzigzag n) = n := by
  unfold unzigzag zigzag
  split <;> split <;> omega

abbrev Reader := StateT Bytes (Except Halt)

namespace Reader

def fail {α : Type} (f : Fault) : Reader α := throw (.fault f)

def take (n : Nat) : Reader Bytes := fun bytes =>
  let front := bytes.take n
  if front.length = n then .ok (front, bytes.drop n)
  else .error (.fault (.unexpectedEnd (n - front.length)))

def byte : Reader Nat
  | [] => .error (.fault (.unexpectedEnd 1))
  | b :: bytes => .ok (b.toNat, bytes)

inductive Purpose where
  | variant
  | length
  | count
  | integer
  deriving DecidableEq, Repr

namespace Purpose

def isWide : Purpose → Bool
  | .variant => false
  | .length | .count | .integer => true

/-- The kind of number that a fault says was expected, given how many bytes are left with the
first one of the number. Where nine or more are left, counts and integers are named by their
narrow kinds. -/
def expected (left : Nat) : Purpose → IntegerType
  | .variant => .u32
  | .length => .usize
  | .count => if 9 ≤ left then .u32 else .u64
  | .integer => if 9 ≤ left then .i32 else .i64

def found (marker : Nat) (p : Purpose) : IntegerType :=
  if marker = 253 then .u64
  else if marker = 254 then (if p = .integer then .i128 else .u128)
  else .reserved

end Purpose

def varint (p : Purpose) : Reader Nat := fun bytes => do
  let (first, rest) ← byte bytes
  if first < 251 then return (first, rest)
  let width? := if first = 251 then some 2
    else if first = 252 then some 4
    else if first = 253 ∧ p.isWide then some 8
    else none
  match width? with
  | some width =>
    let (number, rest) ← take width rest
    return (ofLittleEndian number, rest)
  | none => throw (.fault (.integerType (p.expected bytes.length) (p.found first)))

end Reader

end WhenClause.Snapshot
