import WhenClause.Group
import WhenClause.Snapshot.Varint

/-!
# Payloads

What a snapshot says about a rule: how many groups and conditions it has, its name, and its group
if there is one. The parts follow one another without any framing; lists and texts are preceded by
their lengths and choices by a number.

A reader accepts the attributes of a condition in any order and takes the last value of a repeated
key. Writing lists each key once and in order. The bytes of a text are read into a buffer that is
made as soon as their number is known, before it is known whether so many are left.
-/

namespace WhenClause.Snapshot

structure Payload where
  groupCount : Nat
  conditionCount : Nat
  name : String
  group : Option Group

/-! ## Writing -/

def writeText (s : String) : Bytes :=
  let bytes := Utf8.encode s.toList
  varint bytes.length ++ bytes

def writeValue : Value → Bytes
  | .int n => varint 0 ++ varint (zigzag n.toInt)
  | .float x => varint 1 ++ littleEndian 8 x.bits.toNat
  | .bool b => varint 2 ++ [if b then 1 else 0]
  | .str s => varint 3 ++ writeText s

def writeAttribute (a : String × Value) : Bytes := writeText a.1 ++ writeValue a.2

def writeCondition (c : Condition) : Bytes :=
  varint c.attributes.length ++ c.attributes.flatMap writeAttribute

def writeOperator : Option Operator → Bytes
  | none => [0]
  | some .and => 1 :: varint 0
  | some .or => 1 :: varint 1

mutual
def writeGroup : Group → Bytes
  | ⟨operator, items, groups⟩ =>
    writeOperator operator ++ (varint items.length ++ items.flatMap writeCondition) ++
      (varint groups.length ++ writeGroups groups)

def writeGroups : List Group → Bytes
  | [] => []
  | g :: gs => writeGroup g ++ writeGroups gs
end

theorem writeGroups_eq_flatMap (gs : List Group) : writeGroups gs = gs.flatMap writeGroup := by
  induction gs with
  | nil => rfl
  | cons g gs ih => rw [writeGroups, ih, List.flatMap_cons]

def Payload.write (p : Payload) : Bytes :=
  varint p.groupCount ++ varint p.conditionCount ++ writeText p.name ++
    match p.group with
    | none => [0]
    | some g => 1 :: writeGroup g

/-! ## Reading -/

/-- The length of a buffer is a signed number of sixty-four bits. -/
def largestBuffer : Nat := 0x7fffffffffffffff

namespace Reader

def option {α : Type} (r : Reader α) : Reader (Option α) := do
  match ← byte with
  | 0 => return none
  | 1 => return some (← r)
  | b => fail (.optionTag b)

def choice (count : Nat) : Reader (Fin count) := do
  let n ← varint .variant
  if h : n < count then return ⟨n, h⟩ else fail (.variant n count)

/-- So many bytes, in a buffer of their own. There is taken to be memory for every buffer that is
not too long in itself. -/
def buffer (n : Nat) : Reader Bytes := do
  if largestBuffer < n then throw .capacityOverflow
  take n

def text : Reader String := do
  let bytes ← buffer (← varint .count)
  match Utf8.decode bytes with
  | .ok s => return String.ofList s
  | .error f => fail (.text f)

def bool : Reader Bool := do
  match ← byte with
  | 0 => return false
  | 1 => return true
  | b => fail (.boolean b)

def value : Reader Value := do
  match ← choice 4 with
  | 0 => return .int (Int64.ofInt (unzigzag (← varint .integer)))
  | 1 => return .float ⟨UInt64.ofNat (ofLittleEndian (← take 8))⟩
  | 2 => return .bool (← bool)
  | 3 => return .str (← text)

def operator : Reader Operator := do
  match ← choice 2 with
  | 0 => return .and
  | 1 => return .or

def exactly {α : Type} (r : Reader α) : Nat → Reader (List α)
  | 0 => return []
  | n + 1 => return (← r) :: (← exactly r n)

def list {α : Type} (r : Reader α) : Reader (List α) := do
  exactly r (← varint .length)

def entry : Reader (String × Value) := return (← text, ← value)

def condition : Reader Condition := return .ofList (← list entry)

/-- A group nested at most so deep. Each level takes some bytes of its own, so a depth as great as
the number of bytes left is never used up before them. -/
def group : Nat → Reader Group
  | 0 => fail (.unexpectedEnd 1)
  | depth + 1 => return ⟨← option operator, ← list condition, ← list (group depth)⟩

def payload : Reader Payload := fun bytes =>
  let read : Reader Payload :=
    return ⟨← varint .count, ← varint .count, ← text, ← option (group bytes.length)⟩
  read bytes

end Reader

end WhenClause.Snapshot
