import WhenClause.Utf8

/-!
# Faults in a payload

Why the bytes of a payload are not in the wire format: they end too early, a number starts with a
byte that no number of its kind starts with, or a byte that stands for a choice stands for none.
Reading such bytes hands back the fault. There is one more way in which reading does not get to an
end: the bytes may ask for a buffer longer than any buffer can be, and that stops the program.
-/

namespace WhenClause.Snapshot

inductive IntegerType where
  | u32
  | u64
  | u128
  | usize
  | i32
  | i64
  | i128
  | reserved
  deriving DecidableEq, Repr

def IntegerType.text : IntegerType → String
  | .u32 => "U32"
  | .u64 => "U64"
  | .u128 => "U128"
  | .usize => "Usize"
  | .i32 => "I32"
  | .i64 => "I64"
  | .i128 => "I128"
  | .reserved => "Reserved"

inductive Fault where
  | unexpectedEnd (missing : Nat)
  | integerType (expected found : IntegerType)
  | optionTag (found : Nat)
  | variant (found count : Nat)
  | boolean (found : Nat)
  | text (fault : Utf8.Fault)
  deriving DecidableEq, Repr

def Fault.message : Fault → String
  | .unexpectedEnd missing => "UnexpectedEnd \x7b additional: " ++ missing.repr ++ " \x7d"
  | .integerType expected found =>
    "InvalidIntegerType \x7b expected: " ++ expected.text ++ ", found: " ++ found.text ++ " \x7d"
  | .optionTag found =>
    "UnexpectedVariant \x7b type_name: \"Option<T>\", allowed: Range \x7b min: 0, max: 1 \x7d, found: " ++
      found.repr ++ " \x7d"
  | .variant found count =>
    "OtherString(\"invalid value: integer `" ++ found.repr ++ "`, expected variant index 0 <= i < " ++
      count.repr ++ "\")"
  | .boolean found => "InvalidBooleanValue(" ++ found.repr ++ ")"
  | .text fault =>
    let length := match fault.errorLength with
      | some n => "Some(" ++ n.repr ++ ")"
      | none => "None"
    "Utf8 \x7b inner: Utf8Error \x7b valid_up_to: " ++ fault.validUpTo.repr ++
      ", error_len: " ++ length ++ " \x7d \x7d"

inductive Halt where
  | fault (f : Fault)
  | capacityOverflow
  deriving DecidableEq, Repr

end WhenClause.Snapshot
