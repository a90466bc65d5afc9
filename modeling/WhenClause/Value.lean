import WhenClause.Decimal.Shortest
import WhenClause.Notation.Quoted

/-!
# Values

What an attribute of a condition can hold. The four kinds are kept apart everywhere: the integer
`1` and the float `1.0` are different values and are written differently.
-/

namespace WhenClause

inductive Value where
  | int (n : Int64)
  | float (x : Binary64)
  | bool (b : Bool)
  | str (s : String)
  deriving DecidableEq, Repr

namespace Value

def asStr? : Value → Option String
  | .str s => some s
  | _ => none

def agrees : Value → Value → Bool
  | .int m, .int n => m == n
  | .float x, .float y => x.agrees y
  | .bool a, .bool b => a == b
  | .str s, .str t => s == t
  | _, _ => false

def isNaN : Value → Bool
  | .float x => x.isNaN
  | _ => false

def printInt (n : Int) : List Char :=
  if n < 0 then '-' :: Nat.toDigits 10 n.natAbs else Nat.toDigits 10 n.natAbs

def print : Value → List Char
  | .int n => printInt n.toInt
  | .float x => x.print
  | .bool true => "true".toList
  | .bool false => "false".toList
  | .str s => Quoted.print s.toList

def text (v : Value) : String := String.ofList v.print

end Value

end WhenClause
