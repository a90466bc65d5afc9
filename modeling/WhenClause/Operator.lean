/-!
# Operators

A group joins its entries by `and` or by `or`. A group may leave its operator unset, and an
unset operator counts as `and`; the difference stays visible in the notation and in snapshots.
-/

namespace WhenClause

inductive Operator where
  | and
  | or
  deriving DecidableEq, Repr, Inhabited

namespace Operator

def negate : Operator → Operator
  | .and => .or
  | .or => .and

@[simp] theorem negate_negate (o : Operator) : o.negate.negate = o := by
  cases o <;> rfl

theorem negate_ne (o : Operator) : o.negate ≠ o := by
  cases o <;> decide

def effective (o : Option Operator) : Operator :=
  o.getD .and

def label : Operator → String
  | .and => "and"
  | .or => "or"

def text : Operator → String
  | .and => "AND"
  | .or => "OR"

end Operator

end WhenClause
