import WhenClause.Group
import WhenClause.Slab.Lemmas

/-!
# Nodes and handles

A live tree stores each group and each condition under a handle. Groups and conditions have
handles of two kinds that cannot be mistaken for each other. The record of a group names its
conditions and its nested groups by their handles.
-/

namespace WhenClause

structure GroupId where
  key : Slab.Key
  deriving DecidableEq, Repr, Inhabited

structure ConditionId where
  key : Slab.Key
  deriving DecidableEq, Repr, Inhabited

structure GroupNode where
  operator : Option Operator
  items : List ConditionId
  groups : List GroupId
  deriving DecidableEq, Repr

namespace GroupNode

def empty : GroupNode := ⟨none, [], []⟩

instance : Inhabited GroupNode := ⟨empty⟩

def effectiveOperator (n : GroupNode) : Operator := Operator.effective n.operator

def isEmpty (n : GroupNode) : Bool := n.items.isEmpty && n.groups.isEmpty

def addItem (n : GroupNode) (c : ConditionId) : GroupNode := { n with items := n.items ++ [c] }

def addGroup (n : GroupNode) (g : GroupId) : GroupNode := { n with groups := n.groups ++ [g] }

def eraseItem (n : GroupNode) (c : ConditionId) : GroupNode := { n with items := n.items.erase c }

def eraseGroup (n : GroupNode) (g : GroupId) : GroupNode := { n with groups := n.groups.erase g }

def toggle (n : GroupNode) : GroupNode := { n with operator := some n.effectiveOperator.negate }

theorem effectiveOperator_toggle (n : GroupNode) :
    n.toggle.effectiveOperator = n.effectiveOperator.negate := rfl

end GroupNode

end WhenClause
