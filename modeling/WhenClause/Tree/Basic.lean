import WhenClause.Tree.Subtree

/-!
# Live trees

A live tree is the condition tree of a rule while it is being edited: groups and conditions under
handles, and the handle of the root group, if there is one. A handle whose node was removed is
stale: looking it up finds nothing, and no node added later gets the same handle.

Handles are followed at most as deep as there are groups, so following them ends whatever the
records hold. A tree in which every group is the child of at most one group is never deeper.
-/

namespace WhenClause

structure Tree where
  groups : Slab GroupNode
  conditions : Slab Condition
  root : Option GroupId

namespace Tree

def empty : Tree := ⟨.empty, .empty, none⟩

instance : Inhabited Tree := ⟨empty⟩

def isEmpty (t : Tree) : Bool := t.root.isNone

def group? (t : Tree) (g : GroupId) : Option GroupNode := t.groups.get? g.key

def condition? (t : Tree) (c : ConditionId) : Option Condition := t.conditions.get? c.key

def containsGroup (t : Tree) (g : GroupId) : Bool := t.groups.contains g.key

def containsCondition (t : Tree) (c : ConditionId) : Bool := t.conditions.contains c.key

def groupCount (t : Tree) : Nat := t.groups.size

def conditionCount (t : Tree) : Nat := t.conditions.size

def subtreeWithin? (t : Tree) : Nat → GroupId → Option Subtree
  | 0, _ => none
  | depth + 1, g => (t.group? g).map fun record =>
      .node g record (record.groups.filterMap (subtreeWithin? t depth))

def subtree? (t : Tree) (g : GroupId) : Option Subtree := t.subtreeWithin? t.groupCount g

def rootSubtree? (t : Tree) : Option Subtree := t.root.bind t.subtree?

/-- The group that holds a condition, among those at or below `start`. -/
def parentOfCondition? (t : Tree) (c : ConditionId) (start : GroupId) : Option GroupId :=
  (t.subtree? start).bind fun s => s.parentOfCondition? c

def parentOfGroup? (t : Tree) (g start : GroupId) : Option GroupId :=
  (t.subtree? start).bind fun s => s.parentOfGroup? g

def groupIds (t : Tree) : List GroupId := (t.rootSubtree?.map Subtree.groupIds).getD []

def conditionIds (t : Tree) : List ConditionId := (t.rootSubtree?.map Subtree.conditionIds).getD []

def toGroup? (t : Tree) (g : GroupId) : Option Group :=
  (t.subtree? g).map fun s => s.toGroup t.condition?

def rootGroup? (t : Tree) : Option Group := t.root.bind t.toGroup?

end Tree

end WhenClause
