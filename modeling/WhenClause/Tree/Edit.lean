import WhenClause.Tree.Basic

/-!
# Editing live trees

Each edit yields its result together with the edited tree, or nothing when it finds nothing to act
on; then the tree is as it was. New nodes are copied from plain values, and a node that leaves the
tree is taken out of the store together with all that hangs from it.
-/

namespace WhenClause

namespace Tree

inductive Parent where
  | rule
  | group (g : GroupId)
  deriving DecidableEq, Repr

def insertCondition (t : Tree) (c : Condition) : ConditionId × Tree :=
  (⟨t.conditions.nextKey⟩, { t with conditions := t.conditions.insert c })

def insertNode (t : Tree) (n : GroupNode) : GroupId × Tree :=
  (⟨t.groups.nextKey⟩, { t with groups := t.groups.insert n })

def insertConditions (t : Tree) : List Condition → List ConditionId × Tree
  | [] => ([], t)
  | c :: cs =>
    let (id, t) := t.insertCondition c
    let (ids, t) := insertConditions t cs
    (id :: ids, t)

mutual
/-- Stores a copy of a plain group, not yet held by any other: its conditions, then its nested
groups, then the group itself. -/
def insertGroup : Group → Tree → GroupId × Tree
  | ⟨operator, items, groups⟩, t =>
    let (items, t) := t.insertConditions items
    let (groups, t) := insertGroups groups t
    t.insertNode ⟨operator, items, groups⟩

def insertGroups : List Group → Tree → List GroupId × Tree
  | [], t => ([], t)
  | g :: gs, t =>
    let (id, t) := insertGroup g t
    let (ids, t) := insertGroups gs t
    (id :: ids, t)
end

def ofGroup (g : Group) : Tree :=
  let (root, t) := insertGroup g .empty
  { t with root := some root }

def modifyGroup (t : Tree) (g : GroupId) (f : GroupNode → GroupNode) : Tree :=
  { t with groups := t.groups.modify g.key f }

def discardNode (t : Tree) (n : GroupId × GroupNode) : Tree :=
  { t with
    groups := t.groups.erase n.1.key
    conditions := n.2.items.foldl (fun cs c => cs.erase c.key) t.conditions }

def discard (t : Tree) (g : GroupId) : Tree :=
  match t.subtree? g with
  | some s => s.nodes.foldl discardNode t
  | none => t

def discardRoot (t : Tree) : Tree :=
  match t.root with
  | some g => { t.discard g with root := none }
  | none => t

def ensureRoot (t : Tree) : GroupId × Tree :=
  match t.root with
  | some g => (g, t)
  | none =>
    let (g, t) := t.insertNode .empty
    (g, { t with root := some g })

def toggle (t : Tree) (g : GroupId) : Option (Operator × Tree) :=
  (t.group? g).map fun n => (n.toggle.effectiveOperator, t.modifyGroup g GroupNode.toggle)

def addGroup (t : Tree) (parent : Parent) (template : Option Group) : Option (GroupId × Tree) :=
  match parent with
  | .rule =>
    let (g, t) := insertGroup (template.getD .empty) t.discardRoot
    some (g, { t with root := some g })
  | .group p =>
    if t.containsGroup p then
      let (g, t) := insertGroup (template.getD .empty) t
      some (g, t.modifyGroup p (·.addGroup g))
    else none

/-- Removes a group with all that hangs from it. Removing the root leaves nothing. -/
def removeGroup (t : Tree) (g : GroupId) : Option Tree :=
  t.root.bind fun root =>
    if g = root then some t.discardRoot
    else (t.parentOfGroup? g root).map fun p => (t.modifyGroup p (·.eraseGroup g)).discard g

def addCondition (t : Tree) (parent : GroupId) (template : Option Condition) :
    Option (ConditionId × Tree) :=
  if t.containsGroup parent then
    let (c, t) := t.insertCondition (template.getD .empty)
    some (c, t.modifyGroup parent (·.addItem c))
  else none

def removeCondition (t : Tree) (c : ConditionId) : Option Tree :=
  t.root.bind fun root => (t.parentOfCondition? c root).map fun p =>
    let t := t.modifyGroup p (·.eraseItem c)
    { t with conditions := t.conditions.erase c.key }

def updateCondition (t : Tree) (c : ConditionId) (f : Condition → Condition) : Option Tree :=
  if t.containsCondition c then some { t with conditions := t.conditions.modify c.key f } else none

end Tree

end WhenClause
