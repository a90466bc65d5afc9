import WhenClause.Config
import WhenClause.Tree.Basic

/-!
# Views

What a screen has to draw for a live tree: for each group its rows, conditions before nested
groups, and the actions it offers. Every row shows the operator in force at the group that owns
it. A view carries handles, so that an action on it can be passed on to the editor.
-/

namespace WhenClause

mutual
inductive GroupView where
  | mk (id : GroupId) (operator : Operator) (outline removable : Bool) (rows : List Row)
    (addCondition addGroup hasItems : Bool)

inductive Row where
  | condition (operator : Operator) (id : ConditionId) (removable : Bool)
  | group (operator : Operator) (view : GroupView)
end

namespace Row

def operator : Row → Operator
  | .condition operator _ _ => operator
  | .group operator _ => operator

def conditionId? : Row → Option ConditionId
  | .condition _ id _ => some id
  | .group _ _ => none

def groupView? : Row → Option GroupView
  | .condition _ _ _ => none
  | .group _ view => some view

end Row

namespace GroupView

def id : GroupView → GroupId
  | .mk id _ _ _ _ _ _ _ => id

def operator : GroupView → Operator
  | .mk _ operator _ _ _ _ _ _ => operator

def outline : GroupView → Bool
  | .mk _ _ outline _ _ _ _ _ => outline

def removable : GroupView → Bool
  | .mk _ _ _ removable _ _ _ _ => removable

def rows : GroupView → List Row
  | .mk _ _ _ _ rows _ _ _ => rows

def addCondition : GroupView → Bool
  | .mk _ _ _ _ _ addCondition _ _ => addCondition

def addGroup : GroupView → Bool
  | .mk _ _ _ _ _ _ addGroup _ => addGroup

def hasItems : GroupView → Bool
  | .mk _ _ _ _ _ _ _ hasItems => hasItems

def conditionIds (v : GroupView) : List ConditionId := v.rows.filterMap Row.conditionId?

def subgroups (v : GroupView) : List GroupView := v.rows.filterMap Row.groupView?

mutual
/-- The view of what hangs from a group. The root of a tree is never removable, and neither is a
condition that is alone among its group's conditions. -/
def ofSubtree (config : Config) (isRoot : Bool) : Subtree → GroupView
  | .node id record children =>
    let operator := record.effectiveOperator
    let removable := !config.readonly && decide (1 < record.items.length)
    .mk id operator config.showsGroupOutline (!config.readonly && !isRoot)
      (record.items.map (Row.condition operator · removable) ++ groupRows config operator children)
      config.showsAddCondition config.showsAddGroup (!record.isEmpty)

def groupRows (config : Config) (operator : Operator) : List Subtree → List Row
  | [] => []
  | s :: ss => .group operator (ofSubtree config false s) :: groupRows config operator ss
end

theorem groupRows_eq_map (config : Config) (operator : Operator) (ss : List Subtree) :
    groupRows config operator ss = ss.map fun s => .group operator (ofSubtree config false s) := by
  induction ss with
  | nil => rfl
  | cons s ss ih => rw [groupRows, ih, List.map_cons]

end GroupView

def Tree.view? (t : Tree) (config : Config) : Option GroupView :=
  t.rootSubtree?.map (GroupView.ofSubtree config true)

end WhenClause
