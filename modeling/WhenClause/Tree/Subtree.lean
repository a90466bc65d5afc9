import WhenClause.Tree.Node

/-!
# Subtrees

What hangs from a group of a live tree, with the handle and the record of every group in it. A
subtree is what following handles from one group yields; all questions about the tree below a
group are answered from it.
-/

namespace WhenClause

inductive Subtree where
  | node (id : GroupId) (record : GroupNode) (children : List Subtree)

namespace Subtree

def id : Subtree → GroupId
  | .node id _ _ => id

def record : Subtree → GroupNode
  | .node _ record _ => record

mutual
def nodes : Subtree → List (GroupId × GroupNode)
  | .node id record children => (id, record) :: nodesAll children

def nodesAll : List Subtree → List (GroupId × GroupNode)
  | [] => []
  | s :: ss => nodes s ++ nodesAll ss
end

theorem nodesAll_eq_flatMap (ss : List Subtree) : nodesAll ss = ss.flatMap nodes := by
  induction ss with
  | nil => rfl
  | cons s ss ih => rw [nodesAll, ih, List.flatMap_cons]

theorem nodes_node (id : GroupId) (record : GroupNode) (children : List Subtree) :
    (node id record children).nodes = (id, record) :: children.flatMap nodes := by
  rw [nodes, nodesAll_eq_flatMap]

def groupIds (s : Subtree) : List GroupId := s.nodes.map Prod.fst

def conditionIds (s : Subtree) : List ConditionId := s.nodes.flatMap fun n => n.2.items

mutual
def toGroup (payload : ConditionId → Option Condition) : Subtree → Group
  | .node _ record children =>
    ⟨record.operator, record.items.filterMap payload, toGroupAll payload children⟩

def toGroupAll (payload : ConditionId → Option Condition) : List Subtree → List Group
  | [] => []
  | s :: ss => toGroup payload s :: toGroupAll payload ss
end

theorem toGroupAll_eq_map (payload : ConditionId → Option Condition) (ss : List Subtree) :
    toGroupAll payload ss = ss.map (toGroup payload) := by
  induction ss with
  | nil => rfl
  | cons s ss ih => rw [toGroupAll, ih, List.map_cons]

theorem toGroup_node (payload : ConditionId → Option Condition) (id : GroupId)
    (record : GroupNode) (children : List Subtree) :
    (node id record children).toGroup payload =
      ⟨record.operator, record.items.filterMap payload, children.map (toGroup payload)⟩ := by
  rw [toGroup, toGroupAll_eq_map]

def parentOfCondition? (s : Subtree) (c : ConditionId) : Option GroupId :=
  (s.nodes.find? fun n => n.2.items.contains c).map Prod.fst

def parentOfGroup? (s : Subtree) (g : GroupId) : Option GroupId :=
  (s.nodes.find? fun n => n.2.groups.contains g).map Prod.fst

end Subtree

end WhenClause
