import WhenClause.Proofs.Slab.InPlace
import WhenClause.Proofs.Tree.Stale

/-!
# Operators and edits

No edit asks for the operator of a group but the one that turns it. So a tree in which a group has
another operator is edited in the same way, with the same new handles, and what comes of it differs
in that operator alone.
-/

namespace WhenClause

namespace GroupNode

def setOperator (n : GroupNode) (o : Option Operator) : GroupNode := { n with operator := o }

def retuned (g : GroupId) (o : Option Operator) (n : GroupId × GroupNode) : GroupId × GroupNode :=
  (n.1, if n.1 = g then n.2.setOperator o else n.2)

variable (g : GroupId) (o : Option Operator) (n : GroupId × GroupNode)

@[simp] theorem items_retuned : (retuned g o n).2.items = n.2.items := by
  unfold retuned
  split <;> rfl

@[simp] theorem groups_retuned : (retuned g o n).2.groups = n.2.groups := by
  unfold retuned
  split <;> rfl

end GroupNode

open GroupNode (retuned)

namespace Subtree

mutual
def retune (g : GroupId) (o : Option Operator) : Subtree → Subtree
  | .node id record children => .node id (retuned g o (id, record)).2 (retuneAll g o children)

def retuneAll (g : GroupId) (o : Option Operator) : List Subtree → List Subtree
  | [] => []
  | s :: ss => s.retune g o :: retuneAll g o ss
end

theorem retuneAll_eq_map (g : GroupId) (o : Option Operator) (ss : List Subtree) :
    retuneAll g o ss = ss.map (retune g o) := by
  induction ss with
  | nil => rfl
  | cons s ss ih => rw [retuneAll, ih, List.map_cons]

theorem nodes_retune (g : GroupId) (o : Option Operator) (s : Subtree) :
    (s.retune g o).nodes = s.nodes.map (retuned g o) := by
  induction s using induct with
  | node id record children ih =>
    rw [retune, retuneAll_eq_map, nodes_node, nodes_node, List.map_cons, List.flatMap_map,
      List.map_flatMap]
    exact congrArg (_ :: ·) (List.flatMap_congr ih)

end Subtree

namespace Tree

def retune (t : Tree) (g : GroupId) (o : Option Operator) : Tree :=
  t.modifyGroup g (·.setOperator o)

variable {t : Tree} {g : GroupId} {o : Option Operator} {whole : Option Subtree}

theorem containsGroup_retune (t : Tree) (g : GroupId) (o : Option Operator) (h : GroupId) :
    (t.retune g o).containsGroup h = t.containsGroup h :=
  containsGroup_modifyGroup g h _

theorem group?_retune (t : Tree) (g : GroupId) (o : Option Operator) (h : GroupId) :
    (t.retune g o).group? h = (t.group? h).map fun n => (retuned g o (h, n)).2 := by
  rw [retune, group?_modifyGroup]
  by_cases hg : h = g
  · simp [hg, retuned]
  · simp [hg, retuned]

theorem retune_of_not_live (h : t.containsGroup g = false) (o : Option Operator) :
    t.retune g o = t := by
  have hslab : t.groups.modify g.key (·.setOperator o) = t.groups :=
    if_neg (Bool.eq_false_iff.1 h)
  rw [retune, modifyGroup, hslab]

/-! ## Following handles -/

theorem subtreeWithin?_retune (t : Tree) (g : GroupId) (o : Option Operator) (depth : Nat)
    (h : GroupId) :
    (t.retune g o).subtreeWithin? depth h =
      (t.subtreeWithin? depth h).map (Subtree.retune g o) := by
  induction depth generalizing h with
  | zero => rfl
  | succ depth ih =>
    have hnext : (t.retune g o).subtreeWithin? depth =
        fun h => (t.subtreeWithin? depth h).map (Subtree.retune g o) := funext ih
    rw [subtreeWithin?, subtreeWithin?, hnext, group?_retune, Option.map_map, Option.map_map]
    apply Option.map_congr
    intro n _
    simp only [Function.comp_apply, Subtree.retune, Subtree.retuneAll_eq_map,
      GroupNode.groups_retuned, List.map_filterMap]

theorem subtree?_retune (t : Tree) (g : GroupId) (o : Option Operator) (h : GroupId) :
    (t.retune g o).subtree? h = (t.subtree? h).map (Subtree.retune g o) := by
  have hcount : (t.retune g o).groupCount = t.groupCount := Slab.size_modify ..
  rw [subtree?, subtree?, hcount, subtreeWithin?_retune]

theorem find?_retuned {P : GroupId × GroupNode → Bool} (hP : ∀ n, P (retuned g o n) = P n)
    (s : Subtree) :
    (((s.retune g o).nodes.find? P).map Prod.fst) = (s.nodes.find? P).map Prod.fst := by
  have hcomp : P ∘ retuned g o = P := funext hP
  rw [Subtree.nodes_retune, List.find?_map, hcomp, Option.map_map]
  rfl

theorem parentOfGroup?_retune (t : Tree) (g : GroupId) (o : Option Operator) (h start : GroupId) :
    (t.retune g o).parentOfGroup? h start = t.parentOfGroup? h start := by
  rw [parentOfGroup?, parentOfGroup?, subtree?_retune, Option.bind_map]
  apply Option.bind_congr
  intro s _
  exact find?_retuned (fun n => by rw [GroupNode.groups_retuned]) s

theorem parentOfCondition?_retune (t : Tree) (g : GroupId) (o : Option Operator) (c : ConditionId)
    (start : GroupId) :
    (t.retune g o).parentOfCondition? c start = t.parentOfCondition? c start := by
  rw [parentOfCondition?, parentOfCondition?, subtree?_retune, Option.bind_map]
  apply Option.bind_congr
  intro s _
  exact find?_retuned (fun n => by rw [GroupNode.items_retuned]) s

/-! ## Steps of edits -/

theorem modifyGroup_retune (t : Tree) {p : GroupId} {f : GroupNode → GroupNode}
    (h : p = g → ∀ n, f (n.setOperator o) = (f n).setOperator o) :
    (t.retune g o).modifyGroup p f = (t.modifyGroup p f).retune g o := by
  have hslab : (t.groups.modify g.key (·.setOperator o)).modify p.key f =
      (t.groups.modify p.key f).modify g.key (·.setOperator o) :=
    Slab.modify_comm t.groups fun hkey => h (GroupId.key_inj.1 hkey)
  simp only [retune, modifyGroup, hslab]

theorem discardNode_retune (t : Tree) (g : GroupId) (o : Option Operator)
    (n : GroupId × GroupNode) :
    (t.retune g o).discardNode (retuned g o n) = (t.discardNode n).retune g o := by
  simp only [discardNode, retune, modifyGroup, GroupNode.items_retuned]
  rw [← Slab.erase_modify]
  rfl

theorem foldl_discardNode_retune (g : GroupId) (o : Option Operator)
    (ns : List (GroupId × GroupNode)) (t : Tree) :
    (ns.map (retuned g o)).foldl discardNode (t.retune g o) =
      (ns.foldl discardNode t).retune g o := by
  induction ns generalizing t with
  | nil => rfl
  | cons n ns ih => rw [List.map_cons, List.foldl_cons, List.foldl_cons, discardNode_retune, ih]

theorem discard_retune (t : Tree) (g : GroupId) (o : Option Operator) (h : GroupId) :
    (t.retune g o).discard h = (t.discard h).retune g o := by
  rw [discard, discard, subtree?_retune]
  cases t.subtree? h with
  | none => rfl
  | some s =>
    simp only [Option.map_some, Subtree.nodes_retune]
    exact foldl_discardNode_retune g o s.nodes t

theorem discardRoot_retune (t : Tree) (g : GroupId) (o : Option Operator) :
    (t.retune g o).discardRoot = t.discardRoot.retune g o := by
  have hroot : (t.retune g o).root = t.root := rfl
  rw [discardRoot, discardRoot, hroot]
  cases t.root with
  | none => rfl
  | some r => simp only [discard_retune]; rfl

/-- The group is there after a step, and with another operator the step comes to the same. -/
structure Carried {β : Type} (g : GroupId) (o : Option Operator) (r r' : β × Tree) : Prop where
  live : r.2.containsGroup g = true
  result : r'.1 = r.1
  tree : r'.2 = r.2.retune g o

theorem carried_insertNode (hg : t.containsGroup g = true) (n : GroupNode) :
    Carried g o (t.insertNode n) ((t.retune g o).insertNode n) where
  live := (extends_insertNode t n).containsGroup hg
  result := congrArg GroupId.mk (Slab.nextKey_modify ..)
  tree := by simp only [insertNode, retune, modifyGroup, Slab.insert_modify hg]

theorem carried_insertConditions (hg : t.containsGroup g = true) (ds : List Condition) :
    Carried g o (t.insertConditions ds) ((t.retune g o).insertConditions ds) := by
  induction ds generalizing t with
  | nil => exact ⟨hg, rfl, rfl⟩
  | cons d ds ih =>
    have hmore := @ih (t.insertCondition d).2 hg
    rw [insertConditions_cons, insertConditions_cons]
    exact ⟨hmore.live, congrArg (_ :: ·) hmore.result, hmore.tree⟩

theorem carried_insertGroups {xs : List Group}
    (hone : ∀ x ∈ xs, ∀ t : Tree, t.containsGroup g = true →
      Carried g o (insertGroup x t) (insertGroup x (t.retune g o)))
    (hg : t.containsGroup g = true) :
    Carried g o (insertGroups xs t) (insertGroups xs (t.retune g o)) := by
  induction xs generalizing t with
  | nil =>
    rw [insertGroups, insertGroups]
    exact ⟨hg, rfl, rfl⟩
  | cons x xs ih =>
    have hfirst := hone x (List.mem_cons_self ..) t hg
    have hmore := ih (fun x hx => hone x (List.mem_cons_of_mem _ hx)) hfirst.live
    rw [insertGroups_cons, insertGroups_cons, hfirst.result, hfirst.tree]
    exact ⟨hmore.live, congrArg (_ :: ·) hmore.result, hmore.tree⟩

theorem carried_insertGroup (hg : t.containsGroup g = true) (x : Group) :
    Carried g o (insertGroup x t) (insertGroup x (t.retune g o)) := by
  induction x using Group.induct generalizing t with
  | node operator items groups ih =>
    have hitems := @carried_insertConditions t g o hg items
    have hgroups := carried_insertGroups (fun x hx t hg => ih x hx hg) hitems.live
    simp only [insertGroup_eq]
    rw [hitems.result, hitems.tree, hgroups.result, hgroups.tree]
    exact carried_insertNode hgroups.live _

theorem ensureRoot_retune (hg : t.containsGroup g = true) (o : Option Operator) :
    (t.retune g o).ensureRoot.2 = t.ensureRoot.2.retune g o := by
  have hroot : (t.retune g o).root = t.root := rfl
  rw [ensureRoot, ensureRoot, hroot]
  cases t.root with
  | some r => rfl
  | none =>
    have hnode := @carried_insertNode t g o hg .empty
    simp only [hnode.result, hnode.tree]
    rfl

theorem addGroup_retune (h : t.Shape whole) (hg : t.containsGroup g = true) (parent : Parent)
    (template : Option Group) :
    (t.retune g o).addGroup parent template =
      (t.addGroup parent template).map fun r => (r.1, r.2.retune g o) := by
  cases parent with
  | rule =>
    -- The group is gone with the whole, and what comes in its place is not it.
    have hdead : t.discardRoot.containsGroup g = false := h.discardRoot.containsGroup_none g
    let new := insertGroup (template.getD .empty) t.discardRoot
    have hadd : t.addGroup .rule template = some (new.1, { new.2 with root := some new.1 }) := rfl
    have hdead' := h.containsGroup_addGroup_rule hadd hg
    simp only [addGroup, discardRoot_retune, retune_of_not_live hdead, Option.map_some]
    rw [retune_of_not_live hdead']
  | group p =>
    have hnew := @carried_insertGroup t g o hg (template.getD .empty)
    simp only [addGroup, containsGroup_retune, hnew.result, hnew.tree]
    split
    · rw [modifyGroup_retune _ fun _ _ => rfl]
      rfl
    · rfl

theorem removeGroup_retune (t : Tree) (g : GroupId) (o : Option Operator) (h : GroupId) :
    (t.retune g o).removeGroup h = (t.removeGroup h).map (·.retune g o) := by
  have hroot : (t.retune g o).root = t.root := rfl
  rw [removeGroup, removeGroup, hroot, Option.map_bind]
  apply Option.bind_congr
  intro r _
  rw [Function.comp_apply]
  split
  · rw [discardRoot_retune, Option.map_some]
  · rw [parentOfGroup?_retune, Option.map_map]
    apply Option.map_congr
    intro p _
    rw [Function.comp_apply, modifyGroup_retune _ fun _ _ => rfl, discard_retune]

theorem addCondition_retune (t : Tree) (g : GroupId) (o : Option Operator) (parent : GroupId)
    (template : Option Condition) :
    (t.retune g o).addCondition parent template =
      (t.addCondition parent template).map fun r => (r.1, r.2.retune g o) := by
  have hone : (t.retune g o).insertCondition (template.getD .empty) =
      ((t.insertCondition (template.getD .empty)).1,
        (t.insertCondition (template.getD .empty)).2.retune g o) := rfl
  simp only [addCondition, containsGroup_retune, hone]
  split
  · rw [modifyGroup_retune _ fun _ _ => rfl]
    rfl
  · rfl

theorem removeCondition_retune (t : Tree) (g : GroupId) (o : Option Operator) (c : ConditionId) :
    (t.retune g o).removeCondition c = (t.removeCondition c).map (·.retune g o) := by
  have hroot : (t.retune g o).root = t.root := rfl
  rw [removeCondition, removeCondition, hroot, Option.map_bind]
  apply Option.bind_congr
  intro r _
  rw [Function.comp_apply, parentOfCondition?_retune, Option.map_map]
  apply Option.map_congr
  intro p _
  rw [Function.comp_apply, modifyGroup_retune _ fun _ _ => rfl]
  rfl

theorem toggle_retune {p : GroupId} (hp : p ≠ g) :
    (t.retune g o).toggle p = (t.toggle p).map fun r => (r.1, r.2.retune g o) := by
  have hrecord : (t.retune g o).group? p = t.group? p := group?_modifyGroup_of_ne hp _
  rw [toggle, toggle, hrecord, Option.map_map, modifyGroup_retune _ fun heq => absurd heq hp]
  rfl

theorem map_snd_retune {β : Type} (r : Option (β × Tree)) :
    (r.map fun r => (r.1, r.2.retune g o)).map Prod.snd = (r.map Prod.snd).map (·.retune g o) := by
  cases r <;> rfl

theorem edit?_retune (h : t.Shape whole) (hg : t.containsGroup g = true) {e : Edit}
    (he : e ≠ .toggle g) (o : Option Operator) :
    (t.retune g o).edit? e = (t.edit? e).map (·.retune g o) := by
  cases e with
  | ensureRoot => exact congrArg some (ensureRoot_retune hg o)
  | toggle p =>
    have hp : p ≠ g := fun heq => he (congrArg Edit.toggle heq)
    rw [edit?, edit?, toggle_retune hp, map_snd_retune]
  | addGroup parent template => rw [edit?, edit?, addGroup_retune h hg, map_snd_retune]
  | removeGroup p => exact removeGroup_retune t g o p
  | addCondition parent template => rw [edit?, edit?, addCondition_retune, map_snd_retune]
  | removeCondition c => exact removeCondition_retune t g o c
  | updateCondition c f =>
    have hlive : (t.retune g o).containsCondition c = t.containsCondition c := rfl
    simp only [edit?, updateCondition, hlive]
    split <;> rfl

theorem edit_retune (h : t.Shape whole) (hg : t.containsGroup g = true) {e : Edit}
    (he : e ≠ .toggle g) (o : Option Operator) :
    (t.retune g o).edit e = (t.edit e).retune g o := by
  rw [edit, edit, edit?_retune h hg he]
  cases t.edit? e <;> rfl

/-! ## The edit that turns the operator -/

theorem retune_retune (t : Tree) (g : GroupId) (o o' : Option Operator) :
    (t.retune g o).retune g o' = t.retune g o' := by
  simp only [retune, modifyGroup, Slab.modify_modify]
  rfl

theorem modifyGroup_congr {n : GroupNode} (h : t.group? g = some n) {f f' : GroupNode → GroupNode}
    (hf : f n = f' n) : t.modifyGroup g f = t.modifyGroup g f' := by
  have hslab : t.groups.modify g.key f = t.groups.modify g.key f' := by
    apply Slab.modify_congr
    intro m hm
    cases h.symm.trans hm
    exact hf
  rw [modifyGroup, modifyGroup, hslab]

theorem retune_eq_self {n : GroupNode} (h : t.group? g = some n) : t.retune g n.operator = t := by
  have hsame : t.retune g n.operator = t.modifyGroup g id := modifyGroup_congr h rfl
  rw [hsame, modifyGroup, Slab.modify_id]

theorem edit_toggle {n : GroupNode} (h : t.group? g = some n) :
    t.edit (.toggle g) = t.retune g (some n.effectiveOperator.negate) := by
  rw [edit, edit?, toggle, h]
  exact modifyGroup_congr h rfl

end Tree

end WhenClause
