import Mathlib.Data.List.Pairwise
import Mathlib.Logic.Relation
import WhenClause.Proofs.Tree.Run

/-!
# One path to each node

In every tree that a run comes to, each node in store is reached from the root along exactly one
path: records name nothing that is gone, every group but the root is named once and by one group,
the root by none, every condition once and by one group, and nothing in store is out of reach.
So what is counted in store, what is listed from the root and what the plain value holds agree.
-/

namespace WhenClause

namespace Subtree

variable {t : Tree} {s : Subtree}

theorem StoredIn.groupIds_perm (h : s.StoredIn t) :
    s.groupIds.Perm (s.id :: s.nodes.flatMap (·.2.groups)) := by
  induction h with
  | @node id record children _ names below ih =>
    have hchildren : (children.flatMap groupIds).Perm
        (children.map Subtree.id ++ (children.flatMap nodes).flatMap (·.2.groups)) := by
      clear names below
      induction children with
      | nil => exact .refl _
      | cons s ss ihss =>
        have hs := ih s (List.mem_cons_self ..)
        have hss := ihss fun u hu => ih u (List.mem_cons_of_mem _ hu)
        simp only [List.flatMap_cons, List.map_cons, List.flatMap_append, List.cons_append]
        refine (hs.append hss).trans (.cons _ ?_)
        exact List.perm_append_comm_assoc ..
    rw [groupIds_node, nodes_node, List.flatMap_cons, names]
    exact hchildren.cons _

theorem StoredIn.nodup_named (h : s.StoredIn t) (hnodup : s.groupIds.Nodup) :
    s.id ∉ s.nodes.flatMap (·.2.groups) ∧ (s.nodes.flatMap (·.2.groups)).Nodup :=
  List.nodup_cons.1 (h.groupIds_perm.nodup_iff.1 hnodup)

theorem eq_of_mem_of_nodup_flatMap {α β : Type} {f : α → List β} {l : List α}
    (hnodup : (l.flatMap f).Nodup) {x y : α} (hx : x ∈ l) (hy : y ∈ l) {b : β} (hbx : b ∈ f x)
    (hby : b ∈ f y) : x = y := by
  by_contra hne
  have hsymm : Std.Symm (Function.onFun List.Disjoint f) := ⟨fun _ _ h _ hy hx => h hx hy⟩
  exact (List.nodup_flatMap.1 hnodup).2.forall hx hy hne hbx hby

theorem length_preorder_toGroup (s : Subtree) (payload : ConditionId → Option Condition) :
    (s.toGroup payload).preorder.length = s.groupIds.length := by
  induction s using induct with
  | node id record children ih =>
    rw [toGroup_node, Group.preorder_eq, Group.preorderAll_eq_flatMap, groupIds_node]
    simp only [List.length_cons, List.length_flatMap, List.map_map]
    refine congrArg (fun l => List.sum l + 1) (List.map_congr_left fun s hs => ih s hs)

theorem conditions_toGroup (s : Subtree) (payload : ConditionId → Option Condition) :
    (s.toGroup payload).conditions = s.conditionIds.filterMap payload := by
  induction s using induct with
  | node id record children ih =>
    rw [toGroup_node, Group.conditions, Group.preorder_eq, Group.preorderAll_eq_flatMap,
      conditionIds_node, List.flatMap_cons, List.flatMap_assoc, List.filterMap_append,
      List.filterMap_flatMap, List.flatMap_map]
    exact congrArg (record.items.filterMap payload ++ ·)
      (List.flatMap_congr fun s hs => ih s hs)

end Subtree

namespace Tree

variable {t : Tree}

def Nests (t : Tree) (p g : GroupId) : Prop := ∃ n, t.group? p = some n ∧ g ∈ n.groups

structure SinglePath (t : Tree) : Prop where
  root_live : ∀ r, t.root = some r → t.containsGroup r = true
  groups_live : ∀ p n, t.group? p = some n → ∀ g ∈ n.groups, t.containsGroup g = true
  items_live : ∀ p n, t.group? p = some n → ∀ c ∈ n.items, t.containsCondition c = true
  root_unnamed : ∀ r, t.root = some r → ∀ p n, t.group? p = some n → r ∉ n.groups
  group_once : ∀ g, t.containsGroup g = true → t.root ≠ some g →
    ∃ p n, t.group? p = some n ∧ n.groups.count g = 1 ∧
      ∀ p' n', t.group? p' = some n' → g ∈ n'.groups → p' = p
  condition_once : ∀ c, t.containsCondition c = true →
    ∃ p n, t.group? p = some n ∧ n.items.count c = 1 ∧
      ∀ p' n', t.group? p' = some n' → c ∈ n'.items → p' = p
  reached : ∀ g, t.containsGroup g = true →
    ∃ r, t.root = some r ∧ Relation.ReflTransGen t.Nests r g

/-- The counts of what is in store are those of the listings and of the plain value. -/
structure Counted (t : Tree) : Prop where
  groupIds : t.groupCount = t.groupIds.length
  conditionIds : t.conditionCount = t.conditionIds.length
  rootGroup : t.rootGroup?.isSome = t.root.isSome
  groups : t.groupCount = (t.rootGroup?.map Group.groupCount).getD 0
  conditions : t.conditionCount = (t.rootGroup?.map Group.conditionCount).getD 0

namespace Shape

variable {whole : Option Subtree} {s : Subtree}

theorem mem_nodes_iff (h : t.Shape (some s)) {p : GroupId} {n : GroupNode} :
    (p, n) ∈ s.nodes ↔ t.group? p = some n := by
  constructor
  · intro hn
    exact h.stored.group?_eq hn
  · intro hp
    have hmem := h.containsGroup_iff_mem.1 (Tree.containsGroup_iff.2 ⟨n, hp⟩)
    obtain ⟨m, hm, hnode⟩ := h.stored.exists_group? hmem
    cases hp.symm.trans hm
    exact hnode

theorem rootSubtree?_eq (h : t.Shape whole) : t.rootSubtree? = whole := by
  cases whole with
  | none => rw [rootSubtree?, h.root, Option.map_none, Option.bind_none]
  | some s => rw [rootSubtree?, h.root, Option.map_some, Option.bind_some, h.subtree?_eq]

theorem groupIds_eq (h : t.Shape (some s)) : t.groupIds = s.groupIds := by
  rw [Tree.groupIds, h.rootSubtree?_eq, Option.map_some, Option.getD_some]

theorem conditionIds_eq (h : t.Shape (some s)) : t.conditionIds = s.conditionIds := by
  rw [Tree.conditionIds, h.rootSubtree?_eq, Option.map_some, Option.getD_some]

theorem rootGroup?_none (h : t.Shape none) : t.rootGroup? = none := by
  simp [rootGroup?, h.root]

theorem listed_none (h : t.Shape none) : t.groupIds = [] ∧ t.conditionIds = [] := by
  simp [Tree.groupIds, Tree.conditionIds, h.rootSubtree?_eq]

theorem rootGroup?_eq (h : t.Shape (some s)) : t.rootGroup? = some (s.toGroup t.condition?) := by
  simp [rootGroup?, toGroup?, h.root, h.subtree?_eq]

theorem reflTransGen (h : s.StoredIn t) {g : GroupId} (hg : g ∈ s.groupIds) :
    Relation.ReflTransGen t.Nests s.id g := by
  induction h with
  | @node id record children found names _ ih =>
    rw [Subtree.groupIds_node] at hg
    rcases List.mem_cons.1 hg with rfl | hg
    · exact .refl
    · obtain ⟨child, hchild, hg⟩ := List.mem_flatMap.1 hg
      have hnests : t.Nests id child.id :=
        ⟨record, found, names ▸ List.mem_map_of_mem hchild⟩
      exact .head hnests (ih child hchild hg)

theorem containsGroup_none (h : t.Shape none) (g : GroupId) : t.containsGroup g = false := by
  apply Bool.eq_false_iff.2
  intro hg
  obtain ⟨_, hs, _⟩ := h.containsGroup_iff.1 hg
  cases hs

theorem group?_none (h : t.Shape none) (p : GroupId) : t.group? p = none :=
  group?_eq_none (h.containsGroup_none p)

theorem containsCondition_none (h : t.Shape none) (c : ConditionId) :
    t.containsCondition c = false := by
  apply Bool.eq_false_iff.2
  intro hc
  obtain ⟨_, hs, _⟩ := h.containsCondition_iff.1 hc
  cases hs

theorem singlePath_none (h : t.Shape none) : t.SinglePath := by
  have hroot : t.root = none := h.root
  constructor <;> simp [hroot, h.group?_none, h.containsGroup_none, h.containsCondition_none]

theorem exists_only_holder {β : Type} [BEq β] [LawfulBEq β] {held : GroupNode → List β}
    (h : t.Shape (some s)) (hnodup : (s.nodes.flatMap fun n => held n.2).Nodup) {b : β}
    (hb : b ∈ s.nodes.flatMap fun n => held n.2) :
    ∃ p n, t.group? p = some n ∧ (held n).count b = 1 ∧
      ∀ p' n', t.group? p' = some n' → b ∈ held n' → p' = p := by
  obtain ⟨⟨p, n⟩, hnode, hb⟩ := List.mem_flatMap.1 hb
  refine ⟨p, n, h.mem_nodes_iff.1 hnode, ?_, fun p' n' hp' hb' => ?_⟩
  · exact List.count_eq_one_of_mem ((List.nodup_flatMap.1 hnodup).1 _ hnode) hb
  · have heq := Subtree.eq_of_mem_of_nodup_flatMap hnodup (h.mem_nodes_iff.2 hp') hnode hb' hb
    exact congrArg Prod.fst heq

theorem containsGroup_iff_named (h : t.Shape (some s)) {g : GroupId} :
    t.containsGroup g = true ↔ g = s.id ∨ g ∈ s.nodes.flatMap (·.2.groups) := by
  rw [← List.mem_cons, ← h.stored.groupIds_perm.mem_iff, h.containsGroup_iff_mem]

theorem mem_named (h : t.Shape (some s)) {p g : GroupId} {n : GroupNode}
    (hp : t.group? p = some n) (hg : g ∈ n.groups) : g ∈ s.nodes.flatMap (·.2.groups) :=
  List.mem_flatMap.2 ⟨(p, n), h.mem_nodes_iff.2 hp, hg⟩

theorem singlePath_some (h : t.Shape (some s)) : t.SinglePath where
  root_live r hr := by
    rw [h.root] at hr
    exact h.containsGroup_iff_named.2 (.inl (Option.some.inj hr).symm)
  groups_live p n hp g hg := h.containsGroup_iff_named.2 (.inr (h.mem_named hp hg))
  items_live p n hp c hc := by
    refine h.containsCondition_iff_mem.2 (Subtree.mem_conditionIds_iff.2 ⟨(p, n), ?_, hc⟩)
    exact h.mem_nodes_iff.2 hp
  root_unnamed r hr p n hp hmem := by
    rw [h.root] at hr
    cases hr
    exact (h.stored.nodup_named h.nodup_groupIds).1 (h.mem_named hp hmem)
  group_once g hg hne := by
    have hnamed := (h.containsGroup_iff_named.1 hg).resolve_left fun heq => hne (heq ▸ h.root)
    exact h.exists_only_holder (h.stored.nodup_named h.nodup_groupIds).2 hnamed
  condition_once c hc := by
    exact h.exists_only_holder h.nodup_conditionIds (h.containsCondition_iff_mem.1 hc)
  reached g hg := by
    exact ⟨s.id, h.root, reflTransGen h.stored (h.containsGroup_iff_mem.1 hg)⟩

theorem singlePath (h : t.Shape whole) : t.SinglePath := by
  cases whole with
  | none => exact h.singlePath_none
  | some s => exact h.singlePath_some

theorem groupCount_eq (h : t.Shape whole) :
    t.groupCount = (whole.toList.flatMap Subtree.groupIds).length := by
  rw [← length_storedGroups]
  refine (List.perm_ext_iff_of_nodup t.nodup_storedGroups h.forest.nodup_groups).2 (fun g => ?_)
    |>.length_eq
  rw [mem_storedGroups, h.forest.group_iff]

theorem conditionCount_eq (h : t.Shape whole) :
    t.conditionCount = (whole.toList.flatMap Subtree.conditionIds).length := by
  rw [← length_storedConditions]
  refine (List.perm_ext_iff_of_nodup t.nodup_storedConditions h.forest.nodup_conditions).2
    (fun c => ?_) |>.length_eq
  rw [mem_storedConditions, h.forest.condition_iff]

theorem counted (h : t.Shape whole) : t.Counted := by
  have hgroupCount := h.groupCount_eq
  have hconditionCount := h.conditionCount_eq
  cases whole with
  | none =>
    constructor <;>
      simp_all [h.root, Tree.groupIds, Tree.conditionIds, rootSubtree?, rootGroup?]
  | some s =>
    have hpayload : (s.conditionIds.filterMap t.condition?).length = s.conditionIds.length := by
      apply List.filterMap_length_eq_length.2
      intro c hc
      exact h.containsCondition_iff_mem.2 hc
    simp only [Option.toList_some, List.flatMap_singleton] at hgroupCount hconditionCount
    constructor
    case groupIds =>
      rw [hgroupCount, h.groupIds_eq]
    case conditionIds =>
      rw [hconditionCount, h.conditionIds_eq]
    case rootGroup =>
      rw [h.rootGroup?_eq, h.root]
      rfl
    case groups =>
      rw [hgroupCount, h.rootGroup?_eq, Option.map_some, Option.getD_some, Group.groupCount,
        Subtree.length_preorder_toGroup]
    case conditions =>
      rw [hconditionCount, h.rootGroup?_eq, Option.map_some, Option.getD_some,
        Group.conditionCount, Subtree.conditions_toGroup, hpayload]

end Shape

/-- Whatever the edits of a run are given, live handles or stale ones. -/
theorem singlePath_run {t₀ : Tree} (h : t₀.Initial) (es : List Edit) :
    (t₀.run es).SinglePath ∧ (t₀.run es).Counted := by
  obtain ⟨_, hstart⟩ := h.shape
  obtain ⟨_, hshape⟩ := hstart.run es
  exact ⟨hshape.singlePath, hshape.counted⟩

/-- A nested group is removed and its handle used again, and a group is added in its slot. -/
theorem singlePath_run_reused_slot :
    let t₀ := ofGroup ⟨none, [.empty], [⟨some .or, [.empty], []⟩]⟩
    let es : List Edit := [.removeGroup ⟨⟨0, 0⟩⟩, .addCondition ⟨⟨0, 0⟩⟩ none,
      .addGroup (.group ⟨⟨1, 0⟩⟩) none, .toggle ⟨⟨0, 1⟩⟩, .removeGroup ⟨⟨0, 0⟩⟩]
    t₀.Initial ∧ (t₀.run es).SinglePath ∧ (t₀.run es).Counted :=
  ⟨.ofGroup _, singlePath_run (.ofGroup _) _⟩

end Tree

end WhenClause
