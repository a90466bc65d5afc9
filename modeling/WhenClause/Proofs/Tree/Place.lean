import WhenClause.Tree.Subtree

/-!
# Places in subtrees

A place in a subtree is written as the frames around it, the outermost first: each frame is a
group with its record and the children on either side of the one that leads on. Filling a place
leaves everything around it alone, so the groups of the filled subtree are those of the frames
before the place, those of what fills it, and those of the frames after it.
-/

namespace WhenClause.Subtree

@[elab_as_elim]
theorem induct {P : Subtree → Prop}
    (node : ∀ id record children, (∀ s ∈ children, P s) → P (.node id record children)) :
    ∀ s, P s
  | .node id record children => node id record children fun s _ => induct node s

theorem mem_nodes_node {n : GroupId × GroupNode} {id : GroupId} {record : GroupNode}
    {children : List Subtree} :
    n ∈ (node id record children).nodes ↔ n = (id, record) ∨ ∃ s ∈ children, n ∈ s.nodes := by
  simp [nodes_node]

theorem groupIds_node (id : GroupId) (record : GroupNode) (children : List Subtree) :
    (node id record children).groupIds = id :: children.flatMap groupIds := by
  simp [groupIds, nodes_node, List.map_flatMap]
  rfl

theorem conditionIds_node (id : GroupId) (record : GroupNode) (children : List Subtree) :
    (node id record children).conditionIds = record.items ++ children.flatMap conditionIds := by
  simp [conditionIds, nodes_node, List.flatMap_assoc]
  rfl

theorem id_mem_groupIds (s : Subtree) : s.id ∈ s.groupIds := by
  cases s
  simp [groupIds_node, id]

theorem mem_groupIds_of_mem_nodes {s : Subtree} {n : GroupId × GroupNode} (h : n ∈ s.nodes) :
    n.1 ∈ s.groupIds :=
  List.mem_map_of_mem h

theorem mem_conditionIds_iff {s : Subtree} {c : ConditionId} :
    c ∈ s.conditionIds ↔ ∃ n ∈ s.nodes, c ∈ n.2.items :=
  List.mem_flatMap

structure Frame where
  id : GroupId
  record : GroupNode
  left : List Subtree
  right : List Subtree

def plug : List Frame → Subtree → Subtree
  | [], s => s
  | f :: ctx, s => .node f.id f.record (f.left ++ plug ctx s :: f.right)

def path (ctx : List Frame) : List Nat := ctx.map fun f => f.left.length

def before : List Frame → List (GroupId × GroupNode)
  | [] => []
  | f :: ctx => (f.id, f.record) :: (f.left.flatMap nodes ++ before ctx)

def after : List Frame → List (GroupId × GroupNode)
  | [] => []
  | f :: ctx => after ctx ++ f.right.flatMap nodes

/-- What holds of all groups around a place holds of the outermost one, of those in the subtrees on
either side of the way, and of those around the place further in. -/
theorem of_around_cons {f : Frame} {ctx : List Frame} {P : GroupId × GroupNode → Prop}
    (h : ∀ n ∈ before (f :: ctx) ++ after (f :: ctx), P n) :
    P (f.id, f.record) ∧ (∀ u, u ∈ f.left ∨ u ∈ f.right → ∀ n ∈ u.nodes, P n) ∧
      ∀ n ∈ before ctx ++ after ctx, P n := by
  simp only [before, after, List.cons_append, List.mem_cons, List.mem_append] at h
  refine ⟨h _ (.inl rfl), fun u hu n hn => h n ?_, fun n hn => h n ?_⟩
  · rcases hu with hu | hu
    · exact .inr (.inl (.inl (List.mem_flatMap.2 ⟨u, hu, hn⟩)))
    · exact .inr (.inr (.inr (List.mem_flatMap.2 ⟨u, hu, hn⟩)))
  · rcases List.mem_append.1 hn with hn | hn
    · exact .inr (.inl (.inr hn))
    · exact .inr (.inr (.inl hn))

theorem nodes_plug (ctx : List Frame) (s : Subtree) :
    (plug ctx s).nodes = before ctx ++ s.nodes ++ after ctx := by
  induction ctx with
  | nil => simp [plug, before, after]
  | cons f ctx ih => simp [plug, before, after, nodes_node, ih]

theorem groupIds_plug (ctx : List Frame) (s : Subtree) :
    (plug ctx s).groupIds =
      (before ctx).map Prod.fst ++ s.groupIds ++ (after ctx).map Prod.fst := by
  simp [groupIds, nodes_plug]

theorem conditionIds_plug (ctx : List Frame) (s : Subtree) :
    (plug ctx s).conditionIds =
      (before ctx).flatMap (·.2.items) ++ s.conditionIds ++ (after ctx).flatMap (·.2.items) := by
  simp [conditionIds, nodes_plug]

theorem id_plug (ctx : List Frame) {s s' : Subtree} (h : s'.id = s.id) :
    (plug ctx s').id = (plug ctx s).id := by
  cases ctx with
  | nil => exact h
  | cons => rfl

theorem exists_plug_of_mem_nodes {s : Subtree} {n : GroupId × GroupNode} (h : n ∈ s.nodes) :
    ∃ ctx children, s = plug ctx (.node n.1 n.2 children) := by
  induction s using induct with
  | node id record children ih =>
    rcases mem_nodes_node.1 h with rfl | ⟨child, hchild, hn⟩
    · exact ⟨[], children, rfl⟩
    · obtain ⟨ctx, below, rfl⟩ := ih child hchild hn
      obtain ⟨left, right, rfl⟩ := List.append_of_mem hchild
      exact ⟨⟨id, record, left, right⟩ :: ctx, below, rfl⟩

theorem ne_of_nodup_plug {ctx : List Frame} {s : Subtree} (hnodup : (plug ctx s).groupIds.Nodup)
    {n : GroupId × GroupNode} (hn : n ∈ before ctx ++ after ctx) {g : GroupId}
    (hg : g ∈ s.groupIds) : n.1 ≠ g := by
  rw [groupIds_plug] at hnodup
  obtain ⟨hfront, _, hback⟩ := List.nodup_append.1 hnodup
  rcases List.mem_append.1 hn with hn | hn
  · exact (List.nodup_append.1 hfront).2.2 _ (List.mem_map_of_mem hn) _ hg
  · exact (hback _ (List.mem_append_right _ hg) _ (List.mem_map_of_mem hn)).symm

theorem not_mem_beside_of_nodup_plug {f : Frame} {ctx : List Frame} {s : Subtree}
    (hnodup : (plug (f :: ctx) s).groupIds.Nodup) {g : GroupId} (hg : g ∈ (plug ctx s).groupIds) :
    f.id ≠ g ∧ (∀ u, u ∈ f.left ∨ u ∈ f.right → g ∉ u.groupIds) ∧ (plug ctx s).groupIds.Nodup := by
  rw [plug, groupIds_node, List.flatMap_append, List.flatMap_cons] at hnodup
  obtain ⟨hhead, htail⟩ := List.nodup_cons.1 hnodup
  obtain ⟨_, hmid, hleft⟩ := List.nodup_append.1 htail
  obtain ⟨hinner, _, hright⟩ := List.nodup_append.1 hmid
  refine ⟨?_, fun u hu hgu => ?_, hinner⟩
  · rintro rfl
    exact hhead (List.mem_append_right _ (List.mem_append_left _ hg))
  · rcases hu with hu | hu
    · exact hleft g (List.mem_flatMap.2 ⟨u, hu, hgu⟩) g (List.mem_append_left _ hg) rfl
    · exact hright g hg g (List.mem_flatMap.2 ⟨u, hu, hgu⟩) rfl

theorem nodup_of_nodup_plug {ctx : List Frame} {s : Subtree}
    (hnodup : (plug ctx s).groupIds.Nodup) : s.groupIds.Nodup := by
  rw [groupIds_plug] at hnodup
  exact (List.nodup_append.1 (List.nodup_append.1 hnodup).1).2.1

theorem groupIds_plug_perm (ctx : List Frame) (p : GroupId) (n n' : GroupNode)
    {children children' : List Subtree} {s : Subtree} (h : children'.Perm (children ++ [s])) :
    (plug ctx (.node p n' children')).groupIds.Perm
      ((plug ctx (.node p n children)).groupIds ++ s.groupIds) := by
  apply List.perm_iff_count.2
  intro g
  have hcount := (h.flatMap_right groupIds).count_eq g
  simp only [List.flatMap_append, List.flatMap_singleton, List.count_append] at hcount
  simp only [groupIds_plug, groupIds_node, List.count_append, List.count_cons, hcount]
  omega

theorem conditionIds_plug_perm (ctx : List Frame) (p : GroupId) (n n' : GroupNode)
    {children children' : List Subtree} {cs : List ConditionId}
    (h : (n'.items ++ children'.flatMap conditionIds).Perm
      (n.items ++ children.flatMap conditionIds ++ cs)) :
    (plug ctx (.node p n' children')).conditionIds.Perm
      ((plug ctx (.node p n children)).conditionIds ++ cs) := by
  apply List.perm_iff_count.2
  intro c
  have hcount := h.count_eq c
  simp only [List.count_append] at hcount
  simp only [conditionIds_plug, conditionIds_node, List.count_append, hcount]
  omega

theorem flatMap_conditionIds_perm {children children' : List Subtree} {s : Subtree}
    (h : children'.Perm (children ++ [s])) (items : List ConditionId) :
    (items ++ children'.flatMap conditionIds).Perm
      (items ++ children.flatMap conditionIds ++ s.conditionIds) := by
  have hperm := (h.flatMap_right conditionIds).append_left items
  rwa [List.flatMap_append, List.flatMap_singleton, ← List.append_assoc] at hperm

end WhenClause.Subtree
