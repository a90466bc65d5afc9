import WhenClause.Proofs.Tree.Forest

/-!
# The shape of a tree

The whole of a tree is nothing, or the one subtree that hangs from its root. Each edit that finds
something to act on takes the whole to another whole, which differs in one place.
-/

namespace WhenClause.Tree

open Subtree (plug Frame)

variable {t : Tree} {loose loose' : List ConditionId} {ss ss' : List Subtree}
  {children children' : List Subtree} {ctx : List Frame} {p : GroupId} {n : GroupNode}
  {f : GroupNode → GroupNode}

theorem Forest.regroup (h : t.Forest loose (plug ctx (.node p n children) :: ss))
    (hnames : (f n).groups = children'.map Subtree.id)
    (hchildren : (children' ++ ss').Perm (children ++ ss))
    (hitems : ((f n).items ++ loose').Perm (n.items ++ loose)) :
    (t.modifyGroup p f).Forest loose' (plug ctx (.node p (f n) children') :: ss') := by
  have hplug := h.stored _ (List.mem_cons_self ..)
  have hgroups := h.nodup_groups
  rw [List.flatMap_cons] at hgroups
  have hnodup := (List.nodup_append.1 hgroups).1
  obtain ⟨_, _, hbelow⟩ := Subtree.storedIn_node.1 hplug.of_plug
  have hside : ∀ s ∈ children ++ ss, s.StoredIn t ∧ p ∉ s.groupIds := by
    intro s hs
    rcases List.mem_append.1 hs with hs | hs
    · refine ⟨hbelow s hs, fun hp => ?_⟩
      have hnode := Subtree.nodup_of_nodup_plug hnodup
      rw [Subtree.groupIds_node] at hnode
      exact (List.nodup_cons.1 hnode).1 (List.mem_flatMap.2 ⟨s, hs, hp⟩)
    · refine ⟨h.stored s (List.mem_cons_of_mem _ hs), fun hp => ?_⟩
      refine (List.nodup_append.1 hgroups).2.2 p ?_ p (List.mem_flatMap.2 ⟨s, hs, hp⟩) rfl
      simp [Subtree.groupIds_plug, Subtree.groupIds_node]
  have hside' : ∀ s ∈ children' ++ ss', s.StoredIn t ∧ p ∉ s.groupIds := fun s hs =>
    hside s (hchildren.mem_iff.1 hs)
  refine h.modifyGroup (fun s hs => ?_) ?_ ?_
  · rcases List.mem_cons.1 hs with rfl | hs
    · exact hplug.modifyGroup hnodup (fun s hs => hside' s (List.mem_append_left _ hs)) hnames
    · obtain ⟨hstored, hp⟩ := hside' s (List.mem_append_right _ hs)
      refine hstored.congr fun g hg => group?_modifyGroup_of_ne ?_ f
      rintro rfl
      exact hp hg
  · apply List.perm_iff_count.2
    intro g
    have hcount := (hchildren.flatMap_right Subtree.groupIds).count_eq g
    simp only [List.flatMap_append, List.flatMap_cons, List.count_append, List.count_cons,
      Subtree.groupIds_plug, Subtree.groupIds_node] at hcount ⊢
    omega
  · apply List.perm_iff_count.2
    intro c
    have hcount := (hchildren.flatMap_right Subtree.conditionIds).count_eq c
    have hcount' := hitems.count_eq c
    simp only [List.flatMap_append, List.flatMap_cons, List.count_append,
      Subtree.conditionIds_plug, Subtree.conditionIds_node] at hcount hcount' ⊢
    omega

structure Shape (t : Tree) (whole : Option Subtree) : Prop where
  root : t.root = whole.map Subtree.id
  forest : t.Forest [] whole.toList

theorem Forest.withRoot (h : t.Forest loose ss) (root : Option GroupId) :
    ({ t with root := root } : Tree).Forest loose ss :=
  h.congr (fun _ => rfl) fun _ => rfl

namespace Shape

theorem empty : Shape .empty none := ⟨rfl, .empty⟩

variable {whole : Option Subtree}

theorem containsGroup_iff (h : t.Shape whole) {g : GroupId} :
    t.containsGroup g = true ↔ ∃ s, whole = some s ∧ g ∈ s.groupIds := by
  rw [h.forest.group_iff]
  cases whole <;> simp

theorem containsCondition_iff (h : t.Shape whole) {c : ConditionId} :
    t.containsCondition c = true ↔ ∃ s, whole = some s ∧ c ∈ s.conditionIds := by
  rw [h.forest.condition_iff]
  cases whole <;> simp

theorem containsGroup_iff_mem {s : Subtree} (h : t.Shape (some s)) {g : GroupId} :
    t.containsGroup g = true ↔ g ∈ s.groupIds := by
  rw [h.forest.group_iff, Option.toList_some, List.flatMap_singleton]

theorem containsCondition_iff_mem {s : Subtree} (h : t.Shape (some s)) {c : ConditionId} :
    t.containsCondition c = true ↔ c ∈ s.conditionIds := by
  rw [h.forest.condition_iff, Option.toList_some, List.flatMap_singleton, List.nil_append]

theorem exists_place (h : t.Shape whole) (hp : t.group? p = some n) :
    ∃ ctx children, whole = some (plug ctx (.node p n children)) := by
  obtain ⟨s, rfl, hmem⟩ := h.containsGroup_iff.1 (Tree.containsGroup_iff.2 ⟨n, hp⟩)
  obtain ⟨m, hm, hnode⟩ := (h.forest.stored s (by simp)).exists_group? hmem
  obtain rfl : n = m := Option.some.inj (hp.symm.trans hm)
  obtain ⟨ctx, children, rfl⟩ := Subtree.exists_plug_of_mem_nodes hnode
  exact ⟨ctx, children, rfl⟩

theorem stored {s : Subtree} (h : t.Shape (some s)) : s.StoredIn t :=
  h.forest.stored s (List.mem_cons_self ..)

theorem place (h : t.Shape (some (plug ctx (.node p n children)))) :
    t.group? p = some n ∧ n.groups = children.map Subtree.id ∧ ∀ s ∈ children, s.StoredIn t :=
  Subtree.storedIn_node.1 h.stored.of_plug

theorem nodup_groupIds {s : Subtree} (h : t.Shape (some s)) : s.groupIds.Nodup := by
  simpa using h.forest.nodup_groups

theorem nodup_conditionIds {s : Subtree} (h : t.Shape (some s)) : s.conditionIds.Nodup := by
  simpa using h.forest.nodup_conditions

theorem subtree?_eq {s : Subtree} (h : t.Shape (some s)) : t.subtree? s.id = some s :=
  h.forest.subtree?_eq (List.mem_cons_self ..)

theorem modifyGroup (h : t.Shape (some (plug ctx (.node p n children))))
    (hgroups : (f n).groups = n.groups) (hitems : (f n).items = n.items) :
    (t.modifyGroup p f).Shape (some (plug ctx (.node p (f n) children))) := by
  obtain ⟨_, names, _⟩ := h.place
  refine ⟨?_, h.forest.regroup (hgroups.trans names) (.refl _) (hitems ▸ .refl _)⟩
  exact h.root.trans (congrArg some (Subtree.id_plug ctx rfl))

theorem addItem (h : t.Shape (some (plug ctx (.node p n children)))) (d : Condition) :
    ((t.insertCondition d).2.modifyGroup p (·.addItem (t.insertCondition d).1)).Shape
      (some (plug ctx (.node p (n.addItem (t.insertCondition d).1) children))) := by
  obtain ⟨_, names, _⟩ := h.place
  have hloose := h.forest.insertCondition d
  refine ⟨h.root.trans (congrArg some (Subtree.id_plug ctx rfl)), ?_⟩
  apply hloose.regroup (f := (·.addItem (t.insertCondition d).1)) names (.refl _)
  simp [GroupNode.addItem]

theorem addGroup {t' : Tree} {s : Subtree} (h : t.Shape (some (plug ctx (.node p n children))))
    (hforest : t'.Forest [] [s, plug ctx (.node p n children)]) (hroot : t'.root = t.root) :
    (t'.modifyGroup p (·.addGroup s.id)).Shape
      (some (plug ctx (.node p (n.addGroup s.id) (children ++ [s])))) := by
  obtain ⟨_, names, _⟩ := h.place
  refine ⟨hroot.trans (h.root.trans (congrArg some (Subtree.id_plug ctx rfl))), ?_⟩
  refine (hforest.perm (.refl _) (.swap ..)).regroup (f := (·.addGroup s.id)) ?_ ?_ ?_
  · simp [GroupNode.addGroup, names]
  · simp
  · exact .refl _

theorem eraseItem (h : t.Shape (some (plug ctx (.node p n children)))) {c : ConditionId}
    (hc : c ∈ n.items) :
    ({ t.modifyGroup p (·.eraseItem c) with
      conditions := t.conditions.erase c.key } : Tree).Shape
      (some (plug ctx (.node p (n.eraseItem c) children))) := by
  obtain ⟨_, names, _⟩ := h.place
  refine ⟨h.root.trans (congrArg some (Subtree.id_plug ctx rfl)), ?_⟩
  refine Forest.eraseCondition (h.forest.regroup (f := (·.eraseItem c)) names (.refl _) ?_)
  simpa [GroupNode.eraseItem] using
    (List.perm_append_comm.trans (List.perm_cons_erase hc).symm : (n.items.erase c ++ [c]).Perm _)

theorem erase_map_id {left right : List Subtree} {child : Subtree}
    (h : t.Shape (some (plug ctx (.node p n (left ++ child :: right))))) :
    ((left ++ child :: right).map Subtree.id).erase child.id = (left ++ right).map Subtree.id := by
  have hnode := Subtree.nodup_of_nodup_plug h.nodup_groupIds
  rw [Subtree.groupIds_node, List.flatMap_append, List.flatMap_cons] at hnode
  have hleft : child.id ∉ left.map Subtree.id := by
    intro hmem
    obtain ⟨s, hs, hid⟩ := List.mem_map.1 hmem
    refine (List.nodup_append.1 (List.nodup_cons.1 hnode).2).2.2 child.id ?_ child.id ?_ rfl
    · exact List.mem_flatMap.2 ⟨s, hs, hid ▸ Subtree.id_mem_groupIds s⟩
    · exact List.mem_append_left _ (Subtree.id_mem_groupIds child)
  rw [List.map_append, List.map_cons, List.erase_append_right _ hleft, List.erase_cons_head,
    List.map_append]

theorem eraseGroup {left right : List Subtree} {child : Subtree}
    (h : t.Shape (some (plug ctx (.node p n (left ++ child :: right))))) :
    ((t.modifyGroup p (·.eraseGroup child.id)).discard child.id).Shape
      (some (plug ctx (.node p (n.eraseGroup child.id) (left ++ right)))) := by
  obtain ⟨_, names, _⟩ := h.place
  have hnames : (n.eraseGroup child.id).groups = (left ++ right).map Subtree.id := by
    rw [← h.erase_map_id, ← names]
    rfl
  constructor
  case root =>
    rw [root_discard, root_modifyGroup, h.root]
    exact congrArg some (Subtree.id_plug ctx rfl)
  case forest =>
    have hchildren : ((left ++ right) ++ [child]).Perm ((left ++ child :: right) ++ []) := by
      simp only [List.append_nil, List.append_assoc]
      exact (List.perm_append_singleton child right).append_left left
    have hsplit := h.forest.regroup (f := (·.eraseGroup child.id)) hnames hchildren (.refl _)
    exact Forest.discard (hsplit.perm (.refl _) (.swap ..))

theorem modifyCondition (h : t.Shape whole) (c : ConditionId) (f : Condition → Condition) :
    ({ t with conditions := t.conditions.modify c.key f } : Tree).Shape whole :=
  ⟨h.root, h.forest.modifyCondition c f⟩

theorem discardRoot (h : t.Shape whole) : t.discardRoot.Shape none := by
  unfold Tree.discardRoot
  cases whole with
  | none =>
    rw [h.root]
    exact h
  | some s =>
    rw [h.root]
    exact ⟨rfl, h.forest.discard.withRoot none⟩

end Shape

end WhenClause.Tree
