import WhenClause.Proofs.Tree.Stored

/-!
# What a tree holds

Between the steps of an edit a tree holds several stored subtrees side by side, and conditions
that no group holds yet or any more. No handle occurs twice among all of these, and a handle that
stands for something occurs among them. Each step of an edit takes one such arrangement to another.
-/

namespace WhenClause

namespace Subtree

theorem toGroup_congr {s : Subtree} {payload payload' : ConditionId → Option Condition}
    (h : ∀ c ∈ s.conditionIds, payload' c = payload c) : s.toGroup payload' = s.toGroup payload := by
  induction s using induct with
  | node id record children ih =>
    rw [conditionIds_node] at h
    rw [toGroup_node, toGroup_node]
    have hitems : record.items.filterMap payload' = record.items.filterMap payload :=
      List.filterMap_congr fun c hc => h c (List.mem_append_left _ hc)
    have hchildren : children.map (toGroup payload') = children.map (toGroup payload) :=
      List.map_congr_left fun s hs => ih s hs fun c hc =>
        h c (List.mem_append_right _ (List.mem_flatMap.2 ⟨s, hs, hc⟩))
    rw [hitems, hchildren]

end Subtree

namespace Tree

variable {t t' : Tree} {loose loose' : List ConditionId} {ss ss' : List Subtree} {s : Subtree}

structure Forest (t : Tree) (loose : List ConditionId) (ss : List Subtree) : Prop where
  stored : ∀ s ∈ ss, s.StoredIn t
  nodup_groups : (ss.flatMap Subtree.groupIds).Nodup
  nodup_conditions : (loose ++ ss.flatMap Subtree.conditionIds).Nodup
  mem_groups : ∀ g, t.containsGroup g = true → g ∈ ss.flatMap Subtree.groupIds
  condition_iff : ∀ c, t.containsCondition c = true ↔ c ∈ loose ++ ss.flatMap Subtree.conditionIds

structure Extends (t t' : Tree) : Prop where
  root : t'.root = t.root
  group : ∀ g, t.containsGroup g = true → t'.group? g = t.group? g
  condition : ∀ c, t.containsCondition c = true → t'.condition? c = t.condition? c

theorem Extends.refl (t : Tree) : t.Extends t := ⟨rfl, fun _ _ => rfl, fun _ _ => rfl⟩

theorem Extends.containsGroup (h : t.Extends t') {g : GroupId} (hg : t.containsGroup g = true) :
    t'.containsGroup g = true := by
  rw [containsGroup_iff] at *
  rwa [h.group g (containsGroup_iff.2 hg)]

theorem Extends.containsCondition (h : t.Extends t') {c : ConditionId}
    (hc : t.containsCondition c = true) : t'.containsCondition c = true := by
  rw [containsCondition_iff] at *
  rwa [h.condition c (containsCondition_iff.2 hc)]

theorem Extends.trans {t'' : Tree} (h : t.Extends t') (h' : t'.Extends t'') : t.Extends t'' where
  root := h'.root.trans h.root
  group g hg := (h'.group g (h.containsGroup hg)).trans (h.group g hg)
  condition c hc := (h'.condition c (h.containsCondition hc)).trans (h.condition c hc)

namespace Forest

theorem empty : Forest .empty [] [] where
  stored := by simp
  nodup_groups := .nil
  nodup_conditions := .nil
  mem_groups g hg := by simp [containsGroup_iff] at hg
  condition_iff c := by simp [containsCondition_iff]

theorem containsGroup (h : t.Forest loose ss) {g : GroupId} (hg : g ∈ ss.flatMap Subtree.groupIds) :
    t.containsGroup g = true := by
  obtain ⟨s, hs, hg⟩ := List.mem_flatMap.1 hg
  obtain ⟨n, hn, _⟩ := (h.stored s hs).exists_group? hg
  exact containsGroup_iff.2 ⟨n, hn⟩

theorem group_iff (h : t.Forest loose ss) (g : GroupId) :
    t.containsGroup g = true ↔ g ∈ ss.flatMap Subtree.groupIds :=
  ⟨h.mem_groups g, h.containsGroup⟩

theorem perm (h : t.Forest loose ss) (hloose : loose'.Perm loose) (hss : ss'.Perm ss) :
    t.Forest loose' ss' where
  stored s hs := h.stored s (hss.mem_iff.1 hs)
  nodup_groups := (hss.flatMap_right _).nodup_iff.2 h.nodup_groups
  nodup_conditions := (hloose.append (hss.flatMap_right _)).nodup_iff.2 h.nodup_conditions
  mem_groups g hg := (hss.flatMap_right _).mem_iff.2 (h.mem_groups g hg)
  condition_iff c := by
    rw [h.condition_iff, (hloose.append (hss.flatMap_right _)).mem_iff]

theorem congr (h : t.Forest loose ss) (hgroup : ∀ g, t'.group? g = t.group? g)
    (hcondition : ∀ c, t'.containsCondition c = t.containsCondition c) : t'.Forest loose ss where
  stored s hs := (h.stored s hs).congr fun g _ => hgroup g
  nodup_groups := h.nodup_groups
  nodup_conditions := h.nodup_conditions
  mem_groups g hg := by
    rw [containsGroup_iff, hgroup, ← containsGroup_iff] at hg
    exact h.mem_groups g hg
  condition_iff c := by rw [hcondition, h.condition_iff]

theorem insertCondition (h : t.Forest loose ss) (d : Condition) :
    (t.insertCondition d).2.Forest ((t.insertCondition d).1 :: loose) ss where
  stored s hs := (h.stored s hs).congr fun _ _ => rfl
  nodup_groups := h.nodup_groups
  nodup_conditions := by
    refine List.nodup_cons.2 ⟨fun hmem => ?_, h.nodup_conditions⟩
    obtain ⟨e, he⟩ := containsCondition_iff.1 ((h.condition_iff _).2 hmem)
    simp [condition?_fst_insertCondition] at he
  mem_groups g hg := h.mem_groups g hg
  condition_iff c := by
    rw [containsCondition_iff, condition?_insertCondition, List.cons_append, List.mem_cons,
      ← h.condition_iff, containsCondition_iff]
    by_cases hc : c = (t.insertCondition d).1 <;> simp [hc]

end Forest

theorem extends_insertCondition (t : Tree) (d : Condition) :
    t.Extends (t.insertCondition d).2 where
  root := rfl
  group _ _ := rfl
  condition c hc := by
    obtain ⟨e, he⟩ := containsCondition_iff.1 hc
    rw [condition?_insertCondition, if_neg]
    rintro rfl
    simp [condition?_fst_insertCondition] at he

theorem insertConditions_cons (t : Tree) (d : Condition) (ds : List Condition) :
    t.insertConditions (d :: ds) =
      ((t.insertCondition d).1 :: ((t.insertCondition d).2.insertConditions ds).1,
        ((t.insertCondition d).2.insertConditions ds).2) := rfl

theorem Forest.insertConditions (h : t.Forest loose ss) (ds : List Condition) :
    (t.insertConditions ds).2.Forest ((t.insertConditions ds).1 ++ loose) ss ∧
      (t.insertConditions ds).1.filterMap (t.insertConditions ds).2.condition? = ds ∧
      t.Extends (t.insertConditions ds).2 := by
  induction ds generalizing t loose with
  | nil => exact ⟨h, rfl, .refl t⟩
  | cons d ds ih =>
    rw [insertConditions_cons]
    have hfirst := h.insertCondition d
    obtain ⟨hforest, hpayload, hextends⟩ := ih hfirst
    have hlive : (t.insertCondition d).2.containsCondition (t.insertCondition d).1 = true := by
      rw [hfirst.condition_iff]
      exact List.mem_cons_self ..
    refine ⟨hforest.perm List.perm_middle.symm (.refl _), ?_,
      (extends_insertCondition t d).trans hextends⟩
    have hd := hextends.condition _ hlive
    rw [condition?_insertCondition, if_pos rfl] at hd
    rw [List.filterMap_cons_some hd, hpayload]

theorem extends_insertNode (t : Tree) (n : GroupNode) : t.Extends (t.insertNode n).2 where
  root := rfl
  group g hg := by
    obtain ⟨m, hm⟩ := containsGroup_iff.1 hg
    rw [group?_insertNode, if_neg]
    rintro rfl
    simp [group?_fst_insertNode] at hm
  condition _ _ := rfl

theorem Forest.insertNode {n : GroupNode} {children : List Subtree}
    (h : t.Forest (n.items ++ loose) (children ++ ss))
    (hnames : n.groups = children.map Subtree.id) :
    (t.insertNode n).2.Forest loose (.node (t.insertNode n).1 n children :: ss) := by
  have hext := extends_insertNode t n
  have hfresh : (t.insertNode n).1 ∉ (children ++ ss).flatMap Subtree.groupIds := by
    intro hmem
    obtain ⟨m, hm⟩ := containsGroup_iff.1 (h.containsGroup hmem)
    simp [group?_fst_insertNode] at hm
  have hstored : ∀ s ∈ children ++ ss, s.StoredIn (t.insertNode n).2 := fun s hs =>
    (h.stored s hs).congr fun g hg =>
      hext.group g (h.containsGroup (List.mem_flatMap.2 ⟨s, hs, hg⟩))
  have hgroups : (Subtree.node (t.insertNode n).1 n children :: ss).flatMap Subtree.groupIds =
      (t.insertNode n).1 :: (children ++ ss).flatMap Subtree.groupIds := by
    simp [Subtree.groupIds_node]
  have hconditions : (loose ++ (Subtree.node (t.insertNode n).1 n children :: ss).flatMap
      Subtree.conditionIds).Perm (n.items ++ loose ++ (children ++ ss).flatMap
        Subtree.conditionIds) := by
    simp only [List.flatMap_cons, List.flatMap_append, Subtree.conditionIds_node,
      List.append_assoc]
    exact List.perm_append_comm_assoc ..
  constructor
  case stored =>
    intro s hs
    rcases List.mem_cons.1 hs with rfl | hs
    · refine .node ?_ hnames fun s hs => hstored s (List.mem_append_left _ hs)
      rw [group?_insertNode, if_pos rfl]
    · exact hstored s (List.mem_append_right _ hs)
  case nodup_groups =>
    rw [hgroups]
    exact List.nodup_cons.2 ⟨hfresh, h.nodup_groups⟩
  case nodup_conditions =>
    exact hconditions.nodup_iff.2 h.nodup_conditions
  case mem_groups =>
    intro g hg
    rw [hgroups]
    rw [containsGroup_iff, group?_insertNode] at hg
    by_cases heq : g = (t.insertNode n).1
    · exact heq ▸ List.mem_cons_self ..
    · rw [if_neg heq, ← containsGroup_iff] at hg
      exact List.mem_cons_of_mem _ (h.mem_groups g hg)
  case condition_iff =>
    intro c
    rw [hconditions.mem_iff, ← h.condition_iff]
    rfl

/-- Copies of plain groups in store: more subtrees, not held by any group, which read off as the
plain groups again. Nothing else has changed. -/
structure Copied (t : Tree) (loose : List ConditionId) (ss : List Subtree) (gs : List Group)
    (t' : Tree) (copies : List Subtree) : Prop where
  forest : t'.Forest loose (copies ++ ss)
  value : copies.map (Subtree.toGroup t'.condition?) = gs
  keeps : t.Extends t'

theorem Copied.value_of_extends {gs : List Group} {copies : List Subtree} {t'' : Tree}
    (h : Copied t loose ss gs t' copies) (hext : t'.Extends t'') :
    copies.map (Subtree.toGroup t''.condition?) = gs := by
  rw [← h.value]
  refine List.map_congr_left fun s hs => Subtree.toGroup_congr fun c hc => ?_
  refine hext.condition c ((h.forest.condition_iff c).2 (List.mem_append_right _ ?_))
  exact List.mem_flatMap.2 ⟨s, List.mem_append_left _ hs, hc⟩

theorem insertGroups_cons (t : Tree) (g : Group) (gs : List Group) :
    insertGroups (g :: gs) t =
      ((insertGroup g t).1 :: (insertGroups gs (insertGroup g t).2).1,
        (insertGroups gs (insertGroup g t).2).2) := by
  rw [insertGroups]

theorem copied_insertGroups {gs : List Group}
    (hone : ∀ g ∈ gs, ∀ t loose ss, t.Forest loose ss → ∃ s,
      s.id = (insertGroup g t).1 ∧ Copied t loose ss [g] (insertGroup g t).2 [s])
    (h : t.Forest loose ss) :
    ∃ copies, copies.map Subtree.id = (insertGroups gs t).1 ∧
      Copied t loose ss gs (insertGroups gs t).2 copies := by
  induction gs generalizing t ss with
  | nil =>
    rw [insertGroups]
    exact ⟨[], rfl, h, rfl, .refl t⟩
  | cons g gs ih =>
    rw [insertGroups_cons]
    obtain ⟨s, hid, hs⟩ := hone g (List.mem_cons_self ..) t loose ss h
    obtain ⟨copies, hids, hcopies⟩ :=
      ih (fun g hg => hone g (List.mem_cons_of_mem _ hg)) hs.forest
    refine ⟨s :: copies, by rw [List.map_cons, hid, hids], ?_, ?_, hs.keeps.trans hcopies.keeps⟩
    · exact hcopies.forest.perm (.refl _) List.perm_middle.symm
    · have hvalue := hs.value_of_extends hcopies.keeps
      rw [List.map_cons, hcopies.value]
      exact congrArg (· ++ gs) hvalue

theorem insertGroup_eq (t : Tree) (g : Group) :
    insertGroup g t =
      let items := t.insertConditions g.items
      let groups := insertGroups g.groups items.2
      groups.2.insertNode ⟨g.operator, items.1, groups.1⟩ := by
  cases g
  rw [insertGroup]

theorem copied_insertGroup (g : Group) (h : t.Forest loose ss) :
    ∃ s, s.id = (insertGroup g t).1 ∧ Copied t loose ss [g] (insertGroup g t).2 [s] := by
  induction g using Group.induct generalizing t loose ss with
  | node operator items groups ih =>
    simp only [insertGroup_eq]
    obtain ⟨hforest, hpayload, hkeeps⟩ := h.insertConditions items
    generalize t.insertConditions items = stored at hforest hpayload hkeeps ⊢
    obtain ⟨copies, hids, hcopies⟩ :=
      copied_insertGroups (fun g hg t loose ss h => ih g hg h) hforest
    generalize insertGroups groups stored.2 = nested at hids hcopies ⊢
    have hext := extends_insertNode nested.2 ⟨operator, stored.1, nested.1⟩
    refine ⟨.node _ ⟨operator, stored.1, nested.1⟩ copies, rfl,
      hcopies.forest.insertNode hids.symm, ?_, (hkeeps.trans hcopies.keeps).trans hext⟩
    have hitems : stored.1.filterMap nested.2.condition? = items := by
      rw [← hpayload]
      refine List.filterMap_congr fun c hc => hcopies.keeps.condition c ?_
      rw [hforest.condition_iff]
      exact List.mem_append_left _ (List.mem_append_left _ hc)
    have hgroups := hcopies.value_of_extends hext
    simp only [List.map_cons, List.map_nil, Subtree.toGroup_node, hgroups]
    exact congrArg (fun items => [Group.mk operator items groups]) hitems

theorem containsCondition_modifyGroup (p : GroupId) (f : GroupNode → GroupNode)
    (c : ConditionId) : (t.modifyGroup p f).containsCondition c = t.containsCondition c := rfl

/-- A changed record may rearrange what is held, as long as nothing is lost or held twice. -/
theorem Forest.modifyGroup (h : t.Forest loose ss) {p : GroupId} {f : GroupNode → GroupNode}
    (hstored : ∀ s ∈ ss', s.StoredIn (t.modifyGroup p f))
    (hgroups : (ss'.flatMap Subtree.groupIds).Perm (ss.flatMap Subtree.groupIds))
    (hconditions : (loose' ++ ss'.flatMap Subtree.conditionIds).Perm
      (loose ++ ss.flatMap Subtree.conditionIds)) :
    (t.modifyGroup p f).Forest loose' ss' where
  stored := hstored
  nodup_groups := hgroups.nodup_iff.2 h.nodup_groups
  nodup_conditions := hconditions.nodup_iff.2 h.nodup_conditions
  mem_groups g hg := by
    rw [containsGroup_modifyGroup] at hg
    exact hgroups.mem_iff.2 (h.mem_groups g hg)
  condition_iff c := by
    rw [containsCondition_modifyGroup, h.condition_iff, hconditions.mem_iff]

theorem Forest.subtree?_eq (h : t.Forest loose ss) (hs : s ∈ ss) : t.subtree? s.id = some s := by
  refine Tree.subtree?_eq (h.stored s hs) ?_
  obtain ⟨left, right, rfl⟩ := List.append_of_mem hs
  have hnodup := h.nodup_groups
  rw [List.flatMap_append, List.flatMap_cons] at hnodup
  exact (List.nodup_append.1 (List.nodup_append.1 hnodup).2.1).1

theorem Forest.discard (h : t.Forest loose (s :: ss)) : (t.discard s.id).Forest loose ss := by
  have hs := h.subtree?_eq (List.mem_cons_self ..)
  have hgroups := List.nodup_append.1 h.nodup_groups
  have hconditions : (loose ++ ss.flatMap Subtree.conditionIds ++ s.conditionIds).Nodup := by
    refine List.Perm.nodup_iff ?_ |>.2 h.nodup_conditions
    rw [List.flatMap_cons, List.append_assoc]
    exact List.perm_append_comm.append_left _
  have hother : ∀ c ∈ loose ++ ss.flatMap Subtree.conditionIds, c ∉ s.conditionIds :=
    fun c hc hmem => (List.nodup_append.1 hconditions).2.2 c hc c hmem rfl
  constructor
  case stored =>
    intro u hu
    apply (h.stored u (List.mem_cons_of_mem _ hu)).congr
    intro g hg
    rw [group?_discard hs, if_neg fun hmem => ?_]
    exact hgroups.2.2 g hmem g (List.mem_flatMap.2 ⟨u, hu, hg⟩) rfl
  case nodup_groups =>
    exact hgroups.2.1
  case nodup_conditions =>
    exact (List.nodup_append.1 hconditions).1
  case mem_groups =>
    intro g hg
    obtain ⟨n, hn⟩ := containsGroup_iff.1 hg
    rw [group?_discard hs] at hn
    split at hn
    · simp at hn
    · rename_i hmem
      have hlive := h.mem_groups g (containsGroup_iff.2 ⟨n, hn⟩)
      exact (List.mem_append.1 hlive).resolve_left hmem
  case condition_iff =>
    intro c
    rw [containsCondition_iff, condition?_discard hs]
    have hall := h.condition_iff c
    rw [containsCondition_iff, List.flatMap_cons, List.mem_append, List.mem_append] at hall
    rw [List.mem_append]
    by_cases hc : c ∈ s.conditionIds
    · have hout : ¬ (c ∈ loose ∨ c ∈ ss.flatMap Subtree.conditionIds) := fun hmem =>
        hother c (List.mem_append.2 hmem) hc
      rw [if_pos hc]
      exact iff_of_false (by simp) hout
    · rw [if_neg hc, hall]
      simp only [hc, false_or]

theorem condition?_eraseCondition (c d : ConditionId) :
    ({ t with conditions := t.conditions.erase c.key } : Tree).condition? d =
      if d = c then none else t.condition? d := by
  simp only [condition?, Slab.get?_erase, ConditionId.key_inj]

theorem Forest.eraseCondition {c : ConditionId} (h : t.Forest (c :: loose) ss) :
    ({ t with conditions := t.conditions.erase c.key } : Tree).Forest loose ss where
  stored s hs := (h.stored s hs).congr fun _ _ => rfl
  nodup_groups := h.nodup_groups
  nodup_conditions := (List.nodup_cons.1 h.nodup_conditions).2
  mem_groups g hg := h.mem_groups g hg
  condition_iff d := by
    have hd := h.condition_iff d
    rw [List.cons_append, List.mem_cons, containsCondition_iff] at hd
    rw [containsCondition_iff, condition?_eraseCondition]
    by_cases hdc : d = c
    · subst hdc
      rw [if_pos rfl]
      exact iff_of_false (by simp) (List.nodup_cons.1 h.nodup_conditions).1
    · rw [if_neg hdc, hd]
      simp only [hdc, false_or]

theorem condition?_modifyCondition (c d : ConditionId) (f : Condition → Condition) :
    ({ t with conditions := t.conditions.modify c.key f } : Tree).condition? d =
      if d = c then (t.condition? c).map f else t.condition? d := by
  simp only [condition?, Slab.get?_modify, ConditionId.key_inj]

theorem containsCondition_modifyCondition (c d : ConditionId) (f : Condition → Condition) :
    ({ t with conditions := t.conditions.modify c.key f } : Tree).containsCondition d =
      t.containsCondition d := by
  rw [Bool.eq_iff_iff, containsCondition_iff, containsCondition_iff, condition?_modifyCondition]
  by_cases hdc : d = c
  · cases hc : t.condition? c <;> simp [hdc, hc]
  · rw [if_neg hdc]

theorem Forest.modifyCondition (h : t.Forest loose ss) (c : ConditionId)
    (f : Condition → Condition) :
    ({ t with conditions := t.conditions.modify c.key f } : Tree).Forest loose ss :=
  h.congr (fun _ => rfl) fun d => containsCondition_modifyCondition c d f

end Tree

end WhenClause
