import WhenClause.Proofs.Tree.Change
import WhenClause.Proofs.Tree.Parent
import WhenClause.Proofs.Tree.Refinement

/-!
# What each edit touches

An edit makes some handles stale and some new ones live, and changes at most one record or one
payload among those that stay. Which ones is told from the tree before the edit: a removal takes
what hangs from the group and nothing else, an addition brings as many new handles as the template
has nodes, and the one list that is changed gains or loses the one entry.
-/

namespace WhenClause.Tree

open Subtree (plug Frame)

/-- What is live after an edit: all that was but what is gone, and what is new, each of it once and
never handed out before. -/
structure Turnover (t t' : Tree) (gone : GroupId → Prop) (goneItems : ConditionId → Prop)
    (new : List GroupId) (newItems : List ConditionId) : Prop where
  group : ∀ g, t'.containsGroup g = true ↔ t.containsGroup g = true ∧ ¬ gone g ∨ g ∈ new
  condition : ∀ c, t'.containsCondition c = true ↔
    t.containsCondition c = true ∧ ¬ goneItems c ∨ c ∈ newItems
  nodup_groups : new.Nodup
  nodup_conditions : newItems.Nodup
  fresh_group : ∀ g ∈ new, ¬ t.groups.Known g.key
  fresh_condition : ∀ c ∈ newItems, ¬ t.conditions.Known c.key

/-- Of all that is there before and after an edit, one record alone differs. -/
structure Rewrites (t t' : Tree) (p : GroupId) (n n' : GroupNode) : Prop where
  before : t.group? p = some n
  after : t'.group? p = some n'
  rest : t.Spares t' (some p) none
  root : t'.root = t.root

/-- What hangs from a group that was copied from a plain one. -/
structure CopyOf (t : Tree) (x : Group) (g : GroupId) (new : List GroupId)
    (newItems : List ConditionId) : Prop where
  value : t.toGroup? g = some x
  groupCount : new.length = x.groupCount
  conditionCount : newItems.length = x.conditionCount
  mem_groups : ∀ h, h ∈ new ↔ t.AtOrAbove g h
  mem_conditions : ∀ c, c ∈ newItems ↔ t.HoldsBelow g c

variable {t t' : Tree} {whole whole' : Option Subtree} {s : Subtree} {g p : GroupId}
  {c : ConditionId} {n : GroupNode} {new gone : List GroupId}
  {newItems goneItems : List ConditionId}

namespace Shape

/-! ## Liveness -/

theorem group_iff (h : t.Shape whole) :
    t.containsGroup g = true ↔ g ∈ whole.toList.flatMap Subtree.groupIds :=
  h.forest.group_iff g

theorem condition_iff (h : t.Shape whole) :
    t.containsCondition c = true ↔ c ∈ whole.toList.flatMap Subtree.conditionIds :=
  h.forest.condition_iff c

theorem turnover_grown (h : t.Shape whole) (h' : t'.Shape whole') (hlater : t.Later t')
    (hgroups : (whole'.toList.flatMap Subtree.groupIds).Perm
      (whole.toList.flatMap Subtree.groupIds ++ new))
    (hconditions : (whole'.toList.flatMap Subtree.conditionIds).Perm
      (whole.toList.flatMap Subtree.conditionIds ++ newItems)) :
    t.Turnover t' (fun _ => False) (fun _ => False) new newItems := by
  obtain ⟨_, hnew, hapart⟩ := List.nodup_append.1 (hgroups.nodup_iff.1 h'.forest.nodup_groups)
  obtain ⟨_, hnew', hapart'⟩ :=
    List.nodup_append.1 (hconditions.nodup_iff.1 h'.forest.nodup_conditions)
  constructor
  case group =>
    intro g
    rw [h'.group_iff, hgroups.mem_iff, List.mem_append, ← h.group_iff, not_false_iff, and_true]
  case condition =>
    intro c
    rw [h'.condition_iff, hconditions.mem_iff, List.mem_append, ← h.condition_iff, not_false_iff,
      and_true]
  case nodup_groups => exact hnew
  case nodup_conditions => exact hnew'
  case fresh_group =>
    intro g hg
    refine hlater.groups.not_known (Bool.eq_false_iff.2 fun hold => ?_) ?_
    · exact hapart g (h.group_iff.1 hold) g hg rfl
    · exact h'.group_iff.2 (hgroups.mem_iff.2 (List.mem_append_right _ hg))
  case fresh_condition =>
    intro c hc
    refine hlater.conditions.not_known (Bool.eq_false_iff.2 fun hold => ?_) ?_
    · exact hapart' c (h.condition_iff.1 hold) c hc rfl
    · exact h'.condition_iff.2 (hconditions.mem_iff.2 (List.mem_append_right _ hc))

theorem turnover_shrunk (h : t.Shape whole) (h' : t'.Shape whole')
    (hgroups : (whole.toList.flatMap Subtree.groupIds).Perm
      (whole'.toList.flatMap Subtree.groupIds ++ gone))
    (hconditions : (whole.toList.flatMap Subtree.conditionIds).Perm
      (whole'.toList.flatMap Subtree.conditionIds ++ goneItems)) :
    t.Turnover t' (· ∈ gone) (· ∈ goneItems) [] [] := by
  have hapart := (List.nodup_append.1 (hgroups.nodup_iff.1 h.forest.nodup_groups)).2.2
  have hapart' := (List.nodup_append.1 (hconditions.nodup_iff.1 h.forest.nodup_conditions)).2.2
  constructor
  case group =>
    intro g
    rw [h.group_iff, hgroups.mem_iff, List.mem_append, h'.group_iff]
    constructor
    · exact fun hg => .inl ⟨.inl hg, fun hgone => hapart g hg g hgone rfl⟩
    · rintro (⟨hg, hgone⟩ | hg)
      · exact hg.resolve_right hgone
      · cases hg
  case condition =>
    intro c
    rw [h.condition_iff, hconditions.mem_iff, List.mem_append, h'.condition_iff]
    constructor
    · exact fun hc => .inl ⟨.inl hc, fun hgone => hapart' c hc c hgone rfl⟩
    · rintro (⟨hc, hgone⟩ | hc)
      · exact hc.resolve_right hgone
      · cases hc
  case nodup_groups => exact .nil
  case nodup_conditions => exact .nil
  case fresh_group => exact nofun
  case fresh_condition => exact nofun

end Shape

theorem Turnover.congr {gone gone' : GroupId → Prop} {goneItems goneItems' : ConditionId → Prop}
    (h : t.Turnover t' gone goneItems new newItems) (hgroups : ∀ g, gone' g ↔ gone g)
    (hconditions : ∀ c, goneItems' c ↔ goneItems c) :
    t.Turnover t' gone' goneItems' new newItems where
  group g := by rw [h.group, hgroups]
  condition c := by rw [h.condition, hconditions]
  nodup_groups := h.nodup_groups
  nodup_conditions := h.nodup_conditions
  fresh_group := h.fresh_group
  fresh_condition := h.fresh_condition

namespace Shape

theorem counts_toGroup (h : t.Shape whole) (hs : s.StoredIn t) :
    (s.toGroup t.condition?).groupCount = s.groupIds.length ∧
      (s.toGroup t.condition?).conditionCount = s.conditionIds.length := by
  refine ⟨Subtree.length_preorder_toGroup s _, ?_⟩
  rw [Group.conditionCount, Subtree.conditions_toGroup]
  apply List.filterMap_length_eq_length.2
  intro c hc
  obtain ⟨p, _, n, hn, hcn⟩ := (mem_conditionIds_iff_holdsBelow hs).1 hc
  exact h.singlePath.items_live p n hn c hcn

/-! ## Removals -/

theorem turnover_taken (h : t.Shape whole) (h' : t'.Shape whole') (hs : s.StoredIn t)
    (hgroups : (whole.toList.flatMap Subtree.groupIds).Perm
      (whole'.toList.flatMap Subtree.groupIds ++ s.groupIds))
    (hconditions : (whole.toList.flatMap Subtree.conditionIds).Perm
      (whole'.toList.flatMap Subtree.conditionIds ++ s.conditionIds)) :
    t.Turnover t' (t.AtOrAbove s.id) (t.HoldsBelow s.id) [] [] ∧
      ∃ x, t.toGroup? s.id = some x ∧ t.groupCount = t'.groupCount + x.groupCount ∧
        t.conditionCount = t'.conditionCount + x.conditionCount := by
  obtain ⟨hgroupCount, hconditionCount⟩ := h.counts_toGroup hs
  constructor
  · exact (h.turnover_shrunk h' hgroups hconditions).congr
      (fun _ => (mem_groupIds_iff_atOrAbove hs).symm)
      fun _ => (mem_conditionIds_iff_holdsBelow hs).symm
  · refine ⟨_, h.toGroup?_eq hs, ?_, ?_⟩
    · rw [h.groupCount_eq, h'.groupCount_eq, hgroupCount, hgroups.length_eq, List.length_append]
    · rw [h.conditionCount_eq, h'.conditionCount_eq, hconditionCount, hconditions.length_eq,
        List.length_append]

theorem turnover_removeGroup (h : t.Shape whole) (he : t.removeGroup g = some t') :
    t.Turnover t' (t.AtOrAbove g) (t.HoldsBelow g) [] [] ∧
      ∃ x, t.toGroup? g = some x ∧ t.groupCount = t'.groupCount + x.groupCount ∧
        t.conditionCount = t'.conditionCount + x.conditionCount := by
  by_cases hg : t.root = some g
  · obtain ⟨s, rfl, rfl⟩ := Option.map_eq_some_iff.1 (h.root.symm.trans hg)
    cases h.removeGroup_root.symm.trans he
    apply h.turnover_taken h.discardRoot h.stored <;> simp
  · obtain ⟨p, ctx, n, left, child, right, rfl, rfl, _, h'⟩ := h.removeGroup_group he hg
    obtain ⟨_, _, below⟩ := h.place
    have hchildren : (left ++ child :: right).Perm (left ++ right ++ [child]) :=
      List.perm_middle.trans (List.perm_append_singleton _ _).symm
    apply h.turnover_taken h' (below child (by simp))
    · simpa using Subtree.groupIds_plug_perm ctx p (n.eraseGroup child.id) n hchildren
    · simpa using Subtree.conditionIds_plug_perm ctx p (n.eraseGroup child.id) n
        (Subtree.flatMap_conditionIds_perm hchildren n.items)

theorem rewrites_removeGroup (h : t.Shape whole) (he : t.removeGroup g = some t')
    (hg : t.root ≠ some g) : ∃ p n left right, n.groups = left ++ g :: right ∧
      t.Rewrites t' p n { n with groups := left ++ right } := by
  obtain ⟨p, ctx, n, left, child, right, rfl, rfl, heq, h'⟩ := h.removeGroup_group he hg
  obtain ⟨found, names, _⟩ := h.place
  have hrecord : n.eraseGroup child.id =
      { n with groups := left.map Subtree.id ++ right.map Subtree.id } := by
    rw [GroupNode.eraseGroup, names, h.erase_map_id, List.map_append]
  refine ⟨p, n, _, _, by rw [names, List.map_append, List.map_cons], found, ?_, ?_, ?_⟩
  · rw [h'.place.1, hrecord]
  · exact heq ▸ spares_discard t p child.id _
  · rw [heq, root_discard, root_modifyGroup]

theorem nothing_of_removeGroup_root (h : t.Shape whole) (he : t.removeGroup g = some t')
    (hg : t.root = some g) : t'.root = none ∧ (∀ h, t'.containsGroup h = false) ∧
      ∀ c, t'.containsCondition c = false := by
  obtain ⟨s, rfl, rfl⟩ := Option.map_eq_some_iff.1 (h.root.symm.trans hg)
  cases h.removeGroup_root.symm.trans he
  have h' := h.discardRoot
  exact ⟨h'.root, h'.containsGroup_none, h'.containsCondition_none⟩

theorem touches_removeCondition (h : t.Shape whole) (he : t.removeCondition c = some t') :
    t.Turnover t' (fun _ => False) (· = c) [] [] ∧
      ∃ p n left right, n.items = left ++ c :: right ∧
        t.Rewrites t' p n { n with items := left ++ right } := by
  obtain ⟨p, ctx, n, children, rfl, hc, heq, h'⟩ := h.removeCondition he
  obtain ⟨found, _, _⟩ := h.place
  obtain ⟨left, right, hitems⟩ := List.append_of_mem hc
  have hnodup := h.nodup_items found
  rw [hitems] at hnodup
  have hrecord : n.eraseItem c = { n with items := left ++ right } := by
    rw [GroupNode.eraseItem, hitems, erase_append_cons hnodup]
  constructor
  · have hperm : (n.items ++ children.flatMap Subtree.conditionIds).Perm
        ((n.eraseItem c).items ++ children.flatMap Subtree.conditionIds ++ [c]) := by
      have hitem : n.items.Perm (c :: (n.eraseItem c).items) := List.perm_cons_erase hc
      exact (hitem.append_right _).trans (List.perm_append_singleton c _).symm
    have hturnover : t.Turnover t' (· ∈ []) (· ∈ [c]) [] [] := by
      apply h.turnover_shrunk h'
      · simp [Subtree.groupIds_plug, Subtree.groupIds_node]
      · simpa using Subtree.conditionIds_plug_perm ctx p (n.eraseItem c) n hperm
    exact hturnover.congr (by simp) (by simp)
  · refine ⟨p, n, left, right, hitems, found, hrecord ▸ h'.place.1, ?_, ?_⟩
    · exact heq ▸ spares_eraseCondition t p _ c
    · rw [heq]
      rfl

/-! ## Additions -/

theorem touches_addCondition (h : t.Shape whole) {template : Option Condition}
    (he : t.addCondition p template = some (c, t')) :
    t.Turnover t' (fun _ => False) (fun _ => False) [] [c] ∧
      t'.condition? c = some (template.getD .empty) ∧
      ∃ n, t.Rewrites t' p n { n with items := n.items ++ [c] } := by
  have hlater : t.Later t' :=
    later_edit? (e := .addCondition p template) (congrArg (Option.map Prod.snd) he)
  obtain ⟨ctx, n, children, rfl, _, heq, hnew, h'⟩ := h.addCondition he
  refine ⟨h.turnover_grown h' hlater ?_ ?_, hnew, n, h.place.1, h'.place.1, ?_, ?_⟩
  · simp [Subtree.groupIds_plug, Subtree.groupIds_node]
  · have hperm : ((n.addItem c).items ++ children.flatMap Subtree.conditionIds).Perm
        (n.items ++ children.flatMap Subtree.conditionIds ++ [c]) := by
      rw [GroupNode.addItem, List.append_assoc, List.append_assoc]
      exact List.perm_append_comm.append_left _
    simpa using Subtree.conditionIds_plug_perm ctx p n (n.addItem c) hperm
  · exact heq ▸ (extends_insertCondition t _).spares_modifyGroup p _
  · rw [heq]
    rfl

theorem copyOf_stored (h : t.Shape whole) (hs : s.StoredIn t) {x : Group}
    (hvalue : s.toGroup t.condition? = x) : t.CopyOf x s.id s.groupIds s.conditionIds := by
  subst hvalue
  obtain ⟨hgroupCount, hconditionCount⟩ := h.counts_toGroup hs
  exact ⟨h.toGroup?_eq hs, hgroupCount.symm, hconditionCount.symm,
    fun _ => mem_groupIds_iff_atOrAbove hs, fun _ => mem_conditionIds_iff_holdsBelow hs⟩

theorem touches_addGroup (h : t.Shape whole) {template : Option Group}
    (he : t.addGroup (.group p) template = some (g, t')) :
    ∃ new newItems, t.Turnover t' (fun _ => False) (fun _ => False) new newItems ∧
      t'.CopyOf (template.getD .empty) g new newItems ∧
      ∃ n, t.Rewrites t' p n { n with groups := n.groups ++ [g] } := by
  have hlater : t.Later t' :=
    later_edit? (e := .addGroup (.group p) template) (congrArg (Option.map Prod.snd) he)
  obtain ⟨ctx, n, children, s, rfl, rfl, hvalue, h', t₁, hext, heq⟩ := h.addGroup_group he
  obtain ⟨found', _, below⟩ := h'.place
  have hchildren : (children ++ [s]).Perm (children ++ [s]) := .refl _
  refine ⟨_, _, h.turnover_grown h' hlater ?_ ?_, h'.copyOf_stored (below s (by simp)) hvalue, n,
    h.place.1, found', ?_, ?_⟩
  · simpa using Subtree.groupIds_plug_perm ctx p n (n.addGroup s.id) hchildren
  · simpa using Subtree.conditionIds_plug_perm ctx p n (n.addGroup s.id)
      (Subtree.flatMap_conditionIds_perm hchildren n.items)
  · exact heq ▸ hext.spares_modifyGroup p _
  · rw [heq, root_modifyGroup, hext.root]

theorem touches_addGroup_rule (h : t.Shape whole) {template : Option Group}
    (he : t.addGroup .rule template = some (g, t')) :
    ∃ new newItems, t.Turnover t' (fun _ => True) (fun _ => True) new newItems ∧
      t'.CopyOf (template.getD .empty) g new newItems ∧ t'.root = some g := by
  have hlater : t.Later t' :=
    later_edit? (e := .addGroup .rule template) (congrArg (Option.map Prod.snd) he)
  obtain ⟨s, t'', heq, h', hvalue⟩ := h.addGroup_rule template
  cases he.symm.trans heq
  refine ⟨_, _, ?_, h'.copyOf_stored h'.stored hvalue, h'.root⟩
  constructor
  case group =>
    intro g
    rw [h'.containsGroup_iff_mem, not_true, and_false, false_or]
  case condition =>
    intro c
    rw [h'.containsCondition_iff_mem, not_true, and_false, false_or]
  case nodup_groups => exact h'.nodup_groupIds
  case nodup_conditions => exact h'.nodup_conditionIds
  case fresh_group =>
    intro g hg
    have hlive := h'.containsGroup_iff_mem.2 hg
    refine hlater.groups.not_known (Bool.eq_false_iff.2 fun hold => ?_) hlive
    exact Bool.eq_false_iff.1 (h.containsGroup_addGroup_rule he hold) hlive
  case fresh_condition =>
    intro c hc
    have hlive := h'.containsCondition_iff_mem.2 hc
    refine hlater.conditions.not_known (Bool.eq_false_iff.2 fun hold => ?_) hlive
    exact Bool.eq_false_iff.1 (h.containsCondition_addGroup_rule he hold) hlive

theorem turnover_ensureRoot (h : t.Shape whole) (hroot : t.root = none) :
    t.Turnover t.ensureRoot.2 (fun _ => False) (fun _ => False) [t.ensureRoot.1] [] := by
  have hlater : t.Later t.ensureRoot.2 := later_edit? (e := .ensureRoot) rfl
  cases whole with
  | none =>
    apply h.turnover_grown h.ensureRoot_none hlater
    · simp [Subtree.groupIds_node]
    · simp [Subtree.conditionIds_node, GroupNode.empty]
  | some s =>
    rw [h.root] at hroot
    cases hroot

/-! ## Changes in place -/

theorem turnover_refl (h : t.Shape whole) (h' : t'.Shape whole') (hlater : t.Later t')
    (hgroups : whole'.toList.flatMap Subtree.groupIds = whole.toList.flatMap Subtree.groupIds)
    (hconditions : whole'.toList.flatMap Subtree.conditionIds =
      whole.toList.flatMap Subtree.conditionIds) :
    t.Turnover t' (fun _ => False) (fun _ => False) [] [] := by
  apply h.turnover_grown h' hlater
  · rw [hgroups, List.append_nil]
  · rw [hconditions, List.append_nil]

theorem touches_toggle (h : t.Shape whole) {o : Operator} (he : t.toggle p = some (o, t')) :
    t.Turnover t' (fun _ => False) (fun _ => False) [] [] ∧
      ∃ n, o = n.effectiveOperator.negate ∧ t.Rewrites t' p n { n with operator := some o } := by
  have hlater : t.Later t' :=
    later_edit? (e := .toggle p) (congrArg (Option.map Prod.snd) he)
  obtain ⟨ctx, n, children, rfl, rfl, heq, h'⟩ := h.toggle he
  refine ⟨h.turnover_refl h' hlater ?_ ?_, n, rfl, h.place.1, h'.place.1, ?_, ?_⟩
  · simp [Subtree.groupIds_plug, Subtree.groupIds_node]
  · simp [Subtree.conditionIds_plug, Subtree.conditionIds_node, GroupNode.toggle]
  · exact heq ▸ (Extends.refl t).spares_modifyGroup p _
  · rw [heq, root_modifyGroup]

theorem touches_updateCondition (h : t.Shape whole) {f : Condition → Condition}
    (he : t.updateCondition c f = some t') :
    t.Turnover t' (fun _ => False) (fun _ => False) [] [] ∧ t'.root = t.root ∧
      t.containsCondition c = true ∧ t'.condition? c = (t.condition? c).map f ∧
      t.Spares t' none (some c) := by
  have hlater : t.Later t' := later_edit? (e := .updateCondition c f) he
  obtain ⟨hc, rfl, h'⟩ := h.updateCondition he
  refine ⟨h.turnover_refl h' hlater rfl rfl, rfl, hc, ?_, spares_modifyCondition t c f⟩
  exact (condition?_modifyCondition c c f).trans (if_pos rfl)

end Shape

/-- What each edit that finds something to act on makes stale, makes live and changes. -/
structure Touches (t : Tree) : Prop where
  removeGroup : ∀ g t', t.removeGroup g = some t' →
    t.Turnover t' (t.AtOrAbove g) (t.HoldsBelow g) [] [] ∧
    (∃ x, t.toGroup? g = some x ∧ t.groupCount = t'.groupCount + x.groupCount ∧
      t.conditionCount = t'.conditionCount + x.conditionCount) ∧
    (t.root = some g → t'.root = none ∧ (∀ h, t'.containsGroup h = false) ∧
      ∀ c, t'.containsCondition c = false) ∧
    (t.root ≠ some g → ∃ p n left right, n.groups = left ++ g :: right ∧
      t.Rewrites t' p n { n with groups := left ++ right })
  removeCondition : ∀ c t', t.removeCondition c = some t' →
    t.Turnover t' (fun _ => False) (· = c) [] [] ∧
    ∃ p n left right, n.items = left ++ c :: right ∧
      t.Rewrites t' p n { n with items := left ++ right }
  addCondition : ∀ p template c t', t.addCondition p template = some (c, t') →
    t.Turnover t' (fun _ => False) (fun _ => False) [] [c] ∧
    t'.condition? c = some (template.getD .empty) ∧
    ∃ n, t.Rewrites t' p n { n with items := n.items ++ [c] }
  addGroup : ∀ p template g t', t.addGroup (.group p) template = some (g, t') →
    ∃ new newItems, t.Turnover t' (fun _ => False) (fun _ => False) new newItems ∧
      t'.CopyOf (template.getD .empty) g new newItems ∧
      ∃ n, t.Rewrites t' p n { n with groups := n.groups ++ [g] }
  replaceWhole : ∀ template g t', t.addGroup .rule template = some (g, t') →
    ∃ new newItems, t.Turnover t' (fun _ => True) (fun _ => True) new newItems ∧
      t'.CopyOf (template.getD .empty) g new newItems ∧ t'.root = some g
  toggle : ∀ p o t', t.toggle p = some (o, t') →
    t.Turnover t' (fun _ => False) (fun _ => False) [] [] ∧
    ∃ n, o = n.effectiveOperator.negate ∧ t.Rewrites t' p n { n with operator := some o }
  updateCondition : ∀ c f t', t.updateCondition c f = some t' →
    t.Turnover t' (fun _ => False) (fun _ => False) [] [] ∧ t'.root = t.root ∧
    t.containsCondition c = true ∧ t'.condition? c = (t.condition? c).map f ∧
    t.Spares t' none (some c)
  ensureRoot : (t.root ≠ none → t.ensureRoot.2 = t) ∧ (t.root = none →
    t.Turnover t.ensureRoot.2 (fun _ => False) (fun _ => False) [t.ensureRoot.1] [] ∧
    t.Rooted t.ensureRoot.2 t.ensureRoot.1)

/-- A template counts as the empty group where there is none. -/
theorem edits_touch :
    Group.empty.groupCount = 1 ∧ Group.empty.conditionCount = 0 ∧
      ∀ t : Tree, t.Reachable → t.Touches := by
  refine ⟨rfl, rfl, fun t h => ?_⟩
  obtain ⟨_, hshape⟩ := h.shape
  constructor
  case removeGroup =>
    intro g t' he
    obtain ⟨hturnover, hcounts⟩ := hshape.turnover_removeGroup he
    exact ⟨hturnover, hcounts, hshape.nothing_of_removeGroup_root he,
      hshape.rewrites_removeGroup he⟩
  case removeCondition => exact fun _ _ => hshape.touches_removeCondition
  case addCondition => exact fun _ _ _ _ => hshape.touches_addCondition
  case addGroup => exact fun _ _ _ _ => hshape.touches_addGroup
  case replaceWhole => exact fun _ _ _ => hshape.touches_addGroup_rule
  case toggle => exact fun _ _ _ => hshape.touches_toggle
  case updateCondition => exact fun _ _ _ => hshape.touches_updateCondition
  case ensureRoot =>
    exact ⟨ensureRoot_eq_self, fun hroot =>
      ⟨hshape.turnover_ensureRoot hroot, rooted_ensureRoot hroot⟩⟩

/-- The middle one of three nested groups is removed, after a group was added to it in place of the
innermost one. -/
theorem edits_touch_nested :
    let t := (ofGroup ⟨none, [.empty], [⟨none, [.empty], [⟨some .or, [.empty], []⟩]⟩]⟩).run
      [.removeGroup ⟨⟨0, 0⟩⟩, .addGroup (.group ⟨⟨1, 0⟩⟩) (some ⟨none, [.empty, .empty], []⟩)]
    t.Reachable ∧ t.groupCount = 3 ∧ t.conditionCount = 4 ∧ t.Touches ∧
      (t.removeGroup ⟨⟨1, 0⟩⟩).map (fun t' => (t'.groupCount, t'.conditionCount)) =
        some (1, 1) := by
  have hreached : ∀ es, ((ofGroup ⟨none, [.empty], [⟨none, [.empty],
      [⟨some .or, [.empty], []⟩]⟩]⟩).run es).Reachable := fun es => ⟨_, es, .ofGroup _, rfl⟩
  exact ⟨hreached _, by decide, by decide, edits_touch.2.2 _ (hreached _), by decide⟩

end WhenClause.Tree
