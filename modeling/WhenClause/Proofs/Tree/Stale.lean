import WhenClause.Proofs.Slab.Expiry
import WhenClause.Proofs.Tree.Vantage

/-!
# Stale handles

A handle whose node was taken out has expired, and no step of an edit brings an expired handle
back. So a group that replaces the whole of a tree shares no handle with what it replaces. No record
names a stale handle, and an edit that is given one finds nothing to act on.
-/

namespace WhenClause.Tree

/-- What is so of a tree after any steps of edits of another. -/
structure Later (t t' : Tree) : Prop where
  groups : t.groups.Later t'.groups
  conditions : t.conditions.Later t'.conditions

namespace Later

theorem refl (t : Tree) : t.Later t := ⟨.refl _, .refl _⟩

theorem trans {t t' t'' : Tree} (h : t.Later t') (h' : t'.Later t'') : t.Later t'' :=
  ⟨h.groups.trans h'.groups, h.conditions.trans h'.conditions⟩

theorem withRoot {t t' : Tree} (h : t.Later t') (root : Option GroupId) :
    t.Later { t' with root := root } :=
  ⟨h.groups, h.conditions⟩

end Later

theorem later_insertNode (t : Tree) (n : GroupNode) : t.Later (t.insertNode n).2 :=
  ⟨.insert _ n, .refl _⟩

theorem later_insertCondition (t : Tree) (d : Condition) : t.Later (t.insertCondition d).2 :=
  ⟨.refl _, .insert _ d⟩

theorem later_insertConditions (t : Tree) (ds : List Condition) :
    t.Later (t.insertConditions ds).2 := by
  induction ds generalizing t with
  | nil => exact .refl t
  | cons d ds ih => exact (later_insertCondition t d).trans (ih _)

theorem later_insertGroups {gs : List Group}
    (hone : ∀ g ∈ gs, ∀ t : Tree, t.Later (insertGroup g t).2) (t : Tree) :
    t.Later (insertGroups gs t).2 := by
  induction gs generalizing t with
  | nil =>
    rw [insertGroups]
    exact .refl t
  | cons g gs ih =>
    rw [insertGroups_cons]
    exact (hone g (List.mem_cons_self ..) t).trans
      (ih (fun g hg => hone g (List.mem_cons_of_mem _ hg)) _)

theorem later_insertGroup (g : Group) (t : Tree) : t.Later (insertGroup g t).2 := by
  induction g using Group.induct generalizing t with
  | node operator items groups ih =>
    rw [insertGroup_eq]
    exact ((later_insertConditions t items).trans (later_insertGroups ih _)).trans
      (later_insertNode _ _)

theorem later_modifyGroup (t : Tree) (p : GroupId) (f : GroupNode → GroupNode) :
    t.Later (t.modifyGroup p f) :=
  ⟨.modify _ p.key f, .refl _⟩

theorem later_eraseCondition (t : Tree) (c : ConditionId) :
    t.Later { t with conditions := t.conditions.erase c.key } :=
  ⟨.refl _, .erase _ c.key⟩

theorem later_foldl_erase (cs : List ConditionId) (s : Slab Condition) :
    s.Later (cs.foldl (fun s c => s.erase c.key) s) := by
  induction cs generalizing s with
  | nil => exact .refl s
  | cons c cs ih => exact (Slab.Later.erase s c.key).trans (ih _)

theorem later_discardNode (t : Tree) (n : GroupId × GroupNode) : t.Later (t.discardNode n) :=
  ⟨.erase _ n.1.key, later_foldl_erase n.2.items t.conditions⟩

theorem later_discard (t : Tree) (g : GroupId) : t.Later (t.discard g) := by
  have hnodes : ∀ (ns : List (GroupId × GroupNode)) (t : Tree),
      t.Later (ns.foldl discardNode t) := by
    intro ns
    induction ns with
    | nil => exact .refl
    | cons n ns ih => exact fun t => (later_discardNode t n).trans (ih _)
  unfold discard
  split
  · exact hnodes _ t
  · exact .refl t

theorem later_discardRoot (t : Tree) : t.Later t.discardRoot := by
  unfold discardRoot
  split
  · exact (later_discard t _).withRoot none
  · exact .refl t

theorem later_edit? {t t' : Tree} {e : Edit} (he : t.edit? e = some t') : t.Later t' := by
  cases e with
  | ensureRoot =>
    cases he
    unfold ensureRoot
    split
    · exact .refl t
    · exact (later_insertNode t .empty).withRoot _
  | toggle g =>
    obtain ⟨_, htoggle, rfl⟩ := Option.map_eq_some_iff.1 he
    obtain ⟨_, _, _, heq⟩ := toggle_eq_some htoggle
    exact heq ▸ later_modifyGroup t g _
  | addGroup parent template =>
    obtain ⟨_, hadd, rfl⟩ := Option.map_eq_some_iff.1 he
    cases parent with
    | rule =>
      cases hadd
      exact (later_discardRoot t).trans ((later_insertGroup _ _).withRoot _)
    | group p =>
      obtain ⟨_, _, heq⟩ := addGroup_group_eq_some hadd
      exact heq ▸ (later_insertGroup _ t).trans (later_modifyGroup _ p _)
  | removeGroup g =>
    rcases removeGroup_eq_some he with ⟨_, rfl⟩ | ⟨_, p, _, _, _, rfl⟩
    · exact later_discardRoot t
    · exact (later_modifyGroup t p _).trans (later_discard _ g)
  | addCondition parent template =>
    obtain ⟨_, hadd, rfl⟩ := Option.map_eq_some_iff.1 he
    obtain ⟨_, _, heq⟩ := addCondition_eq_some hadd
    exact heq ▸ (later_insertCondition t _).trans (later_modifyGroup _ parent _)
  | removeCondition c =>
    obtain ⟨_, p, _, _, rfl⟩ := removeCondition_eq_some he
    exact (later_modifyGroup t p _).trans (later_eraseCondition _ c)
  | updateCondition c f =>
    obtain ⟨_, rfl⟩ := updateCondition_eq_some he
    exact ⟨.refl _, .modify _ c.key f⟩

theorem later_edit (t : Tree) (e : Edit) : t.Later (t.edit e) := by
  unfold edit
  cases he : t.edit? e with
  | none => exact .refl t
  | some t' => exact later_edit? he

theorem later_run (t : Tree) (es : List Edit) : t.Later (t.run es) := by
  induction es generalizing t with
  | nil => exact .refl t
  | cons e es ih => exact (later_edit t e).trans (ih _)

variable {t t' : Tree} {whole : Option Subtree} {g : GroupId} {c : ConditionId} {e : Edit}

theorem Later.containsGroup_eq_false {t'' : Tree} (h : t.Later t') (h' : t'.Later t'')
    (hg : t.containsGroup g = true) (hgone : t'.containsGroup g = false) :
    t''.containsGroup g = false := by
  have hexpired := (h.groups.live _ hg).resolve_left (Bool.eq_false_iff.1 hgone)
  exact (h'.groups.expired _ hexpired).contains_eq_false

theorem Later.containsCondition_eq_false {t'' : Tree} (h : t.Later t') (h' : t'.Later t'')
    (hc : t.containsCondition c = true) (hgone : t'.containsCondition c = false) :
    t''.containsCondition c = false := by
  have hexpired := (h.conditions.live _ hc).resolve_left (Bool.eq_false_iff.1 hgone)
  exact (h'.conditions.expired _ hexpired).contains_eq_false

namespace Shape

theorem containsGroup_addGroup_rule (h : t.Shape whole)
    {template : Option Group} {r : GroupId} (hadd : t.addGroup .rule template = some (r, t'))
    (hg : t.containsGroup g = true) : t'.containsGroup g = false := by
  obtain ⟨_, rfl⟩ := Prod.mk.inj (Option.some.inj hadd)
  exact (later_discardRoot t).containsGroup_eq_false ((later_insertGroup _ _).withRoot _) hg
    (h.discardRoot.containsGroup_none g)

theorem containsCondition_addGroup_rule (h : t.Shape whole)
    {template : Option Group} {r : GroupId} (hadd : t.addGroup .rule template = some (r, t'))
    (hc : t.containsCondition c = true) : t'.containsCondition c = false := by
  obtain ⟨_, rfl⟩ := Prod.mk.inj (Option.some.inj hadd)
  exact (later_discardRoot t).containsCondition_eq_false ((later_insertGroup _ _).withRoot _) hc
    (h.discardRoot.containsCondition_none c)

end Shape

/-! ## What a stale handle finds -/

/-- Nothing is found under the handle, and no edit that is given it changes anything. -/
structure StaleGroup (t : Tree) (g : GroupId) : Prop where
  dead : t.containsGroup g = false
  edits : ∀ e, e.group? = some g → t.edit? e = none ∧ t.edit e = t
  unheld : ∀ start, t.parentOfGroup? g start = none
  empty : (∀ h, t.parentOfGroup? h g = none) ∧ ∀ c, t.parentOfCondition? c g = none
  value : t.toGroup? g = none

structure StaleCondition (t : Tree) (c : ConditionId) : Prop where
  dead : t.containsCondition c = false
  edits : ∀ e, e.condition? = some c → t.edit? e = none ∧ t.edit e = t
  unheld : ∀ start, t.parentOfCondition? c start = none
  value : t.condition? c = none

theorem subtree?_eq_none (h : t.containsGroup g = false) : t.subtree? g = none := by
  unfold subtree?
  cases t.groupCount with
  | zero => rfl
  | succ n => rw [subtreeWithin?, group?_eq_none h, Option.map_none]

namespace Shape

theorem group?_of_mem_nodes (h : t.Shape whole) {start : GroupId} {s : Subtree}
    (hs : t.subtree? start = some s) {n : GroupId × GroupNode} (hn : n ∈ s.nodes) :
    t.group? n.1 = some n.2 := by
  cases hstart : t.containsGroup start with
  | false => simp [subtree?_eq_none hstart] at hs
  | true =>
    obtain ⟨u, rfl, hu, hnodup⟩ := h.exists_subtree hstart
    cases hs.symm.trans (Tree.subtree?_eq hu hnodup)
    exact hu.group?_eq hn

theorem parentOfGroup?_eq_none (h : t.Shape whole) (hg : t.containsGroup g = false)
    (start : GroupId) : t.parentOfGroup? g start = none := by
  refine Option.bind_eq_none_iff.2 fun s hs => ?_
  rw [Subtree.parentOfGroup?, Option.map_eq_none_iff, List.find?_eq_none]
  intro n hn hmem
  have hlive := h.singlePath.groups_live n.1 n.2 (h.group?_of_mem_nodes hs hn) g
    (List.contains_iff_mem.1 hmem)
  exact Bool.eq_false_iff.1 hg hlive

theorem parentOfCondition?_eq_none (h : t.Shape whole) (hc : t.containsCondition c = false)
    (start : GroupId) : t.parentOfCondition? c start = none := by
  refine Option.bind_eq_none_iff.2 fun s hs => ?_
  rw [Subtree.parentOfCondition?, Option.map_eq_none_iff, List.find?_eq_none]
  intro n hn hmem
  have hlive := h.singlePath.items_live n.1 n.2 (h.group?_of_mem_nodes hs hn) c
    (List.contains_iff_mem.1 hmem)
  exact Bool.eq_false_iff.1 hc hlive

theorem edit?_eq_none_of_group (h : t.Shape whole) (hg : t.containsGroup g = false)
    (he : e.group? = some g) : t.edit? e = none := by
  cases e with
  | toggle =>
    cases he
    simp [Tree.edit?, Tree.toggle, group?_eq_none hg]
  | addGroup parent =>
    cases parent with
    | rule => cases he
    | group =>
      cases he
      simp [Tree.edit?, Tree.addGroup, hg]
  | removeGroup =>
    cases he
    refine Option.bind_eq_none_iff.2 fun root hroot => ?_
    have hne : g ≠ root := by
      rintro rfl
      exact Bool.eq_false_iff.1 hg (h.singlePath.root_live g hroot)
    rw [if_neg hne, h.parentOfGroup?_eq_none hg, Option.map_none]
  | addCondition =>
    cases he
    simp [Tree.edit?, Tree.addCondition, hg]
  | ensureRoot | removeCondition | updateCondition => cases he

theorem edit?_eq_none_of_condition (h : t.Shape whole) (hc : t.containsCondition c = false)
    (he : e.condition? = some c) : t.edit? e = none := by
  cases e with
  | removeCondition =>
    cases he
    refine Option.bind_eq_none_iff.2 fun root _ => ?_
    rw [h.parentOfCondition?_eq_none hc, Option.map_none]
  | updateCondition =>
    cases he
    simp [Tree.edit?, Tree.updateCondition, hc]
  | ensureRoot | toggle | addGroup | removeGroup | addCondition => cases he

theorem staleGroup (h : t.Shape whole) (hg : t.containsGroup g = false) : t.StaleGroup g where
  dead := hg
  edits e he := by
    have hnone := h.edit?_eq_none_of_group hg he
    exact ⟨hnone, edit_of_none hnone⟩
  unheld := h.parentOfGroup?_eq_none hg
  empty := by
    constructor <;> intro _
    · rw [parentOfGroup?, subtree?_eq_none hg, Option.bind_none]
    · rw [parentOfCondition?, subtree?_eq_none hg, Option.bind_none]
  value := by rw [toGroup?, subtree?_eq_none hg, Option.map_none]

theorem staleCondition (h : t.Shape whole) (hc : t.containsCondition c = false) :
    t.StaleCondition c where
  dead := hc
  edits e he := by
    have hnone := h.edit?_eq_none_of_condition hc he
    exact ⟨hnone, edit_of_none hnone⟩
  unheld := h.parentOfCondition?_eq_none hc
  value := condition?_eq_none hc

end Shape

end WhenClause.Tree
