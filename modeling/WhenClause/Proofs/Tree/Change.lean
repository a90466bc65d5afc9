import WhenClause.Proofs.Tree.Issued

/-!
# Edits that find something change something

Two trees are the same for anyone who looks at them through handles if they have the same root and
every handle finds the same in both. An edit that adds or removes something, or turns an operator,
never leaves a tree the same when it finds something to act on. Making a root and updating a
condition may; they touch nothing but the root, or the one condition.
-/

namespace WhenClause.Tree

structure Same (t t' : Tree) : Prop where
  root : t'.root = t.root
  group : ∀ g, t'.group? g = t.group? g
  condition : ∀ c, t'.condition? c = t.condition? c

theorem Same.refl (t : Tree) : t.Same t := ⟨rfl, fun _ => rfl, fun _ => rfl⟩

theorem Same.containsGroup {t t' : Tree} (h : t.Same t') (g : GroupId) :
    t'.containsGroup g = t.containsGroup g := by
  rw [Bool.eq_iff_iff, containsGroup_iff, containsGroup_iff, h.group]

theorem Same.containsCondition {t t' : Tree} (h : t.Same t') (c : ConditionId) :
    t'.containsCondition c = t.containsCondition c := by
  rw [Bool.eq_iff_iff, containsCondition_iff, containsCondition_iff, h.condition]

theorem Same.whole_eq {t t' : Tree} {whole whole' : Option Subtree} (hsame : t.Same t')
    (h : t.Shape whole) (h' : t'.Shape whole') : whole' = whole := by
  have hroot := hsame.root
  rw [h.root, h'.root] at hroot
  cases whole with
  | none => exact Option.map_eq_none_iff.1 hroot
  | some s =>
    obtain ⟨s', rfl, hid⟩ := Option.map_eq_some_iff.1 hroot
    rw [h'.stored.unique (h.stored.congr fun g _ => hsame.group g) hid]

theorem Same.listed {t t' : Tree} {whole whole' : Option Subtree} (hsame : t.Same t')
    (h : t.Shape whole) (h' : t'.Shape whole') : t'.rootGroup? = t.rootGroup? ∧
      t'.groupIds = t.groupIds ∧ t'.conditionIds = t.conditionIds := by
  cases hsame.whole_eq h h'
  cases whole with
  | none => simp [h.rootGroup?_none, h'.rootGroup?_none, h.listed_none, h'.listed_none]
  | some s =>
    have hpayload : t'.condition? = t.condition? := funext hsame.condition
    simp [h.rootGroup?_eq, h'.rootGroup?_eq, h.groupIds_eq, h'.groupIds_eq, h.conditionIds_eq,
      h'.conditionIds_eq, hpayload]

theorem toggle_ne_self (n : GroupNode) : n.toggle ≠ n := by
  intro h
  apply n.effectiveOperator.negate_ne
  rw [← n.effectiveOperator_toggle, h]

variable {t t' : Tree} {whole : Option Subtree} {g p : GroupId} {c : ConditionId}

namespace Shape

open Subtree (plug Frame)

theorem not_same_of_record {ctx ctx' : List Frame} {n n' : GroupNode}
    {children children' : List Subtree} (h : t.Shape (some (plug ctx (.node p n children))))
    (h' : t'.Shape (some (plug ctx' (.node p n' children')))) (hne : n' ≠ n) : ¬ t.Same t' := by
  intro hsame
  have hrecord := hsame.group p
  rw [h.place.1, h'.place.1] at hrecord
  exact hne (Option.some.inj hrecord)

theorem not_same_toggle (h : t.Shape whole) {o : Operator} (he : t.toggle p = some (o, t')) :
    ¬ t.Same t' := by
  obtain ⟨ctx, n, children, rfl, _, _, h'⟩ := h.toggle he
  exact h.not_same_of_record h' (toggle_ne_self n)

theorem not_same_addGroup (h : t.Shape whole) {parent : Parent} {template : Option Group}
    (he : t.addGroup parent template = some (g, t')) : ¬ t.Same t' := by
  intro hsame
  obtain ⟨s, _, hadded⟩ := h.added he
  obtain ⟨hbefore, hafter⟩ := hadded.group s.id (Subtree.id_mem_groupIds s)
  rw [hsame.containsGroup, hbefore] at hafter
  cases hafter

theorem not_same_removeGroup (h : t.Shape whole) (he : t.removeGroup g = some t') :
    ¬ t.Same t' := by
  by_cases hg : t.root = some g
  · obtain ⟨s, rfl, rfl⟩ := Option.map_eq_some_iff.1 (h.root.symm.trans hg)
    cases h.removeGroup_root.symm.trans he
    intro hsame
    have hroot := hsame.root
    rw [h.discardRoot.root, hg] at hroot
    cases hroot
  · obtain ⟨p, ctx, n, left, child, right, rfl, rfl, _, h'⟩ := h.removeGroup_group he hg
    obtain ⟨_, names, _⟩ := h.place
    have hmem : child.id ∈ n.groups := by simp [names]
    exact h.not_same_of_record h' fun heq =>
      List.erase_eq_self_iff.1 (congrArg GroupNode.groups heq) hmem

theorem not_same_addCondition (h : t.Shape whole) {template : Option Condition}
    (he : t.addCondition p template = some (c, t')) : ¬ t.Same t' := by
  intro hsame
  obtain ⟨_, _, _, _, hfresh, _, hnew, _⟩ := h.addCondition he
  rw [hsame.condition, hfresh] at hnew
  cases hnew

theorem not_same_removeCondition (h : t.Shape whole) (he : t.removeCondition c = some t') :
    ¬ t.Same t' := by
  obtain ⟨p, ctx, n, children, rfl, hc, _, h'⟩ := h.removeCondition he
  exact h.not_same_of_record h' fun heq =>
    List.erase_eq_self_iff.1 (congrArg GroupNode.items heq) hc

end Shape

structure Rooted (t t' : Tree) (g : GroupId) : Prop where
  fresh : t.containsGroup g = false
  root : t'.root = some g
  found : t'.group? g = some .empty
  group : ∀ h, h ≠ g → t'.group? h = t.group? h
  condition : ∀ c, t'.condition? c = t.condition? c

theorem rooted_ensureRoot (h : t.root = none) : t.Rooted t.ensureRoot.2 t.ensureRoot.1 := by
  unfold ensureRoot
  rw [h]
  constructor
  case fresh =>
    apply Bool.eq_false_iff.2
    intro hlive
    obtain ⟨n, hn⟩ := containsGroup_iff.1 hlive
    rw [group?_fst_insertNode .empty] at hn
    cases hn
  case root => rfl
  case found => exact (group?_insertNode .empty _).trans (if_pos rfl)
  case group => exact fun g hg => (group?_insertNode .empty g).trans (if_neg hg)
  case condition => exact fun _ => rfl

theorem ensureRoot_eq_self (h : t.root ≠ none) : t.ensureRoot.2 = t := by
  obtain ⟨g, hg⟩ := Option.ne_none_iff_exists'.1 h
  rw [ensureRoot, hg]

structure Updated (t t' : Tree) (c : ConditionId) (f : Condition → Condition) : Prop where
  root : t'.root = t.root
  group : ∀ g, t'.group? g = t.group? g
  found : t'.condition? c = (t.condition? c).map f
  condition : ∀ d, d ≠ c → t'.condition? d = t.condition? d

theorem isSome_updateCondition (t : Tree) (c : ConditionId) (f : Condition → Condition) :
    (t.updateCondition c f).isSome = t.containsCondition c := by
  unfold updateCondition
  split <;> simp_all

theorem updated_updateCondition (t : Tree) (c : ConditionId) (f : Condition → Condition) :
    t.Updated ((t.updateCondition c f).getD t) c f := by
  cases hc : t.containsCondition c with
  | false =>
    have hnone : t.updateCondition c f = none := by
      rw [updateCondition, hc, if_neg Bool.false_ne_true]
    rw [hnone, Option.getD_none]
    exact ⟨rfl, fun _ => rfl, by rw [condition?_eq_none hc, Option.map_none], fun _ _ => rfl⟩
  | true =>
    rw [updateCondition, if_pos hc, Option.getD_some]
    constructor
    case root => rfl
    case group => exact fun _ => rfl
    case found => exact (condition?_modifyCondition c c f).trans (if_pos rfl)
    case condition => exact fun d hd => (condition?_modifyCondition c d f).trans (if_neg hd)

end WhenClause.Tree
