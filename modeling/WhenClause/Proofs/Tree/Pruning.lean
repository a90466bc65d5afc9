import WhenClause.Proofs.Tree.Footprint

/-!
# Removals in any order

A list of removals leaves of a tree what is neither listed nor hangs from a listed group, each
record without what it named of the list. That is told from the tree before the first removal and
from which removals are listed, so their order does not matter, although a removal succeeds in one
order that fails in another.
-/

namespace WhenClause

inductive Removal where
  | group (g : GroupId)
  | condition (c : ConditionId)
  deriving DecidableEq

def Removal.edit : Removal → Edit
  | .group g => .removeGroup g
  | .condition c => .removeCondition c

def GroupNode.without (n : GroupNode) (rs : List Removal) : GroupNode :=
  { n with
    items := n.items.filter (Removal.condition · ∉ rs)
    groups := n.groups.filter (Removal.group · ∉ rs) }

theorem GroupNode.without_append (n : GroupNode) (rs rs' : List Removal) :
    n.without (rs ++ rs') = (n.without rs).without rs' := by
  simp only [without, List.filter_filter, List.mem_append, not_or, Bool.decide_and, Bool.and_comm]

theorem GroupNode.without_eq_self {n : GroupNode} {rs : List Removal}
    (hitems : ∀ c ∈ n.items, .condition c ∉ rs) (hgroups : ∀ g ∈ n.groups, .group g ∉ rs) :
    n.without rs = n := by
  have hitems' : n.items.filter (Removal.condition · ∉ rs) = n.items :=
    List.filter_eq_self.2 fun c hc => decide_eq_true (hitems c hc)
  have hgroups' : n.groups.filter (Removal.group · ∉ rs) = n.groups :=
    List.filter_eq_self.2 fun g hg => decide_eq_true (hgroups g hg)
  rw [without, hitems', hgroups']

theorem GroupNode.without_group {n : GroupNode} (hnodup : n.groups.Nodup) (g : GroupId) :
    n.without [.group g] = n.eraseGroup g := by
  simp [without, eraseGroup, hnodup.erase_eq_filter, bne, beq_eq_decide]

theorem GroupNode.without_condition {n : GroupNode} (hnodup : n.items.Nodup) (c : ConditionId) :
    n.without [.condition c] = n.eraseItem c := by
  simp [without, eraseItem, hnodup.erase_eq_filter, bne, beq_eq_decide]

namespace Subtree

mutual
/-- What is left of a subtree without the listed groups and conditions, nothing if its top group is
listed. -/
def prune (rs : List Removal) : Subtree → Option Subtree
  | .node id record children =>
    if .group id ∈ rs then none else some (.node id (record.without rs) (pruneAll rs children))

def pruneAll (rs : List Removal) : List Subtree → List Subtree
  | [] => []
  | s :: ss => (prune rs s).toList ++ pruneAll rs ss
end

variable {rs : List Removal} {s s' : Subtree}

theorem prune_node (rs : List Removal) (id : GroupId) (record : GroupNode)
    (children : List Subtree) : (node id record children).prune rs =
      if .group id ∈ rs then none
      else some (.node id (record.without rs) (pruneAll rs children)) := by
  rw [prune]

theorem prune_of_mem (h : .group s.id ∈ rs) : s.prune rs = none := by
  obtain ⟨id, record, children⟩ := s
  exact (prune_node rs id record children).trans (if_pos h)

theorem exists_prune (h : .group s.id ∉ rs) : ∃ s', s.prune rs = some s' ∧ s'.id = s.id := by
  obtain ⟨id, record, children⟩ := s
  exact ⟨_, (prune_node rs id record children).trans (if_neg h), rfl⟩

theorem id_of_prune (h : s.prune rs = some s') : s'.id = s.id := by
  by_cases hs : .group s.id ∈ rs
  · rw [prune_of_mem hs] at h
    cases h
  · obtain ⟨_, h', hid⟩ := exists_prune hs
    cases h.symm.trans h'
    exact hid

theorem mem_pruneAll {ss : List Subtree} :
    s' ∈ pruneAll rs ss ↔ ∃ s ∈ ss, s.prune rs = some s' := by
  induction ss with
  | nil => simp [pruneAll]
  | cons s ss ih => simp [pruneAll, ih]

theorem map_id_pruneAll (rs : List Removal) (ss : List Subtree) :
    (pruneAll rs ss).map id = (ss.map id).filter (Removal.group · ∉ rs) := by
  induction ss with
  | nil => rfl
  | cons s ss ih =>
    rw [pruneAll, List.map_append, ih, List.map_cons]
    by_cases hs : .group s.id ∈ rs
    · rw [prune_of_mem hs, List.filter_cons_of_neg (by simpa using hs)]
      rfl
    · obtain ⟨s', hs', hid⟩ := exists_prune hs
      rw [hs', List.filter_cons_of_pos (by simpa using hs), ← hid]
      rfl

end Subtree

namespace Tree

variable {t t' t'' : Tree} {whole whole' : Option Subtree} {rs rs' : List Removal} {r : Removal}
  {a g p : GroupId} {c : ConditionId} {n : GroupNode} {s : Subtree}

def removeAll (t : Tree) (rs : List Removal) : Tree := t.run (rs.map Removal.edit)

def Taken (t : Tree) (rs : List Removal) (g : GroupId) : Prop :=
  ∃ a, .group a ∈ rs ∧ t.AtOrAbove a g

/-- The one tree is what is left of the other without what is listed. -/
structure Pruned (t : Tree) (rs : List Removal) (t' : Tree) : Prop where
  root : t'.root = t.root.filter (Removal.group · ∉ rs)
  group_live : ∀ g, t'.containsGroup g = true ↔ t.containsGroup g = true ∧ ¬ t.Taken rs g
  condition_live : ∀ c, t'.containsCondition c = true ↔ t.containsCondition c = true ∧
    .condition c ∉ rs ∧ ∀ p, t.Holds p c → ¬ t.Taken rs p
  group : ∀ g n, t'.containsGroup g = true → t.group? g = some n →
    t'.group? g = some (n.without rs)
  condition : ∀ c, t'.containsCondition c = true → t'.condition? c = t.condition? c

theorem taken_append : t.Taken (rs ++ rs') g ↔ t.Taken rs g ∨ t.Taken rs' g := by
  simp only [Taken, List.mem_append, or_and_right, exists_or]

theorem taken_singleton : t.Taken [.group a] g ↔ t.AtOrAbove a g := by
  simp [Taken]

theorem untaken_iff_not_holdsBelow :
    (∀ p, t.Holds p c → ¬ t.Taken [.group g] p) ↔ ¬ t.HoldsBelow g c := by
  simp [HoldsBelow, taken_singleton, imp_not_comm]

theorem not_taken_condition : ¬ t.Taken [.condition c] g := by
  simp [Taken]

namespace Pruned

theorem congr (h : t.Pruned rs t') (hmem : ∀ r, r ∈ rs' ↔ r ∈ rs) : t.Pruned rs' t' := by
  have htaken : ∀ g, t.Taken rs' g ↔ t.Taken rs g := fun g => by simp only [Taken, hmem]
  have hwithout : ∀ n : GroupNode, n.without rs' = n.without rs := fun n => by
    simp only [GroupNode.without, hmem]
  constructor
  case root => simpa only [hmem] using h.root
  case group_live => simpa only [htaken] using h.group_live
  case condition_live => simpa only [hmem, htaken] using h.condition_live
  case group => simpa only [hwithout] using h.group
  case condition => exact h.condition

theorem same (h : t.Pruned rs t') (h' : t.Pruned rs t'') : t'.Same t'' := by
  have hgroup : ∀ g, t''.containsGroup g = t'.containsGroup g := fun g => by
    rw [Bool.eq_iff_iff, h.group_live, h'.group_live]
  have hcondition : ∀ c, t''.containsCondition c = t'.containsCondition c := fun c => by
    rw [Bool.eq_iff_iff, h.condition_live, h'.condition_live]
  constructor
  case root => rw [h.root, h'.root]
  case group =>
    intro g
    cases hg : t'.containsGroup g with
    | false => rw [group?_eq_none hg, group?_eq_none ((hgroup g).trans hg)]
    | true =>
      obtain ⟨n, hn⟩ := containsGroup_iff.1 ((h.group_live g).1 hg).1
      rw [h.group g n hg hn, h'.group g n ((hgroup g).trans hg) hn]
  case condition =>
    intro c
    cases hc : t'.containsCondition c with
    | false => rw [condition?_eq_none hc, condition?_eq_none ((hcondition c).trans hc)]
    | true => rw [h.condition c hc, h'.condition c ((hcondition c).trans hc)]

theorem exists_record (h : t.Pruned rs t') {n' : GroupNode} (hn' : t'.group? g = some n') :
    ∃ n, t.group? g = some n ∧ n' = n.without rs := by
  have hg := containsGroup_iff.2 ⟨n', hn'⟩
  obtain ⟨n, hn⟩ := containsGroup_iff.1 ((h.group_live g).1 hg).1
  exact ⟨n, hn, Option.some.inj (hn'.symm.trans (h.group g n hg hn))⟩

theorem nests (h : t.Pruned rs t') (hnests : t'.Nests p g) : t.Nests p g := by
  obtain ⟨_, hn', hg⟩ := hnests
  obtain ⟨n, hn, rfl⟩ := h.exists_record hn'
  exact ⟨n, hn, List.mem_of_mem_filter hg⟩

theorem atOrAbove_iff (h : t.Pruned rs t') (hg : t'.containsGroup g = true) :
    t'.AtOrAbove a g ↔ t.AtOrAbove a g := by
  constructor
  · exact Relation.ReflTransGen.mono (fun _ _ => h.nests) a g
  · intro habove
    induction habove with
    | refl => exact .refl
    | @tail p g _ hnests ih =>
      have huntaken := ((h.group_live g).1 hg).2
      have hp : t'.containsGroup p = true := by
        refine (h.group_live p).2 ⟨hnests.containsGroup, fun ⟨a, ha, habove⟩ => huntaken ?_⟩
        exact ⟨a, ha, habove.tail hnests⟩
      obtain ⟨n, hn, hgn⟩ := hnests
      refine (ih hp).tail ⟨_, h.group p n hp hn, List.mem_filter.2 ⟨hgn, decide_eq_true ?_⟩⟩
      exact fun hlisted => huntaken ⟨g, hlisted, .refl⟩

theorem taken_iff (h : t.Pruned rs t') (hg : t'.containsGroup g = true) :
    t'.Taken rs' g ↔ t.Taken rs' g := by
  simp only [Taken, h.atOrAbove_iff hg]

theorem holds_iff (h : t.Pruned rs t') (hc : t'.containsCondition c = true) :
    t'.Holds p c ↔ t.Holds p c := by
  constructor
  · rintro ⟨_, hn', hcn⟩
    obtain ⟨n, hn, rfl⟩ := h.exists_record hn'
    exact ⟨n, hn, List.mem_of_mem_filter hcn⟩
  · intro hp
    obtain ⟨_, hunlisted, huntaken⟩ := (h.condition_live c).1 hc
    have hlive := (h.group_live p).2 ⟨hp.containsGroup, huntaken p hp⟩
    obtain ⟨n, hn, hcn⟩ := hp
    exact ⟨_, h.group p n hlive hn, List.mem_filter.2 ⟨hcn, decide_eq_true hunlisted⟩⟩

theorem trans (h : t.Pruned rs t') (h' : t'.Pruned rs' t'') : t.Pruned (rs ++ rs') t'' := by
  constructor
  case root =>
    rw [h'.root, h.root, Option.filter_filter]
    simp only [List.mem_append, not_or, Bool.decide_and]
  case group_live =>
    intro g
    rw [h'.group_live, taken_append, not_or, ← and_assoc, ← h.group_live]
    exact and_congr_right fun hg => not_congr (h.taken_iff hg)
  case condition_live =>
    intro c
    have hsplit : (t.containsCondition c = true ∧ .condition c ∉ rs ++ rs' ∧
        ∀ p, t.Holds p c → ¬ t.Taken (rs ++ rs') p) ↔
        t'.containsCondition c = true ∧ .condition c ∉ rs' ∧
          ∀ p, t.Holds p c → ¬ t.Taken rs' p := by
      rw [h.condition_live, List.mem_append, not_or]
      simp only [taken_append, not_or, forall_and]
      tauto
    rw [h'.condition_live, hsplit]
    refine and_congr_right fun hc => and_congr_right fun _ => forall_congr' fun p => ?_
    rw [h.holds_iff hc]
    refine imp_congr_right fun hp => not_congr (h.taken_iff ?_)
    exact ((h.holds_iff hc).2 hp).containsGroup
  case group =>
    intro g n hg hn
    have hg' := ((h'.group_live g).1 hg).1
    rw [h'.group g _ hg (h.group g n hg' hn), GroupNode.without_append]
  case condition =>
    intro c hc
    rw [h'.condition c hc, h.condition c ((h'.condition_live c).1 hc).1]

end Pruned

theorem filter_root (h : ∀ g, t.root = some g → .group g ∉ rs) :
    t.root.filter (Removal.group · ∉ rs) = t.root := by
  cases hroot : t.root with
  | none => rfl
  | some g => exact Option.filter_some_pos (decide_eq_true (h g hroot))

namespace Shape

theorem pruned_of_stale (h : t.Shape whole)
    (hgroup : ∀ g, .group g ∈ rs → t.containsGroup g = false)
    (hcondition : ∀ c, .condition c ∈ rs → t.containsCondition c = false) : t.Pruned rs t := by
  have hgroup' : ∀ g, t.containsGroup g = true → .group g ∉ rs := fun g hg hlisted =>
    Bool.eq_false_iff.1 (hgroup g hlisted) hg
  have hcondition' : ∀ c, t.containsCondition c = true → .condition c ∉ rs := fun c hc hlisted =>
    Bool.eq_false_iff.1 (hcondition c hlisted) hc
  have huntaken : ∀ g, t.containsGroup g = true → ¬ t.Taken rs g := by
    rintro g hg ⟨a, hlisted, habove⟩
    exact hgroup' a (habove.containsGroup hg) hlisted
  have hpath := h.singlePath
  constructor
  case root => exact (filter_root fun g hg => hgroup' g (hpath.root_live g hg)).symm
  case group_live => exact fun g => (and_iff_left_of_imp (huntaken g)).symm
  case condition_live =>
    refine fun c => (and_iff_left_of_imp fun hc => ⟨hcondition' c hc, fun p hp => ?_⟩).symm
    exact huntaken p hp.containsGroup
  case group =>
    intro g n _ hn
    rw [GroupNode.without_eq_self]
    · exact hn
    · exact fun c hc => hcondition' c (hpath.items_live g n hn c hc)
    · exact fun a ha => hgroup' a (hpath.groups_live g n hn a ha)
  case condition => exact fun _ _ => rfl

theorem nodup_groups (h : t.Shape whole) (hp : t.group? p = some n) : n.groups.Nodup := by
  obtain ⟨ctx, children, rfl⟩ := h.exists_place hp
  have hnamed := (h.stored.nodup_named h.nodup_groupIds).2
  exact (List.nodup_flatMap.1 hnamed).1 _ (h.mem_nodes_iff.2 hp)

theorem pruned_removeGroup (h : t.Shape whole) (he : t.removeGroup g = some t') :
    t.Pruned [.group g] t' := by
  obtain ⟨hturnover, _⟩ := h.turnover_removeGroup he
  have hgroupLive : ∀ a, t'.containsGroup a = true ↔
      t.containsGroup a = true ∧ ¬ t.Taken [.group g] a := by
    intro a
    rw [hturnover.group, taken_singleton]
    simp
  have hconditionLive : ∀ c, t'.containsCondition c = true ↔ t.containsCondition c = true ∧
      .condition c ∉ [Removal.group g] ∧ ∀ p, t.Holds p c → ¬ t.Taken [.group g] p := by
    intro c
    rw [hturnover.condition, untaken_iff_not_holdsBelow]
    simp
  by_cases hg : t.root = some g
  · obtain ⟨hroot, hgroup, hcondition⟩ := h.nothing_of_removeGroup_root he hg
    refine ⟨?_, hgroupLive, hconditionLive, ?_, ?_⟩
    · rw [hroot, hg, Option.filter_some_neg (by simp)]
    · exact fun a _ ha => absurd ha (Bool.eq_false_iff.1 (hgroup a))
    · exact fun c hc => absurd hc (Bool.eq_false_iff.1 (hcondition c))
  · have hlive : t.containsGroup g = true := by rw [← h.isSome_removeGroup, he, Option.isSome_some]
    obtain ⟨p, hp⟩ := h.singlePath.exists_nests hlive hg
    cases he.symm.trans (h.removeGroup_of_nests hp)
    refine ⟨?_, hgroupLive, hconditionLive, ?_, ?_⟩
    · rw [root_discard, root_modifyGroup, filter_root]
      rintro r hr hlisted
      cases List.mem_singleton.1 hlisted
      exact hg hr
    · intro a n ha hn
      rw [group?_discard_of_live ha, GroupNode.without_group (h.nodup_groups hn)]
      by_cases hap : a = p
      · rw [group?_modifyGroup, if_pos hap, ← hap, hn, Option.map_some]
      · rw [group?_modifyGroup_of_ne hap, hn, GroupNode.eraseGroup, List.erase_of_not_mem]
        exact fun hgn => hap (h.singlePath.nests_unique ⟨n, hn, hgn⟩ hp)
    · exact fun c hc => condition?_discard_of_live hc

theorem pruned_removeCondition (h : t.Shape whole) (he : t.removeCondition c = some t') :
    t.Pruned [.condition c] t' := by
  obtain ⟨hturnover, _⟩ := h.touches_removeCondition he
  have hlive : t.containsCondition c = true := by
    rw [← h.isSome_removeCondition, he, Option.isSome_some]
  obtain ⟨p, hp⟩ := h.singlePath.exists_holds hlive
  cases he.symm.trans (h.removeCondition_of_holds hp)
  constructor
  case root => exact (filter_root (by simp)).symm
  case group_live =>
    intro a
    rw [hturnover.group]
    simp [not_taken_condition]
  case condition_live =>
    intro d
    rw [hturnover.condition]
    simp [not_taken_condition]
  case group =>
    intro a n _ hn
    rw [GroupNode.without_condition (h.nodup_items hn)]
    by_cases hap : a = p
    · exact (group?_modifyGroup p a _).trans (by rw [if_pos hap, ← hap, hn, Option.map_some])
    · refine (group?_modifyGroup_of_ne hap _).trans ?_
      rw [hn, GroupNode.eraseItem, List.erase_of_not_mem]
      exact fun hcn => hap (h.singlePath.holds_unique ⟨n, hn, hcn⟩ hp)
  case condition =>
    intro d hd
    exact (spares_eraseCondition t p _ c).condition d (Option.some_ne_none d)
      (((hturnover.condition d).1 hd).resolve_right (by simp)).1 hd

theorem pruned_edit (h : t.Shape whole) (r : Removal) : t.Pruned [r] (t.edit r.edit) := by
  cases r with
  | group g =>
    change t.Pruned [.group g] ((t.removeGroup g).getD t)
    have hlive := h.isSome_removeGroup g
    cases he : t.removeGroup g with
    | some t' => exact h.pruned_removeGroup he
    | none =>
      rw [he, Option.isSome_none] at hlive
      exact h.pruned_of_stale (by simpa using hlive.symm) (by simp)
  | condition c =>
    change t.Pruned [.condition c] ((t.removeCondition c).getD t)
    have hlive := h.isSome_removeCondition c
    cases he : t.removeCondition c with
    | some t' => exact h.pruned_removeCondition he
    | none =>
      rw [he, Option.isSome_none] at hlive
      exact h.pruned_of_stale (by simp) (by simpa using hlive.symm)

theorem pruned_removeAll (h : t.Shape whole) (rs : List Removal) :
    t.Pruned rs (t.removeAll rs) := by
  induction rs generalizing t whole with
  | nil => exact h.pruned_of_stale nofun nofun
  | cons r rs ih =>
    obtain ⟨_, h'⟩ := h.edit r.edit
    exact (h.pruned_edit r).trans (ih h')

end Shape

/-! ## The whole -/

theorem Pruned.exists_stored (h : t.Pruned rs t') (hpath : t'.SinglePath) (hs : s.StoredIn t)
    (hlive : t'.containsGroup s.id = true) :
    ∃ s', s.prune rs = some s' ∧ s'.id = s.id ∧ s'.StoredIn t' := by
  induction hs with
  | @node id record children found names _ ih =>
    have huntaken := ((h.group_live id).1 hlive).2
    have hunlisted : .group id ∉ rs := fun hlisted => huntaken ⟨id, hlisted, .refl⟩
    have found' := h.group id record hlive found
    have names' : (record.without rs).groups = (Subtree.pruneAll rs children).map Subtree.id := by
      rw [Subtree.map_id_pruneAll, ← names]
      rfl
    refine ⟨.node id (record.without rs) (Subtree.pruneAll rs children), ?_, rfl, ?_⟩
    · rw [Subtree.prune_node, if_neg hunlisted]
    refine .node found' names' fun child' hchild' => ?_
    obtain ⟨child, hchild, hpruned⟩ := Subtree.mem_pruneAll.1 hchild'
    have hid : child'.id = child.id := Subtree.id_of_prune hpruned
    have hlive' : t'.containsGroup child.id = true := by
      refine hpath.groups_live id _ found' child.id ?_
      rw [names', ← hid]
      exact List.mem_map_of_mem hchild'
    obtain ⟨_, hpruned', _, hstored⟩ := ih child hchild hlive'
    cases hpruned.symm.trans hpruned'
    exact hstored

theorem Pruned.whole_eq (h : t.Pruned rs t') (hshape : t.Shape whole) (hshape' : t'.Shape whole') :
    whole' = whole.bind (Subtree.prune rs) := by
  have hroot := h.root
  rw [hshape.root, hshape'.root] at hroot
  cases whole with
  | none => exact Option.map_eq_none_iff.1 hroot
  | some s =>
    rw [Option.bind_some]
    by_cases hlisted : .group s.id ∈ rs
    · rw [Option.map_some, Option.filter_some_neg (by simpa using hlisted)] at hroot
      rw [Subtree.prune_of_mem hlisted, Option.map_eq_none_iff.1 hroot]
    · rw [Option.map_some, Option.filter_some_pos (by simpa using hlisted)] at hroot
      obtain ⟨s', rfl, hid⟩ := Option.map_eq_some_iff.1 hroot
      have hlive := hshape'.singlePath.root_live s'.id hshape'.root
      obtain ⟨s'', hpruned, hid', hstored⟩ :=
        h.exists_stored hshape'.singlePath hshape.stored (hid ▸ hlive)
      rw [hpruned, hshape'.stored.unique hstored (hid.trans hid'.symm)]

theorem Pruned.rootGroup?_eq (h : t.Pruned rs t') (hshape' : t'.Shape whole') :
    t'.rootGroup? = whole'.map (Subtree.toGroup t.condition?) := by
  cases whole' with
  | none => rw [hshape'.rootGroup?_none, Option.map_none]
  | some s =>
    rw [hshape'.rootGroup?_eq, Option.map_some]
    refine congrArg some (Subtree.toGroup_congr fun c hc => h.condition c ?_)
    exact hshape'.containsCondition_iff_mem.2 hc

/-- What the listed removals come to, told from the tree before the first of them. -/
structure RemovesAll (t : Tree) (rs : List Removal) : Prop where
  pruned : t.Pruned rs (t.removeAll rs)
  rootSubtree : (t.removeAll rs).rootSubtree? = t.rootSubtree?.bind (Subtree.prune rs)
  rootGroup : (t.removeAll rs).rootGroup? =
    (t.rootSubtree?.bind (Subtree.prune rs)).map (Subtree.toGroup t.condition?)

theorem Shape.removesAll (h : t.Shape whole) (rs : List Removal) : t.RemovesAll rs := by
  obtain ⟨_, h'⟩ := h.run (rs.map Removal.edit)
  have hpruned := h.pruned_removeAll rs
  have hwhole := hpruned.whole_eq h h'
  constructor
  case pruned => exact hpruned
  case rootSubtree => exact h'.rootSubtree?_eq.trans (by rw [hwhole, h.rootSubtree?_eq])
  case rootGroup => exact (hpruned.rootGroup?_eq h').trans (by rw [hwhole, h.rootSubtree?_eq])

theorem removals_commute (h : t.Reachable) (rs : List Removal) :
    t.RemovesAll rs ∧ ∀ rs', rs'.Perm rs → (t.removeAll rs).Same (t.removeAll rs') ∧
      (t.removeAll rs').rootGroup? = (t.removeAll rs).rootGroup? ∧
      (t.removeAll rs').groupIds = (t.removeAll rs).groupIds ∧
      (t.removeAll rs').conditionIds = (t.removeAll rs).conditionIds := by
  obtain ⟨_, hshape⟩ := h.shape
  refine ⟨hshape.removesAll rs, fun rs' hperm => ?_⟩
  obtain ⟨_, h₁⟩ := hshape.run (rs.map Removal.edit)
  obtain ⟨_, h₂⟩ := hshape.run (rs'.map Removal.edit)
  have hpruned' := (hshape.pruned_removeAll rs').congr fun _ => hperm.mem_iff.symm
  have hsame := (hshape.pruned_removeAll rs).same hpruned'
  exact ⟨hsame, hsame.listed h₁ h₂⟩

/-- A group is removed before and after the group in it. Both removals succeed in one order only. -/
theorem removals_commute_nested :
    let t := ofGroup ⟨none, [.empty], [⟨none, [.empty], [⟨some .or, [.empty], []⟩]⟩]⟩
    let rs := [Removal.group ⟨⟨1, 0⟩⟩, .group ⟨⟨0, 0⟩⟩]
    t.Reachable ∧ t.RemovesAll rs ∧ rs.reverse.Perm rs ∧
      (t.removeAll rs).Same (t.removeAll rs.reverse) ∧
      ((t.removeGroup ⟨⟨1, 0⟩⟩).bind (·.removeGroup ⟨⟨0, 0⟩⟩)).isSome = false ∧
      ((t.removeGroup ⟨⟨0, 0⟩⟩).bind (·.removeGroup ⟨⟨1, 0⟩⟩)).isSome = true ∧
      (t.removeAll rs).groupIds = [⟨⟨2, 0⟩⟩] ∧ (t.removeAll rs).conditionIds = [⟨⟨0, 0⟩⟩] := by
  intro t rs
  have hreached : t.Reachable := (Initial.ofGroup _).reachable
  have hperm := rs.reverse_perm
  obtain ⟨hremoves, horder⟩ := removals_commute hreached rs
  exact ⟨hreached, hremoves, hperm, (horder _ hperm).1, by decide, by decide, by decide,
    by decide⟩

end Tree

end WhenClause
