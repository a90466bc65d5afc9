import WhenClause.Proofs.Tree.Footprint

/-!
# Listings and the plain value

The listings of a tree go along its plain value: the group under the handle at a position is the
group at that position in the plain value, parents before children, and the conditions follow one
another as they do there. What hangs from a group stands together in both listings, as many handles
as the plain value of the group has groups and conditions.
-/

namespace WhenClause.Tree

open Subtree (plug before after)

/-- The handles of a group and of all that hangs from it, without a gap among all others. -/
structure Block (t : Tree) (g : GroupId) (x : Group) : Prop where
  groups : ∃ front below back, t.groupIds = front ++ g :: below ++ back ∧
    (∀ h, h ∈ g :: below ↔ t.AtOrAbove g h) ∧ (g :: below).length = x.groupCount
  conditions : ∃ front held back, t.conditionIds = front ++ held ++ back ∧
    (∀ c, c ∈ held ↔ t.HoldsBelow g c) ∧ held.length = x.conditionCount

structure Aligned (t : Tree) : Prop where
  groups_once : t.groupIds.Nodup
  mem_groups : ∀ g, g ∈ t.groupIds ↔ t.containsGroup g = true
  conditions_once : t.conditionIds.Nodup
  mem_conditions : ∀ c, c ∈ t.conditionIds ↔ t.containsCondition c = true
  group_by_group : t.conditionIds =
    t.groupIds.flatMap fun g => ((t.group? g).map GroupNode.items).getD []
  values : t.groupIds.map t.toGroup? = ((t.rootGroup?.map Group.preorder).getD []).map some
  payloads : t.conditionIds.map t.condition? =
    ((t.rootGroup?.map Group.conditions).getD []).map some
  blocks : ∀ g, t.containsGroup g = true → ∃ x, t.toGroup? g = some x ∧ t.Block g x

variable {t : Tree} {whole : Option Subtree} {s : Subtree} {g : GroupId}

theorem conditionIds_eq_flatMap (h : s.StoredIn t) :
    s.conditionIds = s.groupIds.flatMap fun g => ((t.group? g).map GroupNode.items).getD [] := by
  rw [Subtree.conditionIds, Subtree.groupIds, List.flatMap_map]
  refine List.flatMap_congr fun n hn => ?_
  rw [h.group?_eq hn, Option.map_some, Option.getD_some]

namespace Shape

theorem map_toGroup? (h : t.Shape whole) (hs : s.StoredIn t) :
    s.groupIds.map t.toGroup? = (s.toGroup t.condition?).preorder.map some := by
  induction s using Subtree.induct with
  | node id record children ih =>
    obtain ⟨_, _, below⟩ := Subtree.storedIn_node.1 hs
    -- Both sides start with the group itself and go on with its children, one after the other.
    have hself : t.toGroup? id = some ((Subtree.node id record children).toGroup t.condition?) :=
      h.toGroup?_eq hs
    have hbelow : (children.flatMap Subtree.groupIds).map t.toGroup? =
        ((children.map (Subtree.toGroup t.condition?)).flatMap Group.preorder).map some := by
      rw [List.map_flatMap, List.flatMap_map, List.map_flatMap]
      exact List.flatMap_congr fun child hchild => ih child hchild (below child hchild)
    rw [Subtree.groupIds_node, List.map_cons, hself, hbelow, Group.preorder_eq,
      Group.preorderAll_eq_flatMap, List.map_cons, Subtree.toGroup_node]

theorem map_condition? (h : t.Shape (some s)) :
    s.conditionIds.map t.condition? = (s.toGroup t.condition?).conditions.map some := by
  have hlive : ∀ o ∈ s.conditionIds.map t.condition?, o.isSome = true := by
    intro o ho
    obtain ⟨c, hc, rfl⟩ := List.mem_map.1 ho
    exact h.containsCondition_iff_mem.2 hc
  rw [Subtree.conditions_toGroup, List.map_filterMap_some_eq_filter_map_isSome,
    List.filter_eq_self.2 hlive]

theorem exists_block (h : t.Shape whole) (hg : t.containsGroup g = true) :
    ∃ x, t.toGroup? g = some x ∧ t.Block g x := by
  obtain ⟨n, hn⟩ := Tree.containsGroup_iff.1 hg
  obtain ⟨ctx, children, rfl⟩ := h.exists_place hn
  have hs : (Subtree.node g n children).StoredIn t := h.stored.of_plug
  obtain ⟨hgroupCount, hconditionCount⟩ := h.counts_toGroup hs
  refine ⟨_, h.toGroup?_eq hs, ?_, ?_⟩
  · refine ⟨(before ctx).map Prod.fst, children.flatMap Subtree.groupIds,
      (after ctx).map Prod.fst, ?_, ?_, ?_⟩
    · rw [h.groupIds_eq, Subtree.groupIds_plug, Subtree.groupIds_node]
    · rw [← Subtree.groupIds_node]
      exact fun _ => mem_groupIds_iff_atOrAbove hs
    · rw [hgroupCount, Subtree.groupIds_node]
  · refine ⟨(before ctx).flatMap (·.2.items), (Subtree.node g n children).conditionIds,
      (after ctx).flatMap (·.2.items), ?_, ?_, hconditionCount.symm⟩
    · rw [h.conditionIds_eq, Subtree.conditionIds_plug]
    · exact fun _ => mem_conditionIds_iff_holdsBelow hs

end Shape

theorem listings_aligned (h : t.Reachable) : t.Aligned := by
  obtain ⟨whole, hshape⟩ := h.shape
  obtain ⟨hgroups, hconditions⟩ := hshape.nodup_listed
  constructor
  case groups_once => exact hgroups
  case mem_groups => exact fun _ => hshape.mem_groupIds_iff
  case conditions_once => exact hconditions
  case mem_conditions => exact fun _ => hshape.mem_conditionIds_iff
  case blocks => exact fun _ hg => hshape.exists_block hg
  case group_by_group =>
    cases whole with
    | none => rw [hshape.listed_none.1, hshape.listed_none.2, List.flatMap_nil]
    | some s =>
      rw [hshape.groupIds_eq, hshape.conditionIds_eq, conditionIds_eq_flatMap hshape.stored]
  case values =>
    cases whole with
    | none =>
      rw [hshape.listed_none.1, hshape.rootGroup?_none]
      rfl
    | some s =>
      rw [hshape.groupIds_eq, hshape.rootGroup?_eq, hshape.map_toGroup? hshape.stored]
      rfl
  case payloads =>
    cases whole with
    | none =>
      rw [hshape.listed_none.2, hshape.rootGroup?_none]
      rfl
    | some s =>
      rw [hshape.conditionIds_eq, hshape.rootGroup?_eq, hshape.map_condition?]
      rfl

/-- A group is removed and one with another in it is added in its place, so that the handles are
listed out of the order of their slots. -/
theorem listings_aligned_reused_slot :
    let t := (ofGroup ⟨none, [.empty], [⟨some .or, [.empty], []⟩, .empty]⟩).run
      [.removeGroup ⟨⟨0, 0⟩⟩, .addGroup (.group ⟨⟨1, 0⟩⟩) (some ⟨some .and, [.empty], [.empty]⟩)]
    t.Reachable ∧ t.Aligned ∧ t.groupIds = [⟨⟨2, 0⟩⟩, ⟨⟨1, 0⟩⟩, ⟨⟨3, 1⟩⟩, ⟨⟨0, 1⟩⟩] ∧
      t.conditionIds = [⟨⟨0, 0⟩⟩, ⟨⟨1, 1⟩⟩] := by
  have hreached : ∀ es, ((ofGroup ⟨none, [.empty], [⟨some .or, [.empty], []⟩, .empty]⟩).run
      es).Reachable := fun es => ⟨_, es, .ofGroup _, rfl⟩
  exact ⟨hreached _, listings_aligned (hreached _), by decide, by decide⟩

end WhenClause.Tree
