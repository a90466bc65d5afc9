import Mathlib.Data.List.Flatten
import WhenClause.Proofs.Tree.Descent
import WhenClause.Proofs.Tree.Parent

/-!
# Descents come to an end

In a tree that a run comes to, handles lead through a stored subtree. So there are never more groups
open at once than the tree has, no group is entered twice, and from a live group on every handle
leads to something that is still there, even while it is being released. Groups nested in a chain
take up all that room; more room makes no difference.
-/

namespace WhenClause.Descent

variable {α β : Type}

/-! ## From a stored subtree on -/

section

variable {t : Tree} {s : Subtree} {room : Nat}

theorem finds_search (hit : GroupNode → Bool) (hroom : s.nodes.length ≤ room)
    (h : s.StoredIn t) : Finds (search hit room s.id ()) t (fun n => hit n.2) s.nodes := by
  induction room, s, hroom using Subtree.inductRoom with
  | node room g n children _ _ ih =>
    obtain ⟨found, names, below⟩ := Subtree.storedIn_node.1 h
    rw [Finds, Subtree.nodes_node, List.find?_cons, upTo]
    cases hhit : hit n with
    | true =>
      refine ends_follow_found found ?_
      rw [if_pos hhit]
      exact ends_pure _ t
    | false =>
      refine ends_follow_found found ?_
      rw [if_neg (Bool.eq_false_iff.1 hhit), names]
      exact finds_findSomeM? fun s hs => ih s hs (below s hs)

theorem ends_copy (hroom : s.nodes.length ≤ room) (h : s.StoredIn t) :
    Ends (copy room s.id ()) t (some (s.toGroup t.condition?)) t (entries s) := by
  induction room, s, hroom using Subtree.inductRoom with
  | node room g n children _ _ ih =>
    obtain ⟨found, names, below⟩ := Subtree.storedIn_node.1 h
    have hgroups : (children.map fun s => some (s.toGroup t.condition?)).filterMap id =
        children.map (Subtree.toGroup t.condition?) := by
      rw [List.filterMap_map]
      exact congrFun List.filterMap_eq_map' children
    rw [entries_node, Subtree.toGroup_node, ← hgroups]
    refine ends_follow_found found ((ends_tree t).bind ?_)
    rw [names]
    exact (ends_mapM (f := (copy room · ())) fun s hs => ih s hs (below s hs)).map _

theorem ends_collect (hroom : s.nodes.length ≤ room) (h : s.StoredIn t) (out : List GroupId) :
    Ends (collect room s.id out) t (out ++ s.groupIds) t (entries s) := by
  induction room, s, hroom using Subtree.inductRoom generalizing out with
  | node room g n children _ _ ih =>
    obtain ⟨found, names, below⟩ := Subtree.storedIn_node.1 h
    -- When the turn of the children comes, the group itself is the last that has been collected.
    have hsplit : out ++ g :: children.flatMap Subtree.groupIds =
        out ++ [g] ++ children.flatMap Subtree.groupIds := List.append_cons ..
    rw [entries_node, Subtree.groupIds_node, hsplit]
    refine ends_follow_found found ?_
    rw [names]
    exact ends_foldlM (f := fun out child => collect room child out)
      (fun s hs out => ih s hs (below s hs) out) (out ++ [g])

theorem ends_draw (config : Config) (hroom : s.nodes.length ≤ room) (h : s.StoredIn t)
    (isRoot : Bool) :
    Ends (draw config room s.id isRoot) t (.ofSubtree config isRoot s) t (entries s) := by
  induction room, s, hroom using Subtree.inductRoom generalizing isRoot with
  | node room g n children _ _ ih =>
    obtain ⟨found, names, below⟩ := Subtree.storedIn_node.1 h
    rw [entries_node, GroupView.ofSubtree_node]
    refine ends_follow_found found ?_
    rw [names]
    exact (ends_mapM (f := (draw config room · false)) fun s hs =>
      ih s hs (below s hs) false).map _

end

/-! ## Releasing -/

structure Owned (t : Tree) (ss : List Subtree) : Prop where
  stored : ∀ s ∈ ss, s.StoredIn t
  nodup_groups : (ss.flatMap Subtree.groupIds).Nodup
  nodup_conditions : (ss.flatMap Subtree.conditionIds).Nodup
  live : ∀ c ∈ ss.flatMap Subtree.conditionIds, t.containsCondition c = true

section

variable {t : Tree} {s : Subtree} {ss : List Subtree} {g : GroupId} {n : GroupNode}
  {ss' : List Subtree} {room : Nat}

theorem Owned.foldl_discardNode {ns : List (GroupId × GroupNode)} (h : Owned t ss)
    (hgroups : ∀ g ∈ ns.map Prod.fst, g ∉ ss.flatMap Subtree.groupIds)
    (hconditions : ∀ c ∈ ns.flatMap (·.2.items), c ∉ ss.flatMap Subtree.conditionIds) :
    Owned (ns.foldl Tree.discardNode t) ss where
  stored s hs := by
    refine (h.stored s hs).congr fun g hg => ?_
    rw [Tree.group?_foldl_discardNode, if_neg fun hmem => ?_]
    exact hgroups g hmem (List.mem_flatMap.2 ⟨s, hs, hg⟩)
  nodup_groups := h.nodup_groups
  nodup_conditions := h.nodup_conditions
  live c hc := by
    obtain ⟨d, hd⟩ := Tree.containsCondition_iff.1 (h.live c hc)
    refine Tree.containsCondition_iff.2 ⟨d, ?_⟩
    rw [Tree.condition?_foldl_discardNode, if_neg fun hmem => hconditions c hmem hc, hd]

theorem Owned.sublist (h : Owned t ss) (hsub : ss'.Sublist ss) : Owned t ss' where
  stored s hs := h.stored s (hsub.subset hs)
  nodup_groups := h.nodup_groups.sublist (hsub.flatMap _)
  nodup_conditions := h.nodup_conditions.sublist (hsub.flatMap _)
  live c hc := h.live c ((hsub.flatMap _).subset hc)

theorem Owned.head (h : Owned t (s :: ss)) : Owned t [s] :=
  h.sublist (List.singleton_sublist.2 (List.mem_cons_self ..))

theorem Owned.tail (h : Owned t (s :: ss)) : Owned (s.nodes.foldl Tree.discardNode t) ss := by
  have hgroups := h.nodup_groups
  have hconditions := h.nodup_conditions
  rw [List.flatMap_cons] at hgroups hconditions
  refine (h.sublist (List.sublist_cons_self s ss)).foldl_discardNode (fun g hg hmem => ?_)
    fun c hc hmem => ?_
  · exact (List.nodup_append.1 hgroups).2.2 g hg g hmem rfl
  · exact (List.nodup_append.1 hconditions).2.2 c hc c hmem rfl

theorem Owned.below (h : Owned t [.node g n ss]) : Owned (t.discardNode (g, n)) ss := by
  obtain ⟨_, _, hstored⟩ := Subtree.storedIn_node.1 (h.stored _ (List.mem_singleton_self _))
  have hgroups := h.nodup_groups
  have hconditions := h.nodup_conditions
  have hlive := h.live
  rw [List.flatMap_singleton, Subtree.groupIds_node, List.nodup_cons] at hgroups
  rw [List.flatMap_singleton, Subtree.conditionIds_node] at hconditions hlive
  obtain ⟨_, hnodup, hapart⟩ := List.nodup_append.1 hconditions
  have hkept : Owned t ss :=
    ⟨hstored, hgroups.2, hnodup, fun c hc => hlive c (List.mem_append_right _ hc)⟩
  change Owned ([(g, n)].foldl Tree.discardNode t) ss
  refine hkept.foldl_discardNode (fun x hx => ?_) fun c hc hmem => ?_
  · obtain rfl := List.mem_singleton.1 hx
    exact hgroups.1
  · rw [List.flatMap_singleton] at hc
    exact hapart c hc c hmem rfl

theorem ends_releaseItem {c : ConditionId} (h : t.containsCondition c = true) :
    Ends (releaseItem c) t () { t with conditions := t.conditions.erase c.key } [] := by
  refine (ends_tree t).bind ?_
  rw [if_pos h]
  exact ends_become _ _

theorem ends_releaseItems {items : List ConditionId} (hnodup : items.Nodup)
    (hlive : ∀ c ∈ items, t.containsCondition c = true) :
    Ends (items.forM releaseItem) t ()
      { t with conditions := items.foldl (fun cs c => cs.erase c.key) t.conditions } [] := by
  induction items generalizing t with
  | nil => exact ends_pure () t
  | cons c items ih =>
    obtain ⟨hc, hitems⟩ := List.nodup_cons.1 hnodup
    obtain ⟨hlivec, hlive⟩ := List.forall_mem_cons.1 hlive
    refine (ends_releaseItem hlivec).bind_nil (ih hitems fun d hd => ?_)
    obtain ⟨x, hx⟩ := Tree.containsCondition_iff.1 (hlive d hd)
    refine Tree.containsCondition_iff.2 ⟨x, ?_⟩
    rw [Tree.condition?_eraseCondition, if_neg, hx]
    rintro rfl
    exact hc hd

theorem Owned.ends_releaseNode (h : Owned t [.node g n ss]) :
    Ends (releaseNode g n) t () (t.discardNode (g, n)) [] := by
  have hconditions := h.nodup_conditions
  have hlive := h.live
  rw [List.flatMap_singleton, Subtree.conditionIds_node] at hconditions hlive
  refine (ends_tree t).bind ((ends_become t _).bind (ends_releaseItems ?_ fun c hc => ?_))
  · exact (List.nodup_append.1 hconditions).1
  · exact hlive c (List.mem_append_left _ hc)

theorem ends_forM {f : GroupId → Descent Unit} (h : Owned t ss)
    (hf : ∀ s ∈ ss, ∀ t, Owned t [s] →
      Ends (f s.id) t () (s.nodes.foldl Tree.discardNode t) (entries s)) :
    Ends ((ss.map Subtree.id).forM f) t () ((ss.flatMap Subtree.nodes).foldl Tree.discardNode t)
      (ss.flatMap entries) := by
  induction ss generalizing t with
  | nil => exact ends_pure () t
  | cons s ss ih =>
    obtain ⟨hs, hss⟩ := List.forall_mem_cons.1 hf
    rw [List.flatMap_cons, List.foldl_append]
    exact (hs t h.head).bind (ih h.tail hss)

theorem ends_release (hroom : s.nodes.length ≤ room) (h : Owned t [s]) :
    Ends (release room s.id ()) t () (s.nodes.foldl Tree.discardNode t) (entries s) := by
  induction room, s, hroom using Subtree.inductRoom generalizing t with
  | node room g n children _ _ ih =>
    obtain ⟨found, names, _⟩ := Subtree.storedIn_node.1 (h.stored _ (List.mem_singleton_self _))
    rw [entries_node, Subtree.nodes_node, List.foldl_cons]
    refine ends_follow_found found ?_
    rw [names]
    -- The group is gone by now, and the children own all that they owned before.
    exact h.ends_releaseNode.bind
      (ends_forM (f := (release room · ())) h.below fun s hs t => ih s hs)

end

/-! ## From any handle on -/

/-- Started at `g`, it ends with this value and leaves the tree `t'`, if there is room for as many
open groups as the tree has. It enters each of these groups once and no other, and meets a handle
that leads nowhere only if that is `g` itself. -/
structure Settles (t : Tree) (g : GroupId) (m : Nat → Descent α) (a : α) (t' : Tree)
    (entered : List GroupId) : Prop where
  once : entered.Nodup
  live : ∀ x ∈ entered, t.containsGroup x = true
  below : ∀ x ∈ entered, t.AtOrAbove g x
  ends : ∀ room, t.groupCount ≤ room → Ends (m room) t a t'
    (entered.map .entered ++ if t.containsGroup g then [] else [.missedGroup g])

structure Descends (t : Tree) (g : GroupId) : Prop where
  findsCondition : ∀ c, ∃ entered, Settles t g (search (·.items.contains c) · g ())
    (t.parentOfCondition? c g) t entered
  findsGroup : ∀ x, ∃ entered, Settles t g (search (·.groups.contains x) · g ())
    (t.parentOfGroup? x g) t entered
  copies : Settles t g (copy · g ()) (t.toGroup? g) t (t.groupIdsBelow g)
  collects : ∀ out, Settles t g (collect · g out) (out ++ t.groupIdsBelow g) t (t.groupIdsBelow g)
  draws : ∀ config isRoot, Settles t g (draw config · g isRoot)
    (((t.subtree? g).map (.ofSubtree config isRoot)).getD (.ofRecord config isRoot g .empty []))
    t (t.groupIdsBelow g)
  releases : Settles t g (release · g ()) () (t.discard g) (t.groupIdsBelow g)

section

variable {t t' : Tree} {whole : Option Subtree} {s : Subtree} {g : GroupId} {a : α}
  {m : Nat → Descent α} {entered : List GroupId}

theorem settles_live (hs : s.StoredIn t) (hnodup : s.groupIds.Nodup)
    (hentered : entered.Sublist s.groupIds)
    (h : ∀ room, s.nodes.length ≤ room → Ends (m room) t a t' (entered.map .entered)) :
    Settles t s.id m a t' entered where
  once := hnodup.sublist hentered
  live x hx := by
    obtain ⟨n, hn, _⟩ := hs.exists_group? (hentered.subset hx)
    exact Tree.containsGroup_iff.2 ⟨n, hn⟩
  below x hx := (Tree.mem_groupIds_iff_atOrAbove hs).1 (hentered.subset hx)
  ends room hroom := by
    obtain ⟨n, hn, _⟩ := hs.exists_group? (Subtree.id_mem_groupIds s)
    rw [if_pos (Tree.containsGroup_iff.2 ⟨n, hn⟩), List.append_nil]
    exact h room (Nat.le_trans (Tree.length_nodes_le hs hnodup) hroom)

theorem settles_stale {gone : GroupId → β → α}
    {body : (GroupId → β → Descent α) → GroupId → GroupNode → β → Descent α}
    (hg : t.containsGroup g = false) (b : β) :
    Settles t g (follow gone body · g b) (gone g b) t [] where
  once := List.nodup_nil
  live := List.forall_mem_nil _
  below := List.forall_mem_nil _
  ends room _ := by
    rw [if_neg (Bool.eq_false_iff.1 hg)]
    exact ends_follow_gone (Tree.group?_eq_none hg) room b

theorem owned_of_place {ctx : List Subtree.Frame} (h : t.Shape (some (Subtree.plug ctx s))) :
    Owned t [s] where
  stored _ hs := by
    obtain rfl := List.mem_singleton.1 hs
    exact h.stored.of_plug
  nodup_groups := by
    rw [List.flatMap_singleton]
    exact Subtree.nodup_of_nodup_plug h.nodup_groupIds
  nodup_conditions := by
    have hnodup := h.nodup_conditionIds
    rw [Subtree.conditionIds_plug] at hnodup
    rw [List.flatMap_singleton]
    exact (List.nodup_append.1 (List.nodup_append.1 hnodup).1).2.1
  live c hc := by
    rw [List.flatMap_singleton] at hc
    rw [h.containsCondition_iff_mem, Subtree.conditionIds_plug]
    exact List.mem_append_left _ (List.mem_append_right _ hc)

theorem settles_search {hit : GroupNode → Bool} (hs : s.StoredIn t) (hnodup : s.groupIds.Nodup) :
    Settles t s.id (search hit · s.id ()) ((s.nodes.find? fun n => hit n.2).map Prod.fst) t
      ((upTo (fun n => hit n.2) s.nodes).map Prod.fst) :=
  settles_live hs hnodup ((upTo_sublist _ _).map Prod.fst) fun _ hroom =>
    finds_search hit hroom hs

theorem descends_live (h : t.Shape whole) (hg : t.containsGroup g = true) : Descends t g := by
  obtain ⟨n, hn⟩ := Tree.containsGroup_iff.1 hg
  obtain ⟨ctx, children, rfl⟩ := h.exists_place hn
  -- That nothing is shared matters only to releasing, the others leave the tree as it is.
  have howned : Owned t [.node g n children] := owned_of_place h
  have hs : (Subtree.node g n children).StoredIn t := h.stored.of_plug
  have hnodup : (Subtree.node g n children).groupIds.Nodup :=
    Subtree.nodup_of_nodup_plug h.nodup_groupIds
  have hsubtree : t.subtree? g = some (.node g n children) := Tree.subtree?_eq hs hnodup
  have hbelow : t.groupIdsBelow g = (Subtree.node g n children).groupIds := by
    rw [Tree.groupIdsBelow, hsubtree]
    rfl
  constructor
  case findsCondition =>
    intro c
    rw [Tree.parentOfCondition?, hsubtree]
    exact ⟨_, settles_search hs hnodup⟩
  case findsGroup =>
    intro x
    rw [Tree.parentOfGroup?, hsubtree]
    exact ⟨_, settles_search hs hnodup⟩
  case copies =>
    rw [Tree.toGroup?, hsubtree, hbelow]
    exact settles_live hs hnodup (.refl _) fun _ hroom => ends_copy hroom hs
  case collects =>
    intro out
    rw [hbelow]
    exact settles_live hs hnodup (.refl _) fun _ hroom => ends_collect hroom hs out
  case draws =>
    intro config isRoot
    rw [hsubtree, hbelow]
    exact settles_live hs hnodup (.refl _) fun _ hroom => ends_draw config hroom hs isRoot
  case releases =>
    rw [Tree.discard, hsubtree, hbelow]
    exact settles_live hs hnodup (.refl _) fun _ hroom => ends_release hroom howned

theorem descends_stale (hg : t.containsGroup g = false) : Descends t g := by
  have hsubtree := Tree.subtree?_eq_none hg
  have hbelow : t.groupIdsBelow g = [] := by
    rw [Tree.groupIdsBelow, hsubtree]
    rfl
  constructor
  case findsCondition =>
    intro c
    rw [Tree.parentOfCondition?, hsubtree]
    exact ⟨[], settles_stale hg ()⟩
  case findsGroup =>
    intro x
    rw [Tree.parentOfGroup?, hsubtree]
    exact ⟨[], settles_stale hg ()⟩
  case copies =>
    rw [Tree.toGroup?, hsubtree, hbelow]
    exact settles_stale hg ()
  case collects =>
    intro out
    rw [hbelow, List.append_nil]
    exact settles_stale hg out
  case draws =>
    intro config isRoot
    rw [hsubtree, hbelow]
    exact settles_stale hg isRoot
  case releases =>
    rw [Tree.discard, hsubtree, hbelow]
    exact settles_stale hg ()

end

/-- Whatever the handle, issued or not, live or stale. -/
theorem descends_of_reachable {t : Tree} (h : t.Reachable) (g : GroupId) : Descends t g := by
  obtain ⟨_, hshape⟩ := h.shape
  cases hg : t.containsGroup g with
  | true => exact descends_live hshape hg
  | false => exact descends_stale hg

/-- Four groups, each nested in the one before, where removed ones have left their slots to others.
With room for three the listing does not come to its end. -/
theorem descends_of_reachable_chain :
    let t := (Tree.ofGroup ⟨none, [.empty], [⟨some .or, [.empty], []⟩, .empty]⟩).run
      [.removeGroup ⟨⟨0, 0⟩⟩, .addGroup (.group ⟨⟨1, 0⟩⟩) (some ⟨some .and, [.empty], [.empty]⟩)]
    t.Reachable ∧ Descends t ⟨⟨1, 0⟩⟩ ∧ Descends t ⟨⟨0, 0⟩⟩ ∧
      t.groupCount = 4 ∧ (collect 4 ⟨⟨2, 0⟩⟩ [] ⟨t, []⟩).isSome = true ∧
      (collect 3 ⟨⟨2, 0⟩⟩ [] ⟨t, []⟩).isSome = false ∧
      (release 4 ⟨⟨1, 0⟩⟩ () ⟨t, []⟩).map (·.2.steps) =
        some [.entered ⟨⟨1, 0⟩⟩, .entered ⟨⟨3, 1⟩⟩, .entered ⟨⟨0, 1⟩⟩] ∧
      (release 4 ⟨⟨0, 0⟩⟩ () ⟨t, []⟩).map (·.2.steps) = some [.missedGroup ⟨⟨0, 0⟩⟩] := by
  have hreached : ∀ es, ((Tree.ofGroup ⟨none, [.empty], [⟨some .or, [.empty], []⟩, .empty]⟩).run
      es).Reachable := fun es => ⟨_, es, .ofGroup _, rfl⟩
  exact ⟨hreached _, descends_of_reachable (hreached _) _, descends_of_reachable (hreached _) _,
    by decide, by decide, by decide, by decide, by decide⟩

end WhenClause.Descent
