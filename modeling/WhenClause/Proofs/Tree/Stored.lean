import Mathlib.Data.List.Nodup
import Mathlib.Data.List.Perm.Subperm
import WhenClause.Proofs.Tree.Lookup
import WhenClause.Proofs.Tree.Place

/-!
# Subtrees stored in a tree

A subtree is stored in a tree if each of its groups has its record there and every record names
the groups of its children, in order. Such a subtree is what the tree yields when the handles are
followed from its top group, and it stays stored as long as the records of its groups stay.
-/

namespace WhenClause

namespace Subtree

variable {t t' : Tree} {s s' : Subtree} {ctx : List Frame}

inductive StoredIn (t : Tree) : Subtree → Prop
  | node {id : GroupId} {record : GroupNode} {children : List Subtree}
      (found : t.group? id = some record) (names : record.groups = children.map Subtree.id)
      (below : ∀ s ∈ children, StoredIn t s) : StoredIn t (.node id record children)

theorem storedIn_node {id : GroupId} {record : GroupNode} {children : List Subtree} :
    (node id record children).StoredIn t ↔
      t.group? id = some record ∧ record.groups = children.map Subtree.id ∧
        ∀ s ∈ children, s.StoredIn t := by
  constructor
  · rintro ⟨found, names, below⟩
    exact ⟨found, names, below⟩
  · rintro ⟨found, names, below⟩
    exact .node found names below

theorem StoredIn.group?_eq (h : s.StoredIn t) {n : GroupId × GroupNode} (hn : n ∈ s.nodes) :
    t.group? n.1 = some n.2 := by
  induction h with
  | node found _ _ ih =>
    rcases mem_nodes_node.1 hn with rfl | ⟨child, hchild, hn⟩
    · exact found
    · exact ih child hchild hn

theorem StoredIn.exists_group? (h : s.StoredIn t) {g : GroupId} (hg : g ∈ s.groupIds) :
    ∃ n, t.group? g = some n ∧ (g, n) ∈ s.nodes := by
  obtain ⟨⟨_, n⟩, hn, rfl⟩ := List.mem_map.1 hg
  exact ⟨n, h.group?_eq hn, hn⟩

theorem StoredIn.congr (h : s.StoredIn t) (hsame : ∀ g ∈ s.groupIds, t'.group? g = t.group? g) :
    s.StoredIn t' := by
  induction h with
  | @node id record children found names _ ih =>
    rw [groupIds_node] at hsame
    refine .node ?_ names fun s hs => ih s hs fun g hg => ?_
    · rw [hsame id (List.mem_cons_self ..), found]
    · exact hsame g (List.mem_cons_of_mem _ (List.mem_flatMap.2 ⟨s, hs, hg⟩))

theorem length_nodes_pos (s : Subtree) : 0 < s.nodes.length := by
  cases s
  simp [nodes_node]

theorem length_nodes_lt {id : GroupId} {record : GroupNode} {children : List Subtree}
    (hs : s ∈ children) : s.nodes.length < (node id record children).nodes.length := by
  obtain ⟨left, right, rfl⟩ := List.append_of_mem hs
  simp only [nodes_node, List.length_cons, List.flatMap_append, List.flatMap_cons,
    List.length_append]
  omega

/-- What holds of a group if it holds of its children with room for one group less holds of every
subtree with room for as many groups as it has. -/
@[elab_as_elim]
theorem inductRoom {P : ∀ room (s : Subtree), s.nodes.length ≤ room → Prop}
    (node : ∀ room id record children hroom (hless : ∀ s ∈ children, s.nodes.length ≤ room),
      (∀ s (hs : s ∈ children), P room s (hless s hs)) →
        P (room + 1) (.node id record children) hroom)
    (room : Nat) (s : Subtree) (hroom : s.nodes.length ≤ room) : P room s hroom := by
  induction s using Subtree.induct generalizing room with
  | node id record children ih =>
    obtain _ | room := room
    · have hpos := length_nodes_pos (.node id record children)
      omega
    · have hless : ∀ s ∈ children, s.nodes.length ≤ room := by
        intro s hs
        have hlt : s.nodes.length < (Subtree.node id record children).nodes.length :=
          length_nodes_lt hs
        omega
      exact node room id record children hroom hless fun s hs => ih s hs room (hless s hs)

theorem StoredIn.subtreeWithin?_eq (h : s.StoredIn t) {depth : Nat}
    (hdepth : s.nodes.length ≤ depth) : t.subtreeWithin? depth s.id = some s := by
  induction depth, s, hdepth using inductRoom with
  | node depth id record children _ _ ih =>
    obtain ⟨found, names, below⟩ := storedIn_node.1 h
    have hchildren : record.groups.filterMap (t.subtreeWithin? depth) = children := by
      rw [names, List.filterMap_map]
      exact (List.filterMap_congr fun s hs => ih s hs (below s hs)).trans List.filterMap_some
    simp only [Tree.subtreeWithin?, Subtree.id, found, Option.map_some, hchildren]

theorem StoredIn.unique (h : s.StoredIn t) (h' : s'.StoredIn t) (hid : s.id = s'.id) : s = s' := by
  -- Both are what comes of following the handles deep enough for either of them.
  have hs := h.subtreeWithin?_eq (Nat.le_max_left s.nodes.length s'.nodes.length)
  have hs' := h'.subtreeWithin?_eq (Nat.le_max_right s.nodes.length s'.nodes.length)
  rw [hid] at hs
  exact Option.some.inj (hs.symm.trans hs')

theorem StoredIn.of_plug (h : (plug ctx s).StoredIn t) : s.StoredIn t := by
  induction ctx with
  | nil => exact h
  | cons f ctx ih =>
    obtain ⟨_, _, below⟩ := storedIn_node.1 h
    exact ih (below _ (List.mem_append_right _ (List.mem_cons_self ..)))

theorem StoredIn.plug_cons {f : Frame} (found : t'.group? f.id = some f.record)
    (names : f.record.groups = (f.left ++ plug ctx s :: f.right).map Subtree.id)
    (hid : s'.id = s.id) (hside : ∀ u, u ∈ f.left ∨ u ∈ f.right → u.StoredIn t')
    (hinner : (plug ctx s').StoredIn t') : (plug (f :: ctx) s').StoredIn t' := by
  refine .node found ?_ fun u hu => ?_
  · rw [names, List.map_append, List.map_append, List.map_cons, List.map_cons, id_plug ctx hid]
  · rcases List.mem_append.1 hu with hu | hu
    · exact hside u (.inl hu)
    rcases List.mem_cons.1 hu with rfl | hu
    · exact hinner
    · exact hside u (.inr hu)

theorem StoredIn.refill (h : (plug ctx s).StoredIn t) (hid : s'.id = s.id) (hs' : s'.StoredIn t')
    (hsame : ∀ n ∈ before ctx ++ after ctx, t'.group? n.1 = t.group? n.1) :
    (plug ctx s').StoredIn t' := by
  induction ctx with
  | nil => exact hs'
  | cons f ctx ih =>
    obtain ⟨found, names, below⟩ := storedIn_node.1 h
    obtain ⟨houter, hbeside, hinner⟩ := of_around_cons hsame
    have hside : ∀ u, u ∈ f.left ∨ u ∈ f.right → u.StoredIn t' := by
      intro u hu
      have hmem : u ∈ f.left ++ plug ctx s :: f.right := by rcases hu with hu | hu <;> simp [hu]
      apply StoredIn.congr (below u hmem)
      intro g hg
      obtain ⟨n, hn, rfl⟩ := List.mem_map.1 hg
      exact hbeside u hu n hn
    exact .plug_cons (houter.trans found) names hid hside (ih (below _ (by simp)) hinner)

theorem StoredIn.modifyGroup {p : GroupId} {n : GroupNode} {children children' : List Subtree}
    {f : GroupNode → GroupNode} (h : (plug ctx (.node p n children)).StoredIn t)
    (hnodup : (plug ctx (.node p n children)).groupIds.Nodup)
    (hchildren : ∀ s ∈ children', s.StoredIn t ∧ p ∉ s.groupIds)
    (hnames : (f n).groups = children'.map Subtree.id) :
    (plug ctx (.node p (f n) children')).StoredIn (t.modifyGroup p f) := by
  obtain ⟨found, _, _⟩ := storedIn_node.1 h.of_plug
  refine h.refill rfl (.node ?_ hnames fun s hs => ?_) fun m hm => ?_
  · rw [Tree.group?_modifyGroup, if_pos rfl, found, Option.map_some]
  · refine (hchildren s hs).1.congr fun g hg => Tree.group?_modifyGroup_of_ne ?_ f
    rintro rfl
    exact (hchildren s hs).2 hg
  · refine Tree.group?_modifyGroup_of_ne (ne_of_nodup_plug hnodup hm ?_) f
    exact id_mem_groupIds (.node p n children)

end Subtree

namespace Tree

open Subtree

variable {t : Tree} {s : Subtree}

theorem nodup_map_keys {α β : Type} {m : Slab α} {f : Slab.Key → β} (hf : f.Injective) :
    (m.keys.map f).Nodup :=
  Slab.nodup_keys.map hf

def storedGroups (t : Tree) : List GroupId := t.groups.keys.map .mk

def storedConditions (t : Tree) : List ConditionId := t.conditions.keys.map .mk

theorem nodup_storedGroups (t : Tree) : t.storedGroups.Nodup :=
  nodup_map_keys fun _ _ h => congrArg GroupId.key h

theorem nodup_storedConditions (t : Tree) : t.storedConditions.Nodup :=
  nodup_map_keys fun _ _ h => congrArg ConditionId.key h

theorem mem_storedGroups {g : GroupId} : g ∈ t.storedGroups ↔ t.containsGroup g = true := by
  obtain ⟨k⟩ := g
  simp [storedGroups, containsGroup, Slab.mem_keys]

theorem mem_storedConditions {c : ConditionId} :
    c ∈ t.storedConditions ↔ t.containsCondition c = true := by
  obtain ⟨k⟩ := c
  simp [storedConditions, containsCondition, Slab.mem_keys]

theorem length_storedGroups (t : Tree) : t.storedGroups.length = t.groupCount :=
  List.length_map ..

theorem length_storedConditions (t : Tree) : t.storedConditions.length = t.conditionCount :=
  List.length_map ..

theorem length_nodes_le (h : s.StoredIn t) (hnodup : s.groupIds.Nodup) :
    s.nodes.length ≤ t.groupCount := by
  have hsub : s.groupIds ⊆ t.storedGroups := by
    intro g hg
    obtain ⟨n, hn, _⟩ := h.exists_group? hg
    exact mem_storedGroups.2 (containsGroup_iff.2 ⟨n, hn⟩)
  have hle := (hnodup.subperm hsub).length_le
  rwa [length_storedGroups, Subtree.groupIds, List.length_map] at hle

/-- No stored subtree without repeated handles is deeper than handles are followed. -/
theorem subtree?_eq (h : s.StoredIn t) (hnodup : s.groupIds.Nodup) :
    t.subtree? s.id = some s :=
  h.subtreeWithin?_eq (length_nodes_le h hnodup)

end Tree

end WhenClause
