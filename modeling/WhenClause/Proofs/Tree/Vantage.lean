import WhenClause.Proofs.Tree.SinglePath

/-!
# Edits seen from any group

The plain value read off at a group of the tree is a nested value, and an edit of the tree is an
edit of that value. Seen from a group above the one whose record the edit changes, the value
changes in that place alone; seen from any other group that is still there, it does not change.
-/

namespace WhenClause

namespace Group

def modifyAt : List Nat → (Group → Group) → Group → Group
  | [], f, g => f g
  | i :: path, f, g => { g with groups := g.groups.modify i (modifyAt path f) }

end Group

theorem modify_append_cons {α : Type} (left : List α) (a : α) (right : List α) (f : α → α) :
    (left ++ a :: right).modify left.length f = left ++ f a :: right := by
  induction left with
  | nil => rfl
  | cons b left ih => exact congrArg (b :: ·) ih

theorem eraseIdx_append_cons {α : Type} (left : List α) (a : α) (right : List α) :
    (left ++ a :: right).eraseIdx left.length = left ++ right := by
  rw [List.eraseIdx_append_of_length_le (Nat.le_refl _), Nat.sub_self, List.eraseIdx_cons_zero]

namespace Subtree

variable {t : Tree} {s s' : Subtree} {ctx : List Frame} {p : GroupId}
  {payload payload' : ConditionId → Option Condition}

theorem toGroup_plug {f : Group → Group} (hvalue : s'.toGroup payload' = f (s.toGroup payload))
    (hsame : ∀ n ∈ before ctx ++ after ctx, ∀ c ∈ n.2.items, payload' c = payload c) :
    (plug ctx s').toGroup payload' = ((plug ctx s).toGroup payload).modifyAt (path ctx) f := by
  induction ctx with
  | nil => exact hvalue
  | cons frame ctx ih =>
    obtain ⟨houter, hbeside, hinner⟩ := of_around_cons hsame
    have hside : ∀ u, u ∈ frame.left ∨ u ∈ frame.right →
        u.toGroup payload' = u.toGroup payload := by
      intro u hu
      apply toGroup_congr
      intro c hc
      obtain ⟨n, hn, hc⟩ := mem_conditionIds_iff.1 hc
      exact hbeside u hu n hn c hc
    have hitems : frame.record.items.filterMap payload' = frame.record.items.filterMap payload :=
      List.filterMap_congr houter
    have hleft : frame.left.map (toGroup payload') = frame.left.map (toGroup payload) :=
      List.map_congr_left fun u hu => hside u (.inl hu)
    have hright : frame.right.map (toGroup payload') = frame.right.map (toGroup payload) :=
      List.map_congr_left fun u hu => hside u (.inr hu)
    have hlength : frame.left.length = (frame.left.map (toGroup payload)).length := by simp
    simp only [plug, path, List.map_cons, toGroup_node, List.map_append, Group.modifyAt, hitems,
      hleft, hright, ih hinner]
    rw [hlength, modify_append_cons]

end Subtree

namespace Tree

open Subtree (plug path before after Frame)

def follow? (t : Tree) : GroupId → List Nat → Option GroupId
  | g, [] => some g
  | g, i :: path => (t.group? g).bind fun n => n.groups[i]?.bind fun h => t.follow? h path

/-- The edit from one tree to the other is the change `f` to the group `p`, as seen from every
group that is there before and after. -/
structure EditedAt (t t' : Tree) (p : GroupId) (f : Group → Group) : Prop where
  inside : ∀ h path, t.containsGroup h = true → t'.containsGroup h = true →
    t.follow? h path = some p →
      ∃ x, t.toGroup? h = some x ∧ t'.toGroup? h = some (x.modifyAt path f)
  outside : ∀ h, t.containsGroup h = true → t'.containsGroup h = true →
    (∀ path, t.follow? h path ≠ some p) → t'.toGroup? h = t.toGroup? h

variable {t t' : Tree} {whole whole' : Option Subtree} {s s' : Subtree} {ctx : List Frame}
  {p : GroupId} {n : GroupNode}

theorem exists_plug_of_follow? (h : s.StoredIn t) {steps : List Nat}
    (hp : t.follow? s.id steps = some p) :
    ∃ ctx u, s = plug ctx u ∧ path ctx = steps ∧ u.id = p := by
  induction steps generalizing s with
  | nil => exact ⟨[], s, rfl, rfl, Option.some.inj hp⟩
  | cons i steps ih =>
    obtain ⟨id, record, children⟩ := s
    obtain ⟨found, names, below⟩ := Subtree.storedIn_node.1 h
    obtain ⟨m, hm, hp⟩ := Option.bind_eq_some_iff.1 hp
    obtain rfl : record = m := Option.some.inj (found.symm.trans hm)
    obtain ⟨g, hg, hp⟩ := Option.bind_eq_some_iff.1 hp
    rw [names, List.getElem?_map] at hg
    obtain ⟨child, hchild, rfl⟩ := Option.map_eq_some_iff.1 hg
    obtain ⟨hlt, rfl⟩ := List.getElem?_eq_some_iff.1 hchild
    obtain ⟨ctx, u, heq, hpath, hu⟩ := ih (below _ (List.getElem_mem hlt)) hp
    refine ⟨⟨id, record, children.take i, children.drop (i + 1)⟩ :: ctx, u, ?_, ?_, hu⟩
    · simp only [plug, ← heq]
      rw [← List.drop_eq_getElem_cons hlt, List.take_append_drop]
    · simp only [path, List.map_cons, List.length_take, Nat.min_eq_left (Nat.le_of_lt hlt)]
      exact congrArg (i :: ·) hpath

theorem follow?_path (h : (plug ctx s).StoredIn t) :
    t.follow? (plug ctx s).id (path ctx) = some s.id := by
  induction ctx with
  | nil => rfl
  | cons frame ctx ih =>
    obtain ⟨found, names, below⟩ := Subtree.storedIn_node.1 h
    have hnext : frame.record.groups[frame.left.length]? = some (plug ctx s).id := by
      simp [names]
    simp only [path, List.map_cons, follow?, plug, Subtree.id, found, Option.bind_some, hnext]
    exact ih (below _ (by simp))

/-- Two trees in which nothing held by both differs but for one group and its own conditions. -/
structure SameBut (t t' : Tree) (p : GroupId) : Prop where
  group : ∀ g, g ≠ p → t.containsGroup g = true → t'.containsGroup g = true →
    t'.group? g = t.group? g
  condition : ∀ g m, g ≠ p → t.group? g = some m → ∀ c ∈ m.items,
    t'.containsCondition c = true → t'.condition? c = t.condition? c

structure Spares (t t' : Tree) (p : Option GroupId) (c : Option ConditionId) : Prop where
  group : ∀ g, some g ≠ p → t.containsGroup g = true → t'.containsGroup g = true →
    t'.group? g = t.group? g
  condition : ∀ d, some d ≠ c → t.containsCondition d = true → t'.containsCondition d = true →
    t'.condition? d = t.condition? d

theorem Extends.spares_modifyGroup (h : t.Extends t') (p : GroupId) (f : GroupNode → GroupNode) :
    t.Spares (t'.modifyGroup p f) (some p) none where
  group g hne hg _ := by
    rw [group?_modifyGroup_of_ne fun heq => hne (congrArg some heq), h.group g hg]
  condition d _ hd _ := h.condition d hd

theorem spares_discard (t : Tree) (p g : GroupId) (f : GroupNode → GroupNode) :
    t.Spares ((t.modifyGroup p f).discard g) (some p) none where
  group x hne _ hx := by
    rw [group?_discard_of_live hx, group?_modifyGroup_of_ne fun heq => hne (congrArg some heq)]
  condition d _ _ hd := condition?_discard_of_live hd

theorem spares_eraseCondition (t : Tree) (p : GroupId) (f : GroupNode → GroupNode)
    (c : ConditionId) :
    t.Spares { t.modifyGroup p f with conditions := t.conditions.erase c.key } (some p) none where
  group g hne _ _ := group?_modifyGroup_of_ne (fun heq => hne (congrArg some heq)) f
  condition d _ _ hd := by
    have herased := condition?_eraseCondition (t := t) c d
    obtain ⟨_, hd⟩ := containsCondition_iff.1 hd
    by_cases hdc : d = c
    · rw [if_pos hdc] at herased
      cases herased.symm.trans hd
    · rwa [if_neg hdc] at herased

theorem spares_modifyCondition (t : Tree) (c : ConditionId) (f : Condition → Condition) :
    t.Spares { t with conditions := t.conditions.modify c.key f } none (some c) where
  group _ _ _ _ := rfl
  condition d hne _ _ := by
    rw [condition?_modifyCondition, if_neg fun heq => hne (congrArg some heq)]

theorem Spares.sameBut (hspares : t.Spares t' (some p) none) (h : t.Shape whole) :
    t.SameBut t' p where
  group g hne := hspares.group g fun heq => hne (Option.some.inj heq)
  condition g m _ hg c hc := hspares.condition c nofun (h.singlePath.items_live g m hg c hc)

theorem child_mem {record : GroupNode} {children : List Subtree} {child : Subtree}
    (names : record.groups = children.map Subtree.id) (hchild : child ∈ children) :
    child.id ∈ record.groups :=
  names ▸ List.mem_map_of_mem hchild

theorem SameBut.stored (hsame : t.SameBut t' p) (hpath : t'.SinglePath) (h : s.StoredIn t)
    (hlive : t'.containsGroup s.id = true) (hp : p ∉ s.groupIds) : s.StoredIn t' := by
  induction h with
  | @node id record children found names _ ih =>
    rw [Subtree.groupIds_node] at hp
    have hne : id ≠ p := fun heq => hp (heq ▸ List.mem_cons_self ..)
    -- The record here is the same, and whatever a record of the later tree names is in store there.
    have found' : t'.group? id = some record :=
      (hsame.group id hne (containsGroup_iff.2 ⟨_, found⟩) hlive).trans found
    refine .node found' names fun child hchild => ?_
    apply ih child hchild (hpath.groups_live _ _ found' _ (child_mem names hchild))
    intro hmem
    exact hp (List.mem_cons_of_mem _ (List.mem_flatMap.2 ⟨child, hchild, hmem⟩))

theorem SameBut.stored_plug (hsame : t.SameBut t' p) (hpath : t'.SinglePath)
    (h : (plug ctx s).StoredIn t) (hnodup : (plug ctx s).groupIds.Nodup) (hid : s.id = p)
    (hid' : s'.id = p) (hs' : s'.StoredIn t')
    (hlive : t'.containsGroup (plug ctx s).id = true) : (plug ctx s').StoredIn t' := by
  induction ctx with
  | nil => exact hs'
  | cons frame ctx ih =>
    obtain ⟨found, names, below⟩ := Subtree.storedIn_node.1 h
    have hp : p ∈ (plug ctx s).groupIds := by
      rw [Subtree.groupIds_plug]
      simp [← hid, Subtree.id_mem_groupIds s]
    obtain ⟨hne, hbeside, hinner⟩ := Subtree.not_mem_beside_of_nodup_plug hnodup hp
    have found' : t'.group? frame.id = some frame.record :=
      (hsame.group _ hne (containsGroup_iff.2 ⟨_, found⟩) hlive).trans found
    have hchild : ∀ child ∈ frame.left ++ plug ctx s :: frame.right,
        t'.containsGroup child.id = true := fun child hchild =>
      hpath.groups_live _ _ found' _ (child_mem names hchild)
    have hside : ∀ u, u ∈ frame.left ∨ u ∈ frame.right → u.StoredIn t' := by
      intro u hu
      have hmem : u ∈ frame.left ++ plug ctx s :: frame.right := by
        rcases hu with hu | hu <;> simp [hu]
      exact hsame.stored hpath (below u hmem) (hchild u hmem) (hbeside u hu)
    have hmiddle : plug ctx s ∈ frame.left ++ plug ctx s :: frame.right := by simp
    have hfilled := ih (below _ hmiddle) hinner (hchild _ hmiddle)
    exact .plug_cons found' names (hid'.trans hid.symm) hside hfilled

theorem Shape.exists_subtree (h : t.Shape whole) {g : GroupId} (hg : t.containsGroup g = true) :
    ∃ s : Subtree, s.id = g ∧ s.StoredIn t ∧ s.groupIds.Nodup := by
  obtain ⟨n, hn⟩ := Tree.containsGroup_iff.1 hg
  obtain ⟨ctx, children, rfl⟩ := h.exists_place hn
  exact ⟨.node g n children, rfl, h.stored.of_plug, Subtree.nodup_of_nodup_plug h.nodup_groupIds⟩

theorem Shape.toGroup?_eq (h : t.Shape whole) (hs : s.StoredIn t) :
    t.toGroup? s.id = some (s.toGroup t.condition?) := by
  obtain ⟨m, hm, _⟩ := hs.exists_group? (Subtree.id_mem_groupIds s)
  obtain ⟨u, hid, hu, hnodup⟩ := h.exists_subtree (Tree.containsGroup_iff.2 ⟨m, hm⟩)
  obtain rfl := hs.unique hu hid.symm
  rw [toGroup?, Tree.subtree?_eq hs hnodup, Option.map_some]

theorem SameBut.condition_eq (hsame : t.SameBut t' p) (hpath : t'.SinglePath)
    {m : GroupId × GroupNode} (hne : m.1 ≠ p) (hm : t.group? m.1 = some m.2)
    (hm' : t'.group? m.1 = some m.2) : ∀ c ∈ m.2.items, t'.condition? c = t.condition? c :=
  fun c hc => hsame.condition m.1 m.2 hne hm c hc (hpath.items_live m.1 m.2 hm' c hc)

theorem SameBut.toGroup_eq (hsame : t.SameBut t' p) (hpath : t'.SinglePath) (h : s.StoredIn t)
    (h' : s.StoredIn t') (hp : p ∉ s.groupIds) :
    s.toGroup t'.condition? = s.toGroup t.condition? := by
  apply Subtree.toGroup_congr
  intro c hc
  obtain ⟨m, hm, hc⟩ := Subtree.mem_conditionIds_iff.1 hc
  have hne : m.1 ≠ p := by
    rintro rfl
    exact hp (Subtree.mem_groupIds_of_mem_nodes hm)
  exact hsame.condition_eq hpath hne (h.group?_eq hm) (h'.group?_eq hm) c hc

theorem SameBut.editedAt {f : Group → Group} (hsame : t.SameBut t' p) (h : t.Shape whole)
    (h' : t'.Shape whole') (hs : s.StoredIn t) (hs' : s'.StoredIn t') (hid : s.id = p)
    (hid' : s'.id = p) (hvalue : s'.toGroup t'.condition? = f (s.toGroup t.condition?)) :
    t.EditedAt t' p f := by
  have hpath := h'.singlePath
  constructor
  case inside =>
    intro g steps hg hg' hfollow
    obtain ⟨u, rfl, hu, hnodup⟩ := h.exists_subtree hg
    obtain ⟨ctx, v, rfl, rfl, hv⟩ := exists_plug_of_follow? hu hfollow
    obtain rfl := hs.unique hu.of_plug (hid.trans hv.symm)
    have hu' := hsame.stored_plug hpath hu hnodup hid hid' hs' hg'
    have hpayload : ∀ m ∈ before ctx ++ after ctx, ∀ c ∈ m.2.items,
        t'.condition? c = t.condition? c := by
      intro m hm
      have hmem : ∀ w : Subtree, m ∈ (plug ctx w).nodes := fun w => by
        rw [Subtree.nodes_plug, List.append_assoc]
        rcases List.mem_append.1 hm with hm | hm
        · exact List.mem_append_left _ hm
        · exact List.mem_append_right _ (List.mem_append_right _ hm)
      have hne : m.1 ≠ p :=
        hid ▸ Subtree.ne_of_nodup_plug hnodup hm (Subtree.id_mem_groupIds s)
      exact hsame.condition_eq hpath hne (hu.group?_eq (hmem s)) (hu'.group?_eq (hmem s'))
    refine ⟨_, h.toGroup?_eq hu, ?_⟩
    rw [← Subtree.id_plug ctx (hid'.trans hid.symm), h'.toGroup?_eq hu',
      Subtree.toGroup_plug hvalue hpayload]
  case outside =>
    intro g hg hg' hfollow
    obtain ⟨u, rfl, hu, _⟩ := h.exists_subtree hg
    have hp : p ∉ u.groupIds := by
      intro hmem
      obtain ⟨m, _, hnode⟩ := hu.exists_group? hmem
      obtain ⟨ctx, children, rfl⟩ := Subtree.exists_plug_of_mem_nodes hnode
      exact hfollow _ (follow?_path hu)
    have hu' := hsame.stored hpath hu hg' hp
    rw [h.toGroup?_eq hu, h'.toGroup?_eq hu', hsame.toGroup_eq hpath hu hu' hp]

end Tree

end WhenClause
