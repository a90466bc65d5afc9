import WhenClause.Proofs.Tree.Stale

/-!
# Who holds what

A search below a group goes down the records and ends at the first that names what it looks for.
In a tree that a run comes to, no two records name the same, and no group is above itself; so a
search finds the one that does exactly if it starts at or above it. What is live is named by some
record at or below the root, or is the root, so a removal succeeds exactly for what is live.
-/

namespace WhenClause.Tree

/-- The second group is the first one or hangs from it, however far down. -/
def AtOrAbove (t : Tree) : GroupId → GroupId → Prop := Relation.ReflTransGen t.Nests

def Holds (t : Tree) (p : GroupId) (c : ConditionId) : Prop :=
  ∃ n, t.group? p = some n ∧ c ∈ n.items

def HoldsBelow (t : Tree) (g : GroupId) (c : ConditionId) : Prop :=
  ∃ p, t.AtOrAbove g p ∧ t.Holds p c

instance (t : Tree) (p g : GroupId) : Decidable (t.Nests p g) :=
  decidable_of_iff (∃ n ∈ t.group? p, g ∈ n.groups) Iff.rfl

instance (t : Tree) (p : GroupId) (c : ConditionId) : Decidable (t.Holds p c) :=
  decidable_of_iff (∃ n ∈ t.group? p, c ∈ n.items) Iff.rfl

variable {t : Tree} {whole : Option Subtree} {s : Subtree} {g p q start : GroupId}
  {c : ConditionId}

theorem Nests.containsGroup (h : t.Nests p g) : t.containsGroup p = true := by
  obtain ⟨n, hn, _⟩ := h
  exact containsGroup_iff.2 ⟨n, hn⟩

theorem Holds.containsGroup (h : t.Holds p c) : t.containsGroup p = true := by
  obtain ⟨n, hn, _⟩ := h
  exact containsGroup_iff.2 ⟨n, hn⟩

namespace SinglePath

theorem root_ne_of_nests (h : t.SinglePath) (hp : t.Nests p g) : t.root ≠ some g := by
  obtain ⟨n, hn, hg⟩ := hp
  exact fun hroot => h.root_unnamed g hroot p n hn hg

theorem nests_unique (h : t.SinglePath) (hp : t.Nests p g) (hq : t.Nests q g) : p = q := by
  have hroot := h.root_ne_of_nests hp
  obtain ⟨n, hn, hgn⟩ := hp
  obtain ⟨m, hm, hgm⟩ := hq
  have hlive := h.groups_live p n hn g hgn
  obtain ⟨_, _, _, _, honly⟩ := h.group_once g hlive hroot
  rw [honly p n hn hgn, honly q m hm hgm]

theorem holds_unique (h : t.SinglePath) (hp : t.Holds p c) (hq : t.Holds q c) : p = q := by
  obtain ⟨n, hn, hcn⟩ := hp
  obtain ⟨m, hm, hcm⟩ := hq
  obtain ⟨_, _, _, _, honly⟩ := h.condition_once c (h.items_live p n hn c hcn)
  rw [honly p n hn hcn, honly q m hm hcm]

theorem exists_nests (h : t.SinglePath) (hg : t.containsGroup g = true)
    (hroot : t.root ≠ some g) : ∃ p, t.Nests p g := by
  obtain ⟨p, n, hn, hcount, _⟩ := h.group_once g hg hroot
  exact ⟨p, n, hn, List.count_pos_iff.1 (hcount ▸ Nat.one_pos)⟩

theorem exists_holds (h : t.SinglePath) (hc : t.containsCondition c = true) :
    ∃ p, t.Holds p c := by
  obtain ⟨p, n, hn, hcount, _⟩ := h.condition_once c hc
  exact ⟨p, n, hn, List.count_pos_iff.1 (hcount ▸ Nat.one_pos)⟩

theorem atOrAbove_root (h : t.SinglePath) {r : GroupId} (hr : t.root = some r)
    (hg : t.containsGroup g = true) : t.AtOrAbove r g := by
  obtain ⟨r', hr', hreach⟩ := h.reached g hg
  cases hr.symm.trans hr'
  exact hreach

end SinglePath

theorem AtOrAbove.containsGroup (h : t.AtOrAbove g p) (hp : t.containsGroup p = true) :
    t.containsGroup g = true := by
  rcases h.cases_head with rfl | ⟨_, hnests, _⟩
  · exact hp
  · exact hnests.containsGroup

theorem mem_groupIds_iff_atOrAbove (h : s.StoredIn t) : g ∈ s.groupIds ↔ t.AtOrAbove s.id g := by
  constructor
  · exact Shape.reflTransGen h
  · intro habove
    induction habove with
    | refl => exact Subtree.id_mem_groupIds s
    | tail _ hnests ih =>
      obtain ⟨n, hn, hg⟩ := hnests
      obtain ⟨m, hm, hnode⟩ := h.exists_group? ih
      cases hn.symm.trans hm
      refine h.groupIds_perm.mem_iff.2 (List.mem_cons_of_mem _ ?_)
      exact List.mem_flatMap.2 ⟨_, hnode, hg⟩

theorem mem_conditionIds_iff_holdsBelow (h : s.StoredIn t) :
    c ∈ s.conditionIds ↔ t.HoldsBelow s.id c := by
  rw [Subtree.mem_conditionIds_iff]
  constructor
  · rintro ⟨⟨p, n⟩, hnode, hc⟩
    exact ⟨p, (mem_groupIds_iff_atOrAbove h).1 (Subtree.mem_groupIds_of_mem_nodes hnode), n,
      h.group?_eq hnode, hc⟩
  · rintro ⟨p, habove, n, hn, hc⟩
    obtain ⟨m, hm, hnode⟩ := h.exists_group? ((mem_groupIds_iff_atOrAbove h).2 habove)
    cases hn.symm.trans hm
    exact ⟨_, hnode, hc⟩

namespace Shape

theorem not_nests_of_atOrAbove (h : t.Shape whole) (habove : t.AtOrAbove g p) :
    ¬ t.Nests p g := by
  rintro ⟨n, hn, hg⟩
  have hlive := h.singlePath.groups_live p n hn g hg
  obtain ⟨s, rfl, hs, hnodup⟩ := h.exists_subtree hlive
  obtain ⟨m, hm, hnode⟩ := hs.exists_group? ((mem_groupIds_iff_atOrAbove hs).2 habove)
  cases hn.symm.trans hm
  exact (hs.nodup_named hnodup).1 (List.mem_flatMap.2 ⟨_, hnode, hg⟩)

theorem find?_holder {β : Type} [BEq β] [LawfulBEq β] (h : t.Shape whole)
    {held : GroupNode → List β} {b : β}
    (honly : ∀ p q n m, t.group? p = some n → b ∈ held n → t.group? q = some m → b ∈ held m →
      p = q) :
    ((t.subtree? start).bind fun s =>
      (s.nodes.find? fun n => (held n.2).contains b).map Prod.fst) = some p ↔
    t.containsGroup start = true ∧ t.AtOrAbove start p ∧ ∃ n, t.group? p = some n ∧ b ∈ held n := by
  cases hstart : t.containsGroup start with
  | false => simp [subtree?_eq_none hstart]
  | true =>
    obtain ⟨s, rfl, hs, hnodup⟩ := h.exists_subtree hstart
    rw [Tree.subtree?_eq hs hnodup, Option.bind_some]
    constructor
    · intro hfound
      obtain ⟨⟨_, n⟩, hfind, rfl⟩ := Option.map_eq_some_iff.1 hfound
      have hnode := List.mem_of_find?_eq_some hfind
      have hb : b ∈ held n := by simpa using List.find?_some hfind
      exact ⟨rfl, (mem_groupIds_iff_atOrAbove hs).1 (Subtree.mem_groupIds_of_mem_nodes hnode), n,
        hs.group?_eq hnode, hb⟩
    · rintro ⟨_, habove, n, hn, hb⟩
      obtain ⟨m, hm, hnode⟩ := hs.exists_group? ((mem_groupIds_iff_atOrAbove hs).2 habove)
      cases hn.symm.trans hm
      have hfind : (s.nodes.find? fun n => (held n.2).contains b).isSome :=
        List.find?_isSome.2 ⟨_, hnode, List.contains_iff_mem.2 hb⟩
      obtain ⟨⟨q, m⟩, hfind⟩ := Option.isSome_iff_exists.1 hfind
      have hbm : b ∈ held m := by simpa using List.find?_some hfind
      have hm := hs.group?_eq (List.mem_of_find?_eq_some hfind)
      rw [hfind, Option.map_some, honly q p m n hm hbm hn hb]

theorem parentOfCondition?_eq_some_iff (h : t.Shape whole) :
    t.parentOfCondition? c start = some p ↔
      t.containsGroup start = true ∧ t.AtOrAbove start p ∧ t.Holds p c :=
  h.find?_holder fun _ _ _ _ hn hcn hm hcm =>
    h.singlePath.holds_unique ⟨_, hn, hcn⟩ ⟨_, hm, hcm⟩

theorem parentOfGroup?_eq_some_iff (h : t.Shape whole) :
    t.parentOfGroup? g start = some p ↔
      t.containsGroup start = true ∧ t.AtOrAbove start p ∧ t.Nests p g :=
  h.find?_holder fun _ _ _ _ hn hgn hm hgm =>
    h.singlePath.nests_unique ⟨_, hn, hgn⟩ ⟨_, hm, hgm⟩

theorem parentOfGroup?_root (h : t.Shape whole) {r : GroupId} (hr : t.root = some r)
    (hp : t.Nests p g) : t.parentOfGroup? g r = some p :=
  h.parentOfGroup?_eq_some_iff.2 ⟨h.singlePath.root_live r hr,
    h.singlePath.atOrAbove_root hr hp.containsGroup, hp⟩

theorem parentOfCondition?_root (h : t.Shape whole) {r : GroupId} (hr : t.root = some r)
    (hp : t.Holds p c) : t.parentOfCondition? c r = some p :=
  h.parentOfCondition?_eq_some_iff.2 ⟨h.singlePath.root_live r hr,
    h.singlePath.atOrAbove_root hr hp.containsGroup, hp⟩

theorem removeGroup_of_nests (h : t.Shape whole) (hp : t.Nests p g) :
    t.removeGroup g = some ((t.modifyGroup p (·.eraseGroup g)).discard g) := by
  obtain ⟨r, hr, _⟩ := h.singlePath.reached p hp.containsGroup
  have hne : g ≠ r := by
    rintro rfl
    exact h.singlePath.root_ne_of_nests hp hr
  rw [Tree.removeGroup, hr, Option.bind_some, if_neg hne, h.parentOfGroup?_root hr hp,
    Option.map_some]

theorem removeCondition_of_holds (h : t.Shape whole) (hp : t.Holds p c) :
    t.removeCondition c = some { t.modifyGroup p (·.eraseItem c) with
      conditions := t.conditions.erase c.key } := by
  obtain ⟨r, hr, _⟩ := h.singlePath.reached p hp.containsGroup
  rw [Tree.removeCondition, hr, Option.bind_some, h.parentOfCondition?_root hr hp, Option.map_some]
  rfl

theorem isSome_removeGroup (h : t.Shape whole) (g : GroupId) :
    (t.removeGroup g).isSome = t.containsGroup g := by
  cases hg : t.containsGroup g with
  | false =>
    have hnone : t.removeGroup g = none := h.edit?_eq_none_of_group (e := .removeGroup g) hg rfl
    rw [hnone, Option.isSome_none]
  | true =>
    by_cases hroot : t.root = some g
    · rw [Tree.removeGroup, hroot, Option.bind_some, if_pos rfl, Option.isSome_some]
    · obtain ⟨p, hp⟩ := h.singlePath.exists_nests hg hroot
      rw [h.removeGroup_of_nests hp, Option.isSome_some]

theorem isSome_removeCondition (h : t.Shape whole) (c : ConditionId) :
    (t.removeCondition c).isSome = t.containsCondition c := by
  cases hc : t.containsCondition c with
  | false =>
    have hnone : t.removeCondition c = none :=
      h.edit?_eq_none_of_condition (e := .removeCondition c) hc rfl
    rw [hnone, Option.isSome_none]
  | true =>
    obtain ⟨p, hp⟩ := h.singlePath.exists_holds hc
    rw [h.removeCondition_of_holds hp, Option.isSome_some]

theorem exists_removeGroup (h : t.Shape whole) (hg : t.containsGroup g = true) :
    ∃ t', t.removeGroup g = some t' :=
  Option.isSome_iff_exists.1 ((h.isSome_removeGroup g).trans hg)

theorem exists_removeCondition (h : t.Shape whole) (hc : t.containsCondition c = true) :
    ∃ t', t.removeCondition c = some t' :=
  Option.isSome_iff_exists.1 ((h.isSome_removeCondition c).trans hc)

end Shape

theorem found_from {found : Option GroupId} {Held : GroupId → Prop}
    (hfound : ∀ q, found = some q ↔
      t.containsGroup start = true ∧ t.AtOrAbove start q ∧ Held q)
    (honly : ∀ q, Held q → q = p) (hp : Held p) (hlive : t.containsGroup p = true) :
    (t.AtOrAbove start p → found = some p) ∧ (¬ t.AtOrAbove start p → found = none) := by
  constructor
  · intro habove
    exact (hfound p).2 ⟨habove.containsGroup hlive, habove, hp⟩
  · intro habove
    apply Option.eq_none_iff_forall_ne_some.2
    intro q hq
    obtain ⟨_, habove', hheld⟩ := (hfound q).1 hq
    exact habove (honly q hheld ▸ habove')

/-- What searches for a parent find, and when removals succeed. -/
structure ExactParents (t : Tree) : Prop where
  condition : ∀ c start p, t.parentOfCondition? c start = some p ↔
    t.containsGroup start = true ∧ t.AtOrAbove start p ∧ t.Holds p c
  group : ∀ g start p, t.parentOfGroup? g start = some p ↔
    t.containsGroup start = true ∧ t.AtOrAbove start p ∧ t.Nests p g
  condition_unique : ∀ c p q, t.Holds p c → t.Holds q c → p = q
  group_unique : ∀ g p q, t.Nests p g → t.Nests q g → p = q
  condition_from : ∀ c p start, t.Holds p c →
    (t.AtOrAbove start p → t.parentOfCondition? c start = some p) ∧
      (¬ t.AtOrAbove start p → t.parentOfCondition? c start = none)
  group_from : ∀ g p start, t.Nests p g →
    (t.AtOrAbove start p → t.parentOfGroup? g start = some p) ∧
      (¬ t.AtOrAbove start p → t.parentOfGroup? g start = none)
  above_not_found : ∀ a start, t.AtOrAbove a start → t.parentOfGroup? a start = none
  removeGroup : ∀ g, (t.removeGroup g).isSome = t.containsGroup g
  removeCondition : ∀ c, (t.removeCondition c).isSome = t.containsCondition c

theorem parents_exact (h : t.Reachable) : t.ExactParents := by
  obtain ⟨_, hshape⟩ := h.shape
  have hpath := hshape.singlePath
  constructor
  case condition => exact fun _ _ _ => hshape.parentOfCondition?_eq_some_iff
  case group => exact fun _ _ _ => hshape.parentOfGroup?_eq_some_iff
  case condition_unique => exact fun _ _ _ => hpath.holds_unique
  case group_unique => exact fun _ _ _ => hpath.nests_unique
  case condition_from =>
    intro c p start hp
    exact found_from (fun _ => hshape.parentOfCondition?_eq_some_iff)
      (fun _ hq => hpath.holds_unique hq hp) hp hp.containsGroup
  case group_from =>
    intro g p start hp
    exact found_from (fun _ => hshape.parentOfGroup?_eq_some_iff)
      (fun _ hq => hpath.nests_unique hq hp) hp hp.containsGroup
  case above_not_found =>
    intro a start habove
    apply Option.eq_none_iff_forall_ne_some.2
    intro p hfound
    obtain ⟨_, habove', hp⟩ := hshape.parentOfGroup?_eq_some_iff.1 hfound
    exact hshape.not_nests_of_atOrAbove (habove.trans habove') hp
  case removeGroup => exact hshape.isSome_removeGroup
  case removeCondition => exact hshape.isSome_removeCondition

/-- A nested group is removed, and a group with another one in it is added in its slot. -/
theorem parents_exact_reused_slot :
    let t := (ofGroup ⟨none, [.empty], [⟨some .or, [.empty], []⟩]⟩).run
      [.removeGroup ⟨⟨0, 0⟩⟩, .addGroup (.group ⟨⟨1, 0⟩⟩) (some ⟨none, [.empty], [.empty]⟩)]
    t.Reachable ∧ t.ExactParents ∧
      t.parentOfGroup? ⟨⟨0, 1⟩⟩ ⟨⟨1, 0⟩⟩ = some ⟨⟨2, 1⟩⟩ ∧
      t.parentOfGroup? ⟨⟨0, 0⟩⟩ ⟨⟨1, 0⟩⟩ = none ∧
      t.parentOfCondition? ⟨⟨1, 1⟩⟩ ⟨⟨2, 1⟩⟩ = some ⟨⟨2, 1⟩⟩ := by
  have hreached : ∀ es, ((ofGroup ⟨none, [.empty], [⟨some .or, [.empty], []⟩]⟩).run
      es).Reachable := fun es => ⟨_, es, .ofGroup _, rfl⟩
  exact ⟨hreached _, parents_exact (hreached _), by decide, by decide, by decide⟩

end WhenClause.Tree
