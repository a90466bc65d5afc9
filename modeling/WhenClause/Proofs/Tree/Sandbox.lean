import WhenClause.Proofs.Tree.Pruning

/-!
# Work in a new group

As long as edits keep to what hangs from a group that was added, the rest of the tree is as it was
before, and what is not the rest hangs from that group. So the removal of the group takes away all
that was done since it was added, whatever it was.
-/

namespace WhenClause.Tree

/-- The edit acts on something at or below the group, and leaves the group there. -/
def Inside (t : Tree) (g : GroupId) : Edit → Prop
  | .toggle h | .addGroup (.group h) _ | .addCondition h _ => t.AtOrAbove g h
  | .removeGroup h => t.AtOrAbove g h ∧ h ≠ g
  | .removeCondition c | .updateCondition c _ => t.HoldsBelow g c
  | .ensureRoot | .addGroup .rule _ => False

def StaysInside (g : GroupId) : Tree → List Edit → Prop
  | _, [] => True
  | t, e :: es => t.Inside g e ∧ StaysInside g (t.edit e) es

/-- All of the one tree is in the other as it was, but that one group has one more group in it. -/
structure Attached (t t' : Tree) (p g : GroupId) : Prop where
  root : t'.root = t.root
  unused : t.containsGroup g = false
  parent : ∃ n, t.group? p = some n ∧ t'.group? p = some (n.addGroup g)
  group : ∀ h, h ≠ p → t.containsGroup h = true → t'.group? h = t.group? h
  condition : ∀ c, t.containsCondition c = true → t'.condition? c = t.condition? c

variable {t t' t'' : Tree} {whole whole' : Option Subtree} {p g x y : GroupId} {c : ConditionId}
  {e : Edit}

namespace Attached

theorem parent_live (h : t.Attached t' p g) : t.containsGroup p = true := by
  obtain ⟨n, hn, _⟩ := h.parent
  exact containsGroup_iff.2 ⟨n, hn⟩

theorem group_live (h : t.Attached t' p g) (hx : t.containsGroup x = true) :
    t'.containsGroup x = true := by
  by_cases hxp : x = p
  · obtain ⟨n, _, hn⟩ := h.parent
    exact containsGroup_iff.2 ⟨_, hxp ▸ hn⟩
  · obtain ⟨n, hn⟩ := containsGroup_iff.1 hx
    exact containsGroup_iff.2 ⟨n, (h.group x hxp hx).trans hn⟩

theorem condition_live (h : t.Attached t' p g) (hc : t.containsCondition c = true) :
    t'.containsCondition c = true := by
  obtain ⟨d, hd⟩ := containsCondition_iff.1 hc
  exact containsCondition_iff.2 ⟨d, (h.condition c hc).trans hd⟩

theorem nests (h : t.Attached t' p g) (hnests : t.Nests x y) : t'.Nests x y := by
  obtain ⟨n, hn, hy⟩ := hnests
  by_cases hx : x = p
  · subst hx
    obtain ⟨m, hm, hm'⟩ := h.parent
    cases hn.symm.trans hm
    exact ⟨_, hm', List.mem_append_left _ hy⟩
  · exact ⟨n, (h.group x hx (containsGroup_iff.2 ⟨n, hn⟩)).trans hn, hy⟩

theorem nests_or (h : t.Attached t' p g) (hx : t.containsGroup x = true)
    (hnests : t'.Nests x y) : t.Nests x y ∨ y = g := by
  obtain ⟨n', hn', hy⟩ := hnests
  by_cases hxp : x = p
  · subst hxp
    obtain ⟨n, hn, heq⟩ := h.parent
    cases hn'.symm.trans heq
    rcases List.mem_append.1 hy with hy | hy
    · exact .inl ⟨n, hn, hy⟩
    · exact .inr (List.mem_singleton.1 hy)
  · exact .inl ⟨n', (h.group x hxp hx).symm.trans hn', hy⟩

theorem holds_iff (h : t.Attached t' p g) (hx : t.containsGroup x = true) :
    t'.Holds x c ↔ t.Holds x c := by
  by_cases hxp : x = p
  · subst hxp
    obtain ⟨n, hn, hn'⟩ := h.parent
    simp [Holds, hn, hn', GroupNode.addGroup]
  · simp only [Holds, h.group x hxp hx]

section

variable (h : t.Attached t' p g) (hpath : t.SinglePath) (hpath' : t'.SinglePath)
include h hpath hpath'

theorem not_below (hx : t.containsGroup x = true) : ¬ t'.AtOrAbove g x := by
  intro habove
  induction habove with
  | refl => exact Bool.eq_false_iff.1 h.unused hx
  | @tail y x _ hnests ih =>
    have hroot : t.root ≠ some x := h.root ▸ hpath'.root_ne_of_nests hnests
    obtain ⟨z, hz⟩ := hpath.exists_nests hx hroot
    exact ih (hpath'.nests_unique (h.nests hz) hnests ▸ hz.containsGroup)

theorem before_or_below (hx : t'.containsGroup x = true) :
    t.containsGroup x = true ∨ t'.AtOrAbove g x := by
  obtain ⟨r, hr, hreach⟩ := hpath'.reached x hx
  clear hx
  induction hreach with
  | refl => exact .inl (hpath.root_live r (h.root.symm.trans hr))
  | @tail y x _ hnests ih =>
    rcases ih with hy | habove
    · rcases h.nests_or hy hnests with ⟨n, hn, hmem⟩ | rfl
      · exact .inl (hpath.groups_live y n hn x hmem)
      · exact .inr .refl
    · exact .inr (habove.tail hnests)

theorem not_below_condition (hc : t.containsCondition c = true) : ¬ t'.HoldsBelow g c := by
  rintro ⟨x, habove, hx⟩
  obtain ⟨y, hy⟩ := hpath.exists_holds hc
  have hxy := hpath'.holds_unique hx ((h.holds_iff hy.containsGroup).2 hy)
  exact h.not_below hpath hpath' (hxy ▸ hy.containsGroup) habove

theorem before_or_below_condition (hc : t'.containsCondition c = true) :
    t.containsCondition c = true ∨ t'.HoldsBelow g c := by
  obtain ⟨x, hx⟩ := hpath'.exists_holds hc
  rcases h.before_or_below hpath hpath' hx.containsGroup with hlive | habove
  · obtain ⟨n, hn, hcn⟩ := (h.holds_iff hlive).1 hx
    exact .inl (hpath.items_live x n hn c hcn)
  · exact .inr ⟨x, habove, hx⟩

theorem change {gone : GroupId → Prop} {goneItems : ConditionId → Prop} {new : List GroupId}
    {newItems : List ConditionId} (hturnover : t'.Turnover t'' gone goneItems new newItems)
    (hgone : ∀ x, gone x → t'.AtOrAbove g x) (hgoneItems : ∀ c, goneItems c → t'.HoldsBelow g c)
    {q : Option GroupId} {d : Option ConditionId} (hspares : t'.Spares t'' q d)
    (hq : ∀ x, q = some x → t'.AtOrAbove g x) (hd : ∀ c, d = some c → t'.HoldsBelow g c)
    (hroot : t''.root = t'.root) : t.Attached t'' p g := by
  have hgroup : ∀ x n, t.containsGroup x = true → t'.group? x = some n → t''.group? x = some n := by
    intro x n hx hn
    have hbelow := h.not_below hpath hpath' hx
    have hlive := containsGroup_iff.2 ⟨n, hn⟩
    have hlive' := (hturnover.group x).2 (.inl ⟨hlive, fun hx => hbelow (hgone x hx)⟩)
    rw [hspares.group x (fun heq => hbelow (hq x heq.symm)) hlive hlive', hn]
  constructor
  case root => exact hroot.trans h.root
  case unused => exact h.unused
  case parent =>
    obtain ⟨n, hn, hn'⟩ := h.parent
    exact ⟨n, hn, hgroup p _ h.parent_live hn'⟩
  case group =>
    intro x hne hx
    obtain ⟨n, hn⟩ := containsGroup_iff.1 hx
    rw [hgroup x n hx ((h.group x hne hx).trans hn), hn]
  case condition =>
    intro c hc
    have hbelow := h.not_below_condition hpath hpath' hc
    have hlive := h.condition_live hc
    have hlive' := (hturnover.condition c).2 (.inl ⟨hlive, fun hx => hbelow (hgoneItems c hx)⟩)
    rw [hspares.condition c (fun heq => hbelow (hd c heq.symm)) hlive hlive', h.condition c hc]

theorem rewrite {gone : GroupId → Prop} {goneItems : ConditionId → Prop} {new : List GroupId}
    {newItems : List ConditionId} (hturnover : t'.Turnover t'' gone goneItems new newItems)
    (hgone : ∀ x, gone x → t'.AtOrAbove g x) (hgoneItems : ∀ c, goneItems c → t'.HoldsBelow g c)
    {n n' : GroupNode} (hrewrites : t'.Rewrites t'' x n n') (hx : t'.AtOrAbove g x) :
    t.Attached t'' p g :=
  h.change hpath hpath' hturnover hgone hgoneItems hrewrites.rest
    (fun _ heq => Option.some.inj heq ▸ hx) nofun hrewrites.root

theorem containsGroup_pruned (hpruned : t'.Pruned [.group g] t'') (x : GroupId) :
    t''.containsGroup x = t.containsGroup x := by
  rw [Bool.eq_iff_iff, hpruned.group_live, taken_singleton]
  constructor
  · exact fun ⟨hx, hout⟩ => (h.before_or_below hpath hpath' hx).resolve_right hout
  · exact fun hx => ⟨h.group_live hx, h.not_below hpath hpath' hx⟩

theorem containsCondition_pruned (hpruned : t'.Pruned [.group g] t'') (c : ConditionId) :
    t''.containsCondition c = t.containsCondition c := by
  rw [Bool.eq_iff_iff, hpruned.condition_live, untaken_iff_not_holdsBelow]
  constructor
  · intro ⟨hc, _, hout⟩
    exact (h.before_or_below_condition hpath hpath' hc).resolve_right hout
  · exact fun hc => ⟨h.condition_live hc, by simp, h.not_below_condition hpath hpath' hc⟩

end

end Attached

/-! ## One edit, and a run -/

namespace Shape

theorem attached_addGroup (h : t.Shape whole) {template : Option Group}
    (he : t.addGroup (.group p) template = some (g, t')) : t.Attached t' p g := by
  obtain ⟨new, newItems, hturnover, hcopy, n, hrewrites⟩ := h.touches_addGroup he
  have hlive : ∀ x, t.containsGroup x = true → t'.containsGroup x = true := fun x hx =>
    (hturnover.group x).2 (.inl ⟨hx, not_false⟩)
  constructor
  case root => exact hrewrites.root
  case unused =>
    apply Bool.eq_false_iff.2
    intro hg
    exact hturnover.fresh_group g ((hcopy.mem_groups g).2 .refl) (.inl hg)
  case parent => exact ⟨n, hrewrites.before, hrewrites.after⟩
  case group =>
    intro x hne hx
    exact hrewrites.rest.group x (fun heq => hne (Option.some.inj heq)) hx (hlive x hx)
  case condition =>
    intro c hc
    have hlive := (hturnover.condition c).2 (.inl ⟨hc, not_false⟩)
    exact hrewrites.rest.condition c nofun hc hlive

theorem attached_removeGroup (h : t'.Shape whole') (hattached : t.Attached t' p g)
    (hpath : t.SinglePath) (habove : t'.AtOrAbove g x) (hne : x ≠ g)
    (he : t'.removeGroup x = some t'') : t.Attached t'' p g := by
  have hpath' := h.singlePath
  obtain ⟨q, habove', hnests⟩ := habove.cases_tail.resolve_left hne
  obtain ⟨hturnover, _⟩ := h.turnover_removeGroup he
  obtain ⟨q', n, left, right, hgroups, hrewrites⟩ :=
    h.rewrites_removeGroup he (hpath'.root_ne_of_nests hnests)
  have hnests' : t'.Nests q' x := ⟨n, hrewrites.before, by simp [hgroups]⟩
  refine hattached.rewrite hpath hpath' hturnover (fun y hy => habove.trans hy) ?_ hrewrites ?_
  · rintro c ⟨y, hy, hc⟩
    exact ⟨y, habove.trans hy, hc⟩
  · exact hpath'.nests_unique hnests hnests' ▸ habove'

theorem attached_edit? (h : t'.Shape whole') (hattached : t.Attached t' p g)
    (hpath : t.SinglePath) (hinside : t'.Inside g e) (he : t'.edit? e = some t'') :
    t.Attached t'' p g := by
  have hpath' := h.singlePath
  cases e with
  | ensureRoot => exact hinside.elim
  | toggle x =>
    obtain ⟨⟨_, _⟩, htoggle, rfl⟩ := Option.map_eq_some_iff.1 he
    obtain ⟨hturnover, n, _, hrewrites⟩ := h.touches_toggle htoggle
    exact hattached.rewrite hpath hpath' hturnover nofun nofun hrewrites hinside
  | addGroup parent template =>
    cases parent with
    | rule => exact hinside.elim
    | group x =>
      obtain ⟨⟨_, _⟩, hadd, rfl⟩ := Option.map_eq_some_iff.1 he
      obtain ⟨_, _, hturnover, _, n, hrewrites⟩ := h.touches_addGroup hadd
      exact hattached.rewrite hpath hpath' hturnover nofun nofun hrewrites hinside
  | removeGroup x => exact h.attached_removeGroup hattached hpath hinside.1 hinside.2 he
  | addCondition x template =>
    obtain ⟨⟨_, _⟩, hadd, rfl⟩ := Option.map_eq_some_iff.1 he
    obtain ⟨hturnover, _, n, hrewrites⟩ := h.touches_addCondition hadd
    exact hattached.rewrite hpath hpath' hturnover nofun nofun hrewrites hinside
  | removeCondition c =>
    obtain ⟨hturnover, q, n, left, right, hitems, hrewrites⟩ := h.touches_removeCondition he
    obtain ⟨y, habove, hy⟩ := hinside
    have hq : t'.Holds q c := ⟨n, hrewrites.before, by simp [hitems]⟩
    refine hattached.rewrite hpath hpath' hturnover nofun ?_ hrewrites ?_
    · rintro _ rfl
      exact ⟨y, habove, hy⟩
    · exact hpath'.holds_unique hy hq ▸ habove
  | updateCondition c f =>
    obtain ⟨hturnover, hroot, _, _, hspares⟩ := h.touches_updateCondition he
    exact hattached.change hpath hpath' hturnover nofun nofun hspares nofun
      (fun _ heq => Option.some.inj heq ▸ hinside) hroot

theorem attached_run (h : t'.Shape whole') (hattached : t.Attached t' p g) (hpath : t.SinglePath)
    {es : List Edit} (hinside : StaysInside g t' es) : t.Attached (t'.run es) p g := by
  induction es generalizing t' whole' with
  | nil => exact hattached
  | cons e es ih =>
    obtain ⟨hfirst, hrest⟩ := hinside
    obtain ⟨_, h'⟩ := h.edit e
    refine ih h' ?_ hrest
    cases he : t'.edit? e with
    | none => rwa [edit_of_none he]
    | some t'' =>
      rw [edit_of_some he]
      exact h.attached_edit? hattached hpath hfirst he

theorem exists_removeGroup_attached (h' : t'.Shape whole') (hattached : t.Attached t' p g) :
    ∃ t'', t'.removeGroup g = some t'' := by
  obtain ⟨n, _, hn⟩ := hattached.parent
  exact ⟨_, h'.removeGroup_of_nests ⟨_, hn, by simp [GroupNode.addGroup]⟩⟩

theorem same_removeGroup (h : t.Shape whole) (h' : t'.Shape whole') (hattached : t.Attached t' p g)
    (he : t'.removeGroup g = some t'') : t.Same t'' := by
  have hpath := h.singlePath
  have hpath' := h'.singlePath
  have hpruned := h'.pruned_removeGroup he
  have hkept : ∀ x n, t.group? x = some n → n.without [.group g] = n := by
    intro x n hn
    refine GroupNode.without_eq_self (by simp) fun y hy hlisted => ?_
    cases List.mem_singleton.1 hlisted
    exact Bool.eq_false_iff.1 hattached.unused (hpath.groups_live x n hn g hy)
  constructor
  case root =>
    rw [hpruned.root, filter_root, hattached.root]
    rintro r hr hlisted
    cases List.mem_singleton.1 hlisted
    exact Bool.eq_false_iff.1 hattached.unused (hpath.root_live g (hattached.root ▸ hr))
  case group =>
    intro x
    have hlive := hattached.containsGroup_pruned hpath hpath' hpruned x
    cases hx : t.containsGroup x with
    | false => rw [group?_eq_none hx, group?_eq_none (hlive.trans hx)]
    | true =>
      by_cases hxp : x = p
      · subst hxp
        obtain ⟨n, hn, hn'⟩ := hattached.parent
        have hrecord : (n.addGroup g).without [.group g] = n.without [.group g] := by
          simp [GroupNode.addGroup, GroupNode.without]
        rw [hpruned.group x _ (hlive.trans hx) hn', hrecord, hkept x n hn, hn]
      · obtain ⟨n, hn⟩ := Tree.containsGroup_iff.1 hx
        have hn' := (hattached.group x hxp hx).trans hn
        rw [hpruned.group x n (hlive.trans hx) hn', hkept x n hn, hn]
  case condition =>
    intro c
    have hlive := hattached.containsCondition_pruned hpath hpath' hpruned c
    cases hc : t.containsCondition c with
    | false => rw [condition?_eq_none hc, condition?_eq_none (hlive.trans hc)]
    | true => rw [hpruned.condition c (hlive.trans hc), hattached.condition c hc]

theorem not_live_of_issued (h : t.Shape whole) (es : List Edit) :
    (∀ x ∈ issuedAlong newGroups t es, t.containsGroup x = false) ∧
      ∀ c ∈ issuedAlong newConditions t es, t.containsCondition c = false := by
  constructor
  · intro x hx
    have hapart := (List.nodup_append.1 (issuedGroups_run h es).1).2.2
    exact Bool.eq_false_iff.2 fun hlive => hapart x (h.mem_groupIds_iff.2 hlive) x hx rfl
  · intro c hc
    have hapart := (List.nodup_append.1 (issuedConditions_run h es).1).2.2
    exact Bool.eq_false_iff.2 fun hlive => hapart c (h.mem_conditionIds_iff.2 hlive) c hc rfl

end Shape

/-- Whatever is done inside a group since it was added, its removal undoes. -/
theorem removal_undoes (h : t.Reachable) (hp : t.containsGroup p = true)
    (template : Option Group) :
    ∃ g t₁, t.addGroup (.group p) template = some (g, t₁) ∧
      ∀ es, StaysInside g t₁ es → ∃ t', (t₁.run es).removeGroup g = some t' ∧ t.Same t' ∧
        (t'.rootGroup? = t.rootGroup? ∧ t'.groupIds = t.groupIds ∧
          t'.conditionIds = t.conditionIds) ∧
        (∀ x ∈ issuedAlong newGroups t (.addGroup (.group p) template :: es), t'.StaleGroup x) ∧
        ∀ c ∈ issuedAlong newConditions t (.addGroup (.group p) template :: es),
          t'.StaleCondition c := by
  obtain ⟨_, hshape⟩ := h.shape
  obtain ⟨⟨g, t₁⟩, hadd⟩ : ∃ r, t.addGroup (.group p) template = some r := ⟨_, if_pos hp⟩
  refine ⟨g, t₁, hadd, fun es hinside => ?_⟩
  obtain ⟨_, h₁⟩ := hshape.edit? (e := .addGroup (.group p) template)
    (congrArg (Option.map Prod.snd) hadd)
  obtain ⟨_, h₂⟩ := h₁.run es
  have hattached := h₁.attached_run (hshape.attached_addGroup hadd) hshape.singlePath hinside
  obtain ⟨t', he⟩ := h₂.exists_removeGroup_attached hattached
  obtain ⟨_, h'⟩ := h₂.edit? (e := .removeGroup g) he
  have hsame := hshape.same_removeGroup h₂ hattached he
  obtain ⟨hgroups, hconditions⟩ :=
    hshape.not_live_of_issued (.addGroup (.group p) template :: es)
  refine ⟨t', he, hsame, hsame.listed hshape h', fun x hx => ?_, fun c hc => ?_⟩
  · exact h'.staleGroup ((hsame.containsGroup x).trans (hgroups x hx))
  · exact h'.staleCondition ((hsame.containsCondition c).trans (hconditions c hc))

/-- A group takes the slot of one that was removed. In it an operator is turned, and a group with
a condition in it comes and goes. -/
theorem removal_undoes_reused_slot :
    let t := (ofGroup ⟨none, [.empty], [⟨some .or, [.empty], []⟩, ⟨none, [], []⟩]⟩).run
      [.removeGroup ⟨⟨0, 0⟩⟩]
    let e : Edit := .addGroup (.group ⟨⟨1, 0⟩⟩) (some ⟨none, [.empty], []⟩)
    let es : List Edit := [.toggle ⟨⟨0, 1⟩⟩, .addGroup (.group ⟨⟨0, 1⟩⟩) none,
      .addCondition ⟨⟨3, 1⟩⟩ none, .removeCondition ⟨⟨1, 1⟩⟩, .removeGroup ⟨⟨3, 1⟩⟩]
    t.Reachable ∧ t.containsGroup ⟨⟨1, 0⟩⟩ = true ∧ StaysInside ⟨⟨0, 1⟩⟩ (t.edit e) es ∧
      ∃ t', ((t.edit e).run es).removeGroup ⟨⟨0, 1⟩⟩ = some t' ∧ t.Same t' := by
  intro t e es
  have hreached : t.Reachable := ⟨_, _, .ofGroup _, rfl⟩
  have hp : t.containsGroup ⟨⟨1, 0⟩⟩ = true := by decide
  have hinside : StaysInside ⟨⟨0, 1⟩⟩ (t.edit e) es :=
    ⟨.refl, .refl, .single (by decide), ⟨⟨⟨0, 1⟩⟩, .refl, by decide⟩,
      ⟨.single (by decide), by decide⟩, trivial⟩
  obtain ⟨_, _, hadd, hundo⟩ := removal_undoes hreached hp (some ⟨none, [.empty], []⟩)
  cases hadd
  obtain ⟨t', he, hsame, _⟩ := hundo es hinside
  exact ⟨hreached, hp, hinside, t', he, hsame⟩

end WhenClause.Tree
