import WhenClause.Proofs.Tree.Stale

/-!
# Issued handles

An edit that adds a group issues a handle for it and for every node of the copy below it. A handle
is live after the edit that issues it and neither live nor expired before, so no handle is issued
twice. Once it is not live any more it is stale, and stays so.
-/

namespace WhenClause

namespace Tree

open Subtree (plug)

def groupIdsBelow (t : Tree) (g : GroupId) : List GroupId :=
  ((t.subtree? g).map Subtree.groupIds).getD []

def conditionIdsBelow (t : Tree) (g : GroupId) : List ConditionId :=
  ((t.subtree? g).map Subtree.conditionIds).getD []

def newGroups (t : Tree) : Edit → List GroupId
  | .ensureRoot => if t.root.isNone then [t.ensureRoot.1] else []
  | .addGroup parent template =>
    match t.addGroup parent template with
    | some (g, t') => t'.groupIdsBelow g
    | none => []
  | _ => []

def newConditions (t : Tree) : Edit → List ConditionId
  | .addGroup parent template =>
    match t.addGroup parent template with
    | some (g, t') => t'.conditionIdsBelow g
    | none => []
  | .addCondition parent template =>
    match t.addCondition parent template with
    | some (c, _) => [c]
    | none => []
  | _ => []

def issuedAlong {α : Type} (issue : Tree → Edit → List α) : Tree → List Edit → List α
  | _, [] => []
  | t, e :: es => issue t e ++ issuedAlong issue (t.edit e) es

def issuedGroups (t : Tree) (es : List Edit) : List GroupId :=
  t.groupIds ++ issuedAlong newGroups t es

def issuedConditions (t : Tree) (es : List Edit) : List ConditionId :=
  t.conditionIds ++ issuedAlong newConditions t es

variable {t t' : Tree} {whole : Option Subtree} {g : GroupId} {c : ConditionId} {e : Edit}

/-! ## One edit -/

structure Added (t t' : Tree) (s : Subtree) : Prop where
  subtree : t'.subtree? s.id = some s
  nodup_groups : s.groupIds.Nodup
  nodup_conditions : s.conditionIds.Nodup
  group : ∀ g ∈ s.groupIds, t.containsGroup g = false ∧ t'.containsGroup g = true
  condition : ∀ c ∈ s.conditionIds, t.containsCondition c = false ∧ t'.containsCondition c = true
  only_group : ∀ g, t'.containsGroup g = true → t.containsGroup g = true ∨ g ∈ s.groupIds
  only_condition : ∀ c, t'.containsCondition c = true →
    t.containsCondition c = true ∨ c ∈ s.conditionIds

namespace Shape

theorem added_rule (h : t.Shape whole) {template : Option Group}
    (he : t.addGroup .rule template = some (g, t')) : ∃ s, s.id = g ∧ t.Added t' s := by
  obtain ⟨s, t'', heq, h', _⟩ := h.addGroup_rule template
  cases he.symm.trans heq
  refine ⟨s, rfl, ?_⟩
  constructor
  case subtree => exact h'.subtree?_eq
  case nodup_groups => exact h'.nodup_groupIds
  case nodup_conditions => exact h'.nodup_conditionIds
  case group =>
    intro g hg
    have hlive := h'.containsGroup_iff_mem.2 hg
    refine ⟨Bool.eq_false_iff.2 fun hold => ?_, hlive⟩
    exact Bool.eq_false_iff.1 (h.containsGroup_addGroup_rule he hold) hlive
  case condition =>
    intro c hc
    have hlive := h'.containsCondition_iff_mem.2 hc
    refine ⟨Bool.eq_false_iff.2 fun hold => ?_, hlive⟩
    exact Bool.eq_false_iff.1 (h.containsCondition_addGroup_rule he hold) hlive
  case only_group => exact fun g hg => .inr (h'.containsGroup_iff_mem.1 hg)
  case only_condition => exact fun c hc => .inr (h'.containsCondition_iff_mem.1 hc)

theorem added_group (h : t.Shape whole) {p : GroupId} {template : Option Group}
    (he : t.addGroup (.group p) template = some (g, t')) : ∃ s, s.id = g ∧ t.Added t' s := by
  obtain ⟨ctx, n, children, s, rfl, rfl, _, h', _⟩ := h.addGroup_group he
  obtain ⟨_, _, below⟩ := h'.place
  have hgroups := Subtree.groupIds_plug_perm ctx p n (n.addGroup s.id) (.refl (children ++ [s]))
  have hconditions := Subtree.conditionIds_plug_perm ctx p n (n.addGroup s.id)
    (Subtree.flatMap_conditionIds_perm (.refl (children ++ [s])) n.items)
  obtain ⟨_, hnew, hapart⟩ := List.nodup_append.1 (hgroups.nodup_iff.1 h'.nodup_groupIds)
  obtain ⟨_, hnew', hapart'⟩ := List.nodup_append.1 (hconditions.nodup_iff.1 h'.nodup_conditionIds)
  have hgroup : ∀ g, t'.containsGroup g = true ↔ t.containsGroup g = true ∨ g ∈ s.groupIds := by
    intro g
    rw [h'.containsGroup_iff_mem, h.containsGroup_iff_mem, hgroups.mem_iff, List.mem_append]
  have hcondition : ∀ c, t'.containsCondition c = true ↔
      t.containsCondition c = true ∨ c ∈ s.conditionIds := by
    intro c
    rw [h'.containsCondition_iff_mem, h.containsCondition_iff_mem, hconditions.mem_iff,
      List.mem_append]
  refine ⟨s, rfl, ?_⟩
  constructor
  case subtree => exact Tree.subtree?_eq (below s (by simp)) hnew
  case nodup_groups => exact hnew
  case nodup_conditions => exact hnew'
  case group =>
    intro g hg
    refine ⟨Bool.eq_false_iff.2 fun hold => ?_, (hgroup g).2 (.inr hg)⟩
    exact hapart g (h.containsGroup_iff_mem.1 hold) g hg rfl
  case condition =>
    intro c hc
    refine ⟨Bool.eq_false_iff.2 fun hold => ?_, (hcondition c).2 (.inr hc)⟩
    exact hapart' c (h.containsCondition_iff_mem.1 hold) c hc rfl
  case only_group => exact fun g => (hgroup g).1
  case only_condition => exact fun c => (hcondition c).1

theorem added (h : t.Shape whole) {parent : Parent} {template : Option Group}
    (he : t.addGroup parent template = some (g, t')) : ∃ s, s.id = g ∧ t.Added t' s := by
  cases parent with
  | rule => exact h.added_rule he
  | group p => exact h.added_group he

theorem exists_added (h : t.Shape whole) (parent : Parent) (template : Option Group) :
    t.addGroup parent template = none ∨ ∃ s, t.Added (t.edit (.addGroup parent template)) s ∧
      t.newGroups (.addGroup parent template) = s.groupIds ∧
      t.newConditions (.addGroup parent template) = s.conditionIds := by
  cases he : t.addGroup parent template with
  | none => exact .inl rfl
  | some result =>
    obtain ⟨g, t'⟩ := result
    obtain ⟨s, rfl, hadded⟩ := h.added he
    have hedit : t.edit (.addGroup parent template) = t' :=
      edit_of_some (congrArg (Option.map Prod.snd) he)
    refine .inr ⟨s, hedit ▸ hadded, ?_, ?_⟩
    · simp only [newGroups, he, groupIdsBelow, hadded.subtree, Option.map_some, Option.getD_some]
    · simp only [newConditions, he, conditionIdsBelow, hadded.subtree, Option.map_some,
        Option.getD_some]

theorem edit_ensureRoot (h : t.Shape whole) :
    (whole = none ∧ t.newGroups .ensureRoot = [t.ensureRoot.1] ∧
      (t.edit .ensureRoot).Shape (some (.node t.ensureRoot.1 .empty []))) ∨
    t.newGroups .ensureRoot = [] ∧ t.edit .ensureRoot = t := by
  cases whole with
  | none => exact .inl ⟨rfl, by simp [newGroups, h.root], h.ensureRoot_none⟩
  | some s =>
    refine .inr ⟨by simp [newGroups, h.root], ?_⟩
    exact congrArg Prod.snd h.ensureRoot_some

theorem live_of_mem_newGroups (h : t.Shape whole) (hg : g ∈ t.newGroups e) :
    t.containsGroup g = false ∧ (t.edit e).containsGroup g = true := by
  cases e with
  | ensureRoot =>
    rcases h.edit_ensureRoot with ⟨rfl, hnew, h'⟩ | ⟨hnew, _⟩
    · obtain rfl : g = t.ensureRoot.1 := by simpa [hnew] using hg
      exact ⟨h.containsGroup_none _, h'.containsGroup_iff_mem.2 (Subtree.id_mem_groupIds _)⟩
    · simp [hnew] at hg
  | addGroup parent template =>
    rcases h.exists_added parent template with hnone | ⟨s, hadded, hnew, _⟩
    · simp [newGroups, hnone] at hg
    · exact hadded.group g (hnew ▸ hg)
  | toggle | removeGroup | addCondition | removeCondition | updateCondition => cases hg

theorem live_of_mem_newConditions (h : t.Shape whole) (hc : c ∈ t.newConditions e) :
    t.containsCondition c = false ∧ (t.edit e).containsCondition c = true := by
  cases e with
  | addGroup parent template =>
    rcases h.exists_added parent template with hnone | ⟨s, hadded, _, hnew⟩
    · simp [newConditions, hnone] at hc
    · exact hadded.condition c (hnew ▸ hc)
  | addCondition p template =>
    cases he : t.addCondition p template with
    | none => simp [newConditions, he] at hc
    | some result =>
      obtain ⟨d, t'⟩ := result
      obtain rfl : c = d := by simpa [newConditions, he] using hc
      obtain ⟨_, _, _, _, hfresh, _, hnew, _⟩ := h.addCondition he
      rw [edit_of_some (e := .addCondition p template) (congrArg (Option.map Prod.snd) he)]
      refine ⟨Bool.eq_false_iff.2 fun hold => ?_, Tree.containsCondition_iff.2 ⟨_, hnew⟩⟩
      obtain ⟨_, hold⟩ := Tree.containsCondition_iff.1 hold
      cases hfresh.symm.trans hold
  | ensureRoot | toggle | removeGroup | removeCondition | updateCondition => cases hc

theorem nodup_newGroups (h : t.Shape whole) (e : Edit) : (t.newGroups e).Nodup := by
  cases e with
  | ensureRoot =>
    rcases h.edit_ensureRoot with ⟨_, hnew, _⟩ | ⟨hnew, _⟩
    · exact hnew ▸ List.nodup_singleton _
    · exact hnew ▸ List.nodup_nil
  | addGroup parent template =>
    rcases h.exists_added parent template with hnone | ⟨s, hadded, hnew, _⟩
    · simp [newGroups, hnone]
    · exact hnew ▸ hadded.nodup_groups
  | toggle | removeGroup | addCondition | removeCondition | updateCondition => exact List.nodup_nil

theorem nodup_newConditions (h : t.Shape whole) (e : Edit) : (t.newConditions e).Nodup := by
  cases e with
  | addGroup parent template =>
    rcases h.exists_added parent template with hnone | ⟨s, hadded, _, hnew⟩
    · simp [newConditions, hnone]
    · exact hnew ▸ hadded.nodup_conditions
  | addCondition p template =>
    simp only [newConditions]
    split
    · exact List.nodup_singleton _
    · exact List.nodup_nil
  | ensureRoot | toggle | removeGroup | removeCondition | updateCondition => exact List.nodup_nil

end Shape

structure Fewer (t t' : Tree) : Prop where
  group : ∀ g, t'.containsGroup g = true → t.containsGroup g = true
  condition : ∀ c, t'.containsCondition c = true → t.containsCondition c = true

theorem Fewer.trans {t'' : Tree} (h : t.Fewer t') (h' : t'.Fewer t'') : t.Fewer t'' :=
  ⟨fun g hg => h.group g (h'.group g hg), fun c hc => h.condition c (h'.condition c hc)⟩

theorem fewer_modifyGroup (t : Tree) (p : GroupId) (f : GroupNode → GroupNode) :
    t.Fewer (t.modifyGroup p f) :=
  ⟨fun g hg => containsGroup_modifyGroup p g f ▸ hg, fun _ hc => hc⟩

theorem fewer_discard (t : Tree) (g : GroupId) : t.Fewer (t.discard g) where
  group x hx := by
    rw [containsGroup_iff, ← group?_discard_of_live hx, ← containsGroup_iff]
    exact hx
  condition c hc := by
    rw [containsCondition_iff, ← condition?_discard_of_live hc, ← containsCondition_iff]
    exact hc

theorem fewer_discardRoot (t : Tree) : t.Fewer t.discardRoot := by
  unfold discardRoot
  split
  · exact ⟨(fewer_discard t _).group, (fewer_discard t _).condition⟩
  · exact ⟨fun _ h => h, fun _ h => h⟩

theorem fewer_eraseCondition (t : Tree) (c : ConditionId) :
    t.Fewer { t with conditions := t.conditions.erase c.key } where
  group _ hg := hg
  condition d hd := by
    obtain ⟨x, hx⟩ := containsCondition_iff.1 hd
    rw [condition?_eraseCondition] at hx
    exact containsCondition_iff.2 ⟨x, (Option.ite_none_left_eq_some.1 hx).2⟩

theorem fewer_modifyCondition (t : Tree) (c : ConditionId) (f : Condition → Condition) :
    t.Fewer { t with conditions := t.conditions.modify c.key f } :=
  ⟨fun _ hg => hg, fun d hd => containsCondition_modifyCondition c d f ▸ hd⟩

structure Issues (t : Tree) (e : Edit) : Prop where
  group : ∀ g, (t.edit e).containsGroup g = true → t.containsGroup g = true ∨ g ∈ t.newGroups e
  condition : ∀ c, (t.edit e).containsCondition c = true →
    t.containsCondition c = true ∨ c ∈ t.newConditions e

theorem Fewer.issues (h : t.Fewer (t.edit e)) : t.Issues e :=
  ⟨fun g hg => .inl (h.group g hg), fun c hc => .inl (h.condition c hc)⟩

theorem Shape.issues (h : t.Shape whole) (e : Edit) : t.Issues e := by
  cases he : t.edit? e with
  | none =>
    refine Fewer.issues ?_
    rw [edit_of_none he]
    exact ⟨fun _ h => h, fun _ h => h⟩
  | some t' =>
    have hedit := edit_of_some he
    cases e with
    | ensureRoot =>
      rcases h.edit_ensureRoot with ⟨_, hnew, h'⟩ | ⟨_, hedit⟩
      · refine ⟨fun g hg => .inr ?_, fun c hc => .inl ?_⟩
        · have hmem := h'.containsGroup_iff_mem.1 hg
          simpa [hnew, Subtree.groupIds_node] using hmem
        · have hmem := h'.containsCondition_iff_mem.1 hc
          simp [Subtree.conditionIds_node, GroupNode.empty] at hmem
      · refine Fewer.issues ?_
        rw [hedit]
        exact ⟨fun _ h => h, fun _ h => h⟩
    | addGroup parent template =>
      rcases h.exists_added parent template with hnone | ⟨s, hadded, hgroups, hconditions⟩
      · simp [Tree.edit?, hnone] at he
      · exact ⟨fun g hg => hgroups ▸ hadded.only_group g hg,
          fun c hc => hconditions ▸ hadded.only_condition c hc⟩
    | addCondition p template =>
      obtain ⟨⟨c, _⟩, hadd, rfl⟩ := Option.map_eq_some_iff.1 he
      have hnew : t.newConditions (.addCondition p template) = [c] := by
        simp only [newConditions, hadd]
      obtain ⟨_, hc, heq⟩ := addCondition_eq_some hadd
      rw [heq] at hedit
      constructor
      case group =>
        intro g hg
        rw [hedit, containsGroup_modifyGroup] at hg
        exact .inl hg
      case condition =>
        intro d hd
        rw [hedit] at hd
        obtain ⟨x, hx⟩ := Tree.containsCondition_iff.1 hd
        rw [condition?_modifyGroup, condition?_insertCondition] at hx
        split at hx
        · rename_i hd
          exact .inr (by rw [hnew, hc, hd]; exact List.mem_singleton_self _)
        · exact .inl (Tree.containsCondition_iff.2 ⟨x, hx⟩)
    | toggle g =>
      obtain ⟨_, htoggle, rfl⟩ := Option.map_eq_some_iff.1 he
      obtain ⟨_, _, _, heq⟩ := toggle_eq_some htoggle
      exact Fewer.issues (hedit ▸ heq ▸ fewer_modifyGroup t g _)
    | removeGroup g =>
      apply Fewer.issues
      rw [hedit]
      rcases removeGroup_eq_some he with ⟨_, rfl⟩ | ⟨_, p, _, _, _, rfl⟩
      · exact fewer_discardRoot t
      · exact (fewer_modifyGroup t p _).trans (fewer_discard _ g)
    | removeCondition c =>
      apply Fewer.issues
      rw [hedit]
      obtain ⟨_, p, _, _, rfl⟩ := removeCondition_eq_some he
      exact (fewer_modifyGroup t p _).trans (fewer_eraseCondition _ c)
    | updateCondition c f =>
      apply Fewer.issues
      rw [hedit]
      obtain ⟨_, rfl⟩ := updateCondition_eq_some he
      exact fewer_modifyCondition t c f

/-! ## A run -/

/-- What an edit issues it issues once, and never what was known before. -/
structure Fresh {α : Type} (issue : Tree → Edit → List α) (Known : Tree → α → Prop) : Prop where
  nodup : ∀ t whole, Shape t whole → ∀ e, (issue t e).Nodup
  unknown : ∀ t whole, Shape t whole → ∀ e, ∀ a ∈ issue t e, ¬ Known t a
  known : ∀ t whole, Shape t whole → ∀ e, ∀ a ∈ issue t e, Known (t.edit e) a
  keeps : ∀ t e a, Known t a → Known (t.edit e) a

theorem Fresh.run {α : Type} {issue : Tree → Edit → List α} {Known : Tree → α → Prop}
    (hfresh : Fresh issue Known) (h : t.Shape whole) {start : List α} (hnodup : start.Nodup)
    (hstart : ∀ a ∈ start, Known t a) (es : List Edit) :
    (start ++ issuedAlong issue t es).Nodup ∧
      ∀ a ∈ start ++ issuedAlong issue t es, Known (t.run es) a := by
  -- What the first edit issues counts as known to the rest of the run.
  induction es generalizing t whole start with
  | nil =>
    rw [issuedAlong, List.append_nil]
    exact ⟨hnodup, hstart⟩
  | cons e es ih =>
    obtain ⟨_, h'⟩ := h.edit e
    rw [issuedAlong, ← List.append_assoc]
    apply ih h'
    · refine List.nodup_append.2 ⟨hnodup, hfresh.nodup t whole h e, ?_⟩
      rintro a ha _ hnew rfl
      exact hfresh.unknown t whole h e a hnew (hstart a ha)
    · intro a ha
      rcases List.mem_append.1 ha with ha | ha
      · exact hfresh.keeps t e a (hstart a ha)
      · exact hfresh.known t whole h e a ha

theorem fresh_groups : Fresh newGroups fun t g => t.groups.Known g.key where
  nodup _ _ h e := h.nodup_newGroups e
  unknown t _ h e g hg := by
    obtain ⟨hbefore, hafter⟩ := h.live_of_mem_newGroups hg
    exact (later_edit t e).groups.not_known hbefore hafter
  known _ _ h _ _ hg := .inl (h.live_of_mem_newGroups hg).2
  keeps t e _ h := h.later (later_edit t e).groups

theorem fresh_conditions : Fresh newConditions fun t c => t.conditions.Known c.key where
  nodup _ _ h e := h.nodup_newConditions e
  unknown t _ h e c hc := by
    obtain ⟨hbefore, hafter⟩ := h.live_of_mem_newConditions hc
    exact (later_edit t e).conditions.not_known hbefore hafter
  known _ _ h _ _ hc := .inl (h.live_of_mem_newConditions hc).2
  keeps t e _ h := h.later (later_edit t e).conditions

theorem Shape.mem_groupIds_iff (h : t.Shape whole) :
    g ∈ t.groupIds ↔ t.containsGroup g = true := by
  cases whole with
  | none => simp [h.listed_none, h.containsGroup_none]
  | some s => rw [h.groupIds_eq, h.containsGroup_iff_mem]

theorem Shape.mem_conditionIds_iff (h : t.Shape whole) :
    c ∈ t.conditionIds ↔ t.containsCondition c = true := by
  cases whole with
  | none => simp [h.listed_none, h.containsCondition_none]
  | some s => rw [h.conditionIds_eq, h.containsCondition_iff_mem]

theorem Shape.nodup_listed (h : t.Shape whole) : t.groupIds.Nodup ∧ t.conditionIds.Nodup := by
  cases whole with
  | none => simp [h.listed_none]
  | some s =>
    rw [h.groupIds_eq, h.conditionIds_eq]
    exact ⟨h.nodup_groupIds, h.nodup_conditionIds⟩

theorem issuedGroups_run (h : t.Shape whole) (es : List Edit) :
    (t.issuedGroups es).Nodup ∧ ∀ g ∈ t.issuedGroups es, (t.run es).groups.Known g.key :=
  fresh_groups.run h h.nodup_listed.1 (fun _ hg => .inl (h.mem_groupIds_iff.1 hg)) es

theorem issuedConditions_run (h : t.Shape whole) (es : List Edit) :
    (t.issuedConditions es).Nodup ∧
      ∀ c ∈ t.issuedConditions es, (t.run es).conditions.Known c.key :=
  fresh_conditions.run h h.nodup_listed.2 (fun _ hc => .inl (h.mem_conditionIds_iff.1 hc)) es

theorem mem_issuedAlong {α : Type} {issue : Tree → Edit → List α} (Live : Tree → α → Prop)
    (hstep : ∀ t whole, Shape t whole → ∀ e a, Live (t.edit e) a → Live t a ∨ a ∈ issue t e)
    (h : t.Shape whole) (es : List Edit) {a : α} (ha : Live (t.run es) a) :
    Live t a ∨ a ∈ issuedAlong issue t es := by
  induction es generalizing t whole with
  | nil => exact .inl ha
  | cons e es ih =>
    obtain ⟨_, h'⟩ := h.edit e
    rw [issuedAlong, List.mem_append]
    rcases ih h' ha with ha | ha
    · exact (hstep t whole h e a ha).imp_right .inl
    · exact .inr (.inr ha)

theorem mem_issued_of_live (h : t.Shape whole) (es : List Edit) :
    (∀ g, (t.run es).containsGroup g = true → g ∈ t.issuedGroups es) ∧
      ∀ c, (t.run es).containsCondition c = true → c ∈ t.issuedConditions es := by
  constructor
  · intro g hg
    have hcases := mem_issuedAlong (fun t g => t.containsGroup g = true)
      (fun t whole h e => (Shape.issues h e).group) h es hg
    exact List.mem_append.2 (hcases.imp_left h.mem_groupIds_iff.2)
  · intro c hc
    have hcases := mem_issuedAlong (fun t c => t.containsCondition c = true)
      (fun t whole h e => (Shape.issues h e).condition) h es hc
    exact List.mem_append.2 (hcases.imp_left h.mem_conditionIds_iff.2)

/-- How handles fare when `es` is the run so far and `es'` is what follows: each is issued once,
those that are live were issued, and those that are not any more are stale ever after. -/
structure Handles (t₀ : Tree) (es es' : List Edit) : Prop where
  groups_once : (t₀.issuedGroups (es ++ es')).Nodup
  conditions_once : (t₀.issuedConditions (es ++ es')).Nodup
  group_issued : ∀ g, (t₀.run es).containsGroup g = true → g ∈ t₀.issuedGroups es
  condition_issued : ∀ c, (t₀.run es).containsCondition c = true → c ∈ t₀.issuedConditions es
  group_stale : ∀ g ∈ t₀.issuedGroups es, (t₀.run es).containsGroup g = false →
    (t₀.run (es ++ es')).StaleGroup g
  condition_stale : ∀ c ∈ t₀.issuedConditions es, (t₀.run es).containsCondition c = false →
    (t₀.run (es ++ es')).StaleCondition c

theorem handles_run {t₀ : Tree} (h : t₀.Initial) (es es' : List Edit) : t₀.Handles es es' := by
  obtain ⟨_, hstart⟩ := h.shape
  obtain ⟨_, hend⟩ := hstart.run (es ++ es')
  have hlater : (t₀.run es).Later (t₀.run (es ++ es')) := run_append t₀ es es' ▸ later_run _ es'
  constructor
  case groups_once => exact (issuedGroups_run hstart _).1
  case conditions_once => exact (issuedConditions_run hstart _).1
  case group_issued => exact (mem_issued_of_live hstart es).1
  case condition_issued => exact (mem_issued_of_live hstart es).2
  case group_stale =>
    intro g hg hdead
    have hknown := (issuedGroups_run hstart es).2 g hg
    have hexpired := hknown.resolve_left (Bool.eq_false_iff.1 hdead)
    exact hend.staleGroup (hlater.groups.expired _ hexpired).contains_eq_false
  case condition_stale =>
    intro c hc hdead
    have hknown := (issuedConditions_run hstart es).2 c hc
    have hexpired := hknown.resolve_left (Bool.eq_false_iff.1 hdead)
    exact hend.staleCondition (hlater.conditions.expired _ hexpired).contains_eq_false

/-- A nested group is removed, and a new group is put in its slot. -/
theorem handles_run_reused_slot :
    let t₀ := ofGroup ⟨none, [.empty], [⟨some .or, [.empty], []⟩]⟩
    let es : List Edit := [.removeGroup ⟨⟨0, 0⟩⟩]
    let es' : List Edit := [.toggle ⟨⟨0, 0⟩⟩, .addGroup (.group ⟨⟨1, 0⟩⟩) none]
    t₀.Initial ∧ t₀.Handles es es' ∧ (t₀.run (es ++ es')).containsGroup ⟨⟨0, 1⟩⟩ = true ∧
      (t₀.run (es ++ es')).StaleGroup ⟨⟨0, 0⟩⟩ := by
  have hhandles := fun g => handles_run (.ofGroup g)
  exact ⟨.ofGroup _, hhandles _ _ _, by decide,
    (hhandles _ _ _).group_stale _ (by decide) (by decide)⟩

end Tree

end WhenClause
