import Mathlib.Algebra.Ring.Parity
import WhenClause.Proofs.Editor.Notification
import WhenClause.Proofs.Tree.Retune
import WhenClause.Proofs.View.Faithful

/-!
# Operators in a session

The operator of a group changes when it is turned and at no other time, whatever else is edited in
between. Turned an even number of times it is what it was, except that it is set from then on. That
makes no difference on a screen, but the value of the rule and its snapshots tell.
-/

namespace WhenClause

open Subtree (plug path)

namespace Operator

def turn (o : Option Operator) : Option Operator := some (effective o).negate

theorem effective_iterate_turn (k : Nat) (o : Option Operator) :
    effective (turn^[k] o) = negate^[k] (effective o) := by
  induction k generalizing o with
  | zero => rfl
  | succ k ih => exact ih (turn o)

theorem iterate_turn_of_pos {k : Nat} (h : 0 < k) (o : Option Operator) :
    turn^[k] o = some (negate^[k] (effective o)) := by
  obtain ⟨k, rfl⟩ := Nat.exists_eq_succ_of_ne_zero (Nat.ne_of_gt h)
  rw [← effective_iterate_turn, Function.iterate_succ_apply']
  rfl

theorem iterate_negate_of_even {k : Nat} (h : Even k) (o : Operator) : negate^[k] o = o := by
  have hinvolutive : Function.Involutive negate := negate_negate
  rw [hinvolutive.iterate_even h, id]

end Operator

namespace Edit

def toggles (g : GroupId) : Edit → Bool
  | .toggle p => p = g
  | _ => false

def turns (g : GroupId) (es : List Edit) : Nat := es.countP (toggles g)

def others (g : GroupId) (es : List Edit) : List Edit := es.filter fun e => !e.toggles g

variable {g : GroupId} {e : Edit} {es : List Edit}

theorem toggles_iff : e.toggles g = true ↔ e = .toggle g := by
  cases e <;> simp [toggles]

theorem turns_cons_of_toggles (h : e.toggles g = true) : turns g (e :: es) = turns g es + 1 :=
  List.countP_cons_of_pos h

theorem turns_cons (h : e.toggles g = false) : turns g (e :: es) = turns g es :=
  List.countP_cons_of_neg (Bool.eq_false_iff.1 h)

theorem others_cons_of_toggles (h : e.toggles g = true) : others g (e :: es) = others g es :=
  List.filter_cons_of_neg (by simp [h])

theorem others_cons (h : e.toggles g = false) : others g (e :: es) = e :: others g es :=
  List.filter_cons_of_pos (by simp [h])

theorem turns_others (g : GroupId) (es : List Edit) : turns g (others g es) = 0 := by
  simp [turns, others, List.countP_eq_zero]

theorem turns_append_toggle (g : GroupId) (es : List Edit) :
    turns g (es ++ [.toggle g]) = turns g es + 1 := by
  simp [turns, toggles]

end Edit

namespace Tree

variable {t : Tree} {whole : Option Subtree} {g : GroupId} {n n' : GroupNode} {o : Option Operator}

/-! ## Runs with and without the turns of one group -/

theorem Later.live_between {t' t'' : Tree} (h : t.Later t') (h' : t'.Later t'')
    (hg : t.containsGroup g = true) (hlive : t''.containsGroup g = true) :
    t'.containsGroup g = true := by
  by_contra hdead
  have hgone := h.containsGroup_eq_false h' hg (Bool.eq_false_iff.2 hdead)
  rw [hgone] at hlive
  cases hlive

/-- A run comes to what it comes to without the turns, but for the operator. -/
theorem run_retune (h : t.Shape whole) (hg : t.containsGroup g = true) {es : List Edit}
    (hlive : ((t.retune g o).run es).containsGroup g = true) :
    (t.retune g o).run es = (t.run (Edit.others g es)).retune g
      (Operator.turn^[Edit.turns g es] o) := by
  -- A turn of `g` changes `o` and leaves the tree, any other edit the other way round.
  induction es generalizing t whole o with
  | nil => rfl
  | cons e es ih =>
    have hrun : (t.retune g o).run (e :: es) = ((t.retune g o).edit e).run es := rfl
    rw [hrun] at hlive ⊢
    cases he : e.toggles g with
    | true =>
      obtain rfl := Edit.toggles_iff.1 he
      obtain ⟨n, hn⟩ := containsGroup_iff.1 hg
      have hrecord : (t.retune g o).group? g = some (n.setOperator o) := by
        rw [group?_retune, hn]
        simp [GroupNode.retuned]
      rw [edit_toggle hrecord, retune_retune] at hlive ⊢
      rw [ih h hg hlive, Edit.others_cons_of_toggles he, Edit.turns_cons_of_toggles he,
        Function.iterate_succ_apply]
      rfl
    | false =>
      have hne : e ≠ .toggle g := fun heq => by simp [Edit.toggles_iff.2 heq] at he
      rw [edit_retune h hg hne] at hlive ⊢
      have hstays : (t.edit e).containsGroup g = true :=
        (later_edit t e).live_between ((later_modifyGroup _ g _).trans (later_run _ es)) hg hlive
      obtain ⟨_, h'⟩ := h.edit e
      rw [ih h' hstays hlive, Edit.others_cons he, Edit.turns_cons he]
      rfl

theorem run_eq (h : t.Shape whole) (hn : t.group? g = some n) {es : List Edit}
    (hlive : (t.run es).containsGroup g = true) :
    t.run es = (t.run (Edit.others g es)).retune g
      (Operator.turn^[Edit.turns g es] n.operator) := by
  have hself := retune_eq_self hn
  have hrun := run_retune h (containsGroup_iff.2 ⟨n, hn⟩) (hself.symm ▸ hlive)
  rwa [hself] at hrun

theorem operator_run (h : t.Shape whole) (hn : t.group? g = some n) {es : List Edit}
    (hn' : (t.run es).group? g = some n') :
    n'.operator = Operator.turn^[Edit.turns g es] n.operator := by
  have hrun := run_eq h hn (containsGroup_iff.2 ⟨n', hn'⟩)
  rw [hrun, group?_retune] at hn'
  obtain ⟨m, _, rfl⟩ := Option.map_eq_some_iff.1 hn'
  simp [GroupNode.retuned, GroupNode.setOperator]

theorem effectiveOperator_run (h : t.Shape whole) (hn : t.group? g = some n) {es : List Edit}
    (hn' : (t.run es).group? g = some n') :
    n'.effectiveOperator =
      Operator.negate^[Edit.turns g es] n.effectiveOperator := by
  rw [GroupNode.effectiveOperator, operator_run h hn hn', Operator.effective_iterate_turn]
  rfl

/-! ## What another operator changes -/

theorem ofSubtree_retune {config : Config} {isRoot : Bool} {s : Subtree}
    (h : ∀ m ∈ s.nodes, m.1 = g → m.2.effectiveOperator = Operator.effective o) :
    GroupView.ofSubtree config isRoot (s.retune g o) = GroupView.ofSubtree config isRoot s := by
  induction s using Subtree.induct generalizing isRoot with
  | node id record children ih =>
    have hrecord : (GroupNode.retuned g o (id, record)).2.effectiveOperator =
        record.effectiveOperator := by
      unfold GroupNode.retuned
      split
      · exact (h _ (Subtree.mem_nodes_node.2 (.inl rfl)) ‹_›).symm
      · rfl
    have hchildren : (children.map (Subtree.retune g o)).map (GroupView.ofSubtree config false) =
        children.map (GroupView.ofSubtree config false) := by
      rw [List.map_map]
      exact List.map_congr_left fun s hs =>
        ih s hs fun m hm => h m (Subtree.mem_nodes_node.2 (.inr ⟨s, hs, hm⟩))
    rw [Subtree.retune, Subtree.retuneAll_eq_map, GroupView.ofSubtree_node,
      GroupView.ofSubtree_node, hchildren]
    simp only [GroupView.ofRecord, GroupNode.isEmpty, hrecord, GroupNode.items_retuned,
      GroupNode.groups_retuned]

theorem view?_retune (h : t.Shape whole) (hn : t.group? g = some n)
    (ho : Operator.effective o = n.effectiveOperator) (config : Config) :
    (t.retune g o).view? config = t.view? config := by
  have hroot : (t.retune g o).rootSubtree? = t.rootSubtree?.map (Subtree.retune g o) := by
    rw [rootSubtree?, rootSubtree?, Option.map_bind]
    exact Option.bind_congr fun r _ => subtree?_retune t g o r
  rw [view?, view?, hroot, h.rootSubtree?_eq, Option.map_map]
  apply Option.map_congr
  rintro s rfl
  apply ofSubtree_retune
  rintro ⟨p, m⟩ hm rfl
  cases hn.symm.trans (h.mem_nodes_iff.1 hm)
  exact ho.symm

theorem rootGroup?_retune (h : t.Shape whole) (hn : t.group? g = some n) (o : Option Operator) :
    ∃ r steps, t.root = some r ∧ t.follow? r steps = some g ∧
      (t.retune g o).rootGroup? =
        t.rootGroup?.map (·.modifyAt steps ({ · with operator := o })) := by
  obtain ⟨ctx, children, rfl⟩ := h.exists_place hn
  have h' : (t.retune g o).Shape (some (plug ctx (.node g (n.setOperator o) children))) :=
    h.modifyGroup (f := (·.setOperator o)) rfl rfl
  refine ⟨_, path ctx, h.root, follow?_path h.stored, ?_⟩
  rw [h'.rootGroup?_eq, h.rootGroup?_eq, Option.map_some]
  congr 1
  apply Subtree.toGroup_plug
  · rw [Subtree.toGroup_node, Subtree.toGroup_node]
    rfl
  · exact fun _ _ _ _ => rfl

/-! ## The whole run -/

/-- What becomes of the operator of a group in a run: from the record `n` to the record `n'`. -/
structure Turned (t : Tree) (es : List Edit) (g : GroupId) (n n' : GroupNode) : Prop where
  effective : n'.effectiveOperator = Operator.negate^[Edit.turns g es] n.effectiveOperator
  unturned : Edit.turns g es = 0 → n'.operator = n.operator
  set : 0 < Edit.turns g es → n'.operator = some n'.effectiveOperator
  returned : ∀ front back, es = front ++ .toggle g :: back → ∃ m,
    (t.run front).toggle g = some (m.effectiveOperator, t.run (front ++ [.toggle g])) ∧
      (t.run (front ++ [.toggle g])).group? g = some m ∧
      m.effectiveOperator =
        Operator.negate^[Edit.turns g front + 1] n.effectiveOperator

/-- What a run in which the operator of a group was turned back comes to, beside what it comes to
without these turns. -/
structure Restored (t : Tree) (es : List Edit) (g : GroupId) (n : GroupNode) : Prop where
  shown : ∀ config, ∃ u u', t.shown? config g = some u ∧ (t.run es).shown? config g = some u' ∧
    u'.operator = u.operator ∧ ∀ row ∈ u.rows ++ u'.rows, row.operator = u.operator
  view : ∀ config, (t.run es).view? config =
    (t.run (Edit.others g es)).view? config
  value : t.run es = t.run (Edit.others g es) ∨
    n.operator = none ∧ ∃ r steps, (t.run (Edit.others g es)).root = some r ∧
      (t.run (Edit.others g es)).follow? r steps = some g ∧
      (t.run es).rootGroup? = (t.run (Edit.others g es)).rootGroup?.map
        (·.modifyAt steps (·.withOperator .and))

theorem toggle_run {es : List Edit} {m : GroupNode} (hm : (t.run es).group? g = some m) :
    (t.run es).toggle g = some (m.toggle.effectiveOperator, t.run (es ++ [.toggle g])) ∧
      (t.run (es ++ [.toggle g])).group? g = some m.toggle := by
  have hnext : (t.run es).modifyGroup g GroupNode.toggle = t.run (es ++ [.toggle g]) := by
    rw [run_append]
    have hedit : (t.run es).edit? (.toggle g) =
        some ((t.run es).modifyGroup g GroupNode.toggle) := by
      rw [edit?, toggle, hm]
      rfl
    exact (edit_of_some hedit).symm
  constructor
  · rw [toggle, hm, Option.map_some, hnext]
  · rw [← hnext, group?_modifyGroup, if_pos rfl, hm, Option.map_some]

theorem Shape.turned (h : t.Shape whole) {es : List Edit} (hn : t.group? g = some n)
    (hn' : (t.run es).group? g = some n') : t.Turned es g n n' := by
  have hg : t.containsGroup g = true := Tree.containsGroup_iff.2 ⟨n, hn⟩
  have hg' : (t.run es).containsGroup g = true := Tree.containsGroup_iff.2 ⟨n', hn'⟩
  have hoperator := operator_run h hn hn'
  constructor
  case effective => exact effectiveOperator_run h hn hn'
  case unturned =>
    intro hnone
    rw [hoperator, hnone]
    rfl
  case set =>
    intro hpos
    rw [effectiveOperator_run h hn hn', hoperator, Operator.iterate_turn_of_pos hpos]
    rfl
  case returned =>
    rintro front back rfl
    rw [run_append] at hg'
    obtain ⟨m, hm⟩ := Tree.containsGroup_iff.1
      ((later_run t front).live_between (later_run _ _) hg hg')
    obtain ⟨htoggle, hnext⟩ := toggle_run hm
    refine ⟨m.toggle, htoggle, hnext, ?_⟩
    rw [effectiveOperator_run h hn hnext, Edit.turns_append_toggle]

theorem Shape.run_of_even (h : t.Shape whole) {es : List Edit} (hn : t.group? g = some n)
    {m : GroupNode} (hm : (t.run (Edit.others g es)).group? g = some m)
    (hlive : (t.run es).containsGroup g = true) (heven : Even (Edit.turns g es)) :
    t.run es = t.run (Edit.others g es) ∨
      n.operator = none ∧ m.operator = none ∧
        t.run es = (t.run (Edit.others g es)).retune g (some .and) := by
  have hrun := run_eq h hn hlive
  have hm' : m.operator = n.operator := by
    rw [operator_run h hn hm, Edit.turns_others]
    rfl
  have hself := retune_eq_self hm
  rw [hm'] at hself
  rcases Nat.eq_zero_or_pos (Edit.turns g es) with hzero | hpos
  · rw [hzero] at hrun
    exact .inl (hrun.trans hself)
  · rw [Operator.iterate_turn_of_pos hpos, Operator.iterate_negate_of_even heven] at hrun
    cases hoperator : n.operator with
    | none =>
      rw [hoperator] at hrun hm'
      exact .inr ⟨rfl, hm', hrun⟩
    | some o =>
      rw [hoperator] at hrun hself
      exact .inl (hrun.trans hself)

theorem Shape.restored (h : t.Shape whole) {es : List Edit} (hn : t.group? g = some n)
    (hn' : (t.run es).group? g = some n') (heven : Even (Edit.turns g es)) :
    t.Restored es g n := by
  obtain ⟨_, h'⟩ := h.run es
  obtain ⟨_, h₀⟩ := h.run (Edit.others g es)
  have hlive : (t.run es).containsGroup g = true := Tree.containsGroup_iff.2 ⟨n', hn'⟩
  obtain ⟨m, hm⟩ : ∃ m, (t.run (Edit.others g es)).group? g = some m := by
    rw [← Tree.containsGroup_iff, ← containsGroup_retune, ← run_eq h hn hlive]
    exact hlive
  have hcases := h.run_of_even hn hm hlive heven
  constructor
  case shown =>
    intro config
    obtain ⟨u, hu, hdepicts⟩ := h.exists_shown hn config
    obtain ⟨u', hu', hdepicts'⟩ := h'.exists_shown hn' config
    have hsame : n'.effectiveOperator = n.effectiveOperator := by
      rw [effectiveOperator_run h hn hn', Operator.iterate_negate_of_even heven]
    refine ⟨u, u', hu, hu', ?_, fun row hrow => ?_⟩
    · rw [hdepicts'.operator, hdepicts.operator, hsame]
    · rw [hdepicts.operator]
      rcases List.mem_append.1 hrow with hrow | hrow
      · exact hdepicts.operator_row hrow
      · exact (hdepicts'.operator_row hrow).trans hsame
  case view =>
    intro config
    rcases hcases with heq | ⟨_, hunset, heq⟩
    · rw [heq]
    · rw [heq]
      apply view?_retune h₀ hm
      rw [GroupNode.effectiveOperator, hunset]
      rfl
  case value =>
    rcases hcases with heq | ⟨hunset, _, heq⟩
    · exact .inl heq
    · rw [heq]
      exact .inr ⟨hunset, rootGroup?_retune h₀ hm (some .and)⟩

end Tree

theorem Editor.config_call {σ : Type} (e : Editor σ) (c : Editor.Call) :
    (e.call c).2.config = e.config := by
  have hcommit {α : Type} (outcome : Option (α × Tree)) :
      (e.commit outcome).2.config = e.config := (announces_commit e outcome).config
  cases c with
  | ensureRoot | view => rfl
  | toggle | addGroup | removeGroup | addCondition | removeCondition | updateCondition =>
    exact hcommit _

theorem Editor.tree_run {σ : Type} (e : Editor σ) (calls : List Editor.Call) :
    (e.run calls).rule.tree = e.rule.tree.run (calls.map (Editor.Call.edit e.config)) := by
  induction calls generalizing e with
  | nil => rfl
  | cons c calls ih =>
    have hrun : e.run (c :: calls) = (e.call c).2.run calls := rfl
    rw [hrun, ih, config_call, tree_call]
    rfl

/-- From one state of a run to another in which a group is still there, its operator is turned by
its own toggles and by nothing else. What an editor does in a session is such a run. -/
theorem Tree.operators_turned {t : Tree} (h : t.Reachable) (es : List Edit) {g : GroupId}
    {n n' : GroupNode} (hn : t.group? g = some n) (hn' : (t.run es).group? g = some n') :
    t.Turned es g n n' ∧ (Even (Edit.turns g es) → t.Restored es g n) ∧
      ∀ (σ : Type) (e : Editor σ) (calls : List Editor.Call), e.rule.tree = t →
        (e.run calls).rule.tree = t.run (calls.map (Editor.Call.edit e.config)) := by
  obtain ⟨_, hshape⟩ := h.shape
  refine ⟨hshape.turned hn hn', hshape.restored hn hn', fun σ e calls htree => ?_⟩
  rw [e.tree_run, htree]

/-- Between two turns of a group without an operator its neighbour is removed, another group comes
in the slot of that, and both the root and the newcomer are turned. -/
theorem Tree.operators_turned_reused_slot :
    let t := ofGroup ⟨none, [.empty], [⟨none, [.empty], []⟩, ⟨some .or, [], []⟩]⟩
    let es : List Edit := [.toggle ⟨⟨0, 0⟩⟩, .removeGroup ⟨⟨1, 0⟩⟩,
      .addGroup (.group ⟨⟨2, 0⟩⟩) none, .toggle ⟨⟨2, 0⟩⟩, .toggle ⟨⟨1, 1⟩⟩, .toggle ⟨⟨0, 0⟩⟩]
    let n : GroupNode := ⟨none, [⟨⟨1, 0⟩⟩], []⟩
    let n' : GroupNode := ⟨some .and, [⟨⟨1, 0⟩⟩], []⟩
    t.Reachable ∧ t.group? ⟨⟨0, 0⟩⟩ = some n ∧ (t.run es).group? ⟨⟨0, 0⟩⟩ = some n' ∧
      t.Turned es ⟨⟨0, 0⟩⟩ n n' ∧ Even (Edit.turns ⟨⟨0, 0⟩⟩ es) ∧ t.Restored es ⟨⟨0, 0⟩⟩ n := by
  intro t es n n'
  have hreached : t.Reachable := ⟨t, [], .ofGroup _, rfl⟩
  have hn : t.group? ⟨⟨0, 0⟩⟩ = some n := by decide
  have hn' : (t.run es).group? ⟨⟨0, 0⟩⟩ = some n' := by decide
  obtain ⟨hturned, hrestored, _⟩ := operators_turned hreached es hn hn'
  have heven : Even (Edit.turns ⟨⟨0, 0⟩⟩ es) := ⟨1, by decide⟩
  exact ⟨hreached, hn, hn', hturned, heven, hrestored heven⟩

end WhenClause
