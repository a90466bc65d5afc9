import WhenClause.Proofs.Editor.Notification
import WhenClause.Proofs.Tree.Parent
import WhenClause.Proofs.View.Faithful

/-!
# What a view offers

Whatever a view has an action for is there, so that no action of it comes to nothing. An editor
that is passed one on reports success and announces it. This takes that what a view shows is found
again from the root, and not only looked up by its handle.
-/

namespace WhenClause

/-- The calls that can be made from a view, with the handles that it carries. Operators, templates
and values of rows can be acted on wherever they are shown. -/
inductive GroupView.Offers (v : GroupView) : Editor.Call → Prop
  | removeGroup {u : GroupView} (shown : u ∈ v.preorder) (removable : u.removable = true) :
      Offers v (.removeGroup u.id)
  | removeCondition {u : GroupView} {operator : Operator} {c : ConditionId}
      (shown : u ∈ v.preorder) (row : .condition operator c true ∈ u.rows) :
      Offers v (.removeCondition c)
  | addCondition {u : GroupView} (shown : u ∈ v.preorder) : Offers v (.addCondition u.id)
  | addGroup {u : GroupView} (shown : u ∈ v.preorder) : Offers v (.addGroup (.group u.id))
  | toggle {u : GroupView} (shown : u ∈ v.preorder) : Offers v (.toggle u.id)
  | updateCondition {u : GroupView} {operator : Operator} {c : ConditionId} {removable : Bool}
      (shown : u ∈ v.preorder) (row : .condition operator c removable ∈ u.rows)
      (f : Condition → Condition) : Offers v (.updateCondition c f)

namespace Editor

def Call.applies (t : Tree) : Call → Bool
  | .ensureRoot | .view => false
  | .toggle g | .removeGroup g | .addGroup (.group g) | .addCondition g => t.containsGroup g
  | .addGroup .rule => true
  | .removeCondition c | .updateCondition c _ => t.containsCondition c

variable {σ : Type} {e : Editor σ} {whole : Option Subtree} {v : GroupView} {t : Tree}
  {config : Config}

theorem isSome_commit_unit (e : Editor σ) (outcome : Option Tree) :
    (e.commit (outcome.map ((), ·))).1.isSome = outcome.isSome := by
  rw [isSome_commit, Option.isSome_map]

theorem fst_call (h : e.rule.tree.Shape whole) (c : Call) :
    (e.call c).1 = c.applies e.rule.tree := by
  cases c with
  | ensureRoot | view => rfl
  | toggle g => exact (isSome_commit e _).trans Option.isSome_map
  | addGroup parent =>
    apply (isSome_commit e _).trans
    cases parent with
    | rule => rfl
    | group g =>
      rw [Tree.addGroup, Call.applies]
      split <;> simp_all
  | removeGroup g => exact (isSome_commit_unit e _).trans (h.isSome_removeGroup g)
  | addCondition g =>
    apply (isSome_commit e _).trans
    rw [Tree.addCondition, Call.applies]
    split <;> simp_all
  | removeCondition c => exact (isSome_commit_unit e _).trans (h.isSome_removeCondition c)
  | updateCondition c f =>
    exact (isSome_commit_unit e _).trans (Tree.isSome_updateCondition e.rule.tree c f)

theorem announces_call {c : Call} (h : (e.call c).1 = true) :
    e.Announces true (e.call c).2 := by
  cases c with
  | ensureRoot | view => cases h
  | toggle | addGroup | removeGroup | addCondition | removeCondition | updateCondition =>
    exact h ▸ announces_commit e _

theorem containsGroup_of_shown (h : v.Faithful t config) {u : GroupView}
    (hu : u ∈ v.preorder) : t.containsGroup u.id = true := by
  obtain ⟨n, hn⟩ := h.groups u hu
  exact Tree.containsGroup_iff.2 ⟨n, hn.found⟩

theorem containsCondition_of_shown (hshape : t.Shape whole) (h : v.Faithful t config)
    {u : GroupView} (hu : u ∈ v.preorder) {operator : Operator} {c : ConditionId} {removable : Bool}
    (hrow : .condition operator c removable ∈ u.rows) : t.containsCondition c = true := by
  obtain ⟨n, hn⟩ := h.groups u hu
  have hitem : c ∈ n.items := by
    rw [← hn.conditionIds]
    exact List.mem_filterMap.2 ⟨_, hrow, rfl⟩
  exact hshape.singlePath.items_live u.id n hn.found c hitem

theorem applies_of_offers (hshape : t.Shape whole) (h : v.Faithful t config) {c : Call}
    (hc : v.Offers c) : c.applies t = true := by
  cases hc with
  | removeGroup shown | addCondition shown | addGroup shown | toggle shown =>
    exact containsGroup_of_shown h shown
  | removeCondition shown row | updateCondition shown row =>
    exact containsCondition_of_shown hshape h shown row

theorem view_eq {config : Config} (hroot : t.root ≠ none) (htree : e.rule.tree = t)
    (hconfig : e.config = config) : e.view = (t.view? config, e) := by
  subst htree hconfig
  have he : e.ensureRoot.2 = e := (looks_ensureRoot e).unchanged hroot
  rw [view]
  exact congrArg (fun e : Editor σ => (e.rule.tree.view? e.config, e)) he

/-- A tree with a root has a faithful view. It is the one that an editor shows, and whatever it
offers the editor does, and announces. A view that may only be read offers less, but an editor does
not mind. -/
theorem view_faithful (h : t.Reachable) (hroot : t.root ≠ none) (config : Config) :
    ∃ v, t.view? config = some v ∧ v.Faithful t config ∧
      ∀ (σ : Type) (e : Editor σ), e.rule.tree = t → e.config = config →
        e.view = (some v, e) ∧
          ∀ c, v.Offers c → (e.call c).1 = true ∧ e.Announces true (e.call c).2 := by
  obtain ⟨whole, hshape⟩ := h.shape
  obtain ⟨v, hv, hfaithful⟩ := GroupView.exists_faithful hshape hroot config
  refine ⟨v, hv, hfaithful, fun σ e htree hconfig => ⟨?_, fun c hc => ?_⟩⟩
  · rw [view_eq hroot htree hconfig, hv]
  · have hsuccess : (e.call c).1 = true := by
      rw [fst_call (htree.symm ▸ hshape), htree]
      exact applies_of_offers hshape hfaithful hc
    exact ⟨hsuccess, announces_call hsuccess⟩

/-- A group is shown whose slot was another's before, and it can be removed. -/
theorem view_faithful_reused_slot :
    let t := (Tree.ofGroup ⟨some .or, [.empty, .empty], [⟨none, [.empty], []⟩]⟩).run
      [.removeGroup ⟨⟨0, 0⟩⟩, .addGroup (.group ⟨⟨1, 0⟩⟩) none]
    let e : Editor Tally := ⟨⟨"credit", t⟩, {}, Tally.listener, .zero⟩
    t.Reachable ∧ t.root ≠ none ∧ ∃ v, t.view? {} = some v ∧ v.Faithful t {} ∧
      e.view = (some v, e) ∧ v.Offers (.removeGroup ⟨⟨0, 1⟩⟩) ∧
        (e.call (.removeGroup ⟨⟨0, 1⟩⟩)).1 = true ∧
        e.Announces true (e.call (.removeGroup ⟨⟨0, 1⟩⟩)).2 := by
  intro t e
  have hreached : t.Reachable := ⟨_, _, .ofGroup _, rfl⟩
  have hroot : t.root ≠ none := by decide
  obtain ⟨v, hv, hfaithful, heditor⟩ := view_faithful hreached hroot {}
  obtain ⟨hview, hgestures⟩ := heditor Tally e rfl rfl
  have hlisted : ⟨⟨0, 1⟩⟩ ∈ v.preorder.map GroupView.id := by
    rw [hfaithful.groupIds]
    decide
  obtain ⟨u, hu, hid⟩ := List.mem_map.1 hlisted
  obtain ⟨n, hn⟩ := hfaithful.groups u hu
  have hremovable : u.removable = true := by
    rw [hn.removable, hid]
    exact ⟨by decide, rfl⟩
  have hoffers : v.Offers (.removeGroup ⟨⟨0, 1⟩⟩) := hid ▸ .removeGroup hu hremovable
  exact ⟨hreached, hroot, v, hv, hfaithful, hview, hoffers, hgestures _ hoffers⟩

end Editor

end WhenClause
