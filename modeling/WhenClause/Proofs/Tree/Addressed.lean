import WhenClause.Proofs.Tree.Parent
import WhenClause.Proofs.Tree.Position

/-!
# Edits addressed by place

An edit that is given the handle at some place of a tree finds it. What it does to the plain value
and where the new node is listed then depend on the plain value and the place, and on nothing else.
-/

namespace WhenClause

namespace Group

def toggle (g : Group) : Group := { g with operator := some g.effectiveOperator.negate }

def remove? (g : Group) (path : List Nat) : Option Group :=
  match path.getLast? with
  | none => none
  | some i => some (g.modifyAt path.dropLast fun x => { x with groups := x.groups.eraseIdx i })

end Group

namespace Tree

open Subtree (plug path Frame)

variable {t t' : Tree} {s : Subtree} {whole : Option Subtree} {p g : GroupId} {c : ConditionId}
  {n : GroupNode} {ctx : List Frame} {children : List Subtree} {steps : List Nat}
  {f : Group → Group}

theorem follow?_append (t : Tree) (g : GroupId) (steps steps' : List Nat) :
    t.follow? g (steps ++ steps') = (t.follow? g steps).bind (t.follow? · steps') := by
  induction steps generalizing g with
  | nil => rfl
  | cons i steps ih =>
    simp only [List.cons_append, follow?, ih, Option.bind_assoc]

theorem exists_record_of_item {i : Nat} (hc : t.itemAt? g (steps, i) = some c) :
    ∃ p n, t.group? p = some n ∧ n.items[i]? = some c := by
  obtain ⟨p, _, hc⟩ := Option.bind_eq_some_iff.1 hc
  obtain ⟨n, hn, hc⟩ := Option.bind_eq_some_iff.1 hc
  exact ⟨p, n, hn, hc⟩

namespace Shape

theorem rootGroup?_of_editedAt (h : t.Shape (some s)) (h' : t'.Shape whole)
    (hroot : t'.root = t.root) (hp : t.follow? s.id steps = some p) (hedit : t.EditedAt t' p f) :
    t'.rootGroup? = some ((s.toGroup t.condition?).modifyAt steps f) := by
  have hr : t'.root = some s.id := hroot.trans h.root
  have hlive := h.singlePath.root_live s.id h.root
  obtain ⟨x, hx, hx'⟩ := hedit.inside s.id steps hlive (h'.singlePath.root_live s.id hr) hp
  obtain rfl := Option.some.inj ((h.toGroup?_eq h.stored).symm.trans hx)
  rw [rootGroup?, hr, Option.bind_some, hx']

theorem exists_record (h : t.Shape (some s)) (hp : t.follow? s.id steps = some p) :
    ∃ n x, t.group? p = some n ∧ t.toGroup? p = some x ∧
      (s.toGroup t.condition?).descend steps = x ∧ x.operator = n.operator ∧
        x.items.length = n.items.length ∧ x.groups.length = n.groups.length := by
  obtain ⟨ctx, ⟨id, n, children⟩, rfl, rfl, rfl⟩ := exists_plug_of_follow? h.stored hp
  obtain ⟨found, names, _⟩ := h.place
  refine ⟨n, _, found, h.toGroup?_eq h.stored.of_plug, Subtree.descend_plug .., ?_⟩
  rw [Subtree.toGroup_node]
  refine ⟨rfl, h.length_filterMap found fun c hc => hc, ?_⟩
  rw [names, List.length_map, List.length_map]

theorem containsGroup_of_follow? (h : t.Shape (some s)) (hp : t.follow? s.id steps = some p) :
    t.containsGroup p = true := by
  obtain ⟨n, _, hn, _⟩ := h.exists_record hp
  exact Tree.containsGroup_iff.2 ⟨n, hn⟩

theorem position_group {u : Subtree} {x : Group} (h : t.Shape (some (plug ctx u)))
    (hx : t.rootGroup? = some x) : position t.groupIds u.id = some (x.paths.idxOf (path ctx)) := by
  rw [h.position_groupIds (follow?_path h.stored), Option.some.inj (h.rootGroup?_eq.symm.trans hx)]

theorem position_condition {x : Group} {i : Nat} (h : t.Shape (some (plug ctx (.node p n children))))
    (hx : t.rootGroup? = some x) (hi : n.items[i]? = some c) :
    position t.conditionIds c = some (x.slots.idxOf (path ctx, i)) := by
  obtain ⟨found, _, _⟩ := h.place
  have hitem : t.itemAt? (plug ctx (.node p n children)).id (path ctx, i) = some c := by
    rw [itemAt?, follow?_path h.stored, Option.bind_some, Subtree.id, found, Option.bind_some, hi]
  rw [h.position_conditionIds hitem, Option.some.inj (h.rootGroup?_eq.symm.trans hx)]

theorem map_position_items {x : Group} (h : t.Shape (some (plug ctx (.node p n children))))
    (hx : t.rootGroup? = some x) : n.items.map (position t.conditionIds) =
      (List.range n.items.length).map fun i => some (x.slots.idxOf (path ctx, i)) := by
  apply List.ext_getElem
  · simp
  · intro i hi _
    rw [List.length_map] at hi
    rw [List.getElem_map, List.getElem_map, List.getElem_range,
      h.position_condition hx (List.getElem?_eq_getElem hi)]

theorem toggle_addressed (h : t.Shape (some s)) (hp : t.follow? s.id steps = some p) :
    ∃ t', t.toggle p =
        some (((s.toGroup t.condition?).descend steps).effectiveOperator.negate, t') ∧
      t'.rootGroup? = some ((s.toGroup t.condition?).modifyAt steps Group.toggle) := by
  obtain ⟨n, x, hn, hx, hdescend, _⟩ := h.exists_record hp
  obtain ⟨⟨o, t'⟩, he⟩ : ∃ result, t.toggle p = some result := ⟨_, by rw [Tree.toggle, hn]; rfl⟩
  obtain ⟨hedit, y, hy, rfl⟩ := h.editedAt_toggle he
  obtain ⟨_, _, _, _, _, heq, h'⟩ := h.toggle he
  cases hx.symm.trans hy
  refine ⟨t', hdescend ▸ he, h.rootGroup?_of_editedAt h' ?_ hp hedit⟩
  rw [heq, root_modifyGroup]

theorem addGroup_addressed (h : t.Shape (some s)) (hp : t.follow? s.id steps = some p)
    (template : Option Group) :
    let x := (s.toGroup t.condition?).modifyAt steps (·.addGroup (template.getD .empty))
    ∃ g t', t.addGroup (.group p) template = some (g, t') ∧ t'.rootGroup? = some x ∧
      position t'.groupIds g = some (x.paths.idxOf
        (steps ++ [((s.toGroup t.condition?).descend steps).groups.length])) := by
  obtain ⟨n, x, hn, _, hdescend, _, _, hgroups⟩ := h.exists_record hp
  obtain ⟨⟨g, t'⟩, he⟩ : ∃ result, t.addGroup (.group p) template = some result :=
    ⟨_, by rw [Tree.addGroup, h.containsGroup_of_follow? hp]; rfl⟩
  obtain ⟨ctx, m, children, u, hs, rfl, _, h', t₁, hext, heq⟩ := h.addGroup_group he
  cases hs
  obtain ⟨found, names, _⟩ := h.place
  cases found.symm.trans hn
  obtain rfl := h.follow?_inj hp (follow?_path h.stored)
  have hroot : t'.root = t.root := by rw [heq, root_modifyGroup, hext.root]
  have hvalue := h.rootGroup?_of_editedAt h' hroot hp (h.editedAt_addGroup he)
  refine ⟨u.id, t', he, hvalue, ?_⟩
  -- The new group is the last child, so one step further down than its parent.
  have hplace : plug ctx (.node p (n.addGroup u.id) (children ++ [u])) =
      plug (ctx ++ [⟨p, n.addGroup u.id, children, []⟩]) u := by
    rw [Subtree.plug_append]
    rfl
  rw [hplace] at h'
  rw [h'.position_group hvalue, Subtree.path_append, hdescend, hgroups, names, List.length_map]
  rfl

theorem addCondition_addressed (h : t.Shape (some s)) (hp : t.follow? s.id steps = some p)
    (template : Option Condition) :
    let x := (s.toGroup t.condition?).modifyAt steps (·.addItem (template.getD .empty))
    ∃ c t', t.addCondition p template = some (c, t') ∧ t'.rootGroup? = some x ∧
      position t'.conditionIds c = some (x.slots.idxOf
        (steps, ((s.toGroup t.condition?).descend steps).items.length)) := by
  obtain ⟨n, x, hn, _, hdescend, _, hitems, _⟩ := h.exists_record hp
  obtain ⟨⟨c, t'⟩, he⟩ : ∃ result, t.addCondition p template = some result :=
    ⟨_, by rw [Tree.addCondition, h.containsGroup_of_follow? hp]; rfl⟩
  obtain ⟨ctx, m, children, hs, _, heq, _, h'⟩ := h.addCondition he
  cases hs
  obtain ⟨found, _, _⟩ := h.place
  cases found.symm.trans hn
  obtain rfl := h.follow?_inj hp (follow?_path h.stored)
  have hroot : t'.root = t.root := by rw [heq, root_modifyGroup, root_insertCondition]
  have hvalue := h.rootGroup?_of_editedAt h' hroot hp (h.editedAt_addCondition he)
  have hlast : (n.addItem c).items[n.items.length]? = some c := by simp [GroupNode.addItem]
  refine ⟨c, t', he, hvalue, ?_⟩
  rw [h'.position_condition hvalue hlast, hdescend, hitems]

theorem root_ne (h : t.Shape (some s)) (hne : g ≠ s.id) : t.root ≠ some g := by
  rw [h.root]
  exact fun heq => hne (Option.some.inj heq).symm

theorem root_removeGroup (he : t.removeGroup g = some t') (hg : t.root ≠ some g) :
    t'.root = t.root := by
  obtain ⟨_, _, _, _, _, rfl⟩ := (removeGroup_eq_some he).resolve_left fun heq => hg heq.1
  rw [root_discard, root_modifyGroup]

theorem exists_follow? (h : t.Shape (some s)) (hp : t.group? p = some n) :
    ∃ steps, t.follow? s.id steps = some p := by
  obtain ⟨ctx, children, hs⟩ := h.exists_place hp
  cases hs
  exact ⟨path ctx, follow?_path h.stored⟩

theorem removeGroup_addressed (h : t.Shape (some s)) (hg : t.follow? s.id steps = some g) :
    ∃ t', t.removeGroup g = some t' ∧ t'.rootGroup? = (s.toGroup t.condition?).remove? steps := by
  cases hsteps : steps.getLast? with
  | none =>
    obtain rfl := List.getLast?_eq_none_iff.1 hsteps
    cases hg
    exact ⟨t.discardRoot, h.removeGroup_root, h.discardRoot.rootGroup?_none⟩
  | some i =>
    obtain ⟨front, rfl⟩ := List.getLast?_eq_some_iff.1 hsteps
    have hne : g ≠ s.id := by
      rintro rfl
      have hnil := h.follow?_inj hg (rfl : t.follow? s.id [] = some s.id)
      simp at hnil
    have hroot := h.root_ne hne
    obtain ⟨t', he⟩ := h.exists_removeGroup (h.containsGroup_of_follow? hg)
    obtain ⟨p, n, j, hn, hj, hedit⟩ := h.editedAt_removeGroup he hroot
    obtain ⟨_, h'⟩ := h.edit? (e := .removeGroup g) he
    -- The group that is changed is the one that the way leads to before its last step.
    obtain ⟨steps, hp⟩ := h.exists_follow? hn
    have hsame : steps ++ [j] = front ++ [i] := by
      refine h.follow?_inj ?_ hg
      rw [follow?_append, hp, Option.bind_some, follow?, hn, Option.bind_some, hj]
      rfl
    obtain ⟨rfl, hij⟩ := List.append_inj' hsame rfl
    cases hij
    refine ⟨t', he, ?_⟩
    rw [h.rootGroup?_of_editedAt h' (root_removeGroup he hroot) hp hedit]
    simp [Group.remove?]

theorem follow?_of_item {i j : Nat} (h : t.Shape (some s))
    (hc : t.itemAt? s.id (steps, i) = some c) (hn : t.group? p = some n)
    (hj : n.items[j]? = some c) : t.follow? s.id steps = some p ∧ i = j := by
  obtain ⟨steps', hp⟩ := h.exists_follow? hn
  have hitem : t.itemAt? s.id (steps', j) = some c := by
    rw [itemAt?, hp, Option.bind_some, hn, Option.bind_some, hj]
  cases h.itemAt?_inj hc hitem
  exact ⟨hp, rfl⟩

theorem removeCondition_addressed {i : Nat} (h : t.Shape (some s))
    (hc : t.itemAt? s.id (steps, i) = some c) :
    ∃ t', t.removeCondition c = some t' ∧ t'.rootGroup? = some
      ((s.toGroup t.condition?).modifyAt steps fun x => { x with items := x.items.eraseIdx i }) := by
  obtain ⟨p, n, hn, hi⟩ := exists_record_of_item hc
  have hlive := h.singlePath.items_live p n hn c (List.mem_of_getElem? hi)
  obtain ⟨t', he⟩ := h.exists_removeCondition hlive
  obtain ⟨p', n', j, hn', hj, hedit⟩ := h.editedAt_removeCondition he
  obtain ⟨hp, rfl⟩ := h.follow?_of_item hc hn' hj
  obtain ⟨_, _, _, _, _, _, heq, h'⟩ := h.removeCondition he
  refine ⟨t', he, h.rootGroup?_of_editedAt h' ?_ hp hedit⟩
  rw [heq]
  rfl

theorem updateCondition_addressed {i : Nat} (h : t.Shape (some s))
    (hc : t.itemAt? s.id (steps, i) = some c) (f : Condition → Condition) :
    ∃ t', t.updateCondition c f = some t' ∧ t'.rootGroup? = some
      ((s.toGroup t.condition?).modifyAt steps fun x => { x with items := x.items.modify i f }) := by
  obtain ⟨p, n, hn, hi⟩ := exists_record_of_item hc
  have hlive := h.singlePath.items_live p n hn c (List.mem_of_getElem? hi)
  obtain ⟨t', he⟩ : ∃ t', t.updateCondition c f = some t' :=
    ⟨_, by rw [Tree.updateCondition, hlive]; rfl⟩
  obtain ⟨p', n', j, hn', hj, hedit⟩ := h.editedAt_updateCondition he
  obtain ⟨hp, rfl⟩ := h.follow?_of_item hc hn' hj
  obtain ⟨_, heq, h'⟩ := h.updateCondition he
  refine ⟨t', he, h.rootGroup?_of_editedAt h' ?_ hp hedit⟩
  rw [heq]

end Shape

end Tree

end WhenClause
