import WhenClause.Proofs.Tree.Issued

/-!
# A live tree as a view of plain values

Every edit that finds something to act on is an edit of the plain value at one place, or puts
another value in place of the whole. Nothing that the edit is not about changes with it: siblings
keep their order, and copies of one template have nothing to do with each other.
-/

namespace WhenClause

theorem erase_append_cons {α : Type} [DecidableEq α] {left : List α} {a : α} {right : List α}
    (h : (left ++ a :: right).Nodup) : (left ++ a :: right).erase a = left ++ right := by
  have ha : a ∉ left ++ right := (List.nodup_middle.1 h).notMem
  have hleft : a ∉ left := fun hmem => ha (List.mem_append_left right hmem)
  rw [List.erase_append_right _ hleft, List.erase_cons_head]

namespace Tree

open Subtree (plug Frame)

variable {t t' : Tree} {whole : Option Subtree} {ctx : List Frame} {children : List Subtree}
  {p g : GroupId} {c : ConditionId} {n : GroupNode}

namespace Shape

theorem condition?_isSome (h : t.Shape whole) (hp : t.group? p = some n) (hc : c ∈ n.items) :
    (t.condition? c).isSome :=
  h.singlePath.items_live p n hp c hc

theorem filterMap_items (h : t.Shape whole) (hp : t.group? p = some n)
    (hold : ∀ c, t.containsCondition c = true → t'.condition? c = t.condition? c) :
    n.items.filterMap t'.condition? = n.items.filterMap t.condition? :=
  List.filterMap_congr fun c hc => hold c (h.condition?_isSome hp hc)

theorem length_filterMap (h : t.Shape whole) (hp : t.group? p = some n) {items : List ConditionId}
    (hitems : ∀ c ∈ items, c ∈ n.items) : (items.filterMap t.condition?).length = items.length :=
  List.filterMap_length_eq_length.2 fun c hc => h.condition?_isSome hp (hitems c hc)

theorem nodup_items (h : t.Shape whole) (hp : t.group? p = some n) : n.items.Nodup := by
  obtain ⟨ctx, children, rfl⟩ := h.exists_place hp
  have hnodup := h.nodup_conditionIds
  rw [Subtree.conditionIds_plug, Subtree.conditionIds_node] at hnodup
  exact (List.nodup_append.1 (List.nodup_append.1 (List.nodup_append.1 hnodup).1).2.1).1

theorem not_mem_items (h : t.Shape whole) (hp : t.group? p = some n) (hc : c ∈ n.items)
    {m : GroupNode} (hg : t.group? g = some m) (hne : g ≠ p) : c ∉ m.items := by
  intro hcm
  obtain ⟨_, _, _, _, honly⟩ :=
    h.singlePath.condition_once c (h.singlePath.items_live p n hp c hc)
  exact hne ((honly g m hg hcm).trans (honly p n hp hc).symm)

end Shape

theorem Shape.exists_item (h : t.Shape whole) (hc : t.containsCondition c = true) :
    ∃ p n ctx children left right, whole = some (plug ctx (.node p n children)) ∧
      t.group? p = some n ∧ n.items = left ++ c :: right := by
  obtain ⟨p, n, hp, hcount, _⟩ := h.singlePath.condition_once c hc
  obtain ⟨ctx, children, rfl⟩ := h.exists_place hp
  have hmem : c ∈ n.items := List.count_pos_iff.1 (by omega)
  obtain ⟨left, right, hitems⟩ := List.append_of_mem hmem
  exact ⟨p, n, ctx, children, left, right, rfl, hp, hitems⟩

theorem SameBut.editedAt_place {ctx' : List Frame} {n' : GroupNode} {children' : List Subtree}
    {f : Group → Group} (hsame : t.SameBut t' p)
    (h : t.Shape (some (plug ctx (.node p n children))))
    (h' : t'.Shape (some (plug ctx' (.node p n' children'))))
    (hvalue : (Subtree.node p n' children').toGroup t'.condition? =
      f ((Subtree.node p n children).toGroup t.condition?)) : t.EditedAt t' p f :=
  hsame.editedAt h h' h.stored.of_plug h'.stored.of_plug rfl rfl hvalue

theorem Shape.editedAt_toggle (h : t.Shape whole) {o : Operator} (he : t.toggle p = some (o, t')) :
    t.EditedAt t' p (fun x => { x with operator := some x.effectiveOperator.negate }) ∧
      ∃ x, t.toGroup? p = some x ∧ o = x.effectiveOperator.negate := by
  obtain ⟨ctx, n, children, rfl, rfl, rfl, h'⟩ := h.toggle he
  have hsame := ((Extends.refl t).spares_modifyGroup p GroupNode.toggle).sameBut h
  refine ⟨hsame.editedAt_place h h' ?_, _, h.toGroup?_eq h.stored.of_plug, ?_⟩
  · simp only [Subtree.toGroup_node]
    rfl
  · rw [Subtree.toGroup_node]
    rfl

theorem SameBut.map_toGroup {ctx' : List Frame} {n' : GroupNode} {children' us : List Subtree}
    (hsame : t.SameBut t' p) (h : t.Shape (some (plug ctx (.node p n children))))
    (h' : t'.Shape (some (plug ctx' (.node p n' children'))))
    (hus : ∀ u ∈ us, u ∈ children ∧ u ∈ children') :
    us.map (Subtree.toGroup t'.condition?) = us.map (Subtree.toGroup t.condition?) := by
  apply List.map_congr_left
  intro u hu
  obtain ⟨hchild, hchild'⟩ := hus u hu
  obtain ⟨_, _, below⟩ := h.place
  obtain ⟨_, _, below'⟩ := h'.place
  apply hsame.toGroup_eq h'.singlePath (below u hchild) (below' u hchild')
  intro hp
  have hnodup := Subtree.nodup_of_nodup_plug h.nodup_groupIds
  rw [Subtree.groupIds_node] at hnodup
  exact (List.nodup_cons.1 hnodup).1 (List.mem_flatMap.2 ⟨u, hchild, hp⟩)

theorem Shape.editedAt_addCondition (h : t.Shape whole) {template : Option Condition}
    (he : t.addCondition p template = some (c, t')) :
    t.EditedAt t' p (·.addItem (template.getD .empty)) := by
  obtain ⟨ctx, n, children, rfl, hfresh, heq, hnew, h'⟩ := h.addCondition he
  have hold : ∀ d, t.containsCondition d = true → t'.condition? d = t.condition? d := by
    intro d hd
    rw [heq, condition?_modifyGroup]
    exact (extends_insertCondition t _).condition d hd
  have hsame : t.SameBut t' p := by
    rw [heq]
    exact ((extends_insertCondition t _).spares_modifyGroup p _).sameBut h
  apply hsame.editedAt_place h h'
  obtain ⟨found, _, _⟩ := h.place
  have hitems := h.filterMap_items found hold
  have hchildren := hsame.map_toGroup h h' fun u hu => ⟨hu, hu⟩
  simp only [Subtree.toGroup_node, GroupNode.addItem, Group.addItem, List.filterMap_append,
    hitems, hchildren, List.filterMap_cons_some hnew, List.filterMap_nil]

theorem Shape.editedAt_addGroup (h : t.Shape whole) {template : Option Group}
    (he : t.addGroup (.group p) template = some (g, t')) :
    t.EditedAt t' p (·.addGroup (template.getD .empty)) := by
  obtain ⟨ctx, n, children, s, rfl, rfl, hvalue, h', t₁, hext, heq⟩ := h.addGroup_group he
  have hold : ∀ d, t.containsCondition d = true → t'.condition? d = t.condition? d := by
    intro d hd
    rw [heq, condition?_modifyGroup]
    exact hext.condition d hd
  have hsame : t.SameBut t' p := by
    rw [heq]
    exact (hext.spares_modifyGroup p _).sameBut h
  apply hsame.editedAt_place h h'
  obtain ⟨found, _, _⟩ := h.place
  have hitems := h.filterMap_items found hold
  have hchildren := hsame.map_toGroup h h' fun u hu => ⟨hu, List.mem_append_left _ hu⟩
  simp only [Subtree.toGroup_node, GroupNode.addGroup, Group.addGroup, List.map_append, hitems,
    hchildren, List.map_cons, List.map_nil, hvalue]

theorem Shape.editedAt_removeCondition (h : t.Shape whole) (he : t.removeCondition c = some t') :
    ∃ p n i, t.group? p = some n ∧ n.items[i]? = some c ∧
      t.EditedAt t' p fun x => { x with items := x.items.eraseIdx i } := by
  obtain ⟨p, ctx, n, children, rfl, hc, heq, h'⟩ := h.removeCondition he
  obtain ⟨found, _, _⟩ := h.place
  have hcondition : ∀ d, t'.condition? d = if d = c then none else t.condition? d := by
    rw [heq]
    exact condition?_eraseCondition (t := t) c
  have hold : ∀ d, d ≠ c → t'.condition? d = t.condition? d := fun d hne => by
    rw [hcondition, if_neg hne]
  have hsame : t.SameBut t' p := by
    rw [heq]
    exact (spares_eraseCondition t p _ c).sameBut h
  obtain ⟨left, right, hsplit⟩ := List.append_of_mem hc
  have hnodup := h.nodup_items found
  rw [hsplit] at hnodup
  refine ⟨p, n, left.length, found, by simp [hsplit], ?_⟩
  apply hsame.editedAt_place h h'
  have hchildren := hsame.map_toGroup h h' fun u hu => ⟨hu, hu⟩
  have hleft : (left.filterMap t.condition?).length = left.length :=
    h.length_filterMap found fun d hd => hsplit ▸ List.mem_append_left _ hd
  have hother : (left ++ right).filterMap t'.condition? = (left ++ right).filterMap t.condition? := by
    refine List.filterMap_congr fun d hd => hold d ?_
    rintro rfl
    exact (List.nodup_middle.1 hnodup).notMem hd
  obtain ⟨d, hd⟩ := Option.isSome_iff_exists.1 (h.condition?_isSome found hc)
  simp only [Subtree.toGroup_node, GroupNode.eraseItem, hchildren, hsplit, erase_append_cons hnodup,
    hother, List.filterMap_append, List.filterMap_cons_some hd, ← hleft, eraseIdx_append_cons]

theorem Shape.editedAt_removeGroup (h : t.Shape whole) (he : t.removeGroup g = some t')
    (hg : t.root ≠ some g) :
    ∃ p n i, t.group? p = some n ∧ n.groups[i]? = some g ∧
      t.EditedAt t' p fun x => { x with groups := x.groups.eraseIdx i } := by
  obtain ⟨p, ctx, n, left, child, right, rfl, rfl, heq, h'⟩ := h.removeGroup_group he hg
  obtain ⟨found, names, _⟩ := h.place
  -- Conditions below the removed group are gone, so here only what is left can be compared.
  have hold : ∀ d, t'.containsCondition d = true → t'.condition? d = t.condition? d := by
    intro d hd
    rw [heq] at hd ⊢
    exact condition?_discard_of_live hd
  have hsame : t.SameBut t' p := by
    rw [heq]
    exact (spares_discard t p child.id _).sameBut h
  obtain ⟨found', _, _⟩ := h'.place
  refine ⟨p, n, left.length, found, by simp [names], ?_⟩
  apply hsame.editedAt_place h h'
  have hitems : n.items.filterMap t.condition? = n.items.filterMap t'.condition? :=
    h'.filterMap_items (n := n.eraseGroup child.id) found' fun d hd => (hold d hd).symm
  have hstay : ∀ u ∈ left ++ right, u ∈ left ++ child :: right ∧ u ∈ left ++ right := by
    intro u hu
    refine ⟨?_, hu⟩
    rcases List.mem_append.1 hu with hu | hu <;> simp [hu]
  have hchildren := hsame.map_toGroup h h' hstay
  have hleft : left.length = (left.map (Subtree.toGroup t.condition?)).length := by simp
  simp only [Subtree.toGroup_node, GroupNode.eraseGroup, hchildren, ← hitems, List.map_append,
    List.map_cons]
  rw [hleft, eraseIdx_append_cons]

theorem Shape.editedAt_updateCondition (h : t.Shape whole) {f : Condition → Condition}
    (he : t.updateCondition c f = some t') :
    ∃ p n i, t.group? p = some n ∧ n.items[i]? = some c ∧
      t.EditedAt t' p fun x => { x with items := x.items.modify i f } := by
  obtain ⟨hlive, heq, h'⟩ := h.updateCondition he
  obtain ⟨p, n, ctx, children, left, right, rfl, found, hsplit⟩ := h.exists_item hlive
  have hcondition : ∀ d, t'.condition? d =
      if d = c then (t.condition? c).map f else t.condition? d := by
    rw [heq]
    exact fun d => condition?_modifyCondition (t := t) c d f
  have hold : ∀ d, d ≠ c → t'.condition? d = t.condition? d := fun d hne => by
    rw [hcondition, if_neg hne]
  have hc : c ∈ n.items := by simp [hsplit]
  have hsame : t.SameBut t' p := by
    constructor
    case group =>
      intro g _ _ _
      rw [heq]
      rfl
    case condition =>
      intro g m hne hg d hd _
      apply hold d
      rintro rfl
      exact h.not_mem_items found hc hg hne hd
  have hnodup := h.nodup_items found
  rw [hsplit] at hnodup
  refine ⟨p, n, left.length, found, by simp [hsplit], ?_⟩
  apply hsame.editedAt_place h h'
  have hchildren := hsame.map_toGroup h h' fun u hu => ⟨hu, hu⟩
  have hleft : (left.filterMap t.condition?).length = left.length :=
    h.length_filterMap found fun d hd => hsplit ▸ List.mem_append_left _ hd
  have hother : ∀ d ∈ left ++ right, t'.condition? d = t.condition? d := by
    intro d hd
    apply hold d
    rintro rfl
    exact (List.nodup_middle.1 hnodup).notMem hd
  have hotherl := List.filterMap_congr fun d hd => hother d (List.mem_append_left _ hd)
  have hotherr := List.filterMap_congr fun d hd => hother d (List.mem_append_right _ hd)
  obtain ⟨d, hd⟩ := Option.isSome_iff_exists.1 (h.condition?_isSome found hc)
  have hd' : t'.condition? c = some (f d) := by rw [hcondition, if_pos rfl, hd, Option.map_some]
  simp only [Subtree.toGroup_node, hchildren, hsplit, List.filterMap_append,
    List.filterMap_cons_some hd, List.filterMap_cons_some hd', hotherl, hotherr, ← hleft,
    modify_append_cons]

theorem Shape.toGroup?_addGroup (h : t.Shape whole) {template : Option Group}
    (he : t.addGroup (.group p) template = some (g, t')) :
    t.containsGroup g = false ∧ t'.toGroup? g = some (template.getD .empty) := by
  obtain ⟨ctx, n, children, s, rfl, rfl, hvalue, h', _⟩ := h.addGroup_group he
  obtain ⟨_, _, below⟩ := h'.place
  obtain ⟨u, hid, hadded⟩ := h.added_group he
  refine ⟨hid ▸ (hadded.group u.id (Subtree.id_mem_groupIds u)).1, ?_⟩
  rw [h'.toGroup?_eq (below s (by simp)), hvalue]

/-- What each edit that finds something to act on does to the plain values of a tree. -/
structure Refines (t : Tree) : Prop where
  toggle : ∀ p o t', t.toggle p = some (o, t') →
    t.EditedAt t' p (fun x => { x with operator := some x.effectiveOperator.negate }) ∧
      ∃ x, t.toGroup? p = some x ∧ o = x.effectiveOperator.negate
  addCondition : ∀ p template c t', t.addCondition p template = some (c, t') →
    t.EditedAt t' p (·.addItem (template.getD .empty)) ∧
      t.condition? c = none ∧ t'.condition? c = some (template.getD .empty)
  addGroup : ∀ p template g t', t.addGroup (.group p) template = some (g, t') →
    t.EditedAt t' p (·.addGroup (template.getD .empty)) ∧
      t.containsGroup g = false ∧ t'.toGroup? g = some (template.getD .empty)
  removeCondition : ∀ c t', t.removeCondition c = some t' →
    ∃ p n i, t.group? p = some n ∧ n.items[i]? = some c ∧
      t.EditedAt t' p fun x => { x with items := x.items.eraseIdx i }
  removeGroup : ∀ g t', t.removeGroup g = some t' → t.root ≠ some g →
    ∃ p n i, t.group? p = some n ∧ n.groups[i]? = some g ∧
      t.EditedAt t' p fun x => { x with groups := x.groups.eraseIdx i }
  updateCondition : ∀ c f t', t.updateCondition c f = some t' →
    ∃ p n i, t.group? p = some n ∧ n.items[i]? = some c ∧
      t.EditedAt t' p fun x => { x with items := x.items.modify i f }
  replaceWhole : ∀ template, ∃ r t', t.addGroup .rule template = some (r, t') ∧
    t'.root = some r ∧ t'.rootGroup? = some (template.getD .empty) ∧
      ∀ g, t.containsGroup g = true → t'.containsGroup g = false
  removeWhole : ∀ r, t.root = some r → ∃ t', t.removeGroup r = some t' ∧
    t'.rootGroup? = none ∧ ∀ g, t'.containsGroup g = false
  ensureRoot : t.ensureRoot.2.rootGroup? = some (t.rootGroup?.getD .empty) ∧
    (t.root.isSome → t.ensureRoot.2 = t)

theorem Shape.refines (h : t.Shape whole) : t.Refines where
  toggle _ _ _ he := h.editedAt_toggle he
  addCondition _ _ _ _ he := by
    obtain ⟨_, _, _, _, hfresh, _, hnew, _⟩ := h.addCondition he
    exact ⟨h.editedAt_addCondition he, hfresh, hnew⟩
  addGroup _ _ _ _ he := ⟨h.editedAt_addGroup he, h.toGroup?_addGroup he⟩
  removeCondition _ _ he := h.editedAt_removeCondition he
  removeGroup _ _ he hg := h.editedAt_removeGroup he hg
  updateCondition _ _ _ he := h.editedAt_updateCondition he
  replaceWhole template := by
    obtain ⟨s, t', hadd, h', hvalue⟩ := h.addGroup_rule template
    refine ⟨s.id, t', hadd, h'.root, ?_, fun g hg => h.containsGroup_addGroup_rule hadd hg⟩
    rw [h'.rootGroup?_eq, hvalue]
  removeWhole r hr := by
    obtain ⟨s, rfl, rfl⟩ := Option.map_eq_some_iff.1 (h.root.symm.trans hr)
    exact ⟨t.discardRoot, h.removeGroup_root, h.discardRoot.rootGroup?_none,
      h.discardRoot.containsGroup_none⟩
  ensureRoot := by
    cases whole with
    | none =>
      refine ⟨?_, fun hroot => ?_⟩
      · rw [h.ensureRoot_none.rootGroup?_eq, h.rootGroup?_none]
        rfl
      · simp [h.root] at hroot
    | some s =>
      rw [h.ensureRoot_some, h.rootGroup?_eq]
      exact ⟨rfl, fun _ => rfl⟩

theorem rootGroup?_ofGroup (g : Group) : (ofGroup g).rootGroup? = some g := by
  obtain ⟨s, hshape, hvalue⟩ := shape_ofGroup g
  rw [hshape.rootGroup?_eq, hvalue]

/-- A tree starts as the value that it was made from, and all edits on the way are edits of it. -/
theorem refines_values :
    (∀ g, (ofGroup g).rootGroup? = some g) ∧ ∀ t : Tree, t.Reachable → t.Refines := by
  refine ⟨rootGroup?_ofGroup, fun t h => ?_⟩
  obtain ⟨_, hshape⟩ := h.shape
  exact hshape.refines

/-- The second of two nested groups gets a condition and has its operator turned. -/
theorem refines_values_nested :
    let t := (ofGroup ⟨none, [], [.empty, ⟨some .or, [.empty], []⟩]⟩).run
      [.addCondition ⟨⟨1, 0⟩⟩ none, .toggle ⟨⟨1, 0⟩⟩]
    t.Reachable ∧ t.follow? ⟨⟨2, 0⟩⟩ [1] = some ⟨⟨1, 0⟩⟩ ∧
      (t.removeGroup ⟨⟨0, 0⟩⟩).isSome ∧ t.Refines := by
  have hreached : ∀ es, ((ofGroup ⟨none, [], [.empty, ⟨some .or, [.empty], []⟩]⟩).run
      es).Reachable := fun es => ⟨_, es, .ofGroup _, rfl⟩
  exact ⟨hreached _, by decide, by decide, refines_values.2 _ (hreached _)⟩

end Tree

end WhenClause
