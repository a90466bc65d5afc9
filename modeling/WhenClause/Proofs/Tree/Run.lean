import WhenClause.Proofs.Tree.Shape
import WhenClause.Snapshot.Rule

/-!
# Runs of edits

Edits as data, so that a run is a list of them. An edit that finds nothing to act on leaves the
tree as it is. A run starts from a tree without a root or from a copy of a plain group, which is
also what a rule has whether its group was given, read from text or loaded from a snapshot. Every
tree that a run comes to has a shape.
-/

namespace WhenClause

inductive Edit where
  | ensureRoot
  | toggle (g : GroupId)
  | addGroup (parent : Tree.Parent) (template : Option Group)
  | removeGroup (g : GroupId)
  | addCondition (parent : GroupId) (template : Option Condition)
  | removeCondition (c : ConditionId)
  | updateCondition (c : ConditionId) (f : Condition → Condition)

/-- The group that an edit acts on, not counting the place of a condition. -/
def Edit.group? : Edit → Option GroupId
  | .toggle g | .removeGroup g => some g
  | .addGroup (.group p) _ | .addCondition p _ => some p
  | .ensureRoot | .addGroup .rule _ | .removeCondition _ | .updateCondition _ _ => none

def Edit.condition? : Edit → Option ConditionId
  | .removeCondition c | .updateCondition c _ => some c
  | _ => none

namespace Tree

open Subtree (plug Frame)

def edit? (t : Tree) : Edit → Option Tree
  | .ensureRoot => some t.ensureRoot.2
  | .toggle g => (t.toggle g).map Prod.snd
  | .addGroup parent template => (t.addGroup parent template).map Prod.snd
  | .removeGroup g => t.removeGroup g
  | .addCondition parent template => (t.addCondition parent template).map Prod.snd
  | .removeCondition c => t.removeCondition c
  | .updateCondition c f => t.updateCondition c f

def edit (t : Tree) (e : Edit) : Tree := (t.edit? e).getD t

def run (t : Tree) (es : List Edit) : Tree := es.foldl edit t

inductive Initial : Tree → Prop
  | empty : Initial .empty
  | ofGroup (g : Group) : Initial (.ofGroup g)
  | withGroup (r : Rule) (g : Group) : Initial (r.withGroup g).tree
  | ofText {name text : String} {r : Rule} (h : Rule.ofText name text = .ok r) : Initial r.tree
  | decode {digest : Bytes → Snapshot.Digest} {bytes : Bytes} {r : Rule}
      (h : Rule.decode digest bytes = .ok r) : Initial r.tree

def Reachable (t : Tree) : Prop := ∃ t₀ es, Initial t₀ ∧ t = t₀.run es

theorem run_append (t : Tree) (es es' : List Edit) : t.run (es ++ es') = (t.run es).run es' :=
  List.foldl_append

variable {t t' : Tree} {whole : Option Subtree} {p g : GroupId} {c : ConditionId}

theorem shape_ofGroup (g : Group) :
    ∃ s, (ofGroup g).Shape (some s) ∧ s.toGroup (ofGroup g).condition? = g := by
  obtain ⟨s, hid, hcopied⟩ := copied_insertGroup g Forest.empty
  refine ⟨s, ⟨congrArg some hid.symm, hcopied.forest.withRoot _⟩, ?_⟩
  exact List.head_eq_of_cons_eq hcopied.value

theorem edit_of_some {e : Edit} (he : t.edit? e = some t') : t.edit e = t' := by
  rw [edit, he, Option.getD_some]

theorem edit_of_none {e : Edit} (he : t.edit? e = none) : t.edit e = t := by
  rw [edit, he, Option.getD_none]

/-! ## What an edit that finds something to act on comes down to -/

theorem toggle_eq_some {o : Operator} (he : t.toggle p = some (o, t')) :
    ∃ n, t.group? p = some n ∧ o = n.effectiveOperator.negate ∧
      t' = t.modifyGroup p GroupNode.toggle := by
  obtain ⟨n, hn, heq⟩ := Option.map_eq_some_iff.1 he
  obtain ⟨rfl, rfl⟩ := Prod.mk.inj heq
  exact ⟨n, hn, rfl, rfl⟩

theorem addGroup_group_eq_some {template : Option Group}
    (he : t.addGroup (.group p) template = some (g, t')) :
    t.containsGroup p = true ∧ g = (insertGroup (template.getD .empty) t).1 ∧
      t' = (insertGroup (template.getD .empty) t).2.modifyGroup p (·.addGroup g) := by
  obtain ⟨hp, heq⟩ := Option.ite_none_right_eq_some.1 he
  obtain ⟨rfl, rfl⟩ := Prod.mk.inj (Option.some.inj heq)
  exact ⟨hp, rfl, rfl⟩

theorem removeGroup_eq_some (he : t.removeGroup g = some t') :
    t.root = some g ∧ t' = t.discardRoot ∨
      ∃ root p, t.root = some root ∧ g ≠ root ∧ t.parentOfGroup? g root = some p ∧
        t' = (t.modifyGroup p (·.eraseGroup g)).discard g := by
  obtain ⟨root, hroot, he⟩ := Option.bind_eq_some_iff.1 he
  by_cases hg : g = root
  · rw [if_pos hg] at he
    exact .inl ⟨hg ▸ hroot, (Option.some.inj he).symm⟩
  · rw [if_neg hg] at he
    obtain ⟨p, hp, rfl⟩ := Option.map_eq_some_iff.1 he
    exact .inr ⟨root, p, hroot, hg, hp, rfl⟩

theorem addCondition_eq_some {template : Option Condition}
    (he : t.addCondition p template = some (c, t')) :
    t.containsGroup p = true ∧ c = (t.insertCondition (template.getD .empty)).1 ∧
      t' = (t.insertCondition (template.getD .empty)).2.modifyGroup p (·.addItem c) := by
  obtain ⟨hp, heq⟩ := Option.ite_none_right_eq_some.1 he
  obtain ⟨rfl, rfl⟩ := Prod.mk.inj (Option.some.inj heq)
  exact ⟨hp, rfl, rfl⟩

theorem removeCondition_eq_some (he : t.removeCondition c = some t') :
    ∃ root p, t.root = some root ∧ t.parentOfCondition? c root = some p ∧
      t' = { t.modifyGroup p (·.eraseItem c) with conditions := t.conditions.erase c.key } := by
  obtain ⟨root, hroot, he⟩ := Option.bind_eq_some_iff.1 he
  obtain ⟨p, hp, rfl⟩ := Option.map_eq_some_iff.1 he
  exact ⟨root, p, hroot, hp, rfl⟩

theorem updateCondition_eq_some {f : Condition → Condition}
    (he : t.updateCondition c f = some t') :
    t.containsCondition c = true ∧
      t' = { t with conditions := t.conditions.modify c.key f } := by
  obtain ⟨hc, heq⟩ := Option.ite_none_right_eq_some.1 he
  exact ⟨hc, (Option.some.inj heq).symm⟩

namespace Shape

theorem ensureRoot_none (h : t.Shape none) :
    t.ensureRoot.2.Shape (some (.node t.ensureRoot.1 .empty [])) := by
  have hnode : (t.insertNode .empty).2.Forest [] [.node (t.insertNode .empty).1 .empty []] :=
    h.forest.insertNode (n := .empty) rfl
  simp only [Tree.ensureRoot, h.root, Option.map_none]
  exact ⟨rfl, hnode.withRoot _⟩

theorem ensureRoot_some {s : Subtree} (h : t.Shape (some s)) : t.ensureRoot = (s.id, t) := by
  simp only [Tree.ensureRoot, h.root, Option.map_some]

theorem toggle (h : t.Shape whole) {o : Operator} (he : t.toggle p = some (o, t')) :
    ∃ ctx n children, whole = some (plug ctx (.node p n children)) ∧
      o = n.effectiveOperator.negate ∧ t' = t.modifyGroup p GroupNode.toggle ∧
      t'.Shape (some (plug ctx (.node p n.toggle children))) := by
  obtain ⟨n, hn, rfl, rfl⟩ := toggle_eq_some he
  obtain ⟨ctx, children, rfl⟩ := h.exists_place hn
  exact ⟨ctx, n, children, rfl, rfl, rfl, h.modifyGroup rfl rfl⟩

theorem addCondition (h : t.Shape whole) {template : Option Condition}
    (he : t.addCondition p template = some (c, t')) :
    ∃ ctx n children, whole = some (plug ctx (.node p n children)) ∧
      t.condition? c = none ∧
      t' = ((t.insertCondition (template.getD .empty)).2.modifyGroup p (·.addItem c)) ∧
      t'.condition? c = some (template.getD .empty) ∧
      t'.Shape (some (plug ctx (.node p (n.addItem c) children))) := by
  obtain ⟨hp, rfl, rfl⟩ := addCondition_eq_some he
  obtain ⟨n, hn⟩ := Tree.containsGroup_iff.1 hp
  obtain ⟨ctx, children, rfl⟩ := h.exists_place hn
  exact ⟨ctx, n, children, rfl, condition?_fst_insertCondition (template.getD .empty), rfl,
    condition?_insertCondition_self t (template.getD .empty), h.addItem (template.getD .empty)⟩

theorem addGroup_group (h : t.Shape whole) {template : Option Group}
    (he : t.addGroup (.group p) template = some (g, t')) :
    ∃ ctx n children s, whole = some (plug ctx (.node p n children)) ∧
      s.id = g ∧ s.toGroup t'.condition? = template.getD .empty ∧
      t'.Shape (some (plug ctx (.node p (n.addGroup g) (children ++ [s])))) ∧
      ∃ t₁, t.Extends t₁ ∧ t' = t₁.modifyGroup p (·.addGroup g) := by
  obtain ⟨hp, rfl, rfl⟩ := addGroup_group_eq_some he
  obtain ⟨n, hn⟩ := Tree.containsGroup_iff.1 hp
  obtain ⟨ctx, children, rfl⟩ := h.exists_place hn
  obtain ⟨s, hid, hcopied⟩ := copied_insertGroup (template.getD .empty) h.forest
  rw [← hid]
  exact ⟨ctx, n, children, s, rfl, rfl, List.head_eq_of_cons_eq hcopied.value,
    h.addGroup hcopied.forest hcopied.keeps.root, _, hcopied.keeps, rfl⟩

theorem addGroup_rule (h : t.Shape whole) (template : Option Group) :
    ∃ s t', t.addGroup .rule template = some (s.id, t') ∧ t'.Shape (some s) ∧
      s.toGroup t'.condition? = template.getD .empty := by
  obtain ⟨s, hid, hcopied⟩ := copied_insertGroup (template.getD .empty) h.discardRoot.forest
  refine ⟨s, { (insertGroup (template.getD .empty) t.discardRoot).2 with root := some s.id }, ?_,
    ⟨rfl, hcopied.forest.withRoot _⟩, List.head_eq_of_cons_eq hcopied.value⟩
  simp only [Tree.addGroup, hid]

theorem removeGroup_root {s : Subtree} (h : t.Shape (some s)) :
    t.removeGroup s.id = some t.discardRoot := by
  simp only [Tree.removeGroup, h.root, Option.map_some, Option.bind_some, if_true]

theorem exists_child_place {s : Subtree} (h : t.Shape (some s)) (hp : s.parentOfGroup? g = some p) :
    ∃ ctx n left child right,
      s = plug ctx (.node p n (left ++ child :: right)) ∧ child.id = g := by
  obtain ⟨⟨_, n⟩, hfind, rfl⟩ := Option.map_eq_some_iff.1 hp
  obtain ⟨ctx, children, rfl⟩ :=
    Subtree.exists_plug_of_mem_nodes (List.mem_of_find?_eq_some hfind)
  have hmem : g ∈ n.groups := by simpa using List.find?_some hfind
  obtain ⟨_, names, _⟩ := h.place
  rw [names] at hmem
  obtain ⟨child, hchild, hid⟩ := List.mem_map.1 hmem
  obtain ⟨left, right, rfl⟩ := List.append_of_mem hchild
  exact ⟨ctx, n, left, child, right, rfl, hid⟩

theorem exists_item_place {s : Subtree} (hp : s.parentOfCondition? c = some p) :
    ∃ ctx n children, s = plug ctx (.node p n children) ∧ c ∈ n.items := by
  obtain ⟨⟨_, n⟩, hfind, rfl⟩ := Option.map_eq_some_iff.1 hp
  obtain ⟨ctx, children, rfl⟩ :=
    Subtree.exists_plug_of_mem_nodes (List.mem_of_find?_eq_some hfind)
  exact ⟨ctx, n, children, rfl, by simpa using List.find?_some hfind⟩

theorem removeGroup_group (h : t.Shape whole) (he : t.removeGroup g = some t')
    (hg : t.root ≠ some g) :
    ∃ p ctx n left child right,
      whole = some (plug ctx (.node p n (left ++ child :: right))) ∧ child.id = g ∧
      t' = (t.modifyGroup p (·.eraseGroup g)).discard g ∧
      t'.Shape (some (plug ctx (.node p (n.eraseGroup g) (left ++ right)))) := by
  obtain ⟨root, p, hroot, _, hp, rfl⟩ := (removeGroup_eq_some he).resolve_left fun heq => hg heq.1
  obtain ⟨s, rfl, rfl⟩ := Option.map_eq_some_iff.1 (h.root.symm.trans hroot)
  rw [parentOfGroup?, h.subtree?_eq, Option.bind_some] at hp
  obtain ⟨ctx, n, left, child, right, rfl, rfl⟩ := h.exists_child_place hp
  exact ⟨p, ctx, n, left, child, right, rfl, rfl, rfl, h.eraseGroup⟩

theorem removeCondition (h : t.Shape whole) (he : t.removeCondition c = some t') :
    ∃ p ctx n children, whole = some (plug ctx (.node p n children)) ∧ c ∈ n.items ∧
      t' = { t.modifyGroup p (·.eraseItem c) with conditions := t.conditions.erase c.key } ∧
      t'.Shape (some (plug ctx (.node p (n.eraseItem c) children))) := by
  obtain ⟨root, p, hroot, hp, rfl⟩ := removeCondition_eq_some he
  obtain ⟨s, rfl, rfl⟩ := Option.map_eq_some_iff.1 (h.root.symm.trans hroot)
  rw [parentOfCondition?, h.subtree?_eq, Option.bind_some] at hp
  obtain ⟨ctx, n, children, rfl, hc⟩ := exists_item_place hp
  exact ⟨p, ctx, n, children, rfl, hc, rfl, h.eraseItem hc⟩

theorem updateCondition (h : t.Shape whole) {f : Condition → Condition}
    (he : t.updateCondition c f = some t') :
    t.containsCondition c = true ∧ t' = { t with conditions := t.conditions.modify c.key f } ∧
      t'.Shape whole := by
  obtain ⟨hc, rfl⟩ := updateCondition_eq_some he
  exact ⟨hc, rfl, h.modifyCondition c f⟩

theorem edit? (h : t.Shape whole) {e : Edit} (he : t.edit? e = some t') :
    ∃ whole', t'.Shape whole' := by
  cases e with
  | ensureRoot =>
    cases he
    cases whole with
    | none => exact ⟨_, h.ensureRoot_none⟩
    | some s =>
      rw [h.ensureRoot_some]
      exact ⟨some s, h⟩
  | toggle g =>
    obtain ⟨⟨o, _⟩, htoggle, rfl⟩ := Option.map_eq_some_iff.1 he
    obtain ⟨_, _, _, _, _, _, hshape⟩ := h.toggle htoggle
    exact ⟨_, hshape⟩
  | addGroup parent template =>
    obtain ⟨⟨g, _⟩, hadd, rfl⟩ := Option.map_eq_some_iff.1 he
    cases parent with
    | rule =>
      obtain ⟨s, t'', heq, hshape, _⟩ := h.addGroup_rule template
      cases hadd.symm.trans heq
      exact ⟨_, hshape⟩
    | group p =>
      obtain ⟨_, _, _, _, _, _, _, hshape, _⟩ := h.addGroup_group hadd
      exact ⟨_, hshape⟩
  | removeGroup g =>
    by_cases hg : t.root = some g
    · obtain ⟨s, rfl, rfl⟩ := Option.map_eq_some_iff.1 (h.root.symm.trans hg)
      cases h.removeGroup_root.symm.trans he
      exact ⟨_, h.discardRoot⟩
    · obtain ⟨_, _, _, _, _, _, _, _, _, hshape⟩ := h.removeGroup_group he hg
      exact ⟨_, hshape⟩
  | addCondition parent template =>
    obtain ⟨⟨c, _⟩, hadd, rfl⟩ := Option.map_eq_some_iff.1 he
    obtain ⟨_, _, _, _, _, _, _, hshape⟩ := h.addCondition hadd
    exact ⟨_, hshape⟩
  | removeCondition c =>
    obtain ⟨_, _, _, _, _, _, _, hshape⟩ := h.removeCondition he
    exact ⟨_, hshape⟩
  | updateCondition c f => exact ⟨_, (h.updateCondition he).2.2⟩

theorem edit (h : t.Shape whole) (e : Edit) : ∃ whole', (t.edit e).Shape whole' := by
  unfold Tree.edit
  cases he : t.edit? e with
  | none => exact ⟨whole, h⟩
  | some t' => exact h.edit? he

theorem run (h : t.Shape whole) (es : List Edit) : ∃ whole', (t.run es).Shape whole' := by
  induction es generalizing t whole with
  | nil => exact ⟨whole, h⟩
  | cons e es ih =>
    obtain ⟨_, h'⟩ := h.edit e
    exact ih h'

end Shape

theorem shape_ofGroup? (name : String) (g : Option Group) :
    ∃ whole, (Rule.ofGroup? name g).tree.Shape whole := by
  cases g with
  | none => exact ⟨none, .empty⟩
  | some g =>
    obtain ⟨s, hs, _⟩ := shape_ofGroup g
    exact ⟨some s, hs⟩

theorem Initial.shape (h : t.Initial) : ∃ whole, t.Shape whole := by
  cases h with
  | empty => exact shape_ofGroup? "" none
  | ofGroup g => exact shape_ofGroup? "" (some g)
  | withGroup r g => exact shape_ofGroup? "" (some g)
  | @ofText name text r h =>
    unfold Rule.ofText at h
    cases hg : Group.ofText text with
    | ok g =>
      rw [hg] at h
      cases h
      exact shape_ofGroup? name (some g)
    | error f =>
      rw [hg] at h
      cases h
  | @decode digest bytes r h =>
    unfold Rule.decode at h
    cases hp : Snapshot.decode digest bytes with
    | ok p =>
      rw [hp] at h
      cases h
      exact shape_ofGroup? p.name p.group
    | error f =>
      rw [hp] at h
      cases h

theorem Initial.reachable (h : t.Initial) : t.Reachable := ⟨t, [], h, rfl⟩

theorem Reachable.shape (h : t.Reachable) : ∃ whole, t.Shape whole := by
  obtain ⟨t₀, es, hinitial, rfl⟩ := h
  obtain ⟨_, hshape⟩ := hinitial.shape
  exact hshape.run es

theorem Reachable.edit (h : t.Reachable) (e : Edit) : (t.edit e).Reachable := by
  obtain ⟨t₀, es, hinitial, rfl⟩ := h
  exact ⟨t₀, es ++ [e], hinitial, by rw [run_append]; rfl⟩

end Tree

end WhenClause
