import WhenClause.Proofs.Editor.Notification
import WhenClause.Proofs.Tree.Addressed

/-!
# Editing by position

A move is a call of an editor that names groups and conditions by where they are listed when it is
made. What it reports, with positions for handles, and what the rule is worth after it are found
without looking at a tree: they depend on the plain value before the move and on the configuration.
-/

namespace WhenClause

open Subtree (plug path Frame)

/-! ## Views without handles -/

mutual
/-- A view that shows where things are listed in place of their handles. -/
inductive PlacedView where
  | mk (position : Option Nat) (operator : Operator) (outline removable : Bool)
    (rows : List PlacedRow) (addCondition addGroup hasItems : Bool)

inductive PlacedRow where
  | condition (operator : Operator) (position : Option Nat) (removable : Bool)
  | group (operator : Operator) (view : PlacedView)
end

mutual
def GroupView.placed (t : Tree) : GroupView → PlacedView
  | .mk id operator outline removable rows addCondition addGroup hasItems =>
    .mk (position t.groupIds id) operator outline removable (placedRows t rows) addCondition
      addGroup hasItems

def placedRows (t : Tree) : List Row → List PlacedRow
  | [] => []
  | row :: rows => row.placed t :: placedRows t rows

def Row.placed (t : Tree) : Row → PlacedRow
  | .condition operator id removable => .condition operator (position t.conditionIds id) removable
  | .group operator view => .group operator (view.placed t)
end

theorem placedRows_eq_map (t : Tree) (rows : List Row) :
    placedRows t rows = rows.map (Row.placed t) := by
  induction rows with
  | nil => rfl
  | cons row rows ih => rw [placedRows, ih, List.map_cons]

def Tree.placedView? (t : Tree) (config : Config) : Option PlacedView :=
  (t.view? config).map (GroupView.placed t)

namespace GroupView

variable {t t' : Tree} {s s' : Subtree}

theorem placed_ofSubtree (t : Tree) (config : Config) (isRoot : Bool) (id : GroupId)
    (record : GroupNode) (children : List Subtree) :
    (ofSubtree config isRoot (.node id record children)).placed t =
      let removable := !config.readonly && decide (1 < record.items.length)
      .mk (position t.groupIds id) record.effectiveOperator config.showsGroupOutline
        (!config.readonly && !isRoot)
        ((record.items.map (position t.conditionIds)).map
            (.condition record.effectiveOperator · removable) ++
          (children.map fun s => (ofSubtree config false s).placed t).map
            (.group record.effectiveOperator ·))
        config.showsAddCondition config.showsAddGroup
        (!(record.items.isEmpty && record.groups.isEmpty)) := by
  simp only [ofSubtree, placed, placedRows_eq_map, groupRows_eq_map, List.map_append, List.map_map]
  rfl

theorem isEmpty_congr {α β : Type} {l : List α} {m : List β} (h : l.length = m.length) :
    l.isEmpty = m.isEmpty := by
  rw [Bool.eq_iff_iff, List.isEmpty_iff_length_eq_zero, List.isEmpty_iff_length_eq_zero, h]

theorem placed_eq (h : t.Shape (some s)) (h' : t'.Shape (some s'))
    (hvalue : t.rootGroup? = t'.rootGroup?) (config : Config) {u : Subtree} :
    ∀ {ctx ctx' : List Frame} {u' : Subtree} (isRoot : Bool), s = plug ctx u → s' = plug ctx' u' →
      path ctx = path ctx' → u.toGroup t.condition? = u'.toGroup t'.condition? →
        (ofSubtree config isRoot u).placed t = (ofSubtree config isRoot u').placed t' := by
  induction u using Subtree.induct with
  | node id record children ih =>
    rintro ctx ctx' ⟨id', record', children'⟩ isRoot rfl rfl hpath hu
    obtain ⟨found, names, _⟩ := h.place
    obtain ⟨found', names', _⟩ := h'.place
    have hroot := h.rootGroup?_eq
    have hroot' := hvalue.symm.trans hroot
    rw [Subtree.toGroup_node, Subtree.toGroup_node] at hu
    obtain ⟨hoperator, hitems, hchildren⟩ := Group.mk.inj hu
    have hcount : record.items.length = record'.items.length := by
      rw [← h.length_filterMap found fun c hc => hc, hitems,
        h'.length_filterMap found' fun c hc => hc]
    have hnested : children.length = children'.length := by
      simpa using congrArg List.length hchildren
    have hnamed : record.groups.length = record'.groups.length := by
      rw [names, names', List.length_map, List.length_map, hnested]
    have heffective : record.effectiveOperator = record'.effectiveOperator :=
      congrArg Operator.effective hoperator
    have hposition : position t.groupIds id = position t'.groupIds id' :=
      (h.position_group hroot).trans (hpath ▸ (h'.position_group hroot').symm)
    have hconditions : record.items.map (position t.conditionIds) =
        record'.items.map (position t'.conditionIds) := by
      rw [h.map_position_items hroot, h'.map_position_items hroot', hpath, hcount]
    have hgroups : (children.map fun s => (ofSubtree config false s).placed t) =
        children'.map fun s => (ofSubtree config false s).placed t' := by
      apply List.ext_getElem
      · simpa using hnested
      · intro i hi hi'
        rw [List.length_map] at hi hi'
        obtain ⟨ctx₁, hplug, hctx⟩ := Subtree.exists_plug_child ctx id record hi
        obtain ⟨ctx₂, hplug', hctx'⟩ := Subtree.exists_plug_child ctx' id' record' hi'
        have hchild : children[i].toGroup t.condition? = children'[i].toGroup t'.condition? := by
          have hget := List.getElem_of_eq hchildren (by simpa using hi)
          simpa using hget
        rw [List.getElem_map, List.getElem_map]
        exact ih _ (List.getElem_mem hi) false hplug hplug' (by rw [hctx, hctx', hpath]) hchild
    rw [placed_ofSubtree, placed_ofSubtree, hposition, heffective, hconditions, hgroups, hcount,
      isEmpty_congr hcount, isEmpty_congr hnamed]

end GroupView

theorem Tree.placedView?_eq {t t' : Tree} {s s' : Subtree} (h : t.Shape (some s))
    (h' : t'.Shape (some s')) (hvalue : t.rootGroup? = t'.rootGroup?) (config : Config) :
    t.placedView? config = t'.placedView? config := by
  have hsame : s.toGroup t.condition? = s'.toGroup t'.condition? := by
    rw [h.rootGroup?_eq, h'.rootGroup?_eq] at hvalue
    exact Option.some.inj hvalue
  have hplaced := @GroupView.placed_eq t t' s s' h h' hvalue config s [] [] s' true rfl rfl rfl hsame
  simp only [placedView?, view?, rootSubtree?, h.root, h'.root, Option.map_some, Option.bind_some,
    h.subtree?_eq, h'.subtree?_eq, hplaced]

/-! ## Moves -/

namespace Editor

inductive Move where
  | ensureRoot
  | view
  | toggle (group : Nat)
  | replaceWhole
  | addGroup (parent : Nat)
  | removeGroup (group : Nat)
  | addCondition (parent : Nat)
  | removeCondition (condition : Nat)
  | updateCondition (condition : Nat) (f : Condition → Condition)

/-- What a move reports: that nothing is listed there, that the editor found nothing to act on, or
what the editor returned. The root and new nodes are told by where they are listed after the move. -/
inductive Report where
  | absent
  | refused
  | root (position : Option Nat)
  | view (view : Option PlacedView)
  | turned (operator : Operator)
  | group (position : Option Nat)
  | condition (position : Option Nat)
  | done

namespace Report

def announced : Report → Bool
  | .absent | .refused | .root _ | .view _ => false
  | .turned _ | .group _ | .condition _ | .done => true

def listed : Report → Bool
  | .root position | .group position | .condition position => position.isSome
  | .absent | .refused | .view _ | .turned _ | .done => true

end Report

def Move.call? (t : Tree) : Move → Option Call
  | .ensureRoot => some .ensureRoot
  | .view => some .view
  | .toggle i => t.groupIds[i]?.map .toggle
  | .replaceWhole => some (.addGroup .rule)
  | .addGroup i => t.groupIds[i]?.map fun p => .addGroup (.group p)
  | .removeGroup i => t.groupIds[i]?.map .removeGroup
  | .addCondition i => t.groupIds[i]?.map .addCondition
  | .removeCondition j => t.conditionIds[j]?.map .removeCondition
  | .updateCondition j f => t.conditionIds[j]?.map fun c => .updateCondition c f

variable {σ : Type}

def reportOf {α : Type} (result : Option α × Editor σ) (report : α → Report) : Report × Editor σ :=
  (result.1.elim .refused report, result.2)

def perform (e : Editor σ) : Call → Report × Editor σ
  | .ensureRoot =>
    let (g, e) := e.ensureRoot
    (.root (position e.rule.tree.groupIds g), e)
  | .view =>
    let (view, e) := e.view
    (.view (view.map (GroupView.placed e.rule.tree)), e)
  | .toggle g => reportOf (e.toggle g) .turned
  | .addGroup parent =>
    let result := e.addGroup parent
    reportOf result fun g => .group (position result.2.rule.tree.groupIds g)
  | .removeGroup g => reportOf (e.removeGroup g) fun _ => .done
  | .addCondition parent =>
    let result := e.addCondition parent
    reportOf result fun c => .condition (position result.2.rule.tree.conditionIds c)
  | .removeCondition c => reportOf (e.removeCondition c) fun _ => .done
  | .updateCondition c f => reportOf (e.updateCondition c f) fun _ => .done

def move (e : Editor σ) (m : Move) : Report × Editor σ :=
  match m.call? e.rule.tree with
  | some c => e.perform c
  | none => (.absent, e)

def moves (e : Editor σ) (ms : List Move) : Editor σ := ms.foldl (fun e m => (e.move m).2) e

/-! ### Moves of plain values -/

def atPlace {α : Type} (listing : Group → List α) (whole : Option Group) (i : Nat)
    (act : Group → α → Report × Option Group) : Report × Option Group :=
  match whole.bind fun g => (listing g)[i]?.map (g, ·) with
  | some (g, place) => act g place
  | none => (.absent, whole)

/-- The report of a move and what the rule is worth after it. -/
def Move.plain (config : Config) (whole : Option Group) : Move → Report × Option Group
  | .ensureRoot => (.root (some 0), some (whole.getD .empty))
  | .view =>
    let g := whole.getD .empty
    (.view ((Tree.ofGroup g).placedView? config), some g)
  | .toggle i => atPlace Group.paths whole i fun g path =>
    (.turned (g.descend path).effectiveOperator.negate, some (g.modifyAt path Group.toggle))
  | .replaceWhole => (.group (some 0), some (config.groupTemplate.getD .empty))
  | .addGroup i => atPlace Group.paths whole i fun g path =>
    let g' := g.modifyAt path (·.addGroup (config.groupTemplate.getD .empty))
    (.group (some (g'.paths.idxOf (path ++ [(g.descend path).groups.length]))), some g')
  | .removeGroup i => atPlace Group.paths whole i fun g path => (.done, g.remove? path)
  | .addCondition i => atPlace Group.paths whole i fun g path =>
    let g' := g.modifyAt path (·.addItem (config.conditionTemplate.getD .empty))
    (.condition (some (g'.slots.idxOf (path, (g.descend path).items.length))), some g')
  | .removeCondition j => atPlace Group.slots whole j fun g (path, i) =>
    (.done, some (g.modifyAt path fun x => { x with items := x.items.eraseIdx i }))
  | .updateCondition j f => atPlace Group.slots whole j fun g (path, i) =>
    (.done, some (g.modifyAt path fun x => { x with items := x.items.modify i f }))

theorem listed_plain (config : Config) (whole : Option Group) (m : Move) :
    (m.plain config whole).1.listed = true := by
  have hplace : ∀ {α : Type} (listing : Group → List α) i act,
      (∀ g place, (act g place : Report × Option Group).1.listed = true) →
        (atPlace listing whole i act).1.listed = true := by
    intro α listing i act hact
    unfold atPlace
    split
    · exact hact ..
    · rfl
  cases m with
  | ensureRoot | view | replaceWhole => rfl
  | toggle | addGroup | removeGroup | addCondition | removeCondition | updateCondition =>
    exact hplace _ _ _ fun _ _ => rfl

/-! ### A move of a rule is a move of its plain value -/

variable {e : Editor σ} {whole : Option Subtree} {s : Subtree}

def outcome (result : Report × Editor σ) : Report × Option Group :=
  (result.1, result.2.rule.tree.rootGroup?)

theorem outcome_atPlace {α κ : Type} {m : Move} {i : Nat} {handles : List κ} {k : κ → Call}
    {listing : Group → List α} {find : Subtree → α → Option κ}
    {act : Group → α → Report × Option Group} (h : e.rule.tree.Shape whole)
    (hcall : m.call? e.rule.tree = handles[i]?.map k) (hnone : whole = none → handles = [])
    (htogether : ∀ s, e.rule.tree.Shape (some s) →
      handles.map some = (listing (s.toGroup e.rule.tree.condition?)).map (find s))
    (hact : ∀ s place a, e.rule.tree.Shape (some s) → find s place = some a →
      outcome (e.perform (k a)) = act (s.toGroup e.rule.tree.condition?) place) :
    outcome (e.move m) = atPlace listing e.rule.tree.rootGroup? i act := by
  cases whole with
  | none =>
    rw [hnone rfl, List.getElem?_nil, Option.map_none] at hcall
    simp only [move, hcall, h.rootGroup?_none, outcome]
    rfl
  | some s =>
    rw [h.rootGroup?_eq, atPlace, Option.bind_some]
    obtain ⟨hplace, hlisted⟩ | ⟨place, a, hplace, hlisted, ha⟩ :=
      getElem?_together (htogether s h) i
    · rw [hlisted, Option.map_none] at hcall
      simp only [move, hcall, hplace, outcome, h.rootGroup?_eq]
      rfl
    · rw [hlisted, Option.map_some] at hcall
      simp only [move, hcall, hplace, Option.map_some]
      exact hact s place a h ha

theorem outcome_atGroup {m : Move} {i : Nat} {k : GroupId → Call}
    {act : Group → List Nat → Report × Option Group} (h : e.rule.tree.Shape whole)
    (hcall : m.call? e.rule.tree = e.rule.tree.groupIds[i]?.map k)
    (hact : ∀ s steps p, e.rule.tree.Shape (some s) → e.rule.tree.follow? s.id steps = some p →
      outcome (e.perform (k p)) = act (s.toGroup e.rule.tree.condition?) steps) :
    outcome (e.move m) = atPlace Group.paths e.rule.tree.rootGroup? i act := by
  refine outcome_atPlace h hcall ?_ (fun _ => Tree.Shape.map_groupIds) hact
  rintro rfl
  exact h.listed_none.1

theorem outcome_atCondition {m : Move} {j : Nat} {k : ConditionId → Call}
    {act : Group → List Nat × Nat → Report × Option Group} (h : e.rule.tree.Shape whole)
    (hcall : m.call? e.rule.tree = e.rule.tree.conditionIds[j]?.map k)
    (hact : ∀ s slot c, e.rule.tree.Shape (some s) → e.rule.tree.itemAt? s.id slot = some c →
      outcome (e.perform (k c)) = act (s.toGroup e.rule.tree.condition?) slot) :
    outcome (e.move m) = atPlace Group.slots e.rule.tree.rootGroup? j act := by
  refine outcome_atPlace h hcall ?_ (fun _ => Tree.Shape.map_conditionIds) hact
  rintro rfl
  exact h.listed_none.2

theorem outcome_commit {α : Type} {a : α} {t' : Tree} {edited : Option (α × Tree)}
    (hedited : edited = some (a, t')) (report : Tree → α → Report) :
    outcome (reportOf (e.commit edited) (report (e.commit edited).2.rule.tree)) =
      (report t' a, t'.rootGroup?) := by
  rw [hedited]
  rfl

theorem outcome_done {t' : Tree} {edited : Option Tree} (hedited : edited = some t') :
    outcome (reportOf (e.commit (edited.map ((), ·))) fun _ => .done) =
      (.done, t'.rootGroup?) := by
  rw [hedited]
  rfl

theorem position_root {t : Tree} (h : t.Shape (some s)) : position t.groupIds s.id = some 0 := by
  have hroot : t.follow? s.id [] = some s.id := rfl
  rw [h.position_groupIds hroot, Group.paths, Group.walk_eq]
  rfl

theorem exists_shape_ensureRoot {t : Tree} (h : t.Shape whole) :
    ∃ s, t.ensureRoot.2.Shape (some s) ∧ t.ensureRoot.1 = s.id := by
  cases whole with
  | none => exact ⟨_, h.ensureRoot_none, rfl⟩
  | some s =>
    rw [h.ensureRoot_some]
    exact ⟨s, h, rfl⟩

theorem outcome_ensureRoot (h : e.rule.tree.Shape whole) :
    outcome (e.perform .ensureRoot) =
      (.root (some 0), some (e.rule.tree.rootGroup?.getD .empty)) := by
  obtain ⟨s, h', hid⟩ := exists_shape_ensureRoot h
  have hposition := position_root h'
  rw [← hid] at hposition
  exact Prod.ext (congrArg Report.root hposition) h.refines.ensureRoot.1

theorem outcome_view (h : e.rule.tree.Shape whole) :
    outcome (e.perform .view) = Move.view.plain e.config e.rule.tree.rootGroup? := by
  obtain ⟨s, h', _⟩ := exists_shape_ensureRoot h
  obtain ⟨s', hplain, _⟩ := Tree.shape_ofGroup (e.rule.tree.rootGroup?.getD .empty)
  have hvalue := h.refines.ensureRoot.1
  have hview := Tree.placedView?_eq h' hplain (hvalue.trans (Tree.rootGroup?_ofGroup _).symm) e.config
  exact Prod.ext (congrArg Report.view hview) hvalue

theorem outcome_replaceWhole (h : e.rule.tree.Shape whole) :
    outcome (e.perform (.addGroup .rule)) =
      (.group (some 0), some (e.config.groupTemplate.getD .empty)) := by
  obtain ⟨s, t', hadd, h', hvalue⟩ := h.addGroup_rule e.config.groupTemplate
  refine (outcome_commit hadd fun t g => .group (position t.groupIds g)).trans ?_
  rw [position_root h', h'.rootGroup?_eq, hvalue]

theorem outcome_move (h : e.rule.tree.Shape whole) (m : Move) :
    outcome (e.move m) = m.plain e.config e.rule.tree.rootGroup? := by
  cases m with
  | ensureRoot => exact outcome_ensureRoot h
  | view => exact outcome_view h
  | replaceWhole => exact outcome_replaceWhole h
  | toggle i =>
    refine outcome_atGroup h rfl fun s steps p h hp => ?_
    obtain ⟨t', he, hvalue⟩ := h.toggle_addressed hp
    exact (outcome_commit he fun _ o => .turned o).trans (congrArg _ hvalue)
  | addGroup i =>
    refine outcome_atGroup h rfl fun s steps p h hp => ?_
    obtain ⟨g, t', he, hvalue, hposition⟩ := h.addGroup_addressed hp e.config.groupTemplate
    refine (outcome_commit he fun t g => .group (position t.groupIds g)).trans ?_
    rw [hposition, hvalue]
  | removeGroup i =>
    refine outcome_atGroup h rfl fun s steps p h hp => ?_
    obtain ⟨t', he, hvalue⟩ := h.removeGroup_addressed hp
    exact (outcome_done he).trans (congrArg _ hvalue)
  | addCondition i =>
    refine outcome_atGroup h rfl fun s steps p h hp => ?_
    obtain ⟨c, t', he, hvalue, hposition⟩ :=
      h.addCondition_addressed hp e.config.conditionTemplate
    refine (outcome_commit he fun t c => .condition (position t.conditionIds c)).trans ?_
    rw [hposition, hvalue]
  | removeCondition j =>
    refine outcome_atCondition h rfl fun s ⟨steps, i⟩ c h hc => ?_
    obtain ⟨t', he, hvalue⟩ := h.removeCondition_addressed hc
    exact (outcome_done he).trans (congrArg _ hvalue)
  | updateCondition j f =>
    refine outcome_atCondition h rfl fun s ⟨steps, i⟩ c h hc => ?_
    obtain ⟨t', he, hvalue⟩ := h.updateCondition_addressed hc f
    exact (outcome_done he).trans (congrArg _ hvalue)

end Editor

end WhenClause
