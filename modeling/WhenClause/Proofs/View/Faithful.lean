import WhenClause.Proofs.Tree.Issued
import WhenClause.View

/-!
# What a view shows

A view lists the groups and conditions of a tree in the order in which the tree lists them, and
each group in it is the record of that group with the actions that the configuration allows. It is
what one gets by looking up one group after another, and no lookup fails on the way.
-/

namespace WhenClause

open Subtree (plug Frame)

mutual
def GroupView.preorder : GroupView → List GroupView
  | .mk id operator outline removable rows addCondition addGroup hasItems =>
    .mk id operator outline removable rows addCondition addGroup hasItems :: preorderRows rows

def preorderRows : List Row → List GroupView
  | [] => []
  | .condition _ _ _ :: rows => preorderRows rows
  | .group _ view :: rows => view.preorder ++ preorderRows rows
end

mutual
def GroupView.inert : GroupView → GroupView
  | .mk id operator outline _ rows _ _ hasItems =>
    .mk id operator outline false (inertRows rows) false false hasItems

def inertRows : List Row → List Row
  | [] => []
  | .condition operator id _ :: rows => .condition operator id false :: inertRows rows
  | .group operator view :: rows => .group operator view.inert :: inertRows rows
end

namespace GroupView

def ofRecord (config : Config) (isRoot : Bool) (id : GroupId) (n : GroupNode)
    (nested : List GroupView) : GroupView :=
  .mk id n.effectiveOperator config.showsGroupOutline (!config.readonly && !isRoot)
    (n.items.map (.condition n.effectiveOperator ·
        (!config.readonly && decide (1 < n.items.length))) ++
      nested.map (.group n.effectiveOperator))
    config.showsAddCondition config.showsAddGroup (!n.isEmpty)

structure Depicts (t : Tree) (config : Config) (u : GroupView) (n : GroupNode) : Prop where
  found : t.group? u.id = some n
  operator : u.operator = n.effectiveOperator
  rows : u.rows = n.items.map (.condition n.effectiveOperator ·
      (decide (config.readonly = false ∧ 2 ≤ n.items.length))) ++
    u.subgroups.map (.group n.effectiveOperator)
  conditionIds : u.conditionIds = n.items
  subgroups : u.subgroups.map id = n.groups
  hasItems : u.hasItems = true ↔ u.rows ≠ []
  removable : u.removable = true ↔ t.root ≠ some u.id ∧ config.readonly = false
  outline : u.outline = config.showsGroupOutline
  addCondition : u.addCondition = config.showsAddCondition
  addGroup : u.addGroup = config.showsAddGroup

end GroupView

/-- What is seen of a group and of what hangs from it, down to a given depth, where each group is
looked up when its turn comes. A group that is not found would look like an empty one. -/
def Tree.draw (t : Tree) (config : Config) : Nat → Bool → GroupId → GroupView
  | 0, isRoot, g => .ofRecord config isRoot g .empty []
  | depth + 1, isRoot, g =>
    let n := (t.group? g).getD .empty
    .ofRecord config isRoot g n (n.groups.map (t.draw config depth false))

structure GroupView.Faithful (t : Tree) (config : Config) (v : GroupView) : Prop where
  root : t.root = some v.id
  groupIds : v.preorder.map id = t.groupIds
  conditionIds : v.preorder.flatMap conditionIds = t.conditionIds
  groups : ∀ u ∈ v.preorder, ∃ n, u.Depicts t config n
  drawn : ∀ depth, t.groupCount ≤ depth → t.draw config depth true v.id = v
  readonly : t.view? { config with readonly := true } = some v.inert

namespace GroupView

/-! ## One group -/

section

variable (config : Config) (isRoot : Bool) (id : GroupId) (n : GroupNode) (nested : List GroupView)

theorem ofSubtree_node (record : GroupNode) (children : List Subtree) :
    ofSubtree config isRoot (.node id record children) =
      ofRecord config isRoot id record (children.map (ofSubtree config false)) := by
  rw [ofSubtree, groupRows_eq_map, ofRecord, List.map_map]
  rfl

theorem conditionIds_ofRecord : (ofRecord config isRoot id n nested).conditionIds = n.items := by
  simp [conditionIds, ofRecord, rows, Function.comp_def, Row.conditionId?]

theorem subgroups_ofRecord : (ofRecord config isRoot id n nested).subgroups = nested := by
  simp [subgroups, ofRecord, rows, Function.comp_def, Row.groupView?]

theorem preorderRows_eq (rows : List Row) :
    preorderRows rows = (rows.filterMap Row.groupView?).flatMap preorder := by
  induction rows with
  | nil => rfl
  | cons row rows ih =>
    cases row with
    | condition => exact ih
    | group o v => rw [preorderRows, ih]; rfl

theorem preorder_ofRecord :
    (ofRecord config isRoot id n nested).preorder =
      ofRecord config isRoot id n nested :: nested.flatMap preorder := by
  have hnested := subgroups_ofRecord config isRoot id n nested
  rw [ofRecord] at hnested ⊢
  rw [preorder, preorderRows_eq]
  exact congrArg (fun views => _ :: views.flatMap preorder) hnested

theorem inertRows_append (rows rows' : List Row) :
    inertRows (rows ++ rows') = inertRows rows ++ inertRows rows' := by
  induction rows with
  | nil => rfl
  | cons row rows ih => cases row <;> simp [inertRows, ih]

theorem inertRows_conditions (o : Operator) (removable : Bool) (cs : List ConditionId) :
    inertRows (cs.map (.condition o · removable)) = cs.map (.condition o · false) := by
  induction cs with
  | nil => rfl
  | cons c cs ih => simp [inertRows, ih]

theorem inertRows_groups (o : Operator) (views : List GroupView) :
    inertRows (views.map (.group o)) = (views.map inert).map (.group o) := by
  induction views with
  | nil => rfl
  | cons v views ih => simp [inertRows, ih]

theorem inert_ofRecord :
    (ofRecord config isRoot id n nested).inert =
      ofRecord { config with readonly := true } isRoot id n (nested.map inert) := by
  simp only [ofRecord, inert, inertRows_append, inertRows_conditions, inertRows_groups]
  rfl

end

/-! ## All groups -/

variable {t : Tree} {config : Config} {isRoot : Bool} {s : Subtree} {whole : Option Subtree}
  {u : GroupView}

theorem id_ofSubtree (config : Config) (isRoot : Bool) (s : Subtree) :
    (ofSubtree config isRoot s).id = s.id := by
  cases s
  rw [ofSubtree_node]
  rfl

theorem map_id_preorder (config : Config) (isRoot : Bool) (s : Subtree) :
    (ofSubtree config isRoot s).preorder.map id = s.groupIds := by
  induction s using Subtree.induct generalizing isRoot with
  | node id record children ih =>
    rw [ofSubtree_node, preorder_ofRecord, Subtree.groupIds_node, List.map_cons, List.map_flatMap,
      List.flatMap_map]
    exact congrArg (_ :: ·) (List.flatMap_congr fun s hs => ih s hs false)

theorem flatMap_conditionIds_preorder (config : Config) (isRoot : Bool) (s : Subtree) :
    (ofSubtree config isRoot s).preorder.flatMap conditionIds = s.conditionIds := by
  induction s using Subtree.induct generalizing isRoot with
  | node id record children ih =>
    rw [ofSubtree_node, preorder_ofRecord, Subtree.conditionIds_node, List.flatMap_cons,
      conditionIds_ofRecord, List.flatMap_assoc, List.flatMap_map]
    exact congrArg (_ ++ ·) (List.flatMap_congr fun s hs => ih s hs false)

theorem inert_ofSubtree (config : Config) (isRoot : Bool) (s : Subtree) :
    (ofSubtree config isRoot s).inert = ofSubtree { config with readonly := true } isRoot s := by
  induction s using Subtree.induct generalizing isRoot with
  | node id record children ih =>
    rw [ofSubtree_node, ofSubtree_node, inert_ofRecord, List.map_map]
    exact congrArg _ (List.map_congr_left fun s hs => ih s hs false)

theorem exists_plug_of_mem_preorder (hu : u ∈ (ofSubtree config isRoot s).preorder) :
    ∃ ctx s', s = plug ctx s' ∧ u = ofSubtree config (isRoot && ctx.isEmpty) s' := by
  induction s using Subtree.induct generalizing isRoot with
  | node id record children ih =>
    rw [ofSubtree_node, preorder_ofRecord, List.flatMap_map] at hu
    rcases List.mem_cons.1 hu with rfl | hu
    · refine ⟨[], .node id record children, rfl, ?_⟩
      rw [List.isEmpty_nil, Bool.and_true, ofSubtree_node]
    · obtain ⟨s, hs, hu⟩ := List.mem_flatMap.1 hu
      obtain ⟨ctx, s', rfl, rfl⟩ := ih s hs hu
      obtain ⟨left, right, rfl⟩ := List.append_of_mem hs
      refine ⟨⟨id, record, left, right⟩ :: ctx, s', rfl, ?_⟩
      rw [Bool.false_and, List.isEmpty_cons, Bool.and_false]

theorem root_ne_iff {ctx : List Frame} (h : t.Shape (some (plug ctx s))) :
    t.root ≠ some s.id ↔ ctx ≠ [] := by
  rw [h.root, Option.map_some]
  cases ctx with
  | nil => exact iff_of_false (fun hne => hne rfl) (fun hne => hne rfl)
  | cons f ctx =>
    have hmem : s.id ∈ (plug ctx s).groupIds := by
      rw [Subtree.groupIds_plug]
      exact List.mem_append_left _ (List.mem_append_right _ (Subtree.id_mem_groupIds s))
    obtain ⟨hne, _⟩ := Subtree.not_mem_beside_of_nodup_plug h.nodup_groupIds hmem
    exact iff_of_true (fun heq => hne (Option.some.inj heq)) (List.cons_ne_nil f ctx)

theorem depicts_ofSubtree {ctx : List Frame} (h : t.Shape (some (plug ctx s))) :
    ∃ n, (ofSubtree config ctx.isEmpty s).Depicts t config n := by
  have hroot := root_ne_iff h
  obtain ⟨id, record, children⟩ := s
  obtain ⟨found, names, _⟩ := h.place
  have hnested : (children.map (ofSubtree config false)).map GroupView.id = record.groups := by
    rw [names, List.map_map]
    exact List.map_congr_left fun s _ => id_ofSubtree config false s
  rw [ofSubtree_node]
  refine ⟨record, ?_⟩
  constructor
  case found => exact found
  case operator | outline | addCondition | addGroup => rfl
  case rows =>
    have hremovable : (!config.readonly && decide (1 < record.items.length)) =
        decide (config.readonly = false ∧ 2 ≤ record.items.length) := by
      rw [Bool.decide_and]
      cases config.readonly <;> rfl
    rw [subgroups_ofRecord, ← hremovable]
    rfl
  case conditionIds => exact conditionIds_ofRecord ..
  case subgroups => rw [subgroups_ofRecord, hnested]
  case hasItems =>
    simp only [ofRecord, GroupView.hasItems, rows, GroupNode.isEmpty, ← hnested]
    by_cases hitems : record.items = [] <;> simp [hitems]
  case removable =>
    have hempty : ctx.isEmpty = false ↔ ctx ≠ [] := by
      rw [Bool.eq_false_iff, ne_eq, List.isEmpty_iff]
    have hflag : (ofRecord config ctx.isEmpty id record (children.map
        (ofSubtree config false))).removable = (!config.readonly && !ctx.isEmpty) := rfl
    rw [hflag, Bool.and_eq_true, Bool.not_eq_true', Bool.not_eq_true', hempty, ← hroot, and_comm]
    rfl

/-! ## Looking groups up -/

theorem draw_eq (h : s.StoredIn t) {depth : Nat} (hdepth : s.nodes.length ≤ depth) :
    t.draw config depth isRoot s.id = ofSubtree config isRoot s := by
  induction depth, s, hdepth using Subtree.inductRoom generalizing isRoot with
  | node depth g n children _ _ ih =>
    obtain ⟨found, names, below⟩ := Subtree.storedIn_node.1 h
    have hnested : n.groups.map (t.draw config depth false) =
        children.map (ofSubtree config false) := by
      rw [names, List.map_map]
      exact List.map_congr_left fun s hs => ih s hs (below s hs)
    rw [Subtree.id, Tree.draw, found, Option.getD_some, hnested, ofSubtree_node]

theorem faithful_ofSubtree (h : t.Shape (some s)) (config : Config) :
    (ofSubtree config true s).Faithful t config := by
  have hlength : t.groupCount = s.nodes.length := by
    rw [h.counted.groupIds, h.groupIds_eq, Subtree.groupIds, List.length_map]
  constructor
  case root => rw [id_ofSubtree, h.root, Option.map_some]
  case groupIds => rw [map_id_preorder, h.groupIds_eq]
  case conditionIds => rw [flatMap_conditionIds_preorder, h.conditionIds_eq]
  case groups =>
    intro u hu
    obtain ⟨ctx, s', rfl, rfl⟩ := exists_plug_of_mem_preorder hu
    rw [Bool.true_and]
    exact depicts_ofSubtree h
  case drawn =>
    intro depth hdepth
    rw [id_ofSubtree, draw_eq h.stored (hlength ▸ hdepth)]
  case readonly =>
    rw [Tree.view?, h.rootSubtree?_eq, Option.map_some, inert_ofSubtree]

theorem exists_faithful (h : t.Shape whole) (hroot : t.root ≠ none) (config : Config) :
    ∃ v, t.view? config = some v ∧ v.Faithful t config := by
  cases whole with
  | none => exact absurd h.root hroot
  | some s =>
    refine ⟨ofSubtree config true s, ?_, faithful_ofSubtree h config⟩
    rw [Tree.view?, h.rootSubtree?_eq, Option.map_some]

theorem Depicts.operator_row {n : GroupNode} (h : u.Depicts t config n) {row : Row}
    (hrow : row ∈ u.rows) : row.operator = n.effectiveOperator := by
  rw [h.rows] at hrow
  rcases List.mem_append.1 hrow with hrow | hrow
  · obtain ⟨c, _, rfl⟩ := List.mem_map.1 hrow
    rfl
  · obtain ⟨v, _, rfl⟩ := List.mem_map.1 hrow
    rfl

end GroupView

def Tree.shown? (t : Tree) (config : Config) (g : GroupId) : Option GroupView :=
  (t.view? config).bind fun v => v.preorder.find? (·.id = g)

theorem Tree.Shape.exists_shown {t : Tree} {whole : Option Subtree} (h : t.Shape whole)
    {g : GroupId} {n : GroupNode} (hn : t.group? g = some n) (config : Config) :
    ∃ u, t.shown? config g = some u ∧ u.Depicts t config n := by
  have hlive : t.containsGroup g = true := Tree.containsGroup_iff.2 ⟨n, hn⟩
  obtain ⟨r, hr, _⟩ := h.singlePath.reached g hlive
  obtain ⟨v, hv, hfaithful⟩ :=
    GroupView.exists_faithful h (Option.ne_none_iff_exists'.2 ⟨r, hr⟩) config
  have hlisted : g ∈ v.preorder.map GroupView.id := by
    rw [hfaithful.groupIds, h.mem_groupIds_iff]
    exact hlive
  obtain ⟨u, hu, hid⟩ := List.mem_map.1 hlisted
  have hfound : (v.preorder.find? (·.id = g)).isSome = true :=
    List.find?_isSome.2 ⟨u, hu, decide_eq_true hid⟩
  obtain ⟨u, hfind⟩ := Option.isSome_iff_exists.1 hfound
  obtain rfl : u.id = g := by simpa using List.find?_some hfind
  obtain ⟨m, hm⟩ := hfaithful.groups u (List.mem_of_find?_eq_some hfind)
  cases hn.symm.trans hm.found
  refine ⟨u, ?_, hm⟩
  rw [Tree.shown?, hv, Option.bind_some, hfind]

end WhenClause
