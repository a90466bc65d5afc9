import WhenClause.Proofs.Tree.Refinement

/-!
# Positions in the listings

The listings of a tree name its groups and conditions in an order that its plain value has as well:
parents before children, and the conditions of a group in their order. So the handle at a position
is what is found by going down the plain value to the place at that position, whatever handles
there are; and where a handle is listed follows from the way down to it.
-/

namespace WhenClause

namespace Group

section

variable {α β : Type}

mutual
/-- What is made of each group, parents before children, given the way down to it. -/
def walk (f : List Nat → Group → List α) : Group → List α
  | ⟨operator, items, groups⟩ => f [] ⟨operator, items, groups⟩ ++ walkAll f 0 groups

def walkAll (f : List Nat → Group → List α) : Nat → List Group → List α
  | _, [] => []
  | i, g :: gs => walk (fun path => f (i :: path)) g ++ walkAll f (i + 1) gs
end

theorem walk_eq (f : List Nat → Group → List α) (g : Group) :
    g.walk f = f [] g ++ walkAll f 0 g.groups := by
  cases g
  rw [walk]

theorem walkAll_append (f : List Nat → Group → List α) (i : Nat) (gs hs : List Group) :
    walkAll f i (gs ++ hs) = walkAll f i gs ++ walkAll f (i + gs.length) hs := by
  induction gs generalizing i with
  | nil => simp [walkAll]
  | cons g gs ih =>
    simp only [List.cons_append, walkAll, ih, List.append_assoc, List.length_cons]
    rw [Nat.add_right_comm, Nat.add_assoc]

theorem map_walk (k : α → β) (f : List Nat → Group → List α) (g : Group) :
    (g.walk f).map k = g.walk fun path x => (f path x).map k := by
  induction g using Group.induct generalizing f with
  | node operator items groups ih =>
    have hall : ∀ i, (walkAll f i groups).map k =
        walkAll (fun path x => (f path x).map k) i groups := by
      induction groups with
      | nil => exact fun _ => rfl
      | cons g gs ihs =>
        intro i
        rw [walkAll, walkAll, List.map_append, ih g (List.mem_cons_self ..),
          ihs fun g hg => ih g (List.mem_cons_of_mem _ hg)]
    rw [walk_eq, walk_eq, List.map_append, hall]

end

def paths (g : Group) : List (List Nat) := g.walk fun path _ => [path]

/-- The ways down to the conditions: to the group, and the place among its conditions. -/
def slots (g : Group) : List (List Nat × Nat) :=
  g.walk fun path x => (List.range x.items.length).map (path, ·)

def descend : List Nat → Group → Group
  | [], g => g
  | i :: path, g => descend path (g.groups[i]?.getD .empty)

end Group

namespace Subtree

variable {α : Type} {s : Subtree} {ctx : List Frame} {payload : ConditionId → Option Condition}

theorem plug_append (ctx ctx' : List Frame) (s : Subtree) :
    plug (ctx ++ ctx') s = plug ctx (plug ctx' s) := by
  induction ctx with
  | nil => rfl
  | cons f ctx ih => simp only [List.cons_append, plug, ih]

theorem path_append (ctx ctx' : List Frame) : path (ctx ++ ctx') = path ctx ++ path ctx' :=
  List.map_append

theorem exists_plug_child (ctx : List Frame) (id : GroupId) (record : GroupNode)
    {children : List Subtree} {i : Nat} (hi : i < children.length) :
    ∃ ctx', plug ctx (.node id record children) = plug ctx' children[i] ∧
      path ctx' = path ctx ++ [i] := by
  refine ⟨ctx ++ [⟨id, record, children.take i, children.drop (i + 1)⟩], ?_, ?_⟩
  · rw [plug_append]
    simp only [plug, ← List.drop_eq_getElem_cons hi, List.take_append_drop]
  · simp [path, Nat.min_eq_left (Nat.le_of_lt hi)]

theorem descend_plug (ctx : List Frame) (s : Subtree) :
    Group.descend (path ctx) ((plug ctx s).toGroup payload) = s.toGroup payload := by
  induction ctx with
  | nil => rfl
  | cons f ctx ih =>
    have hnext : ((f.left ++ plug ctx s :: f.right).map (toGroup payload))[f.left.length]? =
        some ((plug ctx s).toGroup payload) := by simp
    simp only [plug, path, List.map_cons, toGroup_node, Group.descend, hnext, Option.getD_some]
    exact ih

theorem walk_toGroup {f : List Nat → Group → List α} {h : GroupId × GroupNode → List α}
    (hsame : ∀ ctx id record children, s = plug ctx (.node id record children) →
      f (path ctx) ((node id record children).toGroup payload) = h (id, record)) :
    (s.toGroup payload).walk f = s.nodes.flatMap h := by
  induction s using induct generalizing f with
  | node id record children ih =>
    -- Those further right are walked with the number of those before them.
    have hall : ∀ left right, children = left ++ right →
        Group.walkAll f left.length (right.map (toGroup payload)) =
          right.flatMap fun s => s.nodes.flatMap h := by
      intro left right heq
      induction right generalizing left with
      | nil => rfl
      | cons s right ihs =>
        have hchild : (s.toGroup payload).walk (fun path => f (left.length :: path)) =
            s.nodes.flatMap h := by
          apply ih s (by simp [heq])
          rintro ctx id' record' children' rfl
          exact hsame (⟨id, record, left, right⟩ :: ctx) id' record' children' (by rw [heq, plug])
        have hmore := ihs (left ++ [s]) (by simp [heq])
        rw [List.length_append, List.length_singleton] at hmore
        rw [List.map_cons, Group.walkAll, hchild, hmore, List.flatMap_cons]
    have hself := hsame [] id record children rfl
    rw [toGroup_node] at hself ⊢
    rw [Group.walk_eq, nodes_node, List.flatMap_cons, List.flatMap_assoc, ← hall [] children rfl,
      ← hself]
    rfl

theorem mem_walk_plug {f : List Nat → Group → List α} {a : α}
    (ha : a ∈ f (path ctx) (s.toGroup payload)) :
    a ∈ ((plug ctx s).toGroup payload).walk f := by
  induction ctx generalizing f with
  | nil =>
    rw [plug, Group.walk_eq]
    exact List.mem_append_left _ ha
  | cons frame ctx ih =>
    have hinner := ih (f := fun path => f (frame.left.length :: path)) ha
    rw [plug, toGroup_node, Group.walk_eq, List.map_append, List.map_cons, Group.walkAll_append,
      Group.walkAll, List.length_map, Nat.zero_add]
    exact List.mem_append_right _ (List.mem_append_right _ (List.mem_append_left _ hinner))

end Subtree

theorem map_range_getElem? {α : Type} (l : List α) :
    (List.range l.length).map (l[·]?) = l.map some := by
  apply List.ext_getElem
  · simp
  · simp

theorem getElem?_together {α β : Type} {l : List α} {m : List β} {g : β → Option α}
    (h : l.map some = m.map g) (i : Nat) :
    m[i]? = none ∧ l[i]? = none ∨ ∃ b a, m[i]? = some b ∧ l[i]? = some a ∧ g b = some a := by
  have hi : (l.map some)[i]? = (m.map g)[i]? := by rw [h]
  rw [List.getElem?_map, List.getElem?_map] at hi
  cases hm : m[i]? with
  | none => exact .inl ⟨rfl, by simpa [hm] using hi⟩
  | some b =>
    rw [hm, Option.map_some] at hi
    obtain ⟨a, hl, hab⟩ := Option.map_eq_some_iff.1 hi
    exact .inr ⟨b, a, rfl, hl, hab.symm⟩

def position {α : Type} [DecidableEq α] (l : List α) (a : α) : Option Nat :=
  if a ∈ l then some (l.idxOf a) else none

theorem position_eq {α β : Type} [DecidableEq α] [BEq β] [LawfulBEq β] {l : List α} {m : List β}
    {g : β → Option α} (h : l.map some = m.map g) (hl : l.Nodup) {a : α} {b : β} (hb : b ∈ m)
    (hab : g b = some a) : position l a = some (m.idxOf b) := by
  have hm : m[m.idxOf b]? = some b := by
    rw [List.getElem?_eq_getElem (List.idxOf_lt_length_of_mem hb), List.getElem_idxOf]
  obtain ⟨hnone, _⟩ | ⟨b', a', hm', hl', hab'⟩ := getElem?_together h (m.idxOf b)
  · cases hm.symm.trans hnone
  cases hm.symm.trans hm'
  cases hab.symm.trans hab'
  obtain ⟨hlt, rfl⟩ := List.getElem?_eq_some_iff.1 hl'
  rw [position, if_pos (List.getElem_mem hlt), hl.idxOf_getElem]

theorem inj_of_together {α β : Type} {l : List α} {m : List β} {g : β → Option α}
    (h : l.map some = m.map g) (hl : l.Nodup) {b b' : β} (hb : b ∈ m) (hb' : b' ∈ m)
    (heq : g b = g b') : b = b' := by
  have hnodup : (m.map g).Nodup := h ▸ hl.map fun _ _ => Option.some.inj
  exact List.inj_on_of_nodup_map hnodup hb hb' heq

namespace Tree

open Subtree (plug path Frame)

def itemAt? (t : Tree) (g : GroupId) (slot : List Nat × Nat) : Option ConditionId :=
  (t.follow? g slot.1).bind fun p => (t.group? p).bind fun n => n.items[slot.2]?

variable {t : Tree} {s : Subtree} {p : GroupId} {c : ConditionId} {steps : List Nat}
  {slot : List Nat × Nat}

namespace Shape

theorem map_groupIds (h : t.Shape (some s)) :
    t.groupIds.map some = (s.toGroup t.condition?).paths.map (t.follow? s.id) := by
  rw [h.groupIds_eq, Group.paths, Group.map_walk,
    Subtree.walk_toGroup (h := fun n => [some n.1])]
  · rw [Subtree.groupIds, List.map_map, List.map_eq_flatMap]
    rfl
  · intro ctx id record children heq
    have hfollow := follow?_path (heq ▸ h.stored)
    rw [← heq] at hfollow
    exact congrArg (fun x => [x]) hfollow

theorem map_conditionIds (h : t.Shape (some s)) :
    t.conditionIds.map some = (s.toGroup t.condition?).slots.map (t.itemAt? s.id) := by
  rw [h.conditionIds_eq, Group.slots, Group.map_walk,
    Subtree.walk_toGroup (h := fun n => n.2.items.map some)]
  · simp [Subtree.conditionIds, List.map_flatMap]
  · intro ctx id record children heq
    subst heq
    obtain ⟨found, _, _⟩ := h.place
    have hfollow := follow?_path h.stored
    have hlength : (record.items.filterMap t.condition?).length = record.items.length :=
      h.length_filterMap found fun c hc => hc
    rw [Subtree.toGroup_node, hlength, List.map_map]
    refine Eq.trans (List.map_congr_left fun i _ => ?_) (map_range_getElem? record.items)
    rw [Function.comp_apply, itemAt?, hfollow, Option.bind_some, Subtree.id, found, Option.bind_some]

theorem mem_paths (h : t.Shape (some s)) (hp : t.follow? s.id steps = some p) :
    steps ∈ (s.toGroup t.condition?).paths := by
  obtain ⟨ctx, u, rfl, rfl, _⟩ := exists_plug_of_follow? h.stored hp
  exact Subtree.mem_walk_plug (List.mem_singleton_self _)

theorem mem_slots (h : t.Shape (some s)) (hc : t.itemAt? s.id slot = some c) :
    slot ∈ (s.toGroup t.condition?).slots := by
  obtain ⟨steps, i⟩ := slot
  obtain ⟨p, hp, hc⟩ := Option.bind_eq_some_iff.1 hc
  obtain ⟨ctx, ⟨id, record, children⟩, rfl, rfl, rfl⟩ := exists_plug_of_follow? h.stored hp
  obtain ⟨found, _, _⟩ := h.place
  rw [Subtree.id, found, Option.bind_some] at hc
  obtain ⟨hlt, _⟩ := List.getElem?_eq_some_iff.1 hc
  refine Subtree.mem_walk_plug (List.mem_map_of_mem (List.mem_range.2 ?_))
  rwa [Subtree.toGroup_node, h.length_filterMap found fun c hc => hc]

theorem position_groupIds (h : t.Shape (some s)) (hp : t.follow? s.id steps = some p) :
    position t.groupIds p = some ((s.toGroup t.condition?).paths.idxOf steps) :=
  position_eq h.map_groupIds h.nodup_listed.1 (h.mem_paths hp) hp

theorem position_conditionIds (h : t.Shape (some s)) (hc : t.itemAt? s.id slot = some c) :
    position t.conditionIds c = some ((s.toGroup t.condition?).slots.idxOf slot) :=
  position_eq h.map_conditionIds h.nodup_listed.2 (h.mem_slots hc) hc

theorem follow?_inj {steps' : List Nat} (h : t.Shape (some s)) (hp : t.follow? s.id steps = some p)
    (hp' : t.follow? s.id steps' = some p) : steps = steps' :=
  inj_of_together h.map_groupIds h.nodup_listed.1 (h.mem_paths hp) (h.mem_paths hp')
    (hp.trans hp'.symm)

theorem itemAt?_inj {slot' : List Nat × Nat} (h : t.Shape (some s))
    (hc : t.itemAt? s.id slot = some c) (hc' : t.itemAt? s.id slot' = some c) : slot = slot' :=
  inj_of_together h.map_conditionIds h.nodup_listed.2 (h.mem_slots hc) (h.mem_slots hc')
    (hc.trans hc'.symm)

end Shape

end Tree

end WhenClause
