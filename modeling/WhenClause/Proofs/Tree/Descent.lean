import WhenClause.Proofs.View.Faithful

/-!
# Following handles

Searching, copying, listing, drawing and releasing what hangs from a group all go from record to
record by the handles that the records name, and nothing about a single record says that this ends.
Here each of them is given room for a number of groups that may be open at once, and notes which
groups it enters and which handles lead nowhere; what runs out of room comes to nothing.
-/

namespace WhenClause

namespace Descent

inductive Step where
  | entered (g : GroupId)
  | missedGroup (g : GroupId)
  | missedCondition (c : ConditionId)
  deriving DecidableEq, Repr

structure Trail where
  tree : Tree
  steps : List Step

end Descent

/-- Works on a tree, which may change on the way, and notes each step. There is nothing to show for
it if the room does not suffice. -/
def Descent (α : Type) := StateT Descent.Trail Option α

namespace Descent

instance : Monad Descent := inferInstanceAs (Monad (StateT Trail Option))

instance : LawfulMonad Descent := inferInstanceAs (LawfulMonad (StateT Trail Option))

variable {α β : Type}

def tree : Descent Tree := fun trail => some (trail.tree, trail)

def become (t : Tree) : Descent Unit := fun trail => some ((), { trail with tree := t })

def note (step : Step) : Descent Unit :=
  fun trail => some ((), { trail with steps := trail.steps ++ [step] })

def noRoom : Descent α := fun _ => none

def lookUp (g : GroupId) (gone : α) (found : GroupNode → Descent α) : Descent α := do
  match (← tree).group? g with
  | none => do
    note (.missedGroup g)
    return gone
  | some n => found n

/-- Enters a group and leaves the rest to `body`, which may follow further handles in the same way,
but with less room: the group stays open until `body` is done. -/
def follow (gone : GroupId → β → α)
    (body : (GroupId → β → Descent α) → GroupId → GroupNode → β → Descent α) :
    Nat → GroupId → β → Descent α
  | 0, g, b => lookUp g (gone g b) fun _ => noRoom
  | room + 1, g, b => lookUp g (gone g b) fun n => do
    note (.entered g)
    body (follow gone body room) g n b

/-! ## The recursions -/

def search (hit : GroupNode → Bool) : Nat → GroupId → Unit → Descent (Option GroupId) :=
  follow (fun _ _ => none) fun next g n _ =>
    if hit n then pure (some g) else n.groups.findSomeM? (next · ())

def copy : Nat → GroupId → Unit → Descent (Option Group) :=
  follow (fun _ _ => none) fun next _ n _ => do
    let items := n.items.filterMap (← tree).condition?
    let groups ← n.groups.mapM (next · ())
    return some ⟨n.operator, items, groups.filterMap id⟩

def collect : Nat → GroupId → List GroupId → Descent (List GroupId) :=
  follow (fun _ out => out) fun next g n out =>
    n.groups.foldlM (fun out child => next child out) (out ++ [g])

def draw (config : Config) : Nat → GroupId → Bool → Descent GroupView :=
  follow (fun g isRoot => .ofRecord config isRoot g .empty []) fun next g n isRoot => do
    let nested ← n.groups.mapM (next · false)
    return .ofRecord config isRoot g n nested

def releaseItem (c : ConditionId) : Descent Unit := do
  let t ← tree
  if t.containsCondition c then become { t with conditions := t.conditions.erase c.key }
  else note (.missedCondition c)

def releaseNode (g : GroupId) (n : GroupNode) : Descent Unit := do
  let t ← tree
  become { t with groups := t.groups.erase g.key }
  n.items.forM releaseItem

def release : Nat → GroupId → Unit → Descent Unit :=
  follow (fun _ _ => ()) fun next g n _ => do
    releaseNode g n
    n.groups.forM (next · ())

/-! ## Runs that end -/

/-- From the tree `t` on, it ends with this value and leaves the tree `t'`, by these steps. -/
def Ends (m : Descent α) (t : Tree) (a : α) (t' : Tree) (steps : List Step) : Prop :=
  ∀ before, m ⟨t, before⟩ = some (a, ⟨t', before ++ steps⟩)

section

variable {t t' t'' : Tree} {a : α} {b : β} {steps steps' : List Step} {g : GroupId}
  {n : GroupNode} {room : Nat}

theorem Ends.bind {m : Descent α} {k : α → Descent β} (h : Ends m t a t' steps)
    (hk : Ends (k a) t' b t'' steps') : Ends (m >>= k) t b t'' (steps ++ steps') := by
  intro before
  change (m ⟨t, before⟩ >>= fun p => k p.1 p.2) = _
  rw [h before, ← List.append_assoc]
  exact hk (before ++ steps)

theorem ends_pure (a : α) (t : Tree) : Ends (pure a) t a t [] := by
  intro before
  rw [List.append_nil]
  rfl

theorem ends_tree (t : Tree) : Ends tree t t t [] := by
  intro before
  rw [List.append_nil]
  rfl

theorem ends_become (t t' : Tree) : Ends (become t') t () t' [] := by
  intro before
  rw [List.append_nil]
  rfl

theorem ends_note (step : Step) (t : Tree) : Ends (note step) t () t [step] := fun _ => rfl

theorem Ends.bind_nil {m : Descent α} {k : α → Descent β} (h : Ends m t a t' steps)
    (hk : Ends (k a) t' b t'' []) : Ends (m >>= k) t b t'' steps := by
  have hbind := h.bind hk
  rwa [List.append_nil] at hbind

theorem Ends.map {m : Descent α} (h : Ends m t a t' steps) (f : α → β) :
    Ends (m >>= fun a => pure (f a)) t (f a) t' steps :=
  h.bind_nil (ends_pure (f a) t')

variable {gone : GroupId → β → α}
  {body : (GroupId → β → Descent α) → GroupId → GroupNode → β → Descent α}

theorem ends_follow_gone (hg : t.group? g = none) (room : Nat) (b : β) :
    Ends (follow gone body room g b) t (gone g b) t [.missedGroup g] := by
  have hlookUp (found : GroupNode → Descent α) :
      Ends (lookUp g (gone g b) found) t (gone g b) t [.missedGroup g] := by
    refine (ends_tree t).bind ?_
    rw [hg]
    exact (ends_note _ t).bind (ends_pure _ t)
  cases room with
  | zero | succ => exact hlookUp _

theorem ends_follow_found {b : β} {steps : List Step} {a : α} (found : t.group? g = some n)
    (h : Ends (body (follow gone body room) g n b) t a t' steps) :
    Ends (follow gone body (room + 1) g b) t a t' (.entered g :: steps) := by
  refine (ends_tree t).bind ?_
  rw [found]
  exact (ends_note (.entered g) t).bind h

end

/-! ## One child after the other -/

def entries (s : Subtree) : List Step := s.groupIds.map .entered

theorem entries_node (id : GroupId) (record : GroupNode) (children : List Subtree) :
    entries (.node id record children) = .entered id :: children.flatMap entries := by
  rw [entries, Subtree.groupIds_node, List.map_cons, List.map_flatMap]
  rfl

def upTo (hit : α → Bool) : List α → List α
  | [] => []
  | x :: xs => if hit x then [x] else x :: upTo hit xs

theorem upTo_sublist (hit : α → Bool) (xs : List α) : (upTo hit xs).Sublist xs := by
  induction xs with
  | nil => exact .slnil
  | cons x xs ih =>
    rw [upTo]
    split
    · exact (List.nil_sublist xs).cons_cons x
    · exact ih.cons_cons x

theorem upTo_append_of_some {hit : α → Bool} {xs : List α} {x : α} (h : xs.find? hit = some x)
    (ys : List α) : upTo hit (xs ++ ys) = upTo hit xs := by
  induction xs with
  | nil => cases h
  | cons y xs ih =>
    rw [List.cons_append, upTo, upTo]
    by_cases hy : hit y = true
    · rw [if_pos hy, if_pos hy]
    · rw [List.find?_cons_of_neg hy] at h
      rw [if_neg hy, if_neg hy, ih h]

theorem upTo_append_of_none {hit : α → Bool} {xs : List α} (h : xs.find? hit = none)
    (ys : List α) : upTo hit (xs ++ ys) = xs ++ upTo hit ys := by
  induction xs with
  | nil => rfl
  | cons y xs ih =>
    obtain ⟨hy, hxs⟩ := List.forall_mem_cons.1 (List.find?_eq_none.1 h)
    rw [List.cons_append, upTo, if_neg hy, ih (List.find?_eq_none.2 hxs), List.cons_append]

theorem upTo_of_none {hit : α → Bool} {xs : List α} (h : xs.find? hit = none) :
    upTo hit xs = xs := by
  have happend := upTo_append_of_none h []
  rwa [List.append_nil, upTo, List.append_nil] at happend

section

variable {t : Tree} {children : List Subtree}

theorem ends_mapM {f : GroupId → Descent α} {value : Subtree → α}
    (h : ∀ s ∈ children, Ends (f s.id) t (value s) t (entries s)) :
    Ends ((children.map Subtree.id).mapM f) t (children.map value) t
      (children.flatMap entries) := by
  induction children with
  | nil => exact ends_pure [] t
  | cons s children ih =>
    obtain ⟨hs, hchildren⟩ := List.forall_mem_cons.1 h
    rw [List.map_cons, List.mapM_cons]
    exact hs.bind ((ih hchildren).map (value s :: ·))

theorem ends_foldlM {f : List GroupId → GroupId → Descent (List GroupId)}
    (h : ∀ s ∈ children, ∀ out, Ends (f out s.id) t (out ++ s.groupIds) t (entries s))
    (out : List GroupId) :
    Ends ((children.map Subtree.id).foldlM f out) t (out ++ children.flatMap Subtree.groupIds) t
      (children.flatMap entries) := by
  induction children generalizing out with
  | nil =>
    rw [List.flatMap_nil, List.append_nil]
    exact ends_pure out t
  | cons s children ih =>
    obtain ⟨hs, hchildren⟩ := List.forall_mem_cons.1 h
    rw [List.map_cons, List.foldlM_cons, List.flatMap_cons, ← List.append_assoc]
    exact (hs out).bind (ih hchildren _)

def Finds (m : Descent (Option GroupId)) (t : Tree) (hit : GroupId × GroupNode → Bool)
    (ns : List (GroupId × GroupNode)) : Prop :=
  Ends m t ((ns.find? hit).map Prod.fst) t (((upTo hit ns).map Prod.fst).map .entered)

theorem finds_findSomeM? {f : GroupId → Descent (Option GroupId)}
    {hit : GroupId × GroupNode → Bool} (h : ∀ s ∈ children, Finds (f s.id) t hit s.nodes) :
    Finds ((children.map Subtree.id).findSomeM? f) t hit (children.flatMap Subtree.nodes) := by
  induction children with
  | nil => exact ends_pure none t
  | cons s children ih =>
    obtain ⟨hs, hchildren⟩ := List.forall_mem_cons.1 h
    rw [Finds] at hs ⊢
    rw [List.map_cons, List.findSomeM?_cons, List.flatMap_cons, List.find?_append]
    cases hfind : s.nodes.find? hit with
    | none =>
      rw [hfind, upTo_of_none hfind] at hs
      rw [upTo_append_of_none hfind, List.map_append, List.map_append, Option.none_or]
      exact hs.bind (ih hchildren)
    | some n =>
      rw [hfind] at hs
      rw [upTo_append_of_some hfind, Option.some_or]
      exact hs.bind_nil (ends_pure (some n.1) t)

end

end Descent

end WhenClause
