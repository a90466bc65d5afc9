import WhenClause.Tree.Edit

/-!
# Looking up in edited trees

What each step of an edit does to what the handles of a tree stand for. A stored node gets a handle
that stood for nothing, a changed record is changed under its own handle only, and taking groups
out leaves all other handles alone.
-/

namespace WhenClause

@[simp] theorem GroupId.key_inj {g h : GroupId} : g.key = h.key ↔ g = h := by
  cases g; cases h; simp

@[simp] theorem ConditionId.key_inj {c d : ConditionId} : c.key = d.key ↔ c = d := by
  cases c; cases d; simp

namespace Tree

variable {t : Tree}

theorem containsGroup_iff {g : GroupId} : t.containsGroup g = true ↔ ∃ n, t.group? g = some n :=
  Slab.contains_iff

theorem containsCondition_iff {c : ConditionId} :
    t.containsCondition c = true ↔ ∃ d, t.condition? c = some d :=
  Slab.contains_iff

theorem group?_eq_none {g : GroupId} (h : t.containsGroup g = false) : t.group? g = none :=
  Option.isNone_iff_eq_none.1 (by simpa [containsGroup, Slab.contains, group?] using h)

theorem condition?_eq_none {c : ConditionId} (h : t.containsCondition c = false) :
    t.condition? c = none :=
  Option.isNone_iff_eq_none.1 (by simpa [containsCondition, Slab.contains, condition?] using h)

@[simp] theorem group?_empty (g : GroupId) : empty.group? g = none := Slab.get?_empty _

@[simp] theorem condition?_empty (c : ConditionId) : empty.condition? c = none :=
  Slab.get?_empty _

theorem group?_insertNode (n : GroupNode) (g : GroupId) :
    (t.insertNode n).2.group? g = if g = (t.insertNode n).1 then some n else t.group? g := by
  simp only [insertNode, group?, Slab.get?_insert, ← GroupId.key_inj]

theorem group?_fst_insertNode (n : GroupNode) : t.group? (t.insertNode n).1 = none :=
  Slab.get?_nextKey

theorem condition?_insertCondition (d : Condition) (c : ConditionId) :
    (t.insertCondition d).2.condition? c =
      if c = (t.insertCondition d).1 then some d else t.condition? c := by
  simp only [insertCondition, condition?, Slab.get?_insert, ← ConditionId.key_inj]

theorem condition?_insertCondition_self (t : Tree) (d : Condition) :
    (t.insertCondition d).2.condition? (t.insertCondition d).1 = some d := by
  rw [condition?_insertCondition, if_pos rfl]

theorem condition?_fst_insertCondition (d : Condition) :
    t.condition? (t.insertCondition d).1 = none :=
  Slab.get?_nextKey

@[simp] theorem root_insertCondition (d : Condition) : (t.insertCondition d).2.root = t.root := rfl

theorem group?_modifyGroup (p g : GroupId) (f : GroupNode → GroupNode) :
    (t.modifyGroup p f).group? g = if g = p then (t.group? p).map f else t.group? g := by
  simp only [modifyGroup, group?, Slab.get?_modify, ← GroupId.key_inj]

theorem group?_modifyGroup_of_ne {p g : GroupId} (h : g ≠ p) (f : GroupNode → GroupNode) :
    (t.modifyGroup p f).group? g = t.group? g := by
  rw [group?_modifyGroup, if_neg h]

@[simp] theorem condition?_modifyGroup (p : GroupId) (f : GroupNode → GroupNode)
    (c : ConditionId) : (t.modifyGroup p f).condition? c = t.condition? c := rfl

@[simp] theorem root_modifyGroup (p : GroupId) (f : GroupNode → GroupNode) :
    (t.modifyGroup p f).root = t.root := rfl

theorem containsGroup_modifyGroup (p g : GroupId) (f : GroupNode → GroupNode) :
    (t.modifyGroup p f).containsGroup g = t.containsGroup g := by
  rw [Bool.eq_iff_iff, containsGroup_iff, containsGroup_iff, group?_modifyGroup]
  by_cases h : g = p
  · cases hp : t.group? p <;> simp [h, hp]
  · simp [h]

theorem get?_foldl_erase (cs : List ConditionId) (s : Slab Condition) (k : Slab.Key) :
    (cs.foldl (fun s c => s.erase c.key) s).get? k =
      if k ∈ cs.map ConditionId.key then none else s.get? k := by
  induction cs generalizing s with
  | nil => simp
  | cons c cs ih =>
    rw [List.foldl_cons, ih, Slab.get?_erase]
    by_cases h : k = c.key <;> simp [h]

theorem group?_discardNode (n : GroupId × GroupNode) (g : GroupId) :
    (t.discardNode n).group? g = if g = n.1 then none else t.group? g := by
  simp only [discardNode, group?, Slab.get?_erase, ← GroupId.key_inj]

theorem condition?_discardNode (n : GroupId × GroupNode) (c : ConditionId) :
    (t.discardNode n).condition? c = if c ∈ n.2.items then none else t.condition? c := by
  have hmem : c.key ∈ n.2.items.map ConditionId.key ↔ c ∈ n.2.items := by
    simp [List.mem_map]
  simp only [discardNode, condition?, get?_foldl_erase, hmem]

theorem group?_foldl_discardNode (ns : List (GroupId × GroupNode)) (t : Tree) (g : GroupId) :
    (ns.foldl discardNode t).group? g = if g ∈ ns.map Prod.fst then none else t.group? g := by
  induction ns generalizing t with
  | nil => simp
  | cons n ns ih =>
    rw [List.foldl_cons, ih, group?_discardNode]
    by_cases h : g = n.1 <;> by_cases hns : g ∈ ns.map Prod.fst <;> simp_all

theorem condition?_foldl_discardNode (ns : List (GroupId × GroupNode)) (t : Tree)
    (c : ConditionId) :
    (ns.foldl discardNode t).condition? c =
      if c ∈ ns.flatMap (·.2.items) then none else t.condition? c := by
  induction ns generalizing t with
  | nil => simp
  | cons n ns ih =>
    rw [List.foldl_cons, ih, condition?_discardNode, List.flatMap_cons]
    by_cases hns : c ∈ ns.flatMap (·.2.items)
    · rw [if_pos hns, if_pos (List.mem_append_right _ hns)]
    · rw [if_neg hns]
      by_cases hn : c ∈ n.2.items
      · rw [if_pos hn, if_pos (List.mem_append_left _ hn)]
      · rw [if_neg hn, if_neg fun h => (List.mem_append.1 h).elim hn hns]

@[simp] theorem root_foldl_discardNode (ns : List (GroupId × GroupNode)) (t : Tree) :
    (ns.foldl discardNode t).root = t.root := by
  induction ns generalizing t with
  | nil => rfl
  | cons n ns ih => rw [List.foldl_cons, ih]; rfl

section Discard

variable {g : GroupId} {s : Subtree}

theorem group?_discard (hs : t.subtree? g = some s) (h : GroupId) :
    (t.discard g).group? h = if h ∈ s.groupIds then none else t.group? h := by
  simp only [discard, hs]
  exact group?_foldl_discardNode ..

theorem condition?_discard (hs : t.subtree? g = some s) (c : ConditionId) :
    (t.discard g).condition? c = if c ∈ s.conditionIds then none else t.condition? c := by
  simp only [discard, hs]
  exact condition?_foldl_discardNode ..

theorem group?_discard_of_live {h : GroupId} (hlive : (t.discard g).containsGroup h = true) :
    (t.discard g).group? h = t.group? h := by
  obtain ⟨n, hn⟩ := containsGroup_iff.1 hlive
  cases hs : t.subtree? g with
  | none => simp only [discard, hs]
  | some s =>
    rw [group?_discard hs] at hn ⊢
    split at hn
    · cases hn
    · rename_i hmem
      rw [if_neg hmem]

theorem condition?_discard_of_live {c : ConditionId}
    (hlive : (t.discard g).containsCondition c = true) :
    (t.discard g).condition? c = t.condition? c := by
  obtain ⟨d, hd⟩ := containsCondition_iff.1 hlive
  cases hs : t.subtree? g with
  | none => simp only [discard, hs]
  | some s =>
    rw [condition?_discard hs] at hd ⊢
    split at hd
    · cases hd
    · rename_i hmem
      rw [if_neg hmem]

end Discard

@[simp] theorem root_discard (g : GroupId) : (t.discard g).root = t.root := by
  unfold discard
  split
  · exact root_foldl_discardNode _ _
  · rfl

end Tree

end WhenClause
