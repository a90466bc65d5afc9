import WhenClause.Slab.Basic

/-!
# Looking up in slabs

What each operation on a slab does to `get?`, and what `keys` lists. Everything else about slabs
follows from these equations: insertion gives a value to one key that had none, erasure takes the
value of one key, and nothing else changes.
-/

namespace WhenClause.Slab

variable {α : Type} {s : Slab α}

@[simp] theorem get?_empty (k : Key) : (empty : Slab α).get? k = none := by
  simp [get?, empty]

theorem contains_iff {k : Key} : s.contains k = true ↔ ∃ v, s.get? k = some v :=
  Option.isSome_iff_exists

theorem get?_eq_some_iff {k : Key} {v : α} :
    s.get? k = some v ↔ s.slots[k.slot]? = some (some ⟨k.generation, v⟩) := by
  unfold get?
  split
  · rename_i e hslot
    obtain ⟨g, w⟩ := e
    rw [hslot]
    grind
  · rename_i hslot
    exact ⟨nofun, fun h => absurd h (hslot _)⟩

theorem slots_of_vacant {i : Nat} {rest : List Nat} (h : s.vacant = i :: rest) :
    s.slots[i]? = some none :=
  (s.vacant_iff i).1 (h ▸ List.mem_cons_self ..)

@[simp] theorem get?_nextKey : s.get? s.nextKey = none := by
  unfold nextKey
  cases h : s.vacant with
  | nil => simp [get?]
  | cons i rest => simp [get?, slots_of_vacant h]

theorem get?_insert (v : α) (k : Key) :
    (s.insert v).get? k = if k = s.nextKey then some v else s.get? k := by
  obtain ⟨i, g⟩ := k
  unfold insert nextKey
  split
  · rename_i h
    simp only [get?, h, Array.getElem?_push, Key.mk.injEq, List.headD_nil]
    by_cases hi : i = s.slots.size
    · subst hi
      simp [eq_comm (a := g)]
    · simp [hi]
  · rename_i j rest h
    have hvacant := slots_of_vacant h
    simp only [get?, h, Array.getElem?_modify, Key.mk.injEq, List.headD_cons]
    by_cases hi : i = j
    · subst hi
      simp [hvacant, eq_comm (a := g)]
    · simp [hi, Ne.symm hi]

theorem get?_erase (k j : Key) : (s.erase k).get? j = if j = k then none else s.get? j := by
  obtain ⟨i, g⟩ := j
  obtain ⟨i', g'⟩ := k
  unfold erase
  split
  · rename_i h
    obtain ⟨v, hv⟩ := exists_entry_of_contains h
    simp only [get?, Array.getElem?_modify, Key.mk.injEq]
    by_cases hi : i = i'
    · subst hi
      by_cases hg : g' = g <;> simp [hv, hg]
    · simp [hi, Ne.symm hi]
  · rename_i h
    split
    · rename_i heq
      simpa [contains, heq] using h
    · rfl

theorem get?_modify (k j : Key) (f : α → α) :
    (s.modify k f).get? j = if j = k then (s.get? k).map f else s.get? j := by
  obtain ⟨i, g⟩ := j
  obtain ⟨i', g'⟩ := k
  unfold modify
  split
  · rename_i h
    obtain ⟨v, hv⟩ := exists_entry_of_contains h
    simp only [get?, Array.getElem?_modify, Key.mk.injEq]
    by_cases hi : i = i'
    · subst hi
      by_cases hg : g' = g
      · simp [hv, hg]
      · simp [hv, hg, Ne.symm hg]
    · simp [hi, Ne.symm hi]
  · rename_i h
    split
    · rename_i heq
      have hnone : s.get? ⟨i', g'⟩ = none := by simpa [contains] using h
      simp [heq, hnone]
    · rfl

theorem mem_keys {k : Key} : k ∈ s.keys ↔ s.contains k = true := by
  obtain ⟨i, g⟩ := k
  simp only [keys, List.mem_filterMap, List.mem_zipIdx_iff_getElem?, Option.map_eq_some_iff,
    Key.mk.injEq, contains_iff, get?_eq_some_iff, Array.getElem?_toList]
  constructor
  · rintro ⟨⟨_, j⟩, hslot, ⟨g', v⟩, rfl, rfl, rfl⟩
    exact ⟨v, hslot⟩
  · rintro ⟨v, hslot⟩
    exact ⟨(some ⟨g, v⟩, i), hslot, ⟨g, v⟩, rfl, rfl, rfl⟩

theorem nodup_keys : s.keys.Nodup := by
  have hidx : (s.slots.toList.zipIdx).Pairwise fun p q => p.2 ≠ q.2 := by
    rw [← List.pairwise_map (f := Prod.snd), List.zipIdx_map_snd]
    exact List.nodup_range'
  refine hidx.filterMap _ fun p q hpq k hk j hj heq => hpq ?_
  simp only [Option.map_eq_some_iff] at hk hj
  obtain ⟨_, _, rfl⟩ := hk
  obtain ⟨_, _, rfl⟩ := hj
  exact congrArg Key.slot heq

end WhenClause.Slab
