import WhenClause.Proofs.Slab.Expiry

/-!
# Changing a value in place

A change of one value leaves the slots, their generations and the vacancies of a slab as they are.
So it does not matter whether it is made before or after other values come and go, and the keys that
are handed out are the same either way.
-/

namespace WhenClause

theorem array_modify_comm {α : Type} (a : Array α) {i j : Nat} {f g : α → α}
    (h : i = j → ∀ x, f (g x) = g (f x)) :
    (a.modify j g).modify i f = (a.modify i f).modify j g := by
  apply Array.ext_getElem?
  intro l
  simp only [Array.getElem?_modify]
  by_cases hi : i = l
  · by_cases hj : j = l
    · have hcomm := funext (h (hi.trans hj.symm))
      simp only [hi, hj, if_true, Option.map_map]
      exact congrArg (Option.map · _) hcomm
    · simp [hi, hj]
  · simp [hi]

namespace Slab

variable {α : Type} {s s' : Slab α} {k : Key} {f : α → α}

theorem eq_of_parts (hslots : s'.slots = s.slots) (hgeneration : s'.generation = s.generation)
    (hvacant : s'.vacant = s.vacant) : s' = s := by
  cases s
  cases s'
  cases hslots
  cases hgeneration
  cases hvacant
  rfl

def changeEntry (k : Key) (f : α → α) (entry : Option (Entry α)) : Option (Entry α) :=
  entry.map fun e => if e.generation = k.generation then ⟨e.generation, f e.value⟩ else e

theorem slots_modify (s : Slab α) (k : Key) (f : α → α) :
    (s.modify k f).slots = s.slots.modify k.slot (changeEntry k f) := by
  apply Array.ext_getElem?
  intro i
  rw [Array.getElem?_modify]
  by_cases hi : k.slot = i
  case neg =>
    rw [if_neg hi, modify]
    split
    · rw [Array.getElem?_modify, if_neg hi]
    · rfl
  subst hi
  rw [if_pos rfl, modify]
  split
  · obtain ⟨v, hv⟩ := exists_entry_of_contains ‹_›
    simp [Array.getElem?_modify, hv, changeEntry]
  · rename_i hk
    cases hslot : s.slots[k.slot]? with
    | none => rfl
    | some entry =>
      cases entry with
      | none => rfl
      | some e =>
        -- If the entry were of the generation of the key, it would be the value of the key.
        have hne : e.generation ≠ k.generation := by
          intro heq
          apply hk
          simp [contains, get?, hslot, heq]
        simp [changeEntry, hne]

theorem vacant_modify (s : Slab α) (k : Key) (f : α → α) : (s.modify k f).vacant = s.vacant := by
  unfold modify
  split <;> rfl

theorem nextKey_modify (s : Slab α) (k : Key) (f : α → α) :
    (s.modify k f).nextKey = s.nextKey := by
  rw [nextKey, nextKey, vacant_modify, generation_modify, slots_modify, Array.size_modify]

theorem contains_modify (s : Slab α) (k j : Key) (f : α → α) :
    (s.modify k f).contains j = s.contains j := by
  rw [contains, contains, get?_modify]
  split
  · rename_i hj
    rw [hj, Option.isSome_map]
  · rfl

theorem size_modify (s : Slab α) (k : Key) (f : α → α) : (s.modify k f).size = s.size := by
  have hperm : (s.modify k f).keys.Perm s.keys := by
    rw [List.perm_ext_iff_of_nodup nodup_keys nodup_keys]
    intro j
    rw [mem_keys, mem_keys, contains_modify]
  exact hperm.length_eq

theorem modify_modify (s : Slab α) (k : Key) (f f' : α → α) :
    (s.modify k f').modify k f = s.modify k (f ∘ f') := by
  have hentry : changeEntry k f ∘ changeEntry k f' = changeEntry k (f ∘ f') := by
    funext entry
    cases entry with
    | none => rfl
    | some e => by_cases he : e.generation = k.generation <;> simp [changeEntry, he]
  apply eq_of_parts
  · apply Array.ext_getElem?
    intro i
    simp only [slots_modify, Array.getElem?_modify]
    split
    · rw [Option.map_map, hentry]
    · rfl
  · simp only [generation_modify]
  · simp only [vacant_modify]

theorem modify_congr {f' : α → α} (h : ∀ v, s.get? k = some v → f v = f' v) :
    s.modify k f = s.modify k f' := by
  apply eq_of_parts
  · apply Array.ext_getElem?
    intro i
    simp only [slots_modify, Array.getElem?_modify]
    split
    · rename_i hi
      subst hi
      apply Option.map_congr
      intro entry hentry
      cases entry with
      | none => rfl
      | some e =>
        by_cases he : e.generation = k.generation
        · have hvalue := h e.value (get?_eq_some_iff.2 (he ▸ hentry))
          simp [changeEntry, he, hvalue]
        · simp [changeEntry, he]
    · rfl
  · simp only [generation_modify]
  · simp only [vacant_modify]

theorem modify_id (s : Slab α) (k : Key) : s.modify k id = s := by
  have hentry : changeEntry k (id : α → α) = id := by
    funext entry
    cases entry <;> simp [changeEntry]
  apply eq_of_parts
  · apply Array.ext_getElem?
    intro i
    rw [slots_modify, Array.getElem?_modify, hentry, Option.map_id, id, ite_self]
  · exact generation_modify s k id
  · exact vacant_modify s k id

theorem changeEntry_comm {j : Key} {f' : α → α}
    (h : k.generation = j.generation → ∀ v, f (f' v) = f' (f v)) (entry : Option (Entry α)) :
    changeEntry k f (changeEntry j f' entry) = changeEntry j f' (changeEntry k f entry) := by
  cases entry with
  | none => rfl
  | some e => grind [changeEntry]

theorem modify_comm (s : Slab α) {k j : Key} {f f' : α → α}
    (h : k = j → ∀ v, f (f' v) = f' (f v)) :
    (s.modify j f').modify k f = (s.modify k f).modify j f' := by
  apply eq_of_parts
  · simp only [slots_modify]
    apply array_modify_comm
    intro hslot
    apply changeEntry_comm
    intro hgeneration
    apply h
    cases k
    cases j
    cases hslot
    cases hgeneration
    rfl
  · simp only [generation_modify]
  · simp only [vacant_modify]

theorem slots_insert (s : Slab α) (v : α) :
    (s.insert v).slots = match s.vacant with
      | [] => s.slots.push (some ⟨s.generation, v⟩)
      | i :: _ => s.slots.modify i fun _ => some ⟨s.generation, v⟩ := by
  unfold insert
  split <;> simp_all only

theorem vacant_insert (s : Slab α) (v : α) : (s.insert v).vacant = s.vacant.tail := by
  unfold insert
  split <;> simp_all only [List.tail_nil, List.tail_cons]

theorem insert_modify (h : s.contains k = true) (f : α → α) (v : α) :
    (s.modify k f).insert v = (s.insert v).modify k f := by
  obtain ⟨w, hw⟩ := exists_entry_of_contains h
  apply eq_of_parts
  · rw [slots_modify, slots_insert, slots_insert, vacant_modify, generation_modify, slots_modify]
    cases hvacant : s.vacant with
    | nil =>
      have hlt : k.slot < s.slots.size := (Array.getElem?_eq_some_iff.1 hw).1
      apply Array.ext_getElem?
      intro i
      simp only [Array.getElem?_push, Array.getElem?_modify, Array.size_modify]
      split <;> split <;> first | rfl | omega
    | cons i rest =>
      apply array_modify_comm
      rintro rfl
      cases hw.symm.trans (slots_of_vacant hvacant)
  · simp only [generation_modify, generation_insert]
  · simp only [vacant_modify, vacant_insert]

theorem erase_of_not_contains (h : ¬ s.contains k = true) : s.erase k = s :=
  dif_neg h

theorem slots_erase (h : s.contains k = true) :
    (s.erase k).slots = s.slots.modify k.slot fun _ => none := by
  rw [erase, dif_pos h]

theorem vacant_erase (h : s.contains k = true) : (s.erase k).vacant = k.slot :: s.vacant := by
  rw [erase, dif_pos h]

theorem erase_modify (s : Slab α) (k j : Key) (f : α → α) :
    (s.modify k f).erase j = (s.erase j).modify k f := by
  by_cases hj : s.contains j = true
  case neg =>
    rw [erase_of_not_contains hj, erase_of_not_contains (by rwa [contains_modify])]
  have hj' : (s.modify k f).contains j = true := by rwa [contains_modify]
  apply eq_of_parts
  · rw [slots_modify, slots_erase hj, slots_erase hj', slots_modify]
    exact array_modify_comm _ fun _ _ => rfl
  · rw [generation_modify, generation_erase_of_contains hj, generation_erase_of_contains hj',
      generation_modify]
  · rw [vacant_modify, vacant_erase hj, vacant_erase hj', vacant_modify]

end Slab

end WhenClause
