import WhenClause.Slab.Lemmas

/-!
# Expired keys

A key has expired when it has no value and is of an earlier generation than the slab. New keys are
of the generation of the slab and generations only grow, so an expired key stays expired and never
finds a value again. Erasing the value of a key lets the key expire, and nothing else ends a key:
one that has had a value has it still or has expired.
-/

namespace WhenClause.Slab

variable {α : Type} {s : Slab α} {k : Key}

def Expired (s : Slab α) (k : Key) : Prop := s.get? k = none ∧ k.generation < s.generation

theorem generation_insert (s : Slab α) (v : α) : (s.insert v).generation = s.generation := by
  unfold Slab.insert
  split <;> rfl

theorem generation_erase_of_contains (h : s.contains k = true) :
    (s.erase k).generation = s.generation + 1 := by
  unfold Slab.erase
  rw [dif_pos h]

theorem generation_le_erase (s : Slab α) (j : Key) : s.generation ≤ (s.erase j).generation := by
  unfold Slab.erase
  split
  · exact Nat.le_succ _
  · exact Nat.le_refl _

theorem generation_modify (s : Slab α) (j : Key) (f : α → α) :
    (s.modify j f).generation = s.generation := by
  unfold Slab.modify
  split <;> rfl

theorem Expired.insert (h : s.Expired k) (v : α) : (s.insert v).Expired k := by
  obtain ⟨hnone, hlt⟩ := h
  rw [Expired, generation_insert, get?_insert, if_neg]
  · exact ⟨hnone, hlt⟩
  · rintro rfl
    exact Nat.lt_irrefl _ hlt

theorem Expired.erase (h : s.Expired k) (j : Key) : (s.erase j).Expired k := by
  obtain ⟨hnone, hlt⟩ := h
  refine ⟨?_, Nat.lt_of_lt_of_le hlt (generation_le_erase s j)⟩
  rw [get?_erase, hnone, ite_self]

theorem Expired.modify (h : s.Expired k) (j : Key) (f : α → α) : (s.modify j f).Expired k := by
  obtain ⟨hnone, hlt⟩ := h
  rw [Expired, generation_modify, get?_modify]
  refine ⟨?_, hlt⟩
  split
  · rename_i hk
    rw [← hk, hnone, Option.map_none]
  · exact hnone

theorem expired_erase (h : s.contains k = true) : (s.erase k).Expired k := by
  obtain ⟨v, hv⟩ := exists_entry_of_contains h
  rw [Expired, generation_erase_of_contains h, get?_erase, if_pos rfl]
  exact ⟨rfl, Nat.lt_succ_of_le (s.entry_le k.slot _ hv)⟩

/-- What is so of a slab after any operations on another. -/
structure Later (s s' : Slab α) : Prop where
  expired : ∀ k, s.Expired k → s'.Expired k
  live : ∀ k, s.contains k = true → s'.contains k = true ∨ s'.Expired k

namespace Later

theorem refl (s : Slab α) : s.Later s := ⟨fun _ h => h, fun _ h => .inl h⟩

theorem trans {s s' s'' : Slab α} (h : s.Later s') (h' : s'.Later s'') : s.Later s'' where
  expired k hk := h'.expired k (h.expired k hk)
  live k hk := by
    rcases h.live k hk with hk | hk
    · exact h'.live k hk
    · exact .inr (h'.expired k hk)

theorem insert (s : Slab α) (v : α) : s.Later (s.insert v) where
  expired _ h := h.insert v
  live k hk := by
    obtain ⟨w, hw⟩ := contains_iff.1 hk
    refine .inl (contains_iff.2 ⟨w, ?_⟩)
    rw [get?_insert, if_neg, hw]
    rintro rfl
    rw [get?_nextKey] at hw
    cases hw

theorem erase (s : Slab α) (j : Key) : s.Later (s.erase j) where
  expired _ h := h.erase j
  live k hk := by
    by_cases hj : k = j
    · subst hj
      exact .inr (expired_erase hk)
    · obtain ⟨w, hw⟩ := contains_iff.1 hk
      refine .inl (contains_iff.2 ⟨w, ?_⟩)
      rw [get?_erase, if_neg hj, hw]

theorem modify (s : Slab α) (j : Key) (f : α → α) : s.Later (s.modify j f) where
  expired _ h := h.modify j f
  live k hk := by
    obtain ⟨w, hw⟩ := contains_iff.1 hk
    refine .inl (contains_iff.2 ?_)
    rw [get?_modify]
    by_cases hj : k = j
    · subst hj
      exact ⟨f w, by rw [if_pos rfl, hw, Option.map_some]⟩
    · exact ⟨w, by rw [if_neg hj, hw]⟩

end Later

def Known (s : Slab α) (k : Key) : Prop := s.contains k = true ∨ s.Expired k

theorem Known.later {s' : Slab α} (h : s.Known k) (hlater : s.Later s') : s'.Known k :=
  h.elim (hlater.live k) fun hk => .inr (hlater.expired k hk)

theorem Expired.contains_eq_false (h : s.Expired k) : s.contains k = false := by
  rw [contains, h.1, Option.isSome_none]

theorem Later.not_known {s' : Slab α} (h : s.Later s') (hbefore : s.contains k = false)
    (hafter : s'.contains k = true) : ¬ s.Known k := by
  rintro (hlive | hexpired)
  · exact Bool.eq_false_iff.1 hbefore hlive
  · exact Bool.eq_false_iff.1 (h.expired k hexpired).contains_eq_false hafter

end WhenClause.Slab
