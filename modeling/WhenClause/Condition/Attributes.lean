import WhenClause.Value

/-!
# Attribute lists

Attributes are kept as a list of keys and values in strictly increasing order of the keys, where
texts are compared character by character. Each key occurs at most once, so the list is
determined by what `lookup` finds in it.
-/

namespace WhenClause

abbrev Attributes := List (String × Value)

namespace Attributes

def Ordered (as : Attributes) : Prop := as.Pairwise fun a b => a.1 < b.1

def set (key : String) (value : Value) : Attributes → Attributes
  | [] => [(key, value)]
  | a :: as =>
    if key < a.1 then (key, value) :: a :: as
    else if key = a.1 then (key, value) :: as
    else a :: set key value as

def erase (key : String) (as : Attributes) : Attributes :=
  as.filter fun a => a.1 != key

theorem lookup_cons (k : String) (a : String × Value) (as : Attributes) :
    (a :: as).lookup k = if k = a.1 then some a.2 else as.lookup k := by
  obtain ⟨key, value⟩ := a
  rw [List.lookup_cons]
  by_cases h : k = key
  · simp [h]
  · simp [beq_false_of_ne h, h]

theorem mem_keys_set {key k : String} {value : Value} {as : Attributes}
    (h : k ∈ (set key value as).map Prod.fst) : k = key ∨ k ∈ as.map Prod.fst := by
  induction as with
  | nil => simpa [set] using h
  | cons a as ih =>
    simp only [set] at h
    split at h
    · simpa using h
    · split at h
      · rcases List.mem_cons.1 h with h | h
        · exact .inl h
        · exact .inr (List.mem_cons_of_mem _ h)
      · rcases List.mem_cons.1 h with h | h
        · exact .inr (h ▸ List.mem_cons_self ..)
        · exact (ih h).imp_right (List.mem_cons_of_mem _)

theorem Ordered.set {as : Attributes} (h : as.Ordered) (key : String) (value : Value) :
    (as.set key value).Ordered := by
  induction as with
  | nil => exact List.pairwise_singleton ..
  | cons a as ih =>
    obtain ⟨hhead, htail⟩ := List.pairwise_cons.1 h
    simp only [Attributes.set]
    split
    · rename_i hlt
      exact List.pairwise_cons.2 ⟨fun b hb => by
        rcases List.mem_cons.1 hb with rfl | hb
        · exact hlt
        · exact String.lt_trans hlt (hhead b hb), h⟩
    · rename_i hnlt
      split
      · rename_i heq
        subst heq
        exact List.pairwise_cons.2 ⟨hhead, htail⟩
      · rename_i hne
        refine List.pairwise_cons.2 ⟨fun b hb => ?_, ih htail⟩
        rcases mem_keys_set (List.mem_map_of_mem hb) with hb | hb
        · exact hb ▸ Std.lt_of_le_of_ne (Std.not_lt.1 hnlt) (Ne.symm hne)
        · obtain ⟨c, hc, hcb⟩ := List.mem_map.1 hb
          exact hcb ▸ hhead c hc

theorem Ordered.erase {as : Attributes} (h : as.Ordered) (key : String) :
    (as.erase key).Ordered :=
  h.filter _

theorem lookup_eq_none_of_lt {as : Attributes} {key : String} (h : ∀ a ∈ as, key < a.1) :
    as.lookup key = none := by
  rw [List.lookup_eq_none_iff]
  exact fun a ha => by simpa using String.ne_of_lt (h a ha)

theorem lookup_set (key k : String) (value : Value) (as : Attributes) :
    (as.set key value).lookup k = if k = key then some value else as.lookup k := by
  induction as with
  | nil => simp only [set, lookup_cons]
  | cons a as ih =>
    simp only [set]
    split
    · rw [lookup_cons]
    · split
      · simp_all only [lookup_cons]
        grind
      · simp only [lookup_cons, ih]
        grind

theorem lookup_erase (key k : String) (as : Attributes) :
    (as.erase key).lookup k = if k = key then none else as.lookup k := by
  induction as with
  | nil => simp [erase]
  | cons a as ih =>
    simp only [erase, List.filter_cons] at *
    split <;> simp only [lookup_cons] <;> grind

theorem Ordered.eq_of_lookup {as bs : Attributes} (ha : as.Ordered) (hb : bs.Ordered)
    (h : ∀ k, as.lookup k = bs.lookup k) : as = bs := by
  induction as generalizing bs with
  | nil =>
    cases bs with
    | nil => rfl
    | cons b bs => simpa [lookup_cons] using h b.1
  | cons a as ih =>
    cases bs with
    | nil => simpa [lookup_cons] using h a.1
    | cons b bs =>
      obtain ⟨ha₁, ha₂⟩ := List.pairwise_cons.1 ha
      obtain ⟨hb₁, hb₂⟩ := List.pairwise_cons.1 hb
      have hkey : a.1 = b.1 := by
        apply Decidable.byContradiction
        intro hne
        by_cases hlt : a.1 < b.1
        · have hnone : List.lookup a.1 (b :: bs) = none := lookup_eq_none_of_lt fun c hc => by
            rcases List.mem_cons.1 hc with rfl | hc
            · exact hlt
            · exact String.lt_trans hlt (hb₁ c hc)
          simpa [lookup_cons, hnone] using h a.1
        · have hlt := Std.lt_of_le_of_ne (Std.not_lt.1 hlt) (Ne.symm hne)
          have hnone : List.lookup b.1 (a :: as) = none := lookup_eq_none_of_lt fun c hc => by
            rcases List.mem_cons.1 hc with rfl | hc
            · exact hlt
            · exact String.lt_trans hlt (ha₁ c hc)
          simpa [lookup_cons, hnone] using h b.1
      have hvalue : a.2 = b.2 := by
        have := h a.1
        simpa [lookup_cons, hkey] using this
      have htail : as = bs := by
        refine ih ha₂ hb₂ fun k => ?_
        by_cases hk : k = a.1
        · subst hk
          rw [lookup_eq_none_of_lt ha₁, lookup_eq_none_of_lt (hkey ▸ hb₁)]
        · have := h k
          simpa [lookup_cons, hk, hkey ▸ hk] using this
      rw [htail, Prod.ext hkey hvalue]

end Attributes

end WhenClause
