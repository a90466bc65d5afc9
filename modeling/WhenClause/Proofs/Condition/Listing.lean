import WhenClause.Condition.Basic

/-!
# Conditions and their listings

A condition made from a list of attributes has under each key the last value that the list gives
the key, and the condition made from its own attributes is the same condition again.
-/

namespace WhenClause

theorem Attributes.set_eq_append {as : Attributes} {key : String} (h : ∀ a ∈ as, a.1 < key)
    (value : Value) : as.set key value = as ++ [(key, value)] := by
  induction as with
  | nil => rfl
  | cons a as ih =>
    have hlt := h a (List.mem_cons_self ..)
    rw [set, if_neg (fun h' => String.lt_irrefl _ (String.lt_trans hlt h')),
      if_neg (String.ne_of_lt hlt).symm, ih fun b hb => h b (List.mem_cons_of_mem _ hb)]
    rfl

theorem Attributes.lookup_of_mem {as : Attributes} (h : as.Ordered) {a : String × Value}
    (ha : a ∈ as) : as.lookup a.1 = some a.2 := by
  induction as with
  | nil => exact absurd ha List.not_mem_nil
  | cons b as ih =>
    obtain ⟨hfirst, hmore⟩ := List.pairwise_cons.1 h
    rw [lookup_cons]
    rcases List.mem_cons.1 ha with rfl | ha
    · exact if_pos rfl
    · rw [if_neg (String.ne_of_lt (hfirst a ha)).symm, ih hmore ha]

namespace Condition

theorem foldl_insert (as : Attributes) {c : Condition} (h : (c.attributes ++ as).Ordered) :
    (as.foldl (fun c a => c.insert a.1 a.2) c).attributes = c.attributes ++ as := by
  induction as generalizing c with
  | nil => simp
  | cons a as ih =>
    have hlast : ∀ b ∈ c.attributes, b.1 < a.1 := fun b hb =>
      (List.pairwise_append.1 h).2.2 b hb a (List.mem_cons_self ..)
    have hinsert : (c.insert a.1 a.2).attributes = c.attributes ++ [a] :=
      Attributes.set_eq_append hlast a.2
    have hordered : ((c.insert a.1 a.2).attributes ++ as).Ordered := by
      rwa [hinsert, List.append_assoc]
    rw [List.foldl_cons, ih hordered, hinsert, List.append_assoc]
    rfl

theorem eq_of_attributes {c d : Condition} (h : c.attributes = d.attributes) : c = d := by
  cases c
  cases d
  cases h
  rfl

theorem ofList_attributes (c : Condition) : ofList c.attributes = c :=
  eq_of_attributes (foldl_insert c.attributes c.ordered)

theorem get?_ofList (as : List (String × Value)) (key : String) :
    (ofList as).get? key = as.reverse.lookup key := by
  have hfold : ∀ c : Condition, (as.foldl (fun c a => c.insert a.1 a.2) c).get? key =
      (as.reverse.lookup key).or (c.get? key) := by
    induction as with
    | nil => exact fun _ => rfl
    | cons a as ih =>
      intro c
      rw [List.foldl_cons, ih, get?_insert, List.reverse_cons, List.lookup_append,
        Attributes.lookup_cons, Option.or_assoc]
      split <;> rfl
  rw [ofList, hfold, get?_empty, Option.or_none]

theorem ofList_eq_iff {as : List (String × Value)} {c : Condition} :
    c = ofList as ↔ ∀ key, c.get? key = as.reverse.lookup key := by
  constructor
  · rintro rfl key
    exact get?_ofList as key
  · intro h
    exact ext_get? fun key => (h key).trans (get?_ofList as key).symm

end Condition

end WhenClause
