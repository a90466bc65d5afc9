import WhenClause.Proofs.Notation.Completeness
import WhenClause.Proofs.Notation.Printing

/-!
# Reading what was printed

A printed group is read as the same group, bit for bit, but for the NaNs: whatever their bits,
they are read as the one NaN of the notation. What is read is printed as the same text again, and
it agrees with the group that was printed exactly if there is no NaN in it.
-/

namespace WhenClause

theorem map_eq_self {α : Type} {f : α → α} {l : List α} (h : ∀ a ∈ l, f a = a) : l.map f = l :=
  (List.map_congr_left h).trans (List.map_id l)

namespace Value

theorem print_oneNaN (v : Value) : v.oneNaN.print = v.print := by
  cases v with
  | float x =>
    cases h : x.isNaN with
    | true => simp [oneNaN, print, Binary64.print, h, show Binary64.nan.isNaN = true from rfl]
    | false => simp [oneNaN, h]
  | int => rfl
  | bool => rfl
  | str => rfl

theorem agrees_oneNaN (v : Value) : v.oneNaN.agrees v = !v.isNaN := by
  cases v with
  | float x =>
    cases h : x.isNaN with
    | true => simp [oneNaN, agrees, Binary64.agrees, isNaN, h]
    | false => simp [oneNaN, agrees, Binary64.agrees, isNaN, h]
  | int => simp [oneNaN, agrees, isNaN]
  | bool => simp [oneNaN, agrees, isNaN]
  | str => simp [oneNaN, agrees, isNaN]

theorem oneNaN_eq_self {v : Value} (h : v.isNaN = true → v = .float .nan) : v.oneNaN = v := by
  cases v with
  | float x =>
    cases hx : x.isNaN with
    | true =>
      rw [h hx]
      rfl
    | false => simp [oneNaN, hx]
  | int => rfl
  | bool => rfl
  | str => rfl

end Value

namespace Condition

def hasNaN (c : Condition) : Bool := c.attributes.any fun a => a.2.isNaN

theorem print_oneNaN (c : Condition) : c.oneNaN.print = c.print := by
  have hattribute : ∀ a : String × Value, printAttribute (a.1, a.2.oneNaN) = printAttribute a :=
    fun a => by rw [printAttribute, printAttribute, Value.print_oneNaN]
  have hmap : c.oneNaN.attributes.map printAttribute = c.attributes.map printAttribute := by
    simp [oneNaN, hattribute]
  have hempty : c.oneNaN.isEmpty = c.isEmpty := by simp [isEmpty, oneNaN]
  rw [print, print, hmap, hempty]

theorem agrees_oneNaN (c : Condition) : c.oneNaN.agrees c = !c.hasNaN := by
  obtain ⟨as, hordered⟩ := c
  have hall : ∀ as : List (String × Value),
      ((as.map fun a => (a.1, a.2.oneNaN)).zip as).all
        (fun p => p.1.1 == p.2.1 && p.1.2.agrees p.2.2) = !as.any fun a => a.2.isNaN := by
    intro as
    induction as with
    | nil => rfl
    | cons a as ih => simp [ih, Value.agrees_oneNaN]
  simp [agrees, oneNaN, hasNaN, hall]

theorem oneNaN_eq_self {c : Condition}
    (h : ∀ a ∈ c.attributes, a.2.isNaN = true → a.2 = .float .nan) : c.oneNaN = c := by
  refine eq_of_attributes (map_eq_self fun a ha => ?_)
  rw [Value.oneNaN_eq_self (h a ha)]

end Condition

namespace Group

def hasNaN (g : Group) : Bool := g.conditions.any Condition.hasNaN

theorem hasNaN_node (operator : Option Operator) (items : List Condition) (groups : List Group) :
    hasNaN ⟨operator, items, groups⟩ = (items.any Condition.hasNaN || groups.any hasNaN) := by
  rw [hasNaN, conditions, preorder_eq, preorderAll_eq_flatMap, List.flatMap_cons, List.any_append,
    List.flatMap_assoc, List.any_flatMap]
  rfl

theorem print_oneNaN (g : Group) : g.oneNaN.print = g.print := by
  induction g using Group.induct with
  | node operator items groups ih =>
    have hitems : (items.map Condition.oneNaN).map Condition.print = items.map Condition.print := by
      simp [Condition.print_oneNaN]
    have hgroups : (groups.map oneNaN).map print = groups.map print := by
      simpa using ih
    rw [oneNaN_eq, print_eq, print_eq, hitems, hgroups]

theorem agreesAll_map {f : Group → Group} {gs : List Group}
    (h : ∀ g ∈ gs, (f g).agrees g = !g.hasNaN) : agreesAll (gs.map f) gs = !gs.any hasNaN := by
  induction gs with
  | nil => rfl
  | cons g gs ih =>
    rw [List.map_cons, agreesAll, h g (List.mem_cons_self ..),
      ih fun g hg => h g (List.mem_cons_of_mem _ hg), List.any_cons, Bool.not_or]

theorem agrees_oneNaN (g : Group) : g.oneNaN.agrees g = !g.hasNaN := by
  induction g using Group.induct with
  | node operator items groups ih =>
    have hitems : ((items.map Condition.oneNaN).zip items).all (fun p => p.1.agrees p.2) =
        !items.any Condition.hasNaN := by
      clear ih
      induction items with
      | nil => rfl
      | cons c items ih => simp [ih, Condition.agrees_oneNaN]
    rw [oneNaN_eq, agrees, hasNaN_node, agreesAll_map ih, hitems]
    simp

theorem oneNaN_eq_self {g : Group}
    (h : ∀ c ∈ g.conditions, ∀ a ∈ c.attributes, a.2.isNaN = true → a.2 = .float .nan) :
    g.oneNaN = g := by
  induction g using Group.induct with
  | node operator items groups ih =>
    rw [conditions, preorder_eq, preorderAll_eq_flatMap, List.flatMap_cons, List.flatMap_assoc] at h
    have hitems : items.map Condition.oneNaN = items := map_eq_self fun c hc =>
      Condition.oneNaN_eq_self (h c (List.mem_append_left _ hc))
    have hgroups : groups.map oneNaN = groups := map_eq_self fun g hg =>
      ih g hg fun c hc => h c (List.mem_append_right _ (List.mem_flatMap.2 ⟨g, hg, hc⟩))
    rw [oneNaN_eq, hitems, hgroups]

/-- Printing a group and reading the text loses nothing but the bits of NaNs. -/
theorem ofText_text (g : Group) :
    Group.ofText g.text = .ok g.oneNaN ∧ g.oneNaN.text = g.text ∧
      g.oneNaN.agrees g = !g.hasNaN ∧
      ((∀ c ∈ g.conditions, ∀ a ∈ c.attributes, a.2.isNaN = true → a.2 = .float .nan) →
        g.oneNaN = g) := by
  refine ⟨?_, ?_, agrees_oneNaN g, oneNaN_eq_self⟩
  · rw [Group.ofText, text, String.toList_ofList]
    exact Notation.read_of_derives g.derives_print
  · rw [text, text, print_oneNaN]

end Group

end WhenClause
