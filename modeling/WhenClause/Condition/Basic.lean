import WhenClause.Condition.Attributes

/-!
# Conditions

A condition is a finite map from text keys to values. What it means is up to whoever evaluates a
rule; here it is only stored, edited, written and read. The attributes are listed in the order of
their keys, so a condition has one form, whatever the order of the edits that led to it.
-/

namespace WhenClause

structure Condition where
  attributes : Attributes
  ordered : attributes.Ordered
  deriving DecidableEq, Repr

namespace Condition

def empty : Condition := ⟨[], .nil⟩

instance : Inhabited Condition := ⟨empty⟩

def isEmpty (c : Condition) : Bool := c.attributes.isEmpty

def get? (c : Condition) (key : String) : Option Value := c.attributes.lookup key

def insert (c : Condition) (key : String) (value : Value) : Condition :=
  ⟨c.attributes.set key value, c.ordered.set key value⟩

def erase (c : Condition) (key : String) : Condition :=
  ⟨c.attributes.erase key, c.ordered.erase key⟩

def set (c : Condition) (key : String) (value : Value) : Option Value × Condition :=
  (c.get? key, c.insert key value)

def remove (c : Condition) (key : String) : Option Value × Condition :=
  (c.get? key, c.erase key)

/-- The condition with these attributes, where the last value of a repeated key counts. -/
def ofList (as : List (String × Value)) : Condition :=
  as.foldl (fun c a => c.insert a.1 a.2) empty

@[simp] theorem get?_empty (k : String) : empty.get? k = none := rfl

theorem get?_insert (c : Condition) (key k : String) (value : Value) :
    (c.insert key value).get? k = if k = key then some value else c.get? k :=
  Attributes.lookup_set ..

theorem get?_erase (c : Condition) (key k : String) :
    (c.erase key).get? k = if k = key then none else c.get? k :=
  Attributes.lookup_erase ..

theorem ext_get? {c d : Condition} (h : ∀ k, c.get? k = d.get? k) : c = d := by
  obtain ⟨as, ha⟩ := c
  obtain ⟨bs, hb⟩ := d
  simp only [mk.injEq]
  exact ha.eq_of_lookup hb h

def agrees (c d : Condition) : Bool :=
  c.attributes.length == d.attributes.length &&
    (c.attributes.zip d.attributes).all fun p => p.1.1 == p.2.1 && p.1.2.agrees p.2.2

end Condition

end WhenClause
