import WhenClause.Condition.Basic
import WhenClause.Operator

/-!
# Groups

A group joins conditions and nested groups by its operator. It is the plain value behind a rule:
what the notation writes, what a snapshot stores, and what a live tree is a view of.
-/

namespace WhenClause

structure Group where
  operator : Option Operator
  items : List Condition
  groups : List Group
  deriving Repr

namespace Group

def empty : Group := ⟨none, [], []⟩

instance : Inhabited Group := ⟨empty⟩

def withOperator (g : Group) (o : Operator) : Group := { g with operator := some o }

def addItem (g : Group) (c : Condition) : Group := { g with items := g.items ++ [c] }

def addGroup (g child : Group) : Group := { g with groups := g.groups ++ [child] }

def effectiveOperator (g : Group) : Operator := Operator.effective g.operator

def isEmpty (g : Group) : Bool := g.items.isEmpty && g.groups.isEmpty

mutual
def preorder : Group → List Group
  | ⟨operator, items, groups⟩ => ⟨operator, items, groups⟩ :: preorderAll groups

def preorderAll : List Group → List Group
  | [] => []
  | g :: gs => preorder g ++ preorderAll gs
end

@[elab_as_elim]
theorem induct {P : Group → Prop}
    (node : ∀ operator items groups, (∀ g ∈ groups, P g) → P ⟨operator, items, groups⟩) :
    ∀ g, P g
  | ⟨operator, items, groups⟩ => node operator items groups fun g _ => induct node g

theorem preorder_eq (g : Group) : g.preorder = g :: preorderAll g.groups := by
  cases g
  rw [preorder]

theorem preorderAll_eq_flatMap (gs : List Group) : preorderAll gs = gs.flatMap preorder := by
  induction gs with
  | nil => rfl
  | cons g gs ih => rw [preorderAll, ih, List.flatMap_cons]

def groupCount (g : Group) : Nat := g.preorder.length

def conditions (g : Group) : List Condition := g.preorder.flatMap Group.items

def conditionCount (g : Group) : Nat := g.conditions.length

mutual
def agrees : Group → Group → Bool
  | ⟨o, cs, gs⟩, ⟨o', cs', gs'⟩ =>
    o == o' && cs.length == cs'.length && (cs.zip cs').all (fun p => p.1.agrees p.2) &&
      agreesAll gs gs'

def agreesAll : List Group → List Group → Bool
  | [], [] => true
  | g :: gs, g' :: gs' => agrees g g' && agreesAll gs gs'
  | _, _ => false
end

end Group

end WhenClause
