import WhenClause.Notation.Printer
import WhenClause.Notation.Reader
import WhenClause.Tree.Edit

/-!
# Rules

A rule is a name and the live tree of the conditions under which it holds. A rule without a root
group has no such conditions, which is not the same as an empty group.
-/

namespace WhenClause

structure Rule where
  name : String
  tree : Tree

namespace Rule

def empty : Rule := ⟨"", .empty⟩

instance : Inhabited Rule := ⟨empty⟩

def withGroup (r : Rule) (g : Group) : Rule := { r with tree := .ofGroup g }

def ofGroup? (name : String) (g : Option Group) : Rule :=
  ⟨name, (g.map Tree.ofGroup).getD .empty⟩

def ofText (name text : String) : Except Failure Rule :=
  (Group.ofText text).map fun g => ⟨name, .ofGroup g⟩

def text (r : Rule) : String :=
  "rule " ++ r.name ++ ": " ++
    match r.tree.rootGroup? with
    | some g => g.text
    | none => "<no when>"

end Rule

end WhenClause
