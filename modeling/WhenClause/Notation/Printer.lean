import WhenClause.Group
import WhenClause.Notation.Keyword

/-!
# Printing the notation

A condition is written as its attributes between braces and a group as its keyword and its
entries between brackets, conditions before nested groups. Every entry follows a blank and
entries are set apart by commas.
-/

namespace WhenClause

def printKey (key : List Char) : List Char :=
  if Word.isWord key then key else Quoted.print key

def printAttribute (a : String × Value) : List Char :=
  printKey a.1.toList ++ ':' :: ' ' :: a.2.print

namespace Condition

def print (c : Condition) : List Char :=
  if c.isEmpty then ['{', '}']
  else '{' :: ' ' :: [',', ' '].intercalate (c.attributes.map printAttribute) ++ [' ', '}']

def text (c : Condition) : String := String.ofList c.print

end Condition

namespace Group

def printEntries (entries : List (List Char)) : List Char :=
  if entries.isEmpty then [']']
  else [','].intercalate (entries.map (' ' :: ·)) ++ [' ', ']']

mutual
def print : Group → List Char
  | ⟨operator, items, groups⟩ =>
    Keyword.print operator ++ ' ' :: '[' :: printEntries (items.map Condition.print ++ printAll groups)

def printAll : List Group → List (List Char)
  | [] => []
  | g :: gs => print g :: printAll gs
end

theorem printAll_eq_map (gs : List Group) : printAll gs = gs.map print := by
  induction gs with
  | nil => rfl
  | cons g gs ih => rw [printAll, ih, List.map_cons]

theorem print_eq (g : Group) :
    g.print = Keyword.print g.operator ++
      ' ' :: '[' :: printEntries (g.items.map Condition.print ++ g.groups.map print) := by
  cases g
  rw [print, printAll_eq_map]

def text (g : Group) : String := String.ofList g.print

end Group

end WhenClause
