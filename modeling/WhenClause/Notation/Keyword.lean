import WhenClause.Operator
import WhenClause.Notation.Word

/-!
# Keywords

A group is opened by the word that names its operator; the word `group` leaves it unset. A keyword
is always a whole word: `android` does not start with one.
-/

namespace WhenClause.Keyword

def print : Option Operator → List Char
  | some .and => "and".toList
  | some .or => "or".toList
  | none => "group".toList

def operator? (word : List Char) : Option (Option Operator) :=
  [some .and, some .or, none].find? fun o => print o == word

@[simp] theorem operator?_print (o : Option Operator) : operator? (print o) = some o := by
  rcases o with _ | _ | _ <;> rfl

theorem print_of_operator? {word : List Char} {o : Option Operator}
    (h : operator? word = some o) : print o = word := by
  simpa using List.find?_some h

theorem isWord_print (o : Option Operator) : Word.isWord (print o) = true := by
  rcases o with _ | _ | _ <;> decide

def read? (s : List Char) : Option (Option Operator × List Char) :=
  (Word.read? s).bind fun w => (operator? w.1).map fun o => (o, w.2)

theorem length_read? {s rest : List Char} {o : Option Operator} (h : read? s = some (o, rest)) :
    rest.length < s.length := by
  obtain ⟨⟨w, t⟩, hw, h⟩ := Option.bind_eq_some_iff.1 h
  obtain ⟨_, _, ⟨⟩⟩ := Option.map_eq_some_iff.1 h
  exact Word.length_read? hw

end WhenClause.Keyword
