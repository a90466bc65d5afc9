import WhenClause.Group
import WhenClause.Notation.Blank
import WhenClause.Notation.Failure
import WhenClause.Notation.Keyword
import WhenClause.Notation.Numeral

/-!
# Reading the notation

Every reader takes the text that is left and returns what it read with the text left after it, or
the failure. Nothing is read twice: the first character that is no blank decides what comes next.

A group is read by one loop. It keeps the group it is in, as read so far, and the groups around
it, the innermost first; an opening keyword goes one group in and a closing bracket one out.
-/

namespace WhenClause.Notation

def literals : List (List Char × Value) :=
  [("true".toList, .bool true), ("false".toList, .bool false),
    ("inf".toList, .float .infinity), ("-inf".toList, .float .negInfinity),
    ("nan".toList, .float .nan)]

def literal? (s : List Char) : Option (Value × List Char) :=
  (literals.find? fun l => l.1.isPrefixOf s).map fun l => (l.2, s.drop l.1.length)

def value (s : List Char) : Except Failure (Value × List Char) :=
  match s with
  | '"' :: _ =>
    match Quoted.read? s with
    | some (t, rest) => .ok (.str (String.ofList t), rest)
    | none => .error ⟨some .value, s⟩
  | _ =>
    match literal? s with
    | some r => .ok r
    | none => (Numeral.read s).mapError fun rest => ⟨some .value, rest⟩

def key? (s : List Char) : Option (String × List Char) :=
  ((Quoted.read? s).or (Word.read? s)).map fun r => (String.ofList r.1, r.2)

def separator (s : List Char) : List Char :=
  match Blank.skip s with
  | ',' :: rest => rest
  | rest => rest

def attributeValue (s : List Char) : Except Failure (Value × List Char) :=
  match Blank.skip s with
  | ':' :: rest => value (Blank.skip rest)
  | rest => .error ⟨some .colon, rest⟩

theorem length_separator_le (s : List Char) : (separator s).length ≤ s.length := by
  have hskip := Blank.length_skip_le s
  unfold separator
  split
  · rename_i rest heq
    simp only [heq, List.length_cons] at hskip
    omega
  · exact hskip

theorem length_literal? {s rest : List Char} {v : Value} (h : literal? s = some (v, rest)) :
    rest.length < s.length := by
  obtain ⟨l, hl, ⟨⟩⟩ := Option.map_eq_some_iff.1 h
  have hpos : ∀ l ∈ literals, 0 < l.1.length := by decide
  have := hpos l (List.mem_of_find?_eq_some hl)
  have hprefix := List.find?_some hl
  have := (List.isPrefixOf_iff_prefix.1 hprefix).length_le
  simp only [List.length_drop]
  omega

theorem length_value {s rest : List Char} {v : Value} (h : value s = .ok (v, rest)) :
    rest.length < s.length := by
  unfold value at h
  split at h
  · split at h
    · rename_i hq
      cases h
      exact Quoted.length_read? hq
    · simp at h
  · split at h
    · rename_i hl
      cases h
      exact length_literal? hl
    · cases hn : Numeral.read s with
      | ok r =>
        rw [hn] at h
        cases h
        exact Numeral.length_read hn
      | error e =>
        rw [hn] at h
        cases h

theorem length_key? {s rest : List Char} {k : String} (h : key? s = some (k, rest)) :
    rest.length < s.length := by
  obtain ⟨⟨w, t⟩, hw, heq⟩ := Option.map_eq_some_iff.1 h
  cases heq
  rcases Option.or_eq_some_iff.1 hw with hw | ⟨_, hw⟩
  · exact Quoted.length_read? hw
  · exact Word.length_read? hw

theorem length_attributeValue {s rest : List Char} {v : Value}
    (h : attributeValue s = .ok (v, rest)) : rest.length < s.length := by
  have hs := Blank.length_skip_le s
  unfold attributeValue at h
  split at h
  · rename_i t heq
    have ht := Blank.length_skip_le t
    have := length_value h
    simp only [heq, List.length_cons] at hs
    omega
  · simp at h

def attributes (c : Condition) (s : List Char) : Except Failure (Condition × List Char) :=
  match _hk : key? (Blank.skip s) with
  | some (key, rest) =>
    match _hv : attributeValue rest with
    | .ok (v, rest) => attributes (c.insert key v) (separator rest)
    | .error f => .error f
  | none =>
    match Blank.skip s with
    | '}' :: rest => .ok (c, rest)
    | rest => .error ⟨some .attribute, rest⟩
termination_by s.length
decreasing_by
  have := Blank.length_skip_le s
  have := length_key? ‹_›
  have := length_attributeValue ‹_›
  have := length_separator_le ‹List Char›
  omega

def openBracket (s : List Char) : Except Failure (List Char) :=
  match Blank.skip s with
  | '[' :: rest => .ok rest
  | rest => .error ⟨some .openBracket, rest⟩

theorem length_attributes {c c' : Condition} {s rest : List Char}
    (h : attributes c s = .ok (c', rest)) : rest.length < s.length := by
  fun_induction attributes c s with
  | case1 c s key rest₁ hk v rest₂ hv ih =>
    have := Blank.length_skip_le s
    have := length_key? hk
    have := length_attributeValue hv
    have := length_separator_le rest₂
    have := ih h
    omega
  | case2 => simp at h
  | case3 c s hk rest₁ hs =>
    cases h
    have := Blank.length_skip_le s
    simp only [hs, List.length_cons] at this
    omega
  | case4 => simp at h

theorem length_openBracket {s rest : List Char} (h : openBracket s = .ok rest) :
    rest.length < s.length := by
  have hs := Blank.length_skip_le s
  unfold openBracket at h
  split at h
  · rename_i heq
    cases h
    simp only [heq, List.length_cons] at hs
    omega
  · simp at h

/-- Reads entries up to the closing bracket of the outermost group. -/
def entries (outer : List Group) (inner : Group) (s : List Char) :
    Except Failure (Group × List Char) :=
  match _hskip : Blank.skip s with
  | '{' :: rest =>
    match _hc : attributes .empty rest with
    | .ok (c, rest) => entries outer (inner.addItem c) (separator rest)
    | .error f => .error f
  | ']' :: rest =>
    match outer with
    | [] => .ok (inner, rest)
    | parent :: outer => entries outer (parent.addGroup inner) (separator rest)
  | rest =>
    match _hk : Keyword.read? rest with
    | some (operator, rest) =>
      match _hb : openBracket rest with
      | .ok rest => entries (inner :: outer) ⟨operator, [], []⟩ rest
      | .error f => .error f
    | none => .error ⟨some .entry, rest⟩
termination_by s.length
decreasing_by
  all_goals
    have hskip := Blank.length_skip_le s
    rw [‹Blank.skip s = _›] at hskip
  · have := length_attributes ‹_›
    have := length_separator_le ‹List Char›
    simp only [List.length_cons] at hskip
    omega
  · have := length_separator_le ‹List Char›
    simp only [List.length_cons] at hskip
    omega
  · have := Keyword.length_read? ‹_›
    have := length_openBracket ‹_›
    omega

def group (s : List Char) : Except Failure (Group × List Char) :=
  match Keyword.read? (Blank.skip s) with
  | some (operator, rest) => openBracket rest >>= entries [] ⟨operator, [], []⟩
  | none => .error ⟨some .keyword, Blank.skip s⟩

def read (s : List Char) : Except Failure Group :=
  match group s with
  | .ok (g, rest) =>
    match Blank.skip rest with
    | [] => .ok g
    | rest => .error ⟨none, rest⟩
  | .error f => .error f

end WhenClause.Notation

namespace WhenClause

def Group.ofText (text : String) : Except Failure Group :=
  Notation.read text.toList

end WhenClause
