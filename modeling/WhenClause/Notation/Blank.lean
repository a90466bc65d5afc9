/-!
# Blanks and comments

Between the parts of the notation any mix of blanks and comments may stand. A comment starts with
`#` and runs up to the end of its line, or of the text. A line ends with a line feed or with a
carriage return and a line feed; a carriage return on its own ends nothing, and what would be a
comment up to one is no comment.
-/

namespace WhenClause.Blank

def isBlank (c : Char) : Bool :=
  c == ' ' || c == '\t' || c == '\n' || c == '\x0c' || c == '\r'

/-- What follows a comment, the end of its line included, if the text after `#` is one. -/
def afterComment? : List Char → Option (List Char)
  | [] => some []
  | '\n' :: s => some ('\n' :: s)
  | '\r' :: '\n' :: s => some ('\r' :: '\n' :: s)
  | '\r' :: _ => none
  | _ :: s => afterComment? s

theorem suffix_of_afterComment? {s rest : List Char} (h : afterComment? s = some rest) :
    rest <:+ s := by
  fun_induction afterComment? s with
  | case1 => simp_all
  | case2 => simp_all
  | case3 => simp_all
  | case4 => simp at h
  | case5 c s _ _ _ ih => exact (ih h).trans (List.suffix_cons c s)

def skip (s : List Char) : List Char :=
  match s with
  | [] => []
  | c :: rest =>
    if isBlank c then skip rest
    else if c == '#' then
      match _h : afterComment? rest with
      | some rest' => skip rest'
      | none => c :: rest
    else c :: rest
termination_by s.length
decreasing_by
  · simp
  · exact Nat.lt_succ_of_le (suffix_of_afterComment? ‹_›).length_le

theorem skip_suffix (s : List Char) : skip s <:+ s := by
  fun_induction skip s with
  | case1 => exact List.suffix_refl _
  | case2 c rest _ ih => exact ih.trans (List.suffix_cons c rest)
  | case3 c rest _ _ rest' h ih =>
    exact ih.trans ((suffix_of_afterComment? h).trans (List.suffix_cons c rest))
  | case4 => exact List.suffix_refl _
  | case5 => exact List.suffix_refl _

theorem length_skip_le (s : List Char) : (skip s).length ≤ s.length :=
  (skip_suffix s).length_le

theorem skip_cons {c : Char} {s : List Char} (hblank : isBlank c = false) (hsign : c ≠ '#') :
    skip (c :: s) = c :: s := by
  rw [skip]
  simp [hblank, hsign]

theorem skip_blank {c : Char} {s : List Char} (h : isBlank c = true) : skip (c :: s) = skip s := by
  rw [skip]
  simp [h]

@[simp] theorem skip_nil : skip [] = [] := by
  rw [skip]

end WhenClause.Blank
