import WhenClause.Value

/-!
# Numerals

An integer is written in decimal digits without leading zeros, with an optional plus sign before
a positive one. A float has a point with digits on both sides. After a minus sign the rule is
wider: the run of digits and points that follows is an integer, leading zeros allowed, if it has
no point, and a float if it has exactly one and some digit. Integers have to fit into sixty-four
bits; floats are rounded to the nearest.
-/

namespace WhenClause.Numeral

def int64? (n : Int) : Option Int64 :=
  if Int64.minValue.toInt ≤ n ∧ n ≤ Int64.maxValue.toInt then some (Int64.ofInt n) else none

theorem toInt_of_int64? {n : Int} {i : Int64} (h : int64? n = some i) : i.toInt = n := by
  simp only [int64?, Option.ite_none_right_eq_some, Option.some.injEq] at h
  obtain ⟨⟨hlow, hhigh⟩, rfl⟩ := h
  rw [Int64.toInt_minValue] at hlow
  rw [Int64.toInt_maxValue] at hhigh
  exact Int64.toInt_ofInt_of_le hlow (by omega)

theorem int64?_toInt (i : Int64) : int64? i.toInt = some i := by
  rw [int64?, if_pos ⟨i.minValue_le_toInt, i.toInt_le⟩, Int64.ofInt_toInt]

def natural (digits : List Char) : Nat := Nat.ofDigitChars 10 digits 0

def float (negative : Bool) (d : Decimal) : Value :=
  .float (Binary64.ofSignBits negative d.nearestBits)

def isDigitOrPoint (c : Char) : Bool := c.isDigit || c == '.'

def negative? (run : List Char) : Option Value :=
  if run.contains '.' then
    let whole := run.takeWhile Char.isDigit
    let fraction := (run.dropWhile Char.isDigit).drop 1
    if fraction.all Char.isDigit && !(whole.isEmpty && fraction.isEmpty) then
      some (float true (.ofDigits whole fraction))
    else none
  else (int64? (-natural run)).map .int

def float? (s : List Char) : Option (Value × List Char) :=
  match s.takeWhile Char.isDigit, s.dropWhile Char.isDigit with
  | [], _ => none
  | whole, '.' :: rest =>
    match rest.takeWhile Char.isDigit with
    | [] => none
    | fraction => some (float false (.ofDigits whole fraction), rest.dropWhile Char.isDigit)
  | _, _ => none

def positive? (s : List Char) : Option (Value × List Char) :=
  match s with
  | [] => none
  | c :: _ =>
    if c.isDigit && c != '0' then
      (int64? (natural (s.takeWhile Char.isDigit))).map fun n => (.int n, s.dropWhile Char.isDigit)
    else none

def integer? : List Char → Option (Value × List Char)
  | '0' :: rest => some (.int 0, rest)
  | '+' :: rest => positive? rest
  | s => positive? s

/-- Reads a numeral at the front of a text. Where there is none the place is the front, except
that digits and points after a minus sign are passed over before they are found to be no number. -/
def read : List Char → Except (List Char) (Value × List Char)
  | '-' :: s =>
    match s.takeWhile isDigitOrPoint with
    | [] => .error ('-' :: s)
    | run =>
      match negative? run with
      | some v => .ok (v, s.dropWhile isDigitOrPoint)
      | none => .error (s.dropWhile isDigitOrPoint)
  | s =>
    match (float? s).or (integer? s) with
    | some r => .ok r
    | none => .error s

theorem length_float? {s rest : List Char} {v : Value} (h : float? s = some (v, rest)) :
    rest.length < s.length := by
  unfold float? at h
  split at h
  · simp at h
  · rename_i t hrest _
    split at h
    · simp at h
    · cases h
      have := (List.dropWhile_suffix (l := s) Char.isDigit).length_le
      have := (List.dropWhile_suffix (l := t) Char.isDigit).length_le
      simp only [hrest, List.length_cons] at *
      omega
  · simp at h

theorem length_positive? {s rest : List Char} {v : Value} (h : positive? s = some (v, rest)) :
    rest.length < s.length := by
  unfold positive? at h
  split at h
  · simp at h
  · rename_i c t
    split at h
    · rename_i hc
      obtain ⟨n, _, ⟨⟩⟩ := Option.map_eq_some_iff.1 h
      have := (List.dropWhile_suffix (l := t) Char.isDigit).length_le
      simp only [Bool.and_eq_true] at hc
      simp only [List.dropWhile_cons, hc.1, if_true, List.length_cons]
      omega
    · simp at h

theorem length_integer? {s rest : List Char} {v : Value} (h : integer? s = some (v, rest)) :
    rest.length < s.length := by
  unfold integer? at h
  split at h
  · cases h
    simp
  · have := length_positive? h
    simp only [List.length_cons]
    omega
  · exact length_positive? h

theorem length_read {s rest : List Char} {v : Value} (h : read s = .ok (v, rest)) :
    rest.length < s.length := by
  unfold read at h
  split at h
  · rename_i t
    split at h
    · simp at h
    · split at h
      · cases h
        have := (List.dropWhile_suffix (l := t) isDigitOrPoint).length_le
        simp only [List.length_cons]
        omega
      · simp at h
  · split at h
    · rename_i hr
      cases h
      rcases Option.or_eq_some_iff.1 hr with hr | ⟨_, hr⟩
      · exact length_float? hr
      · exact length_integer? hr
    · simp at h

end WhenClause.Numeral
