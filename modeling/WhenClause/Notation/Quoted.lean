/-!
# Quoted text

Text in the notation stands between two quotes. Four characters are written as a backslash and a
letter or sign: the quote, the backslash, the line break and the tab. When quoted text is read, a
backslash before any other character stands for itself and that character for itself, so that
text copied from elsewhere survives; printing never produces such a pair.
-/

namespace WhenClause.Quoted

def unescape : Char → List Char
  | '"' => ['"']
  | '\\' => ['\\']
  | 'n' => ['\n']
  | 't' => ['\t']
  | c => ['\\', c]

def printChar : Char → List Char
  | '"' => ['\\', '"']
  | '\\' => ['\\', '\\']
  | '\n' => ['\\', 'n']
  | '\t' => ['\\', 't']
  | c => [c]

def print (s : List Char) : List Char :=
  '"' :: s.flatMap printChar ++ ['"']

def readBody? : List Char → Option (List Char × List Char)
  | [] => none
  | '"' :: rest => some ([], rest)
  | '\\' :: [] => none
  | '\\' :: c :: rest => (readBody? rest).map fun r => (unescape c ++ r.1, r.2)
  | c :: rest => (readBody? rest).map fun r => (c :: r.1, r.2)

def read? : List Char → Option (List Char × List Char)
  | '"' :: rest => readBody? rest
  | _ => none

theorem readBody?_printChar (c : Char) (s : List Char) :
    readBody? (printChar c ++ s) = (readBody? s).map fun r => (c :: r.1, r.2) := by
  unfold printChar
  split <;> simp_all [readBody?, unescape]

theorem read?_print (s rest : List Char) : read? (print s ++ rest) = some (s, rest) := by
  have body : ∀ s : List Char,
      readBody? (s.flatMap printChar ++ '"' :: rest) = some (s, rest) := by
    intro s
    induction s with
    | nil => simp [readBody?]
    | cons c s ih => simp [List.flatMap_cons, readBody?_printChar, ih]
  simpa [print, read?] using body s

theorem length_readBody? {s body rest : List Char} (h : readBody? s = some (body, rest)) :
    rest.length < s.length := by
  fun_induction readBody? s generalizing body rest with
  | case1 => simp at h
  | case2 s => simp_all
  | case3 => simp at h
  | case4 c s ih =>
    obtain ⟨r, hr, ⟨⟩⟩ := Option.map_eq_some_iff.1 h
    have := ih hr
    grind
  | case5 c s _ _ _ ih =>
    obtain ⟨r, hr, ⟨⟩⟩ := Option.map_eq_some_iff.1 h
    have := ih hr
    grind

theorem length_read? {s body rest : List Char} (h : read? s = some (body, rest)) :
    rest.length < s.length := by
  unfold read? at h
  split at h
  · simpa using Nat.lt_succ_of_lt (length_readBody? h)
  · simp at h

end WhenClause.Quoted
