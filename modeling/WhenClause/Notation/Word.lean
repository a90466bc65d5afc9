/-!
# Words

A word starts with an ASCII letter or an underscore and goes on with ASCII letters, digits,
underscores and points. The keywords of the notation are words, and a key that is a word needs no
quotes.
-/

namespace WhenClause.Word

def isFirst (c : Char) : Bool := c.isAlpha || c == '_'

def isNext (c : Char) : Bool := c.isAlphanum || c == '_' || c == '.'

def isWord : List Char → Bool
  | [] => false
  | c :: s => isFirst c && s.all isNext

def read? : List Char → Option (List Char × List Char)
  | [] => none
  | c :: s => if isFirst c then some (c :: s.takeWhile isNext, s.dropWhile isNext) else none

theorem append_of_read? {s word rest : List Char} (h : read? s = some (word, rest)) :
    word ++ rest = s := by
  cases s with
  | nil => simp [read?] at h
  | cons c s =>
    simp only [read?, Option.ite_none_right_eq_some, Option.some.injEq, Prod.mk.injEq] at h
    obtain ⟨_, rfl, rfl⟩ := h
    simp

theorem isWord_of_read? {s word rest : List Char} (h : read? s = some (word, rest)) :
    isWord word = true := by
  cases s with
  | nil => simp [read?] at h
  | cons c s =>
    simp only [read?, Option.ite_none_right_eq_some, Option.some.injEq, Prod.mk.injEq] at h
    obtain ⟨hc, rfl, rfl⟩ := h
    simp [isWord, hc]

theorem length_read? {s word rest : List Char} (h : read? s = some (word, rest)) :
    rest.length < s.length := by
  have hword := isWord_of_read? h
  rw [← append_of_read? h]
  cases word with
  | nil => simp [isWord] at hword
  | cons => simp only [List.cons_append, List.length_cons, List.length_append]; omega

theorem read?_append {word rest : List Char} (hword : isWord word = true)
    (hrest : ∀ c ∈ rest.head?, isNext c = false) : read? (word ++ rest) = some (word, rest) := by
  cases word with
  | nil => simp [isWord] at hword
  | cons c s =>
    simp only [isWord, Bool.and_eq_true, List.all_eq_true] at hword
    have htake : rest.takeWhile isNext = [] := by
      cases rest with
      | nil => rfl
      | cons d rest => simp [hrest d (by simp)]
    have hdrop : rest.dropWhile isNext = rest := by
      cases rest with
      | nil => rfl
      | cons d rest => simp [hrest d (by simp)]
    simp only [List.cons_append, read?, hword.1, if_true]
    rw [List.takeWhile_append_of_pos hword.2, List.dropWhile_append_of_pos hword.2, htake, hdrop,
      List.append_nil]

end WhenClause.Word
