import WhenClause.Proofs.Notation.Completeness

/-!
# Which texts are read

A text is read as a group exactly if it is in the grammar and means that group there. So the
grammar gives no text two meanings, although no rule of it asks for the longest match.

A plus sign may stand before a positive integer but not before a zero.
-/

namespace WhenClause.Notation

open Grammar (Blanks Key Separator ValueText Entries Derives)

theorem derives_unique {s : List Char} {g g' : Group} (h : Derives Grammar.Numeral s g)
    (h' : Derives Grammar.Numeral s g') : g = g' := by
  have hread := read_of_derives h
  have hread' := read_of_derives h'
  exact Except.ok.inj (hread.symm.trans hread')

theorem ofText_eq_ok_iff_derives (text : String) (g : Group) :
    (Group.ofText text = .ok g ↔ Derives Grammar.Numeral text.toList g) ∧
      ∀ g', Derives Grammar.Numeral text.toList g → Derives Grammar.Numeral text.toList g' →
        g = g' :=
  ⟨read_eq_ok_iff, fun _ h h' => derives_unique h h'⟩

/-- Numerals as they would be if any integer without a minus sign could have a plus sign. -/
def PlusNumeral (s : List Char) (v : Value) : Prop :=
  Grammar.Numeral s v ∨ s = ['+', '0'] ∧ v = .int 0

theorem plus_zero_rejected :
    let text := "and [{a: +0}]"
    let g : Group := ⟨some .and, [.ofList [("a", .int 0)]], []⟩
    Derives PlusNumeral text.toList g ∧ ∀ g', Group.ofText text ≠ .ok g' := by
  intro text g
  refine ⟨?_, fun g' h => ?_⟩
  · have hplus : PlusNumeral ['+', '0'] (.int 0) := .inr ⟨rfl, rfl⟩
    have hzero : ValueText PlusNumeral ['+', '0', '}', ']'] (.int 0) ['}', ']'] :=
      .numeral hplus _
    have hname : Key ['a', ':', ' ', '+', '0', '}', ']'] "a" [':', ' ', '+', '0', '}', ']'] :=
      .word (w := ['a']) rfl _
    have hgap : Blanks [' ', '+', '0', '}', ']'] ['+', '0', '}', ']'] :=
      .blank (by decide) (.done _)
    have hcondition : Grammar.Attributes PlusNumeral ['a', ':', ' ', '+', '0', '}', ']']
        [("a", .int 0)] [']'] :=
      .cons (.done _) hname (.done _) hgap hzero (.none (.done _)) (.close (.done _))
    have hentries : Entries PlusNumeral ['{', 'a', ':', ' ', '+', '0', '}', ']']
        [.ofList [("a", .int 0)]] [] [] :=
      .condition (.done _) hcondition (.none (.done _)) (.close (.done _))
    have hbracket : Blanks (' ' :: '[' :: ['{', 'a', ':', ' ', '+', '0', '}', ']'])
        ('[' :: ['{', 'a', ':', ' ', '+', '0', '}', ']']) :=
      .blank (by decide) (.done _)
    have htext : text.toList = Keyword.print (some .and) ++
        ' ' :: '[' :: ['{', 'a', ':', ' ', '+', '0', '}', ']'] := by decide
    exact .text (htext ▸ .done _) hbracket hentries (.done _)
  · have hrejected : (Group.ofText text).isOk = false := by decide +kernel
    rw [h] at hrejected
    cases hrejected

end WhenClause.Notation
