import WhenClause.Group
import WhenClause.Notation.Keyword
import WhenClause.Proofs.Binary64.Nearest

/-!
# The grammar of the notation

What may stand where in a text, and what it means, without saying how a text is read: no part of
the grammar asks for the longest match or prefers one alternative to another. Each relation holds
between a text, what the front of it means, and the text that is left after that front.

How numbers are written is a parameter of the grammar; `Numeral` is the notation's own way.
-/

namespace WhenClause.Grammar

inductive LineEnd : List Char → Prop
  | text : LineEnd []
  | lineFeed (s : List Char) : LineEnd ('\n' :: s)
  | returnAndLineFeed (s : List Char) : LineEnd ('\r' :: '\n' :: s)

inductive Blanks : List Char → List Char → Prop
  | done (s : List Char) : Blanks s s
  | blank {c : Char} {s rest : List Char} (h : c ∈ [' ', '\t', '\n', '\x0c', '\r'])
      (more : Blanks s rest) : Blanks (c :: s) rest
  | comment {line s rest : List Char} (h : ∀ c ∈ line, c ≠ '\n' ∧ c ≠ '\r') (stop : LineEnd s)
      (more : Blanks s rest) : Blanks ('#' :: (line ++ s)) rest

inductive Quoted : List Char → List Char → List Char → Prop
  | close (rest : List Char) : Quoted ('"' :: rest) [] rest
  | plain {c : Char} {s body rest : List Char} (h : c ≠ '"') (h' : c ≠ '\\')
      (more : Quoted s body rest) : Quoted (c :: s) (c :: body) rest
  | quote {s body rest : List Char} (more : Quoted s body rest) :
      Quoted ('\\' :: '"' :: s) ('"' :: body) rest
  | backslash {s body rest : List Char} (more : Quoted s body rest) :
      Quoted ('\\' :: '\\' :: s) ('\\' :: body) rest
  | lineFeed {s body rest : List Char} (more : Quoted s body rest) :
      Quoted ('\\' :: 'n' :: s) ('\n' :: body) rest
  | tab {s body rest : List Char} (more : Quoted s body rest) :
      Quoted ('\\' :: 't' :: s) ('\t' :: body) rest
  | pair {c : Char} {s body rest : List Char} (h : c ∉ ['"', '\\', 'n', 't'])
      (more : Quoted s body rest) : Quoted ('\\' :: c :: s) ('\\' :: c :: body) rest

inductive Key : List Char → String → List Char → Prop
  | quoted {s body rest : List Char} (h : Quoted s body rest) :
      Key ('"' :: s) (String.ofList body) rest
  | word {w : List Char} (h : Word.isWord w = true) (rest : List Char) :
      Key (w ++ rest) (String.ofList w) rest

structure Digits (s : List Char) : Prop where
  nonempty : s ≠ []
  digits : ∀ c ∈ s, c.isDigit = true

structure Positive (s : List Char) (n : Int64) : Prop where
  digits : Digits s
  nonzero : s.head? ≠ some '0'
  exact : n.toInt = Nat.ofDigitChars 10 s 0

def Rounded (negative : Bool) (whole fraction : List Char) (x : Binary64) : Prop :=
  ∃ bits, Binary64.IsNearest (Nat.ofDigitChars 10 (whole ++ fraction) 0)
    (Decimal.scale fraction.length) bits ∧ x = .ofSignBits negative bits

inductive Numeral : List Char → Value → Prop
  | zero : Numeral ['0'] (.int 0)
  | positive {s : List Char} {n : Int64} (h : Positive s n) : Numeral s (.int n)
  | plus {s : List Char} {n : Int64} (h : Positive s n) : Numeral ('+' :: s) (.int n)
  | negative {s : List Char} {n : Int64} (h : Digits s)
      (exact : n.toInt = -Nat.ofDigitChars 10 s 0) : Numeral ('-' :: s) (.int n)
  | float {whole fraction : List Char} {x : Binary64} (h : Digits whole) (h' : Digits fraction)
      (near : Rounded false whole fraction x) : Numeral (whole ++ '.' :: fraction) (.float x)
  | negativeFloat {whole fraction : List Char} {x : Binary64} (h : Digits (whole ++ fraction))
      (near : Rounded true whole fraction x) : Numeral ('-' :: (whole ++ '.' :: fraction)) (.float x)

section

variable (numeral : List Char → Value → Prop)

inductive ValueText : List Char → Value → List Char → Prop
  | quoted {s body rest : List Char} (h : Quoted s body rest) :
      ValueText ('"' :: s) (.str (String.ofList body)) rest
  | true (rest : List Char) : ValueText ("true".toList ++ rest) (.bool .true) rest
  | false (rest : List Char) : ValueText ("false".toList ++ rest) (.bool .false) rest
  | infinity (rest : List Char) : ValueText ("inf".toList ++ rest) (.float .infinity) rest
  | negInfinity (rest : List Char) : ValueText ("-inf".toList ++ rest) (.float .negInfinity) rest
  | nan (rest : List Char) : ValueText ("nan".toList ++ rest) (.float .nan) rest
  | numeral {s : List Char} {v : Value} (h : numeral s v) (rest : List Char) :
      ValueText (s ++ rest) v rest

inductive Separator : List Char → List Char → Prop
  | none {s rest : List Char} (h : Blanks s rest) : Separator s rest
  | comma {s rest : List Char} (h : Blanks s (',' :: rest)) : Separator s rest

/-- A condition after its opening brace, up to and with its closing brace. -/
inductive Attributes : List Char → List (String × Value) → List Char → Prop
  | close {s rest : List Char} (h : Blanks s ('}' :: rest)) : Attributes s [] rest
  | cons {s s₁ s₂ s₃ s₄ s₅ s₆ rest : List Char} {key : String} {value : Value}
      {as : List (String × Value)} (front : Blanks s s₁) (name : Key s₁ key s₂)
      (colon : Blanks s₂ (':' :: s₃)) (gap : Blanks s₃ s₄) (holds : ValueText numeral s₄ value s₅)
      (separator : Separator s₅ s₆) (more : Attributes s₆ as rest) :
      Attributes s ((key, value) :: as) rest

/-- A group after its opening bracket, up to and with its closing bracket: its conditions and its
nested groups, each in the order in which they stand, however they are mixed. -/
inductive Entries : List Char → List Condition → List Group → List Char → Prop
  | close {s rest : List Char} (h : Blanks s (']' :: rest)) : Entries s [] [] rest
  | condition {s s₁ s₂ s₃ rest : List Char} {as : List (String × Value)} {items : List Condition}
      {groups : List Group} (front : Blanks s ('{' :: s₁)) (condition : Attributes numeral s₁ as s₂)
      (separator : Separator s₂ s₃) (more : Entries s₃ items groups rest) :
      Entries s (.ofList as :: items) groups rest
  | group {s s₁ s₂ s₃ s₄ rest : List Char} {operator : Option Operator}
      {items items' : List Condition} {groups groups' : List Group}
      (front : Blanks s (Keyword.print operator ++ s₁)) (bracket : Blanks s₁ ('[' :: s₂))
      (inner : Entries s₂ items' groups' s₃) (separator : Separator s₃ s₄)
      (more : Entries s₄ items groups rest) :
      Entries s items (⟨operator, items', groups'⟩ :: groups) rest

inductive Derives : List Char → Group → Prop
  | text {s s₁ s₂ s₃ : List Char} {operator : Option Operator} {items : List Condition}
      {groups : List Group} (front : Blanks s (Keyword.print operator ++ s₁))
      (bracket : Blanks s₁ ('[' :: s₂)) (entries : Entries numeral s₂ items groups s₃)
      (back : Blanks s₃ []) : Derives s ⟨operator, items, groups⟩

end

end WhenClause.Grammar
