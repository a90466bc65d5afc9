import WhenClause.Notation.Printer
import WhenClause.Proofs.Condition.Listing
import WhenClause.Proofs.Decimal.ReadBack
import WhenClause.Proofs.Notation.Token

/-!
# What is printed is in the grammar

Every value, key, condition and group is written as a text that means it in the grammar, whatever
text follows. The notation has one NaN only: any other is written as that one.
-/

namespace WhenClause

open Grammar (Blanks Key Separator ValueText Entries Derives)

theorem head?_toDigits {n : Nat} (h : 0 < n) : (Nat.toDigits 10 n).head? ≠ some '0' := by
  induction n using Nat.strongRecOn with
  | ind n ih =>
    rw [Nat.toDigits_eq_if (by decide)]
    split
    · have hdigit : ∀ m < 10, 0 < m → Nat.digitChar m ≠ '0' := by decide
      simpa using hdigit n ‹_› h
    · have hfront := ih (n / 10) (by omega) (by omega)
      rw [List.head?_eq_some_head Nat.toDigits_ne_nil] at hfront
      rwa [List.head?_append, List.head?_eq_some_head Nat.toDigits_ne_nil, Option.some_or]

theorem digits_toDigits (n : Nat) : Grammar.Digits (Nat.toDigits 10 n) :=
  ⟨Nat.toDigits_ne_nil, fun _ hc => Nat.isDigit_of_mem_toDigits (by decide) (by decide) hc⟩

theorem numeral_printInt (n : Int64) : Grammar.Numeral (Value.printInt n.toInt) (.int n) := by
  have hread : Nat.ofDigitChars 10 (Nat.toDigits 10 n.toInt.natAbs) 0 = n.toInt.natAbs :=
    Nat.ofDigitChars_ten_toDigits
  unfold Value.printInt
  split
  · exact .negative (digits_toDigits _) (by omega)
  · rcases Nat.eq_zero_or_pos n.toInt.natAbs with hzero | hpos
    · obtain rfl : n = 0 := Int64.toInt_inj.1 (Int.natAbs_eq_zero.1 hzero)
      exact .zero
    · exact .positive ⟨digits_toDigits _, head?_toDigits hpos, by omega⟩

namespace Binary64

variable {x : Binary64}

theorem rounded_decimal {whole fraction : List Char} (h : x.isFinite = true)
    (hdigits : Decimal.ofDigits whole fraction = x.decimal) :
    Grammar.Rounded x.negative whole fraction x := by
  have hbits : (Decimal.ofDigits whole fraction).nearestBits = x.unsignedBits := by
    rw [hdigits, nearestBits_decimal h]
  exact ⟨x.unsignedBits, (nearestBits_eq_iff (Decimal.scale_pos _)).1 hbits,
    (ofSignBits_eta x).symm⟩

theorem numeral_print (h : x.isFinite = true) : Grammar.Numeral x.print (.float x) := by
  have hnan : x.isNaN = false := by
    have hlt := isFinite_iff.1 h
    exact Bool.eq_false_iff.2 fun hnan => by
      have := isNaN_iff.1 hnan
      omega
  obtain ⟨whole, fraction, hprint, hwhole, hfraction, hdigits, hdecimal⟩ :=
    x.decimal.exists_digits_of_print (places_decimal_pos x)
  have hrounded := rounded_decimal h hdecimal
  simp only [print, hnan, h, Bool.false_eq_true, if_false, if_true, hprint]
  split
  · rename_i hnegative
    rw [hnegative] at hrounded
    exact .negativeFloat ⟨by simp [hwhole], hdigits⟩ hrounded
  · rename_i hnegative
    rw [Bool.eq_false_iff.2 hnegative] at hrounded
    exact .float ⟨hwhole, fun c hc => hdigits c (List.mem_append_left _ hc)⟩
      ⟨hfraction, fun c hc => hdigits c (List.mem_append_right _ hc)⟩ hrounded

theorem eq_infinity_or (hfinite : x.isFinite = false) (hnan : x.isNaN = false) :
    x = ofSignBits x.negative infinityBits := by
  have hlow : infinityBits ≤ x.unsignedBits := by simpa [isFinite] using hfinite
  have hhigh : x.unsignedBits ≤ infinityBits := by simpa [isNaN] using hnan
  have heq : x.unsignedBits = infinityBits := Nat.le_antisymm hhigh hlow
  rw [← heq, ofSignBits_eta]

end Binary64

namespace Value

/-- The value with the one NaN of the notation in place of any other. -/
def oneNaN : Value → Value
  | .float x => .float (if x.isNaN then .nan else x)
  | v => v

theorem valueText_print (v : Value) (rest : List Char) :
    ValueText Grammar.Numeral (v.print ++ rest) v.oneNaN rest := by
  cases v with
  | int n => exact .numeral (numeral_printInt n) rest
  | float x =>
    cases hnan : x.isNaN with
    | true =>
      simp only [print, Binary64.print, oneNaN, hnan, if_true]
      exact .nan rest
    | false =>
      simp only [oneNaN, hnan, Bool.false_eq_true, if_false]
      cases hfinite : x.isFinite with
      | true => exact .numeral (Binary64.numeral_print hfinite) rest
      | false =>
        have hinf := Binary64.eq_infinity_or hfinite hnan
        simp only [print, Binary64.print, hnan, hfinite, Bool.false_eq_true, if_false]
        cases hnegative : x.negative with
        | true =>
          rw [hnegative] at hinf
          rw [hinf]
          exact .negInfinity rest
        | false =>
          rw [hnegative] at hinf
          rw [hinf]
          exact .infinity rest
  | bool b =>
    cases b with
    | true => exact .true rest
    | false => exact .false rest
  | str s =>
    obtain ⟨t, ht, hquoted⟩ := Quoted.exists_quoted_of_read? (Quoted.read?_print s.toList rest)
    have hvalue : (str s).oneNaN = .str (String.ofList s.toList) := by
      rw [String.ofList_toList]
      rfl
    rw [print, ht, hvalue]
    exact .quoted hquoted

end Value

theorem key_print (key : String) (rest : List Char) :
    Key (printKey key.toList ++ rest) key rest := by
  have hkey : key = String.ofList key.toList := String.ofList_toList.symm
  unfold printKey
  split
  · have hword := Key.word ‹_› rest
    rwa [← hkey] at hword
  · obtain ⟨t, ht, hquoted⟩ :=
      Quoted.exists_quoted_of_read? (Quoted.read?_print key.toList rest)
    have hbody := Key.quoted hquoted
    rwa [← hkey, ← ht] at hbody

def listing (closing : Char) (entries : List (List Char)) : List Char :=
  entries.flatMap (fun e => ',' :: ' ' :: e) ++ [' ', closing]

theorem listing_cons (closing : Char) (e : List Char) (entries : List (List Char)) :
    listing closing (e :: entries) = ',' :: ' ' :: (e ++ listing closing entries) := by
  simp [listing]

theorem intercalate_eq_listing (closing : Char) (e : List Char) (entries : List (List Char)) :
    [',', ' '].intercalate (e :: entries) ++ [' ', closing] = e ++ listing closing entries := by
  induction entries generalizing e with
  | nil =>
    rw [List.intercalate_singleton]
    rfl
  | cons e' entries ih =>
    rw [List.intercalate_cons_cons, listing_cons, List.append_assoc, List.append_assoc, ih]
    rfl

namespace Condition

def oneNaN (c : Condition) : Condition :=
  ⟨c.attributes.map fun a => (a.1, a.2.oneNaN), by
    have h := c.ordered
    rw [Attributes.Ordered] at h ⊢
    exact List.pairwise_map.2 h⟩

theorem print_eq_listing {c : Condition} {a : String × Value} {as : List (String × Value)}
    (h : c.attributes = a :: as) :
    c.print = '{' :: ' ' :: (printAttribute a ++ listing '}' (as.map printAttribute)) := by
  simp only [print, isEmpty, h, List.isEmpty_cons, Bool.false_eq_true, if_false, List.map_cons,
    List.cons_append]
  rw [intercalate_eq_listing]

theorem attributes_printAttribute (a : String × Value) {as : List (String × Value)}
    {s s' rest : List Char} (separator : Separator s s')
    (more : Grammar.Attributes Grammar.Numeral s' as rest) :
    Grammar.Attributes Grammar.Numeral (' ' :: (printAttribute a ++ s))
      ((a.1, a.2.oneNaN) :: as) rest := by
  have hfront : Blanks (' ' :: (printAttribute a ++ s)) (printAttribute a ++ s) :=
    .blank (by decide) (.done _)
  have hname : Key (printAttribute a ++ s) a.1 (':' :: ' ' :: (a.2.print ++ s)) := by
    have hkey := key_print a.1 (':' :: ' ' :: (a.2.print ++ s))
    rwa [printAttribute, List.append_assoc, List.cons_append, List.cons_append]
  have hgap : Blanks (' ' :: (a.2.print ++ s)) (a.2.print ++ s) := .blank (by decide) (.done _)
  exact .cons hfront hname (.done _) hgap (a.2.valueText_print s) separator more

theorem attributes_listing (as : List (String × Value)) (rest : List Char) :
    ∃ s', Separator (listing '}' (as.map printAttribute) ++ rest) s' ∧
      Grammar.Attributes Grammar.Numeral s' (as.map fun a => (a.1, a.2.oneNaN)) rest := by
  induction as with
  | nil => exact ⟨_, .none (.done _), .close (.blank (by decide) (.done _))⟩
  | cons a as ih =>
    obtain ⟨s', hseparator, hmore⟩ := ih
    rw [List.map_cons, listing_cons, List.cons_append, List.cons_append, List.append_assoc]
    exact ⟨_, .comma (.done _), attributes_printAttribute a hseparator hmore⟩

theorem exists_attributes_print (c : Condition) (rest : List Char) :
    ∃ s, c.print ++ rest = '{' :: s ∧
      Grammar.Attributes Grammar.Numeral s (c.attributes.map fun a => (a.1, a.2.oneNaN)) rest := by
  cases h : c.attributes with
  | nil =>
    refine ⟨'}' :: rest, ?_, .close (.done _)⟩
    simp [print, isEmpty, h]
  | cons a as =>
    obtain ⟨s', hseparator, hmore⟩ := attributes_listing as rest
    refine ⟨' ' :: (printAttribute a ++ (listing '}' (as.map printAttribute) ++ rest)), ?_,
      attributes_printAttribute a hseparator hmore⟩
    rw [print_eq_listing h]
    simp only [List.cons_append, List.append_assoc]

theorem exists_condition_print (c : Condition) (rest : List Char) :
    ∃ s as, c.print ++ rest = '{' :: s ∧ Grammar.Attributes Grammar.Numeral s as rest ∧
      ofList as = c.oneNaN := by
  obtain ⟨s, hs, has⟩ := c.exists_attributes_print rest
  exact ⟨s, _, hs, has, ofList_attributes c.oneNaN⟩

end Condition

namespace Group

mutual
def oneNaN : Group → Group
  | ⟨operator, items, groups⟩ => ⟨operator, items.map Condition.oneNaN, oneNaNAll groups⟩

def oneNaNAll : List Group → List Group
  | [] => []
  | g :: gs => oneNaN g :: oneNaNAll gs
end

theorem oneNaNAll_eq_map (gs : List Group) : oneNaNAll gs = gs.map oneNaN := by
  induction gs with
  | nil => rfl
  | cons g gs ih => rw [oneNaNAll, ih, List.map_cons]

theorem oneNaN_eq (g : Group) :
    g.oneNaN = ⟨g.operator, g.items.map Condition.oneNaN, g.groups.map oneNaN⟩ := by
  cases g
  rw [oneNaN, oneNaNAll_eq_map]

theorem intercalate_map_blank (e : List Char) (entries : List (List Char)) :
    [','].intercalate ((e :: entries).map (' ' :: ·)) =
      ' ' :: [',', ' '].intercalate (e :: entries) := by
  induction entries generalizing e with
  | nil => simp
  | cons e' entries ih =>
    rw [List.map_cons, List.map_cons, List.intercalate_cons_cons, ← List.map_cons, ih,
      List.intercalate_cons_cons]
    simp

theorem printEntries_eq_listing (e : List Char) (entries : List (List Char)) :
    printEntries (e :: entries) = ' ' :: (e ++ listing ']' entries) := by
  rw [printEntries, List.isEmpty_cons, if_neg Bool.false_ne_true, intercalate_map_blank,
    List.cons_append, intercalate_eq_listing]

theorem entries_condition_print (c : Condition) {s s' rest : List Char} {items : List Condition}
    {groups : List Group} (separator : Separator s s')
    (more : Entries Grammar.Numeral s' items groups rest) :
    Entries Grammar.Numeral (' ' :: (c.print ++ s)) (c.oneNaN :: items) groups rest := by
  obtain ⟨t, as, ht, has, hc⟩ := c.exists_condition_print s
  rw [ht, ← hc]
  exact .condition (.blank (by decide) (.done _)) has separator more

def Printed (g : Group) : Prop :=
  ∀ rest, Entries Grammar.Numeral
    (printEntries (g.items.map Condition.print ++ g.groups.map print) ++ rest)
    (g.items.map Condition.oneNaN) (g.groups.map oneNaN) rest

theorem Printed.entries {g : Group} (h : g.Printed) {s s' rest : List Char}
    {items : List Condition} {groups : List Group} (separator : Separator s s')
    (more : Entries Grammar.Numeral s' items groups rest) :
    Entries Grammar.Numeral (' ' :: (g.print ++ s)) items (g.oneNaN :: groups) rest := by
  rw [print_eq, oneNaN_eq, List.append_assoc, List.cons_append, List.cons_append]
  have hbracket : ∀ t, Blanks (' ' :: '[' :: t) ('[' :: t) := fun t =>
    .blank (by decide) (.done _)
  exact .group (.blank (by decide) (.done _)) (hbracket _) (h s) separator more

theorem entries_listing (items : List Condition) {groups : List Group}
    (hgroups : ∀ g ∈ groups, g.Printed) (rest : List Char) :
    ∃ s', Separator (listing ']' (items.map Condition.print ++ groups.map print) ++ rest) s' ∧
      Entries Grammar.Numeral s' (items.map Condition.oneNaN) (groups.map oneNaN) rest := by
  -- Conditions come first, so after the last of them only nested groups are left.
  induction items with
  | nil =>
    induction groups with
    | nil => exact ⟨_, .none (.done _), .close (.blank (by decide) (.done _))⟩
    | cons g groups ih =>
      obtain ⟨s', hseparator, hmore⟩ := ih fun g hg => hgroups g (List.mem_cons_of_mem _ hg)
      have hg := hgroups g (List.mem_cons_self ..)
      rw [List.map_nil, List.nil_append] at hseparator ⊢
      rw [List.map_cons, listing_cons, List.cons_append, List.cons_append, List.append_assoc]
      exact ⟨_, .comma (.done _), hg.entries hseparator hmore⟩
  | cons c items ih =>
    obtain ⟨s', hseparator, hmore⟩ := ih
    rw [List.map_cons, List.cons_append, listing_cons, List.cons_append, List.cons_append,
      List.append_assoc]
    exact ⟨_, .comma (.done _), entries_condition_print c hseparator hmore⟩

theorem printed (g : Group) : g.Printed := by
  induction g using Group.induct with
  | node operator items groups ih =>
    intro rest
    cases items with
    | nil =>
      cases groups with
      | nil => exact .close (.done _)
      | cons g groups =>
        obtain ⟨s', hseparator, hmore⟩ :=
          entries_listing [] (fun g hg => ih g (List.mem_cons_of_mem _ hg)) rest
        have hg := ih g (List.mem_cons_self ..)
        simp only [List.map_nil, List.nil_append, List.map_cons] at hseparator ⊢
        rw [printEntries_eq_listing, List.cons_append, List.append_assoc]
        exact hg.entries hseparator hmore
    | cons c items =>
      obtain ⟨s', hseparator, hmore⟩ := entries_listing items ih rest
      simp only [List.map_cons, List.cons_append]
      rw [printEntries_eq_listing, List.cons_append, List.append_assoc]
      exact entries_condition_print c hseparator hmore

theorem derives_print (g : Group) : Derives Grammar.Numeral g.print g.oneNaN := by
  have hentries := g.printed []
  rw [List.append_nil] at hentries
  rw [print_eq, oneNaN_eq]
  exact .text (.done _) (.blank (by decide) (.done _)) hentries (.done _)

end Group

end WhenClause
