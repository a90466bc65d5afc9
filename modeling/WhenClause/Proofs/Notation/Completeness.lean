import WhenClause.Proofs.Notation.Soundness

/-!
# What is in the grammar is read

The readers take the longest front and the first alternative that they can, the grammar asks for
neither. That both come to the same is due to what may follow: after a word, a numeral or blanks
there is always a character that could not have continued them, and nothing that may follow an
entry is a comma.
-/

namespace WhenClause

open Grammar (Blanks Key Separator ValueText Entries Derives)

namespace Notation

theorem head_of_literal {l : List Char × Value} (h : l ∈ literals) :
    (∃ d t, l.1 = d :: t ∧ d.isDigit = false ∧ d ≠ '+' ∧ d ≠ '-') ∨
      ∃ d t, l.1 = '-' :: d :: t ∧ Numeral.isDigitOrPoint d = false := by
  simp only [literals, List.mem_cons, List.not_mem_nil, or_false] at h
  rcases h with rfl | rfl | rfl | rfl | rfl
  · exact .inl ⟨'t', _, rfl, by decide⟩
  · exact .inl ⟨'f', _, rfl, by decide⟩
  · exact .inl ⟨'i', _, rfl, by decide⟩
  · exact .inr ⟨'i', _, rfl, by decide⟩
  · exact .inl ⟨'n', _, rfl, by decide⟩

theorem literal?_of_numeral {w : List Char} {v : Value} (h : Grammar.Numeral w v)
    (rest : List Char) :
    literal? (w ++ rest) = none := by
  -- The first character tells a literal from a numeral, after a minus sign the second one does.
  have hnone : ∀ l ∈ literals, ¬ l.1.isPrefixOf (w ++ rest) = true := by
    intro l hl
    rcases head_of_literal hl with ⟨d, u, hl, hdigit, hplus, hminus⟩ | ⟨d, u, hl, hd⟩ <;>
      rcases Numeral.head_of_numeral h with ⟨c, t, rfl, hc⟩ | ⟨c, t, rfl, hc⟩ <;>
      simp only [hl, List.cons_append, List.isPrefixOf, Bool.and_eq_true, beq_iff_eq, not_and] <;>
      intro heq
    · subst heq
      simp [hdigit, hplus] at hc
    · exact absurd heq hminus
    · subst heq
      simp at hc
    · rintro rfl
      simp [hc] at hd
  rw [literal?, List.find?_eq_none.2 hnone, Option.map_none]

theorem value_of_valueText {s rest : List Char} {v : Value}
    (h : ValueText Grammar.Numeral s v rest) (hrest : Stops Numeral.isDigitOrPoint rest) :
    value s = .ok (v, rest) := by
  cases h with
  | quoted h =>
    simp only [value, Quoted.read?, Quoted.readBody?_of_quoted h]
  | true => rfl
  | false => rfl
  | infinity => rfl
  | negInfinity => rfl
  | nan => rfl
  | @numeral w _ h =>
    have hread := Numeral.read_append h hrest
    have hliteral := literal?_of_numeral h rest
    unfold value
    split
    · rename_i heq
      rcases Numeral.head_of_numeral h with ⟨c, t, rfl, hc⟩ | ⟨c, t, rfl, hc⟩
      · obtain ⟨rfl, _⟩ := List.cons.inj heq
        rcases hc with hc | hc <;> cases hc
      · cases heq
    · rw [hliteral, hread]
      rfl

theorem key?_of_key {s rest : List Char} {key : String} (h : Key s key rest)
    (hrest : Stops Word.isNext rest) : key? s = some (key, rest) := by
  cases h with
  | quoted h => simp [key?, Quoted.read?, Quoted.readBody?_of_quoted h]
  | @word w hw =>
    have hquoted : Quoted.read? (w ++ rest) = none := by
      unfold Quoted.read?
      split
      · rename_i heq
        cases w with
        | nil => cases hw
        | cons c w =>
          obtain ⟨rfl, _⟩ := List.cons.inj heq
          cases hw
      · rfl
    rw [key?, hquoted, Option.none_or, Word.read?_append hw hrest]
    rfl

def isKeyStart (c : Char) : Bool := c == '"' || Word.isFirst c

theorem head_of_key {s rest : List Char} {key : String} (h : Key s key rest) :
    ∃ c t, s = c :: t ∧ isKeyStart c = true := by
  cases h with
  | quoted => exact ⟨'"', _, rfl, rfl⟩
  | @word w hw =>
    cases w with
    | nil => cases hw
    | cons c w =>
      simp only [Word.isWord, Bool.and_eq_true] at hw
      exact ⟨c, _, rfl, by simp [isKeyStart, hw.1]⟩

theorem ranges_of_isFirst {c : Char} (h : Word.isFirst c = true) :
    65 ≤ c.toNat ∧ c.toNat ≤ 90 ∨ 97 ≤ c.toNat ∧ c.toNat ≤ 122 ∨ c = '_' := by
  rcases Bool.or_eq_true_iff.1 h with halpha | hunderscore
  · rcases Bool.or_eq_true_iff.1 halpha with hupper | hlower
    · have hrange : c.val ≥ 'A'.val ∧ c.val ≤ 'Z'.val := of_decide_eq_true hupper
      exact .inl hrange
    · obtain ⟨hlow, hhigh⟩ := Bool.and_eq_true_iff.1 hlower
      have hlow' : c.val ≥ 'a'.val := of_decide_eq_true hlow
      have hhigh' : c.val ≤ 'z'.val := of_decide_eq_true hhigh
      exact .inr (.inl ⟨hlow', hhigh'⟩)
  · exact .inr (.inr (by simpa using hunderscore))

theorem isDigitOrPoint_of_isFirst {c : Char} (h : Word.isFirst c = true) :
    Numeral.isDigitOrPoint c = false := by
  have hranges := ranges_of_isFirst h
  apply Bool.eq_false_iff.2
  intro hc
  rcases Bool.or_eq_true_iff.1 hc with hdigit | hpoint
  · have hdigit : 48 ≤ c.toNat ∧ c.toNat ≤ 57 := by simpa using Char.isDigit_iff_toNat.1 hdigit
    rcases hranges with hupper | hlower | rfl
    · omega
    · omega
    · exact absurd hdigit (by decide)
  · obtain rfl : c = '.' := by simpa using hpoint
    exact absurd h (by decide)

theorem skip_of_valueText {s rest : List Char} {v : Value}
    (h : ValueText Grammar.Numeral s v rest) : Blank.skip s = s := by
  cases h with
  | quoted => exact Blank.skip_cons rfl (by decide)
  | true => exact Blank.skip_cons rfl (by decide)
  | false => exact Blank.skip_cons rfl (by decide)
  | infinity => exact Blank.skip_cons rfl (by decide)
  | negInfinity => exact Blank.skip_cons rfl (by decide)
  | nan => exact Blank.skip_cons rfl (by decide)
  | numeral h =>
    rcases Numeral.head_of_numeral h with ⟨c, t, rfl, hc⟩ | ⟨c, t, rfl, _⟩
    · have hstart : (c.isDigit || c == '+') = true := by simpa using hc
      exact Blank.skip_of_head (p := fun c => c.isDigit || c == '+') hstart (by decide)
    · exact Blank.skip_cons rfl (by decide)

theorem skip_separator {s rest : List Char} (h : Separator s rest)
    (hrest : ∀ t, Blank.skip rest ≠ ',' :: t) : Blank.skip (separator s) = Blank.skip rest := by
  cases h with
  | none h =>
    have hskip := Blank.skip_eq_of_blanks h
    unfold separator
    split
    · rename_i t heq
      exact absurd (hskip.symm.trans heq) (hrest t)
    · rw [Blank.skip_skip, hskip]
  | comma h =>
    have hskip := Blank.skip_eq_of_blanks h
    rw [Blank.skip_cons rfl (by decide)] at hskip
    simp only [separator, hskip]

theorem stops_of_skip {p : Char → Bool} {s : List Char}
    (hp : Blank.starts.all (fun c => !p c) = true)
    (h : Stops p (Blank.skip s)) : Stops p s :=
  Blank.stops_of_blanks (Blank.blanks_skip s) hp h

theorem head_of_attributes {s rest : List Char} {as : List (String × Value)}
    (h : Grammar.Attributes Grammar.Numeral s as rest) :
    ∃ c t, Blank.skip s = c :: t ∧ (c = '}' ∨ isKeyStart c = true) := by
  cases h with
  | close h =>
    rw [Blank.skip_eq_of_blanks h, Blank.skip_cons rfl (by decide)]
    exact ⟨'}', _, rfl, .inl rfl⟩
  | cons front name =>
    obtain ⟨c, t, rfl, hc⟩ := head_of_key name
    rw [Blank.skip_eq_of_blanks front, Blank.skip_of_head hc (by decide)]
    exact ⟨c, t, rfl, .inr hc⟩

theorem stops_of_separator {p : Char → Bool} {s rest : List Char} (h : Separator s rest)
    (hp : Blank.starts.all (fun c => !p c) = true) (hcomma : p ',' = false)
    (hrest : Stops p (Blank.skip rest)) : Stops p s := by
  cases h with
  | none h => exact Blank.stops_of_blanks h hp (stops_of_skip hp hrest)
  | comma h => exact Blank.stops_of_blanks h hp (stops_cons.2 hcomma)

/-- The attributes that the grammar finds are read, however many blanks were dropped before. -/
theorem attributes_of_attributes {s rest : List Char} {as : List (String × Value)}
    (h : Grammar.Attributes Grammar.Numeral s as rest) {s' : List Char}
    (hskip : Blank.skip s' = Blank.skip s) (c : Condition) :
    attributes c s' = .ok (as.foldl (fun c a => c.insert a.1 a.2) c, rest) := by
  induction h generalizing s' c with
  | @close s rest h =>
    have hclose : Blank.skip s' = '}' :: rest := by
      rw [hskip, Blank.skip_eq_of_blanks h, Blank.skip_cons rfl (by decide)]
    rw [attributes]
    split
    · rename_i hk
      rw [hclose] at hk
      cases hk
    · split
      · rename_i heq
        cases hclose.symm.trans heq
        rfl
      · rename_i hne
        exact absurd hclose (hne _)
  | @cons s s₁ s₂ s₃ s₄ s₅ s₆ rest key value as front name colon gap holds separator more ih =>
    have hkey : key? (Blank.skip s') = some (key, s₂) := by
      obtain ⟨d, t, rfl, hd⟩ := head_of_key name
      rw [hskip, Blank.skip_eq_of_blanks front, Blank.skip_of_head hd (by decide)]
      exact key?_of_key name (Blank.stops_of_blanks colon (by decide) (stops_cons.2 rfl))
    -- After a value comes a blank, a comma, a brace or a key, and none of these continues a numeral.
    obtain ⟨d, t, hd, hstart⟩ := head_of_attributes more
    have hstop : Stops Numeral.isDigitOrPoint s₅ := by
      apply stops_of_separator separator (by decide) rfl
      rw [hd, stops_cons]
      rcases hstart with rfl | hstart
      · rfl
      rcases Bool.or_eq_true_iff.1 hstart with hquote | hfirst
      · obtain rfl : d = '"' := by simpa using hquote
        rfl
      · exact isDigitOrPoint_of_isFirst hfirst
    have hvalue : attributeValue s₂ = .ok (value, s₅) := by
      have hcolon := Blank.skip_eq_of_blanks colon
      rw [Blank.skip_cons rfl (by decide)] at hcolon
      simp only [attributeValue, hcolon, Blank.skip_eq_of_blanks gap, skip_of_valueText holds]
      exact value_of_valueText holds hstop
    have hnext : Blank.skip (Notation.separator s₅) = Blank.skip s₆ := by
      apply skip_separator separator
      intro u hu
      obtain ⟨rfl, _⟩ := List.cons.inj (hd.symm.trans hu)
      rcases hstart with hstart | hstart <;> cases hstart
    rw [attributes]
    split
    · rename_i hk
      cases hkey.symm.trans hk
      split
      · rename_i hv
        cases hvalue.symm.trans hv
        exact ih hnext (c.insert key value)
      · rename_i hv
        cases hvalue.symm.trans hv
    · rename_i hk
      cases hkey.symm.trans hk

theorem openBracket_of_blanks {s rest : List Char} (h : Blanks s ('[' :: rest)) :
    openBracket s = .ok rest := by
  have hskip := Blank.skip_eq_of_blanks h
  rw [Blank.skip_cons rfl (by decide)] at hskip
  simp only [openBracket, hskip]

theorem keyword_print {o : Option Operator} {s rest : List Char}
    (h : Blanks s ('[' :: rest)) : Keyword.read? (Keyword.print o ++ s) = some (o, s) := by
  have hstop : Stops Word.isNext s := Blank.stops_of_blanks h (by decide) (stops_cons.2 rfl)
  rw [Keyword.read?, Word.read?_append (Keyword.isWord_print o) hstop, Option.bind_some,
    Keyword.operator?_print, Option.map_some]

theorem head_of_keyword (o : Option Operator) (s : List Char) :
    ∃ c t, Keyword.print o ++ s = c :: t ∧ Word.isFirst c = true := by
  rcases o with _ | _ | _
  · exact ⟨'g', _, rfl, rfl⟩
  · exact ⟨'a', _, rfl, rfl⟩
  · exact ⟨'o', _, rfl, rfl⟩

theorem skip_keyword (o : Option Operator) (s : List Char) :
    Blank.skip (Keyword.print o ++ s) = Keyword.print o ++ s := by
  obtain ⟨c, t, heq, hc⟩ := head_of_keyword o s
  rw [heq, Blank.skip_of_head hc (by decide)]

theorem head_of_entries {s rest : List Char} {items : List Condition} {groups : List Group}
    (h : Entries Grammar.Numeral s items groups rest) :
    ∃ c t, Blank.skip s = c :: t ∧ (c = ']' ∨ c = '{' ∨ Word.isFirst c = true) := by
  cases h with
  | close h =>
    rw [Blank.skip_eq_of_blanks h, Blank.skip_cons rfl (by decide)]
    exact ⟨']', _, rfl, .inl rfl⟩
  | condition front =>
    rw [Blank.skip_eq_of_blanks front, Blank.skip_cons rfl (by decide)]
    exact ⟨'{', _, rfl, .inr (.inl rfl)⟩
  | group front =>
    rw [Blank.skip_eq_of_blanks front, skip_keyword]
    obtain ⟨c, t, heq, hc⟩ := head_of_keyword _ _
    exact ⟨c, t, heq, .inr (.inr hc)⟩

theorem skip_separator_of_entries {s s' rest : List Char} {items : List Condition}
    {groups : List Group} (h : Separator s s') (hmore : Entries Grammar.Numeral s' items groups rest) :
    Blank.skip (separator s) = Blank.skip s' := by
  obtain ⟨c, t, hc, hstart⟩ := head_of_entries hmore
  apply skip_separator h
  intro u hu
  obtain ⟨rfl, _⟩ := List.cons.inj (hc.symm.trans hu)
  rcases hstart with hstart | hstart | hstart <;> cases hstart

def finish (outer : List Group) (g : Group) (rest : List Char) :
    Except Failure (Group × List Char) :=
  match outer with
  | [] => .ok (g, rest)
  | parent :: outer => entries outer (parent.addGroup g) (separator rest)

theorem entries_close {outer : List Group} {inner : Group} {s rest : List Char}
    (h : Blank.skip s = ']' :: rest) : entries outer inner s = finish outer inner rest := by
  rw [entries]
  split
  · rename_i heq
    cases h.symm.trans heq
  · rename_i heq
    cases h.symm.trans heq
    cases outer <;> rfl
  · rename_i hne
    exact absurd h (hne _)

theorem entries_condition {outer : List Group} {inner : Group} {s s₁ s₂ : List Char}
    {c : Condition} (h : Blank.skip s = '{' :: s₁) (hc : attributes .empty s₁ = .ok (c, s₂)) :
    entries outer inner s = entries outer (inner.addItem c) (separator s₂) := by
  rw [entries]
  split
  · rename_i heq
    cases h.symm.trans heq
    split
    · rename_i hc'
      cases hc.symm.trans hc'
      rfl
    · rename_i hc'
      cases hc.symm.trans hc'
  · rename_i heq
    cases h.symm.trans heq
  · rename_i hne _
    exact absurd h (hne _)

theorem entries_group {outer : List Group} {inner : Group} {s s₁ s₂ : List Char}
    {o : Option Operator} (h : Blank.skip s = Keyword.print o ++ s₁)
    (hbracket : Blanks s₁ ('[' :: s₂)) :
    entries outer inner s = entries (inner :: outer) ⟨o, [], []⟩ s₂ := by
  obtain ⟨c, t, hc, hfirst⟩ := head_of_keyword o s₁
  have hk := keyword_print (o := o) hbracket
  have hb := openBracket_of_blanks hbracket
  rw [← h] at hk
  rw [entries]
  split
  · rename_i heq
    obtain ⟨rfl, _⟩ := List.cons.inj (hc.symm.trans (h.symm.trans heq))
    cases hfirst
  · rename_i heq
    obtain ⟨rfl, _⟩ := List.cons.inj (hc.symm.trans (h.symm.trans heq))
    cases hfirst
  · split
    · rename_i hk'
      cases hk.symm.trans hk'
      split
      · rename_i hb'
        cases hb.symm.trans hb'
        rfl
      · rename_i hb'
        cases hb.symm.trans hb'
    · rename_i hk'
      cases hk.symm.trans hk'

theorem entries_of_entries {s rest : List Char} {items : List Condition} {groups : List Group}
    (h : Entries Grammar.Numeral s items groups rest) {s' : List Char}
    (hskip : Blank.skip s' = Blank.skip s) (outer : List Group) (inner : Group) :
    entries outer inner s' = finish outer (extend inner items groups) rest := by
  induction h generalizing s' outer inner with
  | close h =>
    rw [Blank.skip_eq_of_blanks h, Blank.skip_cons rfl (by decide)] at hskip
    rw [entries_close hskip, extend_nil]
  | @condition s s₁ s₂ s₃ rest as items groups front condition separator more ih =>
    rw [Blank.skip_eq_of_blanks front, Blank.skip_cons rfl (by decide)] at hskip
    have hnext := skip_separator_of_entries separator more
    rw [entries_condition hskip (attributes_of_attributes condition rfl .empty), ih hnext]
    simp [extend, Group.addItem, Condition.ofList]
  | @group s s₁ s₂ s₃ s₄ rest o items items' groups groups' front bracket inner separator more
      ih ih' =>
    rw [Blank.skip_eq_of_blanks front, skip_keyword] at hskip
    have hnext := skip_separator_of_entries separator more
    rw [entries_group hskip bracket, ih rfl, finish, ih' hnext]
    simp [extend, Group.addGroup]

theorem read_of_derives {s : List Char} {g : Group} (h : Derives Grammar.Numeral s g) :
    read s = .ok g := by
  cases h with
  | @text s₁ s₂ s₃ o items groups front bracket hentries back =>
    have hskip : Blank.skip s = Keyword.print o ++ s₁ := by
      rw [Blank.skip_eq_of_blanks front, skip_keyword]
    have hrest : Blank.skip s₃ = [] := by
      rw [Blank.skip_eq_of_blanks back, Blank.skip_nil]
    have hgroup : group s = .ok (⟨o, items, groups⟩, s₃) := by
      rw [group, hskip, keyword_print bracket]
      simp only [openBracket_of_blanks bracket]
      exact entries_of_entries hentries rfl [] ⟨o, [], []⟩
    rw [read, hgroup]
    simp only [hrest]

theorem read_eq_ok_iff {s : List Char} {g : Group} :
    read s = .ok g ↔ Derives Grammar.Numeral s g :=
  ⟨derives_of_read, read_of_derives⟩

end Notation

end WhenClause
