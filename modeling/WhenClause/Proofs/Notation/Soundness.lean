import WhenClause.Proofs.Notation.Token

/-!
# What is read is in the grammar

Each reader passes over a front of the text that the grammar has, and returns what that front
means. For the loop over entries the statement is about the groups around as well: reading on
finishes the innermost group first, and then each group around it.
-/

namespace WhenClause

open Grammar (Blanks Key Separator ValueText Entries Derives)

namespace Notation

theorem key_of_key? {s rest : List Char} {key : String} (h : key? s = some (key, rest)) :
    Key s key rest := by
  obtain ⟨⟨w, t⟩, hw, heq⟩ := Option.map_eq_some_iff.1 h
  obtain ⟨rfl, rfl⟩ := Prod.mk.inj heq
  rcases Option.or_eq_some_iff.1 hw with hw | ⟨_, hw⟩
  · obtain ⟨body, rfl, hbody⟩ := Quoted.exists_quoted_of_read? hw
    exact .quoted hbody
  · rw [← Word.append_of_read? hw]
    exact .word (Word.isWord_of_read? hw) t

theorem valueText_of_literal? {s rest : List Char} {v : Value}
    (h : literal? s = some (v, rest)) : ValueText Grammar.Numeral s v rest := by
  obtain ⟨⟨w, v⟩, hw, heq⟩ := Option.map_eq_some_iff.1 h
  obtain ⟨rfl, rfl⟩ := Prod.mk.inj heq
  have hmem := List.mem_of_find?_eq_some hw
  have hprefix : w.isPrefixOf s = true :=
    List.find?_some (p := fun l : List Char × Value => l.1.isPrefixOf s) hw
  obtain ⟨rest, rfl⟩ := List.isPrefixOf_iff_prefix.1 hprefix
  rw [List.drop_left]
  simp only [literals, List.mem_cons, List.not_mem_nil, or_false, Prod.mk.injEq] at hmem
  rcases hmem with ⟨rfl, rfl⟩ | ⟨rfl, rfl⟩ | ⟨rfl, rfl⟩ | ⟨rfl, rfl⟩ | ⟨rfl, rfl⟩
  · exact .true rest
  · exact .false rest
  · exact .infinity rest
  · exact .negInfinity rest
  · exact .nan rest

theorem valueText_of_value {s rest : List Char} {v : Value} (h : value s = .ok (v, rest)) :
    ValueText Grammar.Numeral s v rest := by
  unfold value at h
  split at h
  · split at h
    · rename_i hq
      cases h
      obtain ⟨t, heq, hbody⟩ := Quoted.exists_quoted_of_read? hq
      rw [heq]
      exact .quoted hbody
    · simp at h
  · split at h
    · rename_i hl
      cases h
      exact valueText_of_literal? hl
    · cases hn : Numeral.read s with
      | ok r =>
        rw [hn] at h
        cases h
        obtain ⟨w, rfl, hw⟩ := Numeral.sound_read hn
        exact .numeral hw rest
      | error e =>
        rw [hn] at h
        cases h

theorem separator_separator (s : List Char) : Separator s (separator s) := by
  have hblanks := Blank.blanks_skip s
  unfold separator
  split
  · rename_i rest heq
    exact .comma (heq ▸ hblanks)
  · exact .none hblanks

theorem exists_blanks_of_attributeValue {s rest : List Char} {v : Value}
    (h : attributeValue s = .ok (v, rest)) : ∃ s₁ s₂, Blanks s (':' :: s₁) ∧ Blanks s₁ s₂ ∧
      ValueText Grammar.Numeral s₂ v rest := by
  have hblanks := Blank.blanks_skip s
  unfold attributeValue at h
  split at h
  · rename_i t heq
    exact ⟨t, Blank.skip t, heq ▸ hblanks, Blank.blanks_skip t, valueText_of_value h⟩
  · simp at h

theorem exists_attributes {c c' : Condition} {s rest : List Char}
    (h : attributes c s = .ok (c', rest)) : ∃ as,
      Grammar.Attributes Grammar.Numeral s as rest ∧ c' = as.foldl (fun c a => c.insert a.1 a.2) c := by
  fun_induction attributes c s with
  | case1 c s key rest₁ hk v rest₂ hv ih =>
    obtain ⟨as, has, rfl⟩ := ih h
    obtain ⟨s₁, s₂, hcolon, hgap, hvalue⟩ := exists_blanks_of_attributeValue hv
    exact ⟨(key, v) :: as, .cons (Blank.blanks_skip s) (key_of_key? hk) hcolon hgap hvalue
      (separator_separator rest₂) has, rfl⟩
  | case2 => simp at h
  | case3 c s hk rest₁ hs =>
    cases h
    exact ⟨[], .close (hs ▸ Blank.blanks_skip s), rfl⟩
  | case4 => simp at h

theorem blanks_of_openBracket {s rest : List Char} (h : openBracket s = .ok rest) :
    Blanks s ('[' :: rest) := by
  have hblanks := Blank.blanks_skip s
  unfold openBracket at h
  split at h
  · rename_i heq
    cases h
    exact heq ▸ hblanks
  · simp at h

theorem append_of_keyword {s rest : List Char} {o : Option Operator}
    (h : Keyword.read? s = some (o, rest)) : s = Keyword.print o ++ rest := by
  obtain ⟨⟨w, t⟩, hw, h⟩ := Option.bind_eq_some_iff.1 h
  obtain ⟨o, ho, heq⟩ := Option.map_eq_some_iff.1 h
  obtain ⟨rfl, rfl⟩ := Prod.mk.inj heq
  rw [Keyword.print_of_operator? ho, Word.append_of_read? hw]

def extend (g : Group) (items : List Condition) (groups : List Group) : Group :=
  ⟨g.operator, g.items ++ items, g.groups ++ groups⟩

/-- What is left to read finishes the innermost group, then the one around it, and so on. -/
def Finishes : List Group → Group → List Char → Group → List Char → Prop
  | [], inner, s, g, rest => ∃ items groups, Entries Grammar.Numeral s items groups rest ∧
      g = extend inner items groups
  | parent :: outer, inner, s, g, rest => ∃ items groups s₁ s₂,
      Entries Grammar.Numeral s items groups s₁ ∧ Separator s₁ s₂ ∧
        Finishes outer (parent.addGroup (extend inner items groups)) s₂ g rest

theorem Finishes.condition {outer : List Group} {inner g : Group} {s s₁ s₂ s₃ rest : List Char}
    {as : List (String × Value)} (hfront : Blanks s ('{' :: s₁))
    (has : Grammar.Attributes Grammar.Numeral s₁ as s₂) (hseparator : Separator s₂ s₃)
    (h : Finishes outer (inner.addItem (.ofList as)) s₃ g rest) :
    Finishes outer inner s g rest := by
  have hextend : ∀ items groups, extend (inner.addItem (.ofList as)) items groups =
      extend inner (.ofList as :: items) groups := fun items groups => by
    simp [extend, Group.addItem]
  cases outer with
  | nil =>
    obtain ⟨items, groups, hentries, rfl⟩ := h
    exact ⟨_, groups, .condition hfront has hseparator hentries, hextend items groups⟩
  | cons parent outer =>
    obtain ⟨items, groups, s₄, s₅, hentries, hafter, hfinishes⟩ := h
    rw [hextend] at hfinishes
    exact ⟨_, groups, s₄, s₅, .condition hfront has hseparator hentries, hafter, hfinishes⟩

theorem Finishes.group {outer : List Group} {inner g : Group} {o : Option Operator}
    {items' : List Condition} {groups' : List Group} {s s₁ s₂ s₃ s₄ rest : List Char}
    (hfront : Blanks s (Keyword.print o ++ s₁)) (hbracket : Blanks s₁ ('[' :: s₂))
    (hinner : Entries Grammar.Numeral s₂ items' groups' s₃) (hseparator : Separator s₃ s₄)
    (h : Finishes outer (inner.addGroup ⟨o, items', groups'⟩) s₄ g rest) :
    Finishes outer inner s g rest := by
  have hextend : ∀ items groups, extend (inner.addGroup ⟨o, items', groups'⟩) items groups =
      extend inner items (⟨o, items', groups'⟩ :: groups) := fun items groups => by
    simp [extend, Group.addGroup]
  cases outer with
  | nil =>
    obtain ⟨items, groups, hentries, rfl⟩ := h
    exact ⟨items, _, .group hfront hbracket hinner hseparator hentries, hextend items groups⟩
  | cons parent outer =>
    obtain ⟨items, groups, s₅, s₆, hentries, hafter, hfinishes⟩ := h
    rw [hextend] at hfinishes
    exact ⟨items, _, s₅, s₆, .group hfront hbracket hinner hseparator hentries, hafter, hfinishes⟩

theorem extend_nil (g : Group) : extend g [] [] = g := by
  cases g
  simp [extend]

theorem extend_empty (o : Option Operator) (items : List Condition) (groups : List Group) :
    extend ⟨o, [], []⟩ items groups = ⟨o, items, groups⟩ := rfl

theorem finishes_of_entries {outer : List Group} {inner g : Group} {s rest : List Char}
    (h : entries outer inner s = .ok (g, rest)) : Finishes outer inner s g rest := by
  fun_induction entries outer inner s with
  | case1 outer inner s rest₁ hskip c rest₂ hc ih =>
    obtain ⟨as, has, rfl⟩ := exists_attributes hc
    exact Finishes.condition (hskip ▸ Blank.blanks_skip s) has (separator_separator rest₂) (ih h)
  | case2 => simp at h
  | case3 inner s rest₁ hskip =>
    cases h
    exact ⟨[], [], .close (hskip ▸ Blank.blanks_skip s), (extend_nil g).symm⟩
  | case4 inner s rest₁ hskip parent outer ih =>
    -- The innermost group ends here, and reading goes on in the group around it.
    refine ⟨[], [], rest₁, separator rest₁, .close (hskip ▸ Blank.blanks_skip s),
      separator_separator rest₁, ?_⟩
    rw [extend_nil]
    exact ih h
  | case5 outer inner s o rest₁ rest₂ hb _ _ hk ih =>
    -- A nested group begins, and what finishes it comes before what finishes the group around it.
    obtain ⟨items, groups, s₃, s₄, hentries, hseparator, hfinishes⟩ := ih h
    rw [extend_empty] at hfinishes
    have hfront := Blank.blanks_skip s
    rw [append_of_keyword hk] at hfront
    exact Finishes.group hfront (blanks_of_openBracket hb) hentries hseparator hfinishes
  | case6 => simp at h
  | case7 => simp at h

theorem exists_entries_of_group {s rest : List Char} {g : Group}
    (h : group s = .ok (g, rest)) : ∃ o s₁ s₂ items groups, Blanks s (Keyword.print o ++ s₁) ∧
      Blanks s₁ ('[' :: s₂) ∧ Entries Grammar.Numeral s₂ items groups rest ∧
        g = ⟨o, items, groups⟩ := by
  unfold group at h
  split at h
  · rename_i o s₁ hk
    obtain ⟨s₂, hb, hentries⟩ : ∃ s₂, openBracket s₁ = .ok s₂ ∧
        entries [] ⟨o, [], []⟩ s₂ = .ok (g, rest) := by
      cases hb : openBracket s₁ with
      | ok s₂ =>
        rw [hb] at h
        exact ⟨s₂, rfl, h⟩
      | error e =>
        rw [hb] at h
        cases h
    obtain ⟨items, groups, hderived, rfl⟩ := finishes_of_entries hentries
    have hfront := Blank.blanks_skip s
    rw [append_of_keyword hk] at hfront
    exact ⟨o, s₁, s₂, items, groups, hfront, blanks_of_openBracket hb, hderived, rfl⟩
  · simp at h

theorem derives_of_read {s : List Char} {g : Group} (h : read s = .ok g) :
    Derives Grammar.Numeral s g := by
  unfold read at h
  split at h
  · rename_i g' rest hgroup
    split at h
    · rename_i hskip
      cases h
      obtain ⟨o, s₁, s₂, items, groups, hfront, hbracket, hentries, rfl⟩ :=
        exists_entries_of_group hgroup
      exact .text hfront hbracket hentries (hskip ▸ Blank.blanks_skip rest)
    · simp at h
  · simp at h

end Notation

end WhenClause
