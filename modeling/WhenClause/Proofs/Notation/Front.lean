import Mathlib.Logic.Relation
import WhenClause.Proofs.Notation.Completeness

/-!
# Fronts of texts

What the grammar has passed over stays what it is when other text follows it. For whatever ends in a
sign of its own this holds of any text; where blanks come last, a comment may be among them that
runs up to what follows, and then there has to be the end of a line again.
-/

namespace WhenClause.Grammar

open Relation (Comp)

def EndsAlike (s r : List Char) : Prop := ∀ u, LineEnd (u ++ s) → LineEnd (u ++ r)

theorem EndsAlike.append_left {s r : List Char} (h : EndsAlike s r) (v : List Char) :
    EndsAlike (v ++ s) (v ++ r) := by
  intro u
  rw [← List.append_assoc, ← List.append_assoc]
  exact h (u ++ v)

theorem lineEnd_cons_cons {c d : Char} {s : List Char} (h : LineEnd (c :: d :: s))
    (r : List Char) : LineEnd (c :: d :: r) := by
  cases h with
  | lineFeed => exact .lineFeed _
  | returnAndLineFeed => exact .returnAndLineFeed r

theorem endsAlike_lineFeed (s r : List Char) : EndsAlike s ('\n' :: r) := by
  rintro (_ | ⟨c, _ | ⟨d, u⟩⟩) h
  · exact .lineFeed r
  · change LineEnd (c :: s) at h
    cases h with
    | lineFeed => exact .lineFeed _
    | returnAndLineFeed => exact .returnAndLineFeed r
  · exact lineEnd_cons_cons h _

theorem endsAlike_append {v : List Char} (hne : v ≠ []) (hreturn : v ≠ ['\r'])
    (s r : List Char) : EndsAlike (v ++ s) (v ++ r) := by
  obtain ⟨c, v, rfl⟩ := List.exists_cons_of_ne_nil hne
  rintro (_ | ⟨d, _ | ⟨e, u⟩⟩) h
  · cases v with
    | nil =>
      change LineEnd (c :: s) at h
      cases h with
      | lineFeed => exact .lineFeed r
      | returnAndLineFeed => exact absurd rfl hreturn
    | cons => exact lineEnd_cons_cons h _
  · exact lineEnd_cons_cons h _
  · exact lineEnd_cons_cons h _

theorem endsAlike_nil {c : Char} (hfeed : c ≠ '\n') (s : List Char) : EndsAlike (c :: s) [] := by
  rintro (_ | ⟨d, _ | ⟨e, u⟩⟩) h
  · exact .text
  · change LineEnd (d :: c :: s) at h
    cases h with
    | lineFeed => exact .lineFeed []
    | returnAndLineFeed => exact absurd rfl hfeed
  · exact lineEnd_cons_cons h _

section

variable {R R' S : List Char → List Char → Prop} {s s' rest : List Char}

/-- The relation holds of a front of the text, and holds of that front before other text. -/
def Front (R : List Char → List Char → Prop) (s rest : List Char) : Prop :=
  ∃ u, s = u ++ rest ∧ ∀ r, EndsAlike rest r → R (u ++ r) r

/-- The same of a front that no comment at its end leaves open. -/
def Closed (R : List Char → List Char → Prop) (s rest : List Char) : Prop :=
  ∃ u, s = u ++ rest ∧ u ≠ [] ∧ u ≠ ['\r'] ∧ ∀ r, R (u ++ r) r

theorem Closed.front (h : Closed R s rest) : Front R s rest := by
  obtain ⟨u, heq, _, _, hR⟩ := h
  exact ⟨u, heq, fun r _ => hR r⟩

theorem Closed.mono (h : Closed R s rest) (hR : ∀ s rest, R s rest → R' s rest) :
    Closed R' s rest := by
  obtain ⟨u, heq, hne, hreturn, hu⟩ := h
  exact ⟨u, heq, hne, hreturn, fun r => hR _ _ (hu r)⟩

theorem Closed.append (h : Closed R s []) (r : List Char) : R (s ++ r) r := by
  obtain ⟨u, rfl, _, _, hR⟩ := h
  rw [List.append_nil]
  exact hR r

theorem Front.comp (h : Front R s s') (h' : Front S s' rest) : Front (Comp R S) s rest := by
  obtain ⟨u, rfl, hR⟩ := h
  obtain ⟨v, rfl, hS⟩ := h'
  refine ⟨u ++ v, (List.append_assoc ..).symm, fun r hr => ⟨v ++ r, ?_, hS r hr⟩⟩
  rw [List.append_assoc]
  exact hR _ (hr.append_left v)

theorem Front.comp_closed (h : Front R s s') (h' : Closed S s' rest) :
    Closed (Comp R S) s rest := by
  obtain ⟨u, rfl, hR⟩ := h
  obtain ⟨v, rfl, hne, hreturn, hS⟩ := h'
  refine ⟨u ++ v, (List.append_assoc ..).symm, ?_, ?_, fun r => ⟨v ++ r, ?_, hS r⟩⟩
  · simp [hne]
  · simp [List.append_eq_singleton_iff, hne, hreturn]
  · rw [List.append_assoc]
    exact hR _ (endsAlike_append hne hreturn rest r)

theorem Closed.comp (h : Closed R s s') (h' : Closed S s' rest) : Closed (Comp R S) s rest :=
  h.front.comp_closed h'

end

/-! ## The parts of the notation -/

variable {s s' rest : List Char}

theorem Blanks.trans (h : Blanks s s') (h' : Blanks s' rest) : Blanks s rest := by
  induction h with
  | done => exact h'
  | blank hc _ ih => exact .blank hc (ih h')
  | comment hline stop _ ih => exact .comment hline stop (ih h')

theorem front_blanks (h : Blanks s rest) : Front Blanks s rest := by
  induction h with
  | done s => exact ⟨[], rfl, fun r _ => .done r⟩
  | @blank c s rest hc _ ih =>
    obtain ⟨u, rfl, hu⟩ := ih
    exact ⟨c :: u, rfl, fun r hr => .blank hc (hu r hr)⟩
  | @comment line s rest hline stop _ ih =>
    obtain ⟨u, rfl, hu⟩ := ih
    refine ⟨'#' :: (line ++ u), by simp, fun r hr => ?_⟩
    rw [List.cons_append, List.append_assoc]
    exact .comment hline (hr u stop) (hu r hr)

def Mark (w s rest : List Char) : Prop := Blanks s (w ++ rest)

theorem closed_mark {w : List Char} (hne : w ≠ []) (hreturn : w ≠ ['\r'])
    (h : Blanks s (w ++ rest)) : Closed (Mark w) s rest := by
  have hword : Closed (fun s rest => s = w ++ rest) (w ++ rest) rest :=
    ⟨w, rfl, hne, hreturn, fun _ => rfl⟩
  refine ((front_blanks h).comp_closed hword).mono ?_
  rintro s rest ⟨_, hblanks, rfl⟩
  exact hblanks

theorem closed_sign {c : Char} (hreturn : c ≠ '\r') (h : Blanks s (c :: rest)) :
    Closed (Mark [c]) s rest :=
  closed_mark (by simp) (by simpa using hreturn) h

theorem closed_keyword {o : Option Operator} (h : Blanks s (Keyword.print o ++ rest)) :
    Closed (Mark (Keyword.print o)) s rest := by
  refine closed_mark ?_ ?_ h <;> rcases o with _ | _ | _ <;> decide

theorem front_separator (h : Separator s rest) : Front Separator s rest := by
  cases h with
  | none h =>
    obtain ⟨u, heq, hu⟩ := front_blanks h
    exact ⟨u, heq, fun r hr => .none (hu r hr)⟩
  | comma h =>
    obtain ⟨u, heq, _, _, hu⟩ := closed_sign (by decide) h
    exact ⟨u, heq, fun r _ => .comma (hu r)⟩

theorem exists_append_of_quoted {body : List Char} (h : Quoted s body rest) :
    ∃ u, s = u ++ rest ∧ ∀ r, Quoted (u ++ r) body r := by
  induction h with
  | close rest => exact ⟨['"'], rfl, .close⟩
  | @plain c s body rest hquote hback _ ih =>
    obtain ⟨u, rfl, hu⟩ := ih
    exact ⟨c :: u, rfl, fun r => .plain hquote hback (hu r)⟩
  | quote _ ih =>
    obtain ⟨u, rfl, hu⟩ := ih
    exact ⟨'\\' :: '"' :: u, rfl, fun r => .quote (hu r)⟩
  | backslash _ ih =>
    obtain ⟨u, rfl, hu⟩ := ih
    exact ⟨'\\' :: '\\' :: u, rfl, fun r => .backslash (hu r)⟩
  | lineFeed _ ih =>
    obtain ⟨u, rfl, hu⟩ := ih
    exact ⟨'\\' :: 'n' :: u, rfl, fun r => .lineFeed (hu r)⟩
  | tab _ ih =>
    obtain ⟨u, rfl, hu⟩ := ih
    exact ⟨'\\' :: 't' :: u, rfl, fun r => .tab (hu r)⟩
  | @pair c s body rest hc _ ih =>
    obtain ⟨u, rfl, hu⟩ := ih
    exact ⟨'\\' :: c :: u, rfl, fun r => .pair hc (hu r)⟩

theorem closed_key {key : String} (h : Key s key rest) :
    Closed (fun s rest => Key s key rest) s rest := by
  cases h with
  | quoted h =>
    obtain ⟨u, rfl, hu⟩ := exists_append_of_quoted h
    exact ⟨'"' :: u, rfl, by simp, by simp, fun r => .quoted (hu r)⟩
  | @word w hw =>
    refine ⟨w, rfl, ?_, ?_, .word hw⟩
    · rintro rfl
      cases hw
    · rintro rfl
      cases hw

theorem closed_valueText {v : Value} (h : ValueText Numeral s v rest) :
    Closed (fun s rest => ValueText Numeral s v rest) s rest := by
  cases h with
  | quoted h =>
    obtain ⟨u, rfl, hu⟩ := exists_append_of_quoted h
    exact ⟨'"' :: u, rfl, by simp, by simp, fun r => .quoted (hu r)⟩
  | true => exact ⟨_, rfl, by decide, by decide, .true⟩
  | false => exact ⟨_, rfl, by decide, by decide, .false⟩
  | infinity => exact ⟨_, rfl, by decide, by decide, .infinity⟩
  | negInfinity => exact ⟨_, rfl, by decide, by decide, .negInfinity⟩
  | nan => exact ⟨_, rfl, by decide, by decide, .nan⟩
  | @numeral w _ h =>
    refine ⟨w, rfl, ?_, ?_, .numeral h⟩
    · rintro rfl
      rcases Numeral.head_of_numeral h with ⟨c, t, heq, _⟩ | ⟨c, t, heq, _⟩ <;> cases heq
    · rintro rfl
      rcases Numeral.head_of_numeral h with ⟨c, t, heq, hc⟩ | ⟨c, t, heq, _⟩ <;> cases heq
      rcases hc with hc | hc <;> cases hc

theorem closed_attributes {as : List (String × Value)} (h : Attributes Numeral s as rest) :
    Closed (fun s rest => Attributes Numeral s as rest) s rest := by
  induction h with
  | close h => exact (closed_sign (by decide) h).mono fun _ _ => .close
  | cons front name colon gap holds separator _ ih =>
    have hname := (front_blanks front).comp_closed (closed_key name)
    have hcolon := closed_sign (by decide) colon
    have hvalue := (front_blanks gap).comp_closed (closed_valueText holds)
    have hmore := (front_separator separator).comp_closed ih
    refine (hname.comp (hcolon.comp (hvalue.comp hmore))).mono ?_
    rintro _ _ ⟨_, ⟨_, front, name⟩, _, colon, _, ⟨_, gap, holds⟩, _, separator, more⟩
    exact .cons front name colon gap holds separator more

theorem closed_entries {items : List Condition} {groups : List Group}
    (h : Entries Numeral s items groups rest) :
    Closed (fun s rest => Entries Numeral s items groups rest) s rest := by
  induction h with
  | close h => exact (closed_sign (by decide) h).mono fun _ _ => .close
  | condition front condition separator _ ih =>
    have hcondition := (closed_sign (by decide) front).comp (closed_attributes condition)
    have hmore := (front_separator separator).comp_closed ih
    refine (hcondition.comp hmore).mono ?_
    rintro _ _ ⟨_, ⟨_, front, condition⟩, _, separator, more⟩
    exact .condition front condition separator more
  | group front bracket _ separator _ ih ih' =>
    have hopen := (closed_keyword front).comp (closed_sign (by decide) bracket)
    have hmore := (front_separator separator).comp_closed ih'
    refine (hopen.comp (ih.comp hmore)).mono ?_
    rintro _ _ ⟨_, ⟨_, front, bracket⟩, _, inner, _, separator, more⟩
    exact .group front bracket inner separator more

end WhenClause.Grammar
