import WhenClause.Proofs.Notation.Front

/-!
# Where texts are rejected

A failure points at the end of the longest front that can still be completed. Whatever the failure
says was expected there could stand there, on a new line, and some text could follow it with which
the whole is in the notation.

There is one exception. Digits and points after a minus sign are passed over before they are found
to be no number, so the place is then after them, and it is what stands before the minus sign that
can be completed.
-/

namespace WhenClause

open Grammar (Blanks Closed Derives Entries Front Key Mark Separator ValueText)

inductive Expectation.Meets : Expectation → List Char → Prop
  | keyword (o : Option Operator) : Meets .keyword (Keyword.print o)
  | openBracket : Meets .openBracket ['[']
  | colon : Meets .colon [':']
  | value {x : List Char} {v : Value} (h : ValueText Grammar.Numeral x v []) : Meets .value x
  | closeBrace : Meets .attribute ['}']
  | pair {x s₁ s₂ s₃ : List Char} {key : String} {v : Value} (name : Key x key s₁)
      (colon : Blanks s₁ (':' :: s₂)) (gap : Blanks s₂ s₃)
      (holds : ValueText Grammar.Numeral s₃ v []) : Meets .attribute x
  | closeBracket : Meets .entry [']']
  | condition {s : List Char} {as : List (String × Value)}
      (h : Grammar.Attributes Grammar.Numeral s as []) : Meets .entry ('{' :: s)
  | group {s₁ s₂ : List Char} {items : List Condition} {groups : List Group}
      (o : Option Operator) (bracket : Blanks s₁ ('[' :: s₂))
      (inner : Entries Grammar.Numeral s₂ items groups []) :
      Meets .entry (Keyword.print o ++ s₁)

def Expectation.Starts (e : Expectation) (x : List Char) : Prop := ∃ z, e.Meets (x ++ z)

namespace Notation

variable {P P' Q : List Char → Prop} {s s' rest : List Char} {e : Expectation} {f : Failure}

def StartsNegative (s : List Char) : Prop :=
  ∃ c t, s = '-' :: c :: t ∧ Numeral.isDigitOrPoint c = true

/-- What was passed over as one token before it was found to be wrong: nothing, or all digits and
points after a minus sign. -/
inductive Stuck : Expectation → List Char → List Char → Prop
  | front {e : Expectation} {rest : List Char} (h : e = .value → ¬ StartsNegative rest) :
      Stuck e [] rest
  | negative {run rest : List Char} (nonempty : run ≠ [])
      (digits : ∀ c ∈ run, Numeral.isDigitOrPoint c = true)
      (stops : Stops Numeral.isDigitOrPoint rest)
      (wrong : ∀ v, ¬ Grammar.Numeral ('-' :: run) v) : Stuck .value ('-' :: run) rest

/-- Any start of what is expected can stand on a new line, and be completed. -/
def Viable (P : List Char → Prop) (e : Expectation) (u : List Char) : Prop :=
  ∀ x, e.Starts x → ∃ y, P (u ++ '\n' :: (x ++ y))

def Misses (P : List Char → Prop) (s : List Char) (f : Failure) : Prop :=
  ∃ e u w, f.expected = some e ∧ s = u ++ (w ++ f.rest) ∧ Stuck e w f.rest ∧ Viable P e u

theorem Misses.after {R : List Char → List Char → Prop} (hfront : Front R s s')
    (hP : ∀ s s', R s s' → P s' → P' s) (h : Misses P s' f) : Misses P' s f := by
  obtain ⟨u, rfl, hR⟩ := hfront
  obtain ⟨e, v, w, he, rfl, hstuck, hviable⟩ := h
  refine ⟨e, u ++ v, w, he, (List.append_assoc ..).symm, hstuck, fun x hx => ?_⟩
  obtain ⟨y, hy⟩ := hviable x hx
  refine ⟨y, ?_⟩
  rw [List.append_assoc]
  exact hP _ _ (hR _ ((Grammar.endsAlike_lineFeed (w ++ f.rest) _).append_left v)) hy

theorem misses_of_skip {w : List Char} (hskip : Blank.skip s = w ++ rest)
    (hstuck : Stuck e w rest) (hP : ∀ s s', Blanks s s' → P s' → P' s)
    (hmeets : ∀ x, e.Meets x → ∃ y, P (x ++ y)) : Misses P' s ⟨some e, rest⟩ := by
  have hfront := Grammar.front_blanks (Blank.blanks_skip s)
  rw [hskip] at hfront
  refine Misses.after hfront (P := fun s => ∃ s', Blanks s s' ∧ P s') ?_ ?_
  · rintro _ _ hblanks ⟨_, hblanks', h⟩
    exact hP _ _ (hblanks.trans hblanks') h
  · refine ⟨e, [], w, rfl, rfl, hstuck, fun x ⟨z, hz⟩ => ?_⟩
    obtain ⟨y, hy⟩ := hmeets _ hz
    refine ⟨z ++ y, x ++ (z ++ y), .blank (by simp) (.done _), ?_⟩
    rwa [← List.append_assoc]

theorem misses_after_blanks (he : e ≠ .value) (hP : ∀ s s', Blanks s s' → P s' → P' s)
    (hmeets : ∀ x, e.Meets x → ∃ y, P (x ++ y)) : Misses P' s ⟨some e, Blank.skip s⟩ :=
  misses_of_skip (w := []) rfl (.front fun h => absurd h he) hP hmeets

/-! ## Values -/

theorem stops_dropWhile (p : Char → Bool) (s : List Char) : Stops p (s.dropWhile p) := by
  intro c hc
  have hstop := List.head?_dropWhile_not p s
  rwa [Option.mem_def.1 hc] at hstop

theorem stuck_of_read (h : Numeral.read s = .error rest) :
    ∃ w, s = w ++ rest ∧ Stuck .value w rest := by
  have hread := h
  unfold Numeral.read at h
  split at h
  · rename_i t
    split at h
    · rename_i hrun
      cases h
      refine ⟨[], rfl, .front fun _ ⟨c, u, heq, hc⟩ => ?_⟩
      cases heq
      simp [hc] at hrun
    · rename_i hne
      split at h
      · cases h
      · cases h
        have hstops := stops_dropWhile Numeral.isDigitOrPoint t
        have hsplit : '-' :: t = '-' :: t.takeWhile Numeral.isDigitOrPoint ++
            t.dropWhile Numeral.isDigitOrPoint := by simp
        refine ⟨'-' :: t.takeWhile Numeral.isDigitOrPoint, hsplit, .negative hne
          (fun c hc => List.all_eq_true.1 List.all_takeWhile c hc) hstops fun v hv => ?_⟩
        rw [hsplit, Numeral.read_append hv hstops] at hread
        cases hread
  · rename_i hsign
    split at h
    · cases h
    · cases h
      refine ⟨[], rfl, .front fun _ ⟨c, u, heq, _⟩ => hsign _ heq⟩

theorem stuck_of_value (h : value s = .error f) :
    f.expected = some .value ∧ ∃ w, s = w ++ f.rest ∧ Stuck .value w f.rest := by
  unfold value at h
  split at h
  · split at h
    · cases h
    · cases h
      refine ⟨rfl, [], rfl, .front fun _ ⟨c, u, heq, _⟩ => ?_⟩
      cases heq
  · split at h
    · cases h
    · cases hn : Numeral.read s with
      | ok r =>
        rw [hn] at h
        cases h
      | error rest =>
        rw [hn] at h
        cases h
        exact ⟨rfl, stuck_of_read hn⟩

def Holds (Q : List Char → Prop) (s : List Char) : Prop :=
  ∃ s₁ s₂ v rest, Blanks s (':' :: s₁) ∧ Blanks s₁ s₂ ∧ ValueText Grammar.Numeral s₂ v rest ∧ Q rest

theorem misses_attributeValue (hQ : ∃ z, Q z) (h : attributeValue s = .error f) :
    Misses (Holds Q) s f := by
  obtain ⟨z, hz⟩ := hQ
  unfold attributeValue at h
  split at h
  · rename_i s₁ hskip
    obtain ⟨_, rest⟩ := f
    obtain ⟨⟨⟩, w, hw, hstuck⟩ := stuck_of_value h
    have hvalue : Misses (fun s₁ => ∃ s₂ v rest, Blanks s₁ s₂ ∧
        ValueText Grammar.Numeral s₂ v rest ∧ Q rest) s₁ ⟨some .value, rest⟩ := by
      refine misses_of_skip hw hstuck
        (P := fun s => ∃ v rest, ValueText Grammar.Numeral s v rest ∧ Q rest) ?_ ?_
      · rintro s s' hblanks ⟨v, rest, hvalue, h⟩
        exact ⟨s', v, rest, hblanks, hvalue, h⟩
      · intro x hx
        cases hx with
        | value hx => exact ⟨z, _, z, (Grammar.closed_valueText hx).append z, hz⟩
    have hcolon := Grammar.closed_sign (by decide) (hskip ▸ Blank.blanks_skip s)
    refine hvalue.after hcolon.front ?_
    rintro s s₁ hcolon ⟨s₂, v, rest, hgap, hvalue, h⟩
    exact ⟨s₁, s₂, v, rest, hcolon, hgap, hvalue, h⟩
  · cases h
    refine misses_after_blanks (by decide) (P := Holds Q) ?_ ?_
    · rintro s s' hblanks ⟨s₁, s₂, v, rest, hcolon, h⟩
      exact ⟨s₁, s₂, v, rest, hblanks.trans hcolon, h⟩
    · intro x hx
      cases hx
      exact ⟨'0' :: z, _, _, _, z, .done _, .done _, .numeral Grammar.Numeral.zero z, hz⟩

/-! ## Conditions -/

def Closes (Q : List Char → Prop) (s : List Char) : Prop :=
  ∃ as rest, Grammar.Attributes Grammar.Numeral s as rest ∧ Q rest

theorem Closes.cons {s₁ s₂ : List Char} {key : String} (front : Blanks s s₁) (name : Key s₁ key s₂)
    (h : Holds (fun s => ∃ s', Separator s s' ∧ Closes Q s') s₂) : Closes Q s := by
  obtain ⟨s₃, s₄, v, s₅, hcolon, hgap, hvalue, s₆, hseparator, as, rest, hmore, h⟩ := h
  exact ⟨(key, v) :: as, rest, .cons front name hcolon hgap hvalue hseparator hmore, h⟩

theorem Closes.blanks (hblanks : Blanks s s') (h : Closes Q s') : Closes Q s := by
  obtain ⟨as, rest, has, h⟩ := h
  refine ⟨as, rest, ?_, h⟩
  cases has with
  | close hclose => exact .close (hblanks.trans hclose)
  | cons front name colon gap holds separator more =>
    exact .cons (hblanks.trans front) name colon gap holds separator more

theorem closes_brace {z : List Char} (hz : Q z) : Closes Q ('}' :: z) :=
  ⟨[], z, .close (.done _), hz⟩

theorem misses_attributes (hQ : ∃ z, Q z) {c : Condition} (h : attributes c s = .error f) :
    Misses (Closes Q) s f := by
  obtain ⟨z, hz⟩ := hQ
  fun_induction attributes c s with
  | case1 c s key s₁ hk v s₂ hv ih =>
    have hname := (Grammar.front_blanks (Blank.blanks_skip s)).comp_closed
      (Grammar.closed_key (key_of_key? hk))
    obtain ⟨s₃, s₄, hcolon, hgap, hvalue⟩ := exists_blanks_of_attributeValue hv
    have hholds := (Grammar.closed_sign (by decide) hcolon).comp
      ((Grammar.front_blanks hgap).comp_closed (Grammar.closed_valueText hvalue))
    have hmore := Grammar.front_separator (separator_separator s₂)
    refine (ih h).after (hname.front.comp (hholds.front.comp hmore)) ?_
    rintro _ _ ⟨_, ⟨_, front, name⟩, _, ⟨_, colon, _, gap, holds⟩, separator⟩ hcloses
    exact .cons front name ⟨_, _, _, _, colon, gap, holds, _, separator, hcloses⟩
  | case2 c s key s₁ hk f' hv =>
    cases h
    have hname := (Grammar.front_blanks (Blank.blanks_skip s)).comp_closed
      (Grammar.closed_key (key_of_key? hk))
    have hnext : ∃ z, ∃ s', Separator z s' ∧ Closes Q s' :=
      ⟨'}' :: z, _, .none (.done _), closes_brace hz⟩
    refine (misses_attributeValue hnext hv).after hname.front ?_
    rintro _ _ ⟨_, front, name⟩ hholds
    exact .cons front name hholds
  | case3 => cases h
  | case4 c s hk hbrace =>
    cases h
    refine misses_after_blanks (by decide) (fun _ _ => Closes.blanks) ?_
    intro x hx
    cases hx with
    | closeBrace => exact ⟨z, closes_brace hz⟩
    | pair name colon gap holds =>
      have hattribute := (Grammar.closed_key name).comp ((Grammar.closed_sign (by decide) colon).comp
        ((Grammar.front_blanks gap).comp_closed (Grammar.closed_valueText holds)))
      obtain ⟨_, name, _, colon, _, gap, holds⟩ := hattribute.append ('}' :: z)
      exact ⟨'}' :: z, .cons (.done _) name
        ⟨_, _, _, _, colon, gap, holds, _, .none (.done _), closes_brace hz⟩⟩

/-! ## Groups -/

theorem misses_openBracket (hQ : ∃ z, Q z) (h : openBracket s = .error f) :
    Misses (fun s => ∃ s', Blanks s ('[' :: s') ∧ Q s') s f := by
  obtain ⟨z, hz⟩ := hQ
  unfold openBracket at h
  split at h
  · cases h
  · cases h
    refine misses_after_blanks (by decide)
      (P := fun s => ∃ s', Blanks s ('[' :: s') ∧ Q s') ?_ ?_
    · rintro s s' hblanks ⟨s₁, hbracket, h⟩
      exact ⟨s₁, hblanks.trans hbracket, h⟩
    · intro x hx
      cases hx
      exact ⟨z, z, .done _, hz⟩

/-- The rest of all open groups, and then nothing but blanks. -/
def Ends (outer : List Group) (inner : Group) (s : List Char) : Prop :=
  ∃ g rest, Finishes outer inner s g rest ∧ Blanks rest []

theorem blanks_entries {items : List Condition} {groups : List Group} (hblanks : Blanks s s')
    (h : Entries Grammar.Numeral s' items groups rest) :
    Entries Grammar.Numeral s items groups rest := by
  cases h with
  | close hclose => exact .close (hblanks.trans hclose)
  | condition front condition separator more =>
    exact .condition (hblanks.trans front) condition separator more
  | group front bracket inner separator more =>
    exact .group (hblanks.trans front) bracket inner separator more

variable {outer : List Group} {inner : Group}

theorem Ends.blanks (hblanks : Blanks s s') (h : Ends outer inner s') : Ends outer inner s := by
  obtain ⟨g, rest, hfinishes, hrest⟩ := h
  refine ⟨g, rest, ?_, hrest⟩
  cases outer with
  | nil =>
    obtain ⟨items, groups, hentries, hg⟩ := hfinishes
    exact ⟨items, groups, blanks_entries hblanks hentries, hg⟩
  | cons parent outer =>
    obtain ⟨items, groups, s₁, s₂, hentries, hmore⟩ := hfinishes
    exact ⟨items, groups, s₁, s₂, blanks_entries hblanks hentries, hmore⟩

def closers (outer : List Group) : List Char := ']' :: outer.map fun _ => ']'

theorem ends_closers (outer : List Group) (inner : Group) : Ends outer inner (closers outer) := by
  induction outer generalizing inner with
  | nil => exact ⟨inner, [], ⟨[], [], .close (.done _), (extend_nil inner).symm⟩, .done []⟩
  | cons parent outer ih =>
    obtain ⟨g, rest, hfinishes, hrest⟩ := ih (parent.addGroup (extend inner [] []))
    exact ⟨g, rest, ⟨[], [], _, _, .close (.done _), .none (.done _), hfinishes⟩, hrest⟩

theorem Ends.condition {s₁ s₂ s₃ : List Char} {as : List (String × Value)}
    (front : Blanks s ('{' :: s₁)) (has : Grammar.Attributes Grammar.Numeral s₁ as s₂)
    (separator : Separator s₂ s₃) (h : Ends outer (inner.addItem (.ofList as)) s₃) :
    Ends outer inner s := by
  obtain ⟨g, rest, hfinishes, hrest⟩ := h
  exact ⟨g, rest, hfinishes.condition front has separator, hrest⟩

theorem Ends.group {s₁ s₂ : List Char} {o : Option Operator}
    (front : Blanks s (Keyword.print o ++ s₁)) (bracket : Blanks s₁ ('[' :: s₂))
    (h : Ends (inner :: outer) ⟨o, [], []⟩ s₂) : Ends outer inner s := by
  obtain ⟨g, rest, ⟨items, groups, s₃, s₄, hentries, hseparator, hfinishes⟩, hrest⟩ := h
  rw [extend_empty] at hfinishes
  exact ⟨g, rest, hfinishes.group front bracket hentries hseparator, hrest⟩

theorem Ends.close {parent : Group} {s₁ s₂ : List Char} (front : Blanks s (']' :: s₁))
    (separator : Separator s₁ s₂) (h : Ends outer (parent.addGroup inner) s₂) :
    Ends (parent :: outer) inner s := by
  obtain ⟨g, rest, hfinishes, hrest⟩ := h
  refine ⟨g, rest, ⟨[], [], s₁, s₂, .close front, separator, ?_⟩, hrest⟩
  rwa [extend_nil]

theorem exists_ends_of_meets {x : List Char} (h : Expectation.entry.Meets x) :
    ∃ y, Ends outer inner (x ++ y) := by
  cases h with
  | closeBracket => exact ⟨outer.map fun _ => ']', ends_closers outer inner⟩
  | condition h =>
    exact ⟨closers outer, .condition (.done _) ((Grammar.closed_attributes h).append _)
      (.none (.done _)) (ends_closers ..)⟩
  | group o bracket entries =>
    obtain ⟨_, bracket, entries⟩ := ((Grammar.closed_sign (by decide) bracket).comp
      (Grammar.closed_entries entries)).append (closers outer)
    obtain ⟨g, rest, hfinishes, hrest⟩ := ends_closers outer (inner.addGroup ⟨o, _, _⟩)
    refine ⟨closers outer, g, rest, ?_, hrest⟩
    rw [List.append_assoc]
    exact hfinishes.group (.done _) bracket entries (.none (.done _))

theorem misses_entries (h : entries outer inner s = .error f) : Misses (Ends outer inner) s f := by
  have hskip := Blank.blanks_skip s
  fun_induction entries outer inner s with
  | case1 outer inner s s₁ hbrace c s₂ hc ih =>
    obtain ⟨as, has, rfl⟩ := exists_attributes hc
    have hcondition := (Grammar.closed_sign (by decide) (hbrace ▸ hskip)).comp
      (Grammar.closed_attributes has)
    have hmore := Grammar.front_separator (separator_separator s₂)
    refine (ih h (Blank.blanks_skip _)).after (hcondition.front.comp hmore) ?_
    rintro _ _ ⟨_, ⟨_, front, has⟩, separator⟩ hends
    exact .condition front has separator hends
  | case2 outer inner s s₁ hbrace f' hc =>
    cases h
    have hnext : ∃ z, ∀ as, ∃ s', Separator z s' ∧ Ends outer (inner.addItem (.ofList as)) s' :=
      ⟨closers outer, fun as => ⟨_, .none (.done _), ends_closers ..⟩⟩
    refine (misses_attributes hnext hc).after
      (Grammar.closed_sign (by decide) (hbrace ▸ hskip)).front ?_
    rintro _ _ front ⟨as, rest, has, hmore⟩
    obtain ⟨_, separator, hends⟩ := hmore as
    exact .condition front has separator hends
  | case3 => cases h
  | case4 inner s s₁ hbracket parent outer ih =>
    have hclose := Grammar.closed_sign (by decide) (hbracket ▸ hskip)
    have hmore := Grammar.front_separator (separator_separator s₁)
    refine (ih h (Blank.blanks_skip _)).after (hclose.front.comp hmore) ?_
    rintro _ _ ⟨_, front, separator⟩ hends
    exact .close front separator hends
  | case5 outer inner s o s₁ s₂ hb _ _ hk ih =>
    rw [append_of_keyword hk] at hskip
    have hopen := (Grammar.closed_keyword hskip).comp
      (Grammar.closed_sign (by decide) (blanks_of_openBracket hb))
    refine (ih h (Blank.blanks_skip _)).after hopen.front ?_
    rintro _ _ ⟨_, front, bracket⟩ hends
    exact .group front bracket hends
  | case6 outer inner s o s₁ f' hb _ _ hk =>
    cases h
    rw [append_of_keyword hk] at hskip
    have hnext : ∃ z, Ends (inner :: outer) ⟨o, [], []⟩ z := ⟨_, ends_closers ..⟩
    refine (misses_openBracket hnext hb).after (Grammar.closed_keyword hskip).front ?_
    rintro _ _ front ⟨_, bracket, hends⟩
    exact .group front bracket hends
  | case7 =>
    cases h
    exact misses_after_blanks (by decide) (fun _ _ => Ends.blanks)
      fun _ => exists_ends_of_meets

def InNotation (s : List Char) : Prop := ∃ g, Derives Grammar.Numeral s g

theorem inNotation_of_ends {s₁ s₂ : List Char} {o : Option Operator}
    (front : Blanks s (Keyword.print o ++ s₁)) (bracket : Blanks s₁ ('[' :: s₂))
    (h : Ends [] ⟨o, [], []⟩ s₂) : InNotation s := by
  obtain ⟨_, rest, ⟨items, groups, hentries, rfl⟩, hrest⟩ := h
  exact ⟨_, .text front bracket hentries hrest⟩

theorem misses_group (h : group s = .error f) : Misses InNotation s f := by
  have hskip := Blank.blanks_skip s
  unfold group at h
  split at h
  · rename_i o s₁ hk
    rw [append_of_keyword hk] at hskip
    cases hb : openBracket s₁ with
    | error f' =>
      rw [hb] at h
      cases h
      have hnext : ∃ z, Ends [] ⟨o, [], []⟩ z := ⟨_, ends_closers ..⟩
      refine (misses_openBracket hnext hb).after (Grammar.closed_keyword hskip).front ?_
      rintro _ _ front ⟨_, bracket, hends⟩
      exact inNotation_of_ends front bracket hends
    | ok s₂ =>
      rw [hb] at h
      have hopen := (Grammar.closed_keyword hskip).comp
        (Grammar.closed_sign (by decide) (blanks_of_openBracket hb))
      refine (misses_entries h).after hopen.front ?_
      rintro _ _ ⟨_, front, bracket⟩ hends
      exact inNotation_of_ends front bracket hends
  · cases h
    refine misses_after_blanks (by decide) (P := InNotation) ?_ ?_
    · rintro s s' hblanks ⟨_, ⟨front, bracket, hentries, back⟩⟩
      exact ⟨_, .text (hblanks.trans front) bracket hentries back⟩
    · intro x hx
      cases hx with
      | keyword o =>
        exact ⟨['[', ']'], inNotation_of_ends (.done _) (.done _) (ends_closers [] ⟨o, [], []⟩)⟩

theorem inNotation_of_group {g : Group} (hgroup : group s = .ok (g, s'))
    (hrest : Blank.skip s' = rest) (hne : rest ≠ []) : ∃ u, s = u ++ rest ∧ InNotation u := by
  obtain ⟨o, s₁, s₂, items, groups, front, bracket, hentries, rfl⟩ :=
    exists_entries_of_group hgroup
  have hwhole := (Grammar.closed_keyword front).comp
    ((Grammar.closed_sign (by decide) bracket).comp (Grammar.closed_entries hentries))
  have hblanks := hrest ▸ Blank.blanks_skip s'
  obtain ⟨u, heq, hu⟩ := hwhole.front.comp (Grammar.front_blanks hblanks)
  refine ⟨u, heq, ?_⟩
  -- No blank is left at the front, so a comment that ends there may end the text as well.
  obtain ⟨c, t, rfl⟩ := List.exists_cons_of_ne_nil hne
  have hfeed : c ≠ '\n' := by
    rintro rfl
    have hskip := Blank.skip_skip s'
    rw [hrest, Blank.skip_blank rfl] at hskip
    have hle := Blank.length_skip_le t
    rw [hskip, List.length_cons] at hle
    omega
  obtain ⟨_, ⟨_, front, _, bracket, hentries⟩, hback⟩ := hu [] (Grammar.endsAlike_nil hfeed t)
  rw [List.append_nil] at front
  exact ⟨_, .text front bracket hentries hback⟩

theorem misses_or_leftover (h : read s = .error f) :
    Misses InNotation s f ∨ f.expected = none ∧ ∃ u, s = u ++ f.rest ∧ InNotation u := by
  unfold read at h
  split at h
  · rename_i g s' hgroup
    split at h
    · cases h
    · rename_i hne
      cases h
      exact .inr ⟨rfl, inNotation_of_group hgroup rfl hne⟩
  · rename_i hgroup
    cases h
    exact .inl (misses_group hgroup)

end Notation

/-! ## Places in texts -/

theorem utf8ByteSize_ofList (s : List Char) : (String.ofList s).utf8ByteSize = byteLength s := by
  induction s with
  | nil => rfl
  | cons c s ih =>
    have hcons : String.ofList (c :: s) = String.singleton c ++ String.ofList s := by
      rw [← String.toList_inj]
      simp
    rw [hcons, String.utf8ByteSize_append, ih, String.utf8ByteSize_singleton, byteLength]

def Notation.Accepted (s : List Char) : Prop := ∃ g, Group.ofText (String.ofList s) = .ok g

theorem Notation.accepted_iff {s : List Char} : Accepted s ↔ InNotation s := by
  simp only [Accepted, Group.ofText, String.toList_ofList, read_eq_ok_iff]
  rfl

namespace Failure

open Notation (Accepted Stuck Viable accepted_iff)

variable {text : String} {f : Failure}

/-- A failure says where a text goes wrong, and what could stand there. -/
structure PointsInto (f : Failure) (text : String) : Prop where
  split : f.before text.toList ++ f.rest = text.toList
  offset_eq : f.offset text.toList = (String.ofList (f.before text.toList)).utf8ByteSize
  offset_le : f.offset text.toList ≤ text.utf8ByteSize
  boundary : String.Pos.Raw.IsValid text ⟨f.offset text.toList⟩
  leftover : f.expected = none → Accepted (f.before text.toList)
  expected : ∀ e, f.expected = some e → ∃ u w, f.before text.toList = u ++ w ∧
    Stuck e w f.rest ∧ Viable Accepted e u

theorem before_append (u : List Char) : f.before (u ++ f.rest) = u := by
  simp [before]

theorem pointsInto_of_split {u : List Char} (hsplit : text.toList = u ++ f.rest)
    (leftover : f.expected = none → Accepted u)
    (expected : ∀ e, f.expected = some e → ∃ v w, u = v ++ w ∧ Stuck e w f.rest ∧
      Viable Accepted e v) : f.PointsInto text := by
  have hbefore : f.before text.toList = u := by rw [hsplit, before_append]
  have htext : text = String.ofList u ++ String.ofList f.rest := by
    rw [← String.toList_inj, hsplit]
    simp
  have hoffset : f.offset text.toList = (String.ofList u).utf8ByteSize := by
    rw [offset, hbefore, utf8ByteSize_ofList]
  constructor
  case split => rw [hbefore, hsplit]
  case offset_eq => rw [hbefore, hoffset]
  case offset_le =>
    rw [hoffset, htext, String.utf8ByteSize_append]
    exact Nat.le_add_right ..
  case boundary =>
    rw [hoffset]
    exact String.Pos.Raw.isValid_iff_exists_append.2 ⟨_, _, htext, rfl⟩
  case leftover => rwa [hbefore]
  case expected => rwa [hbefore]

theorem pointsInto_of_ofText (h : Group.ofText text = .error f) : f.PointsInto text := by
  rcases Notation.misses_or_leftover h with hmisses | ⟨hnone, u, hsplit, hu⟩
  · obtain ⟨e, v, w, he, hsplit, hstuck, hviable⟩ := hmisses
    rw [← List.append_assoc] at hsplit
    refine pointsInto_of_split hsplit (fun hnone => ?_) fun e' he' => ?_
    · cases he.symm.trans hnone
    · cases he.symm.trans he'
      refine ⟨v, w, rfl, hstuck, fun x hx => ?_⟩
      obtain ⟨y, hy⟩ := hviable x hx
      exact ⟨y, accepted_iff.2 hy⟩
  · refine pointsInto_of_split hsplit (fun _ => accepted_iff.2 hu) fun e he => ?_
    cases hnone.symm.trans he

/-- A run of digits with two points, after a comment with a character of two bytes. -/
theorem pointsInto_of_ofText_two_points :
    let text := "or [ #\u00e9\n\x7ba: -1.2.3\x7d]"
    let f : Failure := ⟨some .value, ['}', ']']⟩
    Group.ofText text = .error f ∧ f.offset text.toList = 19 ∧ f.PointsInto text := by
  intro text f
  have hfailure : (match Group.ofText text with
      | .error f' => f' == f
      | .ok _ => false) = true := by decide +kernel
  have hrejected : Group.ofText text = .error f := by
    split at hfailure
    · rename_i heq
      rw [heq, eq_of_beq hfailure]
    · cases hfailure
  exact ⟨hrejected, by decide +kernel, pointsInto_of_ofText hrejected⟩

end Failure

end WhenClause
