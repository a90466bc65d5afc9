import WhenClause.Notation.Reader
import WhenClause.Proofs.Notation.Grammar

/-!
# Blanks, quoted text and numerals

What the grammar has is what the readers read, for the smallest parts of the notation. Readers take
the longest front that they can; the grammar does not ask for that, so that something is read whole
is known only if nothing follows that could have continued it.
-/

namespace WhenClause

open Grammar (Blanks LineEnd)

def Stops (p : Char → Bool) (s : List Char) : Prop := ∀ c ∈ s.head?, p c = false

theorem stops_cons {p : Char → Bool} {c : Char} {s : List Char} :
    Stops p (c :: s) ↔ p c = false := by
  simp [Stops]

theorem takeWhile_append {p : Char → Bool} {w rest : List Char} (hw : ∀ c ∈ w, p c = true)
    (hrest : Stops p rest) : (w ++ rest).takeWhile p = w := by
  rw [List.takeWhile_append_of_pos hw]
  cases rest with
  | nil => simp
  | cons c rest => simp [stops_cons.1 hrest]

theorem dropWhile_append {p : Char → Bool} {w rest : List Char} (hw : ∀ c ∈ w, p c = true)
    (hrest : Stops p rest) : (w ++ rest).dropWhile p = rest := by
  rw [List.dropWhile_append_of_pos hw]
  cases rest with
  | nil => simp
  | cons c rest => simp [stops_cons.1 hrest]

namespace Blank

theorem isBlank_iff {c : Char} : isBlank c = true ↔ c ∈ [' ', '\t', '\n', '\x0c', '\r'] := by
  simp [isBlank, or_assoc]

theorem exists_line_of_afterComment? {s rest : List Char} (h : afterComment? s = some rest) :
    ∃ line, s = line ++ rest ∧ (∀ c ∈ line, c ≠ '\n' ∧ c ≠ '\r') ∧ LineEnd rest := by
  fun_induction afterComment? s with
  | case1 =>
    cases h
    exact ⟨[], rfl, by simp, .text⟩
  | case2 s =>
    cases h
    exact ⟨[], rfl, by simp, .lineFeed s⟩
  | case3 s =>
    cases h
    exact ⟨[], rfl, by simp, .returnAndLineFeed s⟩
  | case4 => simp at h
  | case5 c s hfeed _ hreturn ih =>
    obtain ⟨line, rfl, hline, hend⟩ := ih h
    refine ⟨c :: line, rfl, fun d hd => ?_, hend⟩
    rcases List.mem_cons.1 hd with rfl | hd
    · exact ⟨fun hd => hfeed hd, fun hd => hreturn hd⟩
    · exact hline d hd

theorem blanks_skip (s : List Char) : Blanks s (skip s) := by
  fun_induction skip s with
  | case1 => exact .done []
  | case2 c rest hc ih => exact .blank (isBlank_iff.1 hc) ih
  | case3 c rest _ hsign rest' h ih =>
    obtain ⟨line, rfl, hline, hend⟩ := exists_line_of_afterComment? h
    obtain rfl : c = '#' := by simpa using hsign
    exact .comment hline hend ih
  | case4 => exact .done _
  | case5 => exact .done _

theorem afterComment?_append {line s : List Char} (hline : ∀ c ∈ line, c ≠ '\n' ∧ c ≠ '\r')
    (hend : LineEnd s) : afterComment? (line ++ s) = some s := by
  induction line with
  | nil => cases hend <;> rfl
  | cons c line ih =>
    obtain ⟨hfeed, hreturn⟩ := hline c (List.mem_cons_self ..)
    have hrest := ih fun d hd => hline d (List.mem_cons_of_mem _ hd)
    rw [List.cons_append, afterComment?]
    · exact hrest
    · exact fun h => hfeed h
    · exact fun _ h _ => hreturn h
    · exact fun h => hreturn h

theorem skip_comment {s rest : List Char} (h : afterComment? s = some rest) :
    skip ('#' :: s) = skip rest := by
  rw [skip]
  simp only [show isBlank '#' = false from rfl, Bool.false_eq_true, if_false, beq_self_eq_true,
    if_true]
  split
  · rename_i rest' h'
    cases h.symm.trans h'
    rfl
  · rename_i h'
    cases h.symm.trans h'

theorem skip_eq_of_blanks {s rest : List Char} (h : Blanks s rest) : skip s = skip rest := by
  induction h with
  | done => rfl
  | blank h _ ih => rw [skip_blank (isBlank_iff.2 h), ih]
  | comment h stop _ ih => rw [skip_comment (afterComment?_append h stop), ih]

theorem skip_skip (s : List Char) : skip (skip s) = skip s :=
  (skip_eq_of_blanks (blanks_skip s)).symm

def starts : List Char := [' ', '\t', '\n', '\x0c', '\r', '#']

theorem stops_of_blanks {p : Char → Bool} {s rest : List Char} (h : Blanks s rest)
    (hp : starts.all (fun c => !p c) = true) (hrest : Stops p rest) : Stops p s := by
  have hout : ∀ c ∈ starts, p c = false := by simpa using hp
  cases h with
  | done => exact hrest
  | blank h => exact stops_cons.2 (hout _ (List.mem_append_left ['#'] h))
  | comment => exact stops_cons.2 (hout '#' (by simp [starts]))

theorem skip_of_head {p : Char → Bool} {c : Char} {s : List Char} (hc : p c = true)
    (hp : starts.all (fun c => !p c) = true) : skip (c :: s) = c :: s := by
  have hout : ∀ d ∈ starts, p d = false := by simpa using hp
  have hne : ∀ d ∈ starts, c ≠ d := by
    rintro d hd rfl
    simp [hout c hd] at hc
  refine skip_cons (Bool.eq_false_iff.2 fun hblank => ?_) (hne '#' (by simp [starts]))
  exact hne c (List.mem_append_left ['#'] (isBlank_iff.1 hblank)) rfl

end Blank

namespace Quoted

theorem quoted_of_readBody? {s body rest : List Char} (h : readBody? s = some (body, rest)) :
    Grammar.Quoted s body rest := by
  fun_induction readBody? s generalizing body rest with
  | case1 => simp at h
  | case2 s =>
    cases h
    exact .close s
  | case3 => simp at h
  | case4 c s ih =>
    obtain ⟨⟨body, rest⟩, hr, ⟨⟩⟩ := Option.map_eq_some_iff.1 h
    have hmore := ih hr
    unfold unescape
    split
    · exact .quote hmore
    · exact .backslash hmore
    · exact .lineFeed hmore
    · exact .tab hmore
    · exact .pair (by simp_all) hmore
  | case5 c s hquote hnil hcons ih =>
    obtain ⟨⟨body, rest⟩, hr, ⟨⟩⟩ := Option.map_eq_some_iff.1 h
    refine .plain (fun hc => hquote hc) (fun hc => ?_) (ih hr)
    cases s with
    | nil => exact hnil hc rfl
    | cons d s => exact hcons d s hc rfl

theorem exists_quoted_of_read? {s body rest : List Char} (h : read? s = some (body, rest)) :
    ∃ t, s = '"' :: t ∧ Grammar.Quoted t body rest := by
  unfold read? at h
  split at h
  · exact ⟨_, rfl, quoted_of_readBody? h⟩
  · simp at h

theorem readBody?_of_quoted {s body rest : List Char} (h : Grammar.Quoted s body rest) :
    readBody? s = some (body, rest) := by
  induction h with
  | close => rfl
  | plain h h' _ ih =>
    rw [readBody?, ih]
    · rfl
    · exact fun hc => h hc
    · exact fun hc _ => h' hc
    · exact fun _ _ hc _ => h' hc
  | quote _ ih => rw [readBody?, ih]; rfl
  | backslash _ ih => rw [readBody?, ih]; rfl
  | lineFeed _ ih => rw [readBody?, ih]; rfl
  | tab _ ih => rw [readBody?, ih]; rfl
  | @pair c s body rest h _ ih =>
    have hpair : unescape c = ['\\', c] := by
      unfold unescape
      split <;> simp_all
    rw [readBody?, ih, Option.map_some, hpair]
    rfl

end Quoted

namespace Numeral

theorem digits_takeWhile {s : List Char} (h : s.takeWhile Char.isDigit ≠ []) :
    Grammar.Digits (s.takeWhile Char.isDigit) :=
  ⟨h, fun _ hc => List.all_eq_true.1 List.all_takeWhile _ hc⟩

theorem rounded_float {negative : Bool} {whole fraction : List Char} :
    Grammar.Rounded negative whole fraction
      (.ofSignBits negative (Decimal.ofDigits whole fraction).nearestBits) :=
  ⟨_, Binary64.isNearest_nearestBits _ (Nat.pow_pos (by decide)), rfl⟩

def Sound (s : List Char) (r : Value × List Char) : Prop :=
  ∃ w, s = w ++ r.2 ∧ Grammar.Numeral w r.1

theorem sound_float? {s : List Char} {r : Value × List Char} (h : float? s = some r) :
    Sound s r := by
  unfold float? at h
  split at h
  · simp at h
  · rename_i rest hrest hwhole
    split at h
    · simp at h
    · rename_i hfraction
      cases h
      have hsplit := List.takeWhile_append_dropWhile (p := Char.isDigit) (l := s)
      have hsplit' := List.takeWhile_append_dropWhile (p := Char.isDigit) (l := rest)
      refine ⟨s.takeWhile Char.isDigit ++ '.' :: rest.takeWhile Char.isDigit, ?_, ?_⟩
      · rw [List.append_assoc, List.cons_append, hsplit', ← hrest, hsplit]
      · exact .float (digits_takeWhile hwhole) (digits_takeWhile hfraction) rounded_float
  · simp at h

theorem sound_positive? {s : List Char} {r : Value × List Char} (h : positive? s = some r) :
    ∃ w n, s = w ++ r.2 ∧ r.1 = .int n ∧ Grammar.Positive w n := by
  unfold positive? at h
  split at h
  · simp at h
  · rename_i c s
    split at h
    · rename_i hc
      obtain ⟨hdigit, hzero⟩ := Bool.and_eq_true_iff.1 hc
      obtain ⟨n, hn, rfl⟩ := Option.map_eq_some_iff.1 h
      have hhead : (c :: s).takeWhile Char.isDigit = c :: s.takeWhile Char.isDigit := by
        simp [hdigit]
      refine ⟨_, n, List.takeWhile_append_dropWhile.symm, rfl, digits_takeWhile ?_, ?_, ?_⟩
      · simp [hhead]
      · simpa [hhead] using hzero
      · exact toInt_of_int64? hn
    · simp at h

theorem sound_integer? {s : List Char} {r : Value × List Char} (h : integer? s = some r) :
    Sound s r := by
  unfold integer? at h
  split at h
  · cases h
    exact ⟨['0'], rfl, .zero⟩
  · obtain ⟨w, n, rfl, hr, hw⟩ := sound_positive? h
    exact ⟨'+' :: w, rfl, hr ▸ .plus hw⟩
  · obtain ⟨w, n, rfl, hr, hw⟩ := sound_positive? h
    exact ⟨w, rfl, hr ▸ .positive hw⟩

theorem exists_dropWhile_eq {run : List Char} (hrun : ∀ c ∈ run, isDigitOrPoint c = true)
    (hpoint : '.' ∈ run) : ∃ fraction, run.dropWhile Char.isDigit = '.' :: fraction := by
  induction run with
  | nil => simp at hpoint
  | cons c run ih =>
    by_cases hc : c.isDigit
    · have hne : '.' ≠ c := by
        rintro rfl
        exact absurd hc (by decide)
      rw [List.dropWhile_cons_of_pos hc]
      exact ih (fun d hd => hrun d (List.mem_cons_of_mem _ hd))
        ((List.mem_cons.1 hpoint).resolve_left hne)
    · have hc' := hrun c (List.mem_cons_self ..)
      simp only [isDigitOrPoint, hc, Bool.false_or, beq_iff_eq] at hc'
      exact ⟨run, by rw [List.dropWhile_cons_of_neg hc, hc']⟩

theorem numeral_of_negative? {run : List Char} {v : Value} (h : negative? run = some v)
    (hne : run ≠ []) (hrun : ∀ c ∈ run, isDigitOrPoint c = true) :
    Grammar.Numeral ('-' :: run) v := by
  unfold negative? at h
  split at h
  · rename_i hpoint
    obtain ⟨fraction, hsplit⟩ := exists_dropWhile_eq hrun (by simpa using hpoint)
    simp only [hsplit, List.drop_one, List.tail_cons, Option.ite_none_right_eq_some,
      Bool.and_eq_true, List.all_eq_true, Option.some.injEq] at h
    obtain ⟨⟨hdigits, hsome⟩, rfl⟩ := h
    have hrun : run.takeWhile Char.isDigit ++ '.' :: fraction = run := by
      rw [← hsplit, List.takeWhile_append_dropWhile]
    have hnumeral : Grammar.Digits (run.takeWhile Char.isDigit ++ fraction) := by
      refine ⟨fun hnil => ?_, fun c hc => ?_⟩
      · obtain ⟨hwhole, hfraction⟩ := List.append_eq_nil_iff.1 hnil
        simp [hwhole, hfraction] at hsome
      · rcases List.mem_append.1 hc with hc | hc
        · exact List.all_eq_true.1 List.all_takeWhile c hc
        · exact hdigits c hc
    have hfloat := Grammar.Numeral.negativeFloat hnumeral rounded_float
    rwa [hrun] at hfloat
  · rename_i hpoint
    obtain ⟨n, hn, rfl⟩ := Option.map_eq_some_iff.1 h
    refine .negative ⟨hne, fun c hc => ?_⟩ (toInt_of_int64? hn)
    have hc' : c ≠ '.' := by
      rintro rfl
      exact hpoint (by simpa using hc)
    simpa [isDigitOrPoint, hc'] using hrun c hc

theorem sound_read {s : List Char} {r : Value × List Char} (h : read s = .ok r) : Sound s r := by
  unfold read at h
  split at h
  · rename_i s
    split at h
    · simp at h
    · rename_i hne
      split at h
      · rename_i v hv
        cases h
        refine ⟨'-' :: s.takeWhile isDigitOrPoint, ?_, numeral_of_negative? hv hne fun c hc => ?_⟩
        · exact congrArg ('-' :: ·) List.takeWhile_append_dropWhile.symm
        · exact List.all_eq_true.1 List.all_takeWhile c hc
      · simp at h
  · split at h
    · rename_i hr
      cases h
      rcases Option.or_eq_some_iff.1 hr with hr | ⟨_, hr⟩
      · exact sound_float? hr
      · exact sound_integer? hr
    · simp at h

theorem isDigitOrPoint_of_isDigit {c : Char} (h : c.isDigit = true) : isDigitOrPoint c = true := by
  simp [isDigitOrPoint, h]

theorem stops_isDigit {s : List Char} (h : Stops isDigitOrPoint s) : Stops Char.isDigit s := by
  intro c hc
  have := h c hc
  simp only [isDigitOrPoint, Bool.or_eq_false_iff] at this
  exact this.1

theorem nearestBits_of_rounded {negative : Bool} {whole fraction : List Char} {x : Binary64}
    (h : Grammar.Rounded negative whole fraction x) :
    float negative (.ofDigits whole fraction) = .float x := by
  obtain ⟨bits, hnear, rfl⟩ := h
  have hbits : (Decimal.ofDigits whole fraction).nearestBits = bits :=
    (Binary64.nearestBits_eq_iff (Nat.pow_pos (by decide))).2 hnear
  rw [float, hbits]

theorem float?_append {whole fraction rest : List Char} {x : Binary64}
    (h : Grammar.Digits whole) (h' : Grammar.Digits fraction)
    (near : Grammar.Rounded false whole fraction x) (hrest : Stops isDigitOrPoint rest) :
    float? (whole ++ '.' :: fraction ++ rest) = some (.float x, rest) := by
  have hpoint : Stops Char.isDigit ('.' :: (fraction ++ rest)) := stops_cons.2 rfl
  have hstop := stops_isDigit hrest
  unfold float?
  rw [List.append_assoc, List.cons_append, takeWhile_append h.digits hpoint,
    dropWhile_append h.digits hpoint]
  split
  · exact absurd rfl h.nonempty
  · rename_i t _ heq
    cases heq
    rw [takeWhile_append h'.digits hstop, dropWhile_append h'.digits hstop]
    split
    · exact absurd rfl h'.nonempty
    · rw [nearestBits_of_rounded near]
  · rename_i hother
    exact absurd rfl (hother _)

theorem float?_of_digits {w rest : List Char} (h : ∀ c ∈ w, c.isDigit = true)
    (hrest : Stops isDigitOrPoint rest) : float? (w ++ rest) = none := by
  have hstop := stops_isDigit hrest
  unfold float?
  rw [takeWhile_append h hstop, dropWhile_append h hstop]
  split
  · rfl
  · have := stops_cons.1 hrest
    simp [isDigitOrPoint] at this
  · rfl

theorem positive?_append {w rest : List Char} {n : Int64} (h : Grammar.Positive w n)
    (hrest : Stops isDigitOrPoint rest) : positive? (w ++ rest) = some (.int n, rest) := by
  have hstop := stops_isDigit hrest
  obtain ⟨⟨hne, hdigits⟩, hzero, hexact⟩ := h
  have htake := takeWhile_append hdigits hstop
  have hdrop := dropWhile_append hdigits hstop
  cases w with
  | nil => exact absurd rfl hne
  | cons c w =>
    have hc : (c.isDigit && c != '0') = true := by
      simpa [hdigits c (List.mem_cons_self ..)] using hzero
    have hn : int64? (natural (c :: w)) = some n := by
      rw [natural, ← hexact, int64?_toInt]
    rw [List.cons_append] at htake hdrop ⊢
    simp only [positive?, hc, if_true, htake, hdrop, hn, Option.map_some]

theorem negative?_of_digits {w : List Char} {n : Int64} (h : Grammar.Digits w)
    (exact : n.toInt = -Nat.ofDigitChars 10 w 0) : negative? w = some (.int n) := by
  have hpoint : w.contains '.' = false := by
    apply Bool.eq_false_iff.2
    intro hmem
    exact absurd (h.digits '.' (by simpa using hmem)) (by decide)
  have hn : int64? (-natural w) = some n := by rw [natural, ← exact, int64?_toInt]
  simp only [negative?, hpoint, Bool.false_eq_true, if_false, hn, Option.map_some]

theorem negative?_of_rounded {whole fraction : List Char} {x : Binary64}
    (h : Grammar.Digits (whole ++ fraction)) (near : Grammar.Rounded true whole fraction x) :
    negative? (whole ++ '.' :: fraction) = some (.float x) := by
  have hwhole : ∀ c ∈ whole, c.isDigit = true := fun c hc =>
    h.digits c (List.mem_append_left _ hc)
  have hfraction : fraction.all Char.isDigit = true := List.all_eq_true.2 fun c hc =>
    h.digits c (List.mem_append_right _ hc)
  have hpoint : Stops Char.isDigit ('.' :: fraction) := stops_cons.2 rfl
  have hsome : (whole.isEmpty && fraction.isEmpty) = false := by
    refine Bool.eq_false_iff.2 fun hnil => h.nonempty ?_
    simpa using hnil
  have hmem : (whole ++ '.' :: fraction).contains '.' = true := by simp
  simp only [negative?, hmem, if_true, takeWhile_append hwhole hpoint,
    dropWhile_append hwhole hpoint, List.drop_one, List.tail_cons, hfraction, hsome, Bool.not_false,
    Bool.and_self, nearestBits_of_rounded near]

theorem read_negative {run rest : List Char} {v : Value} (h : negative? run = some v)
    (hne : run ≠ []) (hrun : ∀ c ∈ run, isDigitOrPoint c = true)
    (hrest : Stops isDigitOrPoint rest) : read ('-' :: run ++ rest) = .ok (v, rest) := by
  rw [List.cons_append, read, takeWhile_append hrun hrest, dropWhile_append hrun hrest]
  split
  · exact absurd rfl hne
  · rw [h]

theorem read_of_ne {s : List Char} {r : Value × List Char} (hsign : s.head? ≠ some '-')
    (h : (float? s).or (integer? s) = some r) : read s = .ok r := by
  unfold read
  split
  · exact absurd rfl hsign
  · rw [h]

theorem exists_head_of_digits {w : List Char} (h : Grammar.Digits w) :
    ∃ c t, w = c :: t ∧ c.isDigit = true := by
  cases w with
  | nil => exact absurd rfl h.nonempty
  | cons c t => exact ⟨c, t, rfl, h.digits c (List.mem_cons_self ..)⟩

theorem head_of_numeral {w : List Char} {v : Value} (h : Grammar.Numeral w v) :
    (∃ c t, w = c :: t ∧ (c.isDigit = true ∨ c = '+')) ∨
      ∃ c t, w = '-' :: c :: t ∧ isDigitOrPoint c = true := by
  cases h with
  | zero => exact .inl ⟨'0', [], rfl, .inl rfl⟩
  | positive h =>
    obtain ⟨c, t, rfl, hc⟩ := exists_head_of_digits h.digits
    exact .inl ⟨c, t, rfl, .inl hc⟩
  | plus h => exact .inl ⟨'+', _, rfl, .inr rfl⟩
  | negative h =>
    obtain ⟨c, t, rfl, hc⟩ := exists_head_of_digits h
    exact .inr ⟨c, t, rfl, isDigitOrPoint_of_isDigit hc⟩
  | float h =>
    obtain ⟨c, t, rfl, hc⟩ := exists_head_of_digits h
    exact .inl ⟨c, _, rfl, .inl hc⟩
  | @negativeFloat whole fraction _ h =>
    cases whole with
    | nil => exact .inr ⟨'.', fraction, rfl, rfl⟩
    | cons c t =>
      exact .inr ⟨c, _, rfl, isDigitOrPoint_of_isDigit (h.digits c (List.mem_cons_self ..))⟩

theorem ne_of_isDigit {c d : Char} (hc : c.isDigit = true) (hd : d.isDigit = false) : c ≠ d := by
  rintro rfl
  simp [hc] at hd

theorem integer?_of_ne {c : Char} {s : List Char} (hzero : c ≠ '0') (hplus : c ≠ '+') :
    integer? (c :: s) = positive? (c :: s) := by
  unfold integer?
  split <;> simp_all

theorem read_append {w rest : List Char} {v : Value} (h : Grammar.Numeral w v)
    (hrest : Stops isDigitOrPoint rest) : read (w ++ rest) = .ok (v, rest) := by
  cases h with
  | zero =>
    apply read_of_ne (by simp)
    rw [float?_of_digits (by simp) hrest]
    rfl
  | positive h =>
    obtain ⟨c, t, rfl, hc⟩ := exists_head_of_digits h.digits
    refine read_of_ne ?_ ?_
    · simpa using ne_of_isDigit hc (d := '-') rfl
    · have hzero : c ≠ '0' := by simpa using h.nonzero
      have hpositive := positive?_append h hrest
      rw [float?_of_digits h.digits.digits hrest, List.cons_append,
        integer?_of_ne hzero (ne_of_isDigit hc rfl), Option.none_or]
      exact hpositive
  | @plus s n h =>
    apply read_of_ne (by simp)
    have hfloat : float? ('+' :: s ++ rest) = none := by
      simp [float?, show Char.isDigit '+' = false from rfl]
    rw [hfloat, Option.none_or]
    exact positive?_append h hrest
  | negative h exact =>
    exact read_negative (negative?_of_digits h exact) h.nonempty
      (fun c hc => isDigitOrPoint_of_isDigit (h.digits c hc)) hrest
  | @float whole fraction x h h' near =>
    obtain ⟨c, t, rfl, hc⟩ := exists_head_of_digits h
    refine read_of_ne ?_ ?_
    · simpa using ne_of_isDigit hc (d := '-') rfl
    · rw [float?_append h h' near hrest]
      rfl
  | @negativeFloat whole fraction x h near =>
    refine read_negative (negative?_of_rounded h near) (by simp) (fun c hc => ?_) hrest
    simp only [List.mem_append, List.mem_cons] at hc
    rcases hc with hc | rfl | hc
    · exact isDigitOrPoint_of_isDigit (h.digits c (List.mem_append_left _ hc))
    · rfl
    · exact isDigitOrPoint_of_isDigit (h.digits c (List.mem_append_right _ hc))

end Numeral

end WhenClause
