import Mathlib.Order.Monotone.Basic
import WhenClause.Decimal.Basic

/-!
# Rounding to nearest

The numbers of the format, taken in the order of their words, form one strictly increasing
sequence that ends in infinity, which here counts as the number that would come after the largest
finite one. A fraction lies between two neighbours of the sequence or beyond its end, and the word
that it is rounded to is that of the nearer neighbour, the even word if both are equally near.
-/

namespace WhenClause.Binary64

theorem shiftLeft_lt_shiftLeft {a b : Nat} (h : a < b) (e : Nat) : a <<< e < b <<< e := by
  rw [Nat.shiftLeft_eq, Nat.shiftLeft_eq]
  exact Nat.mul_lt_mul_of_pos_right h (Nat.two_pow_pos e)

theorem unitsOfBits_of_significand {e m : Nat} (hlow : e = 0 ∨ exponentWeight ≤ m)
    (hhigh : m ≤ 2 * exponentWeight) : unitsOfBits (e * exponentWeight + m) = m <<< e := by
  have hfield : ∀ k r, r < exponentWeight → e * exponentWeight + m = k * exponentWeight + r →
      exponentField (e * exponentWeight + m) = k ∧
        (e * exponentWeight + m) % exponentWeight = r := by
    intro k r hr heq
    simp only [exponentField, exponentWeight] at *
    omega
  unfold unitsOfBits
  rcases Nat.lt_or_ge m exponentWeight with hm | hm
  · obtain rfl : e = 0 := hlow.resolve_right (Nat.not_le.2 hm)
    obtain ⟨hexponent, _⟩ := hfield 0 m hm rfl
    rw [if_pos hexponent]
    simp
  rcases Nat.lt_or_ge m (2 * exponentWeight) with hm' | hm'
  · obtain ⟨hexponent, hsignificand⟩ :=
      hfield (e + 1) (m - exponentWeight) (by omega) (by rw [Nat.succ_mul]; omega)
    rw [hexponent, hsignificand, if_neg e.succ_ne_zero, Nat.add_sub_cancel' hm]
    rfl
  · obtain rfl : m = 2 * exponentWeight := by omega
    obtain ⟨hexponent, hsignificand⟩ :=
      hfield (e + 2) 0 (by decide) (by rw [Nat.add_mul, Nat.add_zero])
    rw [hexponent, hsignificand, if_neg (e + 1).succ_ne_zero, Nat.shiftLeft_eq, Nat.shiftLeft_eq]
    rw [show e + 2 - 1 = e + 1 from rfl, Nat.pow_succ, Nat.add_zero, Nat.mul_comm 2, Nat.mul_assoc,
      Nat.mul_comm 2]

theorem exists_significand (bits : Nat) :
    ∃ e m, bits = e * exponentWeight + m ∧ (e = 0 ∨ exponentWeight ≤ m) ∧
      m < 2 * exponentWeight := by
  simp only [exponentWeight]
  rcases Nat.lt_or_ge bits 0x20000000000000 with h | h
  · exact ⟨0, bits, by omega, .inl rfl, h⟩
  · refine ⟨bits / 0x10000000000000 - 1, bits % 0x10000000000000 + 0x10000000000000, ?_, ?_, ?_⟩
    all_goals omega

theorem strictMono_unitsOfBits : StrictMono unitsOfBits := by
  apply strictMono_nat_of_lt_succ
  intro bits
  obtain ⟨e, m, rfl, hlow, hhigh⟩ := exists_significand bits
  rw [unitsOfBits_of_significand hlow (Nat.le_of_lt hhigh), Nat.add_assoc,
    unitsOfBits_of_significand (hlow.imp_right Nat.le_succ_of_le) hhigh]
  exact shiftLeft_lt_shiftLeft m.lt_succ_self e

theorem mul_unitsOfBits_lt {d a b : Nat} (hd : 0 < d) (h : a < b) :
    unitsOfBits a * d < unitsOfBits b * d :=
  Nat.mul_lt_mul_of_pos_right (strictMono_unitsOfBits h) hd

/-- How far the number of a word is from `n / d`, in units and times `d`. -/
def error (n d bits : Nat) : Nat :=
  Int.natAbs ((unitsOfBits bits * d : Nat) - (n * unitsPerOne : Nat))

/-- Every other number is farther from `n / d`, or as far and the word is even. -/
structure IsNearest (n d bits : Nat) : Prop where
  le : bits ≤ infinityBits
  nearest : ∀ other ≤ infinityBits, other ≠ bits →
    error n d bits < error n d other ∨ error n d bits = error n d other ∧ bits % 2 = 0

variable {n d bits : Nat}

theorem IsNearest.unique {bits' : Nat} (hd : 0 < d) (h : IsNearest n d bits)
    (h' : IsNearest n d bits') : bits = bits' := by
  have hlt : ∀ {a b : Nat}, a < b → unitsOfBits a * d < unitsOfBits b * d :=
    mul_unitsOfBits_lt hd
  -- Of two words equally near both would be even, and the word after the first one would be nearer.
  have hnot : ∀ {a b : Nat}, IsNearest n d a → IsNearest n d b → ¬ a < b := by
    intro a b ha hb hab
    have hfar := ha.nearest b hb.le (by omega)
    have hfar' := hb.nearest a ha.le (by omega)
    have hble := hb.le
    have hbetween : a + 1 < b := by omega
    have hmiddle := ha.nearest (a + 1) (by omega) (by omega)
    have hlow := hlt (Nat.lt_add_one a)
    have hhigh := hlt hbetween
    simp only [error] at hfar hfar' hmiddle
    generalize n * unitsPerOne = target at *
    omega
  rcases Nat.lt_trichotomy bits bits' with hlt | heq | hgt
  · exact absurd hlt (hnot h h')
  · exact heq
  · exact absurd hgt (hnot h' h)

theorem isNearest_of_exact (hd : 0 < d) (hle : bits ≤ infinityBits)
    (h : unitsOfBits bits * d = n * unitsPerOne) : IsNearest n d bits where
  le := hle
  nearest other _ hne := by
    left
    have hbelow := @mul_unitsOfBits_lt d other bits hd
    have habove := @mul_unitsOfBits_lt d bits other hd
    simp only [error, ← h]
    omega

theorem significand_bounds (n d : Nat) :
    let e := (n / d).log2 - 52
    (e = 0 ∨ exponentWeight ≤ n / (d <<< e)) ∧ n / (d <<< e) < 2 * exponentWeight := by
  intro e
  have hquotient : n / (d <<< e) = n / d / 2 ^ e := by
    rw [Nat.shiftLeft_eq, Nat.div_div_eq_div_mul]
  rw [hquotient]
  have hweight : exponentWeight = 2 ^ 52 := by decide
  rw [hweight]
  by_cases hq : n / d = 0
  · simp [e, hq]
  have hlog : 2 ^ (n / d).log2 ≤ n / d := Nat.log2_self_le hq
  have hlog' : n / d < 2 ^ ((n / d).log2 + 1) := Nat.lt_log2_self
  constructor
  · rcases Nat.lt_or_ge (n / d).log2 53 with hlt | hge
    · exact .inl (by omega)
    · right
      rw [Nat.le_div_iff_mul_le (Nat.two_pow_pos e), ← Nat.pow_add]
      rwa [show 52 + e = (n / d).log2 by omega]
  · rw [Nat.div_lt_iff_lt_mul (Nat.two_pow_pos e), ← Nat.pow_succ', ← Nat.pow_add]
    exact Nat.lt_of_lt_of_le hlog' (Nat.pow_le_pow_right (by decide) (by omega))

theorem roundHalfEven_cases (n d : Nat) :
    roundHalfEven n d = n / d ∧ (2 * (n % d) < d ∨ 2 * (n % d) = d ∧ n / d % 2 = 0) ∨
      roundHalfEven n d = n / d + 1 ∧ (d < 2 * (n % d) ∨ 2 * (n % d) = d ∧ n / d % 2 = 1) := by
  have hparity := Nat.mod_two_eq_zero_or_one (n / d)
  unfold roundHalfEven
  split
  · exact .inl ⟨rfl, .inl ‹_›⟩
  split
  · exact .inr ⟨rfl, .inl ‹_›⟩
  · have htie : 2 * (n % d) = d := by omega
    rcases hparity with heven | hodd
    · exact .inl ⟨by rw [heven]; rfl, .inr ⟨htie, heven⟩⟩
    · exact .inr ⟨by rw [hodd], .inr ⟨htie, hodd⟩⟩

theorem isNearest_infinityBits (hd : 0 < d) (h : unitsOfBits infinityBits * d ≤ n * unitsPerOne) :
    IsNearest n d infinityBits where
  le := Nat.le_refl _
  nearest other hle hne := by
    left
    have hbelow := @mul_unitsOfBits_lt d other infinityBits hd (by omega)
    simp only [error]
    omega

theorem isNearest_of_between (hd : 0 < d) (hlow : unitsOfBits bits * d ≤ n * unitsPerOne)
    (hhigh : n * unitsPerOne < unitsOfBits (bits + 1) * d) (hle : bits < infinityBits) :
    let below := n * unitsPerOne - unitsOfBits bits * d
    let above := unitsOfBits (bits + 1) * d - n * unitsPerOne
    (below < above ∨ below = above ∧ bits % 2 = 0 → IsNearest n d bits) ∧
      (above < below ∨ below = above ∧ bits % 2 = 1 → IsNearest n d (bits + 1)) := by
  intro below above
  have hother : ∀ other, other < bits ∨ other = bits ∨ other = bits + 1 ∨ bits + 1 < other := by
    omega
  have hbelow : ∀ other, other < bits → unitsOfBits other * d < unitsOfBits bits * d :=
    fun other => mul_unitsOfBits_lt hd
  have habove : ∀ other, bits + 1 < other →
      unitsOfBits (bits + 1) * d < unitsOfBits other * d :=
    fun other => mul_unitsOfBits_lt hd
  constructor
  · intro hnear
    refine ⟨Nat.le_of_lt hle, fun other _ hne => ?_⟩
    simp only [error]
    rcases hother other with h | rfl | rfl | h
    · have := hbelow other h
      omega
    · exact absurd rfl hne
    · omega
    · have := habove other h
      omega
  · intro hnear
    refine ⟨hle, fun other _ hne => ?_⟩
    simp only [error]
    rcases hother other with h | rfl | rfl | h
    · have := hbelow other h
      omega
    · omega
    · exact absurd rfl hne
    · have := habove other h
      omega

theorem isNearest_nearestBits (n : Nat) {d : Nat} (hd : 0 < d) :
    IsNearest n d (nearestBits n d) := by
  simp only [nearestBits]
  obtain ⟨hsmall, hlarge⟩ := significand_bounds (n * unitsPerOne) d
  generalize (n * unitsPerOne / d).log2 - 52 = e at hsmall hlarge ⊢
  have hcases := roundHalfEven_cases (n * unitsPerOne) (d <<< e)
  have hsplit := Nat.div_add_mod (n * unitsPerOne) (d <<< e)
  have hstep : 0 < d <<< e := by
    rw [Nat.shiftLeft_eq]
    exact Nat.mul_pos hd (Nat.two_pow_pos e)
  have hmod := Nat.mod_lt (n * unitsPerOne) hstep
  generalize n * unitsPerOne / (d <<< e) = f at *
  generalize n * unitsPerOne % (d <<< e) = r at *
  -- The neighbours of the quotient are the words of the significands `f` and `f + 1`.
  have hscale : ∀ m, (m <<< e) * d = d <<< e * m := fun m => by
    simp only [Nat.shiftLeft_eq, Nat.mul_comm, Nat.mul_left_comm]
  have hlow : unitsOfBits (e * exponentWeight + f) * d = d <<< e * f := by
    rw [unitsOfBits_of_significand hsmall (Nat.le_of_lt hlarge), hscale]
  have hhigh : unitsOfBits (e * exponentWeight + f + 1) * d = d <<< e * f + d <<< e := by
    rw [Nat.add_assoc, unitsOfBits_of_significand (hsmall.imp_right Nat.le_succ_of_le) hlarge,
      hscale, Nat.mul_succ]
  have hparity : (e * exponentWeight + f) % 2 = f % 2 := by
    simp only [exponentWeight]
    omega
  rcases Nat.lt_or_ge (e * exponentWeight + f) infinityBits with hfinite | hbeyond
  · obtain ⟨hdown, hup⟩ := isNearest_of_between (n := n) hd (by omega) (by omega) hfinite
    rcases hcases with ⟨heq, hnear⟩ | ⟨heq, hnear⟩
    · rw [heq, Nat.min_eq_left (by omega)]
      exact hdown (by omega)
    · rw [heq, ← Nat.add_assoc, Nat.min_eq_left (by omega)]
      exact hup (by omega)
  · rw [Nat.min_eq_right (by omega)]
    apply isNearest_infinityBits hd
    have hmono := Nat.mul_le_mul_right d (strictMono_unitsOfBits.monotone hbeyond)
    omega

theorem nearestBits_eq_iff (hd : 0 < d) : nearestBits n d = bits ↔ IsNearest n d bits := by
  constructor
  · rintro rfl
    exact isNearest_nearestBits n hd
  · exact (isNearest_nearestBits n hd).unique hd

theorem nearestBits_of_exact (hd : 0 < d) (hle : bits ≤ infinityBits)
    (h : unitsOfBits bits * d = n * unitsPerOne) : nearestBits n d = bits :=
  (nearestBits_eq_iff hd).2 (isNearest_of_exact hd hle h)

end WhenClause.Binary64
