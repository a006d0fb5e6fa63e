import EventQuery.Decimal.Shortest
import Mathlib.Tactic.Ring

/-!
# Rounding naturals to binary numbers

Which binary number a natural is rounded to. `Decimal.spanOf` gives the
interval of a binary number in quarters of its last bit; for a whole number
that has at least two bits more than are kept, the naturals that round to it
are exactly those in the interval (`Binary64.nearest_eq_iff`). From 64 bits on
every natural rounds to such a number, unless it is out of range
(`Binary64.nearest_large`).
-/

namespace EventQuery

/-! ## Rounding a quotient -/

theorem roundDiv_toEven_iff {num den q : Nat} (hden : 0 < den) :
    roundDiv .toEven num den = q ↔
      (2 * (q * den) < 2 * num + den ∧ 2 * num < 2 * (q * den) + den) ∨
      (q % 2 = 0 ∧ (2 * num + den = 2 * (q * den) ∨ 2 * num = 2 * (q * den) + den)) := by
  have hsplit : num / den * den + num % den = num := Nat.div_add_mod' num den
  have hlt : num % den < den := Nat.mod_lt _ hden
  have hnext : (num / den + 1) * den = num / den * den + den := Nat.succ_mul _ _
  unfold roundDiv
  rcases Nat.lt_trichotomy q (num / den) with hq | rfl | hq
  · have hbelow : (q + 1) * den ≤ num / den * den := Nat.mul_le_mul_right den hq
    rw [Nat.succ_mul] at hbelow
    dsimp only
    split_ifs <;> omega
  · dsimp only
    split_ifs <;> omega
  · rcases Nat.eq_or_lt_of_le hq with rfl | hq
    · rw [Nat.succ_eq_add_one, hnext]
      dsimp only
      split_ifs <;> omega
    · have habove : (num / den + 1 + 1) * den ≤ q * den := Nat.mul_le_mul_right den hq
      rw [Nat.succ_mul, hnext] at habove
      dsimp only
      split_ifs <;> omega

/-- What lies between two multiples is not rounded beyond them. -/
theorem roundDiv_toEven_bounds {num den low high : Nat} (hden : 0 < den) (hlow : low * den ≤ num)
    (hhigh : num ≤ high * den) :
    low ≤ roundDiv .toEven num den ∧ roundDiv .toEven num den ≤ high := by
  obtain ⟨q, hq⟩ : ∃ q, roundDiv .toEven num den = q := ⟨_, rfl⟩
  have hround := (roundDiv_toEven_iff hden).mp hq
  rw [hq]
  constructor
  · by_contra hless
    have hstep : (q + 1) * den ≤ low * den := Nat.mul_le_mul_right _ (Nat.lt_of_not_le hless)
    rw [Nat.succ_mul] at hstep
    omega
  · by_contra hmore
    have hstep : (high + 1) * den ≤ q * den := Nat.mul_le_mul_right _ (Nat.lt_of_not_le hmore)
    rw [Nat.succ_mul] at hstep
    omega

/-! ## The binary number nearest to a natural -/

namespace Binary64

theorem exponentOf_one {a : Nat} (ha : a ≠ 0) : exponentOf a 1 = (Nat.log2 a : Int) - 52 := by
  have hlow : 2 ^ Nat.log2 a ≤ a := Nat.log2_self_le ha
  have hone : Nat.log2 1 = 0 := by decide
  have hscaled : Nat.pow 2 52 ≤
      (scaled a 1 ((Nat.log2 a : Int) - 52)).1 / (scaled a 1 ((Nat.log2 a : Int) - 52)).2 := by
    unfold scaled
    split
    · next hexp =>
        obtain ⟨k, hk⟩ : ∃ k, Nat.log2 a = k + 52 := ⟨Nat.log2 a - 52, by omega⟩
        have htoNat : ((Nat.log2 a : Int) - 52).toNat = k := by omega
        rw [hk, Nat.pow_add, Nat.mul_comm] at hlow
        rw [htoNat, Nat.one_mul]
        exact (Nat.le_div_iff_mul_le (Nat.pow_pos Nat.two_pos)).mpr hlow
    · next hexp =>
        obtain ⟨k, hk⟩ : ∃ k, Nat.log2 a + k = 52 := ⟨52 - Nat.log2 a, by omega⟩
        have htoNat : (-((Nat.log2 a : Int) - 52)).toNat = k := by omega
        rw [htoNat, Nat.div_one]
        calc Nat.pow 2 52 = 2 ^ Nat.log2 a * 2 ^ k := by rw [← Nat.pow_add, hk]
          _ ≤ a * 2 ^ k := Nat.mul_le_mul_right _ hlow
  unfold exponentOf
  dsimp only
  rw [hone, Int.natCast_zero, Int.sub_zero, if_neg (Nat.not_lt.mpr hscaled)]
  unfold leastExponent
  omega

variable {negative : Bool}

/-- Rounding at the exponent of a natural, with a carry into one more bit. -/
theorem nearest_of_scaled {a n d : Nat} {e : Int} (ha : a ≠ 0) (he : exponentOf a 1 = e)
    (hscaled : scaled a 1 e = (n, d)) :
    nearest negative a 1 =
      if roundDiv .toEven n d = 2 ^ 53 then
        if greatestExponent < e + 1 then .infinity negative
        else .finite negative (2 ^ 52) (e + 1)
      else if greatestExponent < e then .infinity negative
      else .finite negative (roundDiv .toEven n d) e := by
  unfold nearest
  rw [if_neg ha, he]
  dsimp only
  rw [hscaled]
  dsimp only
  by_cases hm : roundDiv .toEven n d = 2 ^ 53
  · have hpow : roundDiv .toEven n d = Nat.pow 2 53 := hm
    rw [if_pos hpow, if_pos hm]
    rfl
  · have hpow : ¬ roundDiv .toEven n d = Nat.pow 2 53 := hm
    rw [if_neg hpow, if_neg hm]

/-- A natural of at least 53 bits is cut to 53 bits and rounded. -/
theorem nearest_natural {a k : Nat} (ha : a ≠ 0) (hk : Nat.log2 a = k + 52) :
    nearest negative a 1 =
      if roundDiv .toEven a (2 ^ k) = 2 ^ 53 then
        if greatestExponent < (k : Int) + 1 then .infinity negative
        else .finite negative (2 ^ 52) ((k : Int) + 1)
      else if greatestExponent < (k : Int) then .infinity negative
      else .finite negative (roundDiv .toEven a (2 ^ k)) (k : Int) := by
  refine nearest_of_scaled ha (by rw [exponentOf_one ha]; omega) ?_
  unfold scaled
  rw [if_pos (Int.natCast_nonneg k), Nat.one_mul]
  rfl

/-- A natural of fewer bits has an exponent below zero. -/
theorem nearest_small {a m : Nat} {e : Int} (ha : a < 2 ^ 52)
    (h : nearest negative a 1 = .finite negative m e) : e < 0 := by
  by_cases hzero : a = 0
  · unfold nearest at h
    rw [if_pos hzero, zero, leastExponent] at h
    cases h
    decide
  have hlog : Nat.log2 a < 52 := (Nat.log2_lt hzero).mpr ha
  have hexp := exponentOf_one hzero
  obtain ⟨k, hk⟩ : ∃ k, Nat.log2 a + k = 52 := ⟨52 - Nat.log2 a, by omega⟩
  have hscaled : scaled a 1 ((Nat.log2 a : Int) - 52) = (a * 2 ^ k, 1) := by
    have htoNat : (-((Nat.log2 a : Int) - 52)).toNat = k := by omega
    unfold scaled
    rw [if_neg (by omega), htoNat]
    rfl
  have hround : roundDiv .toEven (a * 2 ^ k) 1 = a * 2 ^ k :=
    (roundDiv_toEven_iff Nat.one_pos).mpr (.inl (by omega))
  have hlt : a * 2 ^ k < 2 ^ 53 := by
    have hhigh : a < 2 ^ (Nat.log2 a + 1) := Nat.lt_log2_self
    calc a * 2 ^ k < 2 ^ (Nat.log2 a + 1) * 2 ^ k :=
          Nat.mul_lt_mul_of_pos_right hhigh (Nat.pow_pos Nat.two_pos)
      _ = 2 ^ 53 := by rw [← Nat.pow_add]; congr 1; omega
  rw [nearest_of_scaled hzero hexp hscaled, hround, if_neg (Nat.ne_of_lt hlt)] at h
  split at h
  · cases h
  · cases h
    omega

end Binary64

theorem pow_add_eq (k i : Nat) : 2 ^ (k + i) = 2 ^ i * 2 ^ k := by
  rw [Nat.pow_add, Nat.mul_comm]

/-! ## The naturals of a binary number -/

namespace Decimal

/-- The natural lies in the interval. -/
def Span.Contains (s : Span) (a : Nat) : Prop :=
  s.aboveLow a 1 = true ∧ s.belowHigh a 1 = true

theorem spanOf_natural (m k : Nat) : spanOf m ((k + 2 : Nat) : Int) =
    { low := (4 * m - if m = 2 ^ 52 then 1 else 2) * 2 ^ k
      value := 4 * m * 2 ^ k
      high := (4 * m + 2) * 2 ^ k
      den := 1
      closed := m % 2 = 0 } := by
  have hratio : Binary64.toRatio 1 (((k + 2 : Nat) : Int) - 2) = (2 ^ k, 1) := by
    have htoNat : (((k + 2 : Nat) : Int) - 2).toNat = k := by omega
    unfold Binary64.toRatio
    rw [if_pos (by omega), htoNat, Nat.one_mul]
    rfl
  have hleast : Binary64.leastExponent < ((k + 2 : Nat) : Int) := by
    unfold Binary64.leastExponent
    omega
  have hbelow : (if m = Nat.pow 2 52 ∧ Binary64.leastExponent < ((k + 2 : Nat) : Int) then 1 else 2)
      = if m = 2 ^ 52 then 1 else 2 := by
    simp only [hleast, and_true]
    rfl
  unfold spanOf
  rw [hratio, hbelow]

/-- The interval in units of a quarter of the last bit. -/
theorem contains_iff {m k a : Nat} (hm : 2 ^ 52 ≤ m) :
    (spanOf m ((k + 2 : Nat) : Int)).Contains a ↔
      4 * (m * 2 ^ k) ≤ a + 2 * 2 ^ k ∧ a ≤ 4 * (m * 2 ^ k) + 2 * 2 ^ k ∧
      (m ≠ 2 ^ 52 ∨ 4 * (m * 2 ^ k) ≤ a + 2 ^ k) ∧
      (m % 2 = 0 ∨ 4 * (m * 2 ^ k) < a + 2 * 2 ^ k ∧ a < 4 * (m * 2 ^ k) + 2 * 2 ^ k) := by
  rw [spanOf_natural]
  unfold Span.Contains Span.aboveLow Span.belowHigh
  have hpos : 0 < 2 ^ k := Nat.pow_pos Nat.two_pos
  generalize 2 ^ k = u at hpos ⊢
  have hunit : 2 ^ 52 * u ≤ m * u := Nat.mul_le_mul_right _ hm
  have hhigh : (4 * m + 2) * u = 4 * (m * u) + 2 * u := by ring
  have hlow : ∀ below, (4 * m - below) * u = 4 * (m * u) - below * u := fun below => by
    rw [Nat.sub_mul, Nat.mul_assoc]
  rcases Nat.mod_two_eq_zero_or_one m with heven | hodd
  · have hclosed : decide (m % 2 = 0) = true := decide_eq_true heven
    by_cases hpower : m = 2 ^ 52
    · subst hpower
      simp only [hclosed, hhigh, hlow, if_true, Nat.mul_one, decide_eq_true_eq]
      omega
    · simp only [hclosed, hpower, hhigh, hlow, if_true, if_false, Nat.mul_one, decide_eq_true_eq]
      omega
  · have hopen : decide (m % 2 = 0) = false := decide_eq_false (by omega)
    have hpower : m ≠ 2 ^ 52 := by
      rintro rfl
      cases hodd
    simp only [hopen, hpower, hhigh, hlow, Bool.false_eq_true, if_false, Nat.mul_one,
      decide_eq_true_eq]
    omega

theorem ne_zero_of_contains {m k a : Nat} (hm : 2 ^ 52 ≤ m)
    (h : (spanOf m ((k + 2 : Nat) : Int)).Contains a) : a ≠ 0 := by
  have hfrom := ((contains_iff hm).mp h).1
  have hpos : 0 < 2 ^ k := Nat.pow_pos Nat.two_pos
  generalize 2 ^ k = u at hfrom hpos
  have hunit : 2 ^ 52 * u ≤ m * u := Nat.mul_le_mul_right _ hm
  omega

end Decimal

namespace Binary64

variable {negative : Bool}

section Interval

variable {m k a : Nat} (hlow : 2 ^ 52 ≤ m) (hhigh : m < 2 ^ 53)
include hlow hhigh

/-- A natural that rounds to a binary number lies in its interval. -/
theorem contains_of_nearest
    (h : nearest negative a 1 = .finite negative m ((k + 2 : Nat) : Int)) :
    (Decimal.spanOf m ((k + 2 : Nat) : Int)).Contains a := by
  have ha : 2 ^ 52 ≤ a := by
    by_contra hsmall
    have := nearest_small (Nat.lt_of_not_le hsmall) h
    omega
  have hzero : a ≠ 0 := by omega
  obtain ⟨j, hj⟩ : ∃ j, Nat.log2 a = j + 52 :=
    ⟨Nat.log2 a - 52, by have := (Nat.le_log2 hzero).mpr ha; omega⟩
  obtain ⟨hfrom, hto⟩ := (Nat.log2_eq_iff hzero).mp hj
  rw [Decimal.contains_iff hlow]
  rw [nearest_natural hzero hj] at h
  split at h
  · next hround =>
      -- carried into one more bit: just below a power of two
      split at h
      · cases h
      · obtain ⟨-, rfl, hexp⟩ := Binary64.finite.inj h
        obtain rfl : j = k + 1 := by omega
        rw [roundDiv_toEven_iff (Nat.pow_pos Nat.two_pos), pow_add_eq] at hround
        rw [show k + 1 + 52 + 1 = k + 54 from rfl, pow_add_eq] at hto
        generalize 2 ^ k = u at *
        omega
  · split at h
    · cases h
    · obtain ⟨-, hm, hexp⟩ := Binary64.finite.inj h
      obtain rfl : j = k + 2 := by omega
      rw [roundDiv_toEven_iff (Nat.pow_pos Nat.two_pos), pow_add_eq, Nat.mul_left_comm m] at hm
      rw [show k + 2 + 52 = k + 54 from rfl, pow_add_eq] at hfrom
      generalize 2 ^ k = u at *
      refine ⟨by omega, by omega, ?_, by omega⟩
      rw [or_iff_not_imp_left, not_not]
      rintro rfl
      omega

/-- A natural in the interval of a binary number rounds to it. -/
theorem nearest_of_contains (negative : Bool) (hk : k + 2 ≤ 971)
    (h : (Decimal.spanOf m ((k + 2 : Nat) : Int)).Contains a) :
    nearest negative a 1 = .finite negative m ((k + 2 : Nat) : Int) := by
  obtain ⟨hfrom, hto, hpower, hodd⟩ := (Decimal.contains_iff hlow).mp h
  have hpos : 0 < 2 ^ k := Nat.pow_pos Nat.two_pos
  have hmlow : 2 ^ 52 * 2 ^ k ≤ m * 2 ^ k := Nat.mul_le_mul_right _ hlow
  have hmhigh : (m + 1) * 2 ^ k ≤ 2 ^ 53 * 2 ^ k := Nat.mul_le_mul_right _ hhigh
  rw [Nat.succ_mul] at hmhigh
  have hzero := Decimal.ne_zero_of_contains hlow h
  by_cases hbits : 2 ^ 54 * 2 ^ k ≤ a
  · have hlog : Nat.log2 a = k + 2 + 52 := by
      rw [Nat.log2_eq_iff hzero, show k + 2 + 52 = k + 54 from rfl,
        show k + 54 + 1 = k + 55 from rfl, pow_add_eq, pow_add_eq]
      generalize 2 ^ k = u at *
      omega
    have hround : roundDiv .toEven a (2 ^ (k + 2)) = m := by
      rw [roundDiv_toEven_iff (Nat.pow_pos Nat.two_pos), pow_add_eq, Nat.mul_left_comm m]
      generalize 2 ^ k = u at *
      omega
    have hexp : ¬ greatestExponent < ((k + 2 : Nat) : Int) := by
      unfold greatestExponent
      omega
    rw [nearest_natural hzero hlog, hround, if_neg (Nat.ne_of_lt hhigh), if_neg hexp]
  · -- below the power of two: the last bit is half as much there
    obtain rfl : m = 2 ^ 52 := by
      by_contra hne
      have hmore : (2 ^ 52 + 1) * 2 ^ k ≤ m * 2 ^ k := Nat.mul_le_mul_right _ (by omega)
      rw [Nat.succ_mul] at hmore
      generalize 2 ^ k = u at *
      omega
    have hlog : Nat.log2 a = k + 1 + 52 := by
      rw [Nat.log2_eq_iff hzero, show k + 1 + 52 = k + 53 from rfl,
        show k + 53 + 1 = k + 54 from rfl, pow_add_eq, pow_add_eq]
      generalize 2 ^ k = u at *
      omega
    have hround : roundDiv .toEven a (2 ^ (k + 1)) = 2 ^ 53 := by
      rw [roundDiv_toEven_iff (Nat.pow_pos Nat.two_pos), pow_add_eq]
      generalize 2 ^ k = u at *
      omega
    have hexp : ¬ greatestExponent < ((k + 1 : Nat) : Int) + 1 := by
      unfold greatestExponent
      omega
    rw [nearest_natural hzero hlog, if_pos hround, if_neg hexp]
    rfl

/-- The naturals that round to a binary number are those in its interval. -/
theorem nearest_eq_iff (negative : Bool) (hk : k + 2 ≤ 971) :
    nearest negative a 1 = .finite negative m ((k + 2 : Nat) : Int) ↔
      (Decimal.spanOf m ((k + 2 : Nat) : Int)).Contains a :=
  ⟨contains_of_nearest hlow hhigh, nearest_of_contains hlow hhigh negative hk⟩

end Interval

/-! ## Large naturals -/

variable {n : Nat}

/-- A natural of more than 63 bits becomes a whole binary number, unless it is
out of range. -/
theorem nearest_large (negative : Bool) (hn : 2 ^ 63 ≤ n) :
    nearest negative n 1 = .infinity negative ∨ ∃ m k, 2 ^ 52 ≤ m ∧ m < 2 ^ 53 ∧ 9 ≤ k ∧
      k + 2 ≤ 971 ∧ nearest negative n 1 = .finite negative m ((k + 2 : Nat) : Int) := by
  have hzero : n ≠ 0 := by omega
  obtain ⟨k, hlog⟩ : ∃ k, Nat.log2 n = k + 2 + 52 :=
    ⟨Nat.log2 n - 54, by have := (Nat.le_log2 hzero).mpr hn; omega⟩
  have hk : 9 ≤ k := by
    have := (Nat.le_log2 hzero).mpr hn
    omega
  obtain ⟨hfrom, hto⟩ := (Nat.log2_eq_iff hzero).mp hlog
  have hpow : 2 ^ (k + 2 + 52) = 2 ^ 52 * 2 ^ (k + 2) := pow_add_eq (k + 2) 52
  have hpow' : 2 ^ (k + 2 + 52 + 1) = 2 ^ 53 * 2 ^ (k + 2) := pow_add_eq (k + 2) 53
  obtain ⟨hqlow, hqhigh⟩ := roundDiv_toEven_bounds (Nat.pow_pos Nat.two_pos) (hpow ▸ hfrom)
    (hpow' ▸ Nat.le_of_lt hto)
  rw [nearest_natural hzero hlog]
  unfold greatestExponent
  split_ifs with hcarry hover hover
  · exact .inl rfl
  · exact .inr ⟨2 ^ 52, k + 1, Nat.le_refl _, by decide, by omega, by omega, by congr 1⟩
  · exact .inl rfl
  · exact .inr ⟨_, k, hqlow, by omega, hk, by omega, rfl⟩

/-- Whether a natural is out of range does not depend on its sign. -/
theorem nearest_infinity (hn : 2 ^ 63 ≤ n) (h : nearest false n 1 = .infinity false) :
    nearest negative n 1 = .infinity negative := by
  rcases nearest_large negative hn with hinfinite | ⟨m, k, hlow, hhigh, -, hk, hfinite⟩
  · exact hinfinite
  · have hplus := nearest_of_contains hlow hhigh false hk (contains_of_nearest hlow hhigh hfinite)
    cases h.symm.trans hplus

/-- Below half a bit above the greatest binary number a natural is in range. -/
theorem nearest_ne_infinity (hn : 2 ^ 63 ≤ n) (hless : n < (2 ^ 54 - 1) * 2 ^ 970) :
    nearest negative n 1 ≠ .infinity negative := by
  have hzero : n ≠ 0 := Nat.ne_of_gt (Nat.lt_of_lt_of_le (by decide) hn)
  obtain ⟨k, hlog⟩ : ∃ k, Nat.log2 n = k + 1 + 52 :=
    ⟨Nat.log2 n - 53, by have := (Nat.le_log2 hzero).mpr hn; omega⟩
  have hfrom := ((Nat.log2_eq_iff hzero).mp hlog).1
  rw [nearest_natural hzero hlog]
  unfold greatestExponent
  intro hinfinite
  split_ifs at hinfinite with hcarry hover hover
  · have hround := (roundDiv_toEven_iff (Nat.pow_pos Nat.two_pos)).mp hcarry
    have hk : 2 ^ 970 ≤ 2 ^ k := pow_le_pow_right₀ (by decide) (by omega)
    have hsucc : 2 ^ (k + 1) = 2 * 2 ^ k := by rw [Nat.pow_succ, Nat.mul_comm]
    rw [hsucc] at hround
    generalize 2 ^ 970 = top at *
    generalize 2 ^ k = u at *
    omega
  · obtain ⟨i, rfl⟩ : ∃ i, k = i + 1 := ⟨k - 1, by omega⟩
    have hk : 2 ^ 970 ≤ 2 ^ i := pow_le_pow_right₀ (by decide) (by omega)
    have hsucc : 2 ^ (i + 1 + 1 + 52) = 2 ^ 54 * 2 ^ i := by ring
    rw [hsucc] at hfrom
    generalize 2 ^ 970 = top at *
    generalize 2 ^ i = u at *
    omega

/-- From 1024 bits on it is not. -/
theorem nearest_eq_infinity (hn : 1024 ≤ Nat.log2 n) :
    nearest negative n 1 = .infinity negative := by
  have hzero : n ≠ 0 := by
    rintro rfl
    cases hn
  obtain ⟨k, hlog⟩ : ∃ k, Nat.log2 n = k + 52 := ⟨Nat.log2 n - 52, by omega⟩
  have hover : greatestExponent < (k : Int) := by
    unfold greatestExponent
    omega
  have hover' : greatestExponent < (k : Int) + 1 := by omega
  rw [nearest_natural hzero hlog, if_pos hover', if_pos hover, ite_self]

end Binary64

end EventQuery
