import EventQuery.Decimal.Layout
import EventQuery.Proofs.BinaryRounding
import EventQuery.Proofs.Tokens
import Mathlib.Data.Nat.Dist

/-!
# Shortest decimals of whole numbers

A whole number that does not fit 64 bits is kept as the nearest binary number
and written with the shortest digits that lead back to that. So one natural
stands for all that round to the same binary number: the one that ends in the
most zeros and, among those with as many, is the closest to the binary number
(`Decimal.IsShortest`). A natural is written as itself iff it is that one
(`Binary64.integer?_plain_iff`), which up to fifteen digits and zeros behind
them it always is (`Decimal.isShortest_of_digits`).

The search for the digits goes over decimal grids, from coarse to fine, and
looks at two points of each. `Decimal.Span.Closest` says what these two points
tell about the grid.
-/

namespace EventQuery

theorem roundDiv_up (num den : Nat) :
    roundDiv .up num den = if 2 * (num % den) < den then num / den else num / den + 1 := by
  unfold roundDiv
  dsimp only
  split_ifs <;> rfl

/-! ## The closest point of a grid -/

namespace Decimal

/-- Of the multiples of `g` in the interval the closest one to the number, and
the greater one of two that are equally close. -/
structure Span.Closest (s : Span) (g a : Nat) : Prop where
  contains : s.Contains a
  dvd : g ∣ a
  least : ∀ b, s.Contains b → g ∣ b → Nat.dist s.value a < Nat.dist s.value b ∨
    Nat.dist s.value a = Nat.dist s.value b ∧ b ≤ a

/-- A multiple lies at or below the last one before the number, or at or above
the next one. -/
theorem multiple_cases {g b : Nat} (value : Nat) (hb : g ∣ b) :
    b ≤ value / g * g ∨ (value / g + 1) * g ≤ b := by
  obtain ⟨c, rfl⟩ := hb
  rw [Nat.mul_comm g c]
  rcases Nat.lt_or_ge (value / g) c with hc | hc
  · exact .inr (Nat.mul_le_mul_right g hc)
  · exact .inl (Nat.mul_le_mul_right g hc)

theorem lt_next_multiple (value j : Nat) : value < (value / 10 ^ j + 1) * 10 ^ j := by
  rw [Nat.mul_comm]
  exact Nat.lt_mul_div_succ _ (Nat.pow_pos (by decide))

/-- An interval of whole numbers around one of them. -/
structure Span.IsWhole (s : Span) : Prop where
  den : s.den = 1
  low : s.low < s.value
  high : s.value < s.high

namespace Span

variable {s : Span} (h : s.IsWhole)
include h

theorem IsWhole.contains_iff {a : Nat} : s.Contains a ↔
    s.low ≤ a ∧ a ≤ s.high ∧ (s.closed = true ∨ s.low < a ∧ a < s.high) := by
  unfold Contains aboveLow belowHigh
  rw [h.den]
  cases s.closed with
  | true => simp
  | false =>
      simp
      omega

/-- A natural between the number and a member is a member. -/
theorem IsWhole.contains_of_between {a b : Nat} (hb : s.Contains b)
    (hab : b ≤ a ∧ a ≤ s.value ∨ s.value ≤ a ∧ a ≤ b) : s.Contains a := by
  have hlow := h.low
  have hhigh := h.high
  rw [h.contains_iff] at hb ⊢
  obtain ⟨hfrom, hto, hclosed | hopen⟩ := hb
  · exact ⟨by omega, by omega, .inl hclosed⟩
  · exact ⟨by omega, by omega, .inr (by omega)⟩

/-- What a grid of whole numbers is asked. -/
theorem IsWhole.hit?_eq (tie : Tie) (j : Nat) : s.hit? tie (j : Int) =
    match s.aboveLow (s.value / 10 ^ j * 10 ^ j) 1,
      s.belowHigh ((s.value / 10 ^ j + 1) * 10 ^ j) 1 with
    | true, true => some (roundDiv tie s.value (10 ^ j))
    | true, false => some (s.value / 10 ^ j)
    | false, true => some (s.value / 10 ^ j + 1)
    | false, false => none := by
  have hgrid : gridUnit (j : Int) = (10 ^ j, 1) := by
    unfold gridUnit
    rw [if_pos (Int.natCast_nonneg j)]
    rfl
  unfold hit?
  rw [hgrid]
  dsimp only
  rewrite [h.den, Nat.mul_one, Nat.one_mul]
  rfl

section Grid

variable {j : Nat}

theorem IsWhole.aboveLow_iff : s.aboveLow (s.value / 10 ^ j * 10 ^ j) 1 = true ↔
    s.Contains (s.value / 10 ^ j * 10 ^ j) := by
  have hle : s.value / 10 ^ j * 10 ^ j ≤ s.value := Nat.div_mul_le_self _ _
  have hhigh := h.high
  unfold Contains belowHigh
  rw [h.den]
  cases s.closed <;> simp <;> omega

theorem IsWhole.belowHigh_iff : s.belowHigh ((s.value / 10 ^ j + 1) * 10 ^ j) 1 = true ↔
    s.Contains ((s.value / 10 ^ j + 1) * 10 ^ j) := by
  have hlt := lt_next_multiple s.value j
  have hlow := h.low
  unfold Contains aboveLow
  rw [h.den]
  cases s.closed <;> simp <;> omega

/-- A grid that is not hit has no point in the interval. -/
theorem IsWhole.hit?_none (hhit : s.hit? .up (j : Int) = none) {a : Nat} (ha : s.Contains a) :
    ¬ 10 ^ j ∣ a := by
  intro hdvd
  rw [h.hit?_eq] at hhit
  split at hhit
  case h_4 hdown hup =>
    rcases multiple_cases s.value hdvd with hbelow | habove
    · have hin := h.contains_of_between ha (.inl ⟨hbelow, Nat.div_mul_le_self _ _⟩)
      exact Bool.false_ne_true (hdown.symm.trans (h.aboveLow_iff.mpr hin))
    · have hin := h.contains_of_between ha (.inr ⟨Nat.le_of_lt (lt_next_multiple _ j), habove⟩)
      exact Bool.false_ne_true (hup.symm.trans (h.belowHigh_iff.mpr hin))
  all_goals cases hhit

theorem IsWhole.closest_below (hin : s.Contains (s.value / 10 ^ j * 10 ^ j))
    (hnear : s.Contains ((s.value / 10 ^ j + 1) * 10 ^ j) → 2 * (s.value % 10 ^ j) < 10 ^ j) :
    s.Closest (10 ^ j) (s.value / 10 ^ j * 10 ^ j) := by
  have hsplit := Nat.div_add_mod' s.value (10 ^ j)
  refine ⟨hin, Nat.dvd_mul_left _ _, fun b hb hdvd => ?_⟩
  rcases multiple_cases s.value hdvd with hbelow | habove
  · unfold Nat.dist
    omega
  · have hlt := hnear (h.contains_of_between hb
      (.inr ⟨Nat.le_of_lt (lt_next_multiple _ j), habove⟩))
    rw [Nat.succ_mul] at habove
    unfold Nat.dist
    omega

theorem IsWhole.closest_above (hin : s.Contains ((s.value / 10 ^ j + 1) * 10 ^ j))
    (hnear : s.Contains (s.value / 10 ^ j * 10 ^ j) → 10 ^ j ≤ 2 * (s.value % 10 ^ j)) :
    s.Closest (10 ^ j) ((s.value / 10 ^ j + 1) * 10 ^ j) := by
  have hsplit := Nat.div_add_mod' s.value (10 ^ j)
  have hlt := lt_next_multiple s.value j
  refine ⟨hin, Nat.dvd_mul_left _ _, fun b hb hdvd => ?_⟩
  rcases multiple_cases s.value hdvd with hbelow | habove
  · have hle := hnear (h.contains_of_between hb (.inl ⟨hbelow, Nat.div_mul_le_self _ _⟩))
    rw [Nat.succ_mul] at hlt ⊢
    unfold Nat.dist
    omega
  · unfold Nat.dist
    omega

/-- A grid that is hit gives its closest point. -/
theorem IsWhole.hit?_some {d : Nat} (hhit : s.hit? .up (j : Int) = some d) :
    s.Closest (10 ^ j) (d * 10 ^ j) := by
  rw [h.hit?_eq] at hhit
  split at hhit
  case h_1 hdown hup =>
    rw [roundDiv_up] at hhit
    split at hhit
    · next hnear =>
        obtain rfl := Option.some.inj hhit
        exact h.closest_below (h.aboveLow_iff.mp hdown) fun _ => hnear
    · next hnear =>
        obtain rfl := Option.some.inj hhit
        exact h.closest_above (h.belowHigh_iff.mp hup) fun _ => Nat.le_of_not_lt hnear
  case h_2 hdown hup =>
    obtain rfl := Option.some.inj hhit
    refine h.closest_below (h.aboveLow_iff.mp hdown) fun hin => ?_
    exact absurd (hup.symm.trans (h.belowHigh_iff.mpr hin)) Bool.false_ne_true
  case h_3 hdown hup =>
    obtain rfl := Option.some.inj hhit
    refine h.closest_above (h.belowHigh_iff.mp hup) fun hin => ?_
    exact absurd (hdown.symm.trans (h.aboveLow_iff.mpr hin)) Bool.false_ne_true
  case h_4 => cases hhit

end Grid

end Span

/-! ## The search -/

section Search

variable {tie : Tie} {s : Span} {point : Int}

theorem search_some : ∀ {fuel n d : Nat} {e : Int}, search tie s point fuel n = some (d, e) →
    ∃ i < n + fuel, n ≤ i ∧ e = point - i ∧ s.hit? tie (point - i) = some d ∧
      ∀ i' < i, n ≤ i' → s.hit? tie (point - i') = none
  | 0, _, _, _, h => by cases h
  | fuel + 1, n, d, e, h => by
      unfold search at h
      split at h
      · next hit hhit =>
          obtain ⟨rfl, rfl⟩ := Prod.mk.inj (Option.some.inj h)
          exact ⟨n, by omega, Nat.le_refl n, rfl, hhit, fun i' hi' hn => by omega⟩
      · next hmiss =>
          obtain ⟨i, hi, hn, he, hhit, hbefore⟩ := search_some h
          refine ⟨i, by omega, by omega, he, hhit, fun i' hi' hn' => ?_⟩
          rcases Nat.eq_or_lt_of_le hn' with rfl | hlt
          · exact hmiss
          · exact hbefore i' hi' hlt

theorem search_none : ∀ {fuel n : Nat}, search tie s point fuel n = none →
    ∀ i < n + fuel, n ≤ i → s.hit? tie (point - i) = none
  | 0, _, _, i, hi, hn => by omega
  | fuel + 1, n, h, i, hi, hn => by
      unfold search at h
      split at h
      · cases h
      · next hmiss =>
          rcases Nat.eq_or_lt_of_le hn with rfl | hlt
          · exact hmiss
          · exact search_none h i (by omega) hlt

end Search

theorem digitCount_bounds {n : Nat} (hn : n ≠ 0) :
    0 < digitCount n ∧ 10 ^ (digitCount n - 1) ≤ n ∧ n < 10 ^ digitCount n := by
  have hlength : digitCount n = (Nat.toDigits 10 n).length := if_neg hn
  have hpos : 0 < (Nat.toDigits 10 n).length := List.length_pos_iff.mpr Nat.toDigits_ne_nil
  rw [hlength]
  refine ⟨hpos, ?_, (Nat.length_toDigits_le_iff (by decide) hpos).mp (Nat.le_refl _)⟩
  rcases Nat.eq_zero_or_pos ((Nat.toDigits 10 n).length - 1) with hzero | hless
  · rw [hzero]
    omega
  · by_contra hlt
    have := (Nat.length_toDigits_le_iff (by decide) hless).mpr (Nat.lt_of_not_le hlt)
    omega

/-! ## Shortest decimals of whole binary numbers -/

theorem eq_of_dvd_of_near {g a b : Nat} (ha : g ∣ a) (hb : g ∣ b) (hab : a < b + g)
    (hba : b < a + g) : a = b := by
  obtain ⟨c, rfl⟩ := ha
  obtain ⟨d, rfl⟩ := hb
  have hcd : c < d + 1 := Nat.lt_of_mul_lt_mul_left (a := g) (by rwa [Nat.mul_succ])
  have hdc : d < c + 1 := Nat.lt_of_mul_lt_mul_left (a := g) (by rwa [Nat.mul_succ])
  rw [show c = d by omega]

section Whole

variable {m k : Nat} (hlow : 2 ^ 52 ≤ m)
include hlow

theorem spanOf_isWhole : (spanOf m ((k + 2 : Nat) : Int)).IsWhole := by
  have hpos : 0 < 2 ^ k := Nat.pow_pos Nat.two_pos
  rw [spanOf_natural]
  refine ⟨rfl, Nat.mul_lt_mul_of_pos_right ?_ hpos, Nat.mul_lt_mul_of_pos_right ?_ hpos⟩
  · split <;> omega
  · omega

/-- A grid that is wider than the last bit has at most one point in the
interval. -/
theorem eq_of_contains {g a b : Nat} (hg : 4 * 2 ^ k < g)
    (ha : (spanOf m ((k + 2 : Nat) : Int)).Contains a)
    (hb : (spanOf m ((k + 2 : Nat) : Int)).Contains b) (hga : g ∣ a) (hgb : g ∣ b) : a = b := by
  rw [contains_iff hlow] at ha hb
  generalize 2 ^ k = u at *
  exact eq_of_dvd_of_near hga hgb (by omega) (by omega)

/-- A whole binary number beyond 64 bits has eighteen digits or more. -/
theorem exists_pointOf (hk : 9 ≤ k) : ∃ p : Nat,
    pointOf (spanOf m ((k + 2 : Nat) : Int)).value (spanOf m ((k + 2 : Nat) : Int)).den =
      ((p + 18 : Nat) : Int) ∧
    10 ^ (p + 17) ≤ 4 * m * 2 ^ k ∧ 4 * m * 2 ^ k < 10 ^ (p + 18) := by
  have hmlow : 2 ^ 52 * 2 ^ k ≤ m * 2 ^ k := Nat.mul_le_mul_right _ hlow
  have hbig : 2 ^ 63 ≤ 4 * m * 2 ^ k := by
    have hpow : 2 ^ 9 ≤ 2 ^ k := Nat.pow_le_pow_right Nat.two_pos hk
    rw [Nat.mul_assoc]
    omega
  obtain ⟨hpos, hfrom, hto⟩ := digitCount_bounds (n := 4 * m * 2 ^ k) (by omega)
  obtain ⟨p, hp⟩ : ∃ p, digitCount (4 * m * 2 ^ k) = p + 18 := by
    refine ⟨digitCount (4 * m * 2 ^ k) - 18, ?_⟩
    by_contra hsmall
    have hle : 10 ^ digitCount (4 * m * 2 ^ k) ≤ 10 ^ 17 :=
      Nat.pow_le_pow_right (by decide) (by omega)
    omega
  rw [hp] at hfrom hto
  refine ⟨p, ?_, hfrom, hto⟩
  rw [spanOf_natural]
  dsimp only
  rw [pointOf, if_pos (by omega), Nat.div_one, hp]

variable (hhigh : m < 2 ^ 53)
include hhigh

/-- On a grid of seventeen digits the points are so close that one of them
lies in the interval. -/
theorem exists_hit {j : Nat} (hj : 10 ^ (j + 16) ≤ 4 * m * 2 ^ k) :
    ((spanOf m ((k + 2 : Nat) : Int)).hit? .up (j : Int)).isSome := by
  by_contra hmiss
  rw [Option.isSome_iff_ne_none, not_not] at hmiss
  have hwhole := spanOf_isWhole (k := k) hlow
  have hunit : 0 < 2 ^ k := Nat.pow_pos Nat.two_pos
  have hmlow : 2 ^ 52 * 2 ^ k ≤ m * 2 ^ k := Nat.mul_le_mul_right _ hlow
  have hmhigh : (m + 1) * 2 ^ k ≤ 2 ^ 53 * 2 ^ k := Nat.mul_le_mul_right _ hhigh
  rw [Nat.succ_mul] at hmhigh
  obtain ⟨floor, hfloor⟩ : ∃ floor, 4 * m * 2 ^ k / 10 ^ j = floor := ⟨_, rfl⟩
  have hle : floor * 10 ^ j ≤ 4 * m * 2 ^ k := hfloor ▸ Nat.div_mul_le_self _ _
  have hlt : 4 * m * 2 ^ k < (floor + 1) * 10 ^ j :=
    (Nat.div_lt_iff_lt_mul (Nat.pow_pos (by decide))).mp (by omega)
  have hmultiple : ∀ c, ¬ (spanOf m ((k + 2 : Nat) : Int)).Contains (c * 10 ^ j) :=
    fun c hin => hwhole.hit?_none hmiss hin (Nat.dvd_mul_left _ c)
  have hdown := hmultiple floor
  have hup := hmultiple (floor + 1)
  rw [contains_iff hlow] at hdown hup
  rw [Nat.succ_mul floor] at hlt hup
  rw [Nat.pow_add] at hj
  rw [Nat.mul_assoc 4 m] at hj hle hlt
  generalize floor * 10 ^ j = below at *
  generalize 10 ^ j = g at *
  by_cases hpower : m = 2 ^ 52
  · subst hpower
    generalize 2 ^ k = u at *
    omega
  · generalize 2 ^ k = u at *
    omega

/-- The shortest decimal of a whole binary number is the closest point of a
grid, and no other natural of the interval lies on a coarser one. -/
theorem shortest_natural (hk : 9 ≤ k) : ∃ d j : Nat,
    shortest .up m ((k + 2 : Nat) : Int) = ⟨stripZeros 17 d, digitCount d + j⟩ ∧
    (spanOf m ((k + 2 : Nat) : Int)).Closest (10 ^ j) (d * 10 ^ j) ∧
    ∀ i a, j < i → (spanOf m ((k + 2 : Nat) : Int)).Contains a → 10 ^ i ∣ a → a = d * 10 ^ j := by
  have hwhole := spanOf_isWhole (k := k) hlow
  have hmlow : 2 ^ 52 * 2 ^ k ≤ m * 2 ^ k := Nat.mul_le_mul_right _ hlow
  obtain ⟨p, hpoint, hfrom, hto⟩ := exists_pointOf hlow hk
  unfold shortest
  dsimp only
  rw [hpoint]
  split
  · next d e hsearch =>
      obtain ⟨i, hi, hone, rfl, hhit, hbefore⟩ := search_some hsearch
      obtain ⟨j, hj⟩ : ∃ j, i + j = p + 18 := ⟨p + 18 - i, by omega⟩
      have hexp : ((p + 18 : Nat) : Int) - i = (j : Int) := by omega
      rw [hexp] at hhit ⊢
      have hclosest := hwhole.hit?_some hhit
      refine ⟨d, j, rfl, hclosest, fun i' a hi' ha hdvd => ?_⟩
      by_cases hfirst : i = 1
      · -- the coarsest grid is wider than the interval
        subst hfirst
        have hja : 10 ^ j ∣ a := (Nat.pow_dvd_pow 10 (Nat.le_of_lt hi')).trans hdvd
        obtain rfl : j = p + 17 := by omega
        have hwide : 4 * 2 ^ k < 10 ^ (p + 17) := by
          rw [Nat.pow_succ, Nat.mul_assoc 4 m] at hto
          generalize 10 ^ (p + 17) = g at *
          generalize 2 ^ k = u at *
          omega
        exact eq_of_contains hlow hwide ha hclosest.contains hja hclosest.dvd
      · have hmiss := hbefore (i - 1) (by omega) (by omega)
        have hexp' : ((p + 18 : Nat) : Int) - ((i - 1 : Nat) : Int) = ((j + 1 : Nat) : Int) := by
          omega
        rw [hexp'] at hmiss
        exact absurd ((Nat.pow_dvd_pow 10 hi').trans hdvd) (hwhole.hit?_none hmiss ha)
  · next hsearch =>
      have hmiss := search_none hsearch 17 (by omega) (by omega)
      have hexp : ((p + 18 : Nat) : Int) - ((17 : Nat) : Int) = ((p + 1 : Nat) : Int) := by omega
      rw [hexp] at hmiss
      have hhit := exists_hit hlow hhigh (k := k) (j := p + 1) hfrom
      rw [hmiss] at hhit
      cases hhit

end Whole

/-! ## What is written -/

/-- Of the naturals in the interval one that ends in the most zeros, and of
those with as many the closest one to the number. -/
structure Span.Shortest (s : Span) (n : Nat) : Prop where
  contains : s.Contains n
  zeros : ∀ a, s.Contains a → ∀ i, 10 ^ i ∣ a → 10 ^ i ∣ n
  closest : ∀ a, s.Contains a → (∀ i, 10 ^ i ∣ n → 10 ^ i ∣ a) →
    Nat.dist s.value n < Nat.dist s.value a ∨ Nat.dist s.value n = Nat.dist s.value a ∧ a ≤ n

theorem Span.Closest.shortest {s : Span} {j n : Nat} (h : s.Closest (10 ^ j) n)
    (hcoarse : ∀ i a, j < i → s.Contains a → 10 ^ i ∣ a → a = n) : s.Shortest n where
  contains := h.contains
  zeros a ha i hdvd := by
    rcases Nat.lt_or_ge j i with hi | hi
    · exact hcoarse i a hi ha hdvd ▸ hdvd
    · exact (Nat.pow_dvd_pow 10 hi).trans h.dvd
  closest a ha hzeros := h.least a ha (hzeros j h.dvd)

/-- Only one natural is the shortest. -/
theorem Span.Shortest.unique {s : Span} {n n' : Nat} (h : s.Shortest n) (h' : s.Shortest n') :
    n = n' := by
  have hleft := h.closest n' h'.contains fun i => h'.zeros n h.contains i
  have hright := h'.closest n h.contains fun i => h.zeros n' h'.contains i
  omega

theorem digitCount_mul_ten {n : Nat} (hn : n ≠ 0) : digitCount (n * 10) = digitCount n + 1 := by
  have hsplit : Nat.toDigits 10 (n * 10) = Nat.toDigits 10 n ++ [(0 : Nat).digitChar] := by
    rw [Nat.toDigits_of_base_le (by decide) (by omega), Nat.mul_div_cancel _ (by decide),
      Nat.mul_mod_left]
  rw [digitCount, digitCount, if_neg hn, if_neg (by omega), hsplit, List.length_append,
    List.length_singleton]

/-- Zeros are taken off the end. -/
theorem stripZeros_spec (fuel : Nat) : ∀ {n : Nat}, n ≠ 0 → stripZeros fuel n ≠ 0 ∧
    ∃ z, n = stripZeros fuel n * 10 ^ z ∧ digitCount n = digitCount (stripZeros fuel n) + z := by
  induction fuel with
  | zero => exact fun hn => ⟨hn, 0, (Nat.mul_one _).symm, rfl⟩
  | succ fuel ih =>
      intro n hn
      unfold stripZeros
      split
      · next hten =>
          obtain ⟨c, rfl⟩ : ∃ c, n = c * 10 := ⟨n / 10, by omega⟩
          rw [Nat.mul_div_cancel _ (by decide)]
          obtain ⟨hne, z, hz, hcount⟩ := ih (n := c) (by omega)
          refine ⟨hne, z + 1, ?_, ?_⟩
          · rw [Nat.pow_succ, ← Nat.mul_assoc, ← hz]
          · rw [digitCount_mul_ten (by omega), hcount, Nat.add_assoc]
      · exact ⟨hn, 0, (Nat.mul_one _).symm, rfl⟩

end Decimal

namespace Digits

theorem value_zeros (s : List Char) (n : Nat) :
    value (s ++ Decimal.zeros n) = value s * 10 ^ n := by
  refine (Nat.ofDigitChars_append 0).trans ?_
  exact Nat.ofDigitChars_replicate_zero.trans (Nat.mul_comm _ _)

theorem value_toDigits (n : Nat) : value (Nat.toDigits 10 n) = n :=
  Nat.ofDigitChars_toDigits (by decide) (by decide)

theorem isRun_toDigits (n : Nat) : isRun (Nat.toDigits 10 n) = true :=
  isRun_iff.mpr ⟨Nat.toDigits_ne_nil, fun _ hc =>
    Nat.isDigit_of_mem_toDigits (by decide) (by decide) hc⟩

theorem isRun_zeros {s : List Char} (h : isRun s = true) (n : Nat) :
    isRun (s ++ Decimal.zeros n) = true := by
  obtain ⟨hne, hdigits⟩ := isRun_iff.mp h
  refine isRun_iff.mpr ⟨List.append_ne_nil_of_left_ne_nil hne _, fun c hc => ?_⟩
  rcases List.mem_append.mp hc with hc | hc
  · exact hdigits c hc
  · rw [List.eq_of_mem_replicate hc]
    decide

end Digits

namespace Decimal

/-- A decimal that ends in zeros before the point is written as a run of
digits. -/
theorem positional_natural {d : Nat} (hd : d ≠ 0) (j : Nat) :
    let text := positional ⟨stripZeros 17 d, digitCount d + j⟩
    Digits.isRun text = true ∧ Digits.value text = d * 10 ^ j := by
  obtain ⟨hne, z, hz, hcount⟩ := stripZeros_spec 17 hd
  have hlength : (digitText (stripZeros 17 d)).length = digitCount (stripZeros 17 d) :=
    (if_neg hne).symm
  have htext : positional ⟨stripZeros 17 d, digitCount d + j⟩ =
      digitText (stripZeros 17 d) ++ zeros (z + j) := by
    have hpos := (digitCount_bounds hd).1
    unfold positional
    dsimp only
    rw [if_neg (by omega), if_neg (by omega), hlength]
    congr 2
    omega
  rw [htext]
  refine ⟨Digits.isRun_zeros (Digits.isRun_toDigits _) _, ?_⟩
  rw [Digits.value_zeros, digitText, Digits.value_toDigits, Nat.pow_add, ← Nat.mul_assoc, ← hz]

end Decimal

/-- The integer that a numeral stands for: an optional minus and digits. -/
def Numeral.integer? : List Char → Option Int
  | '-' :: digits => if Digits.isRun digits then some (-(Digits.value digits : Int)) else none
  | digits => if Digits.isRun digits then some (Digits.value digits : Int) else none

/-- The integer with a sign. -/
def Numeral.signed (negative : Bool) (n : Nat) : Int := if negative then -(n : Int) else n

theorem Numeral.integer?_signText (negative : Bool) {digits : List Char}
    (h : Digits.isRun digits = true) :
    integer? (Binary64.signText negative ++ digits) =
      some (signed negative (Digits.value digits)) := by
  cases negative with
  | true =>
      show (if Digits.isRun digits then _ else _) = _
      rw [if_pos h]
      rfl
  | false =>
      obtain ⟨d, ds, rfl, hd⟩ := exists_digit_of_isRun h
      have hminus : d ≠ '-' := by rintro rfl; revert hd; decide
      show integer? (d :: ds) = _
      rw [integer?, if_pos h]
      · rfl
      · rintro s heq
        exact hminus (List.cons.inj heq).1

theorem Numeral.signed_inj {negative : Bool} {n n' : Nat} :
    signed negative n = signed negative n' ↔ n = n' := by
  cases negative <;> simp [signed]

namespace Decimal

/-- Of the naturals that are rounded to the same binary number, none ends in
more zeros than this one, and of those that end in as many none is closer to
the binary number; one that is as close is less. -/
structure IsShortest (n : Nat) : Prop where
  inRange : Binary64.nearest false n 1 ≠ .infinity false
  zeros : ∀ a, Binary64.nearest false a 1 = Binary64.nearest false n 1 →
    ∀ i, 10 ^ i ∣ a → 10 ^ i ∣ n
  closest : ∀ a, Binary64.nearest false a 1 = Binary64.nearest false n 1 →
    (∀ i, 10 ^ i ∣ n → 10 ^ i ∣ a) →
    ∀ m e, Binary64.nearest false n 1 = .finite false m e →
      Nat.dist (m * 2 ^ e.toNat) n < Nat.dist (m * 2 ^ e.toNat) a ∨
      Nat.dist (m * 2 ^ e.toNat) n = Nat.dist (m * 2 ^ e.toNat) a ∧ a ≤ n

section

variable {m k n : Nat} (hlow : 2 ^ 52 ≤ m) (hhigh : m < 2 ^ 53) (hk : k + 2 ≤ 971)
  (hn : (spanOf m ((k + 2 : Nat) : Int)).Contains n)
include hlow hhigh hk hn

/-- The two ways to say which natural is the shortest. -/
theorem isShortest_iff : IsShortest n ↔ (spanOf m ((k + 2 : Nat) : Int)).Shortest n := by
  have hmember : ∀ a, Binary64.nearest false a 1 = .finite false m ((k + 2 : Nat) : Int) ↔
      (spanOf m ((k + 2 : Nat) : Int)).Contains a := fun a =>
    Binary64.nearest_eq_iff hlow hhigh false hk
  have hnearest := (hmember n).mpr hn
  have hvalue : m * 2 ^ ((k + 2 : Nat) : Int).toNat = (spanOf m ((k + 2 : Nat) : Int)).value := by
    rw [spanOf_natural, Int.toNat_natCast, Nat.pow_add]
    ring
  constructor
  · rintro ⟨-, hzeros, hclosest⟩
    rw [hnearest] at hzeros hclosest
    refine ⟨hn, fun a ha => hzeros a ((hmember a).mpr ha), fun a ha hsame => ?_⟩
    rw [← hvalue]
    exact hclosest a ((hmember a).mpr ha) hsame m _ rfl
  · rintro ⟨-, hzeros, hclosest⟩
    refine ⟨by rw [hnearest]; nofun, fun a ha => ?_, fun a ha hsame m' e hfinite => ?_⟩
    · exact hzeros a ((hmember a).mp (ha.trans hnearest))
    · obtain ⟨-, rfl, rfl⟩ := Binary64.finite.inj (hnearest.symm.trans hfinite)
      rw [hvalue]
      exact hclosest a ((hmember a).mp (ha.trans hnearest)) hsame

end

end Decimal

namespace Binary64

variable {negative : Bool} {n : Nat}

/-- What is written for a whole binary number stands for the shortest of its
naturals. -/
theorem integer?_plain (negative : Bool) {m k : Nat} (hlow : 2 ^ 52 ≤ m) (hhigh : m < 2 ^ 53)
    (hk : 9 ≤ k) :
    ∃ p, (Decimal.spanOf m ((k + 2 : Nat) : Int)).Shortest p ∧
      Numeral.integer? (plain (.finite negative m ((k + 2 : Nat) : Int))).toList =
        some (Numeral.signed negative p) := by
  obtain ⟨d, j, hshortest, hclosest, hcoarse⟩ := Decimal.shortest_natural hlow hhigh hk
  have hd : d ≠ 0 := fun hzero =>
    Decimal.ne_zero_of_contains hlow hclosest.contains (by rw [hzero, Nat.zero_mul])
  obtain ⟨hrun, hvalue⟩ := Decimal.positional_natural hd j
  refine ⟨d * 10 ^ j, hclosest.shortest hcoarse, ?_⟩
  rw [plain, if_neg (by omega), hshortest, String.toList_ofList, Numeral.integer?_signText _ hrun,
    hvalue]

/-- A natural out of the range of 64 bits is written as a numeral that stands
for it iff it is the shortest. -/
theorem integer?_plain_iff (hn : 2 ^ 63 ≤ n) :
    Numeral.integer? (plain (nearest negative n 1)).toList = some (Numeral.signed negative n) ↔
      Decimal.IsShortest n := by
  rcases nearest_large false hn with hinfinite | ⟨m, k, hlow, hhigh, hk, hk', hfinite⟩
  · have hnone : Numeral.integer? (plain (.infinity negative)).toList = none := by
      cases negative <;> decide
    rw [nearest_infinity hn hinfinite, hnone]
    exact ⟨nofun, fun h => absurd hinfinite h.inRange⟩
  · have hin := contains_of_nearest hlow hhigh hfinite
    obtain ⟨p, hp, htext⟩ := integer?_plain negative hlow hhigh hk
    rw [nearest_of_contains hlow hhigh negative hk' hin, htext, Option.some.injEq,
      Numeral.signed_inj, Decimal.isShortest_iff hlow hhigh hk' hin]
    exact ⟨fun h => h ▸ hp, fun h => hp.unique h⟩

end Binary64

/-- Fifteen digits and zeros behind them are always kept. -/
theorem Decimal.isShortest_of_digits {d i : Nat} (hd : d < 10 ^ 15) (hn : 2 ^ 63 ≤ d * 10 ^ i)
    (hless : d * 10 ^ i < 10 ^ 308) : IsShortest (d * 10 ^ i) := by
  have htop : 10 ^ 308 ≤ (2 ^ 54 - 1) * 2 ^ 970 := by decide +kernel
  rcases Binary64.nearest_large false hn with hinfinite | ⟨m, k, hlow, hhigh, -, hk, hfinite⟩
  · exact absurd hinfinite (Binary64.nearest_ne_infinity hn (Nat.lt_of_lt_of_le hless htop))
  have hin := Binary64.contains_of_nearest hlow hhigh hfinite
  have hwide : 4 * 2 ^ k < 10 ^ i := by
    have hstep : (d + 1) * 10 ^ i ≤ 10 ^ 15 * 10 ^ i := Nat.mul_le_mul_right _ hd
    have hmlow : 2 ^ 52 * 2 ^ k ≤ m * 2 ^ k := Nat.mul_le_mul_right _ hlow
    have hfrom := ((contains_iff hlow).mp hin).1
    rw [Nat.succ_mul] at hstep
    generalize d * 10 ^ i = n at *
    generalize 10 ^ i = g at *
    generalize 2 ^ k = u at *
    omega
  -- no other natural of the interval ends in as many zeros
  have honly : ∀ a, (spanOf m ((k + 2 : Nat) : Int)).Contains a → 10 ^ i ∣ a → a = d * 10 ^ i :=
    fun a ha hdvd => eq_of_contains hlow hwide ha hin hdvd (Nat.dvd_mul_left _ _)
  rw [isShortest_iff hlow hhigh hk hin]
  refine Span.Closest.shortest (j := i) ⟨hin, Nat.dvd_mul_left _ _, fun b hb hdvd => ?_⟩
    fun i' a hi' ha hdvd => honly a ha ((Nat.pow_dvd_pow 10 (Nat.le_of_lt hi')).trans hdvd)
  obtain rfl := honly b hb hdvd
  exact .inr ⟨rfl, Nat.le_refl _⟩

end EventQuery
