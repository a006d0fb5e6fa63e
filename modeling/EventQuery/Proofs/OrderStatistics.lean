import EventQuery.Latency.Percentile

/-!
# Percentiles are order statistics

A percentile is read off the sorted samples at a place given by their number.
What it is can be said without sorting: a sample with at most so many samples
below it, and with more than so many that do not exceed it
(`OrderStatistic`). Ties do not matter, since only samples are counted.

There is one such sample, and a later place has none that is smaller
(`OrderStatistic.le`). So the order in which the samples came is of no
account, and the figures of a report never decrease.
-/

namespace EventQuery.Latency

/-! ## Order statistics -/

/-- A sample that stands at place `i` of the sorted samples, said by counting. -/
structure OrderStatistic (samples : List Nat) (i r : Nat) : Prop where
  mem : r ∈ samples
  below : samples.countP (· < r) ≤ i
  upTo : i + 1 ≤ samples.countP (· ≤ r)

namespace OrderStatistic

variable {samples other : List Nat} {i j r q : Nat}

/-- A later place has no smaller sample: else the samples up to it would all
be below the other one, and too many. -/
theorem le (hr : OrderStatistic samples i r) (hq : OrderStatistic samples j q) (hij : i ≤ j) :
    r ≤ q := by
  refine Nat.le_of_not_lt fun hlt => ?_
  have hcount : samples.countP (· ≤ q) ≤ samples.countP (· < r) := by
    refine List.countP_mono_left fun x _ hx => ?_
    exact decide_eq_true (Nat.lt_of_le_of_lt (of_decide_eq_true hx) hlt)
  have hbelow := hr.below
  have hupTo := hq.upTo
  omega

theorem unique (hr : OrderStatistic samples i r) (hq : OrderStatistic samples i q) : r = q :=
  Nat.le_antisymm (hr.le hq (Nat.le_refl i)) (hq.le hr (Nat.le_refl i))

theorem perm (h : other.Perm samples) (hr : OrderStatistic other i r) :
    OrderStatistic samples i r where
  mem := h.mem_iff.mp hr.mem
  below := h.countP_eq _ ▸ hr.below
  upTo := h.countP_eq _ ▸ hr.upTo

end OrderStatistic

/-! ## Places in a sorted list -/

/-- A test that holds of the smaller samples whenever it holds of a larger
one holds at just those places of a sorted list that come before the number
of samples it holds of. -/
theorem test_getElem?_iff (test : Nat → Bool)
    (hdown : ∀ a b, a ≤ b → test b = true → test a = true) {l : List Nat}
    (hsorted : l.Pairwise (· ≤ ·)) {i r : Nat} (hr : l[i]? = some r) :
    test r = true ↔ i < l.countP test := by
  induction l generalizing i with
  | nil => cases hr
  | cons a l ih =>
      obtain ⟨hfirst, hrest⟩ := List.pairwise_cons.mp hsorted
      by_cases ha : test a = true
      · rw [List.countP_cons_of_pos ha]
        cases i with
        | zero =>
            obtain rfl : a = r := Option.some.inj hr
            exact iff_of_true ha (Nat.succ_pos _)
        | succ i => exact (ih hrest hr).trans Nat.succ_lt_succ_iff.symm
      · -- Where the first sample fails, so do all that follow it.
        have hnone : ∀ b ∈ a :: l, ¬ test b = true := fun b hb hholds => by
          refine ha (hdown a b ?_ hholds)
          obtain rfl | hb := List.mem_cons.mp hb
          · exact Nat.le_refl b
          · exact hfirst b hb
        rw [List.countP_eq_zero.mpr hnone]
        exact iff_of_false (hnone r (List.mem_of_getElem? hr)) (Nat.not_lt_zero i)

theorem orderStatistic_getElem? {l : List Nat} (hsorted : l.Pairwise (· ≤ ·)) {i r : Nat}
    (hr : l[i]? = some r) : OrderStatistic l i r where
  mem := List.mem_of_getElem? hr
  below := by
    have hiff := test_getElem?_iff (· < r) (fun a b hab hb =>
      decide_eq_true (Nat.lt_of_le_of_lt hab (of_decide_eq_true hb))) hsorted hr
    exact Nat.le_of_not_lt fun hlt => Nat.lt_irrefl r (of_decide_eq_true (hiff.mpr hlt))
  upTo := by
    have hiff := test_getElem?_iff (· ≤ r) (fun a b hab hb =>
      decide_eq_true (Nat.le_trans hab (of_decide_eq_true hb))) hsorted hr
    exact hiff.mp (decide_eq_true (Nat.le_refl r))

/-! ## Percentiles -/

theorem sorted_perm (samples : List Nat) : (sorted samples).Perm samples :=
  List.mergeSort_perm samples _

theorem sorted_pairwise (samples : List Nat) : (sorted samples).Pairwise (· ≤ ·) := by
  have htrans (a b c : Nat) (hab : decide (a ≤ b) = true) (hbc : decide (b ≤ c) = true) :
      decide (a ≤ c) = true :=
    decide_eq_true (Nat.le_trans (of_decide_eq_true hab) (of_decide_eq_true hbc))
  have htotal (a b : Nat) : (decide (a ≤ b) || decide (b ≤ a)) = true := by
    simpa using Nat.le_total a b
  exact (List.pairwise_mergeSort htrans htotal samples).imp of_decide_eq_true

theorem percentileIndex_mono (n : Nat) {p q : Nat} (h : p ≤ q) :
    percentileIndex n p ≤ percentileIndex n q := by
  have hquotient : n * p / 100 ≤ n * q / 100 :=
    Nat.div_le_div_right (Nat.mul_le_mul_left n h)
  unfold percentileIndex
  omega

variable {samples : List Nat}

/-- The place of a percentile is one of the sorted samples. -/
theorem getElem?_percentileIndex (h : samples ≠ []) (p : Nat) :
    (sorted samples)[percentileIndex samples.length p]? = some (percentile samples p) := by
  have hpos : 0 < samples.length := List.length_pos_iff.mpr h
  have hlt : percentileIndex samples.length p < (sorted samples).length := by
    rw [(sorted_perm samples).length_eq, percentileIndex]
    omega
  rw [percentile, List.getD_eq_getElem?_getD, List.getElem?_eq_getElem hlt, Option.getD_some]

theorem percentile_orderStatistic (h : samples ≠ []) (p : Nat) :
    OrderStatistic samples (percentileIndex samples.length p) (percentile samples p) :=
  (orderStatistic_getElem? (sorted_pairwise samples) (getElem?_percentileIndex h p)).perm
    (sorted_perm samples)

theorem percentile_mono (h : samples ≠ []) {p q : Nat} (hpq : p ≤ q) :
    percentile samples p ≤ percentile samples q :=
  (percentile_orderStatistic h p).le (percentile_orderStatistic h q)
    (percentileIndex_mono samples.length hpq)

/-- The order in which the samples came does not matter. -/
theorem percentile_perm {other : List Nat} (h : samples ≠ []) (hperm : other.Perm samples)
    (p : Nat) : percentile other p = percentile samples p := by
  have hne : other ≠ [] := fun hnil => h (List.Perm.nil_eq (hnil ▸ hperm)).symm
  have hother := percentile_orderStatistic hne p
  rw [hperm.length_eq] at hother
  exact (hother.perm hperm).unique (percentile_orderStatistic h p)

/-- **The figures of a report.** Each is the sample at its place among the
sorted ones, a place that exists. At most so many samples are smaller as come
before that place, and more than so many are no greater. So the figures are
the same in whatever order the samples came, and they never decrease. -/
theorem percentiles_orderStatistics (h : samples ≠ []) :
    (∀ p r, (p, r) ∈ [(50, (percentiles samples).p50), (90, (percentiles samples).p90),
        (99, (percentiles samples).p99)] →
      let i := min (samples.length * p / 100) (samples.length - 1)
      (sorted samples)[i]? = some r ∧ r ∈ samples ∧
        samples.countP (· < r) ≤ i ∧ i + 1 ≤ samples.countP (· ≤ r)) ∧
    (∀ other : List Nat, other.Perm samples → percentiles other = percentiles samples) ∧
    (percentiles samples).p50 ≤ (percentiles samples).p90 ∧
    (percentiles samples).p90 ≤ (percentiles samples).p99 := by
  have hfigure (p : Nat) := percentile_orderStatistic h p
  refine ⟨fun p r hmem => ?_, fun other hperm => ?_, percentile_mono h (by decide),
    percentile_mono h (by decide)⟩
  · obtain rfl : r = percentile samples p := by
      simp only [List.mem_cons, Prod.mk.injEq, List.not_mem_nil, or_false] at hmem
      obtain ⟨rfl, rfl⟩ | ⟨rfl, rfl⟩ | ⟨rfl, rfl⟩ := hmem <;> rfl
    exact ⟨getElem?_percentileIndex h p, (hfigure p).mem, (hfigure p).below, (hfigure p).upTo⟩
  · simp only [percentiles, percentile_perm h hperm]

/-- Ten samples with a tie in the middle. -/
theorem percentiles_orderStatistics_tie :
    let samples := [9, 1, 8, 2, 7, 3, 6, 5, 4, 5]
    samples ≠ [] ∧ (percentiles samples).p50 = 5 ∧ (percentiles samples).p99 = 9 ∧
      percentiles samples.reverse = percentiles samples := by
  intro samples
  have hne : samples ≠ [] := List.cons_ne_nil _ _
  obtain ⟨hfigures, hperm, -, -⟩ := percentiles_orderStatistics hne
  refine ⟨hne, ?_, ?_, hperm _ samples.reverse_perm⟩
  · obtain ⟨-, hmem, hbelow, hupTo⟩ := hfigures 50 _ (.head _)
    exact OrderStatistic.unique ⟨hmem, hbelow, hupTo⟩ ⟨by decide, by decide, by decide⟩
  · obtain ⟨-, hmem, hbelow, hupTo⟩ := hfigures 99 _ (.tail _ (.tail _ (.head _)))
    exact OrderStatistic.unique ⟨hmem, hbelow, hupTo⟩ ⟨by decide, by decide, by decide⟩

end EventQuery.Latency
