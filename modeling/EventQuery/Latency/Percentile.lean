/-!
# Percentiles

Order statistics of a nonempty list of durations in nanoseconds.
-/

namespace EventQuery.Latency

/-- Where the `p`-th percentile stands among `n` sorted samples. -/
def percentileIndex (n p : Nat) : Nat := min (n * p / 100) (n - 1)

def sorted (samples : List Nat) : List Nat := samples.mergeSort

/-- The `p`-th percentile; zero without samples. -/
def percentile (samples : List Nat) (p : Nat) : Nat :=
  (sorted samples).getD (percentileIndex samples.length p) 0

/-- The three figures of a report. -/
structure Percentiles where
  p50 : Nat
  p90 : Nat
  p99 : Nat
  deriving DecidableEq, Repr

def percentiles (samples : List Nat) : Percentiles :=
  ⟨percentile samples 50, percentile samples 90, percentile samples 99⟩

end EventQuery.Latency
