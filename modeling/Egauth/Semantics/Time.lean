import Mathlib.Order.Lattice
import Mathlib.Tactic.Linarith

/-! Instants and durations of the Go standard library.

An instant is the number of nanoseconds since the zero Time, 1 January of
year 1 UTC, so that `IsZero` is equality with zero. A Duration is a signed
64-bit count of nanoseconds; only `Sub` can leave that range, and it
saturates.
-/

set_option autoImplicit false

namespace Egauth

/-- Nanoseconds since the zero Time. -/
abbrev Time := Int

abbrev Duration := Int

namespace Duration

def microsecond : Duration := 1000
def second : Duration := 1000000000
def minute : Duration := 60 * second
def hour : Duration := 60 * minute
def maxDuration : Duration := 9223372036854775807
def minDuration : Duration := -9223372036854775808

end Duration

namespace Time

/-- `t.Truncate(time.Microsecond)`: round down to a multiple since the zero Time. -/
def truncate (t : Time) : Time := t - t % Duration.microsecond

/-- `t.Sub(u)`, saturating at the bounds of a Duration. -/
def sub (t u : Time) : Duration := max Duration.minDuration (min Duration.maxDuration (t - u))

theorem truncate_le (t : Time) : truncate t ≤ t := by
  unfold truncate Duration.microsecond
  lia

theorem microsecond_dvd_truncate (t : Time) : Duration.microsecond ∣ truncate t := Int.dvd_self_sub_emod

variable {t : Time}

theorem truncate_of_dvd (whole : Duration.microsecond ∣ t) : truncate t = t := by
  unfold truncate
  rw [Int.emod_eq_zero_of_dvd whole, Int.sub_zero]

theorem truncate_add (whole : Duration.microsecond ∣ t) (d : Duration) : truncate (t + d) = t + truncate d := by
  unfold truncate
  rw [Int.add_emod, Int.emod_eq_zero_of_dvd whole, Int.zero_add, Int.emod_emod_of_dvd d (dvd_refl _)]
  lia

theorem truncate_mono {u : Time} (le : t ≤ u) : truncate t ≤ truncate u := by
  unfold truncate Duration.microsecond
  lia

/-- Within the range of a Duration the saturating difference decides the exact one. -/
theorem sub_lt_iff {u : Time} {d : Duration} (positive : Duration.minDuration < d)
    (bounded : d ≤ Duration.maxDuration) : sub t u < d ↔ t - u < d := by
  unfold sub
  constructor
  · intro below
    rcases max_lt_iff.mp below with ⟨-, below⟩
    rcases min_lt_iff.mp below with large | below
    · exact absurd large (not_lt.mpr bounded)
    · exact below
  · exact fun below => max_lt positive (min_lt_of_right_lt below)

/-- At the largest Duration the saturating difference no longer bounds the exact one. -/
theorem sub_le_iff {u : Time} {d : Duration} (positive : Duration.minDuration ≤ d)
    (bounded : d < Duration.maxDuration) : sub t u ≤ d ↔ t - u ≤ d := by
  unfold sub
  constructor
  · intro below
    rcases max_le_iff.mp below with ⟨-, below⟩
    rcases min_le_iff.mp below with large | below
    · exact absurd large (not_le.mpr bounded)
    · exact below
  · exact fun below => max_le positive (min_le_of_right_le below)

end Time
end Egauth
