import Mathlib.Algebra.Order.Field.Rat
import Mathlib.Tactic.FieldSimp
import Mathlib.Tactic.Linarith
import Mathlib.Tactic.Ring

/-! Token buckets.

A bucket holds `burst` tokens at most and gains one every `refill` units of
time. Amounts are exact: what a bucket holds is a whole number of parts, each
gained in one unit of time. What is taken out of a bucket in a window of time is
accounted for by `Spent`, from step to step.
-/

set_option autoImplicit false

namespace Egauth.TokenBucket

structure Rate where
  burst : Int
  refill : Int
  deriving DecidableEq, Repr

variable (rate : Rate)

def level (tokens : ℚ) (elapsed : Int) : ℚ := min (tokens + elapsed / rate.refill) rate.burst

def Whole (tokens : ℚ) : Prop := ∃ parts : Int, tokens * rate.refill = parts

variable {rate} {tokens : ℚ} {elapsed later : Int}

theorem level_le_burst : level rate tokens elapsed ≤ rate.burst := min_le_right _ _

theorem level_zero (within : tokens ≤ rate.burst) : level rate tokens 0 = tokens := by
  simpa [level] using within

section
variable (positive : 0 < rate.refill)
include positive

theorem refill_pos : (0 : ℚ) < rate.refill := by exact_mod_cast positive

theorem level_mono (passed : elapsed ≤ later) : level rate tokens elapsed ≤ level rate tokens later := by
  have refill := refill_pos positive
  have cast : (elapsed : ℚ) ≤ later := by exact_mod_cast passed
  unfold level
  gcongr

theorem level_nonneg (burst : 0 ≤ rate.burst) (nonneg : 0 ≤ tokens) (passed : 0 ≤ elapsed) :
    0 ≤ level rate tokens elapsed := by
  have refill := refill_pos positive
  have cast : (0 : ℚ) ≤ elapsed := by exact_mod_cast passed
  exact le_min (add_nonneg nonneg (div_nonneg cast refill.le)) (by exact_mod_cast burst)

/-- A bucket gains no more than the time that passes is worth. -/
theorem level_gain {gained : Int} (passed : later ≤ elapsed + gained) (nonneg : 0 ≤ gained) :
    level rate tokens later ≤ level rate tokens elapsed + gained / rate.refill := by
  have refill := refill_pos positive
  have cast : (later : ℚ) ≤ elapsed + gained := by exact_mod_cast passed
  have gain : (0 : ℚ) ≤ gained / rate.refill := by
    have cast : (0 : ℚ) ≤ gained := by exact_mod_cast nonneg
    exact div_nonneg cast refill.le
  unfold level
  rw [min_add]
  refine min_le_min ?_ (by linarith)
  rw [add_assoc, ← add_div]
  gcongr

theorem level_whole (whole : Whole rate tokens) : Whole rate (level rate tokens elapsed) := by
  have refill := refill_pos positive
  obtain ⟨parts, same⟩ := whole
  unfold level
  rcases min_choice (tokens + elapsed / rate.refill) (rate.burst : ℚ) with least | least
  · refine ⟨parts + elapsed, ?_⟩
    rw [least, add_mul, same, div_mul_cancel₀ _ refill.ne']
    push_cast
    rfl
  · refine ⟨rate.burst * rate.refill, ?_⟩
    rw [least]
    push_cast
    rfl

theorem one_le_level_iff (burst : 1 ≤ rate.burst) :
    1 ≤ level rate tokens elapsed ↔ (1 - tokens) * rate.refill ≤ elapsed := by
  have refill := refill_pos positive
  have cast : (1 : ℚ) ≤ rate.burst := by exact_mod_cast burst
  unfold level
  rw [le_min_iff, and_iff_left cast, ← sub_le_iff_le_add', le_div_iff₀ refill]

end

theorem Whole.sub_one (whole : Whole rate tokens) : Whole rate (tokens - 1) := by
  obtain ⟨parts, same⟩ := whole
  refine ⟨parts - rate.refill, ?_⟩
  rw [sub_mul, same, one_mul]
  push_cast
  rfl

theorem whole_burst : Whole rate rate.burst := ⟨rate.burst * rate.refill, by push_cast; rfl⟩

/-- What was taken in the window from `a` to `b`, with the clock at `now` and a bucket that holds `held`. -/
def Spent (rate : Rate) (a b now : Int) (held : ℚ) (taken : Nat) : Prop :=
  if now < a then taken = 0
  else if now ≤ b then taken + held ≤ rate.burst + (now - a : Int) / rate.refill
  else (taken : ℚ) ≤ rate.burst + (b - a : Int) / rate.refill

section
variable {a b now next : Int} {held held' : ℚ} {taken more : Nat}

theorem spent_full (positive : 0 < rate.refill) (window : a ≤ b) (burst : 0 ≤ rate.burst) :
    Spent rate a b now rate.burst 0 := by
  have refill := refill_pos positive
  have free {x : Int} (le : 0 ≤ x) : (0 : ℚ) ≤ x / rate.refill := div_nonneg (by exact_mod_cast le) refill.le
  have cast : (0 : ℚ) ≤ rate.burst := by exact_mod_cast burst
  unfold Spent
  split_ifs with before inside
  · rfl
  · have := free (sub_nonneg.mpr (not_lt.mp before))
    push_cast at this ⊢
    linarith
  · have := free (sub_nonneg.mpr window)
    push_cast at this ⊢
    linarith

theorem Spent.pass (positive : 0 < rate.refill) (window : a ≤ b) (spent : Spent rate a b now held taken)
    (burst : 0 ≤ rate.burst) (nonneg : 0 ≤ held) (within : held' ≤ rate.burst) (passed : now ≤ next)
    (gain : held' ≤ held + (next - now : Int) / rate.refill) : Spent rate a b next held' taken := by
  have refill := refill_pos positive
  have worth {x y : Int} (le : x ≤ y) : (x : ℚ) / rate.refill ≤ y / rate.refill := by
    have cast : (x : ℚ) ≤ y := by exact_mod_cast le
    gcongr
  have free {x : Int} (le : 0 ≤ x) : (0 : ℚ) ≤ x / rate.refill := by
    simpa using worth le
  have burst' : (0 : ℚ) ≤ rate.burst := by exact_mod_cast burst
  unfold Spent at spent ⊢
  by_cases before : now < a
  · rw [if_pos before] at spent
    subst spent
    split_ifs with early inside
    · rfl
    · have := free (sub_nonneg.mpr (not_lt.mp early))
      push_cast at this ⊢
      linarith
    · have := free (sub_nonneg.mpr window)
      push_cast at this ⊢
      linarith
  · rw [if_neg before] at spent
    rw [if_neg (by omega : ¬ next < a)]
    by_cases inside : now ≤ b
    · rw [if_pos inside] at spent
      split_ifs with inside'
      · have sum : ((now - a : Int) : ℚ) / rate.refill + (next - now : Int) / rate.refill =
            (next - a : Int) / rate.refill := by
          rw [← add_div]
          push_cast
          ring
        linarith
      · have := worth (sub_le_sub_right inside a)
        linarith
    · rw [if_neg inside] at spent
      rw [if_neg (by omega : ¬ next ≤ b)]
      exact spent

theorem Spent.take (spent : Spent rate a b now held taken) (counted : more ≤ if a ≤ now ∧ now ≤ b then 1 else 0) :
    Spent rate a b now (held - 1) (taken + more) := by
  unfold Spent at spent ⊢
  split_ifs at spent counted ⊢ with before inside outside
  · omega
  · omega
  · have cast : (more : ℚ) ≤ 1 := by exact_mod_cast counted
    push_cast at spent ⊢
    linarith
  · omega
  · omega
  · have none : more = 0 := by omega
    simpa [none] using spent

theorem Spent.bounded (positive : 0 < rate.refill) (window : a ≤ b) (burst : 0 ≤ rate.burst) (nonneg : 0 ≤ held)
    (spent : Spent rate a b now held taken) : (taken : Int) ≤ rate.burst + (b - a) / rate.refill := by
  have refill := refill_pos positive
  have final := spent.pass positive window burst nonneg (by exact_mod_cast burst : (0 : ℚ) ≤ rate.burst)
    (le_max_left now (b + 1)) ?_
  · unfold Spent at final
    rw [if_neg (by omega), if_neg (by omega), ← sub_le_iff_le_add', le_div_iff₀ refill] at final
    have whole : ((taken : Int) - rate.burst) * rate.refill ≤ b - a := by exact_mod_cast final
    have := (Int.le_ediv_iff_mul_le positive).mpr whole
    omega
  · have cast : (0 : ℚ) ≤ (max now (b + 1) - now : Int) := by
      exact_mod_cast sub_nonneg.mpr (le_max_left now (b + 1))
    have := div_nonneg cast refill.le
    linarith

end
end Egauth.TokenBucket
