import Egauth.Limiter.Memory
import Mathlib.Algebra.BigOperators.Fin
import Mathlib.Algebra.Order.BigOperators.Group.Finset

/-! The budget of a key in a window of time.

One bucket is followed through a run. Dropping it when it is full changes
nothing for the key, so that what the key has is all that matters, and what is
taken in a window is accounted for from call to call.
-/

set_option autoImplicit false

namespace Egauth.Limiter
open Egauth.Core TokenBucket

structure Fits (budget : Budget) (cls : Class) (now : Time) (b : Bucket) : Prop where
  cls : b.cls = cls
  nonneg : 0 ≤ b.tokens
  within : b.tokens ≤ budget.burst
  past : b.updated ≤ now
  whole : Whole budget b.tokens

/-- A bucket is refilled, and a key has a token at some time. -/
structure Regular (budget : Budget) : Prop where
  positive : 0 < budget.refill
  burst : 1 ≤ budget.burst

section
variable {budget : Budget} {cls : Class} {now next : Time} {b : Option Bucket} {l l' : Limiter} {sk : Bytes}

theorem Fits.later {b : Bucket} (fits : Fits budget cls now b) (passed : now ≤ next) : Fits budget cls next b :=
  { fits with past := fits.past.trans passed }

theorem held_le : held budget b now ≤ budget.burst := by
  cases b with
  | none => exact le_rfl
  | some b => exact level_le_burst

theorem held_gain (regular : Regular budget) (passed : now ≤ next) :
    held budget b next ≤ held budget b now + (next - now : Int) / budget.refill := by
  cases b with
  | none =>
    have gain : (0 : ℚ) ≤ (next - now : Int) / budget.refill := by
      have cast : (0 : ℚ) ≤ (next - now : Int) := by exact_mod_cast sub_nonneg.mpr passed
      exact div_nonneg cast (refill_pos regular.positive).le
    change (budget.burst : ℚ) ≤ budget.burst + _
    linarith
  | some b => exact level_gain regular.positive (elapsed_le b passed) (sub_nonneg.mpr passed)

theorem held_nonneg (regular : Regular budget) (fits : ∀ b' ∈ b, Fits budget cls now b') : 0 ≤ held budget b now := by
  have burst : 0 ≤ budget.burst := le_trans zero_le_one regular.burst
  cases b with
  | none =>
    change (0 : ℚ) ≤ budget.burst
    exact_mod_cast burst
  | some b => exact level_nonneg regular.positive burst (fits b rfl).nonneg (elapsed_nonneg b now)

theorem held_whole (regular : Regular budget) (fits : ∀ b' ∈ b, Fits budget cls now b') :
    Whole budget (held budget b now) := by
  cases b with
  | none => exact whole_burst
  | some b => exact level_whole regular.positive (fits b rfl).whole

theorem Treats.held {read : Time} (regular : Regular budget) (treats : l.Treats sk read l')
    (enforced : l.budget cls = budget) (fits : ∀ b' ∈ l.buckets.lookup sk, Fits budget cls now b')
    (passed : read ≤ now) : held budget (l'.buckets.lookup sk) now = held budget (l.buckets.lookup sk) now := by
  cases treats with
  | kept same => rw [same]
  | @dropped b found full gone =>
    have whole : (budget.burst : ℚ) ≤ refilled b budget read := by
      have := of_decide_eq_true full
      rwa [(fits b found).cls, enforced] at this
    have later : refilled b budget read ≤ refilled b budget now :=
      level_mono regular.positive (elapsed_mono b passed)
    rw [found, gone]
    exact le_antisymm (whole.trans later) level_le_burst

theorem Treats.fits {read : Time} (treats : l.Treats sk read l')
    (fits : ∀ b' ∈ l.buckets.lookup sk, Fits budget cls now b') :
    ∀ b' ∈ l'.buckets.lookup sk, Fits budget cls now b' := by
  cases treats with
  | kept same => rwa [same]
  | dropped _ _ gone => simp [gone]

theorem charge_fits (regular : Regular budget) (fits : ∀ b' ∈ b, Fits budget cls now b') :
    Fits budget cls now (charge cls budget b now).1 := by
  have within : held budget b now ≤ budget.burst := held_le
  have nonneg := held_nonneg regular fits
  have whole := held_whole regular fits
  rw [charge_eq fun b' member => ⟨(fits b' member).cls, (fits b' member).past⟩]
  split
  next enough => exact ⟨rfl, sub_nonneg.mpr enough, by linarith, le_rfl, whole.sub_one⟩
  · exact ⟨rfl, nonneg, within, le_rfl, whole⟩

theorem charge_held (fits : ∀ b' ∈ b, Fits budget cls now b') :
    held budget (some (charge cls budget b now).1) now =
      if (charge cls budget b now).2.allowed then held budget b now - 1 else held budget b now := by
  have within : held budget b now ≤ budget.burst := held_le
  have now' {tokens : ℚ} (le : tokens ≤ budget.burst) : held budget (some ⟨cls, tokens, now⟩) now = tokens := by
    change level budget tokens (elapsed ⟨cls, tokens, now⟩ now) = tokens
    rw [elapsed_zero rfl, level_zero le]
  rw [charge_eq fun b' member => ⟨(fits b' member).cls, (fits b' member).past⟩]
  split
  · exact now' (by linarith)
  · exact now' within

end

def allowedIn (key : Key) (a b : Time) (answer : Answer) : Bool :=
  decide (answer.key = key ∧ a ≤ answer.now ∧ answer.now ≤ b) &&
    match answer.result with
    | .ok d => d.allowed
    | .error _ => false

def clock : Time → List Call → Time
  | last, [] => last
  | _, .allow _ now _ :: calls => clock now calls
  | last, .reapExpired _ now :: calls => clock (max last now) calls
  | last, .eraseTenant .. :: calls => clock last calls

theorem timed_append {last : Time} {calls calls' : List Call} :
    Timed last (calls ++ calls') ↔ Timed last calls ∧ Timed (clock last calls) calls' := by
  induction calls generalizing last with
  | nil => simp [Timed, clock]
  | cons call calls ih =>
    cases call with
    | allow ctx now key => simp only [List.cons_append, Timed, clock, ih, and_assoc]
    | reapExpired ctx now => simp only [List.cons_append, Timed, clock, ih]
    | eraseTenant ctx t => simp only [List.cons_append, Timed, clock, ih]

def Call.keeps : Call → Bool
  | .eraseTenant .. => false
  | _ => true

structure Metered (sum : Bytes → Bytes) (budget : Budget) (key : Key) (a b last : Time) (l : Limiter) (taken : Nat) :
    Prop where
  enforced : l.budget key.cls = budget
  fits : ∀ b' ∈ l.buckets.lookup (key.storageKey sum), Fits budget key.cls last b'
  spent : Spent budget a b last (held budget (l.buckets.lookup (key.storageKey sum)) last) taken

section
variable {sum : Bytes → Bytes} {budget : Budget} {key : Key} {a b last now : Time} {l l' : Limiter} {taken : Nat}
  (regular : Regular budget)
include regular

theorem Metered.pass (window : a ≤ b) (metered : Metered sum budget key a b last l taken) (passed : last ≤ now) :
    Metered sum budget key a b now l taken where
  enforced := metered.enforced
  fits b' member := (metered.fits b' member).later passed
  spent := metered.spent.pass regular.positive window (le_trans zero_le_one regular.burst)
    (held_nonneg regular metered.fits) held_le passed (held_gain regular passed)

theorem Metered.room (metered : Metered sum budget key a b last l taken) (room : l.Roomy now l') (passed : now ≤ last) :
    Metered sum budget key a b last l' taken where
  enforced := by rw [Limiter.budget, room.instances, ← metered.enforced, Limiter.budget]
  fits := (room.treats _).fits metered.fits
  spent := by
    rw [(room.treats _).held regular metered.enforced metered.fits passed]
    exact metered.spent

theorem Metered.charge {k : Key} (metered : Metered sum budget key a b now l taken)
    (own : k.storageKey sum = key.storageKey sum) (roomy : Metered sum budget key a b now l' taken) :
    Metered sum budget key a b now { l' with buckets := l'.buckets.insert (k.storageKey sum) (l.charged sum now k).1 }
      (taken + if allowedIn key a b ⟨k, now, .ok (l.charged sum now k).2⟩ then 1 else 0) := by
  have charged : l.charged sum now k =
      Limiter.charge key.cls budget (l.buckets.lookup (key.storageKey sum)) now := by
    rw [Limiter.charged, own, storageKey_cls own, metered.enforced]
  rw [charged, own]
  refine ⟨roomy.enforced, ?_, ?_⟩
  · rw [AList.lookup_insert]
    rintro b' ⟨⟩
    exact charge_fits regular metered.fits
  · rw [AList.lookup_insert, charge_held metered.fits]
    split
    · refine metered.spent.take ?_
      split_ifs with counted inside inside
      · exact le_rfl
      · exact absurd (of_decide_eq_true (Bool.and_eq_true_iff.mp counted).1).2 inside
      · exact zero_le_one
      · exact le_rfl
    next refused => simpa [allowedIn, refused] using metered.spent

theorem Metered.allow (window : a ≤ b) (metered : Metered sum budget key a b last l taken) (passed : last ≤ now)
    (ctx : Option Err) (k : Key) :
    Metered sum budget key a b now (l.allow sum ctx now k).1
      (taken + if allowedIn key a b ⟨k, now, (l.allow sum ctx now k).2⟩ then 1 else 0) := by
  have before := metered.pass regular window passed
  rcases allow_cases sum l ctx now k with ⟨err, l', same, room⟩ | ⟨-, -, l', room, same⟩
  · rw [same]
    simpa [allowedIn] using before.room regular room le_rfl
  · have roomy := before.room regular room le_rfl
    rw [same]
    by_cases own : k.storageKey sum = key.storageKey sum
    · exact before.charge regular own roomy
    · have other : k ≠ key := fun alike => own (congrArg (Key.storageKey sum) alike)
      have apart : key.storageKey sum ≠ k.storageKey sum := fun alike => own alike.symm
      refine ⟨roomy.enforced, ?_, ?_⟩
      · simpa only [AList.lookup_insert_ne apart] using roomy.fits
      · simpa [AList.lookup_insert_ne apart, allowedIn, other] using roomy.spent

theorem Metered.reap (window : a ≤ b) (metered : Metered sum budget key a b last l taken) (ctx : Option Err) :
    Metered sum budget key a b (max last now) (l.reapExpired ctx now).1 taken := by
  have later := metered.pass regular window (le_max_left last now)
  cases ctx with
  | some err => exact later
  | none => exact later.room regular ⟨rfl, fun sk => sweep_treats l sk now⟩ (le_max_right last now)

theorem Metered.after (window : a ≤ b) {calls : List Call} (metered : Metered sum budget key a b last l taken)
    (timed : Timed last calls) (kept : ∀ call ∈ calls, call.keeps = true) :
    Metered sum budget key a b (clock last calls) (after sum l calls)
      (taken + (decisions sum l calls).countP (allowedIn key a b)) := by
  induction calls generalizing l last taken with
  | nil => exact metered
  | cons call calls ih =>
    have rest := fun call member => kept call (List.mem_cons_of_mem _ member)
    cases call with
    | allow ctx now k =>
      have next := ih (metered.allow regular window timed.1 ctx k) timed.2 rest
      rw [decisions, List.countP_cons, Nat.add_comm (List.countP _ _), ← Nat.add_assoc]
      exact next
    | reapExpired ctx now => exact ih (metered.reap regular window ctx) timed rest
    | eraseTenant ctx t => cases kept _ List.mem_cons_self

end

theorem toDuration_intCast (d : Int) : toDuration d = d := by simp [toDuration]

section
variable {budget : Budget} {cls : Class} {b : Option Bucket} {now t : Time} {r : Duration}

/-- A key that was refused is let through after RetryAfter, and not before. -/
theorem retryAfter_exact (regular : Regular budget) (small : budget.refill ≤ Duration.maxDuration)
    (fits : ∀ b' ∈ b, Fits budget cls now b') (refused : (charge cls budget b now).2 = ⟨false, r⟩) (later : now ≤ t) :
    (charge cls budget (some (charge cls budget b now).1) t).2.allowed = true ↔ now + r ≤ t := by
  have nonneg := held_nonneg regular fits
  obtain ⟨parts, whole⟩ := held_whole regular fits
  rw [charge_eq fun b' member => ⟨(fits b' member).cls, (fits b' member).past⟩] at refused ⊢
  split at refused
  · cases refused
  next few =>
    -- What is missing is a whole number of parts, so that no fraction is dropped.
    have missing : (1 - held budget b now) * budget.refill = (budget.refill - parts : Int) := by
      rw [sub_mul, whole, one_mul]
      push_cast
      rfl
    have short : 0 < budget.refill - parts := by
      have := mul_pos (sub_pos.mpr (not_le.mp few)) (refill_pos regular.positive)
      rw [missing] at this
      exact_mod_cast this
    have positive : 0 ≤ parts := by
      have := mul_nonneg nonneg (refill_pos regular.positive).le
      rw [whole] at this
      exact_mod_cast this
    rw [missing, toDuration_intCast] at refused
    have wait : r = budget.refill - parts := (congrArg Decision.retryAfter refused).symm.trans (max_eq_left short)
    rw [if_neg few]
    have fresh : ∀ b' ∈ some (Bucket.mk cls (held budget b now) now), b'.cls = cls ∧ b'.updated ≤ t := by
      rintro b' ⟨⟩
      exact ⟨rfl, later⟩
    have enough : held budget (some ⟨cls, held budget b now, now⟩) t ≥ 1 ↔ now + r ≤ t := by
      refine (one_le_level_iff regular.positive regular.burst).trans ?_
      rw [missing, Int.cast_le, wait]
      unfold elapsed Time.sub Duration.minDuration
      unfold Duration.maxDuration at small ⊢
      lia
    rw [charge_eq fresh, ← enough]
    split_ifs with allowed <;> simp [allowed]

end

theorem Class.regular {c : Class} (valid : c.valid = true) :
    Regular c.budget ∧ c.budget.refill ≤ Duration.maxDuration := by
  cases c with
  | invalid => cases valid
  | _ => exact ⟨⟨by decide, by decide⟩, by decide⟩

section
variable {b : Budget} {n : Int} (regular : Regular b) (bounded : b.refill * n ≤ Duration.maxDuration)
include regular bounded

theorem perInstance_eq (several : ¬ n < 2) : perInstance b n = ⟨max (b.burst.tdiv n) 1, b.refill * n⟩ := by
  have nonneg : 0 ≤ b.refill * n := mul_nonneg regular.positive.le (by omega)
  unfold Duration.maxDuration at bounded
  rw [perInstance, if_neg several, Int.bmod_eq_of_le (by norm_num; omega) (by norm_num; omega)]

theorem regular_perInstance (small : b.refill ≤ Duration.maxDuration) :
    Regular (perInstance b n) ∧ (perInstance b n).refill ≤ Duration.maxDuration := by
  by_cases several : n < 2
  · rw [perInstance, if_pos several]
    exact ⟨regular, small⟩
  · rw [perInstance_eq regular bounded several]
    exact ⟨⟨mul_pos regular.positive (by omega), le_max_right _ _⟩, bounded⟩

/-- The shares together are no more than the budget, one token for each instance apart. -/
theorem shares_le {d : Duration} (nonneg : 0 ≤ d) :
    (n.toNat : ℚ) * ((perInstance b n).burst + d / (perInstance b n).refill : Int) ≤
      max b.burst n + (d : ℚ) / b.refill := by
  have refill := refill_pos regular.positive
  have cast : (0 : ℚ) ≤ d := by exact_mod_cast nonneg
  have gain := div_nonneg cast refill.le
  have burst : (1 : ℚ) ≤ b.burst := by exact_mod_cast regular.burst
  have floor {k r : Int} (positive : 0 < r) (same : r = b.refill * k) :
      (k : ℚ) * (d / r : Int) ≤ (d : ℚ) / b.refill := by
    rw [le_div_iff₀ refill]
    have below := Int.ediv_mul_le d positive.ne'
    rw [same] at below ⊢
    have cast : (((d / (b.refill * k)) * (b.refill * k) : Int) : ℚ) ≤ d := by exact_mod_cast below
    push_cast at cast ⊢
    linarith
  by_cases several : n < 2
  · rw [perInstance, if_pos several]
    rcases (by omega : n ≤ 0 ∨ n = 1) with none | rfl
    · rw [Int.toNat_of_nonpos none]
      have most : (b.burst : ℚ) ≤ max (b.burst : ℚ) n := le_max_left _ _
      push_cast
      linarith
    · have most : (b.burst : ℚ) ≤ max (b.burst : ℚ) (1 : Int) := le_max_left _ _
      have := floor regular.positive (mul_one _).symm
      push_cast at this most ⊢
      linarith
  · have count : (n.toNat : ℚ) = n := by exact_mod_cast Int.toNat_of_nonneg (by omega : 0 ≤ n)
    rw [perInstance_eq regular bounded several, count]
    have parts := floor (mul_pos regular.positive (by omega : 0 < n)) rfl
    have whole : n * max (b.burst.tdiv n) 1 ≤ max b.burst n := by
      rw [mul_max_of_nonneg _ _ (by omega), mul_one]
      refine max_le_max ?_ le_rfl
      rw [Int.tdiv_eq_ediv_of_nonneg (le_trans zero_le_one regular.burst)]
      exact Int.mul_ediv_self_le (by omega)
    have cast : (n : ℚ) * (max (b.burst.tdiv n) 1 : Int) ≤ (max b.burst n : Int) := by exact_mod_cast whole
    push_cast at parts cast ⊢
    linarith

end

section
variable {sum : Bytes → Bytes} {n : Int} {key : Key}

theorem metered_new (regular : Regular (perInstance key.cls.budget n)) {a b : Time} (window : a ≤ b) (start : Time) :
    Metered sum (perInstance key.cls.budget n) key a b start (new.setInstances n) 0 where
  enforced := perInstance_max ..
  fits := nofun
  spent := spent_full regular.positive window (le_trans zero_le_one regular.burst)

/-- The window is as long as the clock tells, whatever was reaped in between. -/
theorem taken_le (regular : Regular (perInstance key.cls.budget n)) {start a b : Time} {calls : List Call}
    (timed : Timed start calls) (kept : ∀ call ∈ calls, call.keeps = true) (window : a ≤ b) :
    (((decisions sum (new.setInstances n) calls).countP (allowedIn key a b) : Nat) : Int) ≤
      (perInstance key.cls.budget n).burst + (b - a) / (perInstance key.cls.budget n).refill := by
  have start : Metered sum _ key a b start (new.setInstances n) 0 := metered_new regular window start
  have metered := start.after regular window timed kept
  rw [Nat.zero_add] at metered
  exact metered.spent.bounded regular.positive window (le_trans zero_le_one regular.burst)
    (held_nonneg regular metered.fits)

end

section
variable (sum : Bytes → Bytes) (n : Int) (key : Key)

/-- In every window the key is let through as often as the budget that is enforced allows. -/
def Windowed : Prop :=
  ∀ start calls a b, Timed start calls → (∀ call ∈ calls, call.keeps = true) → a ≤ b →
    (((decisions sum (new.setInstances n) calls).countP (allowedIn key a b) : Nat) : Int) ≤
      (perInstance key.cls.budget n).burst + (b - a) / (perInstance key.cls.budget n).refill

/-- A key that is refused is let through after RetryAfter, and not before. -/
def Retried : Prop :=
  ∀ start calls now r, Timed start (calls ++ [.allow none now key]) → (∀ call ∈ calls, call.keeps = true) →
    ((after sum (new.setInstances n) calls).allow sum none now key).2 = .ok ⟨false, r⟩ → ∀ t, now ≤ t →
      ∃ d, ((after sum (new.setInstances n) (calls ++ [.allow none now key])).allow sum none t key).2 = .ok d ∧
        (d.allowed = true ↔ now + r ≤ t)

/-- The instances together stay within the budget of the class. -/
def Shared : Prop :=
  ∀ (start : Fin n.toNat → Time) (calls : Fin n.toNat → List Call) a b, (∀ i, Timed (start i) (calls i)) →
    (∀ i, ∀ call ∈ calls i, call.keeps = true) → a ≤ b →
    ((∑ i, (decisions sum (new.setInstances n) (calls i)).countP (allowedIn key a b) : Nat) : ℚ) ≤
      max key.cls.budget.burst n + ((b - a : Int) : ℚ) / key.cls.budget.refill

end

section
variable {sum : Bytes → Bytes} {n : Int} {key : Key}

/-- Where the product wraps, an instance has one token, and its Refill is shorter than it should be. -/
theorem perInstance_wraps {c : Class} (valid : c.valid = true) (wraps : Duration.maxDuration < c.budget.refill * n) :
    (perInstance c.budget n).burst = 1 ∧ (perInstance c.budget n).refill < c.budget.refill * n ∧ c.budget.burst ≤ n ∧
      (perInstance c.budget n).refill ≤ Duration.maxDuration := by
  have several : ¬ n < 2 ∧ 0 ≤ c.budget.burst ∧ c.budget.burst < n := by
    cases c with
    | invalid => cases valid
    | _ =>
      simp only [Class.budget, Duration.maxDuration, Duration.hour, Duration.minute, Duration.second] at wraps ⊢
      lia
  obtain ⟨several, nonneg, few⟩ := several
  rw [perInstance, if_neg several]
  have half := Int.bmod_lt (x := c.budget.refill * n) (m := 2 ^ 64) (by decide)
  norm_num at half
  refine ⟨?_, ?_, few.le, Int.le_of_lt_add_one half⟩
  · rw [Int.tdiv_eq_ediv_of_nonneg nonneg, Int.ediv_eq_zero_of_lt nonneg few]
    rfl
  · exact lt_of_le_of_lt (Int.le_of_lt_add_one half) wraps

/-- One charge of a bucket, and what it leaves of the limiter. -/
theorem allow_next {l : Limiter} {budget : Budget} {b : Option Bucket} (valid : key.valid = true) (now : Time)
    (enforced : l.budget key.cls = budget) (found : l.buckets.lookup (key.storageKey sum) = b)
    (room : b = none → l.buckets.entries.length < maxBuckets) :
    ∃ l', l.allow sum none now key = (l', .ok (charge key.cls budget b now).2) ∧ l'.budget key.cls = budget ∧
      l'.buckets.lookup (key.storageKey sum) = some (charge key.cls budget b now).1 := by
  have same : l.charged sum now key = charge key.cls budget b now := by rw [charged, enforced, found]
  rw [← same]
  refine ⟨{ l with buckets := l.buckets.insert (key.storageKey sum) (l.charged sum now key).1 }, ?_, enforced,
    AList.lookup_insert _⟩
  cases b with
  | none => exact allow_of_room valid (room rfl)
  | some b => simp [allow, valid, bucketOf, found, charged, charge]

theorem allow_first (sum : Bytes → Bytes) (n : Int) (valid : key.valid = true) (now : Time) :
    ∃ l', (new.setInstances n).allow sum none now key =
        (l', .ok (charge key.cls (perInstance key.cls.budget n) none now).2) ∧
      l'.budget key.cls = perInstance key.cls.budget n ∧
      l'.buckets.lookup (key.storageKey sum) = some (charge key.cls (perInstance key.cls.budget n) none now).1 :=
  allow_next valid now (perInstance_max ..) rfl fun _ => (by decide : 0 < maxBuckets)

theorem charge_whole {budget : Budget} (one : budget.burst = 1) (now : Time) :
    charge key.cls budget none now = (⟨key.cls, 0, now⟩, ⟨true, 0⟩) := by
  have unused : ∀ b' ∈ (none : Option Bucket), b'.cls = key.cls ∧ b'.updated ≤ now := by simp
  rw [charge_eq unused]
  simp [held, one]

theorem charge_empty {budget : Budget} {now : Time} (later : 0 ≤ now) : charge key.cls budget (some ⟨key.cls, 0, 0⟩) now =
    if level budget 0 (elapsed ⟨key.cls, 0, 0⟩ now) ≥ 1 then
      (⟨key.cls, level budget 0 (elapsed ⟨key.cls, 0, 0⟩ now) - 1, now⟩, ⟨true, 0⟩)
    else (⟨key.cls, level budget 0 (elapsed ⟨key.cls, 0, 0⟩ now), now⟩,
      ⟨false, max (toDuration ((1 - level budget 0 (elapsed ⟨key.cls, 0, 0⟩ now)) * budget.refill)) 1⟩) := by
  refine charge_eq ?_
  rintro b' ⟨⟩
  exact ⟨rfl, later⟩

theorem not_shared (valid : key.valid = true) (wraps : Duration.maxDuration < key.cls.budget.refill * n)
    (positive : 0 < (perInstance key.cls.budget n).refill) : ¬ Shared sum n key := by
  intro shared
  obtain ⟨one, shorter, few, small⟩ := perInstance_wraps (Key.valid_cls valid) wraps
  obtain ⟨whole, -⟩ := Class.regular (Key.valid_cls valid)
  -- Every instance lets the key through at once, and again after the Refill that it enforces.
  have within := shared (fun _ => 0) (fun _ => [.allow none 0 key, .allow none (perInstance key.cls.budget n).refill key]) 0
    (perInstance key.cls.budget n).refill (fun _ => ⟨le_rfl, positive.le, trivial⟩) (by simp [Call.keeps]) positive.le
  have twice : (decisions sum (new.setInstances n) [.allow none 0 key,
      .allow none (perInstance key.cls.budget n).refill key]).countP
        (allowedIn key 0 (perInstance key.cls.budget n).refill) = 2 := by
    obtain ⟨l, first, enforced, found⟩ := allow_first sum n valid 0
    rw [charge_whole one] at first found
    obtain ⟨l', second, -⟩ := allow_next valid (perInstance key.cls.budget n).refill enforced found
      fun absent => absurd absent (Option.some_ne_none _)
    have waited : elapsed ⟨key.cls, 0, 0⟩ (perInstance key.cls.budget n).refill = (perInstance key.cls.budget n).refill := by
      unfold elapsed Time.sub Duration.minDuration
      unfold Duration.maxDuration at small ⊢
      lia
    have again : level (perInstance key.cls.budget n) 0 (perInstance key.cls.budget n).refill ≥ 1 :=
      (one_le_level_iff positive one.ge).mpr (by simp)
    rw [charge_empty positive.le, waited, if_pos again] at second
    simp [decisions, first, second, allowedIn, positive.le]
  simp only [twice, Finset.sum_const, Finset.card_univ, Fintype.card_fin, smul_eq_mul, sub_zero] at within
  have refill := refill_pos whole.positive
  have count : (n.toNat : ℚ) = n := by exact_mod_cast Int.toNat_of_nonneg (by linarith [whole.burst])
  have gain : ((perInstance key.cls.budget n).refill : ℚ) / key.cls.budget.refill < n := by
    rw [div_lt_iff₀ refill]
    exact_mod_cast shorter.trans_eq (mul_comm _ _)
  have most : max (key.cls.budget.burst : ℚ) n = n := max_eq_right (by exact_mod_cast few)
  push_cast at within
  rw [count, most] at within
  linarith

theorem not_retried (valid : key.valid = true) (wraps : Duration.maxDuration < key.cls.budget.refill * n)
    (negative : (perInstance key.cls.budget n).refill < 0) : ¬ Retried sum n key := by
  intro retried
  obtain ⟨one, -⟩ := perInstance_wraps (Key.valid_cls valid) wraps
  obtain ⟨l, first, enforced, found⟩ := allow_first sum n valid 0
  rw [charge_whole one] at first found
  obtain ⟨l', second, enforced', found'⟩ := allow_next valid 0 enforced found
    fun absent => absurd absent (Option.some_ne_none _)
  have refill : ((perInstance key.cls.budget n).refill : ℚ) < 0 := by exact_mod_cast negative
  have burst : ((perInstance key.cls.budget n).burst : ℚ) = 1 := by exact_mod_cast one
  have nothing : level (perInstance key.cls.budget n) 0 (elapsed ⟨key.cls, 0, 0⟩ 0) = 0 := by
    rw [elapsed_zero rfl, level_zero (by rw [burst]; norm_num)]
  have empty : ¬ level (perInstance key.cls.budget n) 0 (elapsed ⟨key.cls, 0, 0⟩ 0) ≥ 1 := by rw [nothing]; norm_num
  have wait : toDuration ((1 - 0) * (perInstance key.cls.budget n).refill) ≤ 1 := by
    rw [sub_zero, one_mul, toDuration_intCast]
    exact negative.le.trans zero_le_one
  rw [charge_empty le_rfl, if_neg empty, nothing, max_eq_right wait] at second
  rw [charge_empty le_rfl, if_neg empty, nothing] at found'
  -- A nanosecond later there is even less.
  have less : ¬ level (perInstance key.cls.budget n) 0 (elapsed ⟨key.cls, 0, 0⟩ 1) ≥ 1 := by
    have passed : elapsed ⟨key.cls, 0, 0⟩ 1 = 1 := rfl
    rw [passed, level, zero_add, not_le, min_lt_iff]
    have part : ((1 : Int) : ℚ) / (perInstance key.cls.budget n).refill < 0 := by simpa using refill
    exact .inl (part.trans one_pos)
  obtain ⟨l'', third, -⟩ := allow_next valid 1 enforced' found'
    fun absent => absurd absent (Option.some_ne_none _)
  rw [charge_empty zero_le_one, if_neg less] at third
  obtain ⟨d, same, allowed⟩ := retried 0 [.allow none 0 key] 0 1 ⟨le_rfl, le_rfl, trivial⟩ (by simp [Call.keeps])
    (by simp [after, perform, first, second]) 1 zero_le_one
  simp only [after, List.foldl, List.cons_append, List.nil_append, perform, first, second, third] at same
  cases same
  exact absurd (allowed.mpr le_rfl) Bool.false_ne_true

end

/-- With exact token amounts: as long as no Refill overflows, the budget is kept in every window, after every refusal
and by the instances together. Where it overflows, the instances give away more than the budget, or a key that is
refused stays refused. -/
theorem limiter_within_budget (sum : Bytes → Bytes) (n : Int) (key : Key) (valid : key.valid = true) :
    (key.cls.budget.refill * n ≤ Duration.maxDuration → Windowed sum n key ∧ Retried sum n key ∧ Shared sum n key) ∧
    (Duration.maxDuration < key.cls.budget.refill * n → (0 < (perInstance key.cls.budget n).refill → ¬ Shared sum n key) ∧
      ((perInstance key.cls.budget n).refill < 0 → ¬ Retried sum n key)) := by
  refine ⟨fun bounded => ?_, fun wraps => ⟨not_shared valid wraps, not_retried valid wraps⟩⟩
  obtain ⟨whole, small⟩ := Class.regular (Key.valid_cls valid)
  obtain ⟨regular, small⟩ := regular_perInstance whole bounded small
  refine ⟨fun start calls a b timed kept window => taken_le regular timed kept window,
    fun start calls now r timed kept refused t later => ?_, fun start calls a b timed kept window => ?_⟩
  · obtain ⟨timed, latest, -⟩ := timed_append.mp timed
    have start : Metered sum _ key now now start (new.setInstances n) 0 := metered_new regular le_rfl start
    have metered := start.after regular le_rfl timed kept
    have fits := fun b' member => (metered.fits b' member).later latest
    rw [after, List.foldl_append]
    change ∃ d, (((after sum (new.setInstances n) calls).allow sum none now key).1.allow sum none t key).2 = .ok d ∧ _
    generalize after sum (new.setInstances n) calls = l at refused metered fits
    rcases allow_cases sum l none now key with ⟨err, l', same, -⟩ | ⟨-, -, l', room, same⟩
    · rw [same] at refused
      cases refused
    · rw [same] at refused ⊢
      have enforced : l'.budget key.cls = perInstance key.cls.budget n := by
        rw [Limiter.budget, room.instances, ← metered.enforced, Limiter.budget]
      refine ⟨_, allow_present valid (AList.lookup_insert _), ?_⟩
      rw [charged, AList.lookup_insert]
      change (charge key.cls (l'.budget key.cls) _ t).2.allowed = true ↔ _
      rw [enforced]
      rw [charged, metered.enforced] at refused ⊢
      exact retryAfter_exact regular small fits (Except.ok.inj refused) later
  · have each (i : Fin n.toNat) : (((decisions sum (new.setInstances n) (calls i)).countP (allowedIn key a b) : Nat) : Int) ≤
        (perInstance key.cls.budget n).burst + (b - a) / (perInstance key.cls.budget n).refill :=
      taken_le regular (timed i) (kept i) window
    have total := Finset.sum_le_card_nsmul Finset.univ _ _ fun i _ => each i
    rw [Finset.card_univ, Fintype.card_fin, nsmul_eq_mul, ← Nat.cast_sum] at total
    refine le_trans ?_ (shares_le whole bounded (sub_nonneg.mpr window))
    exact_mod_cast total

namespace Sample

def key : Key := ⟨.selfTest, .zero, ascii "probe"⟩

def charges (count : Nat) : List Call := List.replicate count (.allow none 0 key)

def decision (n : Int) (count : Nat) (now : Time) : Option Decision :=
  ((after id (new.setInstances n) (charges count)).allow id none now key).2.toOption

theorem result_of_decision {n : Int} {count : Nat} {now : Time} {d : Decision} (found : decision n count now = some d) :
    ((after id (new.setInstances n) (charges count)).allow id none now key).2 = .ok d := by
  unfold decision at found
  generalize ((after id (new.setInstances n) (charges count)).allow id none now key).2 = result at found
  cases result with
  | ok d' =>
    cases found
    rfl
  | error err => cases found

end Sample

open Sample

/-- One of three instances has a token for the key, and one more after three hours. -/
theorem limiter_within_budget_three :
    decision 3 1 0 = some ⟨false, 3 * Duration.hour⟩ ∧
      (∃ d, ((after id (new.setInstances 3) (charges 2)).allow id none (3 * Duration.hour) key).2 = .ok d ∧
        d.allowed = true) ∧
      (((decisions id (new.setInstances 3) (charges 2)).countP (allowedIn key 0 60) : Nat) : Int) ≤ 1 ∧
      ((∑ _i : Fin 3, (decisions id (new.setInstances 3) (charges 2)).countP (allowedIn key 0 60) : Nat) : ℚ) ≤
        max (3 : Int) (3 : Int) + ((60 - 0 : Int) : ℚ) / (Duration.hour : Int) := by
  obtain ⟨window, retry, shared⟩ := (limiter_within_budget id 3 key (by decide +kernel)).1 (by decide +kernel)
  have refused : decision 3 1 0 = some ⟨false, 3 * Duration.hour⟩ := by decide +kernel
  have kept : ∀ count, ∀ call ∈ charges count, call.keeps = true := by
    intro count call member
    rw [List.eq_of_mem_replicate member]
    rfl
  obtain ⟨d, found, allowed⟩ := retry 0 (charges 1) 0 _ ⟨le_rfl, le_rfl, trivial⟩ (kept 1)
    (result_of_decision refused) (3 * Duration.hour) (by decide)
  refine ⟨refused, ⟨d, found, allowed.mpr (by decide)⟩, ?_, ?_⟩
  · exact window 0 (charges 2) 0 60 ⟨le_rfl, le_rfl, trivial⟩ (kept 2) (by decide)
  · exact shared (fun _ => 0) (fun _ => charges 2) 0 60 (fun _ => ⟨le_rfl, le_rfl, trivial⟩) (fun _ => kept 2)
      (by decide)

/-- With as many instances as this the Refill of an hour overflows: RetryAfter is a nanosecond, after which the key
is refused again. -/
theorem limiter_overflow :
    key.valid = true ∧ Timed 0 (charges 2) ∧ decision 2562048 1 0 = some ⟨false, 1⟩ ∧
      decision 2562048 2 1 = some ⟨false, 1⟩ :=
  ⟨by decide +kernel, ⟨le_rfl, le_rfl, trivial⟩, by decide +kernel, by decide +kernel⟩

end Egauth.Limiter
