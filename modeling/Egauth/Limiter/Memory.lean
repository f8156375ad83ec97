import Egauth.Core.Principal
import Egauth.Data.Count
import Egauth.Data.TokenBucket
import Egauth.Semantics.Time

/-! The limiter in memory.

Every operation is atomic: it runs under the mutex. `Allow` reads its clock
under it, `ReapExpired` reads it before. Token amounts are exact rationals; the
product of a Refill and a number of instances is a signed 64-bit integer. A
Refill of zero, to which only that product can lead, counts as none at all.
-/

set_option autoImplicit false

namespace Egauth.Limiter
open Egauth.Core

def maxValueLen : Nat := 256

def maxBuckets : Nat := 2 ^ 20

/-- A budgeted action; the values that are not declared are one case. -/
inductive Class where
  | loginIdentifier
  | loginClient
  | codeRequestIdentifier
  | codeRequestClient
  | registerClient
  | selfTest
  | invalid
  deriving DecidableEq, Repr

abbrev Budget := TokenBucket.Rate

def perInstance (b : Budget) (n : Int) : Budget :=
  if n < 2 then b else ⟨max (b.burst.tdiv n) 1, (b.refill * n).bmod (2 ^ 64)⟩

theorem perInstance_max (b : Budget) (n : Int) : perInstance b (max n 1) = perInstance b n := by
  unfold perInstance
  by_cases few : n < 2
  · rw [if_pos few, if_pos (max_lt few (by decide))]
  · rw [max_eq_left (by omega)]

namespace Class

def valid : Class → Bool
  | .invalid => false
  | _ => true

def code : Class → UInt8
  | .invalid => 0
  | .loginIdentifier => 1
  | .loginClient => 2
  | .codeRequestIdentifier => 3
  | .codeRequestClient => 4
  | .registerClient => 5
  | .selfTest => 6

def budget : Class → Budget
  | .loginIdentifier => ⟨10, 6 * Duration.minute⟩
  | .loginClient => ⟨30, 2 * Duration.minute⟩
  | .codeRequestIdentifier => ⟨5, 12 * Duration.minute⟩
  | .codeRequestClient => ⟨20, 3 * Duration.minute⟩
  | .registerClient => ⟨10, 6 * Duration.minute⟩
  | .selfTest => ⟨3, Duration.hour⟩
  | .invalid => ⟨0, 0⟩

def perTenant (c : Class) : Bool := c == .loginIdentifier || c == .codeRequestIdentifier

def all : List Class :=
  [.invalid, .loginIdentifier, .loginClient, .codeRequestIdentifier, .codeRequestClient, .registerClient, .selfTest]

theorem code_injective {c c' : Class} (same : c.code = c'.code) : c = c' := by
  cases c <;> cases c' <;> first | rfl | exact absurd same (by decide)

end Class

structure Key where
  cls : Class
  tenant : TenantID
  value : Bytes
  deriving DecidableEq

def Key.valid (k : Key) : Bool :=
  if !k.cls.valid || k.value == [] || k.value.length > maxValueLen then false
  else k.cls.perTenant || k.tenant == .zero

def tenantPrefix (c : Class) (t : TenantID) : Bytes := c.code :: t.id.length.toUInt8 :: t.id

def Key.storageKey (sum : Bytes → Bytes) (k : Key) : Bytes := tenantPrefix k.cls k.tenant ++ sum k.value

theorem Key.valid_cls {k : Key} (valid : k.valid = true) : k.cls.valid = true := by
  unfold Key.valid at valid
  by_contra invalid
  simp [invalid] at valid

structure Bucket where
  cls : Class
  tokens : ℚ
  updated : Time

structure Decision where
  allowed : Bool
  retryAfter : Duration
  deriving DecidableEq, Repr

inductive Err where
  | context
  | invalidKey
  | capacity
  deriving DecidableEq, Repr

def elapsed (b : Bucket) (now : Time) : Duration := max (now.sub b.updated) 0

def refilled (b : Bucket) (budget : Budget) (now : Time) : ℚ := TokenBucket.level budget b.tokens (elapsed b now)

/-- `time.Duration` of a float drops its fraction. -/
def toDuration (q : ℚ) : Duration := q.num.tdiv q.den

def Bucket.take (b : Bucket) (budget : Budget) (now : Time) : Bucket × Decision :=
  let tokens := refilled b budget now
  let updated := if now > b.updated then now else b.updated
  if tokens ≥ 1 then (⟨b.cls, tokens - 1, updated⟩, ⟨true, 0⟩)
  else (⟨b.cls, tokens, updated⟩, ⟨false, max (toDuration ((1 - tokens) * budget.refill)) 1⟩)

def Bucket.new (cls : Class) (budget : Budget) (now : Time) : Bucket := ⟨cls, budget.burst, now⟩

end Egauth.Limiter

namespace Egauth

structure Limiter where
  buckets : Map Bytes Limiter.Bucket
  instances : Int

namespace Limiter
open Egauth.Core

def new : Limiter := ⟨∅, 1⟩

def setInstances (l : Limiter) (n : Int) : Limiter := { l with instances := max n 1 }

def budget (l : Limiter) (c : Class) : Budget := perInstance c.budget l.instances

def full (l : Limiter) (now : Time) (b : Bucket) : Bool :=
  decide (refilled b (l.budget b.cls) now ≥ (l.budget b.cls).burst)

def sweep (l : Limiter) (now : Time) : Limiter × Nat :=
  ({ l with buckets := l.buckets.eraseWhere fun k => (l.buckets.lookup k).any (l.full now) },
    l.buckets.count fun _ b => l.full now b)

def reapExpired (l : Limiter) (ctx : Option Err) (now : Time) : Limiter × Except Err Nat :=
  match ctx with
  | some err => (l, .error err)
  | none => ((l.sweep now).1, .ok (l.sweep now).2)

def eraseTenant (l : Limiter) (ctx : Option Err) (t : TenantID) : Limiter × Except Err Unit :=
  match ctx with
  | some err => (l, .error err)
  | none =>
    let classes := Class.all.filter fun c => c.valid && c.perTenant
    (classes.foldl (fun l c => { l with buckets := l.buckets.eraseWhere fun k => (tenantPrefix c t).isPrefixOf k }) l,
      .ok ())

def bucketOf (l : Limiter) (now : Time) (sk : Bytes) (cls : Class) : Limiter × Option Bucket :=
  match l.buckets.lookup sk with
  | some b => (l, some b)
  | none =>
    let l := if l.buckets.entries.length ≥ maxBuckets then (l.sweep now).1 else l
    if l.buckets.entries.length ≥ maxBuckets then (l, none)
    else (l, some (.new cls (l.budget cls) now))

def allow (sum : Bytes → Bytes) (l : Limiter) (ctx : Option Err) (now : Time) (key : Key) :
    Limiter × Except Err Decision :=
  match ctx with
  | some err => (l, .error err)
  | none =>
    if !key.valid then (l, .error .invalidKey)
    else
      let sk := key.storageKey sum
      let (l, found) := l.bucketOf now sk key.cls
      match found with
      | none => (l, .error .capacity)
      | some b =>
        let (b, decision) := b.take (l.budget key.cls) now
        ({ l with buckets := l.buckets.insert sk b }, .ok decision)

inductive Call where
  | allow (ctx : Option Err) (now : Time) (key : Key)
  | reapExpired (ctx : Option Err) (now : Time)
  | eraseTenant (ctx : Option Err) (t : TenantID)

section
variable (sum : Bytes → Bytes)

def perform (l : Limiter) : Call → Limiter
  | .allow ctx now key => (l.allow sum ctx now key).1
  | .reapExpired ctx now => (l.reapExpired ctx now).1
  | .eraseTenant ctx t => (l.eraseTenant ctx t).1

def after (l : Limiter) (calls : List Call) : Limiter := calls.foldl (perform sum) l

structure Answer where
  key : Key
  now : Time
  result : Except Err Decision

def decisions (l : Limiter) : List Call → List Answer
  | [] => []
  | .allow ctx now key :: calls => ⟨key, now, (l.allow sum ctx now key).2⟩ :: decisions (l.allow sum ctx now key).1 calls
  | call :: calls => decisions (l.perform sum call) calls

end

/-- The instants are readings of a clock that does not go back. `ReapExpired` may have read it long before. -/
def Timed : Time → List Call → Prop
  | _, [] => True
  | last, .allow _ now _ :: calls => last ≤ now ∧ Timed now calls
  | last, .reapExpired _ now :: calls => Timed (max last now) calls
  | last, .eraseTenant .. :: calls => Timed last calls

/-- Making room leaves a bucket, or drops it when it is full. -/
inductive Treats (l : Limiter) (sk : Bytes) (now : Time) (l' : Limiter) : Prop
  | kept (same : l'.buckets.lookup sk = l.buckets.lookup sk)
  | dropped {b : Bucket} (found : l.buckets.lookup sk = some b) (full : l.full now b = true)
      (gone : l'.buckets.lookup sk = none)

variable {sum : Bytes → Bytes} {l : Limiter} {ctx : Option Err} {now : Time} {key : Key} {sk : Bytes}

theorem sweep_treats (l : Limiter) (sk : Bytes) (now : Time) : l.Treats sk now (l.sweep now).1 := by
  have swept : (l.sweep now).1.buckets.lookup sk =
      if (l.buckets.lookup sk).any (l.full now) then none else l.buckets.lookup sk := Map.lookup_eraseWhere ..
  split at swept
  next full =>
    obtain ⟨b, found, full⟩ := (Option.any_eq_true _ _).mp full
    exact .dropped found full swept
  · exact .kept swept

def charge (cls : Class) (budget : Budget) (b : Option Bucket) (now : Time) : Bucket × Decision :=
  (b.getD (.new cls budget now)).take budget now

def charged (sum : Bytes → Bytes) (l : Limiter) (now : Time) (key : Key) : Bucket × Decision :=
  charge key.cls (l.budget key.cls) (l.buckets.lookup (key.storageKey sum)) now

structure Roomy (l : Limiter) (now : Time) (l' : Limiter) : Prop where
  instances : l'.instances = l.instances
  treats : ∀ sk, l.Treats sk now l'

theorem bucketOf_roomy (l : Limiter) (now : Time) (sk : Bytes) (cls : Class) :
    l.Roomy now (l.bucketOf now sk cls).1 := by
  have same : l.Roomy now l := ⟨rfl, fun _ => .kept rfl⟩
  have swept : l.Roomy now (l.sweep now).1 := ⟨rfl, fun sk => sweep_treats l sk now⟩
  unfold bucketOf
  cases l.buckets.lookup sk with
  | some b => exact same
  | none =>
    dsimp only
    split_ifs
    · exact swept
    · exact swept
    · exact same

theorem bucketOf_some {cls : Class} {b : Bucket} (found : (l.bucketOf now sk cls).2 = some b) :
    b = (l.buckets.lookup sk).getD (.new cls (l.budget cls) now) := by
  unfold bucketOf at found
  cases held : l.buckets.lookup sk with
  | some b' =>
    rw [held] at found
    cases found
    rfl
  | none =>
    rw [held] at found
    dsimp only at found
    split_ifs at found
    · cases found
      rfl
    · cases found
      rfl

/-- What `Allow` does: nothing but making room where it answers with an error, and one charge otherwise. -/
theorem allow_cases (sum : Bytes → Bytes) (l : Limiter) (ctx : Option Err) (now : Time) (key : Key) :
    (∃ err l', l.allow sum ctx now key = (l', .error err) ∧ l.Roomy now l') ∨
      ctx = none ∧ key.valid = true ∧ ∃ l', l.Roomy now l' ∧ l.allow sum ctx now key =
        ({ l' with buckets := l'.buckets.insert (key.storageKey sum) (l.charged sum now key).1 },
          .ok (l.charged sum now key).2) := by
  cases ctx with
  | some err => exact .inl ⟨err, l, rfl, rfl, fun _ => .kept rfl⟩
  | none =>
    by_cases valid : key.valid = true
    · have room := bucketOf_roomy l now (key.storageKey sum) key.cls
      unfold allow
      simp only [valid, Bool.not_true, Bool.false_eq_true, if_false]
      cases found : l.bucketOf now (key.storageKey sum) key.cls with
      | mk l' b =>
        rw [found] at room
        cases b with
        | none => exact .inl ⟨.capacity, l', rfl, room⟩
        | some b =>
          have same := bucketOf_some (congrArg Prod.snd found)
          refine .inr ⟨trivial, trivial, l', room, ?_⟩
          have budget : l'.budget key.cls = l.budget key.cls := by rw [Limiter.budget, room.instances, Limiter.budget]
          simp only [charged, charge, ← same, budget]
    · exact .inl ⟨.invalidKey, l, by simp [allow, valid], rfl, fun _ => .kept rfl⟩

/-- Where there is room, `Allow` charges the bucket of the key. -/
theorem allow_of_room (valid : key.valid = true) (room : l.buckets.entries.length < maxBuckets) :
    l.allow sum none now key =
      ({ l with buckets := l.buckets.insert (key.storageKey sum) (l.charged sum now key).1 },
        .ok (l.charged sum now key).2) := by
  have free := not_le.mpr room
  cases found : l.buckets.lookup (key.storageKey sum) with
  | some b => simp [allow, valid, bucketOf, found, charged, charge]
  | none => simp [allow, valid, bucketOf, found, free, charged, charge]

theorem allow_present {b : Bucket} (valid : key.valid = true) (found : l.buckets.lookup (key.storageKey sum) = some b) :
    (l.allow sum none now key).2 = .ok (l.charged sum now key).2 := by
  simp [allow, valid, bucketOf, found, charged, charge]

theorem elapsed_nonneg (b : Bucket) (now : Time) : 0 ≤ elapsed b now := le_max_right _ _

theorem elapsed_mono (b : Bucket) {next : Time} (passed : now ≤ next) : elapsed b now ≤ elapsed b next := by
  unfold elapsed Time.sub Duration.minDuration Duration.maxDuration
  lia

theorem elapsed_le (b : Bucket) {next : Time} (passed : now ≤ next) :
    elapsed b next ≤ elapsed b now + (next - now) := by
  unfold elapsed Time.sub Duration.minDuration Duration.maxDuration
  lia

theorem elapsed_zero {b : Bucket} (fresh : b.updated = now) : elapsed b now = 0 := by
  unfold elapsed Time.sub Duration.minDuration Duration.maxDuration
  lia

def held (budget : Budget) (b : Option Bucket) (now : Time) : ℚ :=
  b.elim (budget.burst : ℚ) fun b => refilled b budget now

/-- A charge only depends on the tokens of the key. -/
theorem charge_eq {cls : Class} {budget : Budget} {b : Option Bucket} (past : ∀ b' ∈ b, b'.cls = cls ∧ b'.updated ≤ now) :
    charge cls budget b now =
      if held budget b now ≥ 1 then (⟨cls, held budget b now - 1, now⟩, ⟨true, 0⟩)
      else (⟨cls, held budget b now, now⟩,
        ⟨false, max (toDuration ((1 - held budget b now) * budget.refill)) 1⟩) := by
  have found : refilled (b.getD (.new cls budget now)) budget now = held budget b now := by
    cases b with
    | some b => rfl
    | none =>
      have fresh : elapsed (.new cls budget now) now = 0 := elapsed_zero rfl
      change TokenBucket.level budget budget.burst (elapsed (.new cls budget now) now) = budget.burst
      rw [fresh, TokenBucket.level_zero le_rfl]
  obtain ⟨same, before⟩ : (b.getD (.new cls budget now)).cls = cls ∧ (b.getD (.new cls budget now)).updated ≤ now := by
    cases b with
    | some b => exact past b rfl
    | none => exact ⟨rfl, le_rfl⟩
  have updated : (if now > (b.getD (.new cls budget now)).updated then now else (b.getD (.new cls budget now)).updated) =
      now := by
    split
    · rfl
    next late => exact le_antisymm before (not_lt.mp late)
  simp only [charge, Bucket.take, found, same, updated]

theorem storageKey_cls {k k' : Key} (same : k.storageKey sum = k'.storageKey sum) : k.cls = k'.cls :=
  Class.code_injective (List.cons.inj same).1

end Limiter
end Egauth
