import Egauth.Limiter.Memory
import Mathlib.Data.Finset.Card

/-! Reaping is invisible, and an erased tenant was never charged.

The abstract limiter has an account for each key: what was charged to the key
since its tenant was last erased, and nothing else. A bucket mirrors the account
of its key; one that was reaped mirrors an account that has all its tokens.
-/

set_option autoImplicit false

namespace Egauth.Limiter
open Egauth.Core TokenBucket

theorem length_tenant (t : TenantID) : t.id.length ≤ maxTenantLen := by
  rcases t.parsed with empty | accepted
  · simp [empty]
  · unfold checkTenant at accepted
    split_ifs at accepted with refused
    exact not_lt.mp fun long => refused (.inr long)

/-- What follows a prefix of a tenant tells the class, the tenant and the rest apart. -/
theorem tenantPrefix_append {c c' : Class} {t t' : TenantID} {rest rest' : Bytes}
    (same : tenantPrefix c t ++ rest = tenantPrefix c' t' ++ rest') : c = c' ∧ t = t' ∧ rest = rest' := by
  obtain ⟨code, tail⟩ := List.cons.inj same
  obtain ⟨size, tail⟩ := List.cons.inj tail
  have length : t.id.length = t'.id.length := by
    have bound := length_tenant t
    have bound' := length_tenant t'
    have sizes := congrArg UInt8.toNat size
    simp only [Nat.toUInt8_eq, UInt8.toNat_ofNat', maxTenantLen] at sizes bound bound'
    omega
  obtain ⟨id, rest⟩ := List.append_inj tail length
  obtain ⟨id', parsed⟩ := t
  obtain ⟨id'', parsed'⟩ := t'
  cases id
  exact ⟨Class.code_injective code, rfl, rest⟩

theorem storageKey_injective {sum : Bytes → Bytes} {k k' : Key} (same : k.storageKey sum = k'.storageKey sum) :
    k.cls = k'.cls ∧ k.tenant = k'.tenant ∧ sum k.value = sum k'.value := tenantPrefix_append same

theorem isPrefixOf_storageKey {sum : Bytes → Bytes} {c : Class} {t : TenantID} {k : Key} :
    (tenantPrefix c t).isPrefixOf (k.storageKey sum) = true ↔ c = k.cls ∧ t = k.tenant := by
  rw [List.isPrefixOf_iff_prefix]
  constructor
  · rintro ⟨rest, same⟩
    obtain ⟨cls, tenant, -⟩ := tenantPrefix_append same
    exact ⟨cls, tenant⟩
  · rintro ⟨rfl, rfl⟩
    exact ⟨_, rfl⟩

def Key.ownedBy (k : Key) (t : TenantID) : Bool := k.cls.perTenant && k.tenant == t

theorem buckets_eraseTenant (l : Limiter) (t : TenantID) (sk : Bytes) :
    (l.eraseTenant none t).1.buckets.lookup sk =
      if (tenantPrefix .loginIdentifier t).isPrefixOf sk || (tenantPrefix .codeRequestIdentifier t).isPrefixOf sk then none
      else l.buckets.lookup sk := by
  have classes : (Class.all.filter fun c => c.valid && c.perTenant) = [.loginIdentifier, .codeRequestIdentifier] := by
    decide
  simp only [eraseTenant, classes, List.foldl_cons, List.foldl_nil, Map.lookup_eraseWhere]
  cases (tenantPrefix .loginIdentifier t).isPrefixOf sk <;> simp

theorem lookup_eraseTenant (sum : Bytes → Bytes) (l : Limiter) (t : TenantID) (k : Key) :
    (l.eraseTenant none t).1.buckets.lookup (k.storageKey sum) =
      if k.ownedBy t then none else l.buckets.lookup (k.storageKey sum) := by
  simp only [buckets_eraseTenant, Bool.or_eq_true, isPrefixOf_storageKey]
  by_cases tenant : t = k.tenant
  · subst tenant
    cases owner : k.cls <;> simp [Key.ownedBy, Class.perTenant, owner]
  · have other : k.ownedBy t = false := by simp [Key.ownedBy, Ne.symm tenant]
    simp [tenant, other]

def account (cls : Class) (budget : Budget) (charges : List Time) : Option Bucket :=
  charges.foldl (fun b now => some (charge cls budget b now).1) none

def verdict (cls : Class) (budget : Budget) (charges : List Time) (now : Time) : Decision :=
  (charge cls budget (account cls budget charges) now).2

def record (key : Key) (charges : List Time) : Call → List Time
  | .allow none now k => if k = key then charges ++ [now] else charges
  | .eraseTenant none t => if key.ownedBy t then [] else charges
  | _ => charges

def history (key : Key) (calls : List Call) : List Time := calls.foldl (record key) []

def expected (budget : Class → Budget) : List Call → List Call → List Answer
  | _, [] => []
  | past, .allow (some err) now key :: calls =>
    ⟨key, now, .error err⟩ :: expected budget (past ++ [.allow (some err) now key]) calls
  | past, .allow none now key :: calls =>
    ⟨key, now, .ok (verdict key.cls (budget key.cls) (history key past) now)⟩ ::
      expected budget (past ++ [.allow none now key]) calls
  | past, call :: calls => expected budget (past ++ [call]) calls

theorem history_snoc (key : Key) (past : List Call) (call : Call) :
    history key (past ++ [call]) = record key (history key past) call := List.foldl_concat ..

theorem account_snoc (cls : Class) (budget : Budget) (charges : List Time) (now : Time) :
    account cls budget (charges ++ [now]) = some (charge cls budget (account cls budget charges) now).1 :=
  List.foldl_concat ..

structure Settled (budget : Budget) (cls : Class) (now : Time) (b : Bucket) : Prop where
  cls : b.cls = cls
  past : b.updated ≤ now
  short : b.tokens < budget.burst

inductive Mirrors (budget : Budget) (cls : Class) (now : Time) : Option Bucket → Option Bucket → Prop
  | absent : Mirrors budget cls now none none
  | present {b : Bucket} (settled : Settled budget cls now b) : Mirrors budget cls now (some b) (some b)
  | reaped {b : Bucket} (settled : Settled budget cls now b) (full : budget.burst ≤ refilled b budget now) :
      Mirrors budget cls now none (some b)

section
variable {budget : Budget} {cls : Class} {now next : Time} {b b' : Option Bucket}

/-- A bucket that was short is only full because it was refilled. -/
theorem refill_of_full {b : Bucket} (short : b.tokens < budget.burst) (full : budget.burst ≤ refilled b budget now) :
    0 < budget.refill := by
  by_contra refill
  have rate : (budget.refill : ℚ) ≤ 0 := by exact_mod_cast not_lt.mp refill
  have time : (0 : ℚ) ≤ elapsed b now := by exact_mod_cast elapsed_nonneg b now
  have gain : (elapsed b now : ℚ) / budget.refill ≤ 0 := div_nonpos_of_nonneg_of_nonpos time rate
  have := full.trans (min_le_left _ _)
  linarith

theorem full_later {b : Bucket} (short : b.tokens < budget.burst) (full : budget.burst ≤ refilled b budget now)
    (passed : now ≤ next) : budget.burst ≤ refilled b budget next :=
  full.trans (level_mono (refill_of_full short full) (elapsed_mono b passed))

theorem Mirrors.later (mirrors : Mirrors budget cls now b b') (passed : now ≤ next) :
    Mirrors budget cls next b b' := by
  cases mirrors with
  | absent => exact .absent
  | present settled => exact .present { settled with past := settled.past.trans passed }
  | reaped settled full =>
    exact .reaped { settled with past := settled.past.trans passed } (full_later settled.short full passed)

theorem Mirrors.held (mirrors : Mirrors budget cls now b b') : held budget b now = held budget b' now := by
  cases mirrors with
  | absent => rfl
  | present => rfl
  | reaped settled full => exact le_antisymm full level_le_burst

theorem Mirrors.charge (mirrors : Mirrors budget cls now b b') (burst : 1 ≤ budget.burst) :
    Limiter.charge cls budget b now = Limiter.charge cls budget b' now ∧
      Settled budget cls now (Limiter.charge cls budget b' now).1 := by
  have within : Limiter.held budget b' now ≤ budget.burst := by
    cases b' with
    | none => exact le_rfl
    | some b => exact level_le_burst
  have cast : (1 : ℚ) ≤ budget.burst := by exact_mod_cast burst
  have first : ∀ x ∈ b, x.cls = cls ∧ x.updated ≤ now := by
    cases mirrors with
    | present settled =>
      rintro x ⟨⟩
      exact ⟨settled.cls, settled.past⟩
    | _ => exact nofun
  have second : ∀ x ∈ b', x.cls = cls ∧ x.updated ≤ now := by
    cases mirrors with
    | absent => exact nofun
    | present settled =>
      rintro x ⟨⟩
      exact ⟨settled.cls, settled.past⟩
    | reaped settled _ =>
      rintro x ⟨⟩
      exact ⟨settled.cls, settled.past⟩
  rw [charge_eq first, charge_eq second, mirrors.held]
  refine ⟨rfl, ?_⟩
  split
  next enough => exact ⟨rfl, le_rfl, by change _ - 1 < _; linarith⟩
  next few => exact ⟨rfl, le_rfl, lt_of_lt_of_le (not_le.mp few) cast⟩

/-- Making room for others does not change what a key has. -/
theorem Mirrors.treats {l l' : Limiter} {sk : Bytes} (mirrors : Mirrors budget cls next (l.buckets.lookup sk) b')
    (enforced : l.budget cls = budget) (treats : l.Treats sk now l') (passed : now ≤ next) :
    Mirrors budget cls next (l'.buckets.lookup sk) b' := by
  cases treats with
  | kept same => rwa [same]
  | @dropped b found full gone =>
    rw [found] at mirrors
    rw [gone]
    cases mirrors with
    | present settled =>
      have whole : (budget.burst : ℚ) ≤ refilled b budget now := by
        have := of_decide_eq_true full
        rwa [settled.cls, enforced] at this
      exact .reaped settled (full_later settled.short whole passed)

end

/-- What holds between two calls, where no more than the used keys are charged. -/
structure Agrees (sum : Bytes → Bytes) (used : Finset Key) (budget : Class → Budget) (now : Time) (past : List Call)
    (l : Limiter) : Prop where
  enforced : ∀ c, l.budget c = budget c
  stored : ∀ sk b, l.buckets.lookup sk = some b → ∃ key ∈ used, key.storageKey sum = sk
  mirrors : ∀ key ∈ used, Mirrors (budget key.cls) key.cls now (l.buckets.lookup (key.storageKey sum))
    (account key.cls (budget key.cls) (history key past))

/-- The keys that are charged are used, and there is room for all of them. -/
structure Within (sum : Bytes → Bytes) (used : Finset Key) (budget : Class → Budget) : Prop where
  burst : ∀ key ∈ used, 1 ≤ (budget key.cls).burst
  valid : ∀ key ∈ used, key.valid = true
  room : used.card < maxBuckets
  exact : ∀ key ∈ used, ∀ k ∈ used, sum key.value = sum k.value → key.value = k.value

def Call.within (used : Finset Key) : Call → Prop
  | .allow _ _ key => key ∈ used
  | _ => True

section
variable {sum : Bytes → Bytes} {used : Finset Key} {budget : Class → Budget} {last now : Time} {past : List Call}
  {l l' : Limiter} {key : Key}

theorem Within.apart (within : Within sum used budget) {k : Key} (member : key ∈ used) (member' : k ∈ used)
    (same : key.storageKey sum = k.storageKey sum) : key = k := by
  obtain ⟨cls, tenant, value⟩ := storageKey_injective same
  obtain ⟨c, t, v⟩ := key
  obtain ⟨c', t', v'⟩ := k
  obtain rfl : c = c' := cls
  obtain rfl : t = t' := tenant
  obtain rfl : v = v' := within.exact _ member _ member' value
  rfl

theorem Agrees.length_le (agrees : Agrees sum used budget now past l) : l.buckets.entries.length ≤ used.card := by
  have keys : l.buckets.keys.toFinset ⊆ used.image (Key.storageKey sum) := by
    intro sk member
    obtain ⟨b, found⟩ := Option.isSome_iff_exists.mp (AList.lookup_isSome.mpr (List.mem_toFinset.mp member))
    obtain ⟨key, member, same⟩ := agrees.stored sk b found
    exact Finset.mem_image.mpr ⟨key, member, same⟩
  have count : l.buckets.keys.toFinset.card = l.buckets.entries.length := by
    rw [List.toFinset_card_of_nodup l.buckets.keys_nodup]
    exact List.length_map ..
  rw [← count]
  exact (Finset.card_le_card keys).trans Finset.card_image_le

theorem Agrees.later (agrees : Agrees sum used budget last past l) (passed : last ≤ now) :
    Agrees sum used budget now past l :=
  { agrees with mirrors := fun key member => (agrees.mirrors key member).later passed }

theorem Agrees.skip (agrees : Agrees sum used budget now past l) {call : Call}
    (same : ∀ key charges, record key charges call = charges) : Agrees sum used budget now (past ++ [call]) l where
  enforced := agrees.enforced
  stored := agrees.stored
  mirrors key member := by
    rw [history_snoc, same]
    exact agrees.mirrors key member

theorem Agrees.charged (agrees : Agrees sum used budget now past l) (within : Within sum used budget)
    (member : key ∈ used) :
    l.charged sum now key = charge key.cls (budget key.cls) (account key.cls (budget key.cls) (history key past)) now ∧
      Settled (budget key.cls) key.cls now (l.charged sum now key).1 := by
  have found := (agrees.mirrors key member).charge (within.burst key member)
  rw [Limiter.charged, agrees.enforced, found.1]
  exact ⟨rfl, found.2⟩

theorem Agrees.allow (agrees : Agrees sum used budget now past l) (within : Within sum used budget)
    (member : key ∈ used) :
    (l.allow sum none now key).2 = .ok (verdict key.cls (budget key.cls) (history key past) now) ∧
      Agrees sum used budget now (past ++ [.allow none now key]) (l.allow sum none now key).1 := by
  obtain ⟨charged, settled⟩ := agrees.charged within member
  rw [allow_of_room (within.valid key member) (agrees.length_le.trans_lt within.room)]
  refine ⟨by rw [charged, verdict], agrees.enforced, fun sk b found => ?_, fun k used => ?_⟩
  · rw [Map.lookup_insert_eq] at found
    split at found
    next own => exact ⟨key, member, own.symm⟩
    · exact agrees.stored sk b found
  · rw [history_snoc, Map.lookup_insert_eq]
    by_cases own : k = key
    · subst own
      rw [if_pos rfl, record, if_pos rfl, account_snoc, ← charged]
      exact .present settled
    · rw [if_neg fun same => own (within.apart used member same), record, if_neg (Ne.symm own)]
      exact agrees.mirrors k used

theorem Agrees.sweep (agrees : Agrees sum used budget last past l) (passed : now ≤ last) :
    Agrees sum used budget last past (l.sweep now).1 where
  enforced := agrees.enforced
  stored sk b found := by
    refine agrees.stored sk b ?_
    cases sweep_treats l sk now with
    | kept same => rw [← same, found]
    | dropped _ _ gone =>
      rw [gone] at found
      cases found
  mirrors key member := (agrees.mirrors key member).treats (agrees.enforced _) (sweep_treats l _ now) passed

theorem Agrees.erase (agrees : Agrees sum used budget now past l) (t : TenantID) :
    Agrees sum used budget now (past ++ [.eraseTenant none t]) (l.eraseTenant none t).1 where
  enforced := agrees.enforced
  stored sk b found := by
    rw [buckets_eraseTenant] at found
    split at found
    · cases found
    · exact agrees.stored sk b found
  mirrors key member := by
    rw [history_snoc, lookup_eraseTenant, record]
    split
    · exact .absent
    · exact agrees.mirrors key member

theorem Agrees.perform (agrees : Agrees sum used budget last past l) (within : Within sum used budget) {call : Call}
    {calls : List Call} (member : call.within used) (timed : Timed last (call :: calls)) :
    ∃ next, Agrees sum used budget next (past ++ [call]) (l.perform sum call) ∧ Timed next calls := by
  cases call with
  | allow ctx now key =>
    have later := agrees.later timed.1
    refine ⟨now, ?_, timed.2⟩
    cases ctx with
    | none => exact (later.allow within member).2
    | some err => exact later.skip fun _ _ => rfl
  | reapExpired ctx now =>
    have later := agrees.later (le_max_left last now)
    refine ⟨max last now, ?_, timed⟩
    cases ctx with
    | none => exact (later.sweep (le_max_right last now)).skip fun _ _ => rfl
    | some err => exact later.skip fun _ _ => rfl
  | eraseTenant ctx t =>
    refine ⟨last, ?_, timed⟩
    cases ctx with
    | none => exact agrees.erase t
    | some err => exact agrees.skip fun _ _ => rfl

theorem Agrees.after (agrees : Agrees sum used budget last past l) (within : Within sum used budget)
    {calls later : List Call} (members : ∀ call ∈ calls, call.within used) (timed : Timed last (calls ++ later)) :
    ∃ next, Agrees sum used budget next (past ++ calls) (after sum l calls) ∧ Timed next later := by
  induction calls generalizing last past l with
  | nil => exact ⟨last, by simpa [Limiter.after] using agrees, timed⟩
  | cons call calls ih =>
    obtain ⟨next, agrees, timed⟩ := agrees.perform within (members _ List.mem_cons_self) timed
    have found := ih agrees (fun call member => members call (List.mem_cons_of_mem _ member)) timed
    rwa [List.append_assoc] at found

theorem Agrees.decisions (agrees : Agrees sum used budget last past l) (within : Within sum used budget)
    {calls : List Call} (members : ∀ call ∈ calls, call.within used) (timed : Timed last calls) :
    decisions sum l calls = expected budget past calls := by
  induction calls generalizing last past l with
  | nil => rfl
  | cons call calls ih =>
    have member := members _ List.mem_cons_self
    obtain ⟨next, after, rest⟩ := agrees.perform within member timed
    have tail := ih after (fun call member => members call (List.mem_cons_of_mem _ member)) rest
    cases call with
    | allow ctx now key =>
      cases ctx with
      | none =>
        have answer := ((agrees.later timed.1).allow within member).1
        rw [Limiter.decisions, expected, answer]
        exact congrArg _ tail
      | some err => exact congrArg _ tail
    | reapExpired ctx now => exact tail
    | eraseTenant ctx t => exact tail

end

section
variable {budget : Class → Budget} {past past' : List Call}

theorem history_congr {key : Key} (same : history key past = history key past') (call : Call) :
    history key (past ++ [call]) = history key (past' ++ [call]) := by
  rw [history_snoc, history_snoc, same]

/-- What is decided on a key depends on its own charges only. -/
theorem expected_congr (p : Key → Bool) (calls : List Call)
    (same : ∀ key, p key = true → history key past = history key past') :
    ((expected budget past calls).filter fun answer => p answer.key) =
      (expected budget past' calls).filter fun answer => p answer.key := by
  induction calls generalizing past past' with
  | nil => rfl
  | cons call calls ih =>
    have snoc (key : Key) (counted : p key = true) : history key (past ++ [call]) = history key (past' ++ [call]) :=
      history_congr (same key counted) call
    have tail := ih snoc
    cases call with
    | allow ctx now key =>
      cases ctx with
      | none =>
        by_cases counted : p key = true
        · simp only [expected, List.filter_cons, counted, if_true, same key counted, tail]
        · simpa only [expected, List.filter_cons, counted, Bool.false_eq_true, if_false] using tail
      | some err => simp only [expected, List.filter_cons, tail]
    | reapExpired ctx now => exact tail
    | eraseTenant ctx t => exact tail

def Call.reaps : Call → Bool
  | .reapExpired .. => true
  | _ => false

theorem expected_reaps (calls : List Call) (same : ∀ key, history key past = history key past') :
    expected budget past calls = expected budget past' (calls.filter fun call => !call.reaps) := by
  induction calls generalizing past past' with
  | nil => rfl
  | cons call calls ih =>
    have snoc (key : Key) : history key (past ++ [call]) = history key (past' ++ [call]) :=
      history_congr (same key) call
    have tail := ih snoc
    cases call with
    | allow ctx now key =>
      cases ctx with
      | none => simp only [expected, List.filter_cons, Call.reaps, Bool.not_false, if_true, same, tail]
      | some err => simp only [expected, List.filter_cons, Call.reaps, Bool.not_false, if_true, tail]
    | reapExpired ctx now =>
      refine ih fun key => ?_
      rw [history_snoc, same]
      rfl
    | eraseTenant ctx t => exact tail

def Call.charges (t : TenantID) : Call → Bool
  | .allow _ _ key => key.ownedBy t
  | _ => false

theorem history_filter (key : Key) (t : TenantID) (calls : List Call) :
    history key (calls.filter fun call => !call.charges t) = if key.ownedBy t then [] else history key calls := by
  induction calls using List.reverseRecOn with
  | nil => simp [history]
  | append_singleton calls call ih =>
    rw [List.filter_append, history_snoc]
    cases call with
    | allow ctx now k =>
      by_cases charged : k.ownedBy t = true
      · have dropped : [Call.allow ctx now k].filter (fun call => !call.charges t) = [] := by
          simp [Call.charges, charged]
        rw [dropped, List.append_nil, ih]
        split
        · rfl
        next other =>
          have apart : k ≠ key := fun same => other (by rwa [← same])
          cases ctx with
          | none => simp [record, apart]
          | some err => rfl
      · have kept : [Call.allow ctx now k].filter (fun call => !call.charges t) = [.allow ctx now k] := by
          simp [Call.charges, charged]
        rw [kept, history_snoc, ih]
        split
        next own =>
          have apart : k ≠ key := fun same => charged (by rwa [same])
          cases ctx with
          | none => simp [record, apart]
          | some err => rfl
        · rfl
    | reapExpired ctx now =>
      have kept : [Call.reapExpired ctx now].filter (fun call => !call.charges t) = [.reapExpired ctx now] := rfl
      rw [kept, history_snoc, ih]
      rfl
    | eraseTenant ctx u =>
      have kept : [Call.eraseTenant ctx u].filter (fun call => !call.charges t) = [.eraseTenant ctx u] := rfl
      rw [kept, history_snoc, ih]
      cases ctx with
      | none =>
        simp only [record]
        split_ifs <;> rfl
      | some err => rfl

end

variable {calls : List Call}

theorem Timed.anti {last next : Time} (timed : Timed next calls) (passed : last ≤ next) : Timed last calls := by
  induction calls generalizing last next with
  | nil => trivial
  | cons call calls ih =>
    cases call with
    | allow ctx now key => exact ⟨passed.trans timed.1, timed.2⟩
    | reapExpired ctx now => exact ih timed (max_le_max passed le_rfl)
    | eraseTenant ctx t => exact ih timed passed

theorem Timed.tail {last : Time} {call : Call} (timed : Timed last (call :: calls)) : Timed last calls := by
  cases call with
  | allow ctx now key => exact timed.2.anti timed.1
  | reapExpired ctx now =>
    have later : Timed (max last now) calls := timed
    exact later.anti (le_max_left last now)
  | eraseTenant ctx t => exact timed

theorem Timed.sublist {last : Time} {calls' : List Call} (timed : Timed last calls) (fewer : calls'.Sublist calls) :
    Timed last calls' := by
  induction fewer generalizing last with
  | slnil => trivial
  | cons call _ ih => exact ih timed.tail
  | cons_cons call _ ih =>
    cases call with
    | allow ctx now key => exact ⟨timed.1, ih timed.2⟩
    | reapExpired ctx now =>
      have later : Timed (max last now) _ := timed
      exact ih later
    | eraseTenant ctx t =>
      have same : Timed last _ := timed
      exact ih same

theorem one_le_burst {c : Class} (valid : c.valid = true) (n : Int) : 1 ≤ (perInstance c.budget n).burst := by
  unfold perInstance
  split
  · cases c with
    | invalid => cases valid
    | _ => decide
  · exact le_max_right _ _

def keys (calls : List Call) : List Key :=
  calls.filterMap fun
    | .allow _ _ key => some key
    | _ => none

theorem within_keys {call : Call} (member : call ∈ calls) : call.within (keys calls).toFinset := by
  cases call with
  | allow ctx now key => exact List.mem_toFinset.mpr (List.mem_filterMap.mpr ⟨_, member, rfl⟩)
  | _ => trivial

section
variable {sum : Bytes → Bytes} {n : Int} {used : Finset Key} {start : Time} {calls later : List Call}

theorem agrees_new (start : Time) :
    Agrees sum used (fun c => perInstance c.budget n) start [] (new.setInstances n) where
  enforced c := perInstance_max c.budget n
  stored := nofun
  mirrors _ _ := .absent

theorem decisions_after (within : Within sum used fun c => perInstance c.budget n)
    (members : ∀ call ∈ calls ++ later, call.within used) (timed : Timed start (calls ++ later)) :
    decisions sum (after sum (new.setInstances n) calls) later = expected (fun c => perInstance c.budget n) calls later := by
  obtain ⟨next, agrees, rest⟩ := (agrees_new start).after within
    (fun call member => members call (List.mem_append_left _ member)) timed
  exact agrees.decisions within (fun call member => members call (List.mem_append_right _ member)) rest

end

/-- Where fewer keys are charged than there is room for, reaping changes no decision. After a tenant was erased the
decisions are those of a run that never charged its keys, and on the keys it does not own those of a run that did not
erase it. -/
theorem reaping_invisible (sum : Bytes → Bytes) (n : Int) (start : Time) (calls : List Call) (timed : Timed start calls)
    (valid : ∀ key ∈ keys calls, key.valid = true) (few : (keys calls).toFinset.card < maxBuckets)
    (exact : ∀ key ∈ keys calls, ∀ k ∈ keys calls, sum key.value = sum k.value → key.value = k.value) :
    decisions sum (new.setInstances n) calls =
        decisions sum (new.setInstances n) (calls.filter fun call => !call.reaps) ∧
      ∀ t before later, calls = before ++ .eraseTenant none t :: later →
        decisions sum (after sum (new.setInstances n) (before ++ [.eraseTenant none t])) later =
            decisions sum (after sum (new.setInstances n) (before.filter fun call => !call.charges t)) later ∧
          ((decisions sum (after sum (new.setInstances n) (before ++ [.eraseTenant none t])) later).filter
              fun answer => !answer.key.ownedBy t) =
            (decisions sum (after sum (new.setInstances n) before) later).filter
              fun answer => !answer.key.ownedBy t := by
  have within : Within sum (keys calls).toFinset fun c => perInstance c.budget n := by
    refine ⟨fun key member => ?_, fun key member => ?_, few, fun key member k member' => ?_⟩
    · exact one_le_burst (Key.valid_cls (valid key (List.mem_toFinset.mp member))) n
    · exact valid key (List.mem_toFinset.mp member)
    · exact exact key (List.mem_toFinset.mp member) k (List.mem_toFinset.mp member')
  -- The decisions of every run with some of the calls are those of the accounts.
  have decided (past later : List Call) (fewer : (past ++ later).Sublist calls) :
      decisions sum (after sum (new.setInstances n) past) later = expected (fun c => perInstance c.budget n) past later :=
    decisions_after within (fun call member => within_keys (fewer.subset member)) (timed.sublist fewer)
  refine ⟨?_, fun t before later split => ?_⟩
  · have whole := decided [] calls (List.Sublist.refl _)
    have fewer := decided [] (calls.filter fun call => !call.reaps) List.filter_sublist
    exact whole.trans ((expected_reaps calls fun _ => rfl).trans fewer.symm)
  · subst split
    have erased (key : Key) :
        history key (before ++ [.eraseTenant none t]) = if key.ownedBy t then [] else history key before := by
      rw [history_snoc, record]
    have first := decided (before ++ [Call.eraseTenant none t]) later (by simp)
    have never := decided (before.filter fun call => !call.charges t) later
      (List.filter_sublist.append (List.sublist_cons_self _ _))
    have kept := decided before later ((List.Sublist.refl _).append (List.sublist_cons_self _ _))
    rw [first, never, kept]
    constructor
    · have same (key : Key) : history key (before ++ [.eraseTenant none t]) =
          history key (before.filter fun call => !call.charges t) := by
        rw [erased, history_filter]
      simpa using expected_congr (fun _ => true) later fun key _ => same key
    · refine expected_congr (fun key => !key.ownedBy t) later fun key other => ?_
      rw [erased, if_neg (by simpa using other)]

namespace Sample

def identifier : Key := ⟨.loginIdentifier, .zero, ascii "a@b.c"⟩

def client : Key := ⟨.loginClient, .zero, ascii "192.0.2.1"⟩

def before : List Call :=
  List.replicate 10 (.allow none 0 identifier) ++ [.allow none 0 client, .reapExpired none (2 * Duration.minute)]

def later : List Call := [.allow none (2 * Duration.minute) identifier, .allow none (2 * Duration.minute) client]

def run : List Call := before ++ .eraseTenant none .zero :: later

def allowed (l : Limiter) (calls : List Call) : List (Option Bool) :=
  (decisions id l calls).map fun answer => answer.result.toOption.map Decision.allowed

end Sample

open Sample

/-- An identifier that has used up its budget is let through again after the tenant was erased. -/
theorem reaping_invisible_erased :
    (allowed (after id new before) later = [some false, some true] ∧
      allowed (after id new (before ++ [.eraseTenant none .zero])) later = [some true, some true]) ∧
      decisions id (new.setInstances 1) run =
        decisions id (new.setInstances 1) (run.filter fun call => !call.reaps) := by
  have timed : Timed 0 run := by
    simp [run, before, later, Timed, List.replicate, Duration.minute, Duration.second]
  have invisible := reaping_invisible id 1 0 run timed (by decide +kernel) (by decide +kernel)
    fun _ _ _ _ same => same
  exact ⟨by decide +kernel, invisible.1⟩

end Egauth.Limiter
