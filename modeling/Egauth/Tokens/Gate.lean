import Egauth.Core.Pending
import Egauth.Data.Map
import Egauth.Revoke.Follower
import Egauth.Semantics.Discipline
import Egauth.Tokens.Record

/-! API keys: what a key grants, as far as its owner holds it.

A verification is a program of the calls of the stores, of the claims source and
of the cache. What the epoch cache, the claims source and the key store answer
is arbitrary, but the owner and the grant of a key never change.
-/

set_option autoImplicit false

namespace Egauth.Gate
open Egauth.Core Prog Tokens Revoke

structure Claims where
  roles : List Bytes
  scopes : List Bytes
  groups : List Bytes

structure AppClaims (C : Type) extends Claims where
  custom : C

structure KeyRefusal where
  status : Nat
  code : String
  reason : String

def keyUnauthenticated : KeyRefusal := ⟨401, "unauthenticated", ""⟩

def keyUnavailable : KeyRefusal := ⟨503, "unavailable", ""⟩

def keyForbidden : KeyRefusal := ⟨403, "forbidden", ""⟩

def refusedFor (reason : String) : KeyRefusal := { keyUnauthenticated with reason := reason }

/-- `json.Unmarshal` of a grant, SHA-256, and a Duration of 64 bits. -/
structure Config where
  unmarshal : Bytes → Option Claims
  sum : Bytes → Bytes
  recheckEvery : Duration
  recheck_pos : 0 < recheckEvery
  recheck_le : recheckEvery ≤ Duration.maxDuration

/-- The kinds and the check of the route that is called; the routes share one cache. -/
structure Request where
  kinds : List Bytes
  check : Bytes → Claims → Bool
  tenant : TenantID
  secret : Bytes

def decodeAPIKeyGrant (cfg : Config) (b : Bytes) : Option Claims := if b = [] then some ⟨[], [], []⟩ else cfg.unmarshal b

/-- The loop of `intersect`, with what it has kept so far. -/
def intersectLoop (held : List Bytes) : List Bytes → List Bytes → List Bytes
  | out, [] => out
  | out, v :: granted => intersectLoop held (if v ∈ held ∧ v ∉ out then out ++ [v] else out) granted

def intersect (held granted : List Bytes) : List Bytes := intersectLoop held [] granted

structure Entry (C : Type) where
  epoch : UInt64
  time : Time
  claims : AppClaims C

/-- The lists of the grant are one field. -/
structure APIKeyInfo where
  id : UUID
  kind : Bytes
  name : Bytes
  owner : Subject
  grant : Claims
  createdAt : Time
  expiresAt : Time

structure Principal (C : Type) where
  apiKey : APIKeyInfo
  claims : AppClaims C

inductive Call (C : Type) where
  | getAPIKey (t : TenantID) (hash : Bytes)
  | now
  | current (owner : Subject)
  | get (id : UUID)
  | drop (id : UUID)
  | put (id : UUID) (e : Entry C)
  | accountState (owner : Subject)
  | claimsFor (owner : Subject)

/-- `notFound` is also an unknown subject. The claims come with the instant of the answer, which no program looks at. -/
abbrev Reply {C : Type} : Call C → Type
  | .getAPIKey .. => Except ReadErr APIKey
  | .now => Time
  | .current _ => Except ReadErr UInt64
  | .get _ => Option (Entry C)
  | .accountState _ => Except ReadErr AccountState
  | .claimsFor _ => Time × Except ReadErr (AppClaims C)
  | _ => Unit

section
variable {C : Type}

abbrev Program (C A : Type) := Prog (Call C) Reply KeyRefusal A

abbrev Event (C : Type) := (c : Call C) × Reply c

abbrev ask (c : Call C) : Program C (Reply c) := Prog.perform c

def restrict (owner : AppClaims C) (grant : Claims) : AppClaims C where
  roles := intersect owner.roles grant.roles
  scopes := intersect owner.scopes grant.scopes
  groups := intersect owner.groups grant.groups
  custom := owner.custom

def Entry.serves (cfg : Config) (e : Entry C) (epoch : UInt64) (now : Time) : Bool :=
  e.epoch = epoch ∧ now.sub e.time < cfg.recheckEvery ∧ ¬ now < e.time

/-- `effectiveClaims` where the cache does not serve. -/
def refill (cfg : Config) (k : APIKey) (now : Time) (epoch : UInt64) : Program C (AppClaims C) := do
  ask (.drop k.id)
  let reply ← ask (.accountState k.owner)
  let state ← Prog.ofExcept (fun _ => keyUnavailable) reply
  if state.usable = false then .fail (refusedFor "owner_unusable")
  else
    let grant ← Prog.ofOption (refusedFor "invalid_grant") (decodeAPIKeyGrant cfg k.appClaims)
    let (_, answer) ← ask (.claimsFor k.owner)
    match answer with
    | .error .notFound => .fail (refusedFor "owner_unusable")
    | .error .failed => .fail keyUnavailable
    | .ok owner =>
      if state.epoch = epoch then ask (.put k.id ⟨epoch, now, restrict owner grant⟩)
      pure (restrict owner grant)

def effectiveClaims (cfg : Config) (k : APIKey) (now : Time) : Program C (AppClaims C) := do
  match ← ask (.current k.owner) with
  | .error .notFound =>
    ask (.drop k.id)
    .fail (refusedFor "owner_unusable")
  | .error .failed => .fail keyUnavailable
  | .ok epoch =>
    let found ← ask (.get k.id)
    match found.filter (·.serves cfg epoch now) with
    | some e => pure e.claims
    | none => refill cfg k now epoch

/-- What is found of a key before its claims are asked for. -/
def refusal (req : Request) (hash : Bytes) (k : APIKey) (now : Time) : Option KeyRefusal :=
  if k.keyHash ≠ hash then some (refusedFor "not_found")
  else if k.owner.tenant ≠ req.tenant then some (refusedFor "tenant_mismatch")
  else if k.revokedAt ≠ 0 then some (refusedFor "revoked")
  else if k.expiresAt ≠ 0 ∧ ¬ now < k.expiresAt then some (refusedFor "expired")
  else if k.kind ∉ req.kinds then some (refusedFor "wrong_type")
  else none

def info (cfg : Config) (k : APIKey) : APIKeyInfo where
  id := k.id
  kind := k.kind
  name := k.name
  owner := k.owner
  grant := (decodeAPIKeyGrant cfg k.appClaims).getD ⟨[], [], []⟩
  createdAt := k.createdAt
  expiresAt := k.expiresAt

def apiKeyPrincipal (k : APIKeyInfo) (claims : AppClaims C) : Option (Principal C) :=
  if k.owner.isZero ∨ k.id = .nil then none else some ⟨k, claims⟩

def verify (cfg : Config) (req : Request) : Program C (Principal C) := do
  match ← ask (.getAPIKey req.tenant (cfg.sum req.secret)) with
  | .error .notFound => .fail (refusedFor "not_found")
  | .error .failed => .fail keyUnavailable
  | .ok k =>
    let now ← ask .now
    match refusal req (cfg.sum req.secret) k now with
    | some refused => .fail refused
    | none =>
      let claims ← effectiveClaims cfg k now
      if req.check k.kind claims.toClaims = false then .fail keyForbidden
      else Prog.ofOption keyUnauthenticated (apiKeyPrincipal (info cfg k) claims)

def apiKeyCacheSize : Nat := 4096

structure World (C : Type) where
  clock : Time
  accounts : Subject → AccountState
  cache : Map UUID (Entry C)

/-- An account that stops being usable moves to a later epoch. -/
def Follows (a b : AccountState) : Prop := a.epoch ≤ b.epoch ∧ (a.usable = true → b.usable = false → a.epoch < b.epoch)

instance (a b : AccountState) : Decidable (Follows a b) := inferInstanceAs (Decidable (_ ∧ _))

/-- How much later the call comes, what the accounts are then, what is answered, and which entry makes room. -/
structure Turn (C : Type) where
  later : Nat
  accounts : Subject → AccountState
  key : Except ReadErr APIKey
  epoch : Except ReadErr UInt64
  down : Bool
  claims : Except ReadErr (AppClaims C)
  pick : Nat

def World.advance (o : Turn C) (w : World C) : World C where
  clock := w.clock + o.later
  accounts s := if Follows (w.accounts s) (o.accounts s) then o.accounts s else w.accounts s
  cache := w.cache

def evict (pick : Nat) (m : Map UUID (Entry C)) : Map UUID (Entry C) :=
  match m.keys[pick % m.keys.length]? with
  | none => m
  | some id => m.erase id

def putEntry (pick : Nat) (m : Map UUID (Entry C)) (id : UUID) (e : Entry C) : Map UUID (Entry C) :=
  (if (m.lookup id).isNone ∧ apiKeyCacheSize ≤ m.keys.length then evict pick m else m).insert id e

/-- The registry tells the owner and the grant of a key. -/
def exec (registry : UUID → Subject × Bytes) (o : Turn C) (w : World C) : (c : Call C) → Reply c × World C
  | .getAPIKey .. =>
    (o.key.bind fun k => if (k.owner, k.appClaims) = registry k.id then .ok k else .error .notFound, w.advance o)
  | .now => ((w.advance o).clock, w.advance o)
  | .current _ => (o.epoch, w.advance o)
  | .get id => (w.cache.lookup id, w.advance o)
  | .drop id => ((), { w.advance o with cache := w.cache.erase id })
  | .put id e => ((), { w.advance o with cache := putEntry o.pick w.cache id e })
  | .accountState s => (if o.down then .error .failed else .ok ((w.advance o).accounts s), w.advance o)
  | .claimsFor _ => (((w.advance o).clock, o.claims), w.advance o)

def Within (eff granted held : List Bytes) : Prop := eff.Sublist granted ∧ eff.Nodup ∧ eff ⊆ held

/-- No more than is granted, and no more than is held. -/
def Attenuates (eff granted held : Claims) : Prop :=
  Within eff.roles granted.roles held.roles ∧ Within eff.scopes granted.scopes held.scopes ∧
    Within eff.groups granted.groups held.groups

theorem intersectLoop_eq (held granted out : List Bytes) (distinct : out.Nodup) : ∃ more,
    intersectLoop held out granted = out ++ more ∧ more.Sublist granted ∧ (out ++ more).Nodup ∧ more ⊆ held := by
  induction granted generalizing out with
  | nil => exact ⟨[], by simp [intersectLoop], .slnil, by simpa using distinct, by simp⟩
  | cons v granted ih =>
    rw [intersectLoop]
    split
    next kept =>
      have longer : (out ++ [v]).Nodup := by simpa [List.nodup_append, distinct] using fun a member => by grind
      obtain ⟨more, same, sub, nodup, within⟩ := ih _ longer
      refine ⟨v :: more, by simpa using same, sub.cons_cons v, by simpa using nodup, ?_⟩
      exact List.cons_subset.mpr ⟨kept.1, within⟩
    next =>
      obtain ⟨more, same, sub, rest⟩ := ih _ distinct
      exact ⟨more, same, sub.cons v, rest⟩

theorem within_intersect (held granted : List Bytes) : Within (intersect held granted) granted held := by
  obtain ⟨more, same, sub, nodup, within⟩ := intersectLoop_eq held granted [] .nil
  rw [intersect, same, List.nil_append]
  exact ⟨sub, nodup, within⟩

theorem attenuates_restrict (owner : AppClaims C) (grant : Claims) :
    Attenuates (restrict owner grant).toClaims grant owner.toClaims :=
  ⟨within_intersect _ _, within_intersect _ _, within_intersect _ _⟩

/-- The key, the reading of the clock and the epoch that a verification was answered. -/
structure Basis (g : List (Event C)) (k : APIKey) (now : Time) (epoch : UInt64) : Prop where
  key : ∃ t hash, ⟨.getAPIKey t hash, .ok k⟩ ∈ g
  time : ⟨.now, now⟩ ∈ g
  current : ⟨.current k.owner, .ok epoch⟩ ∈ g

/-- The claims are those of an answer since `now`, for an owner who was usable. -/
structure Fresh (cfg : Config) (g : List (Event C)) (k : APIKey) (now : Time) (st : AccountState)
    (claims : AppClaims C) : Prop where
  state : ⟨.accountState k.owner, .ok st⟩ ∈ g
  usable : st.usable = true
  answer : ∃ t held grant, ⟨.claimsFor k.owner, (t, .ok held)⟩ ∈ g ∧ now ≤ t ∧
    decodeAPIKeyGrant cfg k.appClaims = some grant ∧ claims = restrict held grant

/-- The entry was computed for the key, under its epoch. -/
def Computed (cfg : Config) (g : List (Event C)) (id : UUID) (e : Entry C) : Prop :=
  ∃ k st, k.id = id ∧ Basis g k e.time e.epoch ∧ Fresh cfg g k e.time st e.claims ∧ st.epoch = e.epoch

/-- The note of a verification is what it was answered. -/
def answered (cfg : Config) : Discipline (Call C) Reply (List (Event C)) where
  track g c r := g ++ [⟨c, r⟩]
  learns g c r :=
    match c, r with
    | .claimsFor _, (t, _) => ∀ now, ⟨.now, now⟩ ∈ g → now ≤ t
    | _, _ => True
  allows g c :=
    match c with
    | .put id e => Computed cfg g id e
    | _ => True

section
variable {cfg : Config} {g g' : List (Event C)} {k : APIKey} {now : Time} {epoch : UInt64} {st : AccountState}
  {claims : AppClaims C} {id : UUID} {e : Entry C}

theorem Basis.mono (basis : Basis g k now epoch) (more : g ⊆ g') : Basis g' k now epoch := by
  obtain ⟨t, hash, read⟩ := basis.key
  exact ⟨⟨t, hash, more read⟩, more basis.time, more basis.current⟩

theorem Fresh.mono (fresh : Fresh cfg g k now st claims) (more : g ⊆ g') : Fresh cfg g' k now st claims := by
  obtain ⟨t, held, grant, told, rest⟩ := fresh.answer
  exact ⟨more fresh.state, fresh.usable, t, held, grant, more told, rest⟩

theorem Computed.mono (computed : Computed cfg g id e) (more : g ⊆ g') : Computed cfg g' id e := by
  obtain ⟨k, st, named, basis, fresh, same⟩ := computed
  exact ⟨k, st, named, basis.mono more, fresh.mono more, same⟩

theorem yields_refill (basis : Basis g k now epoch) : Yields (answered cfg) g (refill cfg k now epoch) fun g' claims =>
    Basis g' k now epoch ∧ ∃ st, Fresh cfg g' k now st claims := by
  refine yields_perform.mpr ⟨trivial, fun _ _ => yields_perform.mpr ⟨trivial, fun reply _ => ?_⟩⟩
  refine yields_ofExcept fun st read => ?_
  split
  · exact yields_fail
  next live =>
    refine yields_ofOption fun grant decoded => yields_perform.mpr ⟨trivial, fun reply' later => ?_⟩
    obtain ⟨t, answer⟩ := reply'
    subst read
    cases answer with
    | error err => cases err <;> exact yields_fail
    | ok held =>
      have usable : st.usable = true := by simpa using live
      have since : now ≤ t := later now (by simp [answered, basis.time])
      dsimp only
      split
      next same =>
        refine yields_perform.mpr ⟨⟨k, st, rfl, basis.mono ?_, ⟨?_, usable, t, held, grant, ?_, since, decoded, rfl⟩, same⟩,
          fun _ _ => yields_ret.mpr ⟨basis.mono ?_, st, ?_, usable, t, held, grant, ?_, since, decoded, rfl⟩⟩ <;>
          simp [answered]
      · refine yields_ret.mpr ⟨basis.mono ?_, st, ?_, usable, t, held, grant, ?_, since, decoded, rfl⟩ <;>
          simp [answered]

/-- Where the claims of a principal come from: the cache, or an answer to the verification itself. -/
def Served (cfg : Config) (g : List (Event C)) (k : APIKey) (now : Time) (epoch : UInt64) (claims : AppClaims C) : Prop :=
  (∃ e, ⟨.get k.id, some e⟩ ∈ g ∧ e.serves cfg epoch now = true ∧ claims = e.claims) ∨
    ∃ st, Fresh cfg g k now st claims

theorem yields_effectiveClaims {t : TenantID} {hash : Bytes} (read : ⟨.getAPIKey t hash, .ok k⟩ ∈ g)
    (time : ⟨.now, now⟩ ∈ g) : Yields (answered cfg) g (effectiveClaims cfg k now) fun g' claims =>
      ∃ epoch, Basis g' k now epoch ∧ Served cfg g' k now epoch claims := by
  refine yields_perform.mpr ⟨trivial, fun reply _ => ?_⟩
  cases reply with
  | error err =>
    cases err with
    | notFound => exact yields_perform.mpr ⟨trivial, fun _ _ => yields_fail⟩
    | failed => exact yields_fail
  | ok epoch =>
    refine yields_perform.mpr ⟨trivial, fun found _ => ?_⟩
    split
    next e hit =>
      obtain ⟨rfl, serves⟩ := Option.filter_eq_some_iff.mp hit
      exact yields_ret.mpr ⟨epoch, ⟨⟨t, hash, by simp [answered, read]⟩, by simp [answered, time], by simp [answered]⟩,
        .inl ⟨e, by simp [answered], serves, rfl⟩⟩
    · refine (yields_refill ⟨⟨t, hash, ?_⟩, ?_, ?_⟩).mono fun g' claims ends => ⟨epoch, ends.1, .inr ends.2⟩ <;>
        simp [answered, read, time]

theorem yields_verify (req : Request) : Yields (answered cfg) g (verify cfg req) fun g' p =>
    ∃ k now epoch, p.apiKey = info cfg k ∧ Basis g' k now epoch ∧ Served cfg g' k now epoch p.claims := by
  refine yields_perform.mpr ⟨trivial, fun reply _ => ?_⟩
  cases reply with
  | error err => cases err <;> exact yields_fail
  | ok k =>
    refine yields_perform.mpr ⟨trivial, fun now _ => ?_⟩
    split
    · exact yields_fail
    refine (yields_effectiveClaims (?_ : (⟨.getAPIKey req.tenant (cfg.sum req.secret), .ok k⟩ : Event C) ∈ _) ?_).bind
      fun g' claims served => ?_
    · simp [answered]
    · simp [answered]
    · split
      · exact yields_fail
      · obtain ⟨epoch, basis, served⟩ := served
        unfold apiKeyPrincipal
        split
        · exact yields_fail
        · exact yields_ret.mpr ⟨k, now, epoch, rfl, basis, served⟩

end

/-- The account was usable at the epoch; it is not at that epoch when it no longer is. -/
def Past (a : AccountState) (epoch : UInt64) : Prop := epoch ≤ a.epoch ∧ (a.usable = false → epoch < a.epoch)

/-- What the answers so far say about the world. -/
structure Recorded {I : Type} (cfg : Config) (registry : UUID → Subject × Bytes) (w : World C) (n : I → List (Event C)) :
    Prop where
  clock : ∀ i now, ⟨.now, now⟩ ∈ n i → now ≤ w.clock
  keys : ∀ i t hash k, ⟨.getAPIKey t hash, .ok k⟩ ∈ n i → (k.owner, k.appClaims) = registry k.id
  states : ∀ i s st, ⟨.accountState s, .ok st⟩ ∈ n i → st.usable = true → Past (w.accounts s) st.epoch
  cached : ∀ id e, w.cache.lookup id = some e → ∃ j, ⟨.put id e, ()⟩ ∈ n j
  hits : ∀ i id e, ⟨.get id, some e⟩ ∈ n i → ∃ j, ⟨.put id e, ()⟩ ∈ n j
  puts : ∀ i id e, ⟨.put id e, ()⟩ ∈ n i → Computed cfg (n i) id e

section
variable {cfg : Config} {registry : UUID → Subject × Bytes} {w w' : World C} {o : Turn C} {c : Call C} {r : Reply c}

theorem Follows.past {a b : AccountState} (follows : Follows a b) {epoch : UInt64} (past : Past a epoch) : Past b epoch := by
  refine ⟨UInt64.le_trans past.1 follows.1, fun shut => ?_⟩
  cases live : a.usable with
  | true => exact UInt64.lt_of_le_of_lt past.1 (follows.2 live shut)
  | false => exact UInt64.lt_of_lt_of_le (past.2 live) follows.1

theorem exec_world (replied : exec registry o w c = (r, w')) :
    w'.clock = w.clock + o.later ∧ w'.accounts = (w.advance o).accounts := by
  cases c <;> cases replied <;> exact ⟨rfl, rfl⟩

theorem past_advance {s : Subject} {epoch : UInt64} (past : Past (w.accounts s) epoch) :
    Past ((w.advance o).accounts s) epoch := by
  simp only [World.advance]
  split
  next follows => exact follows.past past
  · exact past

theorem lookup_evict {m : Map UUID (Entry C)} {pick : Nat} {id : UUID} {e : Entry C}
    (found : (evict pick m).lookup id = some e) : m.lookup id = some e := by
  unfold evict at found
  split at found
  · exact found
  · rw [Map.lookup_erase_eq] at found
    split at found
    · cases found
    · exact found

theorem exec_cache (replied : exec registry o w c = (r, w')) {id : UUID} {e : Entry C}
    (found : w'.cache.lookup id = some e) : w.cache.lookup id = some e ∨ c = .put id e := by
  cases c with
  | drop other =>
    cases replied
    rw [Map.lookup_erase_eq] at found
    split at found
    · cases found
    · exact .inl found
  | put other e' =>
    cases replied
    rw [putEntry, Map.lookup_insert_eq] at found
    split at found
    next same => exact .inr (by rw [same, Option.some.inj found])
    · split at found
      · exact .inl (lookup_evict found)
      · exact .inl found
  | _ =>
    cases replied
    exact .inl found

variable {I : Type} [DecidableEq I] {n : I → List (Event C)} {i : I}

theorem Recorded.next (recorded : Recorded cfg registry w n) (allowed : (answered cfg).allows (n i) c)
    (replied : exec registry o w c = (r, w')) :
    Recorded cfg registry w' (Function.update n i (n i ++ [⟨c, r⟩])) := by
  obtain ⟨clock, accounts⟩ := exec_world replied
  have grown (j : I) : n j ⊆ Function.update n i (n i ++ [⟨c, r⟩]) j := by
    by_cases mine : j = i
    · subst mine
      simp
    · simp [mine]
  have cases_of {j : I} {event : Event C} (member : event ∈ Function.update n i (n i ++ [⟨c, r⟩]) j) :
      event ∈ n j ∨ j = i ∧ event = ⟨c, r⟩ := by
    by_cases mine : j = i
    · subst mine
      simpa using member
    · exact .inl (by simpa [mine] using member)
  constructor
  · intro j now member
    rcases cases_of member with old | ⟨-, same⟩
    · rw [clock]
      exact le_add_of_le_of_nonneg (recorded.clock j now old) (Int.natCast_nonneg _)
    · cases same
      cases replied
      exact le_rfl
  · intro j t hash k member
    rcases cases_of member with old | ⟨-, same⟩
    · exact recorded.keys j t hash k old
    · cases same
      obtain ⟨found, _, ok⟩ := bind_eq_ok.mp (congrArg Prod.fst replied)
      split at ok
      next agrees =>
        cases ok
        exact agrees
      · cases ok
  · intro j s st member usable
    rw [accounts]
    rcases cases_of member with old | ⟨-, same⟩
    · exact past_advance (recorded.states j s st old usable)
    · cases same
      obtain ⟨-, read⟩ := ite_error_eq_ok.mp (congrArg Prod.fst replied)
      cases read
      exact ⟨UInt64.le_refl _, fun shut => absurd (usable.symm.trans shut) nofun⟩
  · intro id e found
    rcases exec_cache replied found with old | rfl
    · obtain ⟨j, stored⟩ := recorded.cached id e old
      exact ⟨j, grown j stored⟩
    · exact ⟨i, by simp⟩
  · intro j id e member
    rcases cases_of member with old | ⟨-, same⟩
    · obtain ⟨j', stored⟩ := recorded.hits j id e old
      exact ⟨j', grown j' stored⟩
    · cases same
      obtain ⟨j', stored⟩ := recorded.cached id e (congrArg Prod.fst replied)
      exact ⟨j', grown j' stored⟩
  · intro j id e member
    rcases cases_of member with old | ⟨rfl, same⟩
    · exact (recorded.puts j id e old).mono (grown j)
    · cases same
      exact Computed.mono allowed (grown j)

omit [DecidableEq I] in
theorem Recorded.learns (recorded : Recorded cfg registry w n) (replied : exec registry o w c = (r, w')) :
    (answered cfg).learns (n i) c r := by
  cases c with
  | claimsFor s =>
    cases replied
    exact fun now read => le_add_of_le_of_nonneg (recorded.clock i now read) (Int.natCast_nonneg _)
  | _ => trivial

theorem follow_answered (g events : List (Event C)) : follow (answered cfg) g events = g ++ events := by
  induction events generalizing g with
  | nil => simp [follow]
  | cons event events ih =>
    have rest := ih (g ++ [event])
    rw [List.append_assoc] at rest
    exact rest

variable {requests : I → Request} {start : World C} {labels : List (I × Event C)}
  {x : World C × (I → Program C (Principal C))}

theorem recorded_of_run (empty : start.cache = ∅) (run : Run (Interleave (exec registry))
    (start, fun i => verify cfg (requests i)) labels x) :
    Recorded cfg registry x.1 (fun i => own i labels) ∧ ∀ i, Yields (answered cfg) (own i labels) (x.2 i) fun g p =>
      ∃ k now epoch, p.apiKey = info cfg k ∧ Basis g k now epoch ∧ Served cfg g k now epoch p.claims := by
  have blank : Recorded cfg registry start fun _ : I => [] := by
    constructor <;> simp [empty]
  have both := joint_of_run (d := fun _ => answered cfg) (Recorded cfg registry) (fun _ => True) (fun _ _ _ _ => trivial)
    run (fun i => yields_verify (requests i)) blank
    (fun o w n i c recorded _ _ => recorded.learns rfl) (fun o w n i c recorded allowed _ => recorded.next allowed rfl)
    trivial
  simp only [follow_answered, List.nil_append] at both
  exact both

omit [DecidableEq I] in
theorem Recorded.source (recorded : Recorded cfg registry w n) {k : APIKey} {now : Time} {epoch : UInt64}
    {claims : AppClaims C} (basis : Basis (n i) k now epoch) (served : Served cfg (n i) k now epoch claims) :
    ∃ j st t held grant, ⟨.accountState k.owner, .ok st⟩ ∈ n j ∧ st.usable = true ∧
      ⟨.claimsFor k.owner, (t, .ok held)⟩ ∈ n j ∧ now - cfg.recheckEvery < t ∧
      decodeAPIKeyGrant cfg k.appClaims = some grant ∧ claims = restrict held grant ∧
      (j = i ∨ st.epoch = epoch ∧ ∃ e k' t hash, ⟨.get k.id, some e⟩ ∈ n i ∧ ⟨.put k.id e, ()⟩ ∈ n j ∧ claims = e.claims ∧
        e.epoch = epoch ∧ ⟨.current k.owner, .ok epoch⟩ ∈ n j ∧ k'.id = k.id ∧ ⟨.getAPIKey t hash, .ok k'⟩ ∈ n j) := by
  rcases served with ⟨e, hit, serves, rfl⟩ | ⟨st, fresh⟩
  · simp only [Entry.serves, decide_eq_true_eq] at serves
    obtain ⟨rfl, young, -⟩ := serves
    obtain ⟨j, stored⟩ := recorded.hits i k.id e hit
    obtain ⟨k', st, named, basis', fresh, same⟩ := recorded.puts j k.id e stored
    obtain ⟨t', hash', read'⟩ := basis'.key
    obtain ⟨t, hash, read⟩ := basis.key
    -- the owner and the grant of a key never change
    have agrees := (recorded.keys j _ _ _ read').trans (named ▸ (recorded.keys i _ _ _ read).symm)
    obtain ⟨owner, grants⟩ := Prod.mk.inj agrees
    obtain ⟨asked, held, grant, told, since, decoded, claims⟩ := fresh.answer
    have state := fresh.state
    have current := basis'.current
    rw [owner] at told state current
    rw [grants] at decoded
    have age := (Time.sub_lt_iff (lt_trans (by decide) cfg.recheck_pos) cfg.recheck_le).mp young
    exact ⟨j, st, asked, held, grant, state, fresh.usable, told, by linarith, decoded, claims,
      .inr ⟨same, e, k', t', hash', hit, stored, rfl, rfl, current, named, read'⟩⟩
  · obtain ⟨t, held, grant, told, since, decoded, claims⟩ := fresh.answer
    have positive := cfg.recheck_pos
    exact ⟨i, st, t, held, grant, fresh.state, fresh.usable, told, by linarith, decoded, claims, .inl rfl⟩

/-- A step at which the account of the owner is not usable, and at which the call is answered its current epoch. -/
def Shut (registry : UUID → Subject × Bytes) (i : I) (owner : Subject) (x : World C × (I → Program C (Principal C)))
    (label : I × Event C) (y : World C × (I → Program C (Principal C))) : Prop :=
  Interleave (exec registry) x label y ∧ (y.1.accounts owner).usable = false ∧
    ∀ epoch, label = (i, ⟨.current owner, .ok epoch⟩) → (y.1.accounts owner).epoch = epoch

/-- Whoever was usable was so at an earlier epoch than the call is answered. -/
theorem shut_epochs (empty : start.cache = ∅) (run : Run (Interleave (exec registry))
    (start, fun i => verify cfg (requests i)) labels x) {owner : Subject} {during : List (I × Event C)}
    {y : World C × (I → Program C (Principal C))} (shut : Run (Shut registry i owner) x during y) :
    (∀ j st, (j, ⟨.accountState owner, .ok st⟩) ∈ during → st.usable = false) ∧
      ∀ j st epoch, (i, ⟨.current owner, .ok epoch⟩) ∈ during → (j, ⟨.accountState owner, .ok st⟩) ∈ labels ++ during →
        st.usable = true → st.epoch ≠ epoch := by
  induction shut with
  | nil => exact ⟨fun _ _ => nofun, fun _ _ _ => nofun⟩
  | @snoc z y during label before last ih =>
    have recorded := (recorded_of_run empty (run.append ((before.snoc last).mono fun _ _ _ step => step.1))).1
    obtain ⟨⟨o, _, -, replied, -⟩, closed, current⟩ := last
    have states (j : I) (st : AccountState) (member : (j, ⟨.accountState owner, .ok st⟩) ∈ during ++ [label]) :
        st.usable = false := by
      rcases List.mem_append.mp member with old | new
      · exact ih.1 j st old
      · cases List.mem_singleton.mp new
        obtain ⟨-, read⟩ := ite_error_eq_ok.mp (congrArg Prod.fst replied)
        cases read
        rw [← (exec_world replied).2]
        exact closed
    refine ⟨states, fun j st epoch answer state usable same => ?_⟩
    rcases List.mem_append.mp answer with old | new
    · rcases List.mem_append.mp state with early | late
      · exact ih.2 j st epoch old (List.mem_append_left _ early) usable same
      · exact absurd usable (by simp [states j st late])
    · have past := recorded.states j owner st (mem_own.mpr state) usable
      have answered := current epoch (List.mem_singleton.mp new).symm
      exact absurd (past.2 closed) (by rw [answered, same]; exact UInt64.lt_irrefl _)

end

/-- Every principal has no more than the grant of its key and than what its owner was lately said to hold, from a
claims answer of the call or of one for the same key under the same epoch; none is returned for an owner who is not
usable throughout a call that is answered the current epoch. -/
theorem key_within_grant {I : Type} [DecidableEq I] (cfg : Config) (registry : UUID → Subject × Bytes)
    (requests : I → Request) {start : World C} (empty : start.cache = ∅) {labels : List (I × Event C)}
    {x : World C × (I → Program C (Principal C))} (run : Run (Interleave (exec registry))
      (start, fun i => verify cfg (requests i)) labels x) :
    (∀ i p, x.2 i = .ret p → ∃ j k now epoch t held, p.apiKey = info cfg k ∧ (i, ⟨.now, now⟩) ∈ labels ∧
      (i, ⟨.current k.owner, .ok epoch⟩) ∈ labels ∧ (∃ t hash, (i, ⟨.getAPIKey t hash, .ok k⟩) ∈ labels) ∧
      (j, ⟨.claimsFor k.owner, (t, .ok held)⟩) ∈ labels ∧ now - cfg.recheckEvery < t ∧
      Attenuates p.claims.toClaims p.apiKey.grant held.toClaims ∧
      (j = i ∨ ∃ e k' t hash, (i, ⟨.get k.id, some e⟩) ∈ labels ∧ (j, ⟨.put k.id e, ()⟩) ∈ labels ∧ p.claims = e.claims ∧
        e.epoch = epoch ∧ (j, ⟨.current k.owner, .ok epoch⟩) ∈ labels ∧ k'.id = k.id ∧
        (j, ⟨.getAPIKey t hash, .ok k'⟩) ∈ labels)) ∧
    ∀ i owner, (∀ label ∈ labels, label.1 ≠ i) → ∀ during y, Run (Shut registry i owner) x during y →
      ∀ p, y.2 i = .ret p → p.apiKey.owner ≠ owner := by
  constructor
  · intro i p returned
    obtain ⟨recorded, yields⟩ := recorded_of_run empty run
    obtain ⟨k, now, epoch, key, basis, served⟩ := yields_ret.mp (returned ▸ yields i)
    obtain ⟨j, st, t, held, grant, -, -, told, recent, decoded, claims, source⟩ := recorded.source basis served
    simp only [mem_own] at told source
    obtain ⟨t', hash, read⟩ := basis.key
    refine ⟨j, k, now, epoch, t, held, key, mem_own.mp basis.time, mem_own.mp basis.current, ⟨t', hash, mem_own.mp read⟩,
      told, recent, ?_, source.imp id And.right⟩
    rw [key, claims, info, decoded]
    exact attenuates_restrict held grant
  · rintro i owner unborn during y shut p returned rfl
    have whole := run.append (shut.mono fun _ _ _ step => step.1)
    obtain ⟨recorded, yields⟩ := recorded_of_run empty whole
    obtain ⟨k, now, epoch, key, basis, served⟩ := yields_ret.mp (returned ▸ yields i)
    obtain ⟨closed, earlier⟩ := shut_epochs empty run shut
    obtain ⟨j, st, -, -, -, state, usable, -, -, -, -, source⟩ := recorded.source basis served
    have owner : p.apiKey.owner = k.owner := by rw [key, info]
    rw [owner] at closed earlier
    have mine {event : Event C} (member : event ∈ own i (labels ++ during)) : (i, event) ∈ during :=
      (List.mem_append.mp (mem_own.mp member)).resolve_left fun early => unborn _ early rfl
    rcases source with rfl | ⟨same, -⟩
    · exact absurd usable (by simp [closed j st (mine state)])
    · exact earlier j st epoch (mine basis.current) (mem_own.mp state) usable same

end

namespace Sample

def key : APIKey := ⟨Subject.sample.user, .sample, [], [], [], [1], 0, 0, 0, 0⟩

def cfg : Config where
  unmarshal _ := some ⟨[[7]], [], []⟩
  sum secret := secret
  recheckEvery := Duration.second
  recheck_pos := by decide
  recheck_le := by decide

/-- Two routes. -/
def requests (i : Nat) : Request where
  kinds := if i = 0 then [[]] else [[], [1]]
  check _ c := i = 0 ∨ [7] ∈ c.roles
  tenant := .zero
  secret := []

def registry : UUID → Subject × Bytes := fun _ => (.sample, [1])

def state : AccountState := ⟨true, false, false, false, true, 1⟩

def disabled : AccountState := { state with disabled := true, epoch := 2 }

def turn (a : AccountState) : Turn Unit := ⟨1, fun _ => a, .ok key, .ok a.epoch, false, .ok ⟨⟨[[8], [7]], [], []⟩, ()⟩, 0⟩

/-- The first request fills the cache, and the second is served from it. -/
def verified := schedule (exec registry) (⟨0, fun _ => state, ∅⟩, fun i => verify cfg (requests i))
  (List.replicate 8 (0, turn state) ++ List.replicate 4 (1, turn state))

def refused := schedule (exec registry) verified.2 (List.replicate 6 (2, turn disabled))

theorem shut_schedule (count : Nat) {x : World Unit × (Nat → Program Unit (Principal Unit))}
    (later : Follows (x.1.accounts .sample) disabled) : Run (Shut registry 2 .sample) x
      (schedule (exec registry) x (List.replicate count (2, turn disabled))).1
      (schedule (exec registry) x (List.replicate count (2, turn disabled))).2 := by
  induction count generalizing x with
  | zero => exact .nil
  | succ count ih =>
    rw [List.replicate_succ, schedule]
    split
    · exact .nil
    next label y taken =>
      have step := interleave_of_turn taken
      unfold Prog.turn at taken
      split at taken
      next c next head =>
        cases replied : exec registry (turn disabled) x.1 c with | mk r w' =>
        rw [replied] at taken
        cases taken
        have after : w'.accounts .sample = disabled := by
          rw [(exec_world replied).2]
          exact if_pos later
        have shut : Shut registry 2 .sample x (2, ⟨c, r⟩) (w', Function.update x.2 2 (next r)) := by
          refine ⟨step, by rw [after]; rfl, fun epoch same => ?_⟩
          cases same
          rw [after]
          exact Except.ok.inj (congrArg Prod.fst replied)
        exact (Run.single shut).append (ih (by rw [after]; decide))
      next => cases taken

end Sample

open Sample

theorem key_within_grant_shared :
    (∃ p e held, verified.2.2 1 = .ret p ∧ (1, ⟨.get key.id, some e⟩) ∈ verified.1 ∧
      p.claims = e.claims ∧ p.claims.roles = [[7]] ∧ Attenuates p.claims.toClaims p.apiKey.grant held) ∧
    (refused.2.2 2).returned.isNone = true ∧ ∀ p, refused.2.2 2 = .ret p → p.apiKey.owner ≠ .sample := by
  have run := run_schedule (exec registry) (⟨0, fun _ => state, ∅⟩,
    fun i => verify cfg (requests i)) (List.replicate 8 (0, turn state) ++ List.replicate 4 (1, turn state))
  obtain ⟨within, shut⟩ := key_within_grant cfg registry requests rfl run
  constructor
  · obtain ⟨-, -, -, -, -, held, -, -, -, -, -, -, attenuates, -⟩ := within 1 _ rfl
    exact ⟨_, _, held.toClaims, rfl, List.mem_of_getElem? (i := 11) rfl, rfl, rfl, attenuates⟩
  · refine ⟨by decide +kernel, shut 2 .sample (by decide +kernel) _ _ (shut_schedule 6 (by decide +kernel))⟩

end Egauth.Gate
