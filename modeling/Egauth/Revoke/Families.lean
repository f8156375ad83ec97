import Egauth.Revoke.Vouched
import Egauth.Tokens.Head
import Egauth.Tokens.Owner

/-! The family cache over the in-process token store.

A cached state carries the latest family expiry among the rows of its lookup, an
announcement the latest among the rows of its revocation, and the reaper keeps
the announcement until then. A rotation to an earlier expiry and a reaping of
the consumed token set the two apart.

Each call of the store and of the cache is one step; a call of the cache reads
the clock once.
-/

set_option autoImplicit false

namespace Egauth.Revoke.Families
open Egauth.Core Tokens

structure Family where
  id : UUID
  lineage : UUID
  deriving DecidableEq

/-- `ErrNotLive`, with the reason unless the store knows no such family, or what the read
reported. -/
inductive LiveErr where
  | notLive (why : Option String)
  | failed (err : Revoke.Err)
  deriving DecidableEq, Repr

abbrev Cache := Follower FamilyKey FamilyState

def feed (s : Store) (cursor : Nat) : Except ReadErr (List FamilyKey × Nat) :=
  let (revs, next) := s.revocationsSince cursor
  .ok (revs.map fun r => ⟨r.tenant, r.family⟩, next)

def lookup (s : Store) (k : FamilyKey) : Except ReadErr FamilyState :=
  match s.familyState k.tenant k.family with
  | .error .notFound => .error .notFound
  | .error _ => .error .failed
  | .ok st => .ok st

def forget (f : Cache) (t : TenantID) (family : UUID) : Cache := Follower.forget f ⟨t, family⟩

def forgetSubject (f : Cache) (s : Subject) (keep : UUID) : Cache :=
  f.forgetWhere fun _ st => st.subject == s && (keep == .nil || st.lineage != keep)

def forgetTenant (f : Cache) (t : TenantID) : Cache := f.forgetWhere fun k _ => k.tenant == t

def live (f : Cache) (now : Time) (src : Store) (s : Subject) (family : Family) :
    Cache × Except LiveErr Unit :=
  match f.get now (lookup src) ⟨s.tenant, family.id⟩ with
  | (f, .error .notFound) => (f, .error (.notLive none))
  | (f, .error err) => (f, .error (.failed err))
  | (f, .ok st) =>
    if st.subject ≠ s then (f, .error (.notLive (some "revoke: family of another subject")))
    else if st.lineage ≠ family.lineage then (f, .error (.notLive (some "revoke: family of another lineage")))
    else if !st.live now then (f, .error (.notLive (some "revoke: family revoked or expired")))
    else (f, .ok ())

theorem live_cache (f : Cache) (now : Time) (src : Store) (s : Subject) (family : Family) :
    (live f now src s family).1 = (f.get now (lookup src) ⟨s.tenant, family.id⟩).1 := by
  unfold live
  split <;> simp [*]
  split_ifs <;> rfl

theorem live_ok {f f' : Cache} {now : Time} {src : Store} {s : Subject} {family : Family}
    (ok : live f now src s family = (f', .ok ())) :
    ∃ st, f.get now (lookup src) ⟨s.tenant, family.id⟩ = (f', .ok st) ∧ st.live now = true := by
  unfold live at ok
  split at ok
  · cases ok
  · cases ok
  next st got =>
    split at ok
    · cases ok
    split at ok
    · cases ok
    split at ok
    · cases ok
    next alive =>
      cases ok
      exact ⟨st, got, by simpa using alive⟩

theorem lookup_ok {s : Store} {k : FamilyKey} {st : FamilyState} (found : lookup s k = .ok st) :
    s.familyState k.tenant k.family = .ok st := by
  unfold lookup at found
  split at found <;> cases found
  assumption

/-- `owner` records the owner of every family that was ever stored, `ended` the families that
were revoked, deleted or erased. -/
structure Source where
  store : Store
  owner : FamilyKey → Option Owner
  ended : FamilyKey → Prop

namespace Source

def new : Source := ⟨.new, fun _ => none, fun _ => False⟩

/-- The family was stored and has not been revoked, deleted or erased. -/
def Alive (src : Source) (fk : FamilyKey) : Prop := (src.owner fk).isSome ∧ ¬ src.ended fk

/-- The call revokes, deletes or erases the family, whether or not the reaper has left a
token of it. -/
def Ends (src : Source) (call : Call) (fk : FamilyKey) : Prop :=
  src.store.Ends fk call ∨ ∃ o, src.owner fk = some o ∧ call.op.Targets fk o

def apply (src : Source) (call : Call) : Source where
  store := src.store.apply call
  owner fk := (src.owner fk).or ((src.store.apply call).owner fk)
  ended fk := src.ended fk ∨ src.Ends call fk

/-- No call starts a family under an id that was used before. -/
def Admits (src : Source) (call : Call) : Prop :=
  call.Admissible src.store ∧ ∀ fk, call.op.starts = some fk → src.owner fk = none

/-- What the records say about the store. -/
structure Ok (src : Source) : Prop where
  sound : src.store.Sound
  bounded : src.store.ledger.Bounded
  owned : ∀ {fk h r}, src.store.ledger.Holds fk h r → src.owner fk = some r.owner
  revoked : ∀ {fk h r}, src.store.ledger.Holds fk h r → r.revoked = true → src.ended fk
  ended : ∀ {fk}, src.ended fk → src.store.ledger.Ended fk
  stored : ∀ {fk}, src.ended fk → (src.owner fk).isSome

theorem Ok.new : Ok .new where
  sound := .new
  bounded := nofun
  owned held := nomatch held.1
  revoked held := nomatch held.1
  ended := False.elim
  stored := False.elim

variable {src : Source} {fk : FamilyKey}

theorem Ok.ownedBy (ok : src.Ok) {o : Owner} (owner : src.owner fk = some o) : src.store.ledger.OwnedBy fk o := by
  intro h r held
  have known := ok.owned held
  rw [owner] at known
  exact (Option.some.inj known).symm

variable {call : Call}

theorem Ok.ends (ok : src.Ok) (admits : src.Admits call)
    (ends : src.Ends call fk) : (src.store.apply call).ledger.Ended fk := by
  have sound := ok.sound.apply call
  rcases ends with (⟨h₀, r₀, held₀, revoked⟩ | ⟨-, -, absent⟩) | ⟨o, owner, targets⟩
  · rintro h r held
    rw [(sound.coherent.agree held.1 held₀.1 (held.2.trans held₀.2.symm)).revoked, revoked]
  · exact fun h r held => absurd held (sound.indexed.absent_iff.mp absent h r)
  · exact ok.sound.indexed.apply_targets (ok.ownedBy owner) admits.1 targets

/-- A family that was ever stored is not started again. -/
theorem Admits.fresh (admits : src.Admits call)
    (stored : (src.owner fk).isSome) : call.op.starts ≠ some fk := by
  intro starts
  rw [admits.2 fk starts] at stored
  cases stored

theorem Ok.owned_apply (ok : src.Ok) (admits : src.Admits call)
    {h : Bytes} {r : Refresh} (held : (src.store.apply call).ledger.Holds fk h r) :
    (src.apply call).owner fk = some r.owner := by
  have sound := ok.sound.apply call
  cases owner : src.owner fk with
  | none =>
    -- The family is new, and its owner that of its first token.
    cases first : (src.store.apply call).owner fk with
    | none => exact absurd held ((Store.owner_eq_none sound.indexed).mp first h r)
    | some o => simp [Source.apply, owner, first, sound.owned first h r held]
  | some o =>
    have fresh := admits.fresh (Option.isSome_iff_exists.mpr ⟨o, owner⟩)
    have kept := ok.sound.indexed.apply_owned fresh (ok.ownedBy owner) h r held
    simp [Source.apply, owner, kept]

theorem owner_apply (stored : (src.owner fk).isSome) (call : Call) : ((src.apply call).owner fk).isSome := by
  simp [Source.apply, stored]

theorem Ok.apply (ok : src.Ok) (admits : src.Admits call) : (src.apply call).Ok where
  sound := ok.sound.apply call
  bounded := ok.sound.indexed.apply_bounded ok.bounded call
  owned := ok.owned_apply admits
  revoked held revoked := .inr (.inl (.inl ⟨_, _, held, revoked⟩))
  ended := by
    rintro fk (before | ends)
    · exact ok.sound.indexed.apply_ended (admits.fresh (ok.stored before)) (ok.ended before)
    · exact ok.ends admits ends
  stored := by
    rintro fk (before | (⟨h, r, held, -⟩ | ⟨-, indexed, -⟩) | ⟨o, owner, -⟩)
    · exact owner_apply (ok.stored before) call
    · rw [ok.owned_apply admits held, Option.isSome_some]
    · refine owner_apply ?_ call
      by_contra unknown
      have absent : ∀ h r, ¬ src.store.ledger.Holds fk h r := fun h r held => by simp [ok.owned held] at unknown
      rw [ok.sound.indexed.absent_iff.mpr absent] at indexed
      cases indexed
    · exact owner_apply (by rw [owner, Option.isSome_some]) call

/-- The reaper ends no family that has not ended before. -/
theorem Ok.reap (ok : src.Ok) {clk : Time} (ends : src.Ends ⟨clk, .reapExpired⟩ fk) : src.ended fk := by
  rcases ends with (⟨h, r, held, revoked⟩ | ⟨other, -⟩) | ⟨o, -, targets⟩
  · exact ok.revoked ⟨ok.sound.indexed.reap_sub held.1, held.2⟩ revoked
  · exact absurd rfl other
  · cases targets

theorem Ok.alive (ok : src.Ok) {st : FamilyState}
    (found : src.store.familyState fk.tenant fk.family = .ok st) (unrevoked : st.revoked = false) :
    src.Alive fk := by
  obtain ⟨h, r, held, active⟩ := Store.familyState_unrevoked ok.sound.indexed found unrevoked
  refine ⟨by rw [ok.owned held, Option.isSome_some], fun ended => ?_⟩
  rw [ok.ended ended h r held] at active
  cases active

end Source

abbrev World := Cached Source FamilyKey FamilyState

inductive Action where
  | advance (t : Time)
  | call (op : Op)
  | poll
  | live (s : Subject) (family : Family)
  | forget (t : TenantID) (family : UUID)
  | forgetSubject (s : Subject) (keep : UUID)
  | forgetTenant (t : TenantID)

namespace World

def init (capacity : Nat) (t₀ : Time) : World := ⟨t₀, .new, .new capacity⟩

def apply (w : World) : Action → World
  | .advance t => { w with clock := t }
  | .call op => { w with source := w.source.apply ⟨w.clock, op⟩ }
  | .poll => { w with cache := (w.cache.poll w.clock (feed w.source.store)).1 }
  | .live s family => { w with cache := (Families.live w.cache w.clock w.source.store s family).1 }
  | .forget t family => { w with cache := Families.forget w.cache t family }
  | .forgetSubject s keep => { w with cache := Families.forgetSubject w.cache s keep }
  | .forgetTenant t => { w with cache := Families.forgetTenant w.cache t }

def Admits (w : World) : Action → Prop
  | .advance t => w.clock ≤ t
  | .call op => w.source.Admits ⟨w.clock, op⟩
  | _ => True

def Step (w : World) (action : Action) (w' : World) : Prop := w.Admits action ∧ w' = w.apply action

/-- The cache has yet to read an announcement of the family. -/
def Unread (src : Source) (cursor : Nat) (fk : FamilyKey) : Prop := ∃ expires, src.store.ledger.Announced fk cursor expires

/-- A call that ends a family with a live cached state finds a token of it, and no reaping drops the last
announcement of such a family that the cache has yet to read. -/
def Covers (w : World) : Action → Prop
  | .call op => ∀ e ∈ w.cache.entries.items, e.2.live w.clock = true →
      (w.source.Alive e.1 → w.source.Ends ⟨w.clock, op⟩ e.1 → ∃ h r, w.source.store.ledger.Holds e.1 h r) ∧
      (op = .reapExpired → Unread w.source w.cache.cursor e.1 →
        Unread (w.source.apply ⟨w.clock, op⟩) w.cache.cursor e.1)
  | _ => True

def Good (clock : Time) (src : Source) (fk : FamilyKey) (st : FamilyState) : Prop :=
  st.live clock = false ∨ src.Alive fk

def Named (src : Source) (cursor : Nat) (fk : FamilyKey) (_ : FamilyState) : Prop := Unread src cursor fk

def Valid (src : Source) (cursor : Nat) : Prop := cursor ≤ src.store.seq

variable {st : FamilyState}

theorem not_live_mono {clock later : Time} (dead : st.live clock = false)
    (order : clock ≤ later) : st.live later = false := by
  simp only [FamilyState.live, Bool.and_eq_false_imp, Bool.not_eq_true', decide_eq_false_iff_not] at dead ⊢
  exact fun unrevoked => fun early => dead unrevoked (lt_of_le_of_lt order early)

theorem names (src : Source) : Follower.Names (feed src.store) (Named src) := by
  rintro c changed next read k st ⟨expires, a, member, after, rfl, -⟩
  cases read
  exact .inl (List.mem_map.mpr ⟨a.rev, Store.mem_revocationsSince member after, rfl⟩)

/-- An entry stays good, or comes to be named, across a call that covers what it ends. -/
theorem good_apply {src : Source} (ok : src.Ok) {clock : Time} {op : Op} (admits : src.Admits ⟨clock, op⟩)
    {fk : FamilyKey} {cursor : Nat} (behind : cursor ≤ src.store.seq)
    (covers : st.live clock = true → src.Alive fk → src.Ends ⟨clock, op⟩ fk → ∃ h r, src.store.ledger.Holds fk h r)
    (good : Good clock src fk st) :
    Good clock (src.apply ⟨clock, op⟩) fk st ∨ Named (src.apply ⟨clock, op⟩) cursor fk st := by
  rcases good with dead | alive
  · exact .inl (.inl dead)
  by_cases ends : src.Ends ⟨clock, op⟩ fk
  · cases lives : st.live clock with
    | false => exact .inl (.inl lives)
    | true =>
      -- The token is unrevoked, so that ending its family announces it.
      obtain ⟨h, r, held⟩ := covers lives alive ends
      have unrevoked : r.revoked = false := by
        refine eq_false_of_ne_true fun revoked => alive.2 (ok.revoked held revoked)
      have other : op ≠ .reapExpired := by
        rintro rfl
        exact alive.2 (ok.reap ends)
      have covered : (src.store.apply ⟨clock, op⟩).ledger.Covered fk cursor r.row.familyExpiresAt :=
        ok.sound.indexed.apply_covered other behind (.inl ⟨h, r, held, unrevoked, le_rfl⟩)
      refine .inr ⟨_, covered.resolve_left ?_⟩
      rintro ⟨h', r', held', active, -⟩
      rw [ok.ends admits ends h' r' held'] at active
      cases active
  · exact .inl (.inr ⟨Source.owner_apply alive.1 _, not_or.mpr ⟨alive.2, ends⟩⟩)

/-- Only a reaping drops an announcement. -/
theorem named_apply {src : Source} (ok : src.Ok) {clock : Time} {op : Op} {fk : FamilyKey}
    {cursor : Nat} (covers : st.live clock = true → op = .reapExpired → Unread src cursor fk →
      Unread (src.apply ⟨clock, op⟩) cursor fk) (named : Named src cursor fk st) :
    Good clock (src.apply ⟨clock, op⟩) fk st ∨ Named (src.apply ⟨clock, op⟩) cursor fk st := by
  cases lives : st.live clock with
  | false => exact .inl (.inl lives)
  | true =>
    refine .inr ?_
    by_cases reaps : op = .reapExpired
    · exact covers lives reaps named
    · obtain ⟨expires, announced⟩ := named
      exact ⟨expires, ok.sound.indexed.apply_announced (fun same => absurd same reaps) announced⟩

structure Inv (past : List World) (w : World) : Prop where
  ok : w.source.Ok
  vouched : Vouched Good Named Valid past w

theorem Inv.init (capacity : Nat) (t₀ : Time) : Inv [] (World.init capacity t₀) :=
  ⟨.new, .new _ _ _ (Nat.zero_le _)⟩

variable {past : List World}

theorem Inv.answers {w : World} (inv : Inv past w) (fk : FamilyKey) (st : FamilyState)
    (found : lookup w.source.store fk = .ok st) : Good w.clock w.source fk st := by
  cases revoked : st.revoked with
  | true => exact .inl (by simp [FamilyState.live, revoked])
  | false => exact .inr (inv.ok.alive (lookup_ok found) revoked)

theorem Inv.step {w w' : World} {action : Action} (inv : Inv past w)
    (step : Restrict Covers Step w action w') : Inv (w :: past) w' := by
  obtain ⟨covers, admits, rfl⟩ := step
  obtain ⟨ok, vouched⟩ := inv
  cases action with
  | advance t =>
    refine ⟨ok, vouched.move admits vouched.cursor fun e _ => Or.imp_left ?_⟩
    exact Or.imp_left fun dead => not_live_mono dead admits
  | call op =>
    refine ⟨ok.apply admits, vouched.move le_rfl ?_ fun e member => ?_⟩
    · exact vouched.cursor.trans (ok.sound.indexed.apply_seq_le _)
    · rintro (good | named)
      · exact good_apply ok admits vouched.cursor (fun lives => (covers e member lives).1) good
      · exact named_apply ok (fun lives => (covers e member lives).2) named
  | poll =>
    refine ⟨ok, vouched.poll (names w.source) (Nat.zero_le _) fun c changed next read advanced => ?_⟩
    cases read
    exact Store.revocationsSince_le ok.bounded advanced
  | live s family =>
    have got := vouched.get (lookup w.source.store) (Inv.answers ⟨ok, vouched⟩) ⟨s.tenant, family.id⟩
    rw [← live_cache] at got
    exact ⟨ok, got⟩
  | forget t family =>
    exact ⟨ok, vouched.recache rfl rfl fun e member => .inl (Lru.mem_remove.mp member).1⟩
  | forgetSubject s keep =>
    exact ⟨ok, vouched.recache rfl rfl fun e member => .inl (Lru.mem_removeWhere.mp member).1⟩
  | forgetTenant t =>
    exact ⟨ok, vouched.recache rfl rfl fun e member => .inl (Lru.mem_removeWhere.mp member).1⟩

theorem Inv.history {capacity : Nat} {t₀ : Time} {w : World}
    (history : History (Restrict Covers Step) (World.init capacity t₀) past w) : Inv past w :=
  history.invariant Inv (.init capacity t₀) Inv.step

/-- A family that is found live was neither revoked nor deleted nor erased at some instant
less than the bound ago. -/
theorem live_of_covered_history {capacity : Nat} {t₀ : Time} {past : List World} {w : World}
    (history : History (Restrict Covers Step) (World.init capacity t₀) past w) {s : Subject} {family : Family}
    {f : Cache} (ok : Families.live w.cache w.clock w.source.store s family = (f, .ok ())) :
    ∃ w₀ ∈ w :: past, w.clock - pollBound < w₀.clock ∧ w₀.source.Alive ⟨s.tenant, family.id⟩ := by
  have inv := Inv.history history
  obtain ⟨st, got, lives⟩ := live_ok ok
  obtain ⟨w₀, earlier, recent, order, good⟩ := inv.vouched.served (inv.answers _ st) got
  refine ⟨w₀, earlier, recent, good.resolve_left fun dead => ?_⟩
  rw [not_live_mono dead order] at lives
  cases lives

namespace Sample
open Tokens.Sample

def family : Family := ⟨uuid 2, uuid 3⟩

def create : Op := .create (record 1 20000000000 1000000000000 (by decide))

/-- Rotates the token; the next one ends the family at fifty seconds. -/
def shorten : Op :=
  .consumeForRotation ⟨List.replicate hashLen 1, record 2 50000000000 50000000000 (by decide)⟩

def created : World := (init 1 1000000000).apply (.call create)

def polled : World := created.apply .poll

/-- The state of the family is cached while it ends at a thousand seconds. -/
def cached : World := polled.apply (.live subject family)

theorem cached_covered :
    History (Restrict Covers Step) (init 1 1000000000) [polled, created, init 1 1000000000] cached := by
  have first : Restrict Covers Step (init 1 1000000000) (.call create) created :=
    ⟨nofun, ⟨trivial, fun _ _ => rfl⟩, rfl⟩
  have second : Restrict Covers Step created .poll polled := ⟨trivial, trivial, rfl⟩
  have third : Restrict Covers Step polled (.live subject family) cached := ⟨trivial, trivial, rfl⟩
  exact ((History.start.next first).next second).next third

def rotated : World := cached.apply (.call shorten)

def waited : World := rotated.apply (.advance 30000000000)

def reaped : World := waited.apply (.call .reapExpired)

def key : FamilyKey := ⟨subject.tenant, family.id⟩

theorem covers_call {w : World} {op : Op} {h : Bytes} {r : Refresh} (cached : w.cache.entries.items.map Prod.fst = [key])
    (held : w.source.store.ledger.Holds key h r) (kept : op = .reapExpired → Unread w.source w.cache.cursor key →
      Unread (w.source.apply ⟨w.clock, op⟩) w.cache.cursor key) : w.Covers (.call op) := by
  intro e member _
  have own : e.1 ∈ w.cache.entries.items.map Prod.fst := List.mem_map_of_mem member
  rw [cached, List.mem_singleton] at own
  rw [own]
  exact ⟨fun _ _ => ⟨h, r, held⟩, kept⟩

theorem reaped_covered : History (Restrict Covers Step) (init 1 1000000000)
    [waited, rotated, cached, polled, created, init 1 1000000000] reaped := by
  have rotates : Restrict Covers Step cached (.call shorten) rotated :=
    ⟨covers_call (h := List.replicate hashLen 1) rfl ⟨rfl, rfl⟩ nofun, ⟨trivial, nofun⟩, rfl⟩
  have waits : Restrict Covers Step rotated (.advance 30000000000) waited :=
    ⟨trivial, (by decide : rotated.clock ≤ _), rfl⟩
  have reaps : Restrict Covers Step waited (.call .reapExpired) reaped := by
    refine ⟨covers_call (h := List.replicate hashLen 2) rfl ⟨rfl, rfl⟩ ?_, ⟨trivial, nofun⟩, rfl⟩
    rintro - ⟨expires, a, member, -⟩
    cases member
  exact ((cached_covered.next rotates).next waits).next reaps

def repolled : World := reaped.apply .poll

def ended : World := repolled.apply (.call (.revokeFamily subject.tenant family.id))

/-- The announcement lasts until fifty seconds, and the reaper leaves it. -/
def left : World := ended.apply (.call .reapExpired)

theorem left_covered : History (Restrict Covers Step) (init 1 1000000000)
    (ended :: repolled :: reaped :: [waited, rotated, cached, polled, created, init 1 1000000000]) left := by
  have polls : Restrict Covers Step reaped .poll repolled := ⟨trivial, trivial, rfl⟩
  have revokes : Restrict Covers Step repolled (.call (.revokeFamily subject.tenant family.id)) ended :=
    ⟨covers_call (h := List.replicate hashLen 2) rfl ⟨rfl, rfl⟩ nofun, ⟨trivial, nofun⟩, rfl⟩
  have leaves : Restrict Covers Step ended (.call .reapExpired) left := by
    refine ⟨covers_call (h := List.replicate hashLen 2) rfl ⟨rfl, rfl⟩ ?_, ⟨trivial, nofun⟩, rfl⟩
    exact fun _ _ => ⟨50000000000, _, List.mem_cons_self, by decide, rfl, le_rfl⟩
  exact ((reaped_covered.next polls).next revokes).next leaves

end Sample

open Sample

theorem live_of_covered_history_revoked : left.source.ended key ∧
    ∃ w₀ ∈ [left, ended, repolled, reaped, waited, rotated, cached, polled, created, init 1 1000000000],
      left.clock - pollBound < w₀.clock ∧ w₀.source.Alive key := by
  have ok : Families.live left.cache left.clock left.source.store Tokens.Sample.subject family = (_, .ok ()) := rfl
  exact ⟨.inl (.inr (.inr ⟨_, rfl, rfl⟩)), live_of_covered_history left_covered ok⟩

namespace Sample
open Tokens.Sample

def revoked : World := reaped.apply (.call (.revokeFamily subject.tenant family.id))

/-- Nothing polls until the announcement is over. -/
def later : World := revoked.apply (.advance 60000000000)

def forgotten : World := later.apply (.call .reapExpired)

def resumed : World := forgotten.apply .poll

theorem resumed_history : History Step (init 1 1000000000)
    (forgotten :: later :: revoked :: reaped :: [waited, rotated, cached, polled, created, init 1 1000000000])
    resumed := by
  have revokes : Step reaped (.call (.revokeFamily subject.tenant family.id)) revoked := ⟨⟨trivial, nofun⟩, rfl⟩
  have waits : Step revoked (.advance 60000000000) later := ⟨(by decide : revoked.clock ≤ _), rfl⟩
  have reaps : Step later (.call .reapExpired) forgotten := ⟨⟨trivial, nofun⟩, rfl⟩
  have polls : Step forgotten .poll resumed := ⟨trivial, rfl⟩
  exact (((reaped_covered.unrestrict.next revokes).next waits).next reaps).next polls

end Sample

/-- A family is found live half a minute after its revocation: the cached state ends later than
the announcement, which nothing had read when it was reaped. -/
theorem live_after_reaped_announcement : ∃ past w f s family,
    History Step (init 1 1000000000) past w ∧
      Families.live w.cache w.clock w.source.store s family = (f, .ok ()) ∧
      ∀ w₀ ∈ w :: past, w.clock - pollBound < w₀.clock → ¬ w₀.source.Alive ⟨s.tenant, family.id⟩ := by
  refine ⟨_, resumed, _, Tokens.Sample.subject, Sample.family, resumed_history, rfl, ?_⟩
  have ended : revoked.source.ended ⟨Tokens.Sample.subject.tenant, Sample.family.id⟩ :=
    .inr (.inr ⟨_, rfl, rfl⟩)
  have stale : ∀ w₀ ∈ [revoked, reaped, waited, rotated,
      cached, polled, created, init 1 1000000000],
      ¬ resumed.clock - pollBound < w₀.clock := by
    simp only [List.forall_mem_cons]
    decide
  intro w₀ member recent alive
  rcases List.mem_cons.mp member with rfl | member
  · exact alive.2 (.inl ended)
  rcases List.mem_cons.mp member with rfl | member
  · exact alive.2 (.inl ended)
  rcases List.mem_cons.mp member with rfl | member
  · exact alive.2 ended
  · exact stale w₀ member recent

end World
end Egauth.Revoke.Families
