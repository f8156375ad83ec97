import Egauth.Data.Decimal
import Egauth.Service.Calls

/-! The bookkeeping of security reverts.

Anchors and tenures of an address are records of the ceremony store under keys
of their own. A mark is dated at the end of what it tells of, and its note holds
the beginning in microseconds of the Unix epoch.
-/

set_option autoImplicit false

namespace Egauth.Revert
open Egauth.Core Identity Service

abbrev revertSpans : Nat := 5

def unixMicro (t : Time) : Int := (t - unixEpoch) / Duration.microsecond

def ofUnixMicro (us : Int) : Time := unixEpoch + us * Duration.microsecond

abbrev Slot (n : Nat) := Fin n

def Slot.byte {n : Nat} (i : Slot n) : Bytes := [UInt8.ofNat i.val]

def revertRecord (cfg : Config) (u : User) (scope : Ceremony.Scope) (hash : Ceremony.Digest) (rv : Ceremony.Body)
    (now : Time) : Program Ceremony.Record := do
  let p ← detached cfg u.subject.tenant
  let p ← value .core (p.bind u.subject (stateOf u))
  match Ceremony.encode .securityRevert rv with
  | none => .fail .payload
  | some payload => value .ceremony (Ceremony.newRecord ⟨.securityRevert, hash, scope, p, payload, now⟩)

def putMark (cfg : Config) (u : User) (scopeMAC hash : Ceremony.Digest) (note : Bytes) (now : Time) :
    Program Unit := do
  let scope ← value .ceremony (Ceremony.identifierScope scopeMAC)
  let rec ← revertRecord cfg u scope hash (.revert note SecurityEvent.identifierChanged.code) now
  let _ ← value .ceremony (← ask (.put rec))

def peekMark (t : TenantID) (hash : Ceremony.Digest) : Program (Option Ceremony.Record) := do
  match ← ask (.peek t .securityRevert hash) with
  | .ok rec => pure (some rec)
  | .error .notFound => pure none
  | .error err => .fail (.ceremony err)

def consumeMark (t : TenantID) (hash : Ceremony.Digest) : Program Unit := do
  match ← ask (.consume t .securityRevert hash) with
  | .ok _ => pure ()
  | .error .notFound => pure ()
  | .error err => .fail (.ceremony err)

def consumeLive (live : Bool) (t : TenantID) (hash : Ceremony.Digest) : Program Unit :=
  if live then consumeMark t hash else pure ()

def noteOf (rec : Ceremony.Record) : Option Bytes :=
  match Ceremony.decode .securityRevert rec.row.payload with
  | some (.revert note _) => some note
  | _ => none

def markedFrom (rec : Ceremony.Record) : Option Time := (noteOf rec).bind fun note => (Decimal.parse note).map ofUnixMicro

def noteFrom (t : Time) : Bytes := Decimal.format (unixMicro t)

def anchorScope (sub : Subject) (addr : Identifier) : Ceremony.Digest := .keyed .revertAnchor sub [addr.value]

def anchorKey (sub : Subject) (addr : Identifier) (i : Slot 2) : Ceremony.Digest :=
  .keyed .revertAnchor sub [addr.value, i.byte]

/-- What the slots read so far hold; the zero times while none is live. -/
structure Anchor where
  first : Time
  last : Time
  live : Slot 2 → Bool

def Anchor.none : Anchor := ⟨0, 0, fun _ => false⟩

def Anchor.add (a : Anchor) (i : Slot 2) : Option Ceremony.Record → Anchor
  | .none => a
  | some rec =>
    let last := rec.row.createdAt
    let first :=
      match markedFrom rec with
      | some marked => if marked < last then marked else last
      | .none => last
    { first := if a.first = 0 ∨ first < a.first then first else a.first
      last := if last > a.last then last else a.last
      live := Function.update a.live i true }

def Anchor.held (a : Anchor) : Bool := a.live 0 || a.live 1

def anchor (sub : Subject) (addr : Identifier) : Program Anchor := do
  let zeroth ← peekMark sub.tenant (anchorKey sub addr 0)
  let first ← peekMark sub.tenant (anchorKey sub addr 1)
  pure ((Anchor.none.add 0 zeroth).add 1 first)

def minTime (a b : Time) : Time := if a < b then a else b

def maxTime (a b : Time) : Time := if a > b then a else b

/-- The rounds that `holdAnchor` has left. -/
def holdRounds (cfg : Config) (u : User) (addr : Identifier) (t : Time) : Nat → Program Unit
  | 0 => .fail .anchorContended
  | rounds + 1 => do
    let sub := u.subject
    let a ← anchor sub addr
    if a.held ∧ ¬ a.first > t ∧ ¬ a.last < t then pure ()
    else
      let start := if a.held then minTime a.first t else t
      let ends := if a.held then maxTime a.last t else t
      let slot : Slot 2 := if a.live 0 then 1 else 0
      consumeLive (a.live slot) sub.tenant (anchorKey sub addr slot)
      match ← (putMark cfg u (anchorScope sub addr) (anchorKey sub addr slot) (noteFrom start) ends).attempt with
      | .error (.ceremony .conflict) => holdRounds cfg u addr t rounds
      | .error err => .fail err
      | .ok () => consumeLive (a.live (1 - slot)) sub.tenant (anchorKey sub addr (1 - slot))

/-- Keeps an instant covered by the anchor of an address. -/
def holdAnchor (cfg : Config) (u : User) (addr : Identifier) (t : Time) : Program Unit :=
  holdRounds cfg u addr t.truncate 3

def tenureScope (sub : Subject) : Ceremony.Digest := .keyed .revertTenure sub []

def tenureKey (sub : Subject) (i : Slot revertSpans) : Ceremony.Digest := .keyed .revertTenure sub [i.byte]

structure Tenure where
  slot : Slot revertSpans
  live : Bool
  addr : Bytes
  from' : Time
  to' : Time

def cutSpace (note : Bytes) : Option (Bytes × Bytes) :=
  match note.dropWhile (· != 32) with
  | [] => none
  | _ :: rest => some (note.takeWhile (· != 32), rest)

/-- A mark that does not parse is live and empty. -/
def tenureOf (i : Slot revertSpans) : Option Ceremony.Record → Tenure
  | none => ⟨i, false, [], 0, 0⟩
  | some rec =>
    match (noteOf rec).bind cutSpace with
    | none => ⟨i, true, [], 0, 0⟩
    | some (from', addr) =>
      match Decimal.parse from' with
      | none => ⟨i, true, [], 0, 0⟩
      | some us => ⟨i, true, addr, ofUnixMicro us, rec.row.createdAt⟩

def readTenures (sub : Subject) : List (Slot revertSpans) → Program (List Tenure)
  | [] => pure []
  | i :: rest => do
    let rec ← peekMark sub.tenant (tenureKey sub i)
    let tenures ← readTenures sub rest
    pure (tenureOf i rec :: tenures)

def tenures (sub : Subject) : Program (List Tenure) := readTenures sub (List.finRange revertSpans)

def oldestLoop : List Tenure → Tenure → Tenure
  | [], oldest => oldest
  | e :: rest, oldest => if !e.live then e else oldestLoop rest (if e.to' < oldest.to' then e else oldest)

def oldestTenure (all : List Tenure) : Tenure := oldestLoop all (all.headD ⟨0, false, [], 0, 0⟩)

/-- The replaced address and the instant of an email change, none for another mutation. -/
def emailChangeOf (ap : Applied) : Option (Identifier × Time) :=
  match ap.outbox.find? fun it =>
      it.event = .identifierChanged ∧ it.identifier = some .email ∧ it.createdAt ≠ 0 with
  | none => none
  | some it => if it.old.isZero then none else some (it.old, it.createdAt)

def noteTenure (verifiedAt : Time) (addr : Bytes) : Bytes := noteFrom verifiedAt ++ 32 :: addr

def tenureRounds (cfg : Config) (before : User) (note : Bytes) (ends : Time) : Nat → Program Unit
  | 0 => .fail (.ceremony .conflict)
  | rounds + 1 => do
    let sub := before.subject
    let all ← tenures sub
    let old := oldestTenure all
    consumeLive old.live sub.tenant (tenureKey sub old.slot)
    match ← (putMark cfg before (tenureScope sub) (tenureKey sub old.slot) note ends).attempt with
    | .error (.ceremony .conflict) => tenureRounds cfg before note ends rounds
    | .error err => .fail err
    | .ok () => pure ()

def recordTenure (cfg : Config) (before : User) (ap : Applied) : Program Unit :=
  match emailChangeOf ap with
  | none => pure ()
  | some (old, ends) =>
    if old ≠ before.email ∨ before.emailVerifiedAt = 0 ∨ ¬ before.emailVerifiedAt < ends then pure ()
    else tenureRounds cfg before (noteTenure before.emailVerifiedAt old.value) ends revertSpans

def changeEmail (cfg : Config) (before : User) (to' : Identifier) : Program Applied := do
  let ap ← value .identity (← ask (.apply (.changeEmail before.subject to')))
  let _ ← (recordTenure cfg before ap).attempt
  pure ap

end Egauth.Revert
