import Egauth.Identity.Whole
import Egauth.Semantics.Discipline

/-! The outbox dispatcher.

Any number of dispatchers run the rows of one account store: the fast path
runs the rows that a mutation has just written, a retry runs the rows that are
due. A call of the store or of a subscriber is one step; so is each access to a
dispatcher's own maps, which its mutex guards. Between two steps anything may
run, and a process that stops takes no further step.

What a step learns from elsewhere is told by its turn: the clock, whether a
context has ended, how a subscriber returns, and whether a call of the store
fails, before or after it has taken effect.
-/

set_option autoImplicit false

namespace Egauth.Identity
open Egauth.Core

def Store.pendingOutbox (s : Store) (clk : Time) (limit : Nat) : List OutboxItem :=
  ((s.outbox.filter fun r => decide (r.done = 0) && !decide (r.item.nextAttemptAt > clk.truncate)).take limit).map
    OutboxRow.item

end Egauth.Identity

namespace Egauth.Lifecycle
open Egauth.Core Identity Prog

def retryBase : Duration := 5 * Duration.second
def retryCap : Duration := 5 * Duration.minute
def retryBatch : Nat := 100
def fastPathGrace : Duration := 30 * Duration.second
def staleAfter : Duration := Duration.hour
def forgetSlack : Duration := Duration.minute

inductive Cause where
  | outboxUnavailable
  | subscriberPanic
  | lifecycle (c : Component)
  | acknowledging
  | deferring
  | store (err : Identity.Err)
  | other
  deriving DecidableEq

abbrev Failure := List Cause

def Cause.isConflict : Cause → Bool
  | .store (.conflict _) => true
  | _ => false

def backoffLoop : Nat → Duration → Duration
  | 0, d => min d retryCap
  | n + 1, d => if d ≥ retryCap / 2 then retryCap else backoffLoop n (d * 2)

def backoff (attempts : Int) : Duration := backoffLoop attempts.toNat retryBase

def createdAt (item : OutboxItem) (now : Time) : Time :=
  if item.createdAt = 0 then now - staleAfter - 1 else item.createdAt

structure Tracked where
  created : Time
  next : Time

inductive Outcome where
  | returned
  | failed (err : Failure)
  | panicked

structure Retry where
  component : Component
  event : Event
  subject : Subject
  attempts : Int
  err : Failure

/-- The calls that others make to the store: all but those of the dispatchers and the erasure of a tenant. -/
def Outside : Op → Prop
  | .ackOutbox _ | .eraseTenant _ => False
  | _ => True

inductive Call (D : Type) where
  | apply (ctx : Nat) (newID : Option UUID) (m : Mutation)
  | outside (op : Subtype Outside)
  | pendingOutbox (limit : Nat)
  | ackOutbox (id : Int)
  | failOutbox (id : Int) (next : Time)
  | subscriber (item : OutboxItem)
  | now
  | ended
  | claim (d : D) (id : Int)
  | release (d : D) (id : Int)
  | track (d : D) (item : OutboxItem) (next : Time)
  | watch (d : D) (item : OutboxItem) (now : Time)
  | untrack (d : D) (id : Int)
  | forgetDone (d : D) (seen : List Int) (now horizon : Time)
  | report (retry : Retry)

abbrev Reply {D : Type} : Call D → Type
  | .apply .. => Except Failure Applied
  | .pendingOutbox _ => Except Failure (List OutboxItem)
  | .ackOutbox _ | .failOutbox .. => Except Failure Unit
  | .subscriber _ => Outcome
  | .now => Time
  | .ended | .claim .. => Bool
  | _ => Unit

section
variable {D : Type}

abbrev Program (D A : Type) := Prog (Call D) Reply Failure A

abbrev ask (c : Call D) : Program D (Reply c) := Prog.perform c

def called (c : Component) : Outcome → Except Failure Unit
  | .returned => .ok ()
  | .failed err => .error (.lifecycle c :: err)
  | .panicked => .error [.subscriberPanic, .lifecycle c]

def deliver (item : OutboxItem) : Program D (Except Failure Unit) :=
  .call (.subscriber item) fun outcome => .ret (called item.component outcome)

def report (item : OutboxItem) (err : Failure) : Program D Unit :=
  ask (.report ⟨item.component, item.event, item.subject, item.attempts + 1, err⟩)

def conclude (d : D) (item : OutboxItem) (now : Time) : Except Failure Unit → Program D Unit
  | .ok () => do
    let acked : Except Failure Unit ← ask (.ackOutbox item.id)
    match acked with
    | .error err =>
      ask (.track d item now)
      report item (.acknowledging :: err)
    | .ok () => ask (.untrack d item.id)
  | .error err => do
    let next := now + backoff item.attempts
    ask (.track d item next)
    let deferred : Except Failure Unit ← ask (.failOutbox item.id next)
    match deferred with
    | .error failed => report item (err ++ .deferring :: failed)
    | .ok () =>
      if item.component = .identity ∧ err.any Cause.isConflict then pure () else report item err

def process (d : D) (item : OutboxItem) : Program D Unit := do
  if ← ask (.claim d item.id) then
    let result ← deliver item
    let now ← ask .now
    conclude d item now result
    ask (.release d item.id)
  else pure ()

def dispatchOutbox (d : D) : List OutboxItem → Program D Unit
  | [] => pure ()
  | item :: items => do
    if ← ask .ended then pure ()
    else
      process d item
      dispatchOutbox d items

def retryRows (d : D) (now : Time) : List OutboxItem → Program D Bool
  | [] => pure true
  | item :: items => do
    if now.sub (createdAt item now) > staleAfter then ask (.watch d item now)
    if item.attempts = 0 ∧ now.sub (createdAt item now) < fastPathGrace then retryRows d now items
    else if ← ask .ended then pure false
    else
      process d item
      retryRows d now items

def retry (d : D) : Program D Unit := do
  let pending : Except Failure (List OutboxItem) ← ask (.pendingOutbox retryBatch)
  match pending with
  | .error err => .fail (.outboxUnavailable :: err)
  | .ok items =>
    let now ← ask .now
    if ← retryRows d now items then
      -- A full batch says nothing of the rows past its last one.
      let horizon := if items.length ≥ retryBatch then (items.getLast?.map (createdAt · now)).getD 0 else 0
      ask (.forgetDone d (items.map OutboxItem.id) now horizon)
    else pure ()

end

structure World (D : Type) where
  store : Store
  inflight : D → Int → Bool
  failing : D → Int → Option Tracked

structure Turn where
  clk : Time := 0
  ended : Bool := false
  /-- The error of the call of the store, and whether it took effect all the same. -/
  fault : Option (Bool × Failure) := none
  outcome : Outcome := .returned

section
variable {D : Type} [DecidableEq D]

namespace World

def new : World D := ⟨.new, fun _ _ => false, fun _ _ => none⟩

def setInflight (w : World D) (d : D) (id : Int) (busy : Bool) : World D :=
  { w with inflight := Function.update w.inflight d (Function.update (w.inflight d) id busy) }

def setFailing (w : World D) (d : D) (id : Int) (t : Option Tracked) : World D :=
  { w with failing := Function.update w.failing d (Function.update (w.failing d) id t) }

def reach {A : Type} (w : World D) (o : Turn) (result : Store × Except Identity.Err A) : Except Failure A × World D :=
  match o.fault with
  | none => (result.2.mapError fun err => [.store err], { w with store := result.1 })
  | some (happened, err) => (.error err, if happened then { w with store := result.1 } else w)

end World

/-- `Identity.OnDeleted`, told how `EraseUser` ended: an account that is already erased is done. -/
def onDeleted : Except Failure Unit → Outcome
  | .ok () => .returned
  | .error err => if Cause.store .notFound ∈ err then .returned else .failed err

/-- The account row acts on deletions only. -/
def identitySubscriber (o : Turn) (w : World D) (item : OutboxItem) : Outcome × World D :=
  if item.event = .delete then
    let (erased, w) := w.reach o (w.store.eraseUser item.subject)
    (onDeleted erased, w)
  else (.returned, w)

def forgets (seen : List Int) (now horizon : Time) (id : Int) (t : Tracked) : Bool :=
  !seen.contains id && !(decide (horizon ≠ 0) && !decide (t.created < horizon)) && decide (t.next < now - forgetSlack)

def exec (o : Turn) (w : World D) : (c : Call D) → Reply c × World D
  | .apply ctx newID m => w.reach o (w.store.apply o.clk ctx newID m)
  | .outside op => ((), { w with store := w.store.perform ⟨o.clk, op.1⟩ })
  | .pendingOutbox limit => w.reach o (w.store, .ok (w.store.pendingOutbox o.clk limit))
  | .ackOutbox id => w.reach o (w.store.ackOutbox o.clk id)
  | .failOutbox id next => w.reach o (w.store.failOutbox id next)
  | .subscriber item => if item.component = .identity then identitySubscriber o w item else (o.outcome, w)
  | .now => (o.clk, w)
  | .ended => (o.ended, w)
  | .claim d id => (!w.inflight d id, w.setInflight d id true)
  | .release d id => ((), w.setInflight d id false)
  | .track d item next =>
    let created := ((w.failing d item.id).map Tracked.created).getD (createdAt item o.clk)
    ((), w.setFailing d item.id (some ⟨created, next⟩))
  | .watch d item now =>
    ((), w.setFailing d item.id ((w.failing d item.id).or (some ⟨createdAt item now, now⟩)))
  | .untrack d id => ((), w.setFailing d id none)
  | .forgetDone d seen now horizon =>
    ((), { w with failing := Function.update w.failing d fun id =>
      (w.failing d id).filter fun t => !forgets seen now horizon id t })
  | .report _ => ((), w)

/-- A request that applies a mutation and runs its rows, a pass of the reaper, or any other call of the store. -/
inductive Job (D : Type) where
  | mutation (d : D) (ctx : Nat) (newID : Option UUID) (m : Mutation)
  | retry (d : D)
  | outside (op : Subtype Outside)

def Job.program : Job D → Program D Unit
  | .mutation d ctx newID m => do
    let ap ← ask (.apply ctx newID m) >>= Prog.ofExcept id
    dispatchOutbox d ap.outbox
  | .retry d => Lifecycle.retry d
  | .outside op => ask (.outside op)

end
end Egauth.Lifecycle
