import Egauth.Identity.Lockout
import Egauth.Login.Race
import Egauth.Semantics.Program

/-! Password guesses side by side.

`verifyPassword` reads the credential, derives the key and then tests the lock
that it read before the derivation. Failures are counted, and a success resets
them, in calls of their own. A guess is the program of these calls, and any
number of guesses take turns at the account store. A refusal does not tell why.
-/

set_option autoImplicit false

namespace Egauth.Login.Guess
open Egauth.Core Identity

inductive Call where
  | findUser (t : TenantID) (id : Identifier)
  | getPassword (sub : Subject)
  | matchesHash (phc : PasswordHash) (password : Bytes)
  | now
  | recordPasswordFailure (sub : Subject) (p : LockoutPolicy)
  | resetPasswordFailures (sub : Subject)
  deriving DecidableEq

abbrev Reply : Call → Type
  | .findUser .. => Except Identity.Err User
  | .getPassword _ => Except Identity.Err PasswordCredential
  | .matchesHash .. => Option Bool
  | .now => Time
  | .recordPasswordFailure .. => Except Identity.Err Lockout
  | .resetPasswordFailures _ => Except Identity.Err Unit

abbrev Program := Prog Call Reply Problem Subject

abbrev ask (c : Call) : Prog Call Reply Problem (Reply c) := Prog.perform c

section
variable (svc : Service) (req : Request)

/-- A derivation that takes the time of one for a known user. -/
def decoy : Prog Call Reply Problem Unit := do
  match ← ask (.matchesHash svc.decoyPHC req.password) with
  | none => .fail .serviceUnavailable
  | some _ => .ret ()

def refuseDecoy : Program := do
  let _ ← ask (.recordPasswordFailure (decoySub svc req) lockoutPolicy)
  .fail .invalidCredentials

def recordFailure (sub : Subject) : Program := do
  let _ ← ask (.recordPasswordFailure sub lockoutPolicy)
  .fail .invalidCredentials

def acceptGuess (sub : Subject) (cred : PasswordCredential) : Program :=
  if cred.failedAttempts > 0 then do
    match ← ask (.resetPasswordFailures sub) with
    | .error _ => .fail .serviceUnavailable
    | .ok () => .ret sub
  else .ret sub

/-- The lock is the one of the credential that was read; the clock is read only where the login is allowed. -/
def barred (id : Identifier) (u : User) (cred : PasswordCredential) : Prog Call Reply Problem Bool :=
  if loginAllowed u id then do
    let now ← ask .now
    .ret (decide (cred.lockedUntil > now))
  else .ret true

def judgeGuess (id : Identifier) (u : User) (cred : PasswordCredential) : Program := do
  match ← ask (.matchesHash cred.phc req.password) with
  | none => .fail .serviceUnavailable
  | some ok =>
    if ← barred id u cred then refuseDecoy svc req
    else if ok then acceptGuess u.subject cred
    else recordFailure u.subject

/-- What follows `FindUser`; `known` is the user it found. -/
def readCredential (id : Identifier) (known : Option User) : Program := do
  match ← ask (.getPassword ((known.map User.subject).getD (decoySub svc req))), known with
  | .ok cred, some u => judgeGuess svc req id u cred
  | .ok _, none | .error .notFound, _ => do
    decoy svc req
    refuseDecoy svc req
  | .error _, _ => do
    let _ ← ask (.matchesHash svc.decoyPHC req.password)
    .fail .serviceUnavailable

def verifyPassword : Program :=
  match req.identifier with
  | none => do
    decoy svc req
    .fail .invalidCredentials
  | some id => do
    match ← ask (.findUser req.tenant id) with
    | .ok u => readCredential svc req id (some u)
    | .error .notFound => readCredential svc req id none
    | .error _ => do
      let _ ← ask (.matchesHash svc.decoyPHC req.password)
      .fail .serviceUnavailable

end

/-- The clock has passed the zero Time. -/
structure World where
  store : Store
  clock : Time
  set : 0 < clock.truncate

def World.tick (w : World) (o : Outside) : World :=
  ⟨w.store, max w.clock o.now, w.set.trans_le (Time.truncate_mono (le_max_left _ _))⟩

def World.put (w : World) (s : Store) : World := { w with store := s }

/-- The reply of the store, or its failure before it did anything. -/
def faulty {A : Type} (o : Outside) (x : Except Identity.Err A) : Except Identity.Err A := if o.fault then .error .context else x

def exec (svc : Service) (o : Outside) (w : World) : (c : Call) → Reply c × World
  | .findUser t id => (faulty o (w.store.findUser t id), w.tick o)
  | .getPassword sub => (faulty o (w.store.getPassword sub), w.tick o)
  | .matchesHash phc password => (Login.matchesHash svc o phc password, w.tick o)
  | .now => ((w.tick o).clock, w.tick o)
  | .recordPasswordFailure sub p =>
    if o.fault then (.error .context, w.tick o)
    else
      let (s, answer) := w.store.recordPasswordFailure (w.tick o).clock sub p
      (answer, (w.tick o).put s)
  | .resetPasswordFailures sub =>
    if o.fault then (.error .context, w.tick o)
    else
      let (s, answer) := w.store.resetPasswordFailures sub
      (answer, (w.tick o).put s)

def locks (sub : Subject) : (c : Call) × Reply c → Option Time
  | ⟨.recordPasswordFailure sub' _, .ok l⟩ => if sub' = sub ∧ l.justLocked then some l.lockedUntil else none
  | _ => none

def resets (sub : Subject) : (c : Call) × Reply c → Bool
  | ⟨.resetPasswordFailures sub', .ok ()⟩ => sub' = sub
  | _ => false

def readsCredential : (c : Call) × Reply c → Bool
  | ⟨.getPassword _, _⟩ => true
  | _ => false

def comparesPassword : (c : Call) × Reply c → Bool
  | ⟨.matchesHash .., _⟩ => true
  | _ => false

section
variable {svc : Service} {req : Request} {sub : Subject} {events : List ((c : Call) × Reply c)}
  {cred : PasswordCredential}

theorem not_path_refuseDecoy : ¬ Prog.Path (refuseDecoy svc req) events (.ret sub) := by
  intro path
  obtain ⟨reply, later, rfl, rest⟩ := path.of_perform
  cases rest

theorem not_path_recordFailure {u : Subject} : ¬ Prog.Path (recordFailure u) events (.ret sub) := by
  intro path
  obtain ⟨reply, later, rfl, rest⟩ := path.of_perform
  cases rest

theorem path_acceptGuess {u : Subject} (path : Prog.Path (acceptGuess u cred) events (.ret sub)) :
    sub = u ∧ (events = [] ∨ events = [⟨.resetPasswordFailures u, .ok ()⟩]) := by
  unfold acceptGuess at path
  split at path
  · obtain ⟨reply, later, rfl, rest⟩ := path.of_perform
    cases reply with
    | error err => cases rest
    | ok done =>
      cases rest
      exact ⟨rfl, .inr rfl⟩
  · cases path
    exact ⟨rfl, .inl rfl⟩

theorem path_barred {id : Identifier} {u : User} (path : Prog.Path (barred id u cred) events (.ret false)) :
    ∃ now, events = [⟨.now, now⟩] ∧ cred.lockedUntil ≤ now := by
  unfold barred at path
  split at path
  · obtain ⟨now, later, rfl, rest⟩ := path.of_perform
    generalize tested : decide (cred.lockedUntil > now) = locked at rest
    cases rest
    exact ⟨now, rfl, by simpa using tested⟩
  · cases path

theorem path_judgeGuess {id : Identifier} {u : User}
    (path : Prog.Path (judgeGuess svc req id u cred) events (.ret sub)) :
    sub = u.subject ∧ ∃ now after,
      events = ⟨.matchesHash cred.phc req.password, some true⟩ :: ⟨.now, now⟩ :: after ∧
        cred.lockedUntil ≤ now ∧ (after = [] ∨ after = [⟨.resetPasswordFailures sub, .ok ()⟩]) := by
  obtain ⟨reply, later, rfl, rest⟩ := path.of_perform
  cases reply with
  | none => cases rest
  | some ok =>
    obtain ⟨refused, tested, after, rfl, test, final⟩ := rest.of_bind
    cases refused with
    | true => exact (not_path_refuseDecoy final).elim
    | false =>
      obtain ⟨now, rfl, unlocked⟩ := path_barred test
      cases ok with
      | true =>
        obtain ⟨rfl, last⟩ := path_acceptGuess final
        exact ⟨rfl, now, after, rfl, unlocked, last⟩
      | false => exact (not_path_recordFailure final).elim

theorem not_path_decoy : ¬ Prog.Path (decoy svc req >>= fun _ => refuseDecoy svc req) events (.ret sub) := by
  intro path
  obtain ⟨_, first, later, rfl, -, rest⟩ := path.of_bind
  exact not_path_refuseDecoy rest

theorem path_readCredential {id : Identifier} {known : Option User}
    (path : Prog.Path (readCredential svc req id known) events (.ret sub)) :
    ∃ cred now after, events = ⟨.getPassword sub, .ok cred⟩ ::
        ⟨.matchesHash cred.phc req.password, some true⟩ :: ⟨.now, now⟩ :: after ∧
      cred.lockedUntil ≤ now ∧ (after = [] ∨ after = [⟨.resetPasswordFailures sub, .ok ()⟩]) := by
  obtain ⟨reply, later, rfl, rest⟩ := path.of_perform
  split at rest
  · obtain ⟨rfl, now, after, rfl, unlocked, last⟩ := path_judgeGuess rest
    exact ⟨_, now, after, rfl, unlocked, last⟩
  · exact (not_path_decoy rest).elim
  · exact (not_path_decoy rest).elim
  · obtain ⟨compared, last, rfl, final⟩ := rest.of_perform
    cases final

/-- The calls of a guess that succeeds: the credential is read once, its lock has ended when the clock
is read, and the failures are reset last if there were any. -/
theorem path_verifyPassword (path : Prog.Path (verifyPassword svc req) events (.ret sub)) :
    ∃ find cred now after, events = find :: ⟨.getPassword sub, .ok cred⟩ ::
        ⟨.matchesHash cred.phc req.password, some true⟩ :: ⟨.now, now⟩ :: after ∧
      cred.lockedUntil ≤ now ∧ (after = [] ∨ after = [⟨.resetPasswordFailures sub, .ok ()⟩]) := by
  unfold verifyPassword at path
  split at path
  · obtain ⟨_, first, later, rfl, -, rest⟩ := path.of_bind
    cases rest
  · obtain ⟨reply, later, rfl, rest⟩ := path.of_perform
    split at rest
    · obtain ⟨cred, now, after, rfl, facts⟩ := path_readCredential rest
      exact ⟨_, cred, now, after, rfl, facts⟩
    · obtain ⟨cred, now, after, rfl, facts⟩ := path_readCredential rest
      exact ⟨_, cred, now, after, rfl, facts⟩
    · obtain ⟨compared, last, rfl, final⟩ := rest.of_perform
      cases final

end

inductive Moves (sub : Subject) (w : World) (event : (c : Call) × Reply c) (w' : World) : Prop where
  | kept (same : w'.store.lockedUntil sub = w.store.lockedUntil sub) (quiet : locks sub event = none)
  | ended (lapsed : w.store.lockedUntil sub ≤ w'.clock) (free : w'.store.lockedUntil sub = 0)
      (quiet : locks sub event = none)
  | locked (lapsed : w.store.lockedUntil sub ≤ w'.clock) (set : locks sub event = some (w'.store.lockedUntil sub))
  | reset (done : resets sub event = true) (free : w'.store.lockedUntil sub = 0) (quiet : locks sub event = none)

section
variable {svc : Service} {o : Outside} {w w' : World} {c : Call} {r : Reply c} {sub : Subject}

theorem moves_recordPasswordFailure {sub' : Subject} {p : LockoutPolicy} {r : Except Identity.Err Lockout}
    (replied : exec svc o w (.recordPasswordFailure sub' p) = (r, w')) :
    Moves sub w ⟨.recordPasswordFailure sub' p, r⟩ w' := by
  dsimp only [exec] at replied
  split at replied
  · cases replied
    exact .kept rfl rfl
  cases recorded : w.store.recordPasswordFailure (w.tick o).clock sub' p with | mk t answer =>
  rw [recorded] at replied
  cases replied
  by_cases own : sub' = sub
  · subst own
    rcases Store.recordPasswordFailure_lockedUntil (w.tick o).set recorded with ⟨same, quiet⟩ | ⟨lapsed, l, rfl, written⟩
    · refine .kept same ?_
      cases answer with
      | error err => rfl
      | ok l => simp [locks, quiet l rfl]
    · cases just : l.justLocked with
      | true =>
        rw [if_pos just] at written
        exact .locked lapsed (by simp [locks, just, World.put, written])
      | false =>
        rw [if_neg (by simp [just])] at written
        exact .ended lapsed written (by simp [locks, just])
  · have same := w.store.recordPasswordFailure_other (w.tick o).clock p (Ne.symm own)
    rw [recorded] at same
    refine .kept same ?_
    cases answer with
    | error err => rfl
    | ok l => simp [locks, own]

theorem moves_resetPasswordFailures {sub' : Subject} {r : Except Identity.Err Unit}
    (replied : exec svc o w (.resetPasswordFailures sub') = (r, w')) :
    Moves sub w ⟨.resetPasswordFailures sub', r⟩ w' := by
  dsimp only [exec] at replied
  split at replied
  · cases replied
    exact .kept rfl rfl
  cases done : w.store.resetPasswordFailures sub' with | mk t answer =>
  rw [done] at replied
  cases replied
  have written := Store.resetPasswordFailures_lockedUntil sub done
  split at written
  next own =>
    obtain ⟨rfl, rfl⟩ := own
    exact .reset (by simp [resets]) written rfl
  next => exact .kept written rfl

variable (sub) in
theorem moves_of_exec (replied : exec svc o w c = (r, w')) : Moves sub w ⟨c, r⟩ w' := by
  cases c with
  | recordPasswordFailure sub' p => exact moves_recordPasswordFailure replied
  | resetPasswordFailures sub' => exact moves_resetPasswordFailures replied
  | findUser | getPassword | matchesHash | now =>
    cases replied
    exact .kept rfl rfl

theorem clock_le_of_exec (replied : exec svc o w c = (r, w')) : w.clock ≤ w'.clock := by
  have ticked : w'.clock = (w.tick o).clock := by
    cases c with
    | recordPasswordFailure | resetPasswordFailures =>
      dsimp only [exec] at replied
      split at replied <;> cases replied <;> rfl
    | findUser | getPassword | matchesHash | now =>
      cases replied
      rfl
  rw [ticked]
  exact le_max_left _ _

end

section
variable {I : Type} {svc : Service} {w w' : World} {labels : List (I × (c : Call) × Reply c)}
  {sub : Subject}

theorem clock_le_of_run (run : Run (Prog.Replies (exec svc)) w labels w') : w.clock ≤ w'.clock := by
  induction run with
  | nil => exact le_rfl
  | snoc _ last ih =>
    obtain ⟨o, replied⟩ := last
    exact ih.trans (clock_le_of_exec replied)

theorem now_le_clock (run : Run (Prog.Replies (exec svc)) w labels w') {i : I} {now : Time}
    (member : (i, ⟨.now, now⟩) ∈ labels) : now ≤ w'.clock := by
  obtain ⟨before, after, rfl⟩ := List.append_of_mem member
  obtain ⟨x, x', -, ⟨o, replied⟩, rest⟩ := run.split rfl
  cases replied
  exact clock_le_of_run rest

theorem locked_or_over (run : Run (Prog.Replies (exec svc)) w labels w')
    (unreset : ∀ label ∈ labels, resets sub label.2 = false) :
    w'.store.lockedUntil sub = w.store.lockedUntil sub ∨ w.store.lockedUntil sub ≤ w'.clock := by
  induction run with
  | nil => exact .inl rfl
  | snoc first last ih =>
    obtain ⟨o, replied⟩ := last
    rcases ih fun label member => unreset label (by simp [member]) with same | lapsed
    · cases moves_of_exec sub replied with
      | kept still => exact .inl (still.trans same)
      | ended lapsed => exact .inr (same ▸ lapsed)
      | locked lapsed => exact .inr (same ▸ lapsed)
      | reset done =>
        rw [unreset _ (by simp)] at done
        cases done
    · exact .inr (lapsed.trans (clock_le_of_exec replied))

/-- While no lock is set, the one there was stays or goes. -/
theorem lockedUntil_of_quiet (run : Run (Prog.Replies (exec svc)) w labels w')
    (quiet : ∀ label ∈ labels, locks sub label.2 = none) :
    w'.store.lockedUntil sub = w.store.lockedUntil sub ∨ w'.store.lockedUntil sub = 0 := by
  induction run with
  | nil => exact .inl rfl
  | snoc first last ih =>
    obtain ⟨o, replied⟩ := last
    cases moves_of_exec sub replied with
    | kept still =>
      rw [still]
      exact ih fun label member => quiet label (by simp [member])
    | ended _ free => exact .inr free
    | locked _ set =>
      rw [quiet _ (by simp)] at set
      cases set
    | reset _ free => exact .inr free

theorem lockedUntil_of_locks {label : I × (c : Call) × Reply c} {until' : Time}
    (replied : Prog.Replies (exec svc) w label w') (locked : locks sub label.2 = some until') :
    w'.store.lockedUntil sub = until' := by
  obtain ⟨o, replied⟩ := replied
  cases moves_of_exec sub replied with
  | locked _ set => exact Option.some.inj (set.symm.trans locked)
  | kept _ quiet | ended _ _ quiet | reset _ _ quiet =>
    rw [show locks sub label.2 = none from quiet] at locked
    cases locked

theorem lockedUntil_of_read {i : I} {cred : PasswordCredential}
    (replied : Prog.Replies (exec svc) w (i, ⟨.getPassword sub, .ok cred⟩) w') :
    cred.lockedUntil = w.store.lockedUntil sub ∧ w'.store = w.store := by
  obtain ⟨o, replied⟩ := replied
  simp only [exec, faulty, Prod.mk.injEq] at replied
  obtain ⟨read, rfl⟩ := replied
  split at read
  · cases read
  · exact ⟨Store.getPassword_lockedUntil read, rfl⟩

end

section
variable {I : Type} [DecidableEq I] {svc : Service} {reqs : I → Request} {w₀ : World}
  {labels : List (I × (c : Call) × Reply c)} {y z : World × (I → Program)} {i : I} {last : (c : Call) × Reply c}
  {sub : Subject}

/-- A guess that has just succeeded: where it read the credential and compared the password, and that the
lock it read was over. -/
theorem read_of_success (run : Run (Prog.Interleave (exec svc)) (w₀, fun i => verifyPassword svc (reqs i)) labels y)
    (returns : Prog.Interleave (exec svc) y (i, last) z) (success : z.2 i = .ret sub) :
    ∃ before between after cred compare, comparesPassword compare = true ∧ cred.lockedUntil ≤ z.1.clock ∧
      labels = before ++ (i, ⟨.getPassword sub, .ok cred⟩) :: (between ++ (i, compare) :: after) := by
  have whole := run.snoc returns
  have path := Prog.path_of_run whole i
  rw [success] at path
  obtain ⟨find, cred, now, after, events, unlocked, final⟩ := path_verifyPassword path
  have listed : (i, ⟨.now, now⟩) ∈ labels ++ [(i, last)] := by
    obtain ⟨earlier, later, position, -⟩ := Prog.own_eq_append_cons [find, _, _] events
    rw [position]
    simp
  have lapsed := unlocked.trans (now_le_clock (Prog.replies_of_run whole) listed)
  -- The last event of the guess comes after its comparison.
  rw [Prog.own_append, Prog.own_cons_self] at events
  obtain ⟨rest, earlier⟩ : ∃ rest, Prog.own i labels = find :: ⟨.getPassword sub, .ok cred⟩ ::
      ⟨.matchesHash cred.phc (reqs i).password, some true⟩ :: rest := by
    rcases final with rfl | rfl
    · have events : _ = [_, _, _] ++ [_] := events
      exact ⟨[], (List.append_inj' events rfl).1⟩
    · have events : _ = [_, _, _, _] ++ [_] := events
      exact ⟨[⟨.now, now⟩], (List.append_inj' events rfl).1⟩
  obtain ⟨before, later, position, -, tail⟩ := Prog.own_eq_append_cons [find] earlier
  obtain ⟨between, after', rfl, -, -⟩ := Prog.own_eq_append_cons [] tail
  exact ⟨before, between, after', cred, _, rfl, lapsed, position⟩

/-- While no lock is set on the account between the read of the credential and the return of a guess, the
guess does not succeed under a lock that was set before and not reset before its comparison; and the reset
of a success clears no lock that is in force. -/
theorem unlocked_of_success
    (run : Run (Prog.Interleave (exec svc)) (w₀, fun i => verifyPassword svc (reqs i)) labels y)
    (returns : Prog.Interleave (exec svc) y (i, last) z) (success : z.2 i = .ret sub)
    (quiet : ∀ before read after, labels = before ++ (i, read) :: after → readsCredential read = true →
      ∀ label ∈ after, locks sub label.2 = none) :
    (∀ before locking after until', labels = before ++ locking :: after → locks sub locking.2 = some until' →
      (∀ early compare late, after = early ++ (i, compare) :: late → comparesPassword compare = true →
        ∀ label ∈ early, resets sub label.2 = false) →
      until' ≤ z.1.clock) ∧
    y.1.store.lockedUntil sub ≤ z.1.clock := by
  obtain ⟨before, between, after, cred, compare, compares, lapsed, rfl⟩ := read_of_success run returns success
  have quietly := quiet before _ _ rfl rfl
  have replies := Prog.replies_of_run run
  obtain ⟨x, x', reached, read, rest⟩ := replies.split rfl
  obtain ⟨lock, same⟩ := lockedUntil_of_read read
  have final : y.1.clock ≤ z.1.clock := clock_le_of_run (.single returns.replies)
  constructor
  · intro earlier locking later until' position locked unreset
    -- The lock was set before the credential was read, or after it, which is excluded.
    rcases positions_cases position with ⟨gap, -, tail⟩ | ⟨-, rfl, -⟩ | ⟨gap, rfl, rfl⟩
    · rw [quietly locking (by simp [tail])] at locked
      cases locked
    · cases locked
    · have unreset := unreset (gap ++ (i, ⟨.getPassword sub, .ok cred⟩) :: between) compare after (by simp) compares
      obtain ⟨v, v', -, set, held⟩ := reached.split rfl
      have start := lockedUntil_of_locks set locked
      rcases locked_or_over held fun label member => unreset label (by simp [member]) with still | ended
      · rw [← start, ← still, ← lock]
        exact lapsed
      · rw [← start]
        exact (ended.trans ((clock_le_of_run (.single read)).trans (clock_le_of_run rest))).trans final
  · have positive : 0 ≤ z.1.clock := z.1.set.le.trans (Time.truncate_le _)
    rcases lockedUntil_of_quiet rest quietly with still | free
    · rw [still, same, ← lock]
      exact lapsed
    · rw [free]
      exact positive

end

namespace Sample

def guess (n : Fin 6) : Request :=
  if n = 5 then Login.Sample.request else { Login.Sample.request with password := ascii "bad" }

def start : World × (Fin 6 → Program) :=
  (⟨Login.Sample.store, 1000000000, by decide⟩, fun n => verifyPassword Login.Sample.service (guess n))

def turns (n : Fin 6) (count : Nat) : List (Fin 6 × Outside) := List.replicate count (n, Login.Sample.outside)

def after (order : List (Fin 6 × Outside)) :
    List (Fin 6 × (c : Call) × Reply c) × World × (Fin 6 → Program) :=
  Prog.schedule (exec Login.Sample.service) start order

theorem run_after (order : List (Fin 6 × Outside)) :
    Run (Prog.Interleave (exec Login.Sample.service)) start (after order).1 (after order).2 :=
  Prog.run_schedule _ start order

def final (order : List (Fin 6 × Outside)) :
    Option ((Fin 6 × (c : Call) × Reply c) × World × (Fin 6 → Program)) :=
  Prog.turn (exec Login.Sample.service) (after order).2 5 Login.Sample.outside

def inTurn : List (Fin 6 × Outside) := turns 0 5 ++ turns 5 4

/-- After one failure the other five read the credential, and then each goes on in turn. -/
def sideBySide : List (Fin 6 × Outside) :=
  turns 0 5 ++ turns 1 2 ++ turns 2 2 ++ turns 3 2 ++ turns 4 2 ++ turns 5 2 ++
    turns 1 3 ++ turns 2 3 ++ turns 3 3 ++ turns 4 3 ++ turns 5 2

end Sample

open Login.Guess.Sample Login.Sample

theorem unlocked_of_success_in_turn : ∃ labels y last z,
    Run (Prog.Interleave (exec service)) start labels y ∧
      Prog.Interleave (exec service) y (5, last) z ∧ z.2 5 = .ret subject ∧
      y.1.store.lockedUntil subject ≤ z.1.clock := by
  have ends : (final inTurn).any (fun t => decide (t.1.1 = 5 ∧
      (t.2.2 5).returned = some subject)) = true := by decide +kernel
  have quiet : ∀ label ∈ (Sample.after inTurn).1, locks subject label.2 = none := by
    decide +kernel
  obtain ⟨⟨⟨i, last⟩, z⟩, taken, facts⟩ := (Option.any_eq_true _ _).mp ends
  obtain ⟨rfl, success⟩ := of_decide_eq_true facts
  have returns := Prog.interleave_of_turn taken
  refine ⟨_, _, last, z, run_after inTurn, returns, Prog.eq_ret_of_returned success, ?_⟩
  refine (unlocked_of_success (run_after inTurn) returns (Prog.eq_ret_of_returned success) ?_).2
  intro before read after position _ label member
  exact quiet label (by simp [position, member])

/-- A guess succeeds while the account is locked, and clears the lock: five guesses read the credential
after the first failure, four of them set the lock, and the fifth has the right password. -/
theorem success_of_locked : ∃ labels y last z,
    Run (Prog.Interleave (exec service)) start labels y ∧
      Prog.Interleave (exec service) y (5, last) z ∧ z.2 5 = .ret subject ∧
      (∃ (m n : Nat) (read : (c : Call) × Reply c) (locking : Fin 6 × (c : Call) × Reply c) (until' : Time),
        m < n ∧ labels[m]? = some (5, read) ∧ readsCredential read = true ∧
        labels[n]? = some locking ∧ locks subject locking.2 = some until' ∧ z.1.clock < until') ∧
      (∀ label ∈ labels, resets subject label.2 = false) ∧
      z.1.clock < y.1.store.lockedUntil subject ∧ resets subject last = true ∧
      z.1.store.lockedUntil subject = 0 := by
  have ends : (final sideBySide).any (fun t => decide (t.1.1 = 5 ∧
      (t.2.2 5).returned = some subject ∧ t.2.1.clock = 1000000000 ∧
      resets subject t.1.2 = true ∧ t.2.1.store.lockedUntil subject = 0)) = true := by
    decide +kernel
  have reads : ((after sideBySide).1[14]?).any (fun label => decide (label.1 = 5 ∧
      readsCredential label.2 = true)) = true := by decide +kernel
  have locked : ((after sideBySide).1[26]?).any (fun label =>
      decide (locks subject label.2 = some 901000000000)) = true := by decide +kernel
  obtain ⟨⟨⟨i, last⟩, z⟩, taken, facts⟩ := (Option.any_eq_true _ _).mp ends
  obtain ⟨rfl, success, clock, reset, cleared⟩ := of_decide_eq_true facts
  obtain ⟨⟨j, read⟩, first, facts⟩ := (Option.any_eq_true _ _).mp reads
  obtain ⟨rfl, reading⟩ := of_decide_eq_true facts
  obtain ⟨locking, second, until'⟩ := (Option.any_eq_true _ _).mp locked
  refine ⟨_, _, last, z, run_after sideBySide, Prog.interleave_of_turn taken,
    Prog.eq_ret_of_returned success, ?_, by decide +kernel, ?_, reset, cleared⟩
  · refine ⟨14, 26, read, locking, 901000000000, by decide, first, reading, second, of_decide_eq_true until', ?_⟩
    rw [clock]
    decide
  · rw [clock]
    decide +kernel

inductive Work where
  | find
  | read
  | derive
  | charge
  | reset

/-- What a call costs; a reading of the clock costs nothing. -/
def Call.work : Call → List Work
  | .findUser .. => [.find]
  | .getPassword _ => [.read]
  | .matchesHash .. => [.derive]
  | .now => []
  | .recordPasswordFailure .. => [.charge]
  | .resetPasswordFailures _ => [.reset]

def worked (events : List ((c : Call) × Reply c)) : List Work := events.flatMap fun event => event.1.work

def refusalWork : List Work := [.find, .read, .derive, .charge]

/-- After the work so far and whatever it is replied, the program is refused with all of the work done, or it is
unavailable. -/
def Alike : List Work → Program → Prop
  | _, .ret _ => True
  | done, .fail why => why = .serviceUnavailable ∨ why = .invalidCredentials ∧ done = refusalWork
  | done, .call c next => ∀ r, Alike (done ++ c.work) (next r)

theorem Alike.path {done : List Work} {p : Program} {events : List ((c : Call) × Reply c)} {why : Problem}
    (alike : Alike done p) (path : Prog.Path p events (.fail why)) :
    why = .serviceUnavailable ∨ why = .invalidCredentials ∧ done ++ worked events = refusalWork := by
  induction events generalizing done p with
  | nil =>
    cases path
    simpa [worked, Alike] using alike
  | cons event events ih =>
    cases path with
    | cons rest => simpa [worked] using ih (alike _) rest

section
variable {svc : Service} {req : Request} {id : Identifier}

theorem alike_recordFailure (sub : Subject) : Alike [.find, .read, .derive] (recordFailure sub) :=
  fun _ => .inr ⟨rfl, rfl⟩

theorem alike_judgeGuess (u : User) (cred : PasswordCredential) :
    Alike [.find, .read] (judgeGuess svc req id u cred) := by
  have judged (ok shut : Bool) : Alike [.find, .read, .derive] (if shut then refuseDecoy svc req
      else if ok then acceptGuess u.subject cred else recordFailure u.subject) := by
    cases shut with
    | true => exact alike_recordFailure (decoySub svc req)
    | false =>
      cases ok with
      | false => exact alike_recordFailure u.subject
      | true =>
        -- The right password is refused only where its reset fails.
        simp only [Bool.false_eq_true, ↓reduceIte, acceptGuess]
        split
        · rintro (err | ⟨⟩)
          · exact .inl rfl
          · trivial
        · trivial
  rintro (_ | ok)
  · exact .inl rfl
  · simp only [barred]
    split
    · exact fun now => judged ok _
    · exact judged ok true

theorem alike_readCredential (known : Option User) : Alike [.find] (readCredential svc req id known) := by
  have decoyed : Alike [.find, .read] (do
      decoy svc req
      refuseDecoy svc req) := by
    rintro (_ | _)
    · exact .inl rfl
    · exact alike_recordFailure (decoySub svc req)
  rw [readCredential, Prog.perform_bind]
  intro read
  dsimp only
  split
  · exact alike_judgeGuess _ _
  · exact decoyed
  · exact decoyed
  · exact fun _ => .inl rfl

theorem alike_verifyPassword (known : req.identifier = some id) : Alike [] (verifyPassword svc req) := by
  rw [verifyPassword, known]
  dsimp only
  rw [Prog.perform_bind]
  intro found
  dsimp only
  split
  · exact alike_readCredential _
  · exact alike_readCredential _
  · exact fun _ => .inl rfl

end

/-- A refused guess does not tell why: whether the account is unknown, has no password, may not log in or is locked,
or the password is wrong, it has made the same calls of the store and the hasher in the same order and is answered
the same. -/
theorem refusals_alike {I : Type} [DecidableEq I] (svc : Service) (reqs : I → Request) {w : World}
    {labels : List (I × (c : Call) × Reply c)} {y : World × (I → Program)}
    (run : Run (Prog.Interleave (exec svc)) (w, fun i => verifyPassword svc (reqs i)) labels y) {i : I}
    {id : Identifier} (known : (reqs i).identifier = some id) {why : Problem} (refused : y.2 i = .fail why) :
    why = .serviceUnavailable ∨ why = .invalidCredentials ∧ worked (Prog.own i labels) = refusalWork :=
  (alike_verifyPassword known).path (refused ▸ Prog.path_of_run run i)

theorem refusals_alike_wrong : worked (Prog.own 0 (after (turns 0 5)).1) = refusalWork := by
  have refused : (after (turns 0 5)).2.2 0 = .fail .invalidCredentials := rfl
  exact ((refusals_alike _ guess (run_after _) rfl refused).resolve_left nofun).2

end Egauth.Login.Guess
