import Egauth.Identity.Epochs

/-! The lockout window of a password that is guessed in sequence.

The counter is reset by the end of a lock or by a window without a failure, and
keeps counting while the account is locked. Store instants are whole
microseconds, so a lock lasts for the window rounded down to microseconds.
-/

set_option autoImplicit false

namespace Egauth.Identity
open Egauth.Core

def LockoutPolicy.lock (p : LockoutPolicy) : Duration := Time.truncate p.window

/-- What one call of `RecordPasswordFailure` found and answered; `now` is the instant of the store. -/
structure Attempt where
  now : Time
  found : Time
  answer : Lockout
  deriving DecidableEq

def Attempt.unlocked (x : Attempt) : Bool := decide (x.found = 0 ∨ ¬ x.found > x.now)

def Attempt.within (start : Time) (length : Duration) (x : Attempt) : Bool :=
  x.unlocked && decide (start ≤ x.now) && decide (x.now < start + length)

def Store.attempts (sub : Subject) (p : LockoutPolicy) : Store → List Time → List Attempt
  | _, [] => []
  | s, clk :: clks =>
    match s.getPassword sub, s.recordPasswordFailure clk sub p with
    | .ok cred, (s', .ok answer) => ⟨clk.truncate, cred.lockedUntil, answer⟩ :: s'.attempts sub p clks
    | _, (s', _) => s'.attempts sub p clks

namespace Password

def locks (pw : Password) (now : Time) (p : LockoutPolicy) : Bool :=
  decide ((pw.decay now p.window).lockedUntil = 0 ∧ (pw.decay now p.window).failed + 1 ≥ p.threshold)

def charge (pw : Password) (now : Time) (p : LockoutPolicy) : Password :=
  { pw.decay now p.window with
    failed := (pw.decay now p.window).failed + 1
    lastFailure := now
    lockedUntil :=
      if pw.locks now p then (now + p.window).truncate else (pw.decay now p.window).lockedUntil }

def attempts (p : LockoutPolicy) : Password → List Time → List Attempt
  | _, [] => []
  | pw, clk :: clks =>
    let next := pw.charge clk.truncate p
    ⟨clk.truncate, pw.lockedUntil, next.failed, next.lockedUntil, pw.locks clk.truncate p⟩ :: next.attempts p clks

def Locked (pw : Password) (now : Time) : Prop := pw.lockedUntil ≠ 0 ∧ pw.lockedUntil > now

variable {pw : Password} {now : Time} {p : LockoutPolicy} {window : Duration}

/-- The failure counts from the one before unless a lock or a window has ended. -/
theorem decay_failed_nonneg (counted : 0 ≤ pw.failed) (now : Time) (window : Duration) : 0 ≤ (pw.decay now window).failed := by
  unfold decay
  split
  · exact le_rfl
  · split
    · exact le_rfl
    · exact counted

theorem decay_held (locked : pw.Locked now) : pw.decay now window = pw := by
  unfold decay
  rw [if_neg (by simp [locked.2]), if_neg (by simp [locked.1])]

theorem decay_lockedUntil (unlocked : ¬ pw.Locked now) : (pw.decay now window).lockedUntil = 0 := by
  unfold decay
  split
  · rfl
  next kept =>
    have zero : pw.lockedUntil = 0 := by
      by_contra nonzero
      exact kept ⟨nonzero, fun later => unlocked ⟨nonzero, later⟩⟩
    split <;> exact zero

theorem decay_recent (free : pw.lockedUntil = 0) (recent : pw.lastFailure + window > now) :
    pw.decay now window = pw := by
  unfold decay
  rw [if_neg (by simp [free]), if_neg (by simp [recent])]

theorem locks_held (locked : pw.Locked now) : pw.locks now p = false := by
  simp [locks, decay_held locked, locked.1]

theorem charge_held (locked : pw.Locked now) : (pw.charge now p).lockedUntil = pw.lockedUntil := by
  simp [charge, locks_held locked, decay_held locked]

/-- A failure that does not lock an unlocked account leaves the count below the threshold. -/
theorem charge_quiet (unlocked : ¬ pw.Locked now) (quiet : pw.locks now p = false) :
    (pw.charge now p).lockedUntil = 0 ∧ (pw.charge now p).failed < p.threshold := by
  have free : (pw.decay now p.window).lockedUntil = 0 := decay_lockedUntil unlocked
  have below : (pw.decay now p.window).failed + 1 < p.threshold := by
    simpa [locks, free] using quiet
  exact ⟨by simp [charge, quiet, free], below⟩

theorem charge_locks (just : pw.locks now p = true) :
    (pw.charge now p).lockedUntil = (now + p.window).truncate := by
  simp [charge, just]

theorem unlocked_of_locks (just : pw.locks now p = true) : ¬ pw.Locked now := by
  intro locked
  rw [locks_held locked] at just
  cases just

theorem charge_failed_nonneg (counted : 0 ≤ pw.failed) : 0 ≤ (pw.charge now p).failed := by
  have kept := decay_failed_nonneg counted now p.window
  show 0 ≤ (pw.decay now p.window).failed + 1
  linarith

section
variable {clks : List Time} {start low : Time}

/-- The readings are those of a clock that does not go back, past `low`; no lock of theirs ends at the zero Time. -/
structure Readings (p : LockoutPolicy) (low : Time) (clks : List Time) : Prop where
  ordered : clks.Pairwise (· ≤ ·)
  after : ∀ clk ∈ clks, low ≤ clk.truncate
  set : ∀ clk ∈ clks, clk.truncate + p.lock ≠ 0

theorem unlocked_iff {found : Time} {answer : Lockout} (same : found = pw.lockedUntil) :
    (⟨now, found, answer⟩ : Attempt).unlocked = true ↔ ¬ pw.Locked now := by
  rw [Attempt.unlocked, decide_eq_true_eq, same, Locked, not_and_or, not_not]

theorem Readings.tail {clk : Time} (readings : Readings p low (clk :: clks)) : Readings p clk.truncate clks where
  ordered := readings.ordered.of_cons
  after _ member := Time.truncate_mono (List.rel_of_pairwise_cons readings.ordered member)
  set later member := readings.set later (List.mem_cons_of_mem _ member)

theorem mem_attempts_now {x : Attempt} (member : x ∈ pw.attempts p clks) : ∃ clk ∈ clks, x.now = clk.truncate := by
  induction clks generalizing pw with
  | nil => cases member
  | cons clk clks ih =>
    rcases List.mem_cons.mp member with rfl | later
    · exact ⟨clk, List.mem_cons_self, rfl⟩
    · obtain ⟨clk', listed, same⟩ := ih later
      exact ⟨clk', List.mem_cons_of_mem _ listed, same⟩

theorem countP_past {length : Duration} (readings : Readings p (start + length) clks) :
    (pw.attempts p clks).countP (Attempt.within start length) = 0 := by
  rw [List.countP_eq_zero]
  intro x member
  obtain ⟨clk, listed, same⟩ := mem_attempts_now member
  have past := readings.after clk listed
  simp [Attempt.within, same, past]

/-- A lock that outlasts the interval leaves no unlocked call in it. -/
theorem countP_locked {length : Duration} (readings : Readings p low clks)
    (nonzero : pw.lockedUntil ≠ 0) (locked : start + length ≤ pw.lockedUntil) :
    (pw.attempts p clks).countP (Attempt.within start length) = 0 := by
  induction clks generalizing pw low with
  | nil => rfl
  | cons clk clks ih =>
    by_cases past : start + length ≤ clk.truncate
    · refine countP_past ⟨readings.ordered, ?_, readings.set⟩
      intro later member
      rcases List.mem_cons.mp member with rfl | member
      · exact past
      · exact past.trans (readings.tail.after later member)
    · have held : pw.lockedUntil > clk.truncate := by linarith
      have still : (pw.charge clk.truncate p).lockedUntil = pw.lockedUntil := charge_held ⟨nonzero, held⟩
      have rest := ih readings.tail (by rwa [still]) (by rwa [still])
      simp [attempts, rest, Attempt.within, Attempt.unlocked, held, nonzero]

theorem Readings.past {clk : Time} {clks : List Time} (readings : Readings p low (clk :: clks)) :
    Readings p clk.truncate (clk :: clks) where
  ordered := readings.ordered
  after later member := by
    rcases List.mem_cons.mp member with rfl | member
    · exact le_rfl
    · exact readings.tail.after later member
  set := readings.set

theorem Readings.mono {low low' : Time} (readings : Readings p low clks) (le : low' ≤ low) : Readings p low' clks :=
  ⟨readings.ordered, fun clk member => le.trans (readings.after clk member), readings.set⟩

theorem lockedUntil_of_locks {clk : Time} (just : pw.locks clk.truncate p = true) :
    (pw.charge clk.truncate p).lockedUntil = clk.truncate + p.lock := by
  rw [charge_locks just, Time.truncate_add (Time.microsecond_dvd_truncate clk), LockoutPolicy.lock]

theorem countP_after_lock {clk : Time} (readings : Readings p low (clk :: clks))
    (just : pw.locks clk.truncate p = true) (inside : start ≤ clk.truncate) :
    ((pw.charge clk.truncate p).attempts p clks).countP (Attempt.within start p.lock) = 0 := by
  have until' := lockedUntil_of_locks just
  have set := readings.set clk List.mem_cons_self
  exact countP_locked readings.tail (by rwa [until']) (by rw [until']; linarith)

/-- Once a failure of the interval counts, each further one in it counts on. -/
theorem countP_series (readings : Readings p pw.lastFailure clks) (free : pw.lockedUntil = 0)
    (inside : start ≤ pw.lastFailure) (below : pw.failed < p.threshold) :
    ((pw.attempts p clks).countP (Attempt.within start p.lock) : Int) ≤ p.threshold - pw.failed := by
  induction clks generalizing pw with
  | nil =>
    show (0 : Int) ≤ _
    linarith
  | cons clk clks ih =>
    have after := readings.after clk List.mem_cons_self
    have cut : p.lock ≤ p.window := Time.truncate_le p.window
    by_cases past : start + p.lock ≤ clk.truncate
    · rw [countP_past (readings.past.mono past)]
      push_cast
      linarith
    · have recent : pw.lastFailure + p.window > clk.truncate := by linarith
      have failed : (pw.charge clk.truncate p).failed = pw.failed + 1 := by
        show (pw.decay clk.truncate p.window).failed + 1 = _
        rw [decay_recent free recent]
      have first : ((pw.attempts p (clk :: clks)).countP (Attempt.within start p.lock) : Int) ≤
          ((pw.charge clk.truncate p).attempts p clks).countP (Attempt.within start p.lock) + 1 := by
        rw [attempts, List.countP_cons]
        push_cast
        split <;> linarith
      cases just : pw.locks clk.truncate p with
      | true =>
        rw [countP_after_lock readings just (inside.trans after)] at first
        push_cast at first
        linarith
      | false =>
        have unlocked : ¬ pw.Locked clk.truncate := fun locked => locked.1 free
        obtain ⟨open', below'⟩ := charge_quiet unlocked just
        have onward : Readings p (pw.charge clk.truncate p).lastFailure clks := readings.tail
        have rest := ih onward open' (inside.trans after) below'
        rw [failed] at rest
        linarith

/-- At most the threshold of calls meets the account unlocked in an interval of the length of the lock. -/
theorem countP_window (readings : Readings p low clks) (counted : 0 ≤ pw.failed) (positive : 0 < p.threshold) :
    ((pw.attempts p clks).countP (Attempt.within start p.lock) : Int) ≤ p.threshold := by
  induction clks generalizing pw low with
  | nil =>
    show (0 : Int) ≤ _
    linarith
  | cons clk clks ih =>
    have counted' : 0 ≤ (pw.charge clk.truncate p).failed := charge_failed_nonneg counted
    rw [attempts, List.countP_cons]
    split
    next inside =>
      simp only [Attempt.within, Bool.and_eq_true, decide_eq_true_eq] at inside
      obtain ⟨⟨unlocked, from'⟩, -⟩ := inside
      rw [unlocked_iff rfl] at unlocked
      -- The first unlocked call of the interval either locks or opens the series.
      cases just : pw.locks clk.truncate p with
      | true =>
        rw [countP_after_lock readings just from']
        push_cast
        linarith
      | false =>
        obtain ⟨free, below⟩ := charge_quiet unlocked just
        have onward : Readings p (pw.charge clk.truncate p).lastFailure clks := readings.tail
        have rest := countP_series onward free from' below
        have least := decay_failed_nonneg counted clk.truncate p.window
        have failed : (pw.charge clk.truncate p).failed = (pw.decay clk.truncate p.window).failed + 1 := rfl
        push_cast
        linarith
    next => simpa using ih readings.tail counted'

theorem locks_after (readings : Readings p low clks) (locked : pw.lockedUntil ≠ 0) {x : Attempt}
    (member : x ∈ pw.attempts p clks) (just : x.answer.justLocked = true) : pw.lockedUntil ≤ x.now := by
  induction clks generalizing pw low with
  | nil => cases member
  | cons clk clks ih =>
    by_cases held : pw.lockedUntil > clk.truncate
    · rcases List.mem_cons.mp member with rfl | later
      · exact absurd just (by simp [locks_held ⟨locked, held⟩])
      · have still := charge_held (p := p) ⟨locked, held⟩
        rw [← still]
        exact ih readings.tail (by rwa [still]) later
    · obtain ⟨clk', listed, same⟩ := mem_attempts_now member
      rw [same]
      exact (not_lt.mp held).trans (readings.past.after clk' listed)

theorem locks_apart (readings : Readings p low clks) :
    ((pw.attempts p clks).filter fun x => x.answer.justLocked).Pairwise fun x y => x.now + p.lock ≤ y.now := by
  induction clks generalizing pw low with
  | nil => exact .nil
  | cons clk clks ih =>
    have set := readings.set clk List.mem_cons_self
    rw [attempts, List.filter_cons]
    split
    next just =>
      have until' := lockedUntil_of_locks just
      refine .cons (fun y later => ?_) (ih readings.tail)
      obtain ⟨member, again⟩ := List.mem_filter.mp later
      have apart := locks_after readings.tail (by rwa [until']) member again
      rwa [until'] at apart
    next => exact ih readings.tail

theorem answers (readings : Readings p low clks) {x : Attempt}
    (member : x ∈ pw.attempts p clks) :
    (x.answer.justLocked = true ↔ x.unlocked = true ∧ x.answer.lockedUntil ≠ 0) ∧
      (x.unlocked = false → x.answer.lockedUntil = x.found) := by
  induction clks generalizing pw low with
  | nil => cases member
  | cons clk clks ih =>
    rcases List.mem_cons.mp member with rfl | later
    · have set := readings.set clk List.mem_cons_self
      refine ⟨?_, fun closed => ?_⟩
      · rw [unlocked_iff rfl]
        constructor
        · intro just
          refine ⟨unlocked_of_locks just, ?_⟩
          rwa [lockedUntil_of_locks just]
        · rintro ⟨unlocked, nonzero⟩
          by_contra quiet
          exact nonzero (charge_quiet unlocked (Bool.not_eq_true _ ▸ quiet)).1
      · have held : pw.Locked clk.truncate := by
          by_contra unlocked
          rw [(unlocked_iff rfl).mpr unlocked] at closed
          cases closed
        exact charge_held held
    · exact ih readings.tail later

theorem length_attempts : (pw.attempts p clks).length = clks.length := by
  induction clks generalizing pw with
  | nil => rfl
  | cons clk clks ih => simp [attempts, ih]

end

end Password

/-- What a sequence of failures keeps to: the number of guesses in an interval, and one lock at a time. -/
structure Windowed (p : LockoutPolicy) (window : Duration) (trace : List Attempt) : Prop where
  bounded : ∀ start, (trace.countP (Attempt.within start window) : Int) ≤ p.threshold
  just : ∀ x ∈ trace, x.answer.justLocked = true ↔ x.unlocked = true ∧ x.answer.lockedUntil ≠ 0
  apart : (trace.filter fun x => x.answer.justLocked).Pairwise fun x y => x.now + window ≤ y.now
  held : ∀ x ∈ trace, x.unlocked = false → x.answer.lockedUntil = x.found

namespace Store
variable {s : Store} {sub : Subject} {pw : Password} {p : LockoutPolicy} {a : Account}

theorem recordPasswordFailure_eq
    (found : s.accounts.lookup sub = some a) (stored : a.password = some pw) (valid : checkPolicy p = .ok ())
    (clk : Time) : s.recordPasswordFailure clk sub p =
      ({ s with accounts := s.accounts.insert sub { a with password := some (pw.charge clk.truncate p) } },
        .ok ⟨(pw.charge clk.truncate p).failed, (pw.charge clk.truncate p).lockedUntil, pw.locks clk.truncate p⟩) := by
  have charged : (if pw.locks clk.truncate p then
      ({ pw.decay clk.truncate p.window with
        failed := (pw.decay clk.truncate p.window).failed + 1
        lastFailure := clk.truncate
        lockedUntil := (clk.truncate + p.window).truncate } : Password)
      else
        { pw.decay clk.truncate p.window with
          failed := (pw.decay clk.truncate p.window).failed + 1, lastFailure := clk.truncate }) =
      pw.charge clk.truncate p := by
    unfold Password.charge
    split <;> rfl
  simp only [recordPasswordFailure, valid, existing, found, stored]
  rw [← charged]
  rfl

theorem getPassword_eq (found : s.accounts.lookup sub = some a) (stored : a.password = some pw) :
    s.getPassword sub = .ok ⟨sub, pw.phc, pw.changedAt, pw.failed, pw.lockedUntil⟩ := by
  simp only [getPassword, existing, found, stored]

def lockedUntil (s : Store) (sub : Subject) : Time :=
  (((s.accounts.lookup sub).bind Account.password).map Password.lockedUntil).getD 0

theorem lockedUntil_eq (found : s.accounts.lookup sub = some a)
    (stored : a.password = some pw) : s.lockedUntil sub = pw.lockedUntil := by
  simp [lockedUntil, found, stored]

theorem lockedUntil_insert (s : Store) (sub sub' : Subject) (a : Account) (pw : Password) :
    ({ s with accounts := s.accounts.insert sub' { a with password := some pw } } : Store).lockedUntil sub =
      if sub = sub' then pw.lockedUntil else s.lockedUntil sub := by
  unfold lockedUntil
  rw [Map.lookup_insert_eq]
  split <;> rfl

theorem getPassword_lockedUntil {cred : PasswordCredential} (read : s.getPassword sub = .ok cred) :
    cred.lockedUntil = s.lockedUntil sub := by
  unfold getPassword at read
  split at read
  · cases read
  next a found =>
    split at read
    · cases read
    next pw stored =>
      cases read
      exact (lockedUntil_eq (existing_ok found) stored).symm

/-- What a failure does to a lock: it keeps one in force, and ends or renews one that is over. -/
theorem recordPasswordFailure_lockedUntil {clk : Time} (set : 0 < clk.truncate)
    {t : Store} {answer : Except Err Lockout} (recorded : s.recordPasswordFailure clk sub p = (t, answer)) :
    t.lockedUntil sub = s.lockedUntil sub ∧ (∀ l, answer = .ok l → l.justLocked = false) ∨
      s.lockedUntil sub ≤ clk ∧ ∃ l, answer = .ok l ∧
        t.lockedUntil sub = if l.justLocked then l.lockedUntil else 0 := by
  cases valid : checkPolicy p with
  | error err =>
    simp only [recordPasswordFailure, valid] at recorded
    cases recorded
    exact .inl ⟨rfl, nofun⟩
  | ok _ =>
    cases found : s.accounts.lookup sub with
    | none =>
      simp only [recordPasswordFailure, valid, existing, found] at recorded
      cases recorded
      exact .inl ⟨rfl, nofun⟩
    | some a =>
      cases stored : a.password with
      | none =>
        simp only [recordPasswordFailure, valid, existing, found, stored] at recorded
        cases recorded
        exact .inl ⟨rfl, nofun⟩
      | some pw =>
        rw [recordPasswordFailure_eq found stored valid] at recorded
        cases recorded
        rw [lockedUntil_insert, if_pos rfl, lockedUntil_eq found stored]
        by_cases locked : pw.lockedUntil > clk.truncate
        · have held : pw.Locked clk.truncate := ⟨(set.trans locked).ne', locked⟩
          refine .inl ⟨Password.charge_held held, ?_⟩
          rintro l ⟨⟩
          exact Password.locks_held held
        · refine .inr ⟨(not_lt.mp locked).trans (Time.truncate_le clk), _, rfl, ?_⟩
          cases just : pw.locks clk.truncate p with
          | true => rfl
          | false => exact (Password.charge_quiet (fun held => locked held.2) just).1

theorem recordPasswordFailure_other (s : Store) (clk : Time) {sub' : Subject} (p : LockoutPolicy)
    (other : sub ≠ sub') :
    (s.recordPasswordFailure clk sub' p).1.lockedUntil sub = s.lockedUntil sub := by
  rcases s.recordPasswordFailure_cases clk sub' p with same | ⟨a, a', found, -, -, written⟩
  · rw [same]
  · rw [written]
    simp only [lockedUntil, AList.lookup_insert_ne other]

theorem resetPasswordFailures_lockedUntil (sub : Subject) {sub' : Subject} {t : Store} {answer : Except Err Unit}
    (reset : s.resetPasswordFailures sub' = (t, answer)) :
    t.lockedUntil sub = if answer = .ok () ∧ sub = sub' then 0 else s.lockedUntil sub := by
  unfold resetPasswordFailures at reset
  split at reset
  · cases reset
    rw [if_neg (by simp)]
  next a found =>
    split at reset
    · cases reset
      rw [if_neg (by simp)]
    next pw stored =>
      cases reset
      rw [lockedUntil_insert]
      simp

theorem attempts_eq
    (found : s.accounts.lookup sub = some a) (stored : a.password = some pw) (valid : checkPolicy p = .ok ())
    (clks : List Time) : s.attempts sub p clks = pw.attempts p clks := by
  induction clks generalizing s a pw with
  | nil => rfl
  | cons clk clks ih =>
    simp only [attempts, Password.attempts, getPassword_eq found stored, recordPasswordFailure_eq found stored valid]
    rw [ih (AList.lookup_insert _) rfl]

end Store

def Account.Counted (a : Account) : Prop := ∀ pw, a.password = some pw → 0 ≤ pw.failed

theorem Account.Counted.rewritten {a : Account} (counted : a.Counted) (now : Time) (m : Mutation) :
    (Identity.rewritten now m a).Counted := by
  cases m with
  | setPassword =>
    rintro pw ⟨⟩
    exact le_rfl
  | markEmailVerified sub phc =>
    intro pw stored
    dsimp only [Identity.rewritten] at stored
    split at stored
    · cases stored
    · cases stored
      exact le_rfl
  | setDisabledState sub disable =>
    dsimp only [Identity.rewritten]
    split
    · exact counted
    · split <;> exact counted
  | setMustChange sub mustChange =>
    intro pw stored
    obtain ⟨pw', old, rfl⟩ := Option.map_eq_some_iff.mp stored
    exact counted pw' old
  | _ => exact counted

namespace Store

def Counted (s : Store) : Prop := ∀ k a, s.accounts.lookup k = some a → a.Counted

variable {s : Store}

theorem Counted.insert (counted : s.Counted) (sub : Subject) {a : Account} (own : a.Counted) :
    ∀ k a', (s.accounts.insert sub a).lookup k = some a' → a'.Counted := by
  intro k a' found
  rw [Map.lookup_insert_eq] at found
  split at found
  · cases found
    exact own
  · exact counted k a' found

theorem Counted.mutate (counted : s.Counted) {tx tx' : Txn} {newID : Option UUID} {m : Mutation} {old : Identifier}
    (untaken : tx.evicted = none) (ok : tx.mutate s newID m = .ok (tx', old)) : tx'.acc.Counted := by
  unfold Txn.mutate at ok
  split at ok
  · obtain ⟨tx₁, created, ok⟩ := bind_eq_ok.mp ok
    cases ok
    obtain ⟨-, password, -⟩ := Txn.create_ok untaken created
    intro pw stored
    rw [password] at stored
    split at stored
    · cases stored
    · cases stored
      exact le_rfl
  · obtain ⟨tx₁, loaded, ok⟩ := bind_eq_ok.mp ok
    obtain ⟨_, a, found, -, rfl⟩ := Txn.load_ok loaded
    obtain ⟨tx₂, stepped, ok⟩ := bind_eq_ok.mp ok
    obtain ⟨_, rfl⟩ := Txn.step_ok stepped
    obtain ⟨-, ⟨-, -, rfl⟩ | ⟨_, _, _, _, _, -, -, rfl⟩⟩ := Txn.amend_ok ok untaken rfl
    · exact (counted _ a found).rewritten tx.now m
    · exact counted _ a found

theorem Counted.apply (counted : s.Counted) (clk : Time) (ctx : Nat) (newID : Option UUID) (m : Mutation) :
    (s.apply clk ctx newID m).1.Counted := by
  unfold Store.apply
  split
  · exact counted
  next tx applied ok =>
    obtain ⟨valid, _, tx₁, old, tx₂, mutated, affected, _, rfl⟩ := transact_ok ok
    obtain ⟨_, _, writes, -, -⟩ := Txn.mutate_ok valid rfl mutated
    have own := counted.mutate rfl mutated
    obtain ⟨ends, _, _, _, written⟩ := Txn.effects_ok affected
    have evicted : tx₂.evicted = tx₁.evicted := by
      rw [written]
      exact (tx₁.rows_bumped (effectsOf m)).2.2.1
    intro k a found
    rw [lookup_commit, Option.or_eq_some_iff, Option.filter_eq_some_iff] at found
    rcases found with ⟨taken, -⟩ | ⟨-, found⟩
    · obtain ⟨k', owner, stored, -, -, -, same, -⟩ := writes.evicts a (evicted.symm.trans taken)
      intro pw held
      exact counted k' owner stored pw (same ▸ held)
    · split at found
      · cases found
        -- The bump and the outbox rows leave the password.
        rw [ends.acc, Txn.acc_bumped]
        exact own
      · exact counted k a found

theorem Counted.recordPasswordFailure (counted : s.Counted) (clk : Time) (sub : Subject) (p : LockoutPolicy) :
    (s.recordPasswordFailure clk sub p).1.Counted := by
  cases valid : checkPolicy p with
  | error err =>
    simp only [Store.recordPasswordFailure, valid]
    exact counted
  | ok _ =>
    cases found : s.accounts.lookup sub with
    | none =>
      simp only [Store.recordPasswordFailure, valid, existing, found]
      exact counted
    | some a =>
      cases stored : a.password with
      | none =>
        simp only [Store.recordPasswordFailure, valid, existing, found, stored]
        exact counted
      | some pw =>
        rw [recordPasswordFailure_eq found stored valid]
        refine counted.insert sub ?_
        rintro pw' ⟨⟩
        exact Password.charge_failed_nonneg (counted sub a found pw stored)

theorem Counted.resetPasswordFailures (counted : s.Counted) (sub : Subject) :
    (s.resetPasswordFailures sub).1.Counted := by
  unfold Store.resetPasswordFailures
  split
  · exact counted
  · split
    · exact counted
    · refine counted.insert sub ?_
      rintro pw' ⟨⟩
      exact le_rfl

theorem Counted.perform (counted : s.Counted) (call : Call) : (s.perform call).Counted := by
  by_cases lasting : call.op.Lasting
  · obtain ⟨clk, op⟩ := call
    cases op with
    | apply ctx newID m => exact counted.apply clk ctx newID m
    | recordPasswordFailure sub p => exact counted.recordPasswordFailure clk sub p
    | resetPasswordFailures sub => exact counted.resetPasswordFailures sub
    | ackOutbox id =>
      simp only [Store.perform, ackOutbox]
      split
      · exact counted
      · split <;> exact counted
    | failOutbox id next =>
      simp only [Store.perform, failOutbox]
      split
      · exact counted
      · split <;> exact counted
    | eraseUser | eraseTenant | reapExpired => cases lasting
  · intro k a found
    exact counted k a ((s.perform_erases lasting).1 k a found)

def Performs (s : Store) (call : Call) (t : Store) : Prop := t = s.perform call

theorem counted_of_run {calls : List Call} (run : Run Performs Store.new calls s) : s.Counted := by
  have start : Store.new.Counted := by simp [Counted, Store.new]
  refine run.invariant Counted ?_ start
  rintro s call _ counted rfl
  exact counted.perform call

end Store

/-- In an interval of the length of a lock, which is the window up to a microsecond, at most the
threshold of calls meets the account unlocked; a call reports the lock that it sets and no other. -/
theorem windowed_attempts {calls : List Call} {s : Store} (run : Run Store.Performs Store.new calls s)
    {sub : Subject} {a : Account} {pw : Password} (found : s.accounts.lookup sub = some a)
    (stored : a.password = some pw) {p : LockoutPolicy} (valid : Store.checkPolicy p = .ok ()) {clks : List Time}
    (ordered : clks.Pairwise (· ≤ ·)) (set : ∀ clk ∈ clks, clk.truncate + p.lock ≠ 0) :
    (s.attempts sub p clks).length = clks.length ∧ Windowed p p.lock (s.attempts sub p clks) := by
  have past : ∃ low, Password.Readings p low clks := by
    cases clks with
    | nil => exact ⟨0, ordered, by simp, set⟩
    | cons clk clks =>
      refine ⟨clk.truncate, ordered, fun later member => Time.truncate_mono ?_, set⟩
      rcases List.mem_cons.mp member with rfl | member
      · exact le_rfl
      · exact List.rel_of_pairwise_cons ordered member
  obtain ⟨low, readings⟩ := past
  have positive : 0 < p.threshold ∧ 0 < p.window := by
    unfold Store.checkPolicy at valid
    rw [ite_error_eq_ok] at valid
    simpa [not_or] using valid.1
  have counted := Store.counted_of_run run sub a found pw stored
  rw [Store.attempts_eq found stored valid]
  refine ⟨Password.length_attempts, ?_, ?_, ?_, ?_⟩
  · exact fun start => Password.countP_window readings counted positive.1
  · exact fun x member => (Password.answers readings member).1
  · exact Password.locks_apart readings
  · exact fun x member => (Password.answers readings member).2

namespace Lockout

def email : Identifier := .sample

def creation (clk : Time) : Call :=
  ⟨clk, .apply 20 (some Subject.sample.user) (.createVerified .zero email ⟨ascii "phc"⟩ false .zero)⟩

def store (clk : Time) : Store := Store.new.perform (creation clk)

theorem store_run (clk : Time) : Run Store.Performs Store.new [creation clk] (store clk) := .single rfl

def account (clk : Time) : Account where
  user := { subject := .sample, email := email, emailVerifiedAt := clk, createdAt := clk }
  password := some { phc := ⟨ascii "phc"⟩, changedAt := clk }

end Lockout

theorem windowed_attempts_two : Windowed ⟨2, 15 * Duration.minute⟩ (15 * Duration.minute)
    ((Lockout.store 1000000).attempts .sample ⟨2, 15 * Duration.minute⟩ [2000000, 2000000, 3000000]) :=
  (windowed_attempts (Lockout.store_run 1000000) (a := Lockout.account 1000000) (by decide +kernel) rfl (by decide)
    (by decide) (by decide)).2

/-- A window of one and a half microseconds admits a guess each microsecond. One microsecond before the zero Time, a
lock of one microsecond is none. -/
theorem not_windowed_attempts :
    (∃ calls s sub p clks, Run Store.Performs Store.new calls s ∧ (∃ cred, s.getPassword sub = .ok cred) ∧
      Store.checkPolicy p = .ok () ∧ clks.Pairwise (· ≤ ·) ∧ (∀ clk ∈ clks, clk.truncate + p.lock ≠ 0) ∧
      ¬ Windowed p p.window (s.attempts sub p clks)) ∧
    ∃ calls s sub p clks, Run Store.Performs Store.new calls s ∧ (∃ cred, s.getPassword sub = .ok cred) ∧
      Store.checkPolicy p = .ok () ∧ clks.Pairwise (· ≤ ·) ∧ ¬ Windowed p p.lock (s.attempts sub p clks) := by
  constructor
  · refine ⟨_, Lockout.store 1000000, .sample, ⟨1, 1500⟩, [2000000, 2001000], Lockout.store_run _, ?_, by decide, by decide,
      by decide, ?_⟩
    · exact ⟨_, Store.getPassword_eq (a := Lockout.account 1000000) (by decide +kernel) rfl⟩
    · intro windowed
      have bounded := windowed.bounded 2000000
      revert bounded
      decide +kernel
  · refine ⟨_, Lockout.store (-1000), .sample, ⟨1, 1000⟩, [-1000, -1000], Lockout.store_run _, ?_, by decide, by decide, ?_⟩
    · exact ⟨_, Store.getPassword_eq (a := Lockout.account (-1000)) (by decide +kernel) rfl⟩
    · intro windowed
      have bounded := windowed.bounded (-1000)
      revert bounded
      decide +kernel

end Egauth.Identity
