import Egauth.Mfa.Row

/-! Guesses of a second factor are bounded.

A counter has a budget for the window that begins at an instant: the attempts
that are left of an open counter, none once it was locked within the window,
and a whole round where it was locked before. A reservation that is granted
takes one from the budget. A verification that succeeds clears the counters,
and so does the reset that a consumed recovery code is followed by.
-/

set_option autoImplicit false

namespace Egauth.Mfa
open Egauth.Core Prog

/-- What is left of the counter for reservations in the window from `t` on. -/
def budget (t : Time) (c : Counter) : Int :=
  if c.failed < maxAttempts then maxAttempts - c.failed else if t.truncate ≤ c.last then 0 else maxAttempts

variable {c : Counter}

theorem budget_le (nonneg : 0 ≤ c.failed) (t : Time) : budget t c ≤ maxAttempts := by
  unfold budget maxAttempts
  split_ifs <;> omega

theorem budget_nonneg (t : Time) (c : Counter) : 0 ≤ budget t c := by
  unfold budget maxAttempts
  split_ifs <;> omega

/-- An open counter counts on, one whose lock has ended starts again, and a locked one refuses. -/
theorem bump_cases (cfg : Config) (c : Counter) (now : Time) :
    (c.failed < maxAttempts ∧ bump c (lockout cfg now) = (⟨c.failed + 1, now.truncate⟩, c.failed + 1)) ∨
    (maxAttempts ≤ c.failed ∧ now.truncate.sub c.last > lockoutDuration ∧
      bump c (lockout cfg now) = (⟨1, now.truncate⟩, 1)) ∨
    (maxAttempts ≤ c.failed ∧ bump c (lockout cfg now) = (c, maxAttempts + 1)) := by
  have rule : bump c (lockout cfg now) =
      if c.failed < maxAttempts then (⟨c.failed + 1, now.truncate⟩, c.failed + 1)
      else if lockoutDuration > 0 ∧ c.last ≠ 0 ∧ now.truncate.sub c.last > lockoutDuration then (⟨1, now.truncate⟩, 1)
      else (c, maxAttempts + 1) := rfl
  rw [rule]
  by_cases open' : c.failed < maxAttempts
  · exact .inl ⟨open', if_pos open'⟩
  rw [if_neg open']
  by_cases expired : lockoutDuration > 0 ∧ c.last ≠ 0 ∧ now.truncate.sub c.last > lockoutDuration
  · exact .inr (.inl ⟨not_lt.mp open', expired.2.2, if_pos expired⟩)
  · exact .inr (.inr ⟨not_lt.mp open', if_neg expired⟩)

variable {now : Time}

/-- A counter that was locked in the window stays so until the window ends. -/
theorem locked_in_window {t last : Time} (late : now ≤ t + lockoutDuration) (within : t.truncate ≤ last) :
    ¬ now.truncate.sub last > lockoutDuration := by
  have whole : Duration.microsecond ∣ lockoutDuration := by decide
  have cut : now.truncate ≤ t.truncate + lockoutDuration := by
    have ends := Time.truncate_mono late
    rwa [add_comm t, Time.truncate_add whole, add_comm] at ends
  refine not_lt.mpr ((Time.sub_le_iff (by decide) (by decide)).mpr ?_)
  lia

theorem budget_bump {cfg : Config} {t : Time} (early : t ≤ now) (late : now ≤ t + lockoutDuration) :
    budget t (bump c (lockout cfg now)).1 + (if (bump c (lockout cfg now)).2 ≤ maxAttempts then 1 else 0) ≤
      budget t c := by
  have within : t.truncate ≤ now.truncate := Time.truncate_mono early
  rcases bump_cases cfg c now with ⟨open', same⟩ | ⟨full, expired, same⟩ | ⟨full, same⟩
  · rw [same]
    simp only [budget, maxAttempts, within, if_true] at open' ⊢
    split_ifs <;> omega
  · have before : ¬ t.truncate ≤ c.last := fun locked => locked_in_window late locked expired
    rw [same]
    simp only [budget, maxAttempts, before, if_false] at full ⊢
    split_ifs <;> omega
  · rw [same]
    simp

theorem bump_nonneg {cfg : Config} (nonneg : 0 ≤ c.failed) :
    0 ≤ (bump c (lockout cfg now)).1.failed := by
  rcases bump_cases cfg c now with ⟨-, same⟩ | ⟨-, -, same⟩ | ⟨-, same⟩
  · rw [same]
    exact Int.add_nonneg nonneg (by decide)
  · rw [same]
    exact (by decide : (0 : Int) ≤ 1)
  · rw [same]
    exact nonneg

theorem bump_refused {cfg : Config} (refused : ¬ (bump c (lockout cfg now)).2 ≤ maxAttempts) :
    (bump c (lockout cfg now)).1 = c ∧ maxAttempts ≤ c.failed := by
  rcases bump_cases cfg c now with ⟨open', same⟩ | ⟨-, -, same⟩ | ⟨full, same⟩
  · rw [same] at refused
    exact absurd (Int.add_one_le_of_lt open') refused
  · rw [same] at refused
    exact absurd (by decide : (1 : Int) ≤ maxAttempts) refused
  · rw [same]
    exact ⟨rfl, full⟩

def counter (cfg : Config) (s : Store) : Counted → Option Counter
  | .totp => (s.totp.lookup cfg.subject).map fun e => ⟨e.failedAttempts, e.lastAttemptAt⟩
  | .recovery => some ((s.recovery.lookup cfg.subject).getD ⟨0, 0⟩)

def succeeds : Event → Bool
  | ⟨.markTOTPUsed .., .ok true⟩ | ⟨.consumeRecoveryCode _, .ok _⟩ => true
  | _ => false

def changes : Event → Bool
  | ⟨.saveTOTP _, .ok _⟩ | ⟨.confirmEnrollment .., .ok _⟩ | ⟨.deleteTOTP, .ok _⟩ | ⟨.deleteForSubject, .ok _⟩
  | ⟨.eraseTenant, .ok _⟩ | ⟨.deleteRecoveryCodes, .ok _⟩ | ⟨.replaceRecoveryCodes _, .ok _⟩ => true
  | _ => false

def resets : Counted → Event → Bool
  | .recovery, ⟨.resetRecoveryAttempts, .ok _⟩ => true
  | _, _ => false

def reading (f : Counted) : Event → Option Time
  | ⟨.reserve f', (now, _)⟩ => if f' = f then some now else none
  | _ => none

inductive Counts (cfg : Config) (f : Counted) (k : Option Counter) (event : Event) : Option Counter → Prop where
  | kept : grants f event = false → Counts cfg f k event k
  | charged {c : Counter} {now : Time} : k = some c →
      event = ⟨.reserve f, (now, .ok (bump c (lockout cfg now)).2)⟩ →
      Counts cfg f k event (some (bump c (lockout cfg now)).1)
  | cleared {k' : Option Counter} : (succeeds event || changes event || resets f event) = true → grants f event = false →
      (∀ c, k' = some c → 0 ≤ c.failed ∨ ∃ before, k = some before ∧ before.failed = c.failed) →
      Counts cfg f k event k'

section
variable {cfg : Config} {f : Counted} {g : Note} {s : Store} {e : Enrollment}

theorem failed_of_checkEnrollment (valid : checkEnrollment e = none) : 0 ≤ e.failedAttempts := by
  unfold checkEnrollment at valid
  split_ifs at valid with _ _ bad
  exact not_lt.mp fun negative => bad (.inr negative)

variable {event : Event}

theorem changes_of_removes (removed : removes event = true) :
    changes event = true ∧ grants .totp event = false := by
  unfold removes at removed
  split at removed
  · exact ⟨rfl, rfl⟩
  · exact ⟨rfl, rfl⟩
  · exact ⟨rfl, rfl⟩
  · cases removed

theorem Change.counts {row row' : Option Enrollment} (change : Change cfg cfg.subject event row row')
    (named : event.1.names cfg cfg.subject) :
    Counts cfg .totp (row.map fun e => ⟨e.failedAttempts, e.lastAttemptAt⟩) event
      (row'.map fun e => ⟨e.failedAttempts, e.lastAttemptAt⟩) := by
  cases change with
  | same quiet => exact .kept (quiet named).2
  | tried before told =>
    subst before
    exact .charged rfl told
  | cleared _ told | used _ _ told =>
    subst told
    refine .cleared rfl rfl ?_
    rintro _ ⟨⟩
    exact .inl (le_refl 0)
  | resealed before told =>
    subst before told
    exact .kept rfl
  | saved told _ valid =>
    subst told
    refine .cleared rfl rfl ?_
    rintro _ ⟨⟩
    exact .inl (failed_of_checkEnrollment valid)
  | @confirmed e _ _ s told own valid _ held =>
    subst told
    refine .cleared rfl rfl ?_
    rintro _ ⟨⟩
    -- The attempts are those of the enrollment that is confirmed, where there is one.
    unfold Store.carryOver
    rw [own, held]
    cases row with
    | none => exact .inl (failed_of_checkEnrollment valid)
    | some cur => exact .inr ⟨_, rfl, rfl⟩
  | removed gone =>
    obtain ⟨changed, silent⟩ := changes_of_removes gone
    exact .cleared (by simp [changed]) silent nofun

theorem counts_recovery {s' : Store} (silent : grants .recovery event = false)
    (cleared : s'.recovery = s.recovery ∨
      (succeeds event || changes event || resets .recovery event) = true ∧ s'.recovery.lookup cfg.subject = none) :
    Counts cfg .recovery (counter cfg s .recovery) event (counter cfg s' .recovery) := by
  unfold counter
  rcases cleared with same | ⟨clears, gone⟩
  · rw [same]
    exact .kept silent
  · rw [gone]
    refine .cleared clears silent ?_
    rintro _ ⟨⟩
    exact .inl (le_refl 0)

theorem counts_incrementRecoveryAttempts (now : Time) :
    Counts cfg .recovery (counter cfg s .recovery)
      ⟨.reserve .recovery, (now, (s.incrementRecoveryAttempts (lockout cfg now)).2)⟩
      (counter cfg (s.incrementRecoveryAttempts (lockout cfg now)).1 .recovery) := by
  unfold Store.incrementRecoveryAttempts
  split
  · exact .kept rfl
  generalize held : (s.recovery.lookup (lockout cfg now).subject).getD ⟨0, 0⟩ = c
  have before : counter cfg s .recovery = some c := congrArg some held
  have after : counter cfg { s with
      recovery := s.recovery.insert cfg.subject (bump c (lockout cfg now)).1 } .recovery =
      some (bump c (lockout cfg now)).1 := by
    simp [counter]
  exact after ▸ .charged before rfl

theorem recovery_incrementTOTPAttempts (l : Lockout) : (s.incrementTOTPAttempts l).1.recovery = s.recovery := by
  unfold Store.incrementTOTPAttempts
  split
  · rfl
  split <;> rfl

theorem recovery_replaceSealed (sub : Subject) (old fresh : Bytes) :
    (s.replaceSealed sub old fresh).1.recovery = s.recovery := by
  unfold Store.replaceSealed
  split
  · rfl
  split
  · rfl
  split <;> rfl

theorem recovery_markTOTPUsed (sub : Subject) (step : Int) : (s.markTOTPUsed sub step).1.recovery = s.recovery := by
  unfold Store.markTOTPUsed
  split
  · rfl
  split <;> rfl

theorem recovery_saveTOTP (clk : Time) : (s.saveTOTP clk e).1.recovery = s.recovery := by
  unfold Store.saveTOTP
  split <;> rfl

theorem counts_recovery_exec (o : Turn) {c : Call} (named : c.names cfg cfg.subject) :
    Counts cfg .recovery (counter cfg s .recovery) ⟨c, (exec cfg o s c).1⟩ (counter cfg (exec cfg o s c).2 .recovery) := by
  obtain ⟨now, fault, bytes, hashes, active⟩ := o
  cases fault with
  | true => cases c <;> exact .kept rfl
  | false =>
    cases c with
    | reserve f =>
      cases f with
      | recovery => exact counts_incrementRecoveryAttempts now
      | totp => exact counts_recovery (grants_other (by decide) _) (.inl (recovery_incrementTOTPAttempts _))
    | replaceSealed old fresh => exact counts_recovery rfl (.inl (recovery_replaceSealed _ old fresh))
    | markTOTPUsed secret step => exact counts_recovery rfl (.inl (recovery_markTOTPUsed _ step))
    | saveTOTP e => exact counts_recovery rfl (.inl (recovery_saveTOTP now))
    | consumeRecoveryCode hash =>
      change Counts cfg .recovery _ ⟨.consumeRecoveryCode hash, (s.consumeRecoveryCode cfg.subject hash).2⟩
        (counter cfg (s.consumeRecoveryCode cfg.subject hash).1 .recovery)
      unfold Store.consumeRecoveryCode
      dsimp only
      split
      · exact counts_recovery rfl (.inr ⟨rfl, AList.lookup_erase _ _⟩)
      · exact .kept rfl
    | confirmEnrollment e hashes =>
      have own : e.subject = cfg.subject := named
      change Counts cfg .recovery _ ⟨.confirmEnrollment e hashes, (s.confirmEnrollment now e hashes).2⟩
        (counter cfg (s.confirmEnrollment now e hashes).1 .recovery)
      rcases s.confirmEnrollment_cases now e hashes with ⟨err, same⟩ | ⟨-, -, same⟩
      · rw [same]
        exact .kept rfl
      · rw [same, own]
        exact counts_recovery rfl (.inr ⟨rfl, AList.lookup_erase _ _⟩)
    | replaceRecoveryCodes hashes =>
      change Counts cfg .recovery _ ⟨.replaceRecoveryCodes hashes, (s.replaceRecoveryCodes cfg.subject hashes).2⟩
        (counter cfg (s.replaceRecoveryCodes cfg.subject hashes).1 .recovery)
      unfold Store.replaceRecoveryCodes
      split
      · exact .kept rfl
      split
      · exact .kept rfl
      · exact counts_recovery rfl (.inr ⟨rfl, AList.lookup_erase _ _⟩)
    | resetRecoveryAttempts | deleteRecoveryCodes | deleteForSubject =>
      exact counts_recovery rfl (.inr ⟨rfl, AList.lookup_erase _ _⟩)
    | eraseTenant =>
      refine counts_recovery rfl (.inr ⟨rfl, ?_⟩)
      simp [exec, performed, Store.eraseTenant, Map.lookup_eraseWhere]
    | _ => exact .kept rfl

/-- The store refines the machine on counters. -/
theorem counts_exec (o : Turn) {c : Call} (allowed : (order cfg).allows g c) :
    Counts cfg f (counter cfg s f) ⟨c, (exec cfg o s c).1⟩ (counter cfg (exec cfg o s c).2 f) := by
  cases f with
  | totp => exact (change_exec cfg o s cfg.subject c).counts (names_of_allows allowed)
  | recovery => exact counts_recovery_exec o (names_of_allows allowed)

theorem Counts.nonneg {k k' : Option Counter} (counts : Counts cfg f k event k')
    (nonneg : ∀ c, k = some c → 0 ≤ c.failed) : ∀ c, k' = some c → 0 ≤ c.failed := by
  intro c after
  cases counts with
  | kept => exact nonneg c after
  | charged same =>
    cases after
    exact bump_nonneg (nonneg _ same)
  | cleared _ _ fresh =>
    rcases fresh c after with here | ⟨before, same, equal⟩
    · exact here
    · rw [← equal]
      exact nonneg before same

theorem Counts.budget {k k' : Option Counter} {t : Time} (counts : Counts cfg f k event k')
    (calm : (succeeds event || changes event || resets f event) = false)
    (window : ∀ now ∈ reading f event, t ≤ now ∧ now ≤ t + lockoutDuration) :
    k'.elim 0 (budget t) + (if grants f event then 1 else 0) ≤ k.elim 0 (budget t) := by
  cases counts with
  | kept silent => simp [silent]
  | charged same replied =>
    subst same replied
    obtain ⟨early, late⟩ := window _ (if_pos rfl)
    simpa [grants] using budget_bump early late
  | cleared disturbed => cases calm.symm.trans disturbed

def Counting (cfg : Config) (s : Store) : Prop := ∀ f c, counter cfg s f = some c → 0 ≤ c.failed

section
variable {I A : Type} [DecidableEq I] {x y : Store × (I → Program A)} {labels : List (I × Event)}

theorem counting_of_run (run : Run (Interleave (exec cfg)) x labels y)
    (made : ∀ label ∈ labels, ∃ g, (order cfg).allows g label.2.1) (counting : Counting cfg x.1) : Counting cfg y.1 := by
  induction run with
  | nil => exact counting
  | snoc _ last ih =>
    rename_i middle after _ label _
    obtain ⟨o, -, -, replied, -⟩ := last
    obtain ⟨g, allowed⟩ := made label (by simp)
    have before := ih fun label member => made label (List.mem_append_left _ member)
    intro f
    have counts := counts_exec (f := f) (s := middle.1) o allowed
    rw [replied] at counts
    exact counts.nonneg (before f)

theorem budget_of_run {t : Time} (run : Run (Interleave (exec cfg)) x labels y)
    (made : ∀ label ∈ labels, ∃ g, (order cfg).allows g label.2.1)
    (calm : ∀ label ∈ labels, (succeeds label.2 || changes label.2 || resets f label.2) = false)
    (window : ∀ label ∈ labels, ∀ now ∈ reading f label.2, t ≤ now ∧ now ≤ t + lockoutDuration) :
    (counter cfg y.1 f).elim 0 (budget t) + (labels.countP fun label => grants f label.2 : Nat) ≤
      (counter cfg x.1 f).elim 0 (budget t) := by
  induction run with
  | nil => simp
  | snoc _ last ih =>
    rename_i middle after _ label _
    obtain ⟨o, -, -, replied, -⟩ := last
    obtain ⟨g, allowed⟩ := made label (by simp)
    have before := ih (fun label member => made label (List.mem_append_left _ member))
      (fun label member => calm label (List.mem_append_left _ member))
      fun label member => window label (List.mem_append_left _ member)
    have counts := counts_exec (f := f) (s := middle.1) o allowed
    rw [replied] at counts
    have step := counts.budget (t := t) (calm label (by simp)) (window label (by simp))
    rw [List.countP_append, List.countP_singleton]
    push_cast
    dsimp only at step
    linarith

end

/-- A request compares only what a reservation of its own was granted for. -/
theorem compares_le_grants {events : List Event} (permitted : Permitted (order cfg) g events) :
    events.countP (fun event => compares f event.1) + (if (follow (order cfg) g events).granted f then 1 else 0) ≤
      events.countP (grants f) + if g.granted f then 1 else 0 := by
  induction events generalizing g with
  | nil => exact le_refl _
  | cons event events ih =>
    have rest := ih permitted.2
    have step : (if compares f event.1 then 1 else 0) +
        (if ((order cfg).track g event.1 event.2).granted f then 1 else 0) ≤
          (if grants f event then 1 else 0) + if g.granted f then 1 else 0 := by
      obtain ⟨c, r⟩ := event
      cases c with
      | compare secret code =>
        have granted : g.granted .totp = true := permitted.1.1
        cases f <;> simp [compares, grants, order, granted]
      | consumeRecoveryCode hash =>
        have granted : g.granted .recovery = true := permitted.1
        cases f <;> simp [compares, grants, order, granted]
      | reserve f' =>
        obtain ⟨now, err | n⟩ := r
        · simp [compares, grants, order]
        · by_cases same : f = f'
          · subst same
            simp [compares, grants, order]
          · simp [compares, grants, order, Function.update_of_ne same, Ne.symm same]
      | getTOTP =>
        rcases r with err | e
        · cases err <;> exact le_refl _
        · exact le_refl _
      | markTOTPUsed secret step => rcases r with err | _ | _ <;> exact le_refl _
      | _ => exact le_refl _
    rw [List.countP_cons, List.countP_cons]
    change _ + (if (follow (order cfg) ((order cfg).track g event.1 event.2) events).granted f then 1 else 0) ≤ _
    omega

theorem granted_of_allows {c : Call} (allowed : (order cfg).allows g c) (compared : compares f c = true) :
    g.granted f = true := by
  cases c with
  | compare secret code =>
    cases of_decide_eq_true compared
    exact allowed.1
  | consumeRecoveryCode hash =>
    cases of_decide_eq_true compared
    exact allowed
  | _ => cases compared

theorem refused_reservation (o : Turn) {n : Int} (replied : (exec cfg o s (.reserve f)).1.2 = .ok n)
    (refused : ¬ n ≤ maxAttempts) : counter cfg (exec cfg o s (.reserve f)).2 f = counter cfg s f := by
  have counts : Counts cfg f (counter cfg s f) ⟨.reserve f, (exec cfg o s (.reserve f)).1⟩
      (counter cfg (exec cfg o s (.reserve f)).2 f) := counts_exec (g := .start none) o trivial
  generalize counter cfg (exec cfg o s (.reserve f)).2 f = after at counts
  generalize (exec cfg o s (.reserve f)).1 = reply at counts replied
  cases counts with
  | kept => rfl
  | charged same event =>
    cases event
    cases replied
    rw [same, (bump_refused refused).1]
  | cleared disturbed => cases f <;> cases disturbed

end

theorem resets_of_grants {f : Counted} {event : Event} (granted : grants f event = true) : resets f event = false := by
  unfold grants at granted
  split at granted
  · cases f <;> rfl
  · cases granted

/-- Where no reset comes after a granted reservation, the resets come first. -/
theorem exists_unreset {I : Type} {f : Counted} {labels : List (I × Event)}
    (unreset : labels.Pairwise fun earlier later => grants f earlier.2 = true → resets f later.2 = false) :
    ∃ earlier later, labels = earlier ++ later ∧ (∀ label ∈ earlier, grants f label.2 = false) ∧
      ∀ label ∈ later, resets f label.2 = false := by
  induction unreset with
  | nil => exact ⟨[], [], rfl, nofun, nofun⟩
  | @cons first labels after _ ih =>
    cases granted : grants f first.2 with
    | true =>
      refine ⟨[], first :: labels, rfl, nofun, fun label member => ?_⟩
      rcases List.mem_cons.mp member with here | later
      · rw [here]
        exact resets_of_grants granted
      · exact after label later granted
    | false =>
      obtain ⟨earlier, later, split, silent, kept⟩ := ih
      exact ⟨first :: earlier, later, by rw [split, List.cons_append], List.forall_mem_cons.mpr ⟨granted, silent⟩, kept⟩

/-- Per factor, a window of the length of the lockout in which no verification succeeds, no enrollment changes and no
counter is reset after a reservation sees no more granted reservations than there are attempts. Every comparison has a granted reservation
of its own before it, and a refused one leaves the counter and its timestamp. -/
theorem mfa_guesses_bounded {I : Type} [DecidableEq I] (cfg : Config) (start : Store) (named : Named cfg start)
    (counting : Counting cfg start) (requests : I → Request) {before between : List (I × Event)}
    {y : Store × (I → Program Unit)}
    (run : Run (Interleave (exec cfg)) (start, fun i => (requests i).program cfg) (before ++ between) y)
    (f : Counted) (t : Time)
    (calm : ∀ label ∈ between, succeeds label.2 = false ∧ changes label.2 = false)
    (window : ∀ label ∈ between, ∀ now ∈ reading f label.2, t ≤ now ∧ now ≤ t + lockoutDuration)
    (unreset : between.Pairwise fun earlier later => grants f earlier.2 = true → resets f later.2 = false) :
    ((between.countP fun label => grants f label.2 : Nat) : Int) ≤ maxAttempts ∧
      (∀ i earlier event later, own i (before ++ between) = earlier ++ event :: later → compares f event.1 = true →
        earlier.countP (fun event => compares f event.1) < earlier.countP (grants f)) ∧
      ∀ o s n, (exec cfg o s (.reserve f)).1.2 = .ok n → ¬ n ≤ maxAttempts →
        counter cfg (exec cfg o s (.reserve f)).2 f = counter cfg s f := by
  have yields (i : I) : Yields (order cfg) (.start (requests i).presents) ((requests i).program cfg) fun _ _ => True :=
    yields_program cfg (requests i)
  obtain ⟨-, learned⟩ := learned_of_requests named requests run
  have made := allowed_of_run run yields learned
  refine ⟨?_, fun i earlier event later position compared => ?_, fun o s n => refused_reservation o⟩
  · obtain ⟨earlier, later, split, silent, unreset'⟩ := exists_unreset unreset
    have none : (earlier.countP fun label => grants f label.2) = 0 := List.countP_eq_zero.mpr fun label member =>
      Bool.eq_false_iff.mp (silent label member)
    rw [split, ← List.append_assoc] at run made
    rw [split] at calm window
    rw [split, List.countP_append, none, Nat.zero_add]
    obtain ⟨a, first, second⟩ := run.split_append
    have sound := counting_of_run first (fun label member => made label (List.mem_append_left _ member)) counting f
    have spent := budget_of_run (f := f) (t := t) second
      (fun label member => made label (List.mem_append_right _ member))
      (fun label member => by simp [calm label (List.mem_append_right _ member), unreset' label member])
      fun label member => window label (List.mem_append_right _ member)
    have small : (counter cfg a.1 f).elim 0 (budget t) ≤ maxAttempts := by
      cases held : counter cfg a.1 f with
      | none => exact (by decide : (0 : Int) ≤ maxAttempts)
      | some c => exact budget_le (sound c held) t
    have rest : 0 ≤ (counter cfg y.1 f).elim 0 (budget t) := by
      cases counter cfg y.1 f with
      | none => exact le_refl 0
      | some c => exact budget_nonneg t c
    linarith
  · have permitted := (yields i).permitted (path_of_run run i) (learned i)
    rw [position] at permitted
    obtain ⟨first, allowed, -⟩ := permitted_append.mp permitted
    have few := compares_le_grants (f := f) first
    rw [granted_of_allows allowed compared] at few
    exact few

namespace Sample

def config : Config :=
  { subject := .sample, secret := some, stale := fun _ => false, decodeSecret := some, hotp := fun key _ => key
    normalizeRecoveryCode := id, hashRecoveryCode := id }

def day (n : Nat) : Time := n * (24 * Duration.hour)

def start : Store where
  totp := AList.insert .sample
    ⟨.sample, ascii "123456", aadVersionCurrent, some (day 30), 0, 0, 0, day 30⟩ ∅
  codes := AList.insert .sample (AList.insert (ascii "GOOD") false ∅) ∅
  recovery := ∅

theorem start_named : Named config start := by
  intro v found
  cases found
  rfl

theorem start_counting : Counting config start := by
  intro f c found
  cases f <;> cases found <;> decide

def turn (now : Time) : Turn := ⟨now, false, none, none, false⟩

def guessing (i : Nat) : Request := .verify .recovery (if i = 0 then ascii "GOOD" else ascii "BAD")

def reserving (requests : List Nat) (now : Time) : List (Nat × Turn) :=
  requests.flatMap fun i => [(i, turn now), (i, turn now)]

/-- The code is consumed before the window; the reset comes first in it. -/
def early : List (Nat × Turn) :=
  List.replicate 4 (0, turn (day 31)) ++ reserving [1, 2, 3, 4, 5, 6] (day 31)

/-- The code is consumed a second before the window; the reset follows in it, and the request returns after it. -/
def late : List (Nat × Turn) :=
  [(0, turn (day 31)), (0, turn (day 31)), (0, turn (day 31))] ++
    (reserving [1, 2, 3, 4, 5] (day 31 + Duration.second) ++ [(0, turn (day 31 + Duration.second))] ++
      reserving [6, 7, 8, 9, 10] (day 31 + 2 * Duration.second))

def after : List (Nat × Event) × Store × (Nat → Program Unit) :=
  schedule (exec config) (start, fun i => (guessing i).program config) late

end Sample

open Sample

/-- Six guesses at once, after the reset of an earlier verification: five reservations are granted. -/
theorem mfa_guesses_bounded_in_time : ∃ before between y,
    Run (Interleave (exec config)) (start, fun i => (guessing i).program config) (before ++ between) y ∧
      (∃ label ∈ between, resets .recovery label.2 = true) ∧
      (between.countP fun label => grants .recovery label.2) = 5 ∧
      (between.filter fun label => (reading .recovery label.2).isSome).length = 6 ∧
      ((between.countP fun label => grants .recovery label.2 : Nat) : Int) ≤ maxAttempts := by
  have run := run_schedule (exec config) (start, fun i => (guessing i).program config) early
  rw [← List.take_append_drop 3 (schedule _ _ _).1] at run
  refine ⟨_, _, _, run, by decide +kernel, by decide +kernel, by decide +kernel, ?_⟩
  exact (mfa_guesses_bounded config start start_named start_counting guessing
    run .recovery (day 31) (by decide +kernel) (by decide +kernel) (by decide +kernel)).1

/-- A recovery code is consumed before the window and its request returns after it; the reset that comes between
opens a second round. -/
theorem late_reset_opens_round : ∃ before between y label z,
    Run (Interleave (exec config)) (start, fun i => (guessing i).program config)
      (before ++ between) y ∧ Interleave (exec config) y label z ∧ z.2 0 = .ret () ∧
      (∃ label ∈ before, succeeds label.2 = true) ∧
      (∀ label ∈ between, succeeds label.2 = false ∧ changes label.2 = false) ∧
      (∀ label ∈ between, ∀ now ∈ reading .recovery label.2,
        day 31 + Duration.second ≤ now ∧ now ≤ day 31 + Duration.second + lockoutDuration) ∧
      maxAttempts < ((between.countP fun label => grants .recovery label.2 : Nat) : Int) := by
  have run := run_schedule (exec config) (start, fun i => (guessing i).program config) late
  rw [← List.take_append_drop 3 (schedule _ _ _).1] at run
  have ends : (Prog.turn (exec config) after.2 0 (turn (day 32))).any
      (fun taken => (taken.2.2 0).returned.isSome) = true := by decide +kernel
  obtain ⟨⟨label, z⟩, taken, returned⟩ := (Option.any_eq_true _ _).mp ends
  obtain ⟨⟨⟩, finished⟩ := Option.isSome_iff_exists.mp returned
  refine ⟨_, _, _, label, z, run, interleave_of_turn taken, eq_ret_of_returned finished, ?_⟩
  exact ⟨by decide +kernel, by decide +kernel, by decide +kernel, by decide +kernel⟩

end Egauth.Mfa
