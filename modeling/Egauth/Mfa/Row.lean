import Egauth.Mfa.Order

/-! The enrollment of the subject, as the requests see it change.

What matters of a row is the secret it holds, whether it is confirmed and the
last step that was accepted. The store refines a machine on these views: a call
leaves the view, accepts a step, saves or confirms an enrollment, or removes it.
-/

set_option autoImplicit false

namespace Egauth.Mfa
open Egauth.Core Prog

structure View where
  subject : Subject
  secret : Option Bytes
  confirmed : Bool
  lastUsed : Int

def View.of (cfg : Config) (e : Enrollment) : View :=
  ⟨e.subject, cfg.secret e.sealedSecret, e.confirmed, e.lastUsedStep⟩

def viewed (cfg : Config) (s : Store) : Option View := (s.totp.lookup cfg.subject).map (View.of cfg)

def stored (cfg : Config) (s : Store) : Option Bytes := (viewed cfg s).bind View.secret

def accepts : Event → Option (Bytes × Int)
  | ⟨.markTOTPUsed secret step, .ok true⟩ => some (secret, step)
  | _ => none

def saves : Event → Option Enrollment
  | ⟨.saveTOTP e, .ok _⟩ => some e
  | _ => none

def confirms : Event → Option Enrollment
  | ⟨.confirmEnrollment e _, .ok _⟩ => some e
  | _ => none

def removes : Event → Bool
  | ⟨.deleteTOTP, .ok _⟩ | ⟨.deleteForSubject, .ok _⟩ | ⟨.eraseTenant, .ok _⟩ => true
  | _ => false

def Quiet (event : Event) : Prop :=
  accepts event = none ∧ saves event = none ∧ confirms event = none ∧ removes event = false

inductive Moves (cfg : Config) (v : Option View) (event : Event) : Option View → Prop where
  | quiet : Quiet event → Moves cfg v event v
  | accepted {w : View} {secret : Bytes} {step : Int} : v = some w → accepts event = some (secret, step) →
      w.lastUsed < step → Moves cfg v event (some { w with lastUsed := step })
  | saved {e : Enrollment} : saves event = some e → e.confirmedAt = none →
      Moves cfg v event (some ⟨cfg.subject, cfg.secret e.sealedSecret, false, e.lastUsedStep⟩)
  | confirmed {e : Enrollment} : confirms event = some e →
      Moves cfg v event (some ⟨cfg.subject, cfg.secret e.sealedSecret, true,
        (v.map View.lastUsed).elim e.lastUsedStep (max e.lastUsedStep)⟩)
  | removed : removes event = true → Moves cfg v event none

def Call.writes : Call → Bool
  | .getTOTP | .hasConfirmedTOTP | .hasActivePasskey | .now | .openSealed _ | .sealSecret _ | .compare .. | .bumpEpoch
  | .newSecret | .newRecoveryCodes => false
  | _ => true

def puts (sub : Subject) : Event → Bool
  | ⟨.saveTOTP e, .ok _⟩ | ⟨.confirmEnrollment e _, .ok _⟩ => e.subject = sub
  | _ => false

/-- The calls that write an enrollment name its subject themselves. -/
def Call.names (cfg : Config) (sub : Subject) : Call → Prop
  | .saveTOTP e | .confirmEnrollment e _ => e.subject = sub
  | _ => sub = cfg.subject

/-- What a call does to the row of any subject. What the requests see of it, how the attempts are counted and whose
row it is all follow from this. -/
inductive Change (cfg : Config) (sub : Subject) (event : Event) (row : Option Enrollment) : Option Enrollment → Prop where
  | same : (event.1.names cfg sub → Quiet event ∧ grants .totp event = false) → Change cfg sub event row row
  | tried {e : Enrollment} {now : Time} : row = some e →
      event = ⟨.reserve .totp, (now, .ok (bump ⟨e.failedAttempts, e.lastAttemptAt⟩ (lockout cfg now)).2)⟩ →
      Change cfg sub event row (some { e with
        failedAttempts := (bump ⟨e.failedAttempts, e.lastAttemptAt⟩ (lockout cfg now)).1.failed
        lastAttemptAt := (bump ⟨e.failedAttempts, e.lastAttemptAt⟩ (lockout cfg now)).1.last })
  | cleared {e : Enrollment} {hash : Bytes} : row = some e → event = ⟨.consumeRecoveryCode hash, .ok ()⟩ →
      Change cfg sub event row (some { e with failedAttempts := 0, lastAttemptAt := 0 })
  | resealed {e : Enrollment} {fresh : Bytes} : row = some e → event = ⟨.replaceSealed e.sealedSecret fresh, .ok true⟩ →
      Change cfg sub event row (some { e with sealedSecret := fresh, aadVersion := aadVersionCurrent })
  | used {e : Enrollment} {secret : Bytes} {step : Int} : row = some e → e.lastUsedStep < step →
      event = ⟨.markTOTPUsed secret step, .ok true⟩ →
      Change cfg sub event row (some { e with lastUsedStep := step, failedAttempts := 0, lastAttemptAt := 0 })
  | saved {e : Enrollment} {clk : Time} : event = ⟨.saveTOTP e, .ok ()⟩ → e.subject = sub → checkEnrollment e = none →
      Change cfg sub event row (some (Store.kept clk e))
  | confirmed {e : Enrollment} {hashes : List Bytes} {clk : Time} {s : Store} :
      event = ⟨.confirmEnrollment e hashes, .ok ()⟩ → e.subject = sub → checkEnrollment e = none →
      e.confirmedAt.isSome = true → s.totp.lookup sub = row →
      Change cfg sub event row (some (Store.kept clk (s.carryOver e)))
  | removed : removes event = true → Change cfg sub event row none

section
variable {cfg : Config} {g : Note} {o : Turn} {s : Store} {sub : Subject} {c : Call} {event : Event}
  {row row' : Option Enrollment} {e e' : Enrollment}

theorem exec_reads (reads : c.writes = false) : (exec cfg o s c).2 = s := by
  cases c with
  | now | openSealed | sealSecret | compare | newSecret | newRecoveryCodes => rfl
  | getTOTP | hasConfirmedTOTP | hasActivePasskey | bumpEpoch =>
    unfold exec performed
    split <;> rfl
  | _ => cases reads

theorem change_insert (names : event.1.names cfg sub → sub = cfg.subject)
    (here : sub = cfg.subject → Change cfg sub event (s.totp.lookup sub) (some e')) :
    Change cfg sub event (s.totp.lookup sub) ((s.totp.insert cfg.subject e').lookup sub) := by
  rw [Map.lookup_insert_eq]
  split
  next own => exact here own
  next other => exact .same fun named => absurd (names named) other

theorem change_put {clk : Time} (named : e.subject = sub → Change cfg sub event (s.totp.lookup sub) (some (Store.kept clk e)))
    (names : event.1.names cfg sub → e.subject = sub) :
    Change cfg sub event (s.totp.lookup sub) ((s.putTOTP clk e).totp.lookup sub) := by
  unfold Store.putTOTP
  rw [Map.lookup_insert_eq]
  split
  next own => exact named own.symm
  next other => exact .same fun own => absurd (names own).symm other

theorem change_erase (removed : removes event = true) (names : event.1.names cfg sub → sub = cfg.subject) :
    Change cfg sub event (s.totp.lookup sub) ((s.totp.erase cfg.subject).lookup sub) := by
  rw [Map.lookup_erase_eq]
  split
  · exact .removed removed
  next other => exact .same fun named => absurd (names named) other

theorem change_incrementTOTPAttempts (now : Time) :
    Change cfg sub ⟨.reserve .totp, (now, (s.incrementTOTPAttempts (lockout cfg now)).2)⟩ (s.totp.lookup sub)
      ((s.incrementTOTPAttempts (lockout cfg now)).1.totp.lookup sub) := by
  unfold Store.incrementTOTPAttempts
  split
  · exact .same fun _ => ⟨⟨rfl, rfl, rfl, rfl⟩, rfl⟩
  split
  · exact .same fun _ => ⟨⟨rfl, rfl, rfl, rfl⟩, rfl⟩
  next found => exact change_insert id fun own => .tried (own ▸ found) rfl

theorem change_consumeRecoveryCode (hash : Bytes) :
    Change cfg sub ⟨.consumeRecoveryCode hash, (s.consumeRecoveryCode cfg.subject hash).2⟩ (s.totp.lookup sub)
      ((s.consumeRecoveryCode cfg.subject hash).1.totp.lookup sub) := by
  unfold Store.consumeRecoveryCode Store.resetTOTPAttempts
  dsimp only
  split
  · split
    · exact .same fun _ => ⟨⟨rfl, rfl, rfl, rfl⟩, rfl⟩
    next found => exact change_insert id fun own => .cleared (own ▸ found) rfl
  · exact .same fun _ => ⟨⟨rfl, rfl, rfl, rfl⟩, rfl⟩

theorem change_replaceSealed (old fresh : Bytes) :
    Change cfg sub ⟨.replaceSealed old fresh, (s.replaceSealed cfg.subject old fresh).2⟩ (s.totp.lookup sub)
      ((s.replaceSealed cfg.subject old fresh).1.totp.lookup sub) := by
  unfold Store.replaceSealed
  split
  · exact .same fun _ => ⟨⟨rfl, rfl, rfl, rfl⟩, rfl⟩
  split
  · exact .same fun _ => ⟨⟨rfl, rfl, rfl, rfl⟩, rfl⟩
  next e found =>
    split
    · exact .same fun _ => ⟨⟨rfl, rfl, rfl, rfl⟩, rfl⟩
    next held =>
      obtain rfl := not_not.mp held
      exact change_insert id fun own => .resealed (own ▸ found) rfl

theorem change_markTOTPUsed (secret : Bytes) (step : Int) :
    Change cfg sub ⟨.markTOTPUsed secret step, .ok (s.markTOTPUsed cfg.subject step).2⟩ (s.totp.lookup sub)
      ((s.markTOTPUsed cfg.subject step).1.totp.lookup sub) := by
  unfold Store.markTOTPUsed
  split
  · exact .same fun _ => ⟨⟨rfl, rfl, rfl, rfl⟩, rfl⟩
  next found =>
    split
    · exact .same fun _ => ⟨⟨rfl, rfl, rfl, rfl⟩, rfl⟩
    next later => exact change_insert id fun own => .used (own ▸ found) (not_le.mp later) rfl

theorem change_saveTOTP (clk : Time) :
    Change cfg sub ⟨.saveTOTP e, (s.saveTOTP clk e).2⟩ (s.totp.lookup sub) ((s.saveTOTP clk e).1.totp.lookup sub) := by
  unfold Store.saveTOTP
  split
  · exact .same fun _ => ⟨⟨rfl, rfl, rfl, rfl⟩, rfl⟩
  next valid => exact change_put (fun named => .saved rfl named valid) id

theorem change_confirmEnrollment (clk : Time) (hashes : List Bytes) :
    Change cfg sub ⟨.confirmEnrollment e hashes, (s.confirmEnrollment clk e hashes).2⟩ (s.totp.lookup sub)
      ((s.confirmEnrollment clk e hashes).1.totp.lookup sub) := by
  rcases s.confirmEnrollment_cases clk e hashes with ⟨err, same⟩ | ⟨valid, confirmed, same⟩
  · rw [same]
    exact .same fun _ => ⟨⟨rfl, rfl, rfl, rfl⟩, rfl⟩
  · rw [same]
    refine change_put (fun named => ?_) (s.subject_carryOver e).trans
    exact .confirmed rfl ((s.subject_carryOver e).symm.trans named) valid confirmed rfl

/-- Each call changes the row of a subject in one of these ways, or not at all. -/
theorem change_exec (cfg : Config) (o : Turn) (s : Store) (sub : Subject) (c : Call) :
    Change cfg sub ⟨c, (exec cfg o s c).1⟩ (s.totp.lookup sub) ((exec cfg o s c).2.totp.lookup sub) := by
  -- Once the fault is known, what a call performs computes.
  obtain ⟨now, fault, bytes, hashes, active⟩ := o
  cases fault with
  | true => cases c <;> exact .same fun _ => ⟨⟨rfl, rfl, rfl, rfl⟩, rfl⟩
  | false =>
    cases c with
    | reserve f =>
      cases f with
      | totp => exact change_incrementTOTPAttempts now
      | recovery =>
        have same : (s.incrementRecoveryAttempts (lockout cfg now)).1.totp = s.totp := by
          unfold Store.incrementRecoveryAttempts
          split <;> rfl
        exact same ▸ .same fun _ => ⟨⟨rfl, rfl, rfl, rfl⟩, grants_other (by decide) _⟩
    | replaceSealed old fresh => exact change_replaceSealed old fresh
    | markTOTPUsed secret step => exact change_markTOTPUsed secret step
    | consumeRecoveryCode hash => exact change_consumeRecoveryCode hash
    | saveTOTP e => exact change_saveTOTP now
    | confirmEnrollment e hashes => exact change_confirmEnrollment now hashes
    | replaceRecoveryCodes hashes =>
      have same : (s.replaceRecoveryCodes cfg.subject hashes).1.totp = s.totp := by
        unfold Store.replaceRecoveryCodes
        split
        · rfl
        split <;> rfl
      exact same ▸ .same fun _ => ⟨⟨rfl, rfl, rfl, rfl⟩, rfl⟩
    | deleteTOTP | deleteForSubject => exact change_erase rfl id
    | eraseTenant =>
      change Change cfg sub _ _ ((s.eraseTenant cfg.subject.tenant).totp.lookup sub)
      unfold Store.eraseTenant
      rw [Map.lookup_eraseWhere]
      split
      · exact .removed rfl
      next other => exact .same fun own => absurd (decide_eq_true (congrArg Subject.tenant own)) other
    | _ => exact .same fun _ => ⟨⟨rfl, rfl, rfl, rfl⟩, rfl⟩

theorem keyed_exec (keyed : s.Keyed) (c : Call) : (exec cfg o s c).2.Keyed := by
  intro sub e found
  have change := change_exec cfg o s sub c
  rw [found] at change
  generalize shape : some e = row at change
  cases change with
  | same => exact keyed sub e shape.symm
  | tried before | cleared before | resealed before | used before =>
    cases shape
    have named := keyed sub _ before
    exact named
  | saved _ named =>
    cases shape
    exact named
  | @confirmed _ _ _ s' _ named =>
    cases shape
    exact (s'.subject_carryOver _).trans named
  | removed => cases shape

/-- An enrollment is not there after a call when it was not before, unless it is put there. -/
theorem absent_exec (absent : s.totp.lookup sub = none) (unput : puts sub ⟨c, (exec cfg o s c).1⟩ = false) :
    (exec cfg o s c).2.totp.lookup sub = none := by
  have change := change_exec cfg o s sub c
  generalize (exec cfg o s c).2.totp.lookup sub = row at change
  cases change with
  | same => exact absent
  | tried before | cleared before | resealed before | used before => cases absent.symm.trans before
  | saved told named =>
    rw [told] at unput
    exact absurd named (of_decide_eq_false unput)
  | confirmed told named =>
    rw [told] at unput
    exact absurd named (of_decide_eq_false unput)
  | removed => rfl

theorem names_of_allows (allowed : (order cfg).allows g c) : c.names cfg cfg.subject := by
  cases c with
  | saveTOTP | confirmEnrollment => exact allowed.1
  | _ => rfl

theorem Change.moves (change : Change cfg cfg.subject event row row') (allowed : (order cfg).allows g event.1) :
    Moves cfg (row.map (View.of cfg)) event (row'.map (View.of cfg)) := by
  cases change with
  | same quiet => exact .quiet (quiet (names_of_allows allowed)).1
  | tried before told | cleared before told =>
    subst before told
    exact .quiet ⟨rfl, rfl, rfl, rfl⟩
  | @resealed e fresh before told =>
    subst before told
    have same : cfg.secret fresh = cfg.secret e.sealedSecret := allowed
    have view : View.of cfg { e with sealedSecret := fresh, aadVersion := aadVersionCurrent } = View.of cfg e := by
      unfold View.of
      rw [← same]
      rfl
    rw [Option.map_some, Option.map_some, view]
    exact .quiet ⟨rfl, rfl, rfl, rfl⟩
  | used before later told =>
    subst before told
    exact .accepted rfl rfl later
  | @saved e clk told named =>
    subst told
    have view : View.of cfg (Store.kept clk e) = ⟨cfg.subject, cfg.secret e.sealedSecret, false, e.lastUsedStep⟩ := by
      simp [View.of, Store.kept, Enrollment.confirmed, allowed.2.1, named]
    rw [Option.map_some, view]
    exact .saved rfl allowed.2.1
  | @confirmed e hashes clk s told named valid confirmed held =>
    subst told
    have view : View.of cfg (Store.kept clk (s.carryOver e)) = ⟨cfg.subject, cfg.secret e.sealedSecret, true,
        ((row.map (View.of cfg)).map View.lastUsed).elim e.lastUsedStep (max e.lastUsedStep)⟩ := by
      unfold Store.carryOver
      rw [named, held]
      cases row <;> simp [View.of, Store.kept, Enrollment.confirmed, confirmed, named]
    rw [Option.map_some, view]
    exact .confirmed rfl
  | removed gone => exact .removed gone

/-- The store refines the machine on views. -/
theorem moves_exec (o : Turn) (allowed : (order cfg).allows g c) :
    Moves cfg (viewed cfg s) ⟨c, (exec cfg o s c).1⟩ (viewed cfg (exec cfg o s c).2) :=
  (change_exec cfg o s cfg.subject c).moves allowed

def Named (cfg : Config) (s : Store) : Prop := ∀ v, viewed cfg s = some v → v.subject = cfg.subject

theorem Moves.named {v v' : Option View} {event : Event} (moves : Moves cfg v event v')
    (named : ∀ w, v = some w → w.subject = cfg.subject) : ∀ w, v' = some w → w.subject = cfg.subject := by
  intro w found
  cases moves with
  | quiet => exact named w found
  | accepted same =>
    cases found
    have before := named _ same
    exact before
  | saved =>
    cases found
    rfl
  | confirmed =>
    cases found
    rfl
  | removed => cases found

theorem learns_exec (named : Named cfg s) (o : Turn) (c : Call) : (order cfg).learns g c (exec cfg o s c).1 := by
  cases c with
  | getTOTP =>
    unfold exec performed Store.getTOTP
    dsimp only
    split
    · trivial
    split
    · trivial
    next e found => exact named (.of cfg e) (by rw [viewed, found]; rfl)
  | openSealed value =>
    unfold exec
    dsimp only
    split
    · trivial
    cases held : cfg.secret value with
    | none => trivial
    | some secret => exact held
  | sealSecret secret =>
    unfold exec
    dsimp only
    cases drawn : o.bytes.filter fun value => cfg.secret value = some secret with
    | none => trivial
    | some value =>
      obtain ⟨-, holds⟩ := Option.filter_eq_some_iff.mp drawn
      have opened : cfg.secret value = some secret := of_decide_eq_true holds
      exact opened
  | _ => trivial

/-- Along a run of requests every reply is a possible one, and the row keeps standing under its subject. -/
theorem learned_of_requests {I : Type} [DecidableEq I] {start : Store} (named : Named cfg start) (requests : I → Request)
    {labels : List (I × Event)} {y : Store × (I → Program Unit)}
    (run : Run (Interleave (exec cfg)) (start, fun i => (requests i).program cfg) labels y) :
    Named cfg y.1 ∧ ∀ i, Learned (order cfg) (.start (requests i).presents) (own i labels) := by
  have yields (i : I) : Yields (order cfg) (.start (requests i).presents) ((requests i).program cfg) fun _ _ => True :=
    yields_program cfg (requests i)
  exact learned_of_allowed (Named cfg) run yields named
    (fun o _ _ _ allowed named => (moves_exec o allowed).named named) fun o _ c _ _ named => learns_exec named o c

end

end Egauth.Mfa
