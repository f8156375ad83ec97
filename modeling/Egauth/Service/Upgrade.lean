import Egauth.Service.Enroll

/-! Whether an enrollment ends the other sessions of its subject.

A login that reads the account after the bump and the store before the write is
admitted with one factor at the new epoch; its session survives if it starts
after the delivery that ends the subject's sessions.
-/

set_option autoImplicit false

namespace Egauth.Service
open Egauth.Core Identity Prog

def delivered {I : Type} (sub : Subject) (keep : UUID) : List (Option I × Event) → Bool
  | [] => false
  | (_, ⟨.revokeSessions s kept, true⟩) :: earlier =>
    (decide (s = sub ∧ kept = keep) && earlier.any fun label => bumps sub label.2) || delivered sub keep earlier
  | _ :: earlier => delivered sub keep earlier

theorem delivered_other {I : Type} {sub : Subject} {keep : UUID} {party : Option I} {c : Call} {r : Reply c}
    {earlier : List (Option I × Event)}
    (other : c.part ≠ some .sessions ∨ ∃ a, c = .startSession a) :
    delivered sub keep ((party, ⟨c, r⟩) :: earlier) = delivered sub keep earlier := by
  cases c with
  | revokeSessions s kept =>
    rcases other with part | ⟨a, same⟩
    · exact absurd rfl part
    · cases same
  | _ => rfl

section
variable {I : Type} [DecidableEq I] {event : Event} {i : I}

def enrollment (k : Enrolling) (a : SessionAttrs) (others : I → Beside) : Option I → Program Unit
  | none => k.program a
  | some i => (others i).program

/-- The labels before the last one of a program that is such an event; the latest label comes first. -/
def beforeLast (i : I) (P : Event → Bool) (labels : List (I × Event)) : List (I × Event) :=
  (labels.dropWhile fun label => !(decide (label.1 = i) && P label.2)).tail

theorem beforeLast_own {P : Event → Bool} (meets : P event = true) (earlier : List (I × Event)) :
    beforeLast i P ((i, event) :: earlier) = earlier := by
  simp [beforeLast, meets]

theorem beforeLast_skip {j : I} {P : Event → Bool} (skips : j = i → P event = false)
    (earlier : List (I × Event)) : beforeLast i P ((j, event) :: earlier) = beforeLast i P earlier := by
  by_cases mine : j = i
  · simp [beforeLast, skips mine]
  · simp [beforeLast, mine]

def readsAccount (sub : Subject) : Event → Bool
  | ⟨.getUser s, .ok _⟩ => s = sub
  | _ => false

def Enrolling.reads (k : Enrolling) (sub : Subject) : Event → Bool
  | ⟨.mfa s .hasConfirmedTOTP, .ok _⟩ => match k with
    | .totp .. => s = sub
    | .passkey .. => false
  | ⟨.hasActivePasskey s, .ok _⟩ => match k with
    | .totp .. => false
    | .passkey .. => s = sub
  | _ => false

def afterBump (sub : Subject) (i : I) (labels : List (Option I × Event)) : Bool :=
  (beforeLast (some i) (readsAccount sub) labels).any fun label => bumps sub label.2

def overtakes (k : Enrolling) (sub : Subject) (i : I) (labels : List (Option I × Event)) : Bool :=
  let earlier := beforeLast (some i) (k.reads sub) labels
  afterBump sub i earlier && !earlier.any fun label => k.writes sub label.2

/-- A session of the subject that an enrollment has to end. -/
def single (sub : Subject) (keep : UUID) (a : SessionAttrs) : Bool :=
  decide (a.subject = sub) && decide (a.lineage ≠ keep) && !multiFactor a.factors

/-- No login that overtakes the enrollment starts such a session after the delivery, or a later delivery ends it. The
latest label comes first, and `ended` says whether a delivery came after it. -/
def timely (k : Enrolling) (sub : Subject) (keep : UUID) : Bool → List (Option I × Event) → Bool
  | _, [] => true
  | ended, (some i, ⟨.startSession a, true⟩) :: earlier =>
    timely k sub keep ended earlier &&
      (ended || !(single sub keep a && overtakes k sub i earlier && delivered sub keep earlier))
  | ended, (_, ⟨.revokeSessions s kept, true⟩) :: earlier =>
    timely k sub keep (ended || decide (s = sub ∧ kept = keep)) earlier
  | ended, _ :: earlier => timely k sub keep ended earlier

variable {k : Enrolling} {sub : Subject} {g : Stage} {c : Call} {r : Reply c}

theorem enrolls_cases (allowed : (enrolls k sub).allows g c) (r : Reply c) :
    (bumps sub ⟨c, r⟩ = false ∧ k.writes sub ⟨c, r⟩ = false ∧ (enrolls k sub).track g c r = g) ∨
      (g = .fresh ∧ bumps sub ⟨c, r⟩ = true ∧ k.writes sub ⟨c, r⟩ = false ∧ (enrolls k sub).track g c r = .bumped) ∨
      (g = .bumped ∧ bumps sub ⟨c, r⟩ = false ∧ k.writes sub ⟨c, r⟩ = true ∧
        (enrolls k sub).track g c r = .written) := by
  cases c with
  | apply m =>
    cases r with
    | error err => exact .inl ⟨rfl, rfl, rfl⟩
    | ok ap =>
      obtain ⟨rfl, rfl, effective⟩ := allowed
      exact .inr (.inl ⟨rfl, by simp [bumps, effective], rfl, rfl⟩)
  | mfa s c =>
    cases c with
    | confirmEnrollment e hashes =>
      cases r with
      | error err => exact .inl ⟨rfl, rfl, rfl⟩
      | ok done => exact .inr (.inr ⟨allowed.1, rfl, allowed.2, rfl⟩)
    | _ => exact .inl ⟨rfl, rfl, rfl⟩
  | savePasskey c =>
    cases r with
    | error err => exact .inl ⟨rfl, rfl, rfl⟩
    | ok done => exact .inr (.inr ⟨allowed.1, rfl, allowed.2.1, rfl⟩)
  | _ => exact .inl ⟨rfl, rfl, rfl⟩

theorem logsIn_quiet {g : Seen} (allowed : logsIn.allows g c) (r : Reply c) :
    bumps sub ⟨c, r⟩ = false ∧ k.writes sub ⟨c, r⟩ = false := by
  cases c with
  | apply | savePasskey => cases allowed
  | mfa s c =>
    cases c with
    | confirmEnrollment => cases allowed
    | _ => exact ⟨rfl, rfl⟩
  | _ => exact ⟨rfl, rfl⟩

variable {a : SessionAttrs} {others : I → Beside} {w : World} {x y z : World × (Option I → Program Unit)}
  {labels : List (Option I × Event)} {label : Option I × Event} {e : UInt64}

theorem learned_enrolls (run : Run (Interleave exec) x labels y) (keyed : x.1.mfa.Keyed) (g : Stage) :
    Learned (enrolls k sub) g (own none labels) := by
  refine (learned_of_run (fun w : World => w.mfa.Keyed) run keyed
    (fun o w c keyed => mfa_keyed_exec keyed rfl) ?_ g none).2
  intro o w c g keyed
  cases c with
  | mfa s c =>
    cases c with
    | getTOTP =>
      cases replied : exec o w (.mfa s .getTOTP) with
      | mk r w' =>
        cases r with
        | error err => trivial
        | ok e => exact getTOTP_exec keyed replied
    | _ => trivial
  | _ => trivial

def stage (k : Enrolling) (sub : Subject) (labels : List (Option I × Event)) : Stage :=
  follow (enrolls k sub) .fresh (own none labels)

theorem stage_own (labels : List (Option I × Event)) (event : Event) : stage k sub (labels ++ [(none, event)]) =
    (enrolls k sub).track (stage k sub labels) event.1 event.2 := by
  rw [stage, own_append, follow_append, own_cons_self]
  rfl

theorem stage_other (labels : List (Option I × Event)) (other : label.1 ≠ none) :
    stage k sub (labels ++ [label]) = stage k sub labels := by
  rw [stage, own_append, own_cons_other other]
  simp [stage, own]

theorem allows_enrolling (run : Run (Interleave exec) (w, enrollment k a others) labels y) (keyed : w.mfa.Keyed)
    (step : Interleave exec y (none, event) z) : (enrolls k a.subject).allows (stage k a.subject labels) event.1 :=
  allows_of_run run step (yields_enrolling k a) (learned_enrolls run keyed _)

def seen (i : I) (labels : List (Option I × Event)) : Seen := follow logsIn .nothing (own (some i) labels)

theorem seen_own (labels : List (Option I × Event)) (i : I) (event : Event) :
    seen i (labels ++ [(some i, event)]) = logsIn.track (seen i labels) event.1 event.2 := by
  rw [seen, own_append, follow_append, own_cons_self]
  rfl

theorem seen_other (labels : List (Option I × Event)) (other : label.1 ≠ some i) :
    seen i (labels ++ [label]) = seen i labels := by
  rw [seen, own_append, own_cons_other other]
  simp [seen, own]

theorem allows_beside (run : Run (Interleave exec) (w, enrollment k a others) labels y)
    (step : Interleave exec y (some i, event) z) : logsIn.allows (seen i labels) event.1 := by
  have anything : Learned logsIn .nothing (own (some i) labels) :=
    (learned_of_run (fun _ => True) run trivial (fun _ _ _ _ => trivial) (fun _ _ _ _ _ => trivial) _ _).2
  exact allows_of_run run step (yields_beside (others i)) anything

/-- What the stage says about the labels. -/
structure Staged (k : Enrolling) (sub : Subject) (labels : List (Option I × Event)) : Prop where
  bumps : labels.countP (fun label => bumps sub label.2) = if stage k sub labels = .fresh then 0 else 1
  writes : labels.countP (fun label => k.writes sub label.2) = if stage k sub labels = .written then 1 else 0

theorem staged_of_run (run : Run (Interleave exec) (w, enrollment k a others) labels y) (keyed : w.mfa.Keyed) :
    Staged k a.subject labels := by
  induction run with
  | nil => exact ⟨rfl, rfl⟩
  | snoc before last ih =>
    obtain ⟨bumped, written⟩ := ih
    rename_i label
    obtain ⟨party, c, r⟩ := label
    cases party with
    | none =>
      -- The bump comes once, from fresh, and the write once after it.
      rcases enrolls_cases (allows_enrolling before keyed last) r with ⟨quiet, unwritten, same⟩ |
        ⟨fresh, bump, unwritten, next⟩ | ⟨stood, quiet, write, next⟩
      · constructor
        · simp [stage_own, bumped, quiet, same]
        · simp [stage_own, written, unwritten, same]
      · rw [fresh] at next
        constructor
        · simp [stage_own, bumped, bump, next, fresh]
        · simp [stage_own, written, unwritten, next, fresh]
      · rw [stood] at next
        constructor
        · simp [stage_own, bumped, quiet, next, stood]
        · simp [stage_own, written, write, next, stood]
    | some i =>
      obtain ⟨quiet, unwritten⟩ : bumps a.subject ⟨c, r⟩ = false ∧ k.writes a.subject ⟨c, r⟩ = false :=
        logsIn_quiet (allows_beside before last) r
      constructor
      · simp [stage_other, bumped, quiet]
      · simp [stage_other, written, unwritten]

def Enrolling.shows (k : Enrolling) (w : World) (sub : Subject) : Bool :=
  match k with
  | .totp .. => w.mfa.hasConfirmedTOTP sub
  | .passkey .. => w.passkeys.hasActive sub

theorem shows_frame {o : Turn} {w w' : World} (replied : exec o w c = (r, w')) (mfa : c.part ≠ some .mfa)
    (passkeys : c.part ≠ some .passkeys) : k.shows w' sub = k.shows w sub := by
  cases k with
  | totp => exact congrArg (Mfa.Store.hasConfirmedTOTP · sub) ((frame_exec replied).mfa mfa)
  | passkey => exact congrArg (Passkey.Store.hasActive · sub) ((frame_exec replied).passkeys passkeys)

theorem logsIn_frame {g : Seen} (allowed : logsIn.allows g c) : c.part ≠ some .mfa ∧ c.part ≠ some .passkeys := by
  cases c with
  | startSession | revokeSessions | now | getUser | hasActivePasskey => exact ⟨nofun, nofun⟩
  | mfa s c =>
    cases c with
    | hasConfirmedTOTP => exact ⟨nofun, nofun⟩
    | _ => cases allowed
  | _ => cases allowed

/-- The write puts the factor into the store, and the enrollment leaves it there. -/
theorem shows_exec {o : Turn} {w w' : World} (allowed : (enrolls k sub).allows g c) (replied : exec o w c = (r, w'))
    (shown : g = .written → k.shows w sub = true) (reached : (enrolls k sub).track g c r = .written) :
    k.shows w' sub = true := by
  cases c with
  | mfa s c =>
    cases c with
    | confirmEnrollment e hashes =>
      cases r with
      | error err => exact absurd (allowed.1.symm.trans reached) nofun
      | ok done =>
        obtain ⟨-, writes⟩ := allowed
        cases k with
        | totp =>
          rw [← of_decide_eq_true writes]
          exact Mfa.Store.hasConfirmedTOTP_confirmEnrollment (confirmEnrollment_exec replied)
        | passkey => cases writes
    | getTOTP | hasConfirmedTOTP | hasActivePasskey | now | openSealed | sealSecret | compare | bumpEpoch | newSecret
    | newRecoveryCodes =>
      rw [shows_frame replied nofun nofun]
      exact shown reached
    | _ => exact absurd ((allowed rfl).symm.trans reached) nofun
  | savePasskey c =>
    cases r with
    | error err => exact absurd (allowed.1.symm.trans reached) nofun
    | ok done =>
      obtain ⟨-, writes, active⟩ := allowed
      cases k with
      | totp => cases writes
      | passkey =>
        rw [← of_decide_eq_true writes]
        exact Passkey.Store.hasActive_save (savePasskey_exec replied) active
  | apply m =>
    cases r with
    | error err => exact absurd (allowed.1.symm.trans reached) nofun
    | ok ap => cases reached
  | deletePasskeys | startSession | revokeSessions => cases allowed
  | _ =>
    rw [shows_frame replied nofun nofun]
    exact shown reached

theorem shows_of_run (run : Run (Interleave exec) (w, enrollment k a others) labels y) (keyed : w.mfa.Keyed)
    (written : stage k a.subject labels = .written) : k.shows y.1 a.subject = true := by
  induction run with
  | nil => cases written
  | snoc before last ih =>
    rename_i label
    obtain ⟨party, c, r⟩ := label
    obtain ⟨o, -, -, replied, -⟩ := id last
    cases party with
    | none =>
      rw [stage_own] at written
      exact shows_exec (allows_enrolling before keyed last) replied ih written
    | some i =>
      rw [stage_other _ (Option.some_ne_none i)] at written
      have elsewhere := logsIn_frame (allows_beside before last)
      rw [shows_frame replied elsewhere.1 elsewhere.2]
      exact ih written

def Enrolling.seen (k : Enrolling) (g : Seen) : Option (Subject × Bool) :=
  match k with
  | .totp .. => g.totp
  | .passkey .. => g.passkey

/-- A login that knows the new epoch read it after the bump, and overtakes the enrollment if it missed the factor. -/
structure Sees (k : Enrolling) (sub : Subject) (e : UInt64) (i : I) (labels : List (Option I × Event)) : Prop where
  bumped : (seen i labels).account = some (sub, e + 1) → afterBump sub i labels.reverse = true
  missed : (seen i labels).account = some (sub, e + 1) → k.seen (seen i labels) = some (sub, false) →
    overtakes k sub i labels.reverse = true

theorem afterBump_skip {party : Option I}
    (skips : party = some i → readsAccount sub event = false) (earlier : List (Option I × Event)) :
    afterBump sub i ((party, event) :: earlier) = afterBump sub i earlier := by
  rw [afterBump, beforeLast_skip skips, afterBump]

theorem overtakes_skip {party : Option I} (skips : party = some i → k.reads sub event = false)
    (earlier : List (Option I × Event)) :
    overtakes k sub i ((party, event) :: earlier) = overtakes k sub i earlier := by
  rw [overtakes, beforeLast_skip skips, overtakes]

theorem reads_exec {o : Turn} {w w' : World} {g : Seen} (replied : exec o w c = (r, w'))
    (reads : k.reads sub ⟨c, r⟩ = true) : k.seen (logsIn.track g c r) = some (sub, k.shows w sub) := by
  cases c with
  | mfa s c =>
    cases c with
    | hasConfirmedTOTP =>
      cases r with
      | error err => cases reads
      | ok enrolled =>
        cases k with
        | totp =>
          cases of_decide_eq_true reads
          cases hasConfirmedTOTP_exec replied
          rfl
        | passkey => cases reads
    | _ => cases reads
  | hasActivePasskey s =>
    cases r with
    | error err => cases reads
    | ok enrolled =>
      cases k with
      | totp => cases reads
      | passkey =>
        cases of_decide_eq_true reads
        cases hasActivePasskey_exec replied
        rfl
  | _ => cases reads

/-- Another event leaves a login with what it had seen of the factor, or with nothing. -/
theorem seen_unread {g : Seen} (unread : k.reads sub ⟨c, r⟩ = false)
    (missed : k.seen (logsIn.track g c r) = some (sub, false)) : k.seen g = some (sub, false) := by
  cases c with
  | getUser s => cases k <;> cases r <;> cases missed
  | mfa s c =>
    cases c with
    | hasConfirmedTOTP =>
      cases r with
      | error err => exact missed
      | ok enrolled =>
        cases k with
        | totp =>
          cases Option.some.inj missed
          exact absurd (decide_eq_true rfl) (ne_true_of_eq_false unread)
        | passkey => exact missed
    | _ => exact missed
  | hasActivePasskey s =>
    cases r with
    | error err => exact missed
    | ok enrolled =>
      cases k with
      | totp => exact missed
      | passkey =>
        cases Option.some.inj missed
        exact absurd (decide_eq_true rfl) (ne_true_of_eq_false unread)
  | _ => exact missed

theorem account_unread {g : Seen} (other : ∀ s, c ≠ .getUser s) :
    (logsIn.track g c r).account = g.account ∧ readsAccount sub ⟨c, r⟩ = false := by
  cases c with
  | getUser s => exact absurd rfl (other s)
  | mfa s c =>
    cases c with
    | hasConfirmedTOTP => cases r <;> exact ⟨rfl, rfl⟩
    | _ => exact ⟨rfl, rfl⟩
  | hasActivePasskey s => cases r <;> exact ⟨rfl, rfl⟩
  | _ => exact ⟨rfl, rfl⟩

theorem Sees.skip (sees : Sees k sub e i labels) {party : Option I}
    (account : (seen i (labels ++ [(party, event)])).account = (seen i labels).account)
    (store : k.seen (seen i (labels ++ [(party, event)])) = some (sub, false) → k.seen (seen i labels) = some (sub, false))
    (quiet : party = some i → readsAccount sub event = false) (unread : party = some i → k.reads sub event = false) :
    Sees k sub e i (labels ++ [(party, event)]) := by
  constructor
  · intro knows
    rw [account] at knows
    rw [List.reverse_concat', afterBump_skip quiet]
    exact sees.bumped knows
  · intro knows missed
    rw [account] at knows
    rw [List.reverse_concat', overtakes_skip unread]
    exact sees.missed knows (store missed)

theorem Sees.read (sees : Sees k sub e i labels)
    (account : (seen i (labels ++ [(some i, event)])).account = (seen i labels).account)
    (quiet : readsAccount sub event = false) (reads : k.reads sub event = true)
    (told : k.seen (seen i (labels ++ [(some i, event)])) = some (sub, false) →
      labels.countP (fun label => k.writes sub label.2) = 0) : Sees k sub e i (labels ++ [(some i, event)]) := by
  constructor
  · intro knows
    rw [account] at knows
    rw [List.reverse_concat', afterBump_skip fun _ => quiet]
    exact sees.bumped knows
  · intro knows missed
    rw [account] at knows
    have unwritten := told missed
    rw [List.countP_eq_zero] at unwritten
    rw [List.reverse_concat', overtakes, beforeLast_own reads]
    simpa [sees.bumped knows] using unwritten

theorem Sees.reread {s : Subject} {r : Except Identity.Err User}
    (told : ∀ u, r = .ok u → s = sub → u.securityEpoch = e + 1 →
      (labels.any fun label => bumps sub label.2) = true) : Sees k sub e i (labels ++ [(some i, ⟨.getUser s, r⟩)]) := by
  constructor
  · intro knows
    rw [seen_own] at knows
    cases r with
    | error err => cases knows
    | ok u =>
      obtain ⟨rfl, epoch⟩ := Prod.mk.inj (Option.some.inj knows)
      rw [List.reverse_concat', afterBump,
        beforeLast_own (decide_eq_true rfl)]
      simpa using told u rfl rfl epoch
  · intro _ missed
    rw [seen_own] at missed
    cases k with
    | totp => cases r <;> cases missed
    | passkey => cases r <;> cases missed

theorem sees_of_run (run : Run (Interleave exec) (w, enrollment k a others) labels y) (keyed : w.mfa.Keyed)
    (accounts : w.identity.Keyed) (current : w.identity.epoch a.subject = some e) (i : I) :
    Sees k a.subject e i labels := by
  induction run with
  | nil => exact ⟨nofun, nofun⟩
  | snoc before last ih =>
    rename_i mid _ earlier label
    obtain ⟨party, c, r⟩ := label
    obtain ⟨o, -, -, replied, -⟩ := id last
    by_cases mine : party = some i
    · subst mine
      have staged := staged_of_run before keyed
      by_cases account : ∃ s, c = .getUser s
      · obtain ⟨s, rfl⟩ := account
        refine Sees.reread ?_
        rintro u rfl rfl later
        have read := Store.getUser_ok (getUser_exec replied)
        rw [epoch_of_run before accounts current, later, staged.bumps, Option.some.injEq] at read
        -- An epoch that has moved was moved by the bump.
        split at read
        · simp at read
        next moved =>
          have some' : 0 < earlier.countP fun label => bumps a.subject label.2 := by
            rw [staged.bumps, if_neg moved]
            exact Nat.one_pos
          simpa using List.countP_pos_iff.mp some'
      · obtain ⟨same, quiet⟩ : (logsIn.track (seen i earlier) c r).account = (seen i earlier).account ∧
            readsAccount a.subject ⟨c, r⟩ = false := account_unread fun s read => account ⟨s, read⟩
        have account := (congrArg Seen.account (seen_own earlier i ⟨c, r⟩)).trans same
        cases reads : k.reads a.subject ⟨c, r⟩ with
        | true =>
          refine ih.read account quiet reads fun missed => ?_
          rw [seen_own, reads_exec replied reads, Option.some.injEq, Prod.mk.injEq] at missed
          rw [staged.writes, if_neg]
          intro written
          rw [shows_of_run before keyed written] at missed
          cases missed.2
        | false =>
          refine ih.skip account ?_ (fun _ => quiet) fun _ => reads
          rw [seen_own]
          exact seen_unread reads
    · have same : seen i (earlier ++ [(party, ⟨c, r⟩)]) = seen i earlier := seen_other earlier mine
      exact ih.skip (congrArg Seen.account same) (fun missed => by rwa [same] at missed) (fun own => absurd own mine)
        fun own => absurd own mine

theorem timely_earlier {keep : UUID} {earlier : List (Option I × Event)}
    (holds : timely k sub keep false (label :: earlier) = true) (other : label.2 ≠ ⟨.revokeSessions sub keep, true⟩) :
    timely k sub keep false earlier = true := by
  unfold timely at holds
  split at holds
  next same => cases same
  next same =>
    cases same
    exact (Bool.and_eq_true_iff.mp holds).1
  next s kept _ same =>
    cases same
    have apart : ¬ (s = sub ∧ kept = keep) := by
      rintro ⟨rfl, rfl⟩
      exact other rfl
    simpa [apart] using holds
  next same =>
    cases same
    exact holds

/-- The sessions of the new epoch, but the kept one, are multi-factor. -/
def Upgraded (sub : Subject) (keep : UUID) (epoch : UInt64) (sessions : List SessionAttrs) : Prop :=
  ∀ s ∈ sessions, s.subject = sub → s.epoch = epoch → s.lineage ≠ keep → multiFactor s.factors = true

theorem upgraded_of_run (run : Run (Interleave exec) (w, enrollment k a others) labels y) (keyed : w.mfa.Keyed)
    (accounts : w.identity.Keyed) (current : w.identity.epoch a.subject = some e)
    (ordered : timely k a.subject a.lineage false labels.reverse = true)
    (done : delivered a.subject a.lineage labels.reverse = true) :
    Upgraded a.subject a.lineage (e + 1) y.1.sessions := by
  induction run with
  | nil => cases done
  | snoc before last ih =>
    rename_i mid _ earlier label
    obtain ⟨party, c, r⟩ := label
    obtain ⟨o, -, -, replied, -⟩ := id last
    rw [List.reverse_concat'] at ordered done
    by_cases part : c.part = some .sessions
    · cases party with
      | none =>
        have allowed := allows_enrolling before keyed last
        cases c with
        | startSession | revokeSessions => cases allowed
        | mfa => cases part_mfa part
        | _ => cases part
      | some i =>
        have allowed := allows_beside before last
        cases c with
        | startSession s =>
          rw [delivered_other (.inr ⟨s, rfl⟩)] at done
          have upgraded := ih (timely_earlier ordered nofun) done
          rcases startSession_exec replied with ⟨rfl, same⟩ | ⟨rfl, same⟩
          · rw [same]
            exact upgraded
          rw [same]
          intro s' member subject epoch other
          rcases List.mem_append.mp member with old | new
          · exact upgraded s' old subject epoch other
          · obtain rfl := List.mem_singleton.mp new
            obtain ⟨totp, passkey, known, multi⟩ := allowed
            have sees := sees_of_run before keyed accounts current i
            rw [subject, epoch] at known
            -- A login that saw the factor asked for a second one; one that missed it overtakes the enrollment.
            obtain ⟨shown, read, upgrades⟩ : ∃ shown, k.seen (seen i earlier) = some (a.subject, shown) ∧
                (shown = true → multiFactor s'.factors = true) := by
              rw [known]
              cases k with
              | totp => exact ⟨totp, rfl, fun saw => multi (.inl saw)⟩
              | passkey => exact ⟨passkey, rfl, fun saw => multi (.inr saw)⟩
            cases shown with
            | true => exact upgrades rfl
            | false =>
              have overtaken := sees.missed (congrArg Seen.account known) read
              have rest := (Bool.and_eq_true_iff.mp ordered).2
              simpa [single, subject, other, overtaken, done] using rest
        | revokeSessions s kept =>
          rcases revokeSessions_exec replied with ⟨rfl, same⟩ | ⟨rfl, same⟩
          · rw [same]
            exact ih (timely_earlier ordered nofun) done
          rw [same]
          intro s' member subject epoch other
          obtain ⟨old, left⟩ := List.mem_filter.mp member
          by_cases here : s = a.subject ∧ kept = a.lineage
          · -- The delivery itself leaves the kept lineage only.
            obtain ⟨rfl, rfl⟩ := here
            simp [subject, other] at left
          · have past : delivered a.subject a.lineage earlier.reverse = true := by
              simpa [delivered, here] using done
            refine ih (timely_earlier ordered ?_) past s' old subject epoch other
            rintro ⟨⟩
            exact here ⟨rfl, rfl⟩
        | mfa => cases part_mfa part
        | _ => cases part
    · rw [delivered_other (.inl part)] at done
      rw [(frame_exec replied).sessions part]
      refine ih (timely_earlier ordered ?_) done
      rintro ⟨⟩
      exact part rfl

/-- No program of the pool creates the account. -/
theorem absent_of_run (run : Run (Interleave exec) (w, enrollment k a others) labels y) (keyed : w.mfa.Keyed)
    (accounts : w.identity.Keyed) (absent : w.identity.epoch a.subject = none) :
    y.1.identity.epoch a.subject = none := by
  induction run with
  | nil => exact absent
  | snoc before last ih =>
    rename_i mid _ earlier label
    obtain ⟨party, c, r⟩ := label
    obtain ⟨o, -, -, replied, -⟩ := id last
    by_cases applies : c.part = some .identity
    · cases c with
      | apply m =>
        cases party with
        | none =>
          obtain ⟨-, subject, bumping⟩ := allows_enrolling before keyed last
          rcases apply_exec replied with ⟨same, -⟩ | ⟨ap, newID, -, -, applied⟩
          · rw [same]
            exact ih
          · have loads : m.loads = true := by
              cases m with
              | createVerified | foreign => cases bumping
              | _ => rfl
            obtain ⟨b, b', commits⟩ := Store.apply_loaded (keyed_of_run before accounts) loads applied
            rw [← subject, Store.epoch, commits.found] at ih
            cases ih
        | some i => cases allows_beside before last
      | mfa => cases part_mfa applies
      | _ => cases applies
    · rw [(frame_exec replied).identity applies]
      exact ih

/-- For one enrollment of a factor and any logins and deliveries beside it, in any order: where no login that knows
the account after the bump but the store before the write starts a single-factor session after the last delivery, the
enrollment that has returned, and whose row has been delivered, leaves the subject no session at the current epoch that
is not multi-factor, but for the kept lineage. -/
theorem other_sessions_multi_factor (k : Enrolling) (a : SessionAttrs) (others : I → Beside) (w : World)
    (accounts : w.identity.Keyed) (keyed : w.mfa.Keyed)
    (run : Run (Interleave exec) (w, enrollment k a others) labels y) (returned : y.2 none = .ret ())
    (done : delivered a.subject a.lineage labels.reverse = true)
    (ordered : timely k a.subject a.lineage false labels.reverse = true) :
    ∀ s ∈ y.1.sessions, s.subject = a.subject → y.1.identity.epoch a.subject = some s.epoch →
      s.lineage ≠ a.lineage → multiFactor s.factors = true := by
  intro s member subject sealed' other
  cases current : w.identity.epoch a.subject with
  | none =>
    rw [absent_of_run run keyed accounts current] at sealed'
    cases sealed'
  | some e =>
    have ends := Obeys.follow (yields_enrolling k a) (path_of_run run none) (learned_enrolls run keyed _)
    rw [returned] at ends
    have written : stage k a.subject labels = .written := ends () rfl
    rw [epoch_of_run run accounts current, (staged_of_run run keyed).bumps, written, Option.some.injEq] at sealed'
    exact upgraded_of_run run keyed accounts current ordered done s member subject sealed'.symm other

end

namespace Sample

def noon : Time := unixEpoch + day 31

theorem lineage_length : (List.replicate 16 2 : Bytes).length = 16 := rfl

def enrolling : SessionAttrs :=
  { version := codecVersion, lineage := ⟨List.replicate 16 2, lineage_length⟩, subject := subject
    factors := [.password], credentialIDs := []
    primaryAt := noon, secondAt := 0, epoch := 0, mustChange := false, remember := false, returnTo := []
    transport := some .cookies, provider := [], createdAt := noon, claimsFetchedAt := noon }

def secret : Mfa.Enrollment := ⟨subject, ascii "123456", 1, none, 0, 0, 0, noon⟩

def enrollWorld : World := { world with mfa := (Mfa.Store.new.saveTOTP (noon) secret).1 }

theorem enrollWorld_keyed : enrollWorld.mfa.Keyed :=
  Mfa.Store.Keyed.insert (s := .new) (fun _ _ absent => nomatch absent) rfl

def totp : Enrolling := .totp factors (ascii "123456")

def fresh : Pending :=
  { Pending.zero with version := codecVersion, transport := some .cookies, expiresAt := noon + pendingTTL }

def password : Verified := ⟨subject, [.password], [], true, [], noon⟩

def passkey : Verified := ⟨subject, [.passkey, .userVerification], [1], true, [], noon⟩

def besides (v : Verified) (login : Bool) : Beside :=
  if login then .login .zero fresh v ⟨List.replicate 16 3, rfl⟩ else .delivery subject enrolling.lineage

def enrollTurns (party : Option Bool) (count : Nat) : List (Option Bool × Turn) :=
  List.replicate count (party, turn (noon))

/-- A whole enrollment, its delivery, and a login with a passkey. -/
def enrollFirst : List (Option Bool × Turn) :=
  enrollTurns none 10 ++ enrollTurns (some false) 1 ++ enrollTurns (some true) 5

/-- A login with a password that reads between the bump and the write, and starts its session after the delivery. -/
def loginBetween : List (Option Bool × Turn) :=
  enrollTurns none 8 ++ enrollTurns (some true) 4 ++ enrollTurns (some false) 1 ++ enrollTurns (some true) 1 ++
    enrollTurns none 2

end Sample

open Sample

theorem other_sessions_multi_factor_in_turn : ∃ labels y,
    Run (Interleave exec) (enrollWorld, enrollment totp enrolling (besides passkey))
      labels y ∧ y.1.sessions.length = 1 ∧ y.1.identity.epoch subject = some 1 ∧
      ∀ s ∈ y.1.sessions, s.subject = subject → y.1.identity.epoch subject = some s.epoch →
        s.lineage ≠ enrolling.lineage → multiFactor s.factors = true := by
  have run := run_schedule exec (enrollWorld, enrollment totp enrolling (besides passkey)) enrollFirst
  refine ⟨_, _, run, by decide +kernel, by decide +kernel, ?_⟩
  exact other_sessions_multi_factor totp enrolling (besides passkey) enrollWorld
    identity_keyed enrollWorld_keyed run (eq_ret_of_returned (by decide +kernel)) (by decide +kernel)
    (by decide +kernel)

theorem single_factor_session_survives : ∃ labels y,
    Run (Interleave exec) (enrollWorld, enrollment totp enrolling (besides password))
      labels y ∧ y.2 none = .ret () ∧ delivered subject enrolling.lineage labels.reverse = true ∧
      ∃ s ∈ y.1.sessions, s.subject = subject ∧ y.1.identity.epoch subject = some s.epoch ∧
        s.lineage ≠ enrolling.lineage ∧ multiFactor s.factors = false := by
  have run := run_schedule exec (enrollWorld, enrollment totp enrolling (besides password)) loginBetween
  exact ⟨_, _, run, eq_ret_of_returned (by decide +kernel), by decide +kernel, by decide +kernel⟩

end Egauth.Service
