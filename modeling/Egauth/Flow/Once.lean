import Egauth.Codes.Redeem
import Egauth.Flow.Challenge
import Egauth.Mfa.Guess

/-! A parked login completes at most once, as the login that was parked.

Only the request that consumed the record completes the login, and the record
is consumed once. A charge that was the last one takes the record away, so that
nobody can consume it any more.
-/

set_option autoImplicit false

namespace Egauth.Flow
open Egauth.Core Ceremony Prog

section
variable (kk : Key) (p : Pending)

def charges : Event → Bool
  | ⟨.store c, r⟩ => Codes.charges kk ⟨c, r⟩
  | _ => false

def consumes : Event → Bool
  | ⟨.store (.consume t k h), .ok _⟩ => decide (Key.mk t k h = kk)
  | _ => false

def completes : Event → Bool
  | ⟨.complete key _ _, _⟩ => decide (key = kk)
  | _ => false

def foreign : Event → Bool
  | ⟨.store (.consume _ .mfaPasskey _), .ok rec⟩ => decide (rec.row.pending ≠ p)
  | _ => false

def Spares : Call → Prop
  | .store c => Codes.Spares kk c
  | _ => True

def Request.Fresh : Request → Prop
  | .other c => Spares kk c ∧ ∀ q v, c ≠ .complete kk q v
  | _ => True

/-- Whether a request has consumed the record and not completed its login yet, and whether it has finished a step-up
that was begun from another Pending. -/
structure Note where
  taken : Bool
  foreign : Bool

def completing : Discipline Call Reply Note where
  track g c r :=
    ⟨if consumes kk ⟨c, r⟩ then true else if completes kk ⟨c, r⟩ then false else g.taken, g.foreign || foreign p ⟨c, r⟩⟩
  learns _ c r :=
    match c, r with
    | .store (.peek t k h), .ok rec => Key.mk t k h = kk → rec.row.pending = p
    | .store (.consume t k h), .ok rec => Key.mk t k h = kk → rec.row.pending = p
    | _, _ => True
  allows g c :=
    match c with
    | .complete key q v =>
      key = kk → g.taken = true ∧ g.foreign = false ∧ q = p ∧ v.subject = p.subject ∧ p.reauthOf = .nil
    | .store (.put r) => r.row.key ≠ kk
    | _ => True

end

section
variable {kk : Key} {p : Pending} {g : Note} {cfg : Config}

structure Opened (kk : Key) (p : Pending) (f : Parked) : Prop where
  kind : f.record.kind = .mfaFlow
  first : f.pending.reauthOf = .nil
  same : f.record = kk → f.pending = p

theorem yields_openFlow (r : Presented) :
    Yields (completing kk p) g (openFlow r) fun g' f => g' = g ∧ Opened kk p f := by
  refine yields_ofExcept fun found _ => ?_
  obtain ⟨h, fromCookie⟩ := found
  refine yields_perform.mpr ⟨trivial, fun reply learned => ?_⟩
  have note : (completing kk p).track g (.store (.peek r.tenant .mfaFlow h)) reply = g := by
    simp [completing, consumes, completes, foreign]
  rw [note]
  refine yields_ofExcept fun rec found => ?_
  subst found
  dsimp only
  split_ifs with refuses other
  · exact yields_fail
  · exact yields_fail
  · have first : rec.row.pending.reauthOf = .nil := by
      by_contra reauth
      exact refuses (.inr (.inl reauth))
    exact yields_ret.mpr ⟨rfl, rfl, first, learned⟩

theorem yields_charge (f : Parked) : Yields (completing kk p) g (charge f) fun g' _ => g' = g := by
  refine yields_perform.mpr ⟨trivial, fun reply _ => yields_ret.mpr ?_⟩
  simp [completing, consumes, completes, foreign]

theorem yields_finish {f : Parked} {v : Verified} (opened : Opened kk p f) (subject : v.subject = f.pending.subject)
    (own : f.record = kk → g.foreign = false) : Yields (completing kk p) g (finish f v) fun _ _ => True := by
  refine yields_perform.mpr ⟨trivial, fun reply _ => yields_ofExcept fun rec found => ?_⟩
  subst found
  split_ifs with changed
  · exact yields_fail
  · refine yields_perform.mpr ⟨fun same => ?_, fun done _ => ?_⟩
    · have taken : consumes kk ⟨.store (.consume f.record.tenant f.record.kind f.record.handle), .ok rec⟩ = true :=
        decide_eq_true same
      have quiet : foreign p ⟨.store (.consume f.record.tenant f.record.kind f.record.handle), .ok rec⟩ = false := by
        rw [opened.kind]
        rfl
      have pending := opened.same same
      refine ⟨by simp [completing, taken], by simp [completing, quiet, own same], pending, ?_, ?_⟩
      · rw [subject, pending]
      · rw [← pending]
        exact opened.first
    · split
      · exact yields_ret.mpr trivial
      · exact yields_fail

def Call.factor : Call → Prop
  | .mfa .. => True
  | .passkey _ => True
  | _ => False

theorem yields_factor {A : Type} {q : Program A} {post : Except Problem A → Prop} (made : Only Call.factor q post) :
    Yields (completing kk p) g q fun g' a => g' = g ∧ post (.ok a) := by
  refine Yields.of_obeys (made.obeys (· = g) rfl ?_) fun g' a ends => ends
  rintro _ c rfl factor
  cases c with
  | mfa sub c => exact ⟨trivial, fun r _ => by simp [completing, consumes, completes, foreign]⟩
  | passkey c => exact ⟨trivial, fun r _ => by simp [completing, consumes, completes, foreign]⟩
  | store c => exact factor.elim
  | complete => exact factor.elim

theorem newVerified_subject {spec : VerifiedSpec} {v : Verified} (ok : newVerified spec = .ok v) :
    v.subject = spec.subject := by
  simp only [newVerified, ite_error_eq_ok] at ok
  replace ok := ok.2
  split at ok
  · cases ok
  · cases ok
    rfl

theorem yields_verify (sub : Subject) (q : Mfa.Program Time) :
    Yields (completing kk p) g (q.embed (Call.mfa sub) (fun _ r => r) : Program (Except Mfa.Problem Time))
      fun g' _ => g' = g := by
  have made : Only Call.factor (q.embed (Call.mfa sub) (fun _ r => r) : Program (Except Mfa.Problem Time)) _ :=
    (only_any q).embed fun _ _ => trivial
  exact (yields_factor made).mono fun _ _ ends => ends.1

theorem yields_refused (f : Parked) (problem : Mfa.Problem) :
    Yields (completing kk p) g (refused f problem) fun _ _ => True := by
  unfold refused
  split
  · exact (yields_charge f).bind fun _ _ _ => yields_fail
  · exact yields_fail

theorem yields_challenge (r : Challenge) (start : g.foreign = false) :
    Yields (completing kk p) g (challenge cfg r) fun _ _ => True := by
  refine yields_ofOption fun factor _ => ?_
  refine (yields_openFlow r.flow).bind fun _ f opened => ?_
  obtain ⟨rfl, opened⟩ := opened
  refine (yields_verify f.pending.subject _).bind fun _ outcome same => ?_
  subst same
  cases outcome with
  | error problem => exact yields_refused f problem
  | ok now => exact yields_ofExcept fun v minted => yields_finish opened (newVerified_subject minted) fun _ => start

theorem mint_subject {stepUp : Bool} {cred : Passkey.Credential} {a : Passkey.Assertion} {now : Time} {v : Verified}
    (minted : Passkey.mint stepUp (Passkey.factorCredential cred) a now = .ok v) : v.subject = cred.subject := by
  unfold Passkey.mint at minted
  split at minted
  · cases minted
  · exact newVerified_subject (mapError_eq_ok.mp minted)

theorem verifySubjectAssertion_subject (sub : Subject) (a : Passkey.Assertion) :
    Only (fun _ => True) (Passkey.verifySubjectAssertion sub true a) fun result =>
      ∀ v, result = .ok v → v.subject = sub := by
  have any {B : Type} (q : Passkey.Program B) :
      Only (fun _ => True) q fun result => ∀ b, result = .ok b → True := (only_any q).mono fun _ _ _ _ => trivial
  refine (any (Passkey.activeCredential sub.tenant a.rawID)).bindOk fun cred _ => ?_
  split_ifs with other
  · exact only_fail.mpr fun _ => nofun
  · refine only_perform.mpr ⟨trivial, fun valid => ?_⟩
    split_ifs with refused
    · exact only_fail.mpr fun _ => nofun
    · refine (any (Passkey.recordUse cred a)).bindOk fun _ _ => ?_
      refine only_perform.mpr ⟨trivial, fun now => ?_⟩
      cases minted : Passkey.mint true (Passkey.factorCredential cred) a now with
      | error err => exact only_fail.mpr fun _ => nofun
      | ok v =>
        refine only_ret.mpr ?_
        rintro _ ⟨⟩
        rw [← not_not.mp other]
        exact mint_subject minted

theorem yields_verifyAssertion (sub : Subject) (assertion : Option Passkey.Assertion) :
    Yields (completing kk p) g (verifyAssertion sub assertion) fun g' result =>
      g' = g ∧ ∀ v, result = .ok v → v.subject = sub := by
  cases assertion with
  | none => exact yields_ret.mpr ⟨rfl, fun _ => nofun⟩
  | some a =>
    have made : Only Call.factor (verifyAssertion sub (some a)) _ :=
      (verifySubjectAssertion_subject sub a).embed fun _ _ => trivial
    refine (yields_factor made).mono fun g' result ends => ⟨ends.1, ?_⟩
    obtain ⟨x, same, subject⟩ := ends.2
    cases same
    exact subject

/-- The note tells whether the step-up was begun from another Pending. -/
theorem yields_consumeSubjectCeremony (t : TenantID) (handle : Option Digest) :
    Yields (completing kk p) g (consumeSubjectCeremony t handle) fun g' result =>
      ∀ q sub, result = .ok (q, sub) → sub = q.subject ∧ g'.foreign = (g.foreign || decide (q ≠ p)) := by
  cases handle with
  | none => exact yields_ret.mpr fun _ _ => nofun
  | some h =>
    refine yields_perform.mpr ⟨trivial, fun reply _ => ?_⟩
    cases reply with
    | error err =>
      cases err with
      | notFound => exact yields_ret.mpr fun _ _ => nofun
      | _ => exact yields_ret.mpr fun _ _ => nofun
    | ok rec =>
      dsimp only
      split_ifs with refuses malformed
      · exact yields_ret.mpr fun _ _ => nofun
      · exact yields_ret.mpr fun _ _ => nofun
      · refine yields_ret.mpr ?_
        rintro q sub ⟨⟩
        exact ⟨rfl, rfl⟩

theorem yields_finishStepUp (r : StepUp) :
    Yields (completing kk p) g (finishStepUp r) fun g' result =>
      ∀ q v, result = .ok (q, v) → v.subject = q.subject ∧ g'.foreign = (g.foreign || decide (q ≠ p)) := by
  refine (yields_consumeSubjectCeremony r.flow.tenant r.handle).bind fun g' result begun => ?_
  cases result with
  | error problem => exact yields_ret.mpr fun _ _ => nofun
  | ok found =>
    obtain ⟨q, sub⟩ := found
    obtain ⟨rfl, note⟩ := begun q sub rfl
    dsimp only
    split_ifs with reauth
    · exact yields_ret.mpr fun _ _ => nofun
    · refine (yields_verifyAssertion q.subject r.assertion).bind fun g'' outcome verified => yields_ret.mpr ?_
      obtain ⟨rfl, subject⟩ := verified
      intro q' v same
      cases outcome with
      | error problem => cases same
      | ok v' =>
        cases same
        exact ⟨subject v rfl, note⟩

theorem yields_rejected (f : Parked) (problem : Passkey.Problem) :
    Yields (completing kk p) g (rejected f problem) fun _ _ => True := by
  cases problem with
  | passkeyRejected => exact (yields_charge f).bind fun _ _ _ => yields_fail
  | _ => exact yields_fail

theorem yields_passkeyFinish (r : StepUp) (start : g.foreign = false) :
    Yields (completing kk p) g (passkeyFinish r) fun _ _ => True := by
  refine (yields_openFlow r.flow).bind fun _ f opened => ?_
  obtain ⟨rfl, opened⟩ := opened
  refine (yields_finishStepUp r).bind fun g' result finished => ?_
  cases result with
  | error problem => exact yields_rejected f problem
  | ok found =>
    obtain ⟨q, v⟩ := found
    obtain ⟨subject, note⟩ := finished q v rfl
    change Yields _ _ (if _ then _ else _) _
    split
    · exact yields_fail
    next same =>
      have begun : q = f.pending := not_not.mp same
      refine yields_finish opened (by rw [subject, begun]) fun own => ?_
      rw [note, start, begun, opened.same own]
      simp

theorem yields_program {request : Request} (fresh : request.Fresh kk) (start : g.foreign = false) :
    Yields (completing kk p) g (request.program cfg) fun _ _ => True := by
  cases request with
  | challenge r => exact yields_challenge r start
  | passkeyFinish r => exact yields_passkeyFinish r start
  | other c =>
    refine yields_perform.mpr ⟨?_, fun _ _ => yields_ret.mpr trivial⟩
    obtain ⟨spares, incomplete⟩ := fresh
    cases c with
    | complete key q v => exact fun own => absurd (congrArg (Call.complete · q v) own) (incomplete q v)
    | mfa sub c => trivial
    | passkey c => trivial
    | store c =>
      cases c with
      | put r => exact spares
      | _ => trivial

theorem takes_of_consumes {event : Codes.Event} (consumed : consumes kk ⟨.store event.1, event.2⟩ = true) :
    Codes.takes kk event = true := by
  obtain ⟨c, r⟩ := event
  cases c with
  | consume t k h =>
    cases r with
    | ok rec => exact consumed
    | error err => cases consumed
  | _ => cases consumed

/-- A charge costs an attempt, and consuming the record costs those that are left. -/
theorem left_treats {s s' : Store} {event : Codes.Event} (intact : Codes.Intact kk p s)
    (treats : Codes.Treats kk s event s') :
    (if Codes.charges kk event then 1 else 0) + (if consumes kk ⟨.store event.1, event.2⟩ then 1 else 0) +
      Codes.left kk s' ≤ Codes.left kk s := by
  have apart : consumes kk ⟨.store event.1, event.2⟩ = true → Codes.charges kk event = false := by
    obtain ⟨c, r⟩ := event
    cases c with
    | consume t k h => exact fun _ => rfl
    | _ => exact nofun
  have once := intact.left_treats treats
  by_cases consumed : consumes kk ⟨.store event.1, event.2⟩ = true
  · rw [if_pos consumed, apart consumed]
    cases treats with
    | kept _ _ stays => exact absurd (takes_of_consumes consumed) (by simp [stays])
    | dropped _ _ stays => exact absurd (takes_of_consumes consumed) (by simp [stays])
    | charged _ _ _ stays => exact absurd (takes_of_consumes consumed) (by simp [stays])
    | taken held gone =>
      have before := (intact _ held).2
      have left : 1 ≤ Codes.left kk s := by
        simp only [Codes.left, held]
        omega
      simp only [Bool.false_eq_true, if_false, Nat.zero_add]
      simpa only [Codes.left, gone] using left
  · rw [if_neg consumed]
    exact once

theorem spares_of_allows {c : Call} (allowed : (completing kk p).allows g c) : Spares kk c := by
  cases c with
  | store c =>
    cases c with
    | put r => exact allowed
    | _ => trivial
  | _ => trivial

theorem learns_exec (o : Turn) {w : World} {c : Call} (intact : Codes.Intact kk p w.ceremonies) :
    (completing kk p).learns g c (exec cfg o w c).1 := by
  cases c with
  | store c =>
    have told : (Codes.checks kk p).learns ⟨false, false⟩ c (Codes.exec cfg.codes o.store w.ceremonies c).1 :=
      Codes.learns_exec o.store intact
    change (completing kk p).learns g (.store c) (Codes.exec cfg.codes o.store w.ceremonies c).1
    generalize (Codes.exec cfg.codes o.store w.ceremonies c).1 = reply at told
    cases c with
    | peek t k h =>
      cases reply with
      | ok rec => exact told
      | error err => trivial
    | consume t k h =>
      cases reply with
      | ok rec => exact told
      | error err => trivial
    | _ => trivial
  | mfa sub c => trivial
  | passkey c => trivial
  | complete => trivial

/-- What one call does to the record: it costs attempts, and consumes the record once. -/
structure Spends (kk : Key) (p : Pending) (s : Store) (event : Event) (s' : Store) : Prop where
  intact : Codes.Intact kk p s'
  left : (if charges kk event then 1 else 0) + (if consumes kk event then 1 else 0) + Codes.left kk s' ≤ Codes.left kk s
  present : (if consumes kk event then 1 else 0) + (if (s'.rows.lookup kk).isSome then 1 else 0) ≤
    if (s.rows.lookup kk).isSome then 1 else 0

theorem spends_exec (o : Turn) {w : World} {c : Call} (spares : Spares kk c)
    (intact : Codes.Intact kk p w.ceremonies) :
    Spends kk p w.ceremonies ⟨c, (exec cfg o w c).1⟩ (exec cfg o w c).2.ceremonies := by
  have spent : 0 + 0 + Codes.left kk w.ceremonies ≤ Codes.left kk w.ceremonies := by omega
  have present : 0 + (if (w.ceremonies.rows.lookup kk).isSome then 1 else 0) ≤
      if (w.ceremonies.rows.lookup kk).isSome then 1 else 0 := by omega
  cases c with
  | store c =>
    have treats := Codes.treats_exec (s := w.ceremonies) cfg.codes o.store spares
    refine ⟨intact.treats treats, left_treats intact treats, le_trans (Nat.add_le_add_right ?_ _) treats.present⟩
    split
    · rename_i consumed
      rw [if_pos (takes_of_consumes consumed)]
    · exact Nat.zero_le _
  | mfa sub c => exact ⟨intact, spent, present⟩
  | passkey c => exact ⟨intact, spent, present⟩
  | complete => exact ⟨intact, spent, present⟩

theorem budget_of_run {I : Type} [DecidableEq I] {x y : World × (I → Program Unit)} {labels : List (I × Event)}
    (run : Run (Interleave (exec cfg)) x labels y) (made : ∀ label ∈ labels, Spares kk label.2.1)
    (intact : Codes.Intact kk p x.1.ceremonies) :
    Codes.Intact kk p y.1.ceremonies ∧
      (labels.countP fun label => charges kk label.2) + (labels.countP fun label => consumes kk label.2) +
        Codes.left kk y.1.ceremonies ≤ Codes.left kk x.1.ceremonies ∧
      (labels.countP fun label => consumes kk label.2) + (if (y.1.ceremonies.rows.lookup kk).isSome then 1 else 0) ≤
        if (x.1.ceremonies.rows.lookup kk).isSome then 1 else 0 := by
  induction run with
  | nil => exact ⟨intact, by simp, by simp⟩
  | @snoc mid after labels label _ last ih =>
    obtain ⟨o, -, -, replied, -⟩ := last
    obtain ⟨now, spent, taken⟩ := ih fun label member => made label (List.mem_append_left _ member)
    have step : Spends kk p mid.1.ceremonies ⟨label.2.1, (exec cfg o mid.1 label.2.1).1⟩
        (exec cfg o mid.1 label.2.1).2.ceremonies := spends_exec o (made label (by simp)) now
    rw [replied] at step
    obtain ⟨intact, left, present⟩ : Spends kk p mid.1.ceremonies label.2 after.1.ceremonies := step
    refine ⟨intact, ?_, ?_⟩
    · simp only [List.countP_append, List.countP_singleton]
      omega
    · simp only [List.countP_append, List.countP_singleton]
      omega

/-- A request completes the login only after consuming the record, once for each time. -/
theorem completes_le_consumes {events : List Event} (permitted : Permitted (completing kk p) g events) :
    events.countP (completes kk) + (if (follow (completing kk p) g events).taken then 1 else 0) ≤
      events.countP (consumes kk) + if g.taken then 1 else 0 := by
  induction events generalizing g with
  | nil => exact le_refl _
  | cons event events ih =>
    have rest := ih permitted.2
    have step : (if completes kk event then 1 else 0) +
        (if ((completing kk p).track g event.1 event.2).taken then 1 else 0) ≤
          (if consumes kk event then 1 else 0) + if g.taken then 1 else 0 := by
      obtain ⟨c, r⟩ := event
      cases c with
      | complete key q v =>
        by_cases own : key = kk
        · have taken : g.taken = true := (permitted.1 own).1
          simp [completing, consumes, completes, own, taken]
        · simp [completing, consumes, completes, own]
      | store c =>
        have other : completes kk ⟨.store c, r⟩ = false := rfl
        by_cases consumed : consumes kk ⟨.store c, r⟩ = true
        · simp [completing, consumed, other]
        · simp [completing, consumed, other]
      | mfa sub c => simp [completing, consumes, completes]
      | passkey c => simp [completing, consumes, completes]
    rw [List.countP_cons, List.countP_cons]
    change _ + (if (follow (completing kk p) ((completing kk p).track g event.1 event.2) events).taken then 1 else 0) ≤ _
    omega

theorem follow_foreign (events : List Event) :
    (follow (completing kk p) g events).foreign = (g.foreign || events.any (foreign p)) := by
  induction events generalizing g with
  | nil => simp [follow]
  | cons event events ih =>
    have later := ih (g := (completing kk p).track g event.1 event.2)
    rw [List.any_cons, ← Bool.or_assoc]
    exact later

end

/-- However the requests interleave, with whatever clock readings and evictions: the login of a record is completed
once at most, with the Pending it was parked with and as its subject, never by a request that finished a step-up of
another Pending, and not at all where failures were charged as often as the kind allows. -/
theorem parked_login_completes_once {I : Type} [DecidableEq I] (cfg : Config) (w : World) (clk : Time) (r : Record)
    {n : Nat} (parked : r.row.kind = .mfaFlow) (stored : (w.ceremonies.put clk r).2 = .ok n) (requests : I → Request)
    (fresh : ∀ i, (requests i).Fresh r.row.key) {labels : List (I × Event)} {y : World × (I → Program Unit)}
    (run : Run (Interleave (exec cfg))
      ({ w with ceremonies := (w.ceremonies.put clk r).1 }, fun i => (requests i).program cfg) labels y) :
    (labels.countP fun label => completes r.row.key label.2) ≤ 1 ∧
      (∀ before after i q v done, labels = before ++ (i, ⟨.complete r.row.key q v, done⟩) :: after →
        q = r.row.pending ∧ v.subject = r.row.pending.subject ∧ r.row.pending.reauthOf = .nil ∧
          ∀ t h rec, ⟨.store (.consume t .mfaPasskey h), .ok rec⟩ ∈ own i before → rec.row.pending = r.row.pending) ∧
      (Kind.mfaFlow.maxAttempts ≤ ((labels.countP fun label => charges r.row.key label.2 : Nat) : Int) →
        (labels.countP fun label => completes r.row.key label.2) = 0) := by
  obtain ⟨intact, attempts⟩ := Codes.intact_put stored
  have yields (i : I) : Yields (completing r.row.key r.row.pending) ⟨false, false⟩ ((requests i).program cfg) _ :=
    yields_program (fresh i) rfl
  obtain ⟨-, learned⟩ := learned_of_allowed (fun w => Codes.Intact r.row.key r.row.pending w.ceremonies) run yields
    intact (fun o w c g allowed now => (spends_exec o (spares_of_allows allowed) now).intact)
    fun o w c g _ now => learns_exec o now
  have made (label : I × Event) (member : label ∈ labels) : Spares r.row.key label.2.1 := by
    obtain ⟨g, allowed⟩ := allowed_of_run run yields learned label member
    exact spares_of_allows allowed
  have permitted (i : I) : Permitted (completing r.row.key r.row.pending) ⟨false, false⟩ (own i labels) :=
    (yields i).permitted (path_of_run run i) (learned i)
  obtain ⟨-, spent, taken⟩ := budget_of_run run made intact
  have consumed : (labels.countP fun label => completes r.row.key label.2) ≤
      labels.countP fun label => consumes r.row.key label.2 := by
    refine countP_le_of_own fun i => ?_
    have uses := completes_le_consumes (permitted i)
    simp only [Bool.false_eq_true, if_false, Nat.add_zero] at uses
    omega
  refine ⟨?_, fun before after i q v done split => ?_, fun charged => ?_⟩
  · have once : (if ((w.ceremonies.put clk r).1.rows.lookup r.row.key).isSome then 1 else 0) ≤ 1 := by
      split <;> simp
    dsimp only at taken
    omega
  · have own' : own i labels = own i before ++ ⟨.complete r.row.key q v, done⟩ :: own i after := by
      rw [split, own_append]
      simp [own]
    have earlier := permitted i
    rw [own', permitted_append] at earlier
    obtain ⟨-, quiet, pending, subject, first⟩ := earlier.2.1 rfl
    refine ⟨pending, subject, first, fun t h rec member => ?_⟩
    rw [follow_foreign, Bool.false_or, List.any_eq_false] at quiet
    by_contra differs
    exact quiet _ member (decide_eq_true differs)
  · dsimp only at spent
    rw [parked] at attempts
    omega

namespace Sample

def config : Config := ⟨Codes.Sample.config, Mfa.Sample.config⟩

def noon : Time := unixEpoch + Mfa.Sample.day 31

def row : Row :=
  { tenant := .zero, kind := .mfaFlow, handleHash := .handle [1], scopeHash := .user Subject.sample.user
    pending := { Pending.zero with version := codecVersion, subject := .sample, expiresAt := noon + pendingTTL }
    payload := ⟨.mfaFlow, .empty⟩, attempts := 0, expiresAt := noon + 5 * Duration.minute, createdAt := noon }

def record : Record := ⟨row, by decide +kernel⟩

def world : World := ⟨.new, Mfa.Sample.start, ⟨∅⟩⟩

def requests (app : Bool) : Request :=
  .challenge ⟨⟨.zero, some (some (.handle [1])), none⟩, some (if app then .totp else .recovery),
    if app then ascii "123456" else ascii "GOOD"⟩

def turn : Turn :=
  ⟨⟨noon, false⟩, Mfa.Sample.turn noon, ⟨noon, false, true, false, ⟨true, false, false, false, true, 0⟩⟩, true⟩

def turns (app : Bool) (count : Nat) : List (Bool × Turn) := List.replicate count (app, turn)

/-- Both requests verify their code before either consumes the record. -/
def race : List (Bool × Turn) := turns false 6 ++ turns true 7 ++ turns false 2 ++ turns true 1

def started : World × (Bool → Program Unit) :=
  ({ world with ceremonies := (world.ceremonies.put noon record).1 }, fun i => (requests i).program config)

def raced : List (Bool × Event) × World × (Bool → Program Unit) := schedule (exec config) started race

/-- The login was completed with the Pending that was parked, and the other request found no record. -/
def won (label : Bool × Event) : Bool :=
  match label with
  | (false, ⟨.complete key q v, done⟩) =>
    decide (key = row.key ∧ q = row.pending ∧ v.subject = row.pending.subject ∧ done = true)
  | _ => false

end Sample

open Sample

/-- Two requests whose codes were both right complete the login once. -/
theorem parked_login_completes_once_race : ∃ labels y,
    Run (Interleave (exec config)) started labels y ∧ labels.length = 16 ∧ (∃ label ∈ labels, won label = true) ∧
      (labels.countP fun label => completes row.key label.2) ≤ 1 ∧
      ((labels.countP fun label => charges row.key label.2 : Nat) : Int) < 5 := by
  have run := run_schedule (exec config) started race
  have once := parked_login_completes_once config world noon record (n := 0) rfl
    (by decide +kernel) requests (fun _ => trivial) run
  refine ⟨raced.1, raced.2, run, by decide +kernel, ?_, once.1, by decide +kernel⟩
  have found : raced.1.any won = true := by decide +kernel
  exact List.any_eq_true.mp found

end Egauth.Flow
