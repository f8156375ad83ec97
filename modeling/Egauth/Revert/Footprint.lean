import Egauth.Revert.Mark
import Egauth.Service.World

/-! The calls that the bookkeeping makes, whatever it is replied: one lemma for
each program, over an arbitrary predicate on calls.
-/

set_option autoImplicit false

namespace Egauth.Revert
open Egauth.Core Identity Service Prog

structure Arms (u : User) (scope hash : Ceremony.Digest) (body : Ceremony.Body) (t : Time) (rec : Ceremony.Record) :
    Prop where
  tenant : rec.row.tenant = u.subject.tenant
  kind : rec.row.kind = .securityRevert
  handle : rec.row.handleHash = hash
  scope : rec.row.scopeHash = scope
  payload : rec.row.payload = ⟨.securityRevert, body⟩
  readable : body.valid = true
  createdAt : rec.row.createdAt = t
  expiresAt : rec.row.expiresAt = t + Ceremony.Kind.ttl .securityRevert

theorem pending_bind_ok {p bound : Pending} {sub : Subject} {st : AccountState} (ok : p.bind sub st = .ok bound) :
    bound = { p with subject := sub, epochAtBind := st.epoch } := by
  simp only [Pending.bind, ite_error_eq_ok] at ok
  obtain ⟨-, -, -, same⟩ := ok
  cases same
  rfl

theorem newRecord_ok {s : Ceremony.Spec} {rec : Ceremony.Record} (ok : Ceremony.newRecord s = .ok rec) :
    rec.row =
      { tenant := s.pending.tenant, kind := s.kind, handleHash := s.handleHash, scopeHash := s.scope.hash
        pending := s.pending, payload := s.payload, attempts := 0
        expiresAt := s.kind.expiresAt s.pending.expiresAt s.now, createdAt := s.now } := by
  simp only [Ceremony.newRecord, ite_error_eq_ok] at ok
  obtain ⟨-, -, -, -, restored⟩ := ok
  exact Ceremony.restore_ok restored

section
variable {P : Service.Call → Prop} {cfg : Config} {u : User} {t : Time} {hash : Ceremony.Digest}
  {tenant : TenantID}

theorem only_detached (clock : P .now) :
    Only P (detached cfg tenant) fun result => ∀ p, result = .ok p → p.tenant = tenant := by
  refine only_perform.mpr ⟨clock, fun now => only_value.mono ?_⟩
  intro result made p ok
  obtain ⟨rem, rfl⟩ := Pending.new_ok (made p ok)
  rfl

theorem only_revertRecord {scope : Ceremony.Scope} {body : Ceremony.Body} (clock : P .now) :
    Only P (revertRecord cfg u scope hash body t) fun result =>
      ∀ rec, result = .ok rec → Arms u scope.hash hash body t rec := by
  refine (only_detached clock).bindOk fun p tenant => only_value.bindOk fun bound made => ?_
  obtain rfl := pending_bind_ok made
  split
  · rintro rec ⟨⟩
  next payload encoded =>
    obtain ⟨readable, rfl⟩ : body.valid = true ∧ (⟨.securityRevert, body⟩ : Ceremony.Payload) = payload := by
      unfold Ceremony.encode at encoded
      split at encoded
      next readable => exact ⟨readable, Option.some.inj encoded⟩
      next => cases encoded
    refine only_value.mono fun result made rec ok => ?_
    have row := newRecord_ok (made rec ok)
    exact {
      tenant := by rw [row]; exact tenant
      kind := by rw [row]
      handle := by rw [row]
      scope := by rw [row]
      payload := by rw [row]
      readable := readable
      createdAt := by rw [row]
      expiresAt := by rw [row]; rfl }

def markBody (note : Bytes) : Ceremony.Body := .revert note SecurityEvent.identifierChanged.code

theorem only_putMark {scope : Ceremony.Digest} {note : Bytes} (clock : P .now)
    (put : ∀ rec, Arms u scope hash (markBody note) t rec → P (.put rec)) :
    Only P (putMark cfg u scope hash note t) fun _ => True := by
  refine only_value.bind (fun within made => ?_) fun _ _ => trivial
  have same : within.hash = scope := by
    have ok := made within rfl
    simp only [Ceremony.identifierScope, ite_error_eq_ok] at ok
    obtain ⟨-, same⟩ := ok
    cases same
    rfl
  refine (only_revertRecord clock).bind (fun rec arms => ?_) fun _ _ => trivial
  refine only_perform.mpr ⟨put rec (same ▸ arms rec rfl), fun reply => ?_⟩
  exact only_value.bind (fun _ _ => trivial) fun _ _ => trivial

theorem only_peekMark (peek : P (.peek tenant .securityRevert hash)) :
    Only P (peekMark tenant hash) fun _ => True := by
  refine only_perform.mpr ⟨peek, fun reply => ?_⟩
  split <;> trivial

theorem only_consumeMark
    (consume : P (.consume tenant .securityRevert hash)) : Only P (consumeMark tenant hash) fun _ => True := by
  refine only_perform.mpr ⟨consume, fun reply => ?_⟩
  split <;> trivial

theorem only_consumeLive {live : Bool}
    (consume : P (.consume tenant .securityRevert hash)) : Only P (consumeLive live tenant hash) fun _ => True := by
  unfold consumeLive
  split
  · exact only_consumeMark consume
  · trivial

theorem only_tenures {sub : Subject} (peek : ∀ i, P (.peek sub.tenant .securityRevert (tenureKey sub i))) :
    Only P (tenures sub) fun _ => True := by
  unfold tenures
  induction List.finRange revertSpans with
  | nil => trivial
  | cons i rest ih => exact (only_peekMark (peek i)).then fun _ => ih.then fun _ => trivial

theorem only_tenureRounds {note : Bytes} {rounds : Nat} (clock : P .now)
    (peek : ∀ i, P (.peek u.subject.tenant .securityRevert (tenureKey u.subject i)))
    (consume : ∀ i, P (.consume u.subject.tenant .securityRevert (tenureKey u.subject i)))
    (put : ∀ i rec, Arms u (tenureScope u.subject) (tenureKey u.subject i) (markBody note) t rec → P (.put rec)) :
    Only P (tenureRounds cfg u note t rounds) fun _ => True := by
  induction rounds with
  | zero => trivial
  | succ rounds ih =>
    refine (only_tenures peek).then fun all => (only_consumeLive (consume _)).then fun _ => ?_
    refine (only_attempt.mpr (only_putMark clock (put _))).then fun outcome => ?_
    split
    · exact ih
    · trivial
    · trivial

/-- The tenure of an address is written for its owner, from its verification to its replacement. -/
theorem only_recordTenure {ap : Applied} (clock : P .now)
    (peek : ∀ i, P (.peek u.subject.tenant .securityRevert (tenureKey u.subject i)))
    (consume : ∀ i, P (.consume u.subject.tenant .securityRevert (tenureKey u.subject i)))
    (put : ∀ i rec ends, emailChangeOf ap = some (u.email, ends) → u.emailVerifiedAt ≠ 0 → u.emailVerifiedAt < ends →
      Arms u (tenureScope u.subject) (tenureKey u.subject i) (markBody (noteTenure u.emailVerifiedAt u.email.value))
        ends rec → P (.put rec)) :
    Only P (recordTenure cfg u ap) fun _ => True := by
  unfold recordTenure
  split
  · trivial
  next old ends changed =>
    split
    · trivial
    next fits =>
      simp only [not_or, not_not] at fits
      obtain ⟨rfl, verified, before⟩ := fits
      exact only_tenureRounds clock peek consume fun i rec => put i rec ends changed verified before

end

end Egauth.Revert
