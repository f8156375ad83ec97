import Egauth.Identity.Commit
import Egauth.Semantics.Run
import Mathlib.Data.List.TakeWhile

/-! The security epochs and their log.

Every call that changes an epoch appends a row with a new position; a row names
the subject of the change. Erasing an account changes its answer without a row,
and erasing a tenant or reaping removes rows.
-/

set_option autoImplicit false

namespace Egauth.Identity
open Egauth.Core

inductive Op where
  | apply (ctx : Nat) (newID : Option UUID) (m : Mutation)
  | recordPasswordFailure (sub : Subject) (p : LockoutPolicy)
  | resetPasswordFailures (sub : Subject)
  | ackOutbox (id : Int)
  | failOutbox (id : Int) (next : Time)
  | eraseUser (sub : Subject)
  | eraseTenant (t : TenantID)
  | reapExpired

def Op.Lasting : Op → Prop
  | .eraseUser _ | .eraseTenant _ | .reapExpired => False
  | _ => True

structure Call where
  clk : Time
  op : Op

def Account.phc (a : Account) : Option PasswordHash := a.password.map Password.phc

theorem Password.phc_decay (pw : Password) (now : Time) (window : Duration) : (pw.decay now window).phc = pw.phc := by
  unfold decay
  split
  · rfl
  · split <;> rfl

namespace Store

def perform (s : Store) (call : Call) : Store :=
  match call.op with
  | .apply ctx newID m => (s.apply call.clk ctx newID m).1
  | .recordPasswordFailure sub p => (s.recordPasswordFailure call.clk sub p).1
  | .resetPasswordFailures sub => (s.resetPasswordFailures sub).1
  | .ackOutbox id => (s.ackOutbox call.clk id).1
  | .failOutbox id next => (s.failOutbox id next).1
  | .eraseUser sub => (s.eraseUser sub).1
  | .eraseTenant t => s.eraseTenant t
  | .reapExpired => (s.reapExpired call.clk).1

/-- Ids that `uuid.NewV7` picks are not those of stored accounts. -/
def Picks (s : Store) (newID : Option UUID) (m : Mutation) : Prop :=
  match newID, m with
  | some id, .createVerified tenant .. => s.accounts.lookup ⟨tenant, id⟩ = none
  | _, _ => True

def Admits (s : Store) (call : Call) : Prop :=
  match call.op with
  | .apply _ newID m => s.Picks newID m
  | _ => True

def epoch (s : Store) (k : Subject) : Option UInt64 := (s.accounts.lookup k).map fun a => a.user.securityEpoch

theorem currentEpoch_ok {s : Store} {k : Subject} {e : UInt64} : s.currentEpoch k = .ok e ↔ s.epoch k = some e := by
  unfold currentEpoch existing epoch
  cases s.accounts.lookup k with
  | none => exact ⟨nofun, nofun⟩
  | some a => simp

def Logs (s : Store) (cursor : Nat) (k : Subject) : Prop := ∃ r ∈ s.epochs, cursor < r.seq ∧ r.change.subject = k

/-- Accounts are stored under their subjects, and the log is in the order of its positions. -/
structure Logged (s : Store) : Prop where
  keyed : s.Keyed
  sorted : s.epochs.Pairwise fun a b => a.seq < b.seq
  bounded : ∀ r ∈ s.epochs, r.seq ≤ s.epochSeq

theorem Logged.new : Logged .new := ⟨by simp [Keyed, Store.new], .nil, nofun⟩

variable {s : Store} {newID : Option UUID} {sub : Subject} {a : Account}

theorem epoch_insert {a' : Account} (found : s.accounts.lookup sub = some a)
    (same : a'.user = a.user) (k : Subject) :
    ({ s with accounts := s.accounts.insert sub a' } : Store).epoch k = s.epoch k := by
  unfold epoch
  by_cases own : k = sub
  · subst own
    simp [found, same]
  · simp [AList.lookup_insert_ne own]

theorem Keyed.insert (keyed : s.Keyed) (own : a.user.subject = sub) :
    ∀ k a', (s.accounts.insert sub a).lookup k = some a' → a'.user.subject = k := by
  intro k a' found
  rw [Map.lookup_insert_eq] at found
  split at found
  next same =>
    cases found
    rw [own, same]
  next => exact keyed k a' found

theorem existing_ok (found : s.existing sub = .ok a) :
    s.accounts.lookup sub = some a := by
  unfold existing at found
  split at found
  · cases found
  next a' stored =>
    cases found
    exact stored

theorem recordPasswordFailure_cases (s : Store) (clk : Time) (sub : Subject) (p : LockoutPolicy) :
    (s.recordPasswordFailure clk sub p).1 = s ∨ ∃ a a', s.accounts.lookup sub = some a ∧ a'.user = a.user ∧
      a'.phc = a.phc ∧ (s.recordPasswordFailure clk sub p).1 = { s with accounts := s.accounts.insert sub a' } := by
  unfold recordPasswordFailure
  split
  · exact .inl rfl
  split
  · exact .inl rfl
  next a found =>
    split
    · exact .inl rfl
    next pw stored =>
      refine .inr ⟨a, _, existing_ok found, (by rfl), ?_, rfl⟩
      simp only [Account.phc, stored, Option.map_some]
      split <;> exact congrArg some (pw.phc_decay _ _)

theorem resetPasswordFailures_cases (s : Store) (sub : Subject) :
    (s.resetPasswordFailures sub).1 = s ∨ ∃ a a', s.accounts.lookup sub = some a ∧ a'.user = a.user ∧
      a'.phc = a.phc ∧ (s.resetPasswordFailures sub).1 = { s with accounts := s.accounts.insert sub a' } := by
  unfold resetPasswordFailures
  split
  · exact .inl rfl
  next a found =>
    split
    · exact .inl rfl
    next pw stored => exact .inr ⟨a, _, existing_ok found, (by rfl), by simp [Account.phc, stored], rfl⟩

theorem epoch_commit (keyed : s.Keyed) {tx : Txn} (evicts : s.Evicts tx.subject tx.evicted) (k : Subject) :
    (tx.commit s).epoch k = if k = tx.subject then some tx.acc.user.securityEpoch else s.epoch k := by
  unfold epoch
  rw [lookup_commit]
  have unevicted : ((if k = tx.subject then some tx.acc else s.accounts.lookup k).map fun a => a.user.securityEpoch) =
      if k = tx.subject then some tx.acc.user.securityEpoch else (s.accounts.lookup k).map fun a => a.user.securityEpoch := by
    split <;> rfl
  cases evicted : tx.evicted with
  | none => exact unevicted
  | some a =>
    -- The evicted account keeps its user, and so its key and its epoch.
    obtain ⟨k', owner, stored, other, -, same, -, -⟩ := evicts a evicted
    by_cases own : a.user.subject = k
    · obtain rfl : k' = k := (keyed k' owner stored).symm.trans (same ▸ own)
      have apart : k' ≠ tx.subject := by
        rintro rfl
        exact other (keyed _ owner stored)
      simp [Option.filter_some, own, apart, stored, ← same]
    · simpa [Option.filter_some, own] using unevicted

theorem Keyed.commit (keyed : s.Keyed) {tx : Txn} (own : tx.acc.user.subject = tx.subject) :
    (tx.commit s).Keyed := by
  intro k a found
  rw [lookup_commit, Option.or_eq_some_iff, Option.filter_eq_some_iff] at found
  rcases found with ⟨-, same⟩ | ⟨-, found⟩
  · exact of_decide_eq_true same
  · split at found
    next same =>
      cases found
      rw [own, same]
    next => exact keyed k a found

/-- A mutation keeps the log; it changes at most the epoch of its subject, and then logs it. -/
structure Advances (s t : Store) : Prop where
  logged : t.Logged
  seq : s.epochSeq ≤ t.epochSeq
  kept : ∀ r ∈ s.epochs, r ∈ t.epochs
  named : ∀ k e, s.epoch k = some e → t.epoch k = some e ∨ t.Logs s.epochSeq k

theorem Advances.refl (logged : s.Logged) : s.Advances s :=
  ⟨logged, le_rfl, fun _ => id, fun _ _ => .inl⟩

theorem Advances.write (logged : s.Logged) {a' : Account} (found : s.accounts.lookup sub = some a)
    (same : a'.user = a.user) : s.Advances { s with accounts := s.accounts.insert sub a' } where
  logged :=
    { keyed := logged.keyed.insert (by rw [same]; exact logged.keyed sub a found)
      sorted := logged.sorted
      bounded := logged.bounded }
  seq := le_rfl
  kept _ := id
  named k e current := .inl (by rw [epoch_insert found same]; exact current)

theorem Advances.of_eq {t : Store} (logged : s.Logged) (accounts : t.accounts = s.accounts)
    (epochSeq : t.epochSeq = s.epochSeq) (epochs : t.epochs = s.epochs) : s.Advances t where
  logged :=
    { keyed := by
        unfold Keyed
        rw [accounts]
        exact logged.keyed
      sorted := epochs ▸ logged.sorted
      bounded := by
        rw [epochs, epochSeq]
        exact logged.bounded }
  seq := epochSeq.ge
  kept _ := by
    rw [epochs]
    exact id
  named k e current := .inl (by rw [epoch, accounts]; exact current)

/-- What the subject answered before, if anything, is the epoch the mutation began with. -/
theorem Begins.epoch_eq {m : Mutation} {epoch e : UInt64}
    (begins : s.Begins newID m sub epoch) (fresh : s.Picks newID m) (current : s.epoch sub = some e) :
    e = epoch := by
  cases begins with
  | loaded named found kept =>
    simp only [Store.epoch, found, Option.map_some, Option.some.injEq] at current
    exact current.symm
  | created picked =>
    subst picked
    simp [Store.epoch, show s.accounts.lookup _ = none from fresh] at current

theorem Advances.commit (logged : s.Logged) {now : Time} {m : Mutation} {tx : Txn}
    (wrote : s.Wrote now newID m tx) (fresh : s.Picks newID m) : s.Advances (tx.commit s) := by
  obtain ⟨epoch, begins, row⟩ := wrote.epoch
  have keyed := logged.keyed.commit wrote.subject
  split at row
  next bumps =>
    -- The row is numbered past every stored one and names the subject.
    obtain ⟨-, seq, epochs⟩ := row
    have log : (tx.commit s).epochs = s.epochs ++ tx.epochs := rfl
    refine ⟨⟨keyed, ?_, ?_⟩, ?_, ?_, ?_⟩
    · rw [log, epochs, List.pairwise_append]
      refine ⟨logged.sorted, List.pairwise_singleton _ _, fun a member b last => ?_⟩
      rw [List.mem_singleton.mp last]
      exact Nat.lt_succ_of_le (logged.bounded a member)
    · intro r member
      rw [log, epochs] at member
      show r.seq ≤ tx.epochSeq
      rw [seq]
      rcases List.mem_append.mp member with old | last
      · exact Nat.le_succ_of_le (logged.bounded r old)
      · rw [List.mem_singleton.mp last]
    · exact (Nat.le_succ _).trans seq.ge
    · exact fun r member => List.mem_append_left _ member
    · intro k e current
      by_cases own : k = tx.subject
      · subst own
        refine .inr ⟨_, List.mem_append_right _ (epochs ▸ List.mem_singleton_self _), Nat.lt_succ_self _, rfl⟩
      · exact .inl (by rw [epoch_commit logged.keyed wrote.evicts, if_neg own, current])
  next =>
    -- Without a bump the account keeps the epoch the mutation began with.
    obtain ⟨same, seq, epochs⟩ := row
    have log : (tx.commit s).epochs = s.epochs := by
      show s.epochs ++ tx.epochs = s.epochs
      rw [epochs, List.append_nil]
    refine ⟨⟨keyed, log ▸ logged.sorted, ?_⟩, seq.ge, fun r member => log ▸ member, ?_⟩
    · rw [log]
      show ∀ r ∈ s.epochs, r.seq ≤ tx.epochSeq
      rw [seq]
      exact logged.bounded
    · intro k e current
      refine .inl ?_
      rw [epoch_commit logged.keyed wrote.evicts]
      split
      next own =>
        subst own
        rw [same, begins.epoch_eq fresh current]
      next => exact current

theorem apply_advances (logged : s.Logged) (clk : Time) (ctx : Nat) {m : Mutation}
    (fresh : s.Picks newID m) : s.Advances (s.apply clk ctx newID m).1 := by
  unfold apply
  split
  · exact .refl logged
  next tx applied ok => exact .commit logged (transact_wrote logged.keyed ok) fresh

theorem eraseUser_cases (s : Store) (sub : Subject) :
    (∃ err, s.eraseUser sub = (s, .error err)) ∨
      s.eraseUser sub = ({ s with accounts := s.accounts.erase sub }, .ok ()) := by
  unfold eraseUser
  split
  · exact .inl ⟨_, rfl⟩
  split
  · exact .inl ⟨_, rfl⟩
  split
  · exact .inl ⟨_, rfl⟩
  · exact .inr rfl

theorem Logged.of_sub {t : Store} (logged : s.Logged)
    (accounts : ∀ k a, t.accounts.lookup k = some a → s.accounts.lookup k = some a)
    (epochs : t.epochs.Sublist s.epochs) (seq : t.epochSeq = s.epochSeq) : t.Logged where
  keyed k a found := logged.keyed k a (accounts k a found)
  sorted := logged.sorted.sublist epochs
  bounded r member := by
    rw [seq]
    exact logged.bounded r (epochs.subset member)

variable {call : Call}

theorem perform_advances (logged : s.Logged) (admits : s.Admits call) (lasting : call.op.Lasting) :
    s.Advances (s.perform call) := by
  obtain ⟨clk, op⟩ := call
  cases op with
  | apply ctx newID m => exact apply_advances logged clk ctx admits
  | recordPasswordFailure sub p =>
    rcases s.recordPasswordFailure_cases clk sub p with same | ⟨a, a', found, user, -, result⟩
    · simpa only [perform, same] using Advances.refl logged
    · simpa only [perform, result] using Advances.write logged found user
  | resetPasswordFailures sub =>
    rcases s.resetPasswordFailures_cases sub with same | ⟨a, a', found, user, -, result⟩
    · simpa only [perform, same] using Advances.refl logged
    · simpa only [perform, result] using Advances.write logged found user
  | ackOutbox id =>
    simp only [perform, ackOutbox]
    split
    · exact .refl logged
    · split <;> exact .of_eq logged rfl rfl rfl
  | failOutbox id next =>
    simp only [perform, failOutbox]
    split
    · exact .refl logged
    · split <;> exact .of_eq logged rfl rfl rfl
  | eraseUser | eraseTenant | reapExpired => cases lasting

/-- A call that erases or reaps adds nothing and numbers nothing. -/
theorem perform_erases (s : Store) (erases : ¬call.op.Lasting) :
    (∀ k a, (s.perform call).accounts.lookup k = some a → s.accounts.lookup k = some a) ∧
      (s.perform call).epochs.Sublist s.epochs ∧ (s.perform call).epochSeq = s.epochSeq := by
  obtain ⟨clk, op⟩ := call
  cases op with
  | eraseUser sub =>
    rcases s.eraseUser_cases sub with ⟨err, result⟩ | result
    · simp only [perform, result]
      exact ⟨fun _ _ => id, List.Sublist.refl _, trivial⟩
    · simp only [perform, result]
      refine ⟨fun k a found => ?_, List.Sublist.refl _, trivial⟩
      rw [Map.lookup_erase_eq] at found
      split at found
      · cases found
      · exact found
  | eraseTenant t =>
    refine ⟨fun k a found => ?_, List.filter_sublist, rfl⟩
    simp only [perform, eraseTenant, Map.lookup_eraseWhere] at found
    split at found
    · cases found
    · exact found
  | reapExpired => exact ⟨fun _ _ => id, List.filter_sublist, rfl⟩
  | _ => exact absurd trivial erases

theorem perform_logged (logged : s.Logged) (admits : s.Admits call) : (s.perform call).Logged := by
  by_cases lasting : call.op.Lasting
  · exact (perform_advances logged admits lasting).logged
  · obtain ⟨accounts, epochs, seq⟩ := s.perform_erases lasting
    exact logged.of_sub accounts epochs seq

theorem perform_seq_le (logged : s.Logged) (admits : s.Admits call) :
    s.epochSeq ≤ (s.perform call).epochSeq := by
  by_cases lasting : call.op.Lasting
  · exact (perform_advances logged admits lasting).seq
  · exact (s.perform_erases lasting).2.2.ge

/-- A page holds every row past the cursor, or ends before one that it leaves out. -/
theorem mem_epochsChangedSince (logged : s.Logged) {cursor : Nat} {r : EpochRow} (member : r ∈ s.epochs)
    (after : cursor < r.seq) : r.change ∈ (s.epochsChangedSince cursor).1 ∨
      ((s.epochsChangedSince cursor).1.length ≠ 0 ∧ (s.epochsChangedSince cursor).2 > cursor ∧
        (s.epochsChangedSince cursor).2 < r.seq) := by
  dsimp only [epochsChangedSince]
  have pending : r ∈ s.epochs.filter fun r => cursor < r.seq := by simp [member, after]
  have sorted : (s.epochs.filter fun r => cursor < r.seq).Pairwise fun a b => a.seq < b.seq :=
    logged.sorted.sublist List.filter_sublist
  have past : ∀ x ∈ s.epochs.filter fun r => cursor < r.seq, cursor < x.seq := by
    intro x found
    simpa using (List.mem_filter.mp found).2
  generalize s.epochs.filter (fun r => cursor < r.seq) = rows at pending sorted past
  rw [← List.take_append_drop feedPage rows] at pending sorted
  rcases List.mem_append.mp pending with listed | left
  · exact .inl (List.mem_map.mpr ⟨r, listed, rfl⟩)
  · -- The row is past the page, so the page is full and its last row comes before.
    cases last : (rows.take feedPage).getLast? with
    | none =>
      rw [List.getLast?_eq_none_iff, List.take_eq_nil_iff] at last
      rcases last with impossible | empty
      · cases impossible
      · simp [empty] at left
    | some final =>
      have found := List.mem_of_getLast? last
      refine .inr ⟨?_, past final (List.mem_of_mem_take found), (List.pairwise_append.mp sorted).2.2 final found r left⟩
      rw [List.length_map]
      exact fun empty => by simp [List.length_eq_zero_iff.mp empty] at found

theorem epochsChangedSince_le (logged : s.Logged) {cursor : Nat} (advanced : (s.epochsChangedSince cursor).2 > cursor) :
    (s.epochsChangedSince cursor).2 ≤ s.epochSeq := by
  dsimp only [epochsChangedSince] at advanced ⊢
  cases last : ((s.epochs.filter fun r => cursor < r.seq).take feedPage).getLast? with
  | none => simp [last] at advanced
  | some r =>
    have member := List.mem_of_mem_take (List.mem_of_getLast? last)
    exact logged.bounded r (List.mem_of_mem_filter member)

end Store
end Egauth.Identity
