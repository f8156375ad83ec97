import Egauth.Identity.Passwords

/-! What a committed mutation leaves: the account it names, rewritten, the rows
it queued, and everything else as it was.
-/

set_option autoImplicit false

namespace Egauth.Identity
open Egauth.Core

namespace Store
variable {s s' : Store} {newID : Option UUID} {m : Mutation} {clk : Time} {ap : Applied} {ctx : Nat}

/-- Another account keeps its user and its password; it can lose links, once it is deleted. -/
def Spares (s s' : Store) (k : Subject) : Prop :=
  s'.accounts.lookup k = s.accounts.lookup k ∨ ∃ b b', s.accounts.lookup k = some b ∧ b.user.deletedAt ≠ 0 ∧
    s'.accounts.lookup k = some b' ∧ b'.user = b.user ∧ b'.password = b.password ∧ b'.links.Sublist b.links

/-- What a mutation leaves of the store, when it wrote the account `a` that it found. -/
structure Applies (s : Store) (now : Time) (m : Mutation) (s' : Store) (ap : Applied) (a a' : Account) : Prop where
  found : s.accounts.lookup (subjectOf m) = some a
  kept : a.user.deletedAt = 0
  left : s'.accounts.lookup (subjectOf m) = some a'
  user : a'.user = { (rewritten now m a).user with
    securityEpoch := a.user.securityEpoch + if (effectsOf m).bumpsEpoch then 1 else 0 }
  password : a'.password = (rewritten now m a).password
  links : m.adds = false → a'.links = (rewritten now m a).links
  epoch : ap.newEpoch = a'.user.securityEpoch
  rows : ap.outbox = numbered s.outboxSeq now (outboxFor m (subjectOf m) (replaced m a))
  queued : s'.outbox = s.outbox ++ ap.outbox.map ({ item := · })
  seq : s'.outboxSeq = s.outboxSeq + ap.outbox.length
  others : ∀ k, k ≠ subjectOf m → s.Spares s' k

theorem keyed_apply (keyed : s.Keyed) (ok : s.apply clk ctx newID m = (s', .ok ap)) : s'.Keyed := by
  obtain ⟨tx, transacted, rfl⟩ := apply_ok ok
  exact keyed.commit (transact_wrote keyed transacted).subject

theorem Keyed.apply (keyed : s.Keyed) (clk : Time) (ctx : Nat) (newID : Option UUID) (m : Mutation) :
    (s.apply clk ctx newID m).1.Keyed := by
  cases applied : s.apply clk ctx newID m with
  | mk t result =>
    cases result with
    | ok ap => exact keyed_apply keyed applied
    | error err => exact apply_error applied ▸ keyed

theorem Commits.left {sub : Subject} {before evicted : Option Account} {after : Account}
    (commits : s.Commits clk.truncate newID m s' ap sub before after evicted) :
    s'.accounts.lookup sub = some (after.bumped m) := by
  rw [commits.accounts, if_pos rfl]
  cases taken : evicted with
  | none => rfl
  | some b =>
    obtain ⟨-, owner, -, other, -, user, -, -⟩ := commits.writes.evicts b taken
    simp [Option.filter_some, user, other]

theorem Commits.spares {sub : Subject} {before evicted : Option Account} {after : Account} (keyed : s.Keyed)
    (commits : s.Commits clk.truncate newID m s' ap sub before after evicted) {k : Subject} (other : k ≠ sub) :
    s.Spares s' k := by
  unfold Spares
  rw [commits.accounts, if_neg other]
  cases taken : evicted with
  | none => exact .inl rfl
  | some b =>
    obtain ⟨k', owner, stored, -, deleted, user, password, links⟩ := commits.writes.evicts b taken
    by_cases own : b.user.subject = k
    · obtain rfl : k' = k := (keyed k' owner stored).symm.trans (user ▸ own)
      exact .inr ⟨owner, b, stored, deleted, by simp [Option.filter_some, own], user, password, links⟩
    · exact .inl (by simp [Option.filter_some, own])

theorem apply_loaded (keyed : s.Keyed) (loads : m.loads = true) (ok : s.apply clk ctx newID m = (s', .ok ap)) :
    ∃ a a', s.Applies clk.truncate m s' ap a a' := by
  obtain ⟨sub, before, after, evicted, commits⟩ := apply_commits ok
  have left := commits.left
  have others : ∀ k, k ≠ sub → s.Spares s' k := fun k => commits.spares keyed
  have rows := commits.rows
  have epoch := commits.applied.2
  cases commits.writes with
  | amended plain found kept frees =>
    refine ⟨_, _, found, kept, left, ?_, rfl, fun _ => rfl, epoch, rows, commits.outbox, commits.outboxSeq, others⟩
    simp only [Account.bumped, epoch_rewritten]
  | linked found kept joins =>
    refine ⟨_, _, found, kept, left, rfl, rfl, ?_, epoch, rows, commits.outbox, commits.outboxSeq, others⟩
    intro plain
    cases plain
  | created => cases loads

theorem apply_created (keyed : s.Keyed) (creates : m.loads = false) (ok : s.apply clk ctx newID m = (s', .ok ap)) :
    ∃ tenant email phc mustChange federated id a',
      m = .createVerified tenant email phc mustChange federated ∧ newID = some id ∧
        s'.accounts.lookup ⟨tenant, id⟩ = some a' ∧
        a'.user = { subject := ⟨tenant, id⟩, email := email, emailVerifiedAt := clk.truncate, createdAt := clk.truncate } ∧
        ap.outbox = [] ∧ s'.outbox = s.outbox ∧ s'.outboxSeq = s.outboxSeq ∧
        ∀ k, k ≠ ⟨tenant, id⟩ → s.Spares s' k := by
  obtain ⟨sub, before, after, evicted, commits⟩ := apply_commits ok
  have left := commits.left
  have others : ∀ k, k ≠ sub → s.Spares s' k := fun k => commits.spares keyed
  have rows := commits.rows
  have outbox := commits.outbox
  have seq := commits.outboxSeq
  cases commits.writes with
  | amended plain => exact absurd (plain.1.symm.trans creates) (by simp)
  | linked => cases creates
  | created picked frees user joins =>
    have quiet : ap.outbox = [] := rows
    rw [quiet] at outbox seq
    refine ⟨_, _, _, _, _, _, _, rfl, picked, left, ?_, quiet, by simpa using outbox, seq, others⟩
    rw [Account.bumped, user]
    rfl

theorem getUser_subject (keyed : s.Keyed) {sub : Subject} {u : User} (ok : s.getUser sub = .ok u) : u.subject = sub := by
  obtain ⟨a, found, rfl⟩ : ∃ a, s.accounts.lookup sub = some a ∧ a.view = u := by
    unfold getUser at ok
    cases stored : s.existing sub with
    | error err =>
      rw [stored] at ok
      cases ok
    | ok a =>
      rw [stored] at ok
      exact ⟨a, existing_ok stored, Except.ok.inj ok⟩
  exact keyed sub a found

/-- The epoch of a stored account moves with the mutations that name it and bump. -/
theorem epoch_apply (keyed : s.Keyed)
    (picks : s.Picks newID m) (ok : s.apply clk ctx newID m = (s', .ok ap)) {k : Subject} {e : UInt64}
    (current : s.epoch k = some e) :
    s'.epoch k = some (e + if (effectsOf m).bumpsEpoch ∧ subjectOf m = k then 1 else 0) := by
  obtain ⟨a, found, rfl⟩ := Option.map_eq_some_iff.mp current
  have spared (spares : s.Spares s' k) : s'.epoch k = some a.user.securityEpoch := by
    rcases spares with same | ⟨b, b', stored, -, left, user, -, -⟩
    · rw [epoch, same, found, Option.map_some]
    · obtain rfl := Option.some.inj (found.symm.trans stored)
      rw [epoch, left, Option.map_some, user]
  cases loads : m.loads with
  | true =>
    obtain ⟨b, b', applies⟩ := apply_loaded keyed loads ok
    by_cases own : k = subjectOf m
    · subst own
      obtain rfl := Option.some.inj (found.symm.trans applies.found)
      rw [epoch, applies.left, Option.map_some, applies.user]
      simp
    · rw [spared (applies.others k own), if_neg fun both => own both.2.symm, UInt64.add_zero]
  | false =>
    obtain ⟨tenant, email, phc, mustChange, federated, id, a', rfl, rfl, -, -, -, -, -, others⟩ :=
      apply_created keyed loads ok
    have own : k ≠ ⟨tenant, id⟩ := by
      rintro rfl
      exact absurd (found.symm.trans picks) (by simp)
    rw [spared (others k own)]
    simp [effectsOf]

end Store
end Egauth.Identity
