import Egauth.Identity.Epochs

/-! The password hash of an account next to its epoch.

`SetPassword` replaces the hash and bumps the epoch in one commit, so a hash
belongs to the epochs between two commits.
-/

set_option autoImplicit false

namespace Egauth.Identity
open Egauth.Core

namespace Store
variable {s : Store} {sub : Subject}

def phc (s : Store) (k : Subject) : Option PasswordHash := (s.accounts.lookup k).bind Account.phc

def Keeps (s s' : Store) (k : Subject) : Prop := s'.phc k = s.phc k ∧ s'.epoch k = s.epoch k

theorem Keeps.refl (s : Store) (k : Subject) : s.Keeps s k := ⟨rfl, rfl⟩

theorem keeps_insert {a a' : Account} (found : s.accounts.lookup sub = some a)
    (user : a'.user = a.user) (hash : a'.phc = a.phc) (k : Subject) :
    s.Keeps { s with accounts := s.accounts.insert sub a' } k := by
  refine ⟨?_, epoch_insert found user k⟩
  unfold phc
  by_cases own : k = sub
  · subst own
    simp [found, hash]
  · simp [AList.lookup_insert_ne own]

theorem resetPasswordFailures_keeps (s : Store) (sub : Subject) (k : Subject) :
    s.Keeps (s.resetPasswordFailures sub).1 k := by
  rcases s.resetPasswordFailures_cases sub with same | ⟨a, a', found, user, hash, result⟩
  · rw [same]
    exact .refl s k
  · rw [result]
    exact keeps_insert found user hash k

theorem getPassword_ok {cred : PasswordCredential} (ok : s.getPassword sub = .ok cred) :
    s.phc sub = some cred.phc := by
  unfold getPassword at ok
  split at ok
  · cases ok
  next a found =>
    split at ok
    · cases ok
    next pw stored =>
      cases ok
      simp [phc, existing_ok found, Account.phc, stored]

theorem getUser_ok {u : User} (ok : s.getUser sub = .ok u) : s.epoch sub = some u.securityEpoch := by
  unfold getUser at ok
  cases found : s.existing sub with
  | error err =>
    rw [found] at ok
    cases ok
  | ok a =>
    rw [found] at ok
    cases ok
    simp [epoch, existing_ok found, Account.view]

theorem setPassword_cases (s : Store) (clk : Time) (ctx : Nat) (newID : Option UUID) (sub : Subject)
    (hash : PasswordHash) (reason : Option RotationReason) (keep : UUID) :
    let s' := (s.apply clk ctx newID (.setPassword sub hash reason keep)).1
    s' = s ∨ (∃ e, s.epoch sub = some e ∧ s'.epoch sub = some (e + 1)) ∧ ∀ k, k ≠ sub → s.Keeps s' k := by
  rcases s.apply_cases clk ctx newID (.setPassword sub hash reason keep) with same | ⟨ap, sub', _, _, _, commits⟩
  · exact .inl same
  have accounts := commits.accounts
  cases commits.writes with
  | @amended _ a plain found kept frees =>
    have stored : s.accounts.lookup sub = some a := found
    refine .inr ⟨⟨a.user.securityEpoch, by simp [epoch, stored], ?_⟩, fun k other => ?_⟩
    · simp [epoch, accounts, subjectOf, Account.bumped, rewritten, effectsOf]
    · simp [Keeps, phc, epoch, accounts, subjectOf, other]

theorem setPassword_keeps (s : Store) (clk : Time) (ctx : Nat) (newID : Option UUID) {k : Subject}
    (hash : PasswordHash) (reason : Option RotationReason) (keep : UUID) (other : k ≠ sub) :
    s.Keeps (s.apply clk ctx newID (.setPassword sub hash reason keep)).1 k := by
  rcases s.setPassword_cases clk ctx newID sub hash reason keep with same | ⟨-, others⟩
  · rw [same]
    exact .refl s k
  · exact others k other

end Store
end Egauth.Identity
