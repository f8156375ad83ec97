import Egauth.Identity.Passwords
import Egauth.Login.Handler

/-! One login among password changes.

The handler reads the hash and the epoch in two calls of the store, with a key
derivation between them. A password that is set in between is noticed by
neither: the session carries the new epoch and was proved with the old hash.
-/

set_option autoImplicit false

namespace Egauth.Login
open Egauth.Core Identity

structure World where
  store : Store
  phase : Phase

inductive Action where
  | login (o : Outside)
  | setPassword (clk : Time) (ctx : Nat) (sub : Subject) (phc : PasswordHash) (reason : Option RotationReason)
      (keep : UUID)

def Phase.reading : Phase → Option Subject
  | .read _ _ u _ => some u.subject
  | .verified _ sub _ => some sub
  | _ => none

/-- Nothing replaces the hash of the account between the two reads. -/
def Covers (w : World) : Action → Prop
  | .setPassword clk ctx sub phc reason keep => w.phase.reading = some sub →
      (w.store.apply clk ctx none (.setPassword sub phc reason keep)).1.phc sub = w.store.phc sub
  | .login _ => True

section
variable (svc : Service) (req : Request)

def World.apply (w : World) : Action → World
  | .login o => ⟨(next svc req o w.store w.phase).1, (next svc req o w.store w.phase).2⟩
  | .setPassword clk ctx sub phc reason keep =>
    { w with store := (w.store.apply clk ctx none (.setPassword sub phc reason keep)).1 }

def Step (w : World) (action : Action) (w' : World) : Prop := w' = w.apply svc req action

/-- The password of the request is that of the hash, in one of its two forms. -/
def Proves (phc : PasswordHash) : Prop :=
  svc.compare phc (svc.canonical req.password) = true ∨ svc.compare phc req.password = true

/-- The hash was that of the account at the epoch, and the account has left the epoch with the hash. -/
structure Current (past : List World) (s : Store) (sub : Subject) (epoch : UInt64) (phc : PasswordHash) : Prop where
  seen : ∃ w ∈ past, w.store.epoch sub = some epoch ∧ w.store.phc sub = some phc
  since : ∃ n ≤ past.length, s.epoch sub = some (epoch + UInt64.ofNat n) ∧ (n = 0 → s.phc sub = some phc)

def Inv (past : List World) (w : World) : Prop :=
  match w.phase with
  | .read _ _ u cred => w.store.phc u.subject = some cred.phc
  | .verified _ sub phc => Proves svc req phc ∧ w.store.phc sub = some phc
  | .stated p st phc => Proves svc req phc ∧ (st.usable = true → Current past w.store p.subject st.epoch phc)
  | .issued a phc => Proves svc req phc ∧ Current past w.store a.subject a.epoch phc
  | _ => True

end

section
variable {svc : Service} {req : Request} {past : List World} {w : World} {sub : Subject} {phc : PasswordHash}
  {s : Store}

theorem proves_of_matchesHash {o : Outside}
    (matched : matchesHash svc o phc req.password = some true) : Proves svc req phc := by
  have equal (form : Bytes) (same : derive svc o phc form = .equal) : svc.compare phc form = true := by
    unfold derive at same
    split at same
    · cases same
    · split at same
      next compared => exact compared
      · cases same
  dsimp only [matchesHash] at matched
  split at matched
  · split at matched
    next found =>
      -- One of the two derivations was equal.
      rcases List.mem_cons.mp (List.contains_iff_mem.mp found) with canonical | typed
      · exact .inl (equal _ canonical.symm)
      · exact .inr (equal _ (List.mem_singleton.mp typed).symm)
    · split at matched <;> cases matched
  · split at matched
    next found => exact .inl (equal _ (List.mem_singleton.mp (List.contains_iff_mem.mp found)).symm)
    · split at matched <;> cases matched

variable {s' : Store} {epoch : UInt64}

theorem Current.keep
    (current : Current past s sub epoch phc) (kept : s.Keeps s' sub) : Current (w :: past) s' sub epoch phc := by
  obtain ⟨⟨u, member, facts⟩, n, bounded, moved, still⟩ := current
  refine ⟨⟨u, List.mem_cons_of_mem _ member, facts⟩, n, Nat.le_succ_of_le bounded, ?_, ?_⟩
  · rw [kept.2]
    exact moved
  · rw [kept.1]
    exact still

theorem Current.bump {e : UInt64}
    (current : Current past s sub epoch phc) (old : s.epoch sub = some e) (new : s'.epoch sub = some (e + 1)) :
    Current (w :: past) s' sub epoch phc := by
  obtain ⟨⟨u, member, facts⟩, n, bounded, moved, -⟩ := current
  refine ⟨⟨u, List.mem_cons_of_mem _ member, facts⟩, n + 1, Nat.succ_le_succ bounded, ?_, fun zero => absurd zero (by omega)⟩
  rw [old] at moved
  rw [new, Option.some.inj moved, UInt64.ofNat_add, UInt64.add_assoc]
  rfl

theorem Current.setPassword
    (current : Current past s sub epoch phc) (clk : Time) (ctx : Nat) (target : Subject) (hash : PasswordHash)
    (reason : Option RotationReason) (keep : UUID) :
    Current (w :: past) (s.apply clk ctx none (.setPassword target hash reason keep)).1 sub epoch phc := by
  rcases s.setPassword_cases clk ctx none target hash reason keep with same | ⟨⟨e, old, new⟩, others⟩
  · rw [same]
    exact current.keep (.refl s sub)
  · by_cases own : sub = target
    · subst own
      exact current.bump old new
    · exact current.keep (others sub own)

theorem Inv.setPassword (inv : Inv svc req past w) {clk : Time} {ctx : Nat} {hash : PasswordHash}
    {reason : Option RotationReason} {keep : UUID} (covered : Covers w (.setPassword clk ctx sub hash reason keep)) :
    Inv svc req (w :: past) (w.apply svc req (.setPassword clk ctx sub hash reason keep)) := by
  obtain ⟨s, phase⟩ := w
  have kept (k : Subject) (same : phase.reading = some k) :
      (s.apply clk ctx none (.setPassword sub hash reason keep)).1.phc k = s.phc k := by
    by_cases own : k = sub
    · subst own
      exact covered same
    · exact (s.setPassword_keeps clk ctx none hash reason keep own).1
  cases phase with
  | read p id u cred => exact (kept u.subject rfl).trans inv
  | verified p k phc => exact ⟨inv.1, (kept k rfl).trans inv.2⟩
  | stated p st phc => exact ⟨inv.1, fun usable => (inv.2 usable).setPassword clk ctx sub hash reason keep⟩
  | issued a phc => exact ⟨inv.1, inv.2.setPassword clk ctx sub hash reason keep⟩
  | idle | begun | found | parked | refused => trivial

theorem findUser_cases (o : Outside) (s : Store) (p : Pending) :
    (∃ why, findUser svc req o s p = .refused why) ∨ ∃ id known, findUser svc req o s p = .found p id known := by
  unfold findUser
  split
  · split <;> exact .inl ⟨_, rfl⟩
  · split
    · exact .inl ⟨_, rfl⟩
    · split
      · exact .inr ⟨_, _, rfl⟩
      · exact .inr ⟨_, _, rfl⟩
      · exact .inl ⟨_, rfl⟩

theorem getPassword_cases {o : Outside} {p : Pending} {id : Identifier} {known : Option User}
    {phase : Phase} (ok : getPassword svc req o s p id known = (s', phase)) :
    (∃ why, phase = .refused why) ∨
      ∃ u cred, phase = .read p id u cred ∧ s'.phc u.subject = some cred.phc := by
  dsimp only [getPassword] at ok
  split at ok
  · cases ok
    exact .inl ⟨_, rfl⟩
  · split at ok
    next cred u read =>
      cases ok
      exact .inr ⟨u, cred, rfl, Store.getPassword_ok read⟩
    · split at ok
      all_goals
        cases ok
        exact .inl ⟨_, rfl⟩

/-- The comparison keeps the hash that was read, since the login itself only counts failures. -/
theorem comparePassword_cases {o : Outside} {p : Pending} {id : Identifier} {u : User}
    {cred : PasswordCredential} {phase : Phase} (ok : comparePassword svc req o s p id u cred = (s', phase)) :
    (∃ why, phase = .refused why) ∨
      phase = .verified p u.subject cred.phc ∧ Proves svc req cred.phc ∧ s.Keeps s' u.subject := by
  unfold comparePassword at ok
  split at ok
  · cases ok
    exact .inl ⟨_, rfl⟩
  next matched found =>
    split at ok
    · cases ok
      exact .inl ⟨_, rfl⟩
    · split at ok
      · cases ok
        exact .inl ⟨_, rfl⟩
      next equal =>
        rw [Bool.not_eq_false] at equal
        rw [equal] at found
        have proves := proves_of_matchesHash found
        split at ok
        · split at ok
          · cases ok
            exact .inl ⟨_, rfl⟩
          · have kept := s.resetPasswordFailures_keeps u.subject u.subject
            split at ok
            next reset =>
              cases ok
              rw [reset] at kept
              exact .inr ⟨rfl, proves, kept⟩
            · cases ok
              exact .inl ⟨_, rfl⟩
        · cases ok
          exact .inr ⟨rfl, proves, .refl s u.subject⟩

theorem epoch_of_usable (usable : (accountState s sub).usable = true) :
    s.epoch sub = some (accountState s sub).epoch := by
  unfold accountState at usable ⊢
  split
  next u found => exact Store.getUser_ok found
  next missing =>
    rw [missing] at usable
    cases usable

theorem passwordFactor_subject {now : Time} {v : Verified} (ok : passwordFactor sub now = .ok v) :
    v.subject = sub := by
  unfold passwordFactor newVerified at ok
  rw [ite_error_eq_ok] at ok
  obtain ⟨-, ok⟩ := ok
  split at ok
  · cases ok
  · cases ok
    rfl

theorem readState_cases (o : Outside) (s : Store) (p : Pending) (sub : Subject) (phc : PasswordHash) :
    (∃ why, readState req o s p sub phc = .refused why) ∨
      ∃ p', readState req o s p sub phc = .stated p' (accountState s sub) phc ∧ p'.subject = sub := by
  unfold readState
  split
  · exact .inl ⟨_, rfl⟩
  next v built =>
    split
    · exact .inl ⟨_, rfl⟩
    split
    · exact .inl ⟨_, rfl⟩
    dsimp only
    split
    · exact .inl ⟨_, rfl⟩
    next p' added =>
      obtain ⟨-, -, -, -, -, -, rfl⟩ := Pending.add_ok added
      exact .inr ⟨_, rfl, passwordFactor_subject built⟩

theorem complete_cases (o : Outside) (p : Pending) (st : AccountState) (phc : PasswordHash) :
    (∃ why, complete o p st phc = .refused why) ∨ (∃ p' needs, complete o p st phc = .parked p' needs) ∨
      ∃ a, complete o p st phc = .issued a phc ∧ st.usable = true ∧ a.subject = p.subject ∧ a.epoch = st.epoch := by
  unfold complete
  split
  · exact .inl ⟨_, rfl⟩
  split
  · exact .inl ⟨_, rfl⟩
  · exact .inr (.inl ⟨_, _, rfl⟩)
  next admitted =>
    split
    · exact .inl ⟨_, rfl⟩
    · obtain ⟨-, -, completes, rfl⟩ := admitPending_session admitted
      exact .inr (.inr ⟨_, rfl, completes.usable, rfl, rfl⟩)

/-- A step of the login. The account state is read while the hash that was compared is still the
account's, so the epoch and the hash are seen together in the state before the step. -/
theorem Inv.login (inv : Inv svc req past w) (o : Outside) :
    Inv svc req (w :: past) (w.apply svc req (.login o)) := by
  obtain ⟨s, phase⟩ := w
  cases phase with
  | idle =>
    simp only [World.apply, next, begin]
    split <;> trivial
  | begun p =>
    simp only [World.apply, next]
    rcases findUser_cases o s p with ⟨why, refused⟩ | ⟨id, known, found⟩
    · rw [refused]
      trivial
    · rw [found]
      trivial
  | found p id known =>
    cases step : getPassword svc req o s p id known with | mk s' phase =>
    simp only [World.apply, next, step]
    rcases getPassword_cases step with ⟨why, rfl⟩ | ⟨u, cred, rfl, hash⟩
    · trivial
    · exact hash
  | read p id u cred =>
    cases step : comparePassword svc req o s p id u cred with | mk s' phase =>
    simp only [World.apply, next, step]
    rcases comparePassword_cases step with ⟨why, rfl⟩ | ⟨rfl, proves, kept⟩
    · trivial
    · exact ⟨proves, kept.1.trans inv⟩
  | verified p sub phc =>
    simp only [World.apply, next]
    rcases readState_cases o s p sub phc with ⟨why, refused⟩ | ⟨p', stated, subject⟩
    · rw [refused]
      trivial
    · rw [stated]
      refine ⟨inv.1, fun usable => ?_⟩
      rw [subject]
      -- Here the epoch is read, in a state that still has the hash that was compared.
      have epoch := epoch_of_usable usable
      exact ⟨⟨_, List.mem_cons_self, epoch, inv.2⟩, 0, Nat.zero_le _, by simpa using epoch, fun _ => inv.2⟩
  | stated p st phc =>
    simp only [World.apply, next]
    rcases complete_cases o p st phc with ⟨why, refused⟩ | ⟨p', needs, parked⟩ | ⟨a, issued, usable, subject, epoch⟩
    · rw [refused]
      trivial
    · rw [parked]
      trivial
    · rw [issued]
      refine ⟨inv.1, ?_⟩
      rw [subject, epoch]
      exact (inv.2 usable).keep (.refl s p.subject)
  | issued a phc => exact ⟨inv.1, inv.2.keep (.refl s a.subject)⟩
  | parked | refused => trivial

theorem Inv.history {s₀ : Store} (history : History (Restrict Covers (Step svc req)) ⟨s₀, .idle⟩ past w) :
    Inv svc req past w := by
  have start : Inv svc req [] ⟨s₀, .idle⟩ := trivial
  refine history.invariant (Inv svc req) start ?_
  rintro past w action w' inv ⟨covered, rfl⟩
  cases action with
  | login o => exact inv.login o
  | setPassword clk ctx sub hash reason keep => exact inv.setPassword covered

/-- While nothing replaces the hash between the two reads, a login admits a session only with a
hash that was the account's at the epoch of the session, and the session outlives no change of it. -/
theorem issued_of_covered_history {s₀ : Store}
    (history : History (Restrict Covers (Step svc req)) ⟨s₀, .idle⟩ past w) {a : SessionAttrs} {phc : PasswordHash}
    (issued : w.phase = .issued a phc) :
    Proves svc req phc ∧
      (∃ w' ∈ past, w'.store.epoch a.subject = some a.epoch ∧ w'.store.phc a.subject = some phc) ∧
      (past.length < 2 ^ 64 → w.store.epoch a.subject = some a.epoch → w.store.phc a.subject = some phc) := by
  have inv := Inv.history history
  simp only [Inv, issued] at inv
  obtain ⟨proves, seen, n, bounded, moved, still⟩ := inv
  refine ⟨proves, seen, fun short survives => still ?_⟩
  -- The epoch has come back to where it was after fewer than 2^64 changes: there was none.
  rw [survives] at moved
  have zero : UInt64.ofNat n = 0 := UInt64.add_eq_left.mp (Option.some.inj moved).symm
  have small : n < 2 ^ 64 := lt_of_le_of_lt bounded short
  have value := congrArg UInt64.toNat zero
  rwa [UInt64.toNat_ofNat_of_lt' small] at value

end

namespace Sample

/-- A hasher that stores the password itself, for a run that can be evaluated. -/
def service : Service := ⟨id, fun phc form => phc.phc == form, .nil, ⟨ascii "decoy"⟩, some .never⟩

def email : Identifier := .sample

def subject : Subject := .sample

def request : Request := ⟨.zero, some email, ascii "old", .declined, [], some .cookies⟩

def outside : Outside := ⟨1000000000, false, fun _ => false, some false, some false, subject.user, none⟩

def store : Store :=
  (Store.new.apply 1000000000 20 (some subject.user) (.createVerified .zero email ⟨ascii "old"⟩ false .zero)).1

def next (w : World) : World := w.apply service request (.login outside)

def start : World := ⟨store, .idle⟩

def found : World := next (next start)

def compared : World := next (next found)

def comparedPast : List World := [next found, found, next start, start]

theorem login_step (w : World) : Restrict Covers (Step service request) w (.login outside) (next w) := ⟨trivial, rfl⟩

theorem compared_history : History (Restrict Covers (Step service request)) start comparedPast compared :=
  (((History.start.next (login_step _)).next (login_step _)).next (login_step _)).next (login_step _)

def setPassword (hash : Bytes) : Action := .setPassword 1000000000 20 subject ⟨hash⟩ (some .passwordReset) .nil

/-- The store refuses an empty hash between the two reads. -/
def refused : World := compared.apply service request (setPassword [])

def issued : World := next (next refused)

/-- The password is set once the session is there. -/
def changed : World := issued.apply service request (setPassword (ascii "new"))

theorem changed_history : History (Restrict Covers (Step service request)) start
    (issued :: next refused :: refused :: compared :: comparedPast) changed := by
  have refuses : Restrict Covers (Step service request) compared (setPassword []) refused := ⟨fun _ => rfl, rfl⟩
  have changes : Restrict Covers (Step service request) issued (setPassword (ascii "new")) changed := ⟨nofun, rfl⟩
  exact (((compared_history.next refuses).next (login_step _)).next (login_step _)).next changes

end Sample

open Sample

theorem issued_of_covered_history_changed : ∃ a, changed.phase = .issued a ⟨ascii "old"⟩ ∧
    changed.store.phc a.subject = some ⟨ascii "new"⟩ ∧
    ∃ w ∈ Sample.issued :: Sample.next refused :: refused :: compared :: comparedPast,
      w.store.epoch a.subject = some a.epoch ∧ w.store.phc a.subject = some ⟨ascii "old"⟩ := by
  have session : ∃ a, changed.phase = .issued a ⟨ascii "old"⟩ ∧ a.subject = Sample.subject := ⟨_, by rfl, by rfl⟩
  obtain ⟨a, issued, subject⟩ := session
  refine ⟨a, issued, ?_, (issued_of_covered_history changed_history issued).2.1⟩
  rw [subject]
  rfl

namespace Sample

def reset : World := compared.apply service request (setPassword (ascii "new"))

def late : World := next (next reset)

theorem late_history : History (Step service request) start
    (next reset :: reset :: compared :: comparedPast) late := by
  have resets : Step service request compared (setPassword (ascii "new")) reset := rfl
  exact ((compared_history.unrestrict.next resets).next (login_step _).2).next (login_step _).2

end Sample

/-- A session that is alive after a password reset was obtained with the previous password. -/
theorem issued_after_reset : ∃ past w a phc,
    History (Step service request) start past w ∧ w.phase = .issued a phc ∧ w.store.epoch a.subject = some a.epoch ∧
      ∀ w' ∈ w :: past, w'.store.epoch a.subject = some a.epoch → w'.store.phc a.subject ≠ some phc := by
  have session : ∃ a, late.phase = .issued a ⟨ascii "old"⟩ ∧ a.subject = Sample.subject ∧ a.epoch = 1 :=
    ⟨_, by rfl, by rfl, by rfl⟩
  obtain ⟨a, issued, subject, epoch⟩ := session
  refine ⟨_, late, a, ⟨ascii "old"⟩, late_history, issued, ?_, ?_⟩
  · rw [subject, epoch]
    rfl
  · rw [subject, epoch]
    simp only [comparedPast, List.forall_mem_cons]
    decide

end Egauth.Login
