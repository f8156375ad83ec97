import Egauth.Identity.Written

/-! What a transaction commits: the account it loaded or created, at most one
tombstoned account that loses a link, one epoch row if the mutation bumps, and
the outbox rows.
-/

set_option autoImplicit false

namespace Egauth.Identity
open Egauth.Core

def numbered (seq : Nat) (now : Time) (items : List OutboxItem) : List OutboxItem :=
  items.mapIdx fun i item => { item with id := seq + 1 + i, nextAttemptAt := now, createdAt := now }

namespace Txn
variable {tx tx' : Txn} {s : Store}

def bumped (tx : Txn) (fx : Effects) : Txn :=
  if fx.bumpsEpoch then
    { tx with
      acc.user.securityEpoch := tx.acc.user.securityEpoch + 1
      epochSeq := tx.epochSeq + 1
      epochs := tx.epochs ++ [⟨tx.epochSeq + 1, ⟨tx.subject, tx.acc.user.securityEpoch + 1, fx.event⟩, tx.now⟩] }
  else tx

theorem bump_ok {fx : Effects} (ok : tx.bump fx = .ok tx') : ∃ ctx, tx' = { tx.bumped fx with ctx := ctx } := by
  unfold bump at ok
  split at ok
  next bumps =>
    obtain ⟨tx₁, stepped, ok⟩ := bind_eq_ok.mp ok
    obtain ⟨ctx, rfl⟩ := step_ok stepped
    cases ok
    exact ⟨ctx, by rw [bumped, if_pos bumps]⟩
  next quiet =>
    cases ok
    exact ⟨tx.ctx, by rw [bumped, if_neg quiet]⟩

theorem acc_bumped (tx : Txn) (fx : Effects) : (tx.bumped fx).acc = { tx.acc with
    user := { tx.acc.user with securityEpoch := tx.acc.user.securityEpoch + if fx.bumpsEpoch then 1 else 0 } } := by
  unfold bumped
  split
  · rfl
  · simp

theorem rows_bumped (tx : Txn) (fx : Effects) : (tx.bumped fx).subject = tx.subject ∧ (tx.bumped fx).now = tx.now ∧
    (tx.bumped fx).evicted = tx.evicted ∧ (tx.bumped fx).outbox = tx.outbox ∧
    (tx.bumped fx).outboxSeq = tx.outboxSeq := by
  unfold bumped
  split <;> exact ⟨rfl, rfl, rfl, rfl, rfl⟩

theorem queue_ok {items queued : List OutboxItem} (ok : tx.queue items = .ok (tx', queued)) :
    queued = numbered tx.outboxSeq tx.now items ∧ ∃ ctx, tx' = { tx with
      ctx := ctx, outbox := tx.outbox ++ queued.map ({ item := · }), outboxSeq := tx.outboxSeq + items.length } := by
  induction items generalizing tx queued with
  | nil =>
    cases ok
    exact ⟨rfl, _, by simp; rfl⟩
  | cons item items ih =>
    obtain ⟨tx₁, stepped, ok⟩ := bind_eq_ok.mp ok
    obtain ⟨ctx, rfl⟩ := step_ok stepped
    obtain ⟨⟨tx₂, rest⟩, next, ok⟩ := bind_eq_ok.mp ok
    cases ok
    obtain ⟨rfl, ctx, rfl⟩ := ih next
    refine ⟨?_, ctx, by simp; omega⟩
    -- The rest is numbered from one further on.
    unfold numbered
    rw [List.mapIdx_cons]
    congr 1
    refine congrArg (List.mapIdx · items) (funext fun i => funext fun item => ?_)
    congr 1
    push_cast
    omega

/-- The rest of a transaction: the bump, then the rows. -/
structure Affected (tx : Txn) (m : Mutation) (old : Identifier) (tx' : Txn) (ap : Applied) : Prop where
  subject : tx'.subject = tx.subject
  acc : tx'.acc = (tx.bumped (effectsOf m)).acc
  applied : ap.subject = tx.subject ∧ ap.newEpoch = tx'.acc.user.securityEpoch
  items : ap.outbox = numbered tx.outboxSeq tx.now (outboxFor m tx.subject old)
  outbox : tx'.outbox = tx.outbox ++ ap.outbox.map ({ item := · })
  seq : tx'.outboxSeq = tx.outboxSeq + ap.outbox.length

theorem effects_ok {m : Mutation} {old : Identifier} {ap : Applied} (ok : tx.effects m old = .ok (tx', ap)) :
    tx.Affected m old tx' ap ∧ ∃ ctx outbox outboxSeq,
      tx' = { tx.bumped (effectsOf m) with ctx := ctx, outbox := outbox, outboxSeq := outboxSeq } := by
  obtain ⟨tx₁, stepped, ok⟩ := bind_eq_ok.mp ok
  obtain ⟨_, rfl⟩ := bump_ok stepped
  obtain ⟨⟨tx₂, items⟩, queued, ok⟩ := bind_eq_ok.mp ok
  obtain ⟨rows, ctx, rfl⟩ := queue_ok queued
  cases ok
  obtain ⟨subject, now, -, before, start⟩ := tx.rows_bumped (effectsOf m)
  dsimp only at rows
  rw [subject, now, start] at rows
  refine ⟨⟨subject, rfl, ⟨subject, rfl⟩, rows, ?_, ?_⟩, ctx, _, _, rfl⟩
  · dsimp only
    rw [before]
  · dsimp only
    rw [start, rows, subject]
    simp [numbered]

end Txn

def Account.bumped (a : Account) (m : Mutation) : Account :=
  { a with user := { a.user with
      securityEpoch := a.user.securityEpoch + if (effectsOf m).bumpsEpoch then 1 else 0 } }

namespace Store
variable {s s' : Store} {clk : Time} {ctx : Nat} {newID : Option UUID} {m : Mutation} {ap : Applied} {tx : Txn}

/-- What a transaction has written when it commits. -/
structure Wrote (s : Store) (now : Time) (newID : Option UUID) (m : Mutation) (tx : Txn) : Prop where
  evicts : s.Evicts tx.subject tx.evicted
  subject : tx.acc.user.subject = tx.subject
  epoch : ∃ epoch, s.Begins newID m tx.subject epoch ∧
    if (effectsOf m).bumpsEpoch then
      tx.acc.user.securityEpoch = epoch + 1 ∧ tx.epochSeq = s.epochSeq + 1 ∧
        tx.epochs = [⟨s.epochSeq + 1, ⟨tx.subject, epoch + 1, (effectsOf m).event⟩, now⟩]
    else tx.acc.user.securityEpoch = epoch ∧ tx.epochSeq = s.epochSeq ∧ tx.epochs = []

structure Commits (s : Store) (now : Time) (newID : Option UUID) (m : Mutation) (s' : Store) (ap : Applied)
    (sub : Subject) (before : Option Account) (after : Account) (evicted : Option Account) : Prop where
  valid : m.check = none
  writes : s.Writes now newID m sub before after evicted
  accounts : ∀ k, s'.accounts.lookup k = (evicted.filter fun b => b.user.subject = k).or
    (if k = sub then some (after.bumped m) else s.accounts.lookup k)
  epochs : s'.epochs = s.epochs ++ if (effectsOf m).bumpsEpoch then
    [⟨s.epochSeq + 1, ⟨sub, after.user.securityEpoch + 1, (effectsOf m).event⟩, now⟩] else []
  epochSeq : s'.epochSeq = s.epochSeq + if (effectsOf m).bumpsEpoch then 1 else 0
  applied : ap.subject = sub ∧ ap.newEpoch = (after.bumped m).user.securityEpoch
  rows : ap.outbox = numbered s.outboxSeq now (outboxFor m sub ((before.map (replaced m)).getD .zero))
  outbox : s'.outbox = s.outbox ++ ap.outbox.map ({ item := · })
  outboxSeq : s'.outboxSeq = s.outboxSeq + ap.outbox.length

/-- A transaction that succeeded: its mutation, then the bump and the outbox rows. -/
theorem transact_ok (ok : s.transact clk ctx newID m = .ok (tx, ap)) :
    m.check = none ∧ ∃ ctx tx₁ old tx₂, (Txn.start s ctx clk.truncate).mutate s newID m = .ok (tx₁, old) ∧
      tx₁.effects m old = .ok (tx₂, ap) ∧ ∃ ctx, tx = { tx₂ with ctx := ctx } := by
  obtain ⟨tx₁, stepped, ok⟩ := bind_eq_ok.mp ok
  obtain ⟨begun, rfl⟩ := Txn.step_ok stepped
  obtain ⟨_, valid, ok⟩ := bind_eq_ok.mp ok
  obtain ⟨-, -, ok⟩ := bind_eq_ok.mp ok
  obtain ⟨⟨tx₂, old⟩, mutated, ok⟩ := bind_eq_ok.mp ok
  obtain ⟨⟨tx₃, result⟩, affected, ok⟩ := bind_eq_ok.mp ok
  obtain ⟨tx₄, stepped, ok⟩ := bind_eq_ok.mp ok
  obtain ⟨ctx, rfl⟩ := Txn.step_ok stepped
  cases ok
  refine ⟨?_, begun, tx₂, old, tx₃, mutated, affected, ctx, rfl⟩
  unfold validate at valid
  split at valid
  · cases valid
  · assumption

theorem transact_wrote (keyed : s.Keyed) (ok : s.transact clk ctx newID m = .ok (tx, ap)) :
    s.Wrote clk.truncate newID m tx := by
  obtain ⟨valid, _, tx₁, old, tx₂, mutated, affected, _, rfl⟩ := transact_ok ok
  obtain ⟨before, _, writes, -, same⟩ := Txn.mutate_ok valid rfl mutated
  obtain ⟨-, _, outbox, outboxSeq, rfl⟩ := Txn.effects_ok affected
  obtain ⟨subject, begins⟩ := writes.started keyed
  -- The transaction started from the store's counters with nothing queued.
  have started : tx₁.now = clk.truncate ∧ tx₁.epochSeq = s.epochSeq ∧ tx₁.epochs = [] := by
    rw [same]
    exact ⟨rfl, rfl, rfl⟩
  obtain ⟨now, seq, epochs⟩ := started
  unfold Txn.bumped
  split
  next bumps =>
    refine ⟨writes.evicts, subject, tx₁.acc.user.securityEpoch, begins, ?_⟩
    rw [if_pos bumps, ← now, ← seq]
    exact ⟨rfl, rfl, by rw [epochs]; rfl⟩
  next quiet =>
    refine ⟨writes.evicts, subject, tx₁.acc.user.securityEpoch, begins, ?_⟩
    rw [if_neg quiet]
    exact ⟨rfl, seq, epochs⟩

theorem apply_ok (ok : s.apply clk ctx newID m = (s', .ok ap)) :
    ∃ tx, s.transact clk ctx newID m = .ok (tx, ap) ∧ s' = tx.commit s := by
  unfold apply at ok
  split at ok
  · cases ok
  next tx applied transacted =>
    cases ok
    exact ⟨tx, transacted, rfl⟩

theorem apply_error {err : Err} (failed : s.apply clk ctx newID m = (s', .error err)) : s' = s := by
  unfold apply at failed
  split at failed
  · cases failed
    rfl
  · cases failed

theorem lookup_commit (tx : Txn) (s : Store) (k : Subject) :
    (tx.commit s).accounts.lookup k = (tx.evicted.filter fun b => b.user.subject = k).or
      (if k = tx.subject then some tx.acc else s.accounts.lookup k) := by
  unfold Txn.commit
  cases tx.evicted with
  | none => exact Map.lookup_insert_eq _ _ _ _
  | some a =>
    dsimp only
    rw [Map.lookup_insert_eq, Map.lookup_insert_eq, Option.filter_some]
    by_cases own : k = a.user.subject
    · simp [own]
    · simp [own, Ne.symm own]

theorem apply_commits (ok : s.apply clk ctx newID m = (s', .ok ap)) :
    ∃ sub before after evicted, s.Commits clk.truncate newID m s' ap sub before after evicted := by
  obtain ⟨tx, transacted, rfl⟩ := apply_ok ok
  obtain ⟨valid, _, tx₁, old, tx₂, mutated, affected, _, rfl⟩ := transact_ok transacted
  obtain ⟨before, _, writes, replaces, same⟩ := Txn.mutate_ok valid rfl mutated
  obtain ⟨ends, _, outbox, outboxSeq, written⟩ := Txn.effects_ok affected
  have evicted : tx₂.evicted = tx₁.evicted := by
    rw [written]
    exact (tx₁.rows_bumped (effectsOf m)).2.2.1
  have acc : tx₂.acc = tx₁.acc.bumped m := ends.acc.trans (tx₁.acc_bumped (effectsOf m))
  refine ⟨tx₁.subject, before, tx₁.acc, tx₁.evicted, valid, writes, ?_, ?_, ?_, ?_, ?_, ?_, ?_⟩
  · intro k
    rw [lookup_commit]
    dsimp only
    rw [evicted, acc, ends.subject]
  · change s.epochs ++ tx₂.epochs = _
    rw [written, same]
    unfold Txn.bumped
    split <;> rfl
  · change tx₂.epochSeq = _
    rw [written, same]
    unfold Txn.bumped
    split <;> rfl
  · rw [← acc]
    exact ends.applied
  · rw [ends.items, ← replaces, same]
    rfl
  · change s.outbox ++ tx₂.outbox = _
    rw [ends.outbox, same]
    rfl
  · change tx₂.outboxSeq = _
    rw [ends.seq, same]
    rfl

theorem apply_cases (s : Store) (clk : Time) (ctx : Nat) (newID : Option UUID) (m : Mutation) :
    (s.apply clk ctx newID m).1 = s ∨ ∃ ap sub before after evicted,
      s.Commits clk.truncate newID m (s.apply clk ctx newID m).1 ap sub before after evicted := by
  cases result : s.apply clk ctx newID m with
  | mk t answer =>
    cases answer with
    | error err => exact .inl (apply_error result)
    | ok ap => exact .inr ⟨ap, apply_commits result⟩

end Store
end Egauth.Identity
