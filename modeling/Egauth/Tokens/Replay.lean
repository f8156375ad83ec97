import Egauth.Tokens.Feed
import Egauth.Tokens.Head

/-! Replay of a consumed token.

A consumed token is kept as evidence: presented again while its family can still
be rotated, it names the theft. The reaper drops tokens by idle expiry, consumed
or not, and with them the evidence.
-/

set_option autoImplicit false

namespace Egauth.Tokens

variable {r : Refresh} {h : Bytes}

theorem Ledger.Step.consumed {l m : Ledger} {event : Event} (step : Ledger.Step l event m)
    (stored : l.tokens h = some r) (consumed : r.consumedAt ≠ 0) :
    m.tokens h = some r ∨ m.tokens h = some { r with revoked := true } ∨
      (event = .forgotten r.key ∧ ∀ h r', ¬ m.Holds r.key h r') ∨
      ∃ now, event = .expired now ∧ r.expired now = true := by
  cases step with
  | issue fresh =>
    exact .inl (set_tokens.mpr (.inr ⟨ne_of_fresh stored fresh, stored⟩))
  | rotate _ presented unconsumed _ fresh =>
    refine .inl (set_tokens.mpr (.inr ⟨ne_of_fresh stored fresh, set_tokens.mpr (.inr ⟨?_, stored⟩)⟩))
    rintro rfl
    rw [presented] at stored
    exact consumed (Option.some.inj stored ▸ unconsumed)
  | revoke fk =>
    by_cases own : r.key = fk
    · exact .inr (.inl (by simp [stored, Refresh.revokeIn, own]))
    · exact .inl (by simp [stored, Refresh.revokeIn, own])
  | forget fk =>
    by_cases own : r.key = fk
    · subst own
      refine .inr (.inr (.inl ⟨rfl, fun h r' held => ?_⟩))
      have kept := (Option.filter_eq_some_iff.mp held.1).2
      simp [held.2] at kept
    · exact .inl (by simp [stored, Option.filter_some, own])
  | expire now =>
    by_cases expired : r.expired now = true
    · exact .inr (.inr (.inr ⟨now, rfl, expired⟩))
    · exact .inl (by simp [stored, Option.filter_some, expired])

namespace Store

/-- What a whole call does to a consumed token: it stays as it is, its family is
revoked or deleted, or the reaper finds it expired. -/
theorem Indexed.apply_consumed {s : Store} (indexed : s.Indexed) (call : Call) {h : Bytes} {r : Refresh}
    (stored : s.tokens.lookup h = some r) (consumed : r.consumedAt ≠ 0) :
    (s.apply call).ledger.tokens h = some r ∨ (s.apply call).ledger.tokens h = some { r with revoked := true } ∨
      (call.op.Removes ∧ ∀ h r', ¬ (s.apply call).ledger.Holds r.key h r') ∨
      (call.op = .reapExpired ∧ r.expired call.clk.truncate = true) := by
  refine indexed.apply_invariant call (fun l => l.tokens h = some r ∨ l.tokens h = some { r with revoked := true } ∨
    (call.op.Removes ∧ ∀ h r', ¬ l.Holds r.key h r') ∨
    (call.op = .reapExpired ∧ r.expired call.clk.truncate = true)) ?_ (.inl stored)
  intro l event m ok permitted step
  have removes : event = .forgotten r.key → call.op.Removes := fun forgotten => by rwa [forgotten] at permitted
  have reaps : ∀ now, event = .expired now → call.op = .reapExpired ∧ now = call.clk.truncate :=
    fun now expired => by rwa [expired] at permitted
  rcases ok with kept | revoked | ⟨removed, empty⟩ | reaped
  · rcases step.consumed kept consumed with kept | revoked | ⟨forgotten, empty⟩ | ⟨now, expiry, expired⟩
    · exact .inl kept
    · exact .inr (.inl revoked)
    · exact .inr (.inr (.inl ⟨removes forgotten, empty⟩))
    · obtain ⟨reap, rfl⟩ := reaps now expiry
      exact .inr (.inr (.inr ⟨reap, expired⟩))
  · -- Revoking again changes nothing; the key and the expiries are those of the token before.
    rcases step.consumed revoked consumed with kept | again | ⟨forgotten, empty⟩ | ⟨now, expiry, expired⟩
    · exact .inr (.inl kept)
    · exact .inr (.inl again)
    · exact .inr (.inr (.inl ⟨removes forgotten, empty⟩))
    · obtain ⟨reap, rfl⟩ := reaps now expiry
      exact .inr (.inr (.inr ⟨reap, expired⟩))
  · -- A deleting call issues nothing, so the family stays empty.
    refine .inr (.inr (.inl ⟨removed, step.empty ?_ empty⟩))
    rintro rfl
    have starts : call.op.starts = some r.key := permitted
    cases op : call.op <;> simp_all [Op.Removes, Op.starts]
  · exact .inr (.inr (.inr reaped))

def Rotatable (s : Store) (fk : FamilyKey) (now : Time) : Prop :=
  ∃ h r, s.ledger.Holds fk h r ∧ r.consumedAt = 0 ∧ usable r now = none

end Store

/-- The call is not a reaping past the idle expiry `idle`. -/
def Call.Spares (idle : Time) (call : Call) : Prop := call.op = .reapExpired → call.clk.truncate < idle

/-- The state a consumed token of a living family is in. -/
structure Store.Keeps (s : Store) (h : Bytes) (r : Refresh) : Prop where
  headed : s.Headed
  stored : s.tokens.lookup h = some r

variable {s : Store}

theorem Store.Keeps.apply (keeps : s.Keeps h r)
    (consumed : r.consumedAt ≠ 0) {call : Call} (dated : call.Dated)
    (spares : call.Spares r.row.idleExpiresAt) (lives : ¬ s.Ends r.key call) :
    (s.apply call).Keeps h r := by
  refine ⟨keeps.headed.apply dated, ?_⟩
  have indexed := (keeps.headed.apply dated).sound.indexed
  rcases keeps.headed.sound.indexed.apply_consumed call keeps.stored consumed with
    kept | revoked | ⟨removed, empty⟩ | ⟨reap, expired⟩
  · exact kept
  · exact absurd (.inl ⟨h, _, ⟨revoked, rfl⟩, rfl⟩) lives
  · refine absurd (.inr ⟨?_, ?_, indexed.absent_iff.mpr empty⟩) lives
    · intro reap
      rw [reap] at removed
      exact removed
    · refine Option.isSome_iff_ne_none.mpr fun absent => ?_
      exact keeps.headed.sound.indexed.absent_iff.mp absent h r ⟨keeps.stored, rfl⟩
  · -- The idle expiry comes first, and it has not passed.
    have idle := (keeps.headed.sound.coherent.row keeps.stored).2.idle
    have early := spares reap
    simp only [Refresh.expired, decide_eq_true_eq, not_lt] at expired
    exact absurd early (not_lt.mpr (expired.elim id idle.trans))

variable {req : RotationRequest}

theorem Store.Keeps.consume {t : Store} (headed : s.Headed) {clk : Time}
    {rotation : Rotation} (stored : s.tokens.lookup req.presented = some r)
    (dated : clk.truncate ≠ 0) (rotated : s.consumeForRotation clk req = (t, .ok rotation)) :
    t.Keeps req.presented (r.consume clk.truncate req.next.row.clientFingerprint) := by
  have applied : s.apply ⟨clk, .consumeForRotation req⟩ = t := congrArg Prod.fst rotated
  refine ⟨applied ▸ headed.apply dated, ?_⟩
  rcases s.consumeForRotation_cases clk req with
    ⟨err, result, -⟩ | ⟨_, -, -, result⟩ | ⟨r', t', found, -, -, -, -, inserted, result⟩
  · rw [result] at rotated
    cases rotated
  · rw [result] at rotated
    cases rotated
  · rw [result] at rotated
    cases rotated
    have same : r' = r := Option.some.inj ((lookup_eq_some.mp found).1.symm.trans stored)
    rw [AList.lookup_insert, same]

theorem Store.Keeps.replay (keeps : s.Keeps h r)
    (consumed : r.consumedAt ≠ 0) (unrevoked : r.revoked = false) {clk : Time}
    (within : clk.truncate < r.row.familyExpiresAt) (presented : req.presented = h)
    (given : req.next.isZero = false) (continuing : continues r.row req.next = true) :
    s.consumeForRotation clk req =
      if clk.truncate.sub r.consumedAt < reuseGrace ∧ r.consumedBy.length > 0 ∧
          r.consumedBy = req.next.row.clientFingerprint then (s, .error .concurrent)
      else (s.revoke r.key clk.truncate, .error .reused) := by
  obtain ⟨row, valid⟩ := keeps.headed.sound.coherent.row keeps.stored
  have sized : req.presented.length = hashLen := by rw [presented, ← row, valid.hash]
  have tenant : r.row.subject.tenant = req.next.tenant := by
    rw [(continues_iff.mp continuing).1, RefreshRecord.tenant]
  have found : s.lookup req.next.tenant req.presented = some r :=
    lookup_eq_some.mpr ⟨presented ▸ keeps.stored, tenant⟩
  have replay : replayable r clk.truncate = none :=
    replayable_eq_none.mpr ⟨unrevoked, within, fun zero => absurd zero consumed⟩
  simp [consumeForRotation, given, sized, found, replay, continuing, consumed]

/-- What presenting `h` again has to do: nothing within the grace of the same
client, otherwise revoke the whole family and announce it once. -/
def Store.Detects (s : Store) (fk : FamilyKey) (clk consumedAt : Time) (consumedBy : Bytes)
    (req : RotationRequest) : Prop :=
  (s.consumeForRotation clk req = (s, .error .concurrent) ∧ clk.truncate - consumedAt < reuseGrace ∧
      consumedBy ≠ [] ∧ consumedBy = req.next.row.clientFingerprint) ∨
    ((s.consumeForRotation clk req).2 = .error .reused ∧
      (∀ h r, (s.consumeForRotation clk req).1.ledger.Holds fk h r → r.revoked = true) ∧
      ∃ announced, (s.consumeForRotation clk req).1.feed = s.feed ++ [announced] ∧
        announced.rev = ⟨fk.tenant, fk.family, clk.truncate⟩)

theorem Store.Keeps.detects (keeps : s.Keeps h r)
    (consumed : r.consumedAt ≠ 0) (unrevoked : r.revoked = false) {clk : Time}
    (rotatable : s.Rotatable r.key clk.truncate) (presented : req.presented = h)
    (given : req.next.isZero = false) (continuing : continues r.row req.next = true) :
    s.Detects r.key clk r.consumedAt r.consumedBy req := by
  have within : clk.truncate < r.row.familyExpiresAt := by
    -- The head outlives no consumed token of its family.
    obtain ⟨h', r', ⟨stored', own⟩, unconsumed, usable'⟩ := rotatable
    have outlives := (keeps.headed.ranked keeps.stored stored' own.symm).within consumed unconsumed
    have ends : clk.truncate < r'.row.familyExpiresAt := by
      by_contra passed
      simp [usable, passed] at usable'
    exact lt_of_lt_of_le ends outlives
  have result := keeps.replay consumed unrevoked within presented given continuing
  unfold Store.Detects
  split at result
  next grace =>
    obtain ⟨soon, known, same⟩ := grace
    have elapsed := (Time.sub_lt_iff (by decide) (by decide)).mp soon
    exact .inl ⟨result, elapsed, List.ne_nil_of_length_pos known, same⟩
  next =>
    obtain ⟨expires, -, contents⟩ := revoke_step keeps.headed.sound.indexed clk.truncate
      ⟨h, r, ⟨keeps.stored, rfl⟩, unrevoked⟩
    rw [result]
    exact .inr ⟨rfl, fun _ _ held => revoked_of_holds_revoke keeps.headed.sound.indexed held, _,
      congrArg Ledger.feed contents, rfl⟩

/-- A token consumed by a successful rotation and presented again, when the reaper has
not run past its idle expiry since and no rotation read the zero Time. -/
theorem replay_of_consumed_detected {past later : List Call} {s t u : Store} {clk : Time}
    {req : RotationRequest} {rotation : Rotation} {r : Refresh}
    (before : Run (Restrict (fun _ call => call.Dated) Step) .new past s)
    (stored : s.tokens.lookup req.presented = some r) (dated : clk.truncate ≠ 0)
    (rotated : s.consumeForRotation clk req = (t, .ok rotation))
    (since : Run (Restrict (fun s call => call.Dated ∧ call.Spares r.row.idleExpiresAt ∧
      ¬ s.Ends r.key call) Step) t later u)
    {clk' : Time} (rotatable : u.Rotatable r.key clk'.truncate) {replay : RotationRequest}
    (presented : replay.presented = req.presented) (given : replay.next.isZero = false)
    (continuing : continues r.row replay.next = true) :
    u.Detects r.key clk' clk.truncate req.next.row.clientFingerprint replay := by
  have start := Store.Keeps.consume (Store.Headed.new.run before) stored dated rotated
  have unrevoked : r.revoked = false := by
    rcases s.consumeForRotation_cases clk req with
      ⟨err, result, -⟩ | ⟨_, -, -, result⟩ | ⟨r', _, found, replay, -, -, -, -, -⟩
    · simp [result] at rotated
    · simp [result] at rotated
    · rw [← Option.some.inj ((Store.lookup_eq_some.mp found).1.symm.trans stored)]
      exact (replayable_eq_none.mp replay).1
  have keeps : u.Keeps req.presented (r.consume clk.truncate req.next.row.clientFingerprint) := by
    refine since.invariant (Store.Keeps · _ _) (fun {s call t} keeps step => ?_) start
    obtain ⟨⟨dated', spares, lives⟩, -, rfl⟩ := step
    exact keeps.apply dated dated' spares lives
  exact keeps.detects dated unrevoked rotatable presented given continuing

namespace Sample

def created : Store := Store.new.apply ⟨1000, .create (record 1 1000000 5000000 (by decide))⟩

def rotate : RotationRequest := ⟨List.replicate hashLen 1, record 2 3000000 5000000 (by decide)⟩

def rotated : Store := (created.consumeForRotation 2000 rotate).1

def replay : RotationRequest := ⟨List.replicate hashLen 1, record 3 3000000 5000000 (by decide)⟩

theorem created_run : Run Step .new [⟨1000, .create (record 1 1000000 5000000 (by decide))⟩] created :=
  .single ⟨trivial, rfl⟩

theorem rotated_ok : created.consumeForRotation 2000 rotate = (rotated, .ok ⟨uuid 2, 2000⟩) := rfl

end Sample

open Sample

theorem replay_detected_after_rotation :
    rotated.Detects (Sample.row 1 1000000 5000000).key 3000 2000 [7] replay := by
  have stored : Sample.created.tokens.lookup rotate.presented = some { row := Sample.row 1 1000000 5000000 } := rfl
  have rotatable : rotated.Rotatable (Sample.row 1 1000000 5000000).key (3000 : Time).truncate :=
    ⟨List.replicate hashLen 2, { row := Sample.row 2 3000000 5000000 }, ⟨rfl, rfl⟩, rfl, by decide⟩
  have again : replay.presented = rotate.presented := rfl
  have created := created_run.restrict fun _ call (member : call ∈ [_]) =>
    show call.Dated by rw [List.mem_singleton.mp member]; trivial
  exact replay_of_consumed_detected created stored (by decide) rotated_ok .nil rotatable again
    (by decide) (by decide)

/-- Past its idle expiry the reaper drops the consumed token, and its replay is no
longer known while the successor can still be rotated. -/
theorem replay_after_reaping_not_found :
    ∃ (past later : List Call) (s t u : Store) (clk clk' : Time) (req replay : RotationRequest)
      (rotation : Rotation) (r : Refresh),
      Run Step .new past s ∧ s.tokens.lookup req.presented = some r ∧
      s.consumeForRotation clk req = (t, .ok rotation) ∧
      Run (Restrict (fun s call => ¬ s.Ends r.key call) Step) t later u ∧
      (past.map Call.clk ++ clk :: later.map Call.clk ++ [clk']).Pairwise (· ≤ ·) ∧
      u.Rotatable r.key clk'.truncate ∧ replay.presented = req.presented ∧
      replay.next.isZero = false ∧ continues r.row replay.next = true ∧
      (u.consumeForRotation clk' replay).2 = .error .notFound := by
  have lives : ¬ rotated.Ends (Sample.row 1 1000000 5000000).key ⟨1500000, .reapExpired⟩ := by
    rintro (⟨h, r, ⟨stored, -⟩, revoked⟩ | ⟨other, -⟩)
    · have unrevoked : ∀ e ∈ (rotated.apply ⟨1500000, .reapExpired⟩).tokens.entries,
          e.2.revoked = false := by decide
      rw [unrevoked _ (Map.mem_entries.mpr stored)] at revoked
      cases revoked
    · exact other rfl
  exact ⟨_, [⟨1500000, .reapExpired⟩], _, _, _, 2000, 1600000, rotate, Sample.replay, _,
    { row := Sample.row 1 1000000 5000000 }, created_run, rfl, rotated_ok,
    .single ⟨lives, trivial, rfl⟩, by decide,
    ⟨List.replicate hashLen 2, { row := Sample.row 2 3000000 5000000 }, ⟨rfl, rfl⟩, rfl, by decide⟩,
    rfl, by decide, by decide, rfl⟩

end Egauth.Tokens
