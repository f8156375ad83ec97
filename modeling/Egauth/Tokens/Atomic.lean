import Egauth.Tokens.Head
import Egauth.Tokens.Owner

/-! What one call of the store does as a whole, and who wins a contested head.

A refused call leaves the store as it was. A rotation or a reissue adds one
token, and among the calls that present one head a single one rotates it.
-/

set_option autoImplicit false

namespace Egauth.Tokens
open Egauth.Core

@[simp] theorem tokenHash_rowOf (r : RefreshRecord) : (rowOf r).tokenHash = r.row.tokenHash := rfl

namespace Store

/-- The flags of one family are set, and that is announced at most once. -/
structure Revokes (s : Store) (fk : FamilyKey) (t : Store) : Prop where
  tokens : ∀ h, t.tokens.lookup h = (s.tokens.lookup h).map (Refresh.revokeIn fk)
  families : t.families = s.families
  feed : t.feed = s.feed ∧ t.seq = s.seq ∨
    ∃ a, t.feed = s.feed ++ [a] ∧ t.seq = s.seq + 1 ∧ a.rev.tenant = fk.tenant ∧ a.rev.family = fk.family
  keys : t.keys = s.keys ∧ t.keyIDs = s.keyIDs

/-- One token is added under the hash of the record, to the family of the record. -/
structure Lists (s : Store) (next : RefreshRecord) (t : Store) : Prop where
  fresh : s.tokens.lookup next.row.tokenHash = none
  families : ∀ fk, t.families.lookup fk =
    if fk = (rowOf next).key then some (s.hashesOf fk ++ [next.row.tokenHash]) else s.families.lookup fk
  keys : t.keys = s.keys ∧ t.keyIDs = s.keyIDs

/-- The presented token is consumed and the next one continues its family. -/
structure Rotates (s : Store) (now : Time) (req : RotationRequest) (t : Store) : Prop extends s.Lists req.next t where
  head : ∃ r, s.tokens.lookup req.presented = some r ∧ r.consumedAt = 0 ∧ r.revoked = false ∧
    req.next.row.subject = r.row.subject ∧ req.next.row.lineage = r.row.lineage ∧ req.next.row.family = r.row.family ∧
    (rowOf req.next).familyExpiresAt ≤ r.row.familyExpiresAt ∧
    ∀ h, t.tokens.lookup h =
      if h = req.next.row.tokenHash then some { row := rowOf req.next }
      else if h = req.presented then some (r.consume now req.next.row.clientFingerprint)
      else s.tokens.lookup h
  feed : t.feed = s.feed ∧ t.seq = s.seq

/-- The next token starts a family for the owner of the old one, which is revoked. -/
structure Reissues (s : Store) (req : ReissueRequest) (t : Store) : Prop extends s.Lists req.next t where
  apart : (rowOf req.next).key ≠ ⟨req.next.tenant, req.family⟩
  unused : ∀ h r, ¬ s.ledger.Holds (rowOf req.next).key h r
  live : (∃ h r, s.ledger.Holds ⟨req.next.tenant, req.family⟩ h r) ∧
    ∀ h r, s.ledger.Holds ⟨req.next.tenant, req.family⟩ h r →
      r.revoked = false ∧ r.row.subject = req.next.row.subject ∧ r.row.lineage = req.next.row.lineage
  tokens : ∀ h, t.tokens.lookup h =
    if h = req.next.row.tokenHash then some { row := rowOf req.next }
    else (s.tokens.lookup h).map (Refresh.revokeIn ⟨req.next.tenant, req.family⟩)
  feed : ∃ a, t.feed = s.feed ++ [a] ∧ t.seq = s.seq + 1 ∧ a.rev.tenant = req.next.tenant ∧
    a.rev.family = req.family

section
variable {s t : Store} {clk : Time} {req : RotationRequest}

@[simp] theorem keys_revoke (s : Store) (fk : FamilyKey) (now : Time) :
    (s.revoke fk now).keys = s.keys ∧ (s.revoke fk now).keyIDs = s.keyIDs := by
  dsimp only [revoke]
  split <;> exact ⟨rfl, rfl⟩

theorem revokes_revoke (indexed : s.Indexed) (fk : FamilyKey) (now : Time) : s.Revokes fk (s.revoke fk now) := by
  refine ⟨lookup_tokens_revoke indexed fk now, families_revoke s fk now, ?_, keys_revoke s fk now⟩
  by_cases unrevoked : ∃ h r, s.ledger.Holds fk h r ∧ r.revoked = false
  · obtain ⟨expires, -, contents⟩ := revoke_step indexed now unrevoked
    exact .inr ⟨_, congrArg Ledger.feed contents, congrArg Ledger.seq contents, rfl, rfl⟩
  · have same := revoke_ledger_of_revoked indexed now unrevoked
    exact .inl ⟨congrArg Ledger.feed same, congrArg Ledger.seq same⟩

theorem lists_insert {r : RefreshRecord} (inserted : s.insert r = .ok t) : s.Lists r t := by
  obtain ⟨-, fresh, rfl⟩ := insert_ok inserted
  refine ⟨fresh, fun fk => ?_, rfl, rfl⟩
  rw [Map.lookup_insert_eq]
  split
  next own => rw [own]; rfl
  next => rfl

theorem create_error {r : RefreshRecord} {err : Err} (refused : (s.create r).2 = .error err) : (s.create r).1 = s := by
  revert refused
  unfold create
  split
  · exact fun _ => rfl
  split
  · exact fun _ => rfl
  split
  · exact fun _ => rfl
  · exact nofun

theorem consumeForRotation_error {err : Err}
    (refused : (s.consumeForRotation clk req).2 = .error err) (other : err ≠ .reused) :
    (s.consumeForRotation clk req).1 = s := by
  rcases s.consumeForRotation_cases clk req with ⟨_, result, -⟩ | ⟨_, -, -, result⟩ | ⟨_, _, -, -, -, -, -, -, result⟩
  · rw [result]
  · rw [result] at refused
    cases refused
    exact absurd rfl other
  · rw [result] at refused
    cases refused

theorem consumeForRotation_reused (indexed : s.Indexed)
    (theft : (s.consumeForRotation clk req).2 = .error .reused) :
    ∃ r, s.tokens.lookup req.presented = some r ∧ s.Revokes r.key (s.consumeForRotation clk req).1 := by
  rcases s.consumeForRotation_cases clk req with
    ⟨err, result, other⟩ | ⟨r, found, -, result⟩ | ⟨_, _, -, -, -, -, -, -, result⟩
  · rw [result] at theft
    cases theft
    exact absurd rfl other
  · rw [result]
    exact ⟨r, (lookup_eq_some.mp found).1, revokes_revoke indexed r.key clk.truncate⟩
  · rw [result] at theft
    cases theft

theorem consumeForRotation_ok {rotation : Rotation} (rotated : (s.consumeForRotation clk req).2 = .ok rotation) :
    s.Rotates clk.truncate req (s.consumeForRotation clk req).1 := by
  rcases s.consumeForRotation_cases clk req with
    ⟨err, result, -⟩ | ⟨_, -, -, result⟩ | ⟨r, t, found, replay, continuing, unconsumed, within, inserted, result⟩
  · rw [result] at rotated
    cases rotated
  · rw [result] at rotated
    cases rotated
  · rw [result]
    obtain ⟨stored, -⟩ := lookup_eq_some.mp found
    obtain ⟨subject, lineage, family⟩ := continues_iff.mp continuing
    have contents := ledger_rotate stored inserted (r.consume clk.truncate req.next.row.clientFingerprint)
    have lists := lists_insert inserted
    refine ⟨⟨lists.fresh, lists.families, lists.keys⟩, ⟨r, stored, unconsumed, (replayable_eq_none.mp replay).1,
      subject.symm, lineage.symm, family.symm, within, fun h => ?_⟩, congrArg Ledger.feed contents,
      congrArg Ledger.seq contents⟩
    have entry := congrFun (congrArg Ledger.tokens contents) h
    simp only [ledger, Ledger.set, Function.update_apply] at entry
    exact entry

theorem reissue_error {req : ReissueRequest} {err : Err} (refused : (s.reissue clk req).2 = .error err) :
    (s.reissue clk req).1 = s := by
  rcases s.reissue_cases clk req with ⟨_, result, -⟩ | ⟨_, _, _, -, -, -, -, -, -, -, result⟩
  · rw [result]
  · rw [result] at refused
    cases refused

theorem reissue_ok {req : ReissueRequest} (sound : s.Sound) (reissued : (s.reissue clk req).2 = .ok ()) :
    s.Reissues req (s.reissue clk req).1 := by
  rcases s.reissue_cases clk req with
    ⟨_, result, -⟩ | ⟨t, first, rest, free, rows, apart, unrevoked, subject, lineage, inserted, result⟩
  · rw [result] at reissued
    cases reissued
  · rw [result]
    have distinct : (rowOf req.next).key ≠ ⟨req.next.tenant, req.family⟩ :=
      fun same => apart (congrArg FamilyKey.family same)
    have lists := lists_insert inserted
    obtain ⟨-, fresh, contents⟩ := insert_ok inserted
    have indexed := sound.indexed.insert inserted
    -- Every token of the old family stands among the rows that were looked at.
    have listed (h : Bytes) (r : Refresh) (held : s.ledger.Holds ⟨req.next.tenant, req.family⟩ h r) :
        r ∈ first :: rest := rows ▸ (mem_familyRows sound.indexed).mpr ⟨h, held⟩
    obtain ⟨h₀, held₀⟩ := (mem_familyRows sound.indexed).mp (rows ▸ List.mem_cons_self : first ∈ s.familyRows _)
    rw [state_revoked] at unrevoked
    have open' (r : Refresh) (member : r ∈ first :: rest) : r.revoked = false :=
      Bool.eq_false_iff.mpr fun revoked => List.any_eq_false.mp unrevoked r member revoked
    have stays : t.ledger.Holds ⟨req.next.tenant, req.family⟩ h₀ first :=
      ⟨lookup_of_insert held₀.1 inserted, held₀.2⟩
    obtain ⟨expires, -, announced⟩ := revoke_step indexed clk.truncate
      ⟨h₀, first, stays, open' first List.mem_cons_self⟩
    refine ⟨⟨lists.fresh, ?_, ?_⟩, distinct, sound.indexed.absent_iff.mp free, ⟨⟨h₀, first, held₀⟩, ?_⟩, fun h => ?_,
      ⟨⟨t.seq + 1, ⟨req.next.tenant, req.family, clk.truncate⟩, expires⟩, ?_, ?_, rfl, rfl⟩⟩
    · rw [families_revoke]
      exact lists.families
    · obtain ⟨keys, ids⟩ := keys_revoke t ⟨req.next.tenant, req.family⟩ clk.truncate
      exact ⟨keys.trans lists.keys.1, ids.trans lists.keys.2⟩
    · intro h r held
      have agree := sound.coherent.agree held.1 held₀.1 (held.2.trans held₀.2.symm)
      exact ⟨open' r (listed h r held), agree.subject.trans subject, agree.lineage.trans lineage⟩
    · rw [lookup_tokens_revoke indexed, contents, Map.lookup_insert_eq, tokenHash_rowOf]
      by_cases new : h = req.next.row.tokenHash
      · have next : ({ row := rowOf req.next } : Refresh).revokeIn ⟨req.next.tenant, req.family⟩ =
            { row := rowOf req.next } := Refresh.revokeIn_of_ne distinct
        rw [if_pos new, if_pos new, Option.map_some, next]
      · rw [if_neg new, if_neg new]
    · exact (congrArg Ledger.feed announced).trans (by rw [contents])
    · exact (congrArg Ledger.seq announced).trans (by rw [contents])

end
end Store

def Store.Heads (s : Store) (h : Bytes) : Prop :=
  ∃ r, s.tokens.lookup h = some r ∧ r.consumedAt = 0 ∧ r.revoked = false

def Call.presents (h : Bytes) (call : Call) : Bool :=
  match call.op with
  | .consumeForRotation req => req.presented == h
  | _ => false

def Call.wins (h : Bytes) (s : Store) (call : Call) : Bool :=
  match call.op with
  | .consumeForRotation req => req.presented == h && (s.consumeForRotation call.clk req).2.isOk
  | _ => false

/-- What a request has to bring to rotate the head: a new record that continues its family, in time. -/
structure RotationRequest.Fits (req : RotationRequest) (s : Store) (now : Time) : Prop where
  accepted : checkRefreshRow (rowOf req.next) = none
  fresh : s.tokens.lookup req.next.row.tokenHash = none
  continuing : ∀ r, s.tokens.lookup req.presented = some r → continues r.row req.next = true ∧
    req.next.row.familyExpiresAt.truncate ≤ r.row.familyExpiresAt ∧ now < r.row.idleExpiresAt

/-- A call of a contest: one that presents the head fits it as long as there is one, another leaves it alone. -/
structure Call.Contests (h : Bytes) (s : Store) (call : Call) : Prop where
  fits : s.Heads h → ∀ req, call.op = .consumeForRotation req → req.presented = h → req.Fits s call.clk.truncate
  spares : call.presents h = false → ((s.apply call).Heads h ↔ s.Heads h)

def Contest (h : Bytes) : Store → List Call → Prop
  | _, [] => True
  | s, call :: later => call.Admissible s ∧ call.Contests h s ∧ Contest h (s.apply call) later

def winners (h : Bytes) : Store → List Call → Nat
  | _, [] => 0
  | s, call :: later => (if call.wins h s then 1 else 0) + winners h (s.apply call) later

section
variable {s : Store} {h : Bytes} {call : Call}

theorem Call.presents_iff : call.presents h = true ↔ ∃ req, call.op = .consumeForRotation req ∧ req.presented = h := by
  unfold presents
  cases call.op <;> simp

theorem Call.wins_iff : call.wins h s = true ↔ ∃ req rotation, call.op = .consumeForRotation req ∧ req.presented = h ∧
    (s.consumeForRotation call.clk req).2 = .ok rotation := by
  unfold wins
  cases call.op with
  | consumeForRotation req =>
    cases result : (s.consumeForRotation call.clk req).2 <;> simp [result, Except.isOk, Except.toBool]
  | _ => simp

theorem RotationRequest.Fits.rotates {req : RotationRequest} {clk : Time} (sound : s.Sound)
    (head : s.Heads req.presented) (fits : req.Fits s clk.truncate) :
    ∃ rotation, (s.consumeForRotation clk req).2 = .ok rotation := by
  obtain ⟨r, stored, unconsumed, unrevoked⟩ := head
  obtain ⟨continuing, within, idle⟩ := fits.continuing r stored
  obtain ⟨row, valid⟩ := sound.coherent.row stored
  have sized : req.presented.length = hashLen := row ▸ valid.hash
  have given : req.next.isZero = false := by
    have long : req.next.row.tokenHash.length = hashLen := (checkRefreshRow_valid fits.accepted).hash
    cases hash : req.next.row.tokenHash with
    | nil =>
      rw [hash] at long
      cases long
    | cons byte rest => simp [RefreshRecord.isZero, hash]
  have found : s.lookup req.next.tenant req.presented = some r :=
    Store.lookup_eq_some.mpr ⟨stored, by rw [(continues_iff.mp continuing).1, RefreshRecord.tenant]⟩
  have usable : replayable r clk.truncate = none :=
    replayable_eq_none.mpr ⟨unrevoked, idle.trans_le valid.idle, fun _ => idle⟩
  have inserted : ∃ t, s.insert req.next = .ok t := by
    have restored : ∃ record, restoreRefreshRecord (rowOf req.next) = .ok record := by
      unfold restoreRefreshRecord
      split
      next => exact ⟨_, rfl⟩
      next refused =>
        rw [fits.accepted] at refused
        cases refused
    obtain ⟨record, restored⟩ := restored
    cases result : s.insert req.next with
    | ok t => exact ⟨t, rfl⟩
    | error err => simp [Store.insert, restored, fits.fresh] at result
  obtain ⟨t, inserted⟩ := inserted
  refine ⟨⟨r.row.family, clk.truncate⟩, ?_⟩
  simp [Store.consumeForRotation, given, sized, found, usable, continuing, unconsumed, not_lt.mpr within, inserted]

theorem Call.heads_of_wins (won : call.wins h s = true) : s.Heads h := by
  obtain ⟨req, rotation, -, rfl, rotated⟩ := wins_iff.mp won
  obtain ⟨r, stored, unconsumed, unrevoked, -⟩ := (Store.consumeForRotation_ok rotated).head
  exact ⟨r, stored, unconsumed, unrevoked⟩

/-- A rotation that reads a clock leaves no head behind under the presented hash. -/
theorem Call.not_heads_of_wins (dated : call.Dated) (won : call.wins h s = true) : ¬(s.apply call).Heads h := by
  obtain ⟨req, rotation, rotates, rfl, rotated⟩ := wins_iff.mp won
  obtain ⟨⟨fresh, -, -⟩, ⟨r, stored, -, -, -, -, -, -, tokens⟩, -⟩ := Store.consumeForRotation_ok rotated
  unfold Dated at dated
  rw [rotates] at dated
  simp only [Store.apply, rotates]
  rintro ⟨r', stored', unconsumed, -⟩
  have other : req.presented ≠ req.next.row.tokenHash := fun same => by
    rw [same, fresh] at stored
    cases stored
  rw [tokens, if_neg other, if_pos rfl] at stored'
  cases stored'
  exact dated unconsumed

/-- A token that is no head is not made one by presenting it. -/
theorem Call.not_heads_of_presents (indexed : s.Indexed) (presents : call.presents h = true) (gone : ¬s.Heads h) :
    ¬(s.apply call).Heads h := by
  obtain ⟨req, rotates, rfl⟩ := presents_iff.mp presents
  simp only [Store.apply, rotates]
  cases result : (s.consumeForRotation call.clk req).2 with
  | ok rotation => exact absurd (heads_of_wins (wins_iff.mpr ⟨req, rotation, rotates, rfl, result⟩)) gone
  | error err =>
    by_cases theft : err = .reused
    · subst theft
      obtain ⟨r, -, revokes⟩ := Store.consumeForRotation_reused indexed result
      rintro ⟨r', stored', unconsumed, unrevoked⟩
      rw [revokes.tokens] at stored'
      obtain ⟨before, stored, rfl⟩ := Option.map_eq_some_iff.mp stored'
      rw [Refresh.revoked_revokeIn, Bool.or_eq_false_iff] at unrevoked
      rw [Refresh.consumedAt_revokeIn] at unconsumed
      exact gone ⟨before, stored, unconsumed, unrevoked.1⟩
    · rwa [Store.consumeForRotation_error result theft]

theorem winners_eq_zero {later : List Call} (sound : s.Sound) (gone : ¬s.Heads h) (contest : Contest h s later) :
    winners h s later = 0 := by
  induction later generalizing s with
  | nil => rfl
  | cons call later ih =>
    obtain ⟨-, meets, contest⟩ := contest
    have lost : call.wins h s = false := Bool.eq_false_iff.mpr fun won => gone (Call.heads_of_wins won)
    have still : ¬(s.apply call).Heads h := by
      cases presents : call.presents h with
      | true => exact Call.not_heads_of_presents sound.indexed presents gone
      | false => rwa [meets.spares presents]
    simp [winners, lost, ih (sound.apply call) still contest]

/-- Of the calls that present a head, the first one rotates it and no other does. -/
theorem winners_eq {later : List Call} (sound : s.Sound) (head : s.Heads h) (contest : Contest h s later)
    (dated : ∀ call ∈ later, call.Dated) : winners h s later = if later.any (Call.presents h) then 1 else 0 := by
  induction later generalizing s with
  | nil => rfl
  | cons call later ih =>
    obtain ⟨-, meets, contest⟩ := contest
    cases presents : call.presents h with
    | true =>
      obtain ⟨req, rotates, rfl⟩ := Call.presents_iff.mp presents
      obtain ⟨rotation, rotated⟩ := (meets.fits head req rotates rfl).rotates sound head
      have won : call.wins req.presented s = true := Call.wins_iff.mpr ⟨req, rotation, rotates, rfl, rotated⟩
      have gone := Call.not_heads_of_wins (dated call (by simp)) won
      simp [winners, won, presents, winners_eq_zero (sound.apply call) gone contest]
    | false =>
      have lost : call.wins h s = false := by
        refine Bool.eq_false_iff.mpr fun won => ?_
        obtain ⟨req, _, rotates, same, -⟩ := Call.wins_iff.mp won
        rw [Call.presents_iff.mpr ⟨req, rotates, same⟩] at presents
        cases presents
      have still : (s.apply call).Heads h := (meets.spares presents).mpr head
      simp [winners, lost, presents, ih (sound.apply call) still contest fun c member => dated c (by simp [member])]

/-- The calls that write refresh tokens have their whole effect or none, a rotation continues the family of the
token it consumes, and of the calls that present one head exactly one rotates it. -/
theorem token_calls_atomic {calls : List Call} (run : Run Step .new calls s) (clk : Time) :
    (∀ r err, (s.create r).2 = .error err → (s.create r).1 = s) ∧
    (∀ req err, (s.consumeForRotation clk req).2 = .error err → err ≠ .reused →
      (s.consumeForRotation clk req).1 = s) ∧
    (∀ req err, (s.reissue clk req).2 = .error err → (s.reissue clk req).1 = s) ∧
    (∀ req, (s.consumeForRotation clk req).2 = .error .reused →
      ∃ r, s.tokens.lookup req.presented = some r ∧ s.Revokes r.key (s.consumeForRotation clk req).1) ∧
    (∀ req rotation, (s.consumeForRotation clk req).2 = .ok rotation →
      s.Rotates clk.truncate req (s.consumeForRotation clk req).1) ∧
    (∀ req, (s.reissue clk req).2 = .ok () → s.Reissues req (s.reissue clk req).1) ∧
    (∀ h later, s.Heads h → Contest h s later → (∀ call ∈ later, call.Dated) →
      winners h s later = if later.any (Call.presents h) then 1 else 0) := by
  have sound : s.Sound := by
    refine run.invariant Store.Sound (fun {s call t} sound step => ?_) .new
    rw [step.2]
    exact sound.apply call
  exact ⟨fun _ _ => Store.create_error, fun _ _ => Store.consumeForRotation_error,
    fun _ _ => Store.reissue_error, fun _ => Store.consumeForRotation_reused sound.indexed,
    fun _ _ => Store.consumeForRotation_ok, fun _ => Store.reissue_ok sound, fun _ _ => winners_eq sound⟩

end

namespace Sample

theorem accepts_first : checkRefreshRow (row 1 1000000 2000000) = none := by decide

theorem accepts_second : checkRefreshRow (row 2 1000000 2000000) = none := by decide

def headed : Store := Store.new.apply ⟨1000, .create (record 1 1000000 2000000 accepts_first)⟩

theorem headed_run : Run Step .new [⟨1000, .create (record 1 1000000 2000000 accepts_first)⟩] headed :=
  .single ⟨trivial, rfl⟩

theorem headed_heads : headed.Heads (List.replicate hashLen 1) :=
  ⟨{ row := row 1 1000000 2000000 }, by decide, rfl, rfl⟩

def rotates : RotationRequest := ⟨List.replicate hashLen 1, record 2 1000000 2000000 accepts_second⟩

def rival : RotationRequest := ⟨List.replicate hashLen 1, record 3 1000000 2000000 (by decide)⟩

def presentations (clk : Time) : List Call := [⟨clk, .consumeForRotation rotates⟩, ⟨clk, .consumeForRotation rival⟩]

theorem contests_presented {s : Store} {clk : Time} {req : RotationRequest} (fits : req.Fits s clk.truncate) :
    Call.Contests req.presented s ⟨clk, .consumeForRotation req⟩ := by
  refine ⟨fun _ other same _ => ?_, fun absent => ?_⟩
  · cases same
    exact fits
  · have presents : Call.presents req.presented ⟨clk, .consumeForRotation req⟩ = true :=
      Call.presents_iff.mpr ⟨req, rfl, rfl⟩
    rw [presents] at absent
    cases absent

theorem presentations_contest {clk : Time} (early : clk.truncate < 1000000) {r : Refresh}
    (after : (headed.apply ⟨clk, .consumeForRotation rotates⟩).tokens.lookup (List.replicate hashLen 1) = some r)
    (kept : r.row = row 1 1000000 2000000)
    (free : (headed.apply ⟨clk, .consumeForRotation rotates⟩).tokens.lookup (List.replicate hashLen 3) = none) :
    Contest (List.replicate hashLen 1) headed (presentations clk) := by
  have first : rotates.Fits headed clk.truncate := by
    refine ⟨by decide, by decide, fun r stored => ?_⟩
    have entry : headed.tokens.lookup (List.replicate hashLen 1) = some { row := row 1 1000000 2000000 } := by decide
    cases entry.symm.trans stored
    exact ⟨by decide, by decide, early⟩
  have second : rival.Fits (headed.apply ⟨clk, .consumeForRotation rotates⟩) clk.truncate := by
    refine ⟨by decide, free, fun r' stored => ?_⟩
    cases after.symm.trans stored
    rw [kept]
    exact ⟨by decide, by decide, early⟩
  exact ⟨trivial, contests_presented first, trivial, contests_presented second, trivial⟩

end Sample

open Sample

theorem token_calls_atomic_contest :
    winners (List.replicate hashLen 1) headed (presentations 1000) = 1 := by
  have dated : ∀ call ∈ presentations 1000, call.Dated := by
    simp only [presentations, List.mem_cons, List.not_mem_nil, or_false, forall_eq_or_imp, forall_eq]
    exact ⟨(by decide : (1000 : Time).truncate ≠ 0), (by decide : (1000 : Time).truncate ≠ 0)⟩
  have contest : Contest (List.replicate hashLen 1) headed (presentations 1000) :=
    presentations_contest (by decide)
      (r := { row := Sample.row 1 1000000 2000000, consumedAt := 1000, consumedBy := [7] }) (by decide) rfl (by decide)
  obtain ⟨-, -, -, -, -, -, won⟩ := token_calls_atomic headed_run 1000
  exact won _ _ headed_heads contest dated

/-- A rotation at the zero Time leaves the token a head, and the next one rotates it again. -/
theorem zero_time_rotation_repeats : ∃ calls s h later, Run Step .new calls s ∧ s.Heads h ∧ Contest h s later ∧
    winners h s later = 2 := by
  have contest : Contest (List.replicate hashLen 1) headed (presentations 0) :=
    presentations_contest (by decide)
      (r := { row := Sample.row 1 1000000 2000000, consumedBy := [7] }) (by decide) rfl (by decide)
  exact ⟨_, _, _, _, headed_run, headed_heads, contest, by decide⟩

end Egauth.Tokens
