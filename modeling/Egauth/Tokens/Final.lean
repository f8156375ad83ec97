import Egauth.Data.Paging
import Egauth.Tokens.Head
import Egauth.Tokens.Owner

/-! Revocation is final, and announced once.

The store is followed together with a log of everything that its feed has ever
held and of the families it was asked to start. A family is announced by the
call that revokes it and by no other. The feed is what the reaper has left of
the log, so that a reader misses only what has expired.
-/

set_option autoImplicit false

namespace Egauth.Tokens
open Egauth.Core

namespace Ledger
variable {log : List Announcement} {started : List FamilyKey} {now : Time} {l m : Ledger} {event : Event}

/-- The log is in order and names a family once, which then has ended; what is due later is still in the feed. -/
structure Told (log : List Announcement) (started : List FamilyKey) (now : Time) (l : Ledger) : Prop where
  sorted : log.Pairwise fun a b => a.seq < b.seq
  bounded : ∀ a ∈ log, a.seq ≤ l.seq
  feed : l.feed.Sublist log
  kept : ∀ a ∈ log, now < a.expires → a ∈ l.feed
  once : (log.map Announcement.key).Nodup
  ended : ∀ a ∈ log, l.Ended a.key
  named : ∀ a ∈ log, a.key ∈ started
  held : ∀ fk h r, l.Holds fk h r → fk ∈ started

theorem Told.later (told : l.Told log started now) {now' : Time} (later : now ≤ now') : l.Told log started now' :=
  { told with kept := fun a member due => told.kept a member (lt_of_le_of_lt later due) }

theorem Told.more (told : l.Told log started now) (fks : List FamilyKey) : l.Told log (started ++ fks) now :=
  { told with
    named := fun a member => List.mem_append_left _ (told.named a member)
    held := fun fk h r holds => List.mem_append_left _ (told.held fk h r holds) }

theorem Told.issue (told : l.Told log started now) {row : RefreshRow} (fresh : l.tokens row.tokenHash = none)
    (first : ∀ h r, ¬ l.Holds row.key h r) (valid : row.Valid) (unused : row.key ∉ started) :
    (l.set row.tokenHash { row := row }).Told log (started ++ [row.key]) now where
  sorted := told.sorted
  bounded := told.bounded
  feed := told.feed
  kept := told.kept
  once := told.once
  ended a member := by
    refine (told.ended a member).step (.issue fresh first valid) ?_
    intro same
    injection same with same
    exact unused (same ▸ told.named a member)
  named a member := List.mem_append_left _ (told.named a member)
  held fk h r := by
    rintro ⟨found, own⟩
    rcases set_tokens.mp found with ⟨-, rfl⟩ | ⟨-, stored⟩
    · exact List.mem_append_right _ (List.mem_singleton.mpr own.symm)
    · exact List.mem_append_left _ (told.held fk h r ⟨stored, own⟩)

theorem Step.held {fk : FamilyKey} (step : Step l event m) (fresh : event ≠ .issued fk) {h : Bytes} {r : Refresh}
    (holds : m.Holds fk h r) : ∃ h' r', l.Holds fk h' r' := by
  by_contra none
  exact step.empty fresh (fun h' r' held => none ⟨h', r', held⟩) h r holds

/-- Entries that the feed has gained, numbered past those before. -/
structure Gains (l m : Ledger) (new : List Announcement) : Prop where
  feed : m.feed = l.feed ++ new
  later : ∀ a ∈ new, l.seq < a.seq
  seq : l.seq ≤ m.seq

theorem Gains.refl (l : Ledger) : l.Gains l [] := ⟨by simp, by simp, le_rfl⟩

theorem Gains.trans {n : Ledger} {new more : List Announcement} (first : l.Gains m new) (second : m.Gains n more) :
    l.Gains n (new ++ more) where
  feed := by rw [second.feed, first.feed, List.append_assoc]
  later a member := by
    rcases List.mem_append.mp member with early | late
    · exact first.later a early
    · exact lt_of_le_of_lt first.seq (second.later a late)
  seq := first.seq.trans second.seq

/-- An event that neither starts a family nor lets one expire logs what it announces. -/
theorem Told.step (told : l.Told log started now) (step : Step l event m) (barren : ∀ fk, event ≠ .issued fk)
    (lasting : ∀ at', event ≠ .expired at') : ∃ new, l.Gains m new ∧ m.Told (log ++ new) started now := by
  have ended (a : Announcement) (member : a ∈ log) : m.Ended a.key := (told.ended a member).step step (barren _)
  have held (fk : FamilyKey) (h : Bytes) (r : Refresh) (holds : m.Holds fk h r) : fk ∈ started := by
    obtain ⟨h', r', before⟩ := step.held (barren fk) holds
    exact told.held fk h' r' before
  cases step with
  | issue => exact absurd rfl (barren _)
  | expire => exact absurd rfl (lasting _)
  | rotate | forget =>
    refine ⟨[], ⟨by simp [set], by simp, le_rfl⟩, ?_⟩
    rw [List.append_nil]
    exact { told with ended := ended, held := held }
  | @revoke fk at' expires unrevoked covers =>
    -- A family with an unrevoked token has not been announced.
    obtain ⟨h, r, holds, live⟩ := unrevoked
    have unnamed (a : Announcement) (member : a ∈ log) : a.key ≠ fk := by
      rintro rfl
      exact Bool.noConfusion (live.symm.trans (told.ended a member h r holds))
    refine ⟨[⟨l.seq + 1, ⟨fk.tenant, fk.family, at'⟩, expires⟩], ⟨rfl, by simp, Nat.le_succ _⟩, ?_⟩
    exact
      { sorted := by
          refine List.pairwise_append.mpr ⟨told.sorted, List.pairwise_singleton _ _, fun a member b last => ?_⟩
          rw [List.mem_singleton.mp last]
          exact Nat.lt_succ_of_le (told.bounded a member)
        bounded := by
          intro a member
          rcases List.mem_append.mp member with old | last
          · exact Nat.le_succ_of_le (told.bounded a old)
          · rw [List.mem_singleton.mp last]
        feed := told.feed.append (List.Sublist.refl _)
        kept := by
          intro a member due
          rcases List.mem_append.mp member with old | last
          · exact List.mem_append_left _ (told.kept a old due)
          · exact List.mem_append_right _ last
        once := by
          rw [List.map_append, List.nodup_append']
          refine ⟨told.once, List.nodup_singleton _, ?_⟩
          rw [List.map_singleton, List.disjoint_singleton, List.mem_map]
          rintro ⟨a, member, same⟩
          exact unnamed a member same
        ended := by
          intro a member
          rcases List.mem_append.mp member with old | last
          · exact ended a old
          · rw [List.mem_singleton.mp last]
            rintro h' r' ⟨found, own⟩
            obtain ⟨r₀, stored, rfl⟩ := Option.map_eq_some_iff.mp found
            rw [Refresh.key_revokeIn] at own
            simp [own, Announcement.key]
        named := by
          intro a member
          rcases List.mem_append.mp member with old | last
          · exact told.named a old
          · rw [List.mem_singleton.mp last]
            exact told.held fk h r holds
        held := held }

theorem Told.run {events : List Event} (told : l.Told log started now) (run : Run Step l events m)
    (barren : ∀ event ∈ events, ∀ fk, event ≠ .issued fk) (lasting : ∀ event ∈ events, ∀ at', event ≠ .expired at') :
    ∃ new, l.Gains m new ∧ m.Told (log ++ new) started now := by
  induction run with
  | nil => exact ⟨[], .refl _, by simpa using told⟩
  | snoc _ last ih =>
    obtain ⟨new, gains, told⟩ := ih (fun event member => barren event (by simp [member]))
      (fun event member => lasting event (by simp [member]))
    obtain ⟨more, gains', told⟩ := told.step last (barren _ (by simp)) (lasting _ (by simp))
    exact ⟨new ++ more, gains.trans gains', by simpa using told⟩

/-- The reaper takes from the feed what is over by its own reading of the clock. -/
theorem Told.expire {events : List Event} (told : l.Told log started now) (run : Run Step l events m)
    (reaping : ∀ event ∈ events, event = .expired now) : m.Told log started now ∧ m.seq = l.seq := by
  induction run with
  | nil => exact ⟨told, rfl⟩
  | snoc _ last ih =>
    obtain ⟨told, seq⟩ := ih fun event member => reaping event (by simp [member])
    obtain rfl := reaping _ (List.mem_append_right _ (List.mem_singleton_self _))
    have ended (a : Announcement) (member : a ∈ log) := (told.ended a member).step last nofun
    cases last with
    | expire =>
      refine ⟨?_, seq⟩
      exact
        { sorted := told.sorted
          bounded := told.bounded
          feed := List.filter_sublist.trans told.feed
          kept := fun a member due => List.mem_filter.mpr ⟨told.kept a member due, by simpa using due⟩
          once := told.once
          ended := ended
          named := told.named
          held := fun fk h r holds => told.held fk h r ⟨(Option.filter_eq_some_iff.mp holds.1).1, holds.2⟩ }

end Ledger

/-- The store, the last reading of the clock, every announcement so far, and the families that calls were to start. -/
structure Chronicle where
  store : Store
  clock : Time
  log : List Announcement
  started : List FamilyKey

namespace Chronicle
variable {w w' : Chronicle} {call : Call}

def start (clock : Time) : Chronicle := ⟨.new, clock, [], []⟩

def announces (w : Chronicle) (call : Call) : List Announcement :=
  Paging.after Announcement.seq w.store.seq (w.store.apply call).feed

def next (w : Chronicle) (call : Call) : Chronicle where
  store := w.store.apply call
  clock := call.clk
  log := w.log ++ w.announces call
  started := w.started ++ call.op.starts.toList

/-- The clock does not go back, and no family is started twice. -/
def Admits (w : Chronicle) (call : Call) : Prop :=
  call.Admissible w.store ∧ w.clock ≤ call.clk ∧ ∀ fk, call.op.starts = some fk → fk ∉ w.started

def Step (w : Chronicle) (call : Call) (w' : Chronicle) : Prop := w.Admits call ∧ w' = w.next call

structure Ok (w : Chronicle) : Prop where
  sound : w.store.Sound
  told : w.store.ledger.Told w.log w.started w.clock.truncate

theorem Ok.start (clock : Time) : (start clock).Ok where
  sound := .new
  told :=
    { sorted := .nil
      bounded := by simp [Chronicle.start]
      feed := List.Sublist.refl _
      kept := by simp [Chronicle.start]
      once := List.nodup_nil
      ended := by simp [Chronicle.start]
      named := by simp [Chronicle.start]
      held := fun fk h r holds => nomatch holds.1 }

/-- What is past the last position before is what was gained. -/
theorem announces_eq (told : w.store.ledger.Told w.log w.started w.clock.truncate) {new : List Announcement}
    (gains : w.store.ledger.Gains (w.store.apply call).ledger new) : w.announces call = new := by
  have feed : (w.store.apply call).feed = w.store.feed ++ new := gains.feed
  have old : Paging.after Announcement.seq w.store.seq w.store.feed = [] := by
    refine List.filter_eq_nil_iff.mpr fun a member => ?_
    have : a.seq ≤ w.store.seq := told.bounded a (told.feed.subset member)
    simpa using this
  have late : Paging.after Announcement.seq w.store.seq new = new := by
    refine List.filter_eq_self.mpr fun a member => ?_
    have : w.store.seq < a.seq := gains.later a member
    simpa using this
  rw [announces, feed, Paging.after, List.filter_append]
  exact (congrArg₂ (· ++ ·) old late).trans (List.nil_append _)

theorem Ok.gains (ok : w.Ok) {now : Time} (told : w.store.ledger.Told w.log w.started now)
    (starts : call.op.starts = none) (other : call.op ≠ .reapExpired) :
    ∃ new, w.store.ledger.Gains (w.store.apply call).ledger new ∧
      (w.store.apply call).ledger.Told (w.log ++ new) w.started now := by
  obtain ⟨-, events, run, allowed⟩ := w.store.apply_refines call ok.sound.indexed
  refine told.run run (fun event member fk same => ?_) fun event member => Store.lasting_of_allows other (allowed event member)
  have permitted := allowed event member
  rw [same] at permitted
  cases starts.symm.trans permitted

theorem told_insert {s t : Store} {log : List Announcement} {started : List FamilyKey} {now : Time} {r : RefreshRecord}
    (told : s.ledger.Told log started now) (indexed : s.Indexed)
    (first : s.families.lookup ⟨r.tenant, r.row.family⟩ = none) (unused : ⟨r.tenant, r.row.family⟩ ∉ started)
    (inserted : s.insert r = .ok t) : t.ledger.Told log (started ++ [⟨r.tenant, r.row.family⟩]) now ∧
      s.ledger.Gains t.ledger [] := by
  obtain ⟨valid, fresh, -⟩ := Store.insert_ok inserted
  rw [Store.ledger_insert inserted]
  refine ⟨told.issue fresh (indexed.absent_iff.mp first) valid unused, ?_⟩
  exact ⟨by simp [Ledger.set], by simp, le_rfl⟩

theorem create_cases (s : Store) (r : RefreshRecord) : (s.create r).1 = s ∨
    ∃ t, s.families.lookup ⟨r.tenant, r.row.family⟩ = none ∧ s.insert r = .ok t ∧ (s.create r).1 = t := by
  unfold Store.create
  split
  · exact .inl rfl
  split
  · exact .inl rfl
  next free =>
    cases s.insert r with
    | error err => exact .inl rfl
    | ok t => exact .inr ⟨t, by simpa using free, rfl, rfl⟩

theorem Ok.next (ok : w.Ok) (admits : w.Admits call) : (w.next call).Ok := by
  obtain ⟨-, later, unused⟩ := admits
  have told := ok.told.later (Time.truncate_mono later)
  have indexed := ok.sound.indexed
  refine ⟨ok.sound.apply call, ?_⟩
  -- It suffices to know what the feed has gained.
  have gained {new : List Announcement} (gains : w.store.ledger.Gains (w.store.apply call).ledger new)
      (after : (w.store.apply call).ledger.Told (w.log ++ new) (w.started ++ call.op.starts.toList) call.clk.truncate) :
      (w.next call).store.ledger.Told (w.next call).log (w.next call).started (w.next call).clock.truncate := by
    simp only [Chronicle.next, announces_eq ok.told gains]
    exact after
  have same (refused : w.store.apply call = w.store) :
      (w.next call).store.ledger.Told (w.next call).log (w.next call).started (w.next call).clock.truncate := by
    have unchanged : w.store.ledger.Gains (w.store.apply call).ledger [] := by
      rw [refused]
      exact .refl _
    refine gained unchanged ?_
    rw [refused, List.append_nil]
    exact told.more _
  by_cases reaps : call.op = .reapExpired
  · obtain ⟨-, events, run, allowed⟩ := w.store.apply_refines call indexed
    have reaping : ∀ event ∈ events, event = .expired call.clk.truncate := by
      intro event member
      have permitted := allowed event member
      cases event with
      | expired now => rw [permitted.2]
      | issued => simp [Call.Allows, reaps, Op.starts] at permitted
      | rotated => simp [Call.Allows, reaps] at permitted
      | revoked => exact absurd reaps permitted
      | forgotten => simp [Call.Allows, reaps, Op.Removes] at permitted
    obtain ⟨after, seq⟩ := told.expire run reaping
    have none : w.announces call = [] := by
      refine List.filter_eq_nil_iff.mpr fun a member => ?_
      have : a.seq ≤ w.store.seq := told.bounded a (after.feed.subset member)
      simpa using this
    simp only [Chronicle.next, none, List.append_nil]
    exact after.more _
  cases starts : call.op.starts with
  | none =>
    obtain ⟨new, gains, after⟩ := ok.gains told starts reaps
    exact gained gains (by simpa [starts] using after)
  | some fk =>
    obtain ⟨clk, op⟩ := call
    cases op with
    | create r =>
      rcases create_cases w.store r with refused | ⟨t, free, inserted, result⟩
      · exact same refused
      · obtain ⟨after, gains⟩ := told_insert told indexed free (unused _ rfl) inserted
        have stored : w.store.apply ⟨clk, .create r⟩ = t := result
        refine gained (stored ▸ gains) ?_
        rw [List.append_nil]
        exact stored ▸ after
    | reissue req =>
      rcases w.store.reissue_cases clk req with ⟨err, result, -⟩ | ⟨t, _, _, free, -, -, -, -, -, inserted, result⟩
      · exact same (congrArg Prod.fst result)
      · -- The next family is started, then the old one is revoked.
        obtain ⟨after, gains⟩ := told_insert told indexed free (unused _ rfl) inserted
        have barren : t.Refines (fun event => ∃ fk, event = .revoked fk)
            (t.revoke ⟨req.next.tenant, req.family⟩ clk.truncate) := Store.revoke_refines ⟨_, rfl⟩ t _
        obtain ⟨-, events, run, revokes⟩ := barren (indexed.insert inserted)
        obtain ⟨new, gains', after⟩ := after.run run
          (fun event member fk same => by
            obtain ⟨fk', rfl⟩ := revokes event member
            cases same)
          (fun event member at' same => by
            obtain ⟨fk', rfl⟩ := revokes event member
            cases same)
        have stored : w.store.apply ⟨clk, .reissue req⟩ = t.revoke ⟨req.next.tenant, req.family⟩ clk.truncate :=
          congrArg Prod.fst result
        refine gained (stored ▸ gains.trans gains') ?_
        exact stored ▸ after
    | _ => cases starts

end Chronicle

namespace Store
variable {s : Store} {fk : FamilyKey}

/-- The calls that revoke a stored family: those that name it, its subject or its tenant, the replay of a consumed
token, and its reissue. -/
def EndsFamily (s : Store) (call : Call) (fk : FamilyKey) : Prop :=
  (∃ o, s.owner fk = some o ∧ call.op.Targets fk o) ∨
    (∃ req r, call.op = .consumeForRotation req ∧ (s.consumeForRotation call.clk req).2 = .error .reused ∧
      s.lookup req.next.tenant req.presented = some r ∧ r.key = fk) ∨
    ∃ req, call.op = .reissue req ∧ (s.reissue call.clk req).2 = .ok () ∧ fk = ⟨req.next.tenant, req.family⟩

/-- No token of the family is accepted, at whatever time. -/
structure Refuses (s : Store) (fk : FamilyKey) : Prop where
  get : ∀ clk t h record, s.get clk t h = .ok record → ⟨record.tenant, record.row.family⟩ ≠ fk
  rotation : ∀ clk req answer, (s.consumeForRotation clk req).2 = .ok answer → ⟨req.next.tenant, answer.family⟩ ≠ fk
  reissue : ∀ clk req, (s.reissue clk req).2 = .ok () → ⟨req.next.tenant, req.family⟩ ≠ fk

theorem refuses_of_ended (indexed : s.Indexed) (ended : s.ledger.Ended fk) : s.Refuses fk where
  get clk t h record found := by
    rintro rfl
    unfold Store.get at found
    split at found
    · cases found
    next r stored =>
      split at found
      · cases found
      next replay =>
        obtain ⟨unrevoked, -⟩ := replayable_eq_none.mp replay
        have same := (restoreRefreshRecord_ok found).2
        have revoked := ended h r ⟨(lookup_eq_some.mp stored).1, by rw [Refresh.key, RefreshRow.key, ← same]; rfl⟩
        exact Bool.noConfusion (unrevoked.symm.trans revoked)
  rotation clk req answer accepted := by
    rintro rfl
    rcases s.consumeForRotation_cases clk req with
      ⟨err, result, -⟩ | ⟨r, -, -, result⟩ | ⟨r, t, found, replay, continuing, -, -, -, result⟩
    · rw [result] at accepted
      cases accepted
    · rw [result] at accepted
      cases accepted
    · rw [result] at accepted
      cases accepted
      obtain ⟨stored, tenant⟩ := lookup_eq_some.mp found
      have revoked := ended req.presented r ⟨stored, by rw [Refresh.key, RefreshRow.key, tenant]⟩
      exact Bool.noConfusion ((replayable_eq_none.mp replay).1.symm.trans revoked)
  reissue clk req accepted := by
    rintro rfl
    rcases s.reissue_cases clk req with ⟨err, result, -⟩ | ⟨t, first, rest, -, rows, -, unrevoked, -⟩
    · rw [result] at accepted
      cases accepted
    · let old : FamilyKey := ⟨req.next.tenant, req.family⟩
      have state : s.familyState old.tenant old.family = .ok (Tokens.state first (first :: rest)) := by
        unfold Store.familyState
        rw [rows]
      obtain ⟨h, r, holds, live⟩ := familyState_unrevoked indexed state unrevoked
      exact Bool.noConfusion (live.symm.trans (ended h r holds))

/-- The tokens of the family are there, so that it has an owner. -/
theorem EndsFamily.ended (sound : s.Sound) {call : Call} (admissible : call.Admissible s) (revokes : s.EndsFamily call fk) :
    (s.apply call).ledger.Ended fk ∧ ∃ h r, s.ledger.Holds fk h r := by
  have indexed := sound.indexed
  rcases revokes with ⟨o, owner, targets⟩ | ⟨req, r, op, reused, found, rfl⟩ | ⟨req, op, accepted, rfl⟩
  · refine ⟨indexed.apply_targets (sound.owned owner) admissible targets, ?_⟩
    by_contra unheld
    have absent : s.owner fk = none := (owner_eq_none indexed).mpr fun h r held => unheld ⟨h, r, held⟩
    rw [absent] at owner
    cases owner
  · obtain ⟨clk, _⟩ := call
    cases op
    refine ⟨?_, req.presented, r, (lookup_eq_some.mp found).1, rfl⟩
    rcases s.consumeForRotation_cases clk req with ⟨err, result, other⟩ | ⟨r', found', -, result⟩ | ⟨_, _, -, -, -, -, -, -, result⟩
    · rw [result] at reused
      cases reused
      exact absurd rfl other
    · cases found.symm.trans found'
      have stored : s.apply ⟨clk, .consumeForRotation req⟩ = s.revoke r.key clk.truncate := congrArg Prod.fst result
      rw [stored]
      exact ended_revoke indexed _
    · rw [result] at reused
      cases reused
  · obtain ⟨clk, _⟩ := call
    cases op
    rcases s.reissue_cases clk req with ⟨err, result, -⟩ | ⟨t, first, rest, -, rows, -, -, -, -, inserted, result⟩
    · rw [result] at accepted
      cases accepted
    · have stored : s.apply ⟨clk, .reissue req⟩ = t.revoke ⟨req.next.tenant, req.family⟩ clk.truncate :=
        congrArg Prod.fst result
      rw [stored]
      refine ⟨ended_revoke (indexed.insert inserted) _, ?_⟩
      obtain ⟨h, holds⟩ := (mem_familyRows indexed).mp (rows ▸ List.mem_cons_self)
      exact ⟨h, first, holds⟩

def Barred (sub : Subject) (keep : UUID) (subject : Subject) (lineage : UUID) : Prop :=
  subject = sub ∧ (keep = .nil ∨ lineage ≠ keep)

def Bars (s : Store) (sub : Subject) (keep : UUID) : Prop :=
  ∀ t family st, s.familyState t family = .ok st → Barred sub keep st.subject st.lineage → ∀ now, st.live now = false

end Store

namespace Ledger

def Bars (l : Ledger) (sub : Subject) (keep : UUID) : Prop :=
  ∀ h r, l.tokens h = some r → Store.Barred sub keep r.row.subject r.row.lineage → r.revoked = true

variable {l m : Ledger} {event : Event} {sub : Subject} {keep : UUID}

theorem Bars.set (bars : l.Bars sub keep) {h : Bytes} {r : Refresh}
    (spared : Store.Barred sub keep r.row.subject r.row.lineage → r.revoked = true) : (l.set h r).Bars sub keep := by
  intro h' r' found barred
  rcases set_tokens.mp found with ⟨-, rfl⟩ | ⟨-, stored⟩
  · exact spared barred
  · exact bars h' r' stored barred

theorem Bars.step (bars : l.Bars sub keep) (step : Step l event m) (barren : ∀ fk, event ≠ .issued fk) :
    m.Bars sub keep := by
  cases step with
  | issue => exact absurd rfl (barren _)
  | @rotate h by' r next now stored unconsumed unrevoked fresh valid subject lineage family within =>
    -- An unrevoked token is not barred, and neither is the one after it.
    have live (barred : Store.Barred sub keep r.row.subject r.row.lineage) : False :=
      Bool.noConfusion (unrevoked.symm.trans (bars h r stored barred))
    have consumed : (l.set h (r.consume now by')).Bars sub keep := bars.set fun barred => (live barred).elim
    refine consumed.set fun barred => ?_
    rw [← subject, ← lineage] at barred
    exact (live barred).elim
  | revoke fk =>
    intro h r found barred
    obtain ⟨r, stored, rfl⟩ := Option.map_eq_some_iff.mp found
    rw [Refresh.row_revokeIn] at barred
    simp [bars h r stored barred]
  | forget => exact fun h r found => bars h r (Option.filter_eq_some_iff.mp found).1
  | expire => exact fun h r found => bars h r (Option.filter_eq_some_iff.mp found).1

end Ledger

namespace Store
variable {s : Store} {sub : Subject} {keep : UUID}

theorem bars_of_ledger (indexed : s.Indexed) (bars : s.ledger.Bars sub keep) : s.Bars sub keep := by
  intro t family st found barred now
  unfold familyState at found
  split at found
  · cases found
  next first rest rows =>
    cases found
    rw [(state_owner _ _).1, (state_owner _ _).2] at barred
    obtain ⟨h, holds⟩ := (mem_familyRows indexed).mp (rows ▸ List.mem_cons_self)
    have revoked := bars h first holds.1 barred
    simp [FamilyState.live, state_revoked, revoked]

theorem Sound.bars_revokeForSubject (sound : s.Sound) (clk : Time) (sub : Subject) (keep : UUID) :
    (s.revokeForSubject clk sub keep).ledger.Bars sub keep := by
  intro h r found barred
  have indexed := sound.indexed
  by_cases present : ∃ h₀ r₀, s.ledger.Holds r.key h₀ r₀
  · -- The tokens of a family agree on their owner, before and after.
    obtain ⟨h₀, r₀, stored₀, own₀⟩ := present
    have owned : s.ledger.OwnedBy r.key r₀.owner := by
      rintro h' r' ⟨stored, own⟩
      have agree := sound.coherent.agree stored stored₀ (own.trans own₀.symm)
      rw [Refresh.owner, agree.subject, agree.lineage, Refresh.owner]
    have still : (s.apply ⟨clk, .revokeForSubject sub keep⟩).ledger.OwnedBy r.key r₀.owner := by
      refine indexed.apply_owned ?_ owned
      simp [Op.starts]
    have same : r.owner = r₀.owner := still h r ⟨found, rfl⟩
    obtain ⟨subject, lineage⟩ := barred
    have ended := ended_revokeForSubject indexed owned ⟨h₀, r₀, stored₀, own₀⟩ clk
      (lineage.imp_right fun other => same ▸ other)
    rw [← same] at ended
    have named : r.owner.subject = sub := subject
    rw [named] at ended
    exact ended h r ⟨found, rfl⟩
  · have gone : ∀ h' r', ¬ (s.apply ⟨clk, .revokeForSubject sub keep⟩).ledger.Holds r.key h' r' := by
      refine indexed.apply_invariant _ (fun l => ∀ h' r', ¬ l.Holds r.key h' r') (fun empty permitted step => ?_)
        fun h' r' held => present ⟨h', r', held⟩
      refine step.empty ?_ empty
      rintro rfl
      cases permitted
    exact absurd ⟨found, rfl⟩ (gone h r)

/-- Unless an account of the subject begins anew, no call lifts the bar. -/
theorem bars_apply (sound : s.Sound) {call : Call} (bars : s.ledger.Bars sub keep)
    (other : ∀ r, call.op = .create r → r.row.subject ≠ sub) : (s.apply call).ledger.Bars sub keep := by
  cases starts : call.op.starts with
  | none =>
    refine sound.indexed.apply_invariant call (fun l => l.Bars sub keep) (fun bars permitted step => ?_) bars
    refine bars.step step fun fk same => ?_
    subst same
    cases starts.symm.trans permitted
  | some fk =>
    obtain ⟨clk, op⟩ := call
    cases op with
    | create r =>
      rcases Chronicle.create_cases s r with refused | ⟨t, -, inserted, result⟩
      · have stored : s.apply ⟨clk, .create r⟩ = s := refused
        rw [stored]
        exact bars
      · have stored : s.apply ⟨clk, .create r⟩ = t := result
        rw [stored, ledger_insert inserted]
        exact bars.set fun barred => absurd barred.1 (other r rfl)
    | reissue req =>
      rcases s.reissue_cases clk req with
        ⟨err, result, -⟩ | ⟨t, first, rest, -, rows, -, unrevoked, subject, lineage, inserted, result⟩
      · have stored : s.apply ⟨clk, .reissue req⟩ = s := congrArg Prod.fst result
        rw [stored]
        exact bars
      · have stored : s.apply ⟨clk, .reissue req⟩ = t.revoke ⟨req.next.tenant, req.family⟩ clk.truncate :=
          congrArg Prod.fst result
        rw [stored]
        have joined : t.ledger.Bars sub keep := by
          rw [ledger_insert inserted]
          refine bars.set fun barred => ?_
          -- The family that is reissued was live, so that its owner is not barred.
          obtain ⟨h, holds⟩ := (mem_familyRows sound.indexed).mp (rows ▸ List.mem_cons_self)
          have revoked := bars h first holds.1 (subject.symm ▸ lineage.symm ▸ barred)
          rw [state_revoked, List.any_cons, revoked] at unrevoked
          cases unrevoked
        have barren : t.Refines Barren (t.revoke ⟨req.next.tenant, req.family⟩ clk.truncate) := revoke_refines nofun t _
        obtain ⟨-, events, run, barren⟩ := barren (sound.indexed.insert inserted)
        refine (run.restrict fun _ event => barren event).invariant (fun l => l.Bars sub keep) ?_ joined
        exact fun bars ⟨barren, step⟩ => bars.step step barren
    | _ => cases starts

end Store

namespace Chronicle
variable {w u : Chronicle} {call : Call} {later : List Call} {fk : FamilyKey}

theorem Ok.run (ok : w.Ok) (run : Run Step w later u) : u.Ok := by
  refine run.invariant Ok (fun ok step => ?_) ok
  rw [step.2]
  exact ok.next step.1

theorem log_grows (run : Run Step w later u) : w.log <+: u.log := by
  refine run.invariant (fun u => w.log <+: u.log) (fun {s call t} grown step => ?_) List.prefix_rfl
  rw [step.2]
  exact grown.trans (List.prefix_append _ _)

/-- A family that has ended is not started again, and so stays ended. -/
theorem Ok.ended_run (ok : w.Ok) (run : Run Step w later u) (named : fk ∈ w.started)
    (ended : w.store.ledger.Ended fk) : u.store.ledger.Ended fk := by
  have kept := run.invariant (fun u => u.Ok ∧ fk ∈ u.started ∧ u.store.ledger.Ended fk) ?_ ⟨ok, named, ended⟩
  · exact kept.2.2
  · rintro v call v' ⟨ok, named, ended⟩ ⟨admits, rfl⟩
    refine ⟨ok.next admits, List.mem_append_left _ named, ok.sound.indexed.apply_ended ?_ ended⟩
    exact fun starts => admits.2.2 fk starts named

theorem Ok.refuses (ok : w.Ok) (admits : w.Admits call) (revokes : w.store.EndsFamily call fk)
    (run : Run Step (w.next call) later u) : u.store.Refuses fk := by
  obtain ⟨ended, h, r, holds⟩ := revokes.ended ok.sound admits.1
  have next := ok.next admits
  have named : fk ∈ (w.next call).started := List.mem_append_left _ (ok.told.held fk h r holds)
  exact Store.refuses_of_ended (next.run run).sound.indexed (next.ended_run run named ended)

theorem Ok.bars (ok : w.Ok) {clk : Time} {sub : Subject} {keep : UUID}
    (admits : w.Admits ⟨clk, .revokeForSubject sub keep⟩) (run : Run Step (w.next ⟨clk, .revokeForSubject sub keep⟩) later u)
    (others : ∀ call ∈ later, ∀ r, call.op = .create r → r.row.subject ≠ sub) : u.store.Bars sub keep := by
  have next := ok.next admits
  refine Store.bars_of_ledger (next.run run).sound.indexed ?_
  induction run with
  | nil => exact ok.sound.bars_revokeForSubject clk sub keep
  | snoc earlier last ih =>
    have before := ih fun call member => others call (by simp [member])
    rw [last.2]
    exact Store.bars_apply (next.run earlier).sound before (others _ (by simp))

/-- The call leaves no unrevoked token of a family that had one, other than by letting it expire. -/
def Ends (w : Chronicle) (call : Call) (fk : FamilyKey) : Prop :=
  (∃ h r, w.store.ledger.Holds fk h r ∧ r.revoked = false) ∧ call.op ≠ .reapExpired ∧
    (w.next call).store.ledger.Ended fk

/-- The call announces the family, past every announcement before; from then on this is the only one, and it is
retained until the tokens of the family, as they were, have expired. -/
def AnnouncesOnce (w : Chronicle) (call : Call) (fk : FamilyKey) : Prop :=
  ∃ a ∈ w.announces call, a.key = fk ∧ (∀ a' ∈ w.log, a'.seq < a.seq) ∧
    (∀ h r, w.store.ledger.Holds fk h r → r.row.familyExpiresAt ≤ a.expires) ∧
    ∀ later u, Run Step (w.next call) later u → a ∈ u.log ∧ (∀ a' ∈ u.log, a'.key = fk → a' = a) ∧
      (u.clock.truncate < a.expires → a ∈ u.store.feed)

theorem Ok.announced (ok : w.Ok) (ends : w.Ends call fk) {h : Bytes} {r : Refresh} (holds : w.store.ledger.Holds fk h r) :
    ∃ a ∈ w.announces call, a.key = fk ∧ r.row.familyExpiresAt ≤ a.expires := by
  obtain ⟨⟨h₀, r₀, holds₀, live⟩, other, ended⟩ := ends
  have agree := ok.sound.coherent.agree holds.1 holds₀.1 (holds.2.trans holds₀.2.symm)
  have covered : w.store.ledger.Covered fk w.store.seq r.row.familyExpiresAt :=
    .inl ⟨h, r, holds, agree.revoked.trans live, le_rfl⟩
  rcases ok.sound.indexed.apply_covered other le_rfl covered with ⟨h', r', left, unrevoked, -⟩ | ⟨a, member, after, key, due⟩
  · exact Bool.noConfusion (unrevoked.symm.trans (ended h' r' left))
  · exact ⟨a, Paging.mem_after.mpr ⟨member, after⟩, key, due⟩

theorem Ok.announcesOnce (ok : w.Ok) (admits : w.Admits call) (ends : w.Ends call fk) : w.AnnouncesOnce call fk := by
  have next := ok.next admits
  obtain ⟨h, r, holds, -⟩ := ends.1
  obtain ⟨a, member, key, -⟩ := ok.announced ends holds
  have logged : a ∈ (w.next call).log := List.mem_append_right _ member
  have only {u : Chronicle} (ok : u.Ok) (logged : a ∈ u.log) (a' : Announcement) (member' : a' ∈ u.log)
      (key' : a'.key = fk) : a' = a :=
    List.inj_on_of_nodup_map ok.told.once member' logged (key'.trans key.symm)
  refine ⟨a, member, key, fun a' old => ?_, fun h' r' holds' => ?_, fun later u run => ?_⟩
  · exact lt_of_le_of_lt (ok.told.bounded a' old) (Paging.mem_after.mp member).2
  · obtain ⟨a', member', key', due⟩ := ok.announced ends holds'
    exact only next logged a' (List.mem_append_right _ member') key' ▸ due
  · have present := (log_grows run).subset logged
    exact ⟨present, only (next.run run) present, (next.run run).told.kept a present⟩

theorem Ok.sorted (ok : w.Ok) : w.store.feed.Pairwise fun a b => a.seq < b.seq := ok.told.sorted.sublist ok.told.feed

theorem revocationsSince_eq (ok : w.Ok) (cursor : Nat) : w.store.revocationsSince cursor =
    ((Paging.after Announcement.seq cursor w.store.feed).map Announcement.rev,
      Paging.next Announcement.seq cursor (Paging.after Announcement.seq cursor w.store.feed)) := by
  unfold Store.revocationsSince
  rw [Paging.dropWhile_eq_after ok.sorted]
  rfl

/-- A page of the feed is everything past the cursor, in order, and the next cursor is past it all. -/
structure Pages (s : Store) (cursor : Nat) : Prop where
  page : (s.revocationsSince cursor).1 = (Paging.after Announcement.seq cursor s.feed).map Announcement.rev
  sorted : s.feed.Pairwise fun a b => a.seq < b.seq
  ahead : cursor ≤ (s.revocationsSince cursor).2
  whole : ∀ a ∈ s.feed, a.seq ≤ (s.revocationsSince cursor).2

theorem Ok.between (ok : w.Ok) (cursor : Nat) :
    Paging.after Announcement.seq cursor w.store.feed =
        Paging.between Announcement.seq cursor (w.store.revocationsSince cursor).2 w.store.feed ∧
      Paging.after Announcement.seq (w.store.revocationsSince cursor).2 w.store.feed = [] ∧
      cursor ≤ (w.store.revocationsSince cursor).2 := by
  have split : (Paging.after Announcement.seq cursor w.store.feed).take w.store.feed.length = _ ∧ _ ∧ _ :=
    Paging.page_eq ok.sorted w.store.feed.length
  have short : (Paging.after Announcement.seq cursor w.store.feed).length ≤ w.store.feed.length :=
    List.length_filter_le _ _
  rw [List.take_of_length_le short, List.drop_of_length_le short] at split
  rw [revocationsSince_eq ok]
  exact split

theorem Ok.pages (ok : w.Ok) (cursor : Nat) : Pages w.store cursor := by
  obtain ⟨-, rest, ahead⟩ := ok.between cursor
  refine ⟨by rw [revocationsSince_eq ok], ok.sorted, ahead, fun a member => ?_⟩
  by_contra beyond
  have left := Paging.mem_after.mpr ⟨member, Nat.lt_of_not_le beyond⟩
  rw [rest] at left
  cases left

end Chronicle

structure Subscriber where
  chronicle : Chronicle
  cursor : Nat
  delivered : List Revocation

inductive Reading where
  | call (call : Call)
  | poll

namespace Subscriber
open Chronicle
variable {start : Nat} {x : Subscriber}

def next (x : Subscriber) : Reading → Subscriber
  | .call call => { x with chronicle := x.chronicle.next call }
  | .poll =>
    { x with
      cursor := (x.chronicle.store.revocationsSince x.cursor).2
      delivered := x.delivered ++ (x.chronicle.store.revocationsSince x.cursor).1 }

def Step (x : Subscriber) (reading : Reading) (x' : Subscriber) : Prop :=
  (∀ call, reading = .call call → x.chronicle.Admits call) ∧ x' = x.next reading

/-- Each announcement past the first cursor was delivered at most once and in order, and every retained one up to the
cursor was. -/
def Delivers (start : Nat) (x : Subscriber) : Prop :=
  ∃ seen : List Announcement, x.delivered = seen.map Announcement.rev ∧
    seen.Sublist (Paging.between Announcement.seq start x.cursor x.chronicle.log) ∧
    ∀ a ∈ x.chronicle.store.feed, start < a.seq → a.seq ≤ x.cursor → a ∈ seen

structure Follows (start : Nat) (x : Subscriber) : Prop where
  ok : x.chronicle.Ok
  ahead : start ≤ x.cursor
  behind : x.cursor ≤ max start x.chronicle.store.seq
  delivers : x.Delivers start

/-- The feed after a call holds what was in it before or is announced by the call. -/
theorem mem_feed_apply {s : Store} (indexed : s.Indexed) (call : Call) {a : Announcement}
    (member : a ∈ (s.apply call).feed) : a ∈ s.feed ∨ s.seq < a.seq := by
  refine (indexed.apply_invariant call (fun l => s.seq ≤ l.seq ∧ ∀ a ∈ l.feed, a ∈ s.feed ∨ s.seq < a.seq) ?_
    ⟨le_rfl, fun _ => .inl⟩).2 a member
  rintro l event m ⟨later, each⟩ - step
  cases step with
  | issue | rotate | forget => exact ⟨later, each⟩
  | expire => exact ⟨later, fun a member => each a (List.mem_of_mem_filter member)⟩
  | revoke =>
    refine ⟨Nat.le_succ_of_le later, fun a member => ?_⟩
    rcases List.mem_append.mp member with old | last
    · exact each a old
    · rw [List.mem_singleton.mp last]
      exact .inr (Nat.lt_succ_of_le later)

theorem Follows.call (follows : x.Follows start) {call : Call} (admits : x.chronicle.Admits call) :
    (x.next (.call call)).Follows start := by
  obtain ⟨seen, delivered, listed, all⟩ := follows.delivers
  have behind := follows.behind
  have ok := follows.ok.next admits
  have seq : x.chronicle.store.seq ≤ (x.chronicle.store.apply call).seq :=
    follows.ok.sound.indexed.apply_seq_le call
  refine ⟨ok, follows.ahead, ?_, seen, delivered, ?_, fun a member after upto => ?_⟩
  · simp only [next, Chronicle.next]
    omega
  · refine listed.trans ?_
    simp only [next, Chronicle.next, Paging.between_append]
    exact List.sublist_append_left _ _
  · -- What the call announces is past the cursor, unless nothing up to the cursor is asked for.
    rcases mem_feed_apply follows.ok.sound.indexed call member with old | late
    · exact all a old after upto
    · simp only [next] at upto
      omega

theorem Follows.poll (follows : x.Follows start) : (x.next .poll).Follows start := by
  obtain ⟨seen, delivered, listed, all⟩ := follows.delivers
  have ok := follows.ok
  obtain ⟨page, -, advanced⟩ := ok.between x.cursor
  refine ⟨ok, follows.ahead.trans advanced, ?_,
    seen ++ Paging.after Announcement.seq x.cursor x.chronicle.store.feed, ?_, ?_, ?_⟩
  · have behind := follows.behind
    simp only [next]
    by_cases moved : (x.chronicle.store.revocationsSince x.cursor).2 > x.cursor
    · have bounded : x.chronicle.store.ledger.Bounded :=
        fun a member => ok.told.bounded a (ok.told.feed.subset member)
      have within := Store.revocationsSince_le bounded moved
      omega
    · omega
  · simp only [next, delivered, List.map_append, revocationsSince_eq ok]
  · simp only [next]
    rw [Paging.between_trans ok.told.sorted follows.ahead advanced, page]
    exact listed.append (ok.told.feed.filter _)
  · intro a member after upto
    by_cases known : a.seq ≤ x.cursor
    · exact List.mem_append_left _ (all a member after known)
    · exact List.mem_append_right _ (Paging.mem_after.mpr ⟨member, Nat.lt_of_not_le known⟩)

theorem follows_of_run {w : Chronicle} (ok : w.Ok) {readings : List Reading}
    (run : Run Step ⟨w, start, []⟩ readings x) : x.Follows start := by
  refine run.invariant (Follows start) (fun follows step => ?_)
    ⟨ok, le_rfl, le_max_left _ _, [], rfl, List.nil_sublist _, fun a _ after upto => ?_⟩
  · rename_i y reading y'
    obtain ⟨admits, rfl⟩ := step
    cases reading with
    | call call => exact follows.call (admits call rfl)
    | poll => exact follows.poll
  · simp only at upto
    omega

end Subscriber

/-- In every run whose clock does not go back and that starts no family twice: a revoked family is refused for good;
a subject's families stay barred until one is created for it; each family that is revoked is announced once; and a
reader of the feed is given every retained announcement once and in order. -/
theorem revocation_final {clock : Time} {calls : List Call} {w : Chronicle}
    (run : Run Chronicle.Step (.start clock) calls w) :
    (∀ call fk, w.Admits call → w.store.EndsFamily call fk →
      ∀ later u, Run Chronicle.Step (w.next call) later u → u.store.Refuses fk) ∧
    (∀ clk sub keep, w.Admits ⟨clk, .revokeForSubject sub keep⟩ →
      ∀ later u, Run Chronicle.Step (w.next ⟨clk, .revokeForSubject sub keep⟩) later u →
        (∀ call ∈ later, ∀ r, call.op = .create r → r.row.subject ≠ sub) → u.store.Bars sub keep) ∧
    (∀ call fk, w.Admits call → w.Ends call fk → w.AnnouncesOnce call fk) ∧
    (∀ a ∈ w.log, w.store.ledger.Ended a.key) ∧
    (∀ cursor, Chronicle.Pages w.store cursor) ∧
    ∀ start readings x, Run Subscriber.Step ⟨w, start, []⟩ readings x → x.Delivers start := by
  have ok := (Chronicle.Ok.start clock).run run
  refine ⟨?_, ?_, ?_, ok.told.ended, ok.pages, ?_⟩
  · exact fun call fk admits revokes later u onward => ok.refuses admits revokes onward
  · exact fun clk sub keep admits later u onward others => ok.bars admits onward others
  · exact fun call fk admits ends => ok.announcesOnce admits ends
  · exact fun start readings x reading => (Subscriber.follows_of_run ok reading).delivers

namespace Sample

def beginning : Call := ⟨1000, .create (record 1 3000000 7000000 (by decide))⟩

def begun : Chronicle := (Chronicle.start 0).next beginning

theorem begun_run : Run Chronicle.Step (.start 0) [beginning] begun :=
  .single ⟨⟨trivial, by decide, by simp [Chronicle.start]⟩, rfl⟩

def revocation : Call := ⟨2000, .revokeFamily .zero (uuid 2)⟩

end Sample

open Sample

theorem revocation_final_family : begun.store.EndsFamily revocation ⟨.zero, uuid 2⟩ ∧
    ∀ later u, Run Chronicle.Step (begun.next revocation) later u → u.store.Refuses ⟨.zero, uuid 2⟩ :=
  have ends : begun.store.EndsFamily revocation ⟨.zero, uuid 2⟩ :=
    .inl ⟨⟨subject, uuid 3⟩, by decide, rfl⟩
  ⟨ends, (revocation_final begun_run).1 revocation _ ⟨trivial, by decide, nofun⟩ ends⟩

end Egauth.Tokens
