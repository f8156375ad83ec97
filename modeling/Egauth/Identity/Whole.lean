import Egauth.Data.Paging
import Egauth.Identity.Owners

/-! A mutation, its epoch and its outbox rows, committed together.

A failed call leaves the store as it was, wherever its context ended. A
successful one writes one account, numbers one row of the log if it bumps, and
queues its rows. The log then holds every epoch of an account, and a reader
that follows it by pages misses and repeats none.
-/

set_option autoImplicit false

namespace Egauth.Identity
open Egauth.Core

def OutboxItem.fixed (item : OutboxItem) : OutboxItem := { item with attempts := 0, nextAttemptAt := 0 }

theorem OutboxItem.id_of_fixed {a b : OutboxItem} (same : a.fixed = b.fixed) : a.id = b.id := by
  change a.fixed.id = b.fixed.id
  rw [same]

def Op.KeepsLog : Op → Prop
  | .eraseTenant _ | .reapExpired => False
  | _ => True

namespace Store
variable {s t : Store}

/-- An id that `uuid.NewV7` picks has not been picked before: no account and no row of the log has it. -/
def Unused (s : Store) (newID : Option UUID) (m : Mutation) : Prop :=
  s.Picks newID m ∧ ∀ r ∈ s.epochs, ∀ id, newID = some id → r.change.subject.user ≠ id

/-- Any call, with ids that have not been picked before. -/
def Proceeds (s : Store) (call : Call) (t : Store) : Prop :=
  (∀ ctx newID m, call.op = .apply ctx newID m → s.Unused newID m) ∧ t = s.perform call

structure Whole (s : Store) (now : Time) (newID : Option UUID) (m : Mutation) (t : Store) (ap : Applied)
    (sub : Subject) : Prop where
  loaded : m.loads = true → sub = subjectOf m ∧ s.accounts.lookup sub ≠ none
  created : ∀ tenant email phc mustChange federated, m = .createVerified tenant email phc mustChange federated →
    ∃ id, newID = some id ∧ sub = ⟨tenant, id⟩ ∧ s.accounts.lookup sub = none
  written : ∃ after evicted, s.Writes now newID m sub (s.accounts.lookup sub) after evicted ∧
    t.accounts.lookup sub = some (after.bumped m)
  others : ∃ yielding : Option Subject, ∀ k ≠ sub, t.accounts.lookup k = s.accounts.lookup k ∨
    yielding = some k ∧ ∃ a f, s.accounts.lookup k = some a ∧ a.user.deletedAt ≠ 0 ∧ a.Holds f.pair ∧
      t.accounts.lookup k = some (a.without f)
  epoch : t.epoch sub = some ((s.epoch sub).getD 0 + if (effectsOf m).bumpsEpoch then 1 else 0)
  epochs : t.epochs = s.epochs ++ if (effectsOf m).bumpsEpoch then
    [⟨s.epochSeq + 1, ⟨sub, (s.epoch sub).getD 0 + 1, (effectsOf m).event⟩, now⟩] else []
  epochSeq : t.epochSeq = s.epochSeq + if (effectsOf m).bumpsEpoch then 1 else 0
  applied : ap.subject = sub ∧ t.epoch sub = some ap.newEpoch
  rows : ap.outbox = numbered s.outboxSeq now (outboxFor m sub ((s.accounts.lookup sub).elim .zero (replaced m)))
  outbox : t.outbox = s.outbox ++ ap.outbox.map ({ item := · })
  outboxSeq : t.outboxSeq = s.outboxSeq + ap.outbox.length
  ids : ap.outbox.Pairwise (fun a b => a.id < b.id) ∧ ∀ r ∈ s.outbox, ∀ item ∈ ap.outbox, r.item.id < item.id

/-- The rows of the outbox are numbered, in order and without reuse. -/
structure Queued (s : Store) : Prop where
  sorted : s.outbox.Pairwise fun a b => a.item.id < b.item.id
  bounded : ∀ r ∈ s.outbox, r.item.id ≤ s.outboxSeq

variable {now : Time}

theorem mem_numbered {seq : Nat} {items : List OutboxItem} {item : OutboxItem}
    (member : item ∈ numbered seq now items) : (seq : Int) < item.id ∧ item.id ≤ seq + items.length := by
  unfold numbered at member
  obtain ⟨i, bound, rfl⟩ := List.mem_mapIdx.mp member
  dsimp only
  omega

theorem numbered_sorted (seq : Nat) (now : Time) (items : List OutboxItem) :
    (numbered seq now items).Pairwise fun a b => a.id < b.id := by
  rw [List.pairwise_iff_getElem]
  intro i j hi hj before
  simp only [numbered, List.getElem_mapIdx]
  omega

theorem length_numbered (seq : Nat) (now : Time) (items : List OutboxItem) :
    (numbered seq now items).length = items.length := by
  simp [numbered]

section Commits
variable {now : Time} {newID : Option UUID} {m : Mutation} {ap : Applied} {sub : Subject} {before : Option Account}
  {after : Account} {evicted : Option Account}

theorem Writes.subject (writes : s.Writes now newID m sub before after evicted) (fresh : s.Picks newID m) :
    s.accounts.lookup sub = before ∧ (m.loads = true → sub = subjectOf m ∧ s.accounts.lookup sub ≠ none) ∧
      (∀ tenant email phc mustChange federated, m = .createVerified tenant email phc mustChange federated →
        ∃ id, newID = some id ∧ sub = ⟨tenant, id⟩ ∧ s.accounts.lookup sub = none) ∧
      after.user.securityEpoch = (s.epoch sub).getD 0 := by
  cases writes with
  | amended plain found kept frees =>
    refine ⟨found, fun _ => ⟨rfl, by simp [found]⟩, ?_, ?_⟩
    · rintro _ _ _ _ _ rfl
      cases plain.1
    · simp [epoch, found, epoch_rewritten]
  | linked found kept joins =>
    refine ⟨found, fun _ => ⟨rfl, by simp [found]⟩, (by simp), ?_⟩
    simp [epoch, found]
  | created picked frees user joins =>
    subst picked
    have absent : s.accounts.lookup _ = none := fresh
    refine ⟨absent, (fun loads => by cases loads), ?_, ?_⟩
    · rintro _ _ _ _ _ ⟨⟩
      exact ⟨_, rfl, rfl, absent⟩
    · simp [epoch, absent, user]

theorem Writes.yielded (keyed : s.Keyed) (writes : s.Writes now newID m sub before after evicted) :
    ∃ f, s.Yielded sub f evicted := by
  cases writes with
  | amended => exact ⟨.zero, fun _ absent => nomatch absent⟩
  | linked found kept joins => exact ⟨_, joins.yielded keyed⟩
  | created picked frees user joins =>
    rcases joins with ⟨-, -, rfl⟩ | joins
    · exact ⟨.zero, fun _ absent => nomatch absent⟩
    · exact ⟨_, joins.yielded keyed⟩

theorem Commits.whole (keyed : s.Keyed) (queued : s.Queued)
    (commits : s.Commits now newID m t ap sub before after evicted) (fresh : s.Picks newID m) :
    s.Whole now newID m t ap sub := by
  obtain ⟨begun, loaded, created, start⟩ := commits.writes.subject fresh
  obtain ⟨f, yielded⟩ := commits.writes.yielded keyed
  have lookup := commits.lookup yielded
  have written : t.accounts.lookup sub = some (after.bumped m) := by rw [lookup, if_pos rfl]
  have bumped : t.epoch sub = some ((s.epoch sub).getD 0 + if (effectsOf m).bumpsEpoch then 1 else 0) := by
    simp only [Store.epoch, written, Option.map_some, Account.bumped] at start ⊢
    rw [start]
  exact
    { loaded := loaded
      created := created
      written := ⟨after, evicted, begun ▸ commits.writes, written⟩
      others := by
        refine ⟨evicted.map fun b => b.user.subject, fun k other => ?_⟩
        rw [lookup, if_neg other, lookup_yielding]
        cases taken : evicted with
        | none => exact .inl rfl
        | some b =>
          obtain ⟨k', owner, stored, deleted, -, -, holds, rfl, own⟩ := yielded b taken
          by_cases same : (owner.without f).user.subject = k
          · refine .inr ⟨by simp [same], owner, f, own.symm.trans same ▸ stored, deleted, holds, ?_⟩
            simp [Option.filter_some, same]
          · exact .inl (by simp [Option.filter_some, same])
      epoch := bumped
      epochs := start ▸ commits.epochs
      epochSeq := commits.epochSeq
      applied := ⟨commits.applied.1, by rw [commits.applied.2, epoch, written]; rfl⟩
      rows := by
        rw [commits.rows, begun]
        cases before <;> rfl
      outbox := commits.outbox
      outboxSeq := commits.outboxSeq
      ids := by
        rw [commits.rows]
        refine ⟨numbered_sorted _ _ _, fun r stored item member => ?_⟩
        exact (queued.bounded r stored).trans_lt (mem_numbered member).1 }

end Commits

theorem Queued.new : Queued .new := ⟨.nil, by simp [Store.new]⟩

/-- Rows keep their numbers and their order when some are removed or rewritten. -/
theorem Queued.sub (queued : s.Queued) (seq : t.outboxSeq = s.outboxSeq)
    (rows : (t.outbox.map fun r => r.item.fixed).Sublist (s.outbox.map fun r => r.item.fixed)) : t.Queued := by
  have ids : (t.outbox.map fun r => r.item.id).Sublist (s.outbox.map fun r => r.item.id) := by
    have ids := rows.map OutboxItem.id
    rw [List.map_map, List.map_map] at ids
    exact ids
  constructor
  · have sorted : (s.outbox.map fun r => r.item.id).Pairwise (· < ·) := List.pairwise_map.mpr queued.sorted
    exact List.pairwise_map.mp (sorted.sublist ids)
  · intro r member
    obtain ⟨r', stored, same⟩ := List.mem_map.mp (ids.subset (List.mem_map_of_mem member))
    rw [seq, ← same]
    exact queued.bounded r' stored

theorem Queued.append (queued : s.Queued) {items : List OutboxItem}
    (outbox : t.outbox = s.outbox ++ (numbered s.outboxSeq now items).map ({ item := · }))
    (seq : t.outboxSeq = s.outboxSeq + items.length) : t.Queued := by
  constructor
  · rw [outbox, List.pairwise_append]
    refine ⟨queued.sorted, List.pairwise_map.mpr (numbered_sorted _ _ _), fun r stored r' member => ?_⟩
    obtain ⟨item, listed, rfl⟩ := List.mem_map.mp member
    exact (queued.bounded r stored).trans_lt (mem_numbered listed).1
  · intro r member
    rw [seq]
    push_cast
    rcases List.mem_append.mp (outbox ▸ member) with stored | added
    · have old := queued.bounded r stored
      omega
    · obtain ⟨item, listed, rfl⟩ := List.mem_map.mp added
      exact (mem_numbered listed).2

/-- A call removes rows and rewrites what is not fixed of them, or appends those of a mutation. -/
inductive Rows (s : Store) (now : Time) (t : Store) : Prop where
  | fewer (seq : t.outboxSeq = s.outboxSeq)
      (rows : (t.outbox.map fun r => r.item.fixed).Sublist (s.outbox.map fun r => r.item.fixed))
  | more (items : List OutboxItem) (seq : t.outboxSeq = s.outboxSeq + items.length)
      (rows : t.outbox = s.outbox ++ (numbered s.outboxSeq now items).map ({ item := · }))

theorem Rows.same (seq : t.outboxSeq = s.outboxSeq) (rows : t.outbox = s.outbox) : s.Rows now t :=
  .fewer seq (by rw [rows])

theorem Rows.setRow (s : Store) (now : Time) (id : Int) {set : OutboxRow → OutboxRow}
    (same : ∀ r, (set r).item.fixed = r.item.fixed) : s.Rows now (s.setRow id set) := by
  refine .fewer rfl ?_
  simp only [Store.setRow, List.map_map]
  refine (List.map_congr_left fun r _ => ?_) ▸ List.Sublist.refl _
  simp only [Function.comp_apply]
  split
  · exact (same r).symm
  · rfl

theorem perform_rows (s : Store) (call : Call) : s.Rows call.clk.truncate (s.perform call) := by
  obtain ⟨clk, op⟩ := call
  cases op with
  | apply ctx newID m =>
    rcases s.apply_cases clk ctx newID m with same | ⟨ap, sub, before, after, evicted, commits⟩
    · simp only [perform, same]
      exact .same rfl rfl
    · refine .more _ (commits.outboxSeq.trans ?_) (commits.rows ▸ commits.outbox)
      rw [commits.rows, length_numbered]
  | recordPasswordFailure sub p =>
    rcases s.recordPasswordFailure_cases clk sub p with same | ⟨a, a', -, -, -, result⟩
    · simp only [perform, same]
      exact .same rfl rfl
    · simp only [perform, result]
      exact .same rfl rfl
  | resetPasswordFailures sub =>
    rcases s.resetPasswordFailures_cases sub with same | ⟨a, a', -, -, -, result⟩
    · simp only [perform, same]
      exact .same rfl rfl
    · simp only [perform, result]
      exact .same rfl rfl
  | ackOutbox id =>
    simp only [perform, ackOutbox]
    split
    · exact .same rfl rfl
    · split
      · exact .setRow s _ id fun _ => rfl
      · exact .same rfl rfl
  | failOutbox id next =>
    simp only [perform, failOutbox]
    split
    · exact .same rfl rfl
    · split
      · exact .same rfl rfl
      · exact .setRow s _ id fun _ => rfl
  | eraseUser sub =>
    rcases s.eraseUser_cases sub with ⟨err, result⟩ | result
    · simp only [perform, result]
      exact .same rfl rfl
    · simp only [perform, result]
      exact .same rfl rfl
  | eraseTenant => exact .fewer rfl (List.filter_sublist.map _)
  | reapExpired => exact .fewer rfl (List.filter_sublist.map _)

theorem Queued.rows (queued : s.Queued) (rows : s.Rows now t) : t.Queued := by
  cases rows with
  | fewer seq rows => exact queued.sub seq rows
  | more items seq rows => exact queued.append rows seq

theorem Queued.perform (queued : s.Queued) (call : Call) : (s.perform call).Queued :=
  queued.rows (s.perform_rows call)

/-- A call that keeps the log leaves it as it is, or logs the bump of one epoch. -/
inductive Grows (s t : Store) : Prop where
  | kept (epochs : t.epochs = s.epochs) (seq : t.epochSeq = s.epochSeq)
      (epoch : ∀ k e, t.epoch k = some e → s.epoch k = some e ∨ e = 0 ∧ ∀ r ∈ s.epochs, r.change.subject ≠ k)
  | logged {sub : Subject} {e : UInt64} {reason : Option Event} {instant : Time}
      (epochs : t.epochs = s.epochs ++ [⟨s.epochSeq + 1, ⟨sub, e + 1, reason⟩, instant⟩])
      (seq : t.epochSeq = s.epochSeq + 1) (began : s.epoch sub = some e) (ends : t.epoch sub = some (e + 1))
      (others : ∀ k ≠ sub, ∀ e', t.epoch k = some e' → s.epoch k = some e')

theorem Whole.others_epoch {newID : Option UUID} {m : Mutation} {ap : Applied} {sub : Subject}
    (whole : s.Whole now newID m t ap sub) {k : Subject} (other : k ≠ sub) : t.epoch k = s.epoch k := by
  obtain ⟨yielding, others⟩ := whole.others
  unfold Store.epoch
  rcases others k other with same | ⟨-, a, f, stored, -, -, lost⟩
  · rw [same]
  · rw [stored, lost]
    rfl

theorem Whole.grows {newID : Option UUID} {m : Mutation} {ap : Applied} {sub : Subject}
    (whole : s.Whole now newID m t ap sub) (valid : m.check = none) (fresh : s.Unused newID m) : s.Grows t := by
  have epoch := whole.epoch
  have epochs := whole.epochs
  have seq := whole.epochSeq
  cases bumps : (effectsOf m).bumpsEpoch with
  | true =>
    -- Only an account that is there is bumped.
    have loads : m.loads = true := by
      cases m with
      | createVerified => cases bumps
      | foreign => cases valid
      | _ => rfl
    obtain ⟨a, stored⟩ := Option.ne_none_iff_exists'.mp (whole.loaded loads).2
    have began : s.epoch sub = some a.user.securityEpoch := by simp [Store.epoch, stored]
    simp only [bumps, if_true, began, Option.getD_some] at epoch epochs seq
    exact .logged epochs seq began epoch fun k other e now' => (whole.others_epoch other).symm.trans now'
  | false =>
    simp only [bumps, Bool.false_eq_true, if_false, List.append_nil] at epochs epoch seq
    rw [UInt64.add_zero] at epoch
    refine .kept epochs seq fun k e current => ?_
    by_cases own : k = sub
    · subst own
      rw [epoch, Option.some.injEq] at current
      cases began : s.epoch k with
      | some e' =>
        simp only [began, Option.getD_some] at current
        exact .inl (by rw [current])
      | none =>
        simp only [began, Option.getD_none] at current
        refine .inr ⟨current.symm, fun r member => ?_⟩
        -- The account is new, and its id was not in the log.
        have absent : s.accounts.lookup k = none := by simpa [Store.epoch] using began
        cases m with
        | createVerified tenant email phc mustChange federated =>
          obtain ⟨id, picked, same, -⟩ := whole.created _ _ _ _ _ rfl
          intro named
          exact fresh.2 r member id picked (by rw [named, same])
        | foreign => cases valid
        | _ => exact absurd absent (whole.loaded rfl).2
    · exact .inl (by rw [← whole.others_epoch own, current])

theorem Grows.refl : s.Grows s := .kept rfl rfl fun _ _ => .inl

theorem Grows.of_eq (epochs : t.epochs = s.epochs) (seq : t.epochSeq = s.epochSeq)
    (epoch : ∀ k e, t.epoch k = some e → s.epoch k = some e) : s.Grows t :=
  .kept epochs seq fun k e current => .inl (epoch k e current)

theorem perform_grows (keyed : s.Keyed) (queued : s.Queued) {call : Call} (keeps : call.op.KeepsLog)
    (turn : s.Proceeds call t) : s.Grows t := by
  obtain ⟨fresh, rfl⟩ := turn
  obtain ⟨clk, op⟩ := call
  cases op with
  | apply ctx newID m =>
    have unused := fresh ctx newID m rfl
    rcases s.apply_cases clk ctx newID m with same | ⟨ap, sub, before, after, evicted, commits⟩
    · simp only [perform, same]
      exact .refl
    · exact (commits.whole keyed queued unused.1).grows commits.valid unused
  | recordPasswordFailure sub p =>
    rcases s.recordPasswordFailure_cases clk sub p with same | ⟨a, a', found, user, -, result⟩
    · simp only [perform, same]
      exact .refl
    · simp only [perform, result]
      exact .of_eq rfl rfl fun k e current => (epoch_insert found user k).symm.trans current
  | resetPasswordFailures sub =>
    rcases s.resetPasswordFailures_cases sub with same | ⟨a, a', found, user, -, result⟩
    · simp only [perform, same]
      exact .refl
    · simp only [perform, result]
      exact .of_eq rfl rfl fun k e current => (epoch_insert found user k).symm.trans current
  | ackOutbox id =>
    simp only [perform, ackOutbox]
    split
    · exact .refl
    · split <;> exact .of_eq rfl rfl fun _ _ same => same
  | failOutbox id next =>
    simp only [perform, failOutbox]
    split
    · exact .refl
    · split <;> exact .of_eq rfl rfl fun _ _ same => same
  | eraseUser sub =>
    rcases s.eraseUser_cases sub with ⟨err, result⟩ | result
    · simp only [perform, result]
      exact .refl
    · simp only [perform, result]
      refine .of_eq rfl rfl fun k e current => ?_
      simp only [epoch, Map.lookup_erase_eq] at current ⊢
      split at current
      · cases current
      · exact current
  | eraseTenant | reapExpired => cases keeps

def history (s : Store) (k : Subject) : List UInt64 :=
  (s.epochs.filter fun r => r.change.subject = k).map fun r => r.change.newEpoch

/-- The rows of each account are numbered from one on, up to the epoch it has. -/
structure Consecutive (s : Store) : Prop where
  numbers : ∀ k, s.history k = (List.range (s.history k).length).map fun i => UInt64.ofNat (i + 1)
  current : ∀ k e, s.epoch k = some e → e = UInt64.ofNat (s.history k).length

theorem Consecutive.new : Consecutive .new := by
  constructor
  · intro k
    rfl
  · intro k e current
    simp [epoch, Store.new] at current

theorem Consecutive.grows (consecutive : s.Consecutive) (grows : s.Grows t) : t.Consecutive := by
  cases grows with
  | kept epochs seq epoch =>
    have same (k : Subject) : t.history k = s.history k := by rw [history, epochs, history]
    refine ⟨fun k => by rw [same]; exact consecutive.numbers k, fun k e now => ?_⟩
    rw [same]
    rcases epoch k e now with old | ⟨rfl, unnamed⟩
    · exact consecutive.current k e old
    · have none : s.history k = [] := by simpa [history] using unnamed
      simp [none]
  | @logged sub e reason instant epochs seq began ends others =>
    have own : t.history sub = s.history sub ++ [e + 1] := by simp [history, epochs]
    have other {k : Subject} (apart : k ≠ sub) : t.history k = s.history k := by simp [history, epochs, apart.symm]
    have start := consecutive.current sub e began
    have next : e + 1 = UInt64.ofNat ((s.history sub).length + 1) := by rw [start, UInt64.ofNat_add]; rfl
    constructor
    · intro k
      by_cases mine : k = sub
      · subst mine
        rw [own, List.length_append, List.length_singleton, List.range_succ, List.map_append, ← consecutive.numbers k,
          List.map_singleton, next]
      · rw [other mine]
        exact consecutive.numbers k
    · intro k e' now
      by_cases mine : k = sub
      · subst mine
        cases ends.symm.trans now
        rw [own, List.length_append, List.length_singleton, next]
      · rw [other mine]
        exact consecutive.current k e' (others k mine e' now)

structure Reader where
  store : Store
  cursor : Nat
  delivered : List EpochChange

inductive Reading where
  | call (call : Call)
  | page

namespace Reader

def next (r : Reader) : Reading → Reader
  | .call call => { r with store := r.store.perform call }
  | .page =>
    { r with
      cursor := (r.store.epochsChangedSince r.cursor).2
      delivered := r.delivered ++ (r.store.epochsChangedSince r.cursor).1 }

def Step (r : Reader) (reading : Reading) (r' : Reader) : Prop :=
  (∀ call, reading = .call call → call.op.KeepsLog ∧ r.store.Proceeds call (r.store.perform call)) ∧
    r' = r.next reading

/-- The rows between the cursor of the start and the one now have been delivered, in order. -/
structure Delivers (initial : Store) (start : Nat) (r : Reader) : Prop where
  delivered : r.delivered = (Paging.between EpochRow.seq start r.cursor r.store.epochs).map EpochRow.change
  kept : initial.epochs <+: r.store.epochs
  page : (∀ row ∈ r.store.epochs, row.seq ≤ (r.next .page).cursor) ∨
    (r.next .page).delivered.length = r.delivered.length + feedPage

end Reader

structure Reader.Follows (initial : Store) (start : Nat) (r : Reader) : Prop where
  logged : r.store.Logged
  queued : r.store.Queued
  delivered : r.delivered = (Paging.between EpochRow.seq start r.cursor r.store.epochs).map EpochRow.change
  kept : initial.epochs <+: r.store.epochs
  ahead : start ≤ r.cursor
  behind : r.cursor ≤ max start r.store.epochSeq

theorem epochsChangedSince_eq (s : Store) (cursor : Nat) :
    s.epochsChangedSince cursor = (((Paging.after EpochRow.seq cursor s.epochs).take feedPage).map EpochRow.change,
      Paging.next EpochRow.seq cursor ((Paging.after EpochRow.seq cursor s.epochs).take feedPage)) := rfl

variable {initial : Store}

theorem Reader.Follows.call {start : Nat} {r : Reader} (follows : r.Follows initial start)
    {call : Call} (keeps : call.op.KeepsLog) (turn : r.store.Proceeds call (r.store.perform call)) :
    (r.next (.call call)).Follows initial start := by
  have logged : (r.store.perform call).Logged := by
    refine perform_logged follows.logged ?_
    obtain ⟨clk, op⟩ := call
    cases op with
    | apply ctx newID m => exact (turn.1 ctx newID m rfl).1
    | _ => trivial
  have queued := follows.queued.perform call
  cases perform_grows follows.logged.keyed follows.queued keeps turn with
  | kept epochs seq _ =>
    refine ⟨logged, queued, ?_, ?_, follows.ahead, ?_⟩
    · simp only [Reader.next, epochs]
      exact follows.delivered
    · simp only [Reader.next, epochs]
      exact follows.kept
    · simp only [Reader.next, seq]
      exact follows.behind
  | logged epochs seq _ _ _ =>
    have behind := follows.behind
    refine ⟨logged, queued, ?_, ?_, follows.ahead, ?_⟩
    · -- The new row is past the cursor, unless nothing up to the cursor is asked for.
      have past (row : EpochRow) (last : row.seq = r.store.epochSeq + 1) :
          Paging.between EpochRow.seq start r.cursor [row] = [] := by
        refine Paging.between_eq_nil fun row' member => ?_
        rw [List.mem_singleton.mp member]
        omega
      simp only [Reader.next, epochs, Paging.between_append]
      rw [follows.delivered, past _ rfl, List.append_nil]
    · simp only [Reader.next, epochs]
      exact follows.kept.trans (List.prefix_append _ _)
    · simp only [Reader.next, seq]
      omega

theorem Reader.Follows.page {start : Nat} {r : Reader} (follows : r.Follows initial start) :
    (r.next .page).Follows initial start := by
  have sorted := follows.logged.sorted
  have read : (Paging.after EpochRow.seq r.cursor r.store.epochs).take feedPage = _ ∧ _ ∧ _ := Paging.page_eq sorted feedPage
  have between := Paging.between_trans sorted follows.ahead read.2.2
  refine ⟨follows.logged, follows.queued, ?_, follows.kept, follows.ahead.trans read.2.2, ?_⟩
  · simp only [Reader.next, epochsChangedSince_eq]
    rw [between, List.map_append, ← read.1, follows.delivered]
  · have behind := follows.behind
    simp only [Reader.next]
    by_cases advanced : r.cursor < (r.store.epochsChangedSince r.cursor).2
    · have within := epochsChangedSince_le follows.logged advanced
      omega
    · omega

theorem Reader.Follows.delivers {start : Nat} {r : Reader} (follows : r.Follows initial start) :
    r.Delivers initial start := by
  refine ⟨follows.delivered, follows.kept, ?_⟩
  have read : (Paging.after EpochRow.seq r.cursor r.store.epochs).take feedPage = _ ∧ _ ∧ _ :=
    Paging.page_eq follows.logged.sorted feedPage
  by_cases full : feedPage ≤ (Paging.after EpochRow.seq r.cursor r.store.epochs).length
  · right
    simp only [Reader.next, epochsChangedSince_eq, List.length_append, List.length_map, List.length_take]
    omega
  · -- The page was not full, so that nothing is left past it.
    left
    intro row member
    by_contra beyond
    have rest : row ∈ Paging.after EpochRow.seq (r.next .page).cursor r.store.epochs :=
      Paging.mem_after.mpr ⟨member, Nat.lt_of_not_le beyond⟩
    simp only [Reader.next, epochsChangedSince_eq, read.2.1] at rest
    rw [List.drop_eq_nil_of_le (by omega)] at rest
    cases rest

theorem Proceeds.admits {call : Call} (turn : s.Proceeds call t) : s.Admits call := by
  obtain ⟨clk, op⟩ := call
  cases op with
  | apply ctx newID m => exact (turn.1 ctx newID m rfl).1
  | _ => trivial

theorem logged_of_run {calls : List Call} (run : Run Proceeds .new calls s) : s.Logged ∧ s.Queued :=
  run.invariant (fun s => s.Logged ∧ s.Queued)
    (fun ⟨logged, queued⟩ turn => turn.2 ▸ ⟨perform_logged logged turn.admits, queued.perform _⟩) ⟨.new, .new⟩

theorem consecutive_of_run {calls : List Call} (run : Run Proceeds .new calls s)
    (keeps : ∀ call ∈ calls, call.op.KeepsLog) : s.Consecutive := by
  induction run with
  | nil => exact .new
  | snoc earlier last ih =>
    obtain ⟨logged, queued⟩ := logged_of_run earlier
    have before := ih fun call member => keeps call (by simp [member])
    exact before.grows (perform_grows logged.keyed queued (keeps _ (by simp)) last)

/-- From every reachable store a mutation commits as a whole or not at all. Without erasure of tenants and without
reaping, the epochs of each account are logged one after the other, and a reader that follows the log from any cursor
is given every later row once and in order. -/
theorem apply_whole {calls : List Call} (run : Run Proceeds .new calls s) :
    (∀ clk ctx newID m, s.Unused newID m → (∃ err, s.apply clk ctx newID m = (s, .error err)) ∨
      ∃ t ap sub, s.apply clk ctx newID m = (t, .ok ap) ∧ s.Whole clk.truncate newID m t ap sub) ∧
    ((∀ call ∈ calls, call.op.KeepsLog) → s.Consecutive) ∧
    ∀ start readings r, Run Reader.Step ⟨s, start, []⟩ readings r → r.Delivers s start := by
  obtain ⟨logged, queued⟩ := logged_of_run run
  refine ⟨fun clk ctx newID m unused => ?_, consecutive_of_run run, fun start readings r reading => ?_⟩
  · cases result : s.apply clk ctx newID m with
    | mk t answer =>
      cases answer with
      | error err =>
        rw [apply_error result]
        exact .inl ⟨err, rfl⟩
      | ok ap =>
        obtain ⟨sub, before, after, evicted, commits⟩ := apply_commits result
        exact .inr ⟨t, ap, sub, rfl, commits.whole logged.keyed queued unused.1⟩
  · have begin : Reader.Follows s start ⟨s, start, []⟩ := by
      refine ⟨logged, queued, ?_, List.prefix_rfl, le_rfl, le_max_left _ _⟩
      rw [Paging.between_eq_nil fun _ _ => by dsimp only; omega]
      rfl
    refine (reading.invariant (Reader.Follows s start) (fun follows step => ?_) begin).delivers
    rename_i r label r'
    obtain ⟨allowed, rfl⟩ := step
    cases label with
    | call call => exact follows.call (allowed call rfl).1 (allowed call rfl).2
    | page => exact follows.page

end Store

namespace Whole

theorem calls_keepsLog : ∀ call ∈ [Owners.creation Subject.sample.user, Owners.deletion], call.op.KeepsLog := by
  simp [Owners.creation, Owners.deletion, Op.KeepsLog]

theorem store_run : Run Store.Proceeds .new [Owners.creation Subject.sample.user, Owners.deletion] Owners.store := by
  refine .snoc (.single ⟨?_, rfl⟩) ⟨?_, rfl⟩
  · rintro ctx newID m ⟨⟩
    exact ⟨trivial, by simp⟩
  · rintro ctx newID m ⟨⟩
    exact ⟨rfl, by simp [Store.new]⟩

end Whole

theorem apply_whole_tombstoned : Owners.store.Consecutive ∧ ∀ start readings r,
    Run Store.Reader.Step ⟨Owners.store, start, []⟩ readings r → r.Delivers Owners.store start :=
  ⟨(Store.apply_whole Whole.store_run).2.1 Whole.calls_keepsLog, (Store.apply_whole Whole.store_run).2.2⟩

end Egauth.Identity
