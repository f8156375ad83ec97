import Egauth.Identity.Epochs
import Egauth.Revoke.Vouched

/-! The epoch cache over the in-process account store.

The log names every subject whose epoch was bumped, but an erased account has no
row, an erased tenant loses its rows, and a reaped row is gone whether or not it
was read: the store does not tell a cursor that it fell behind.
-/

set_option autoImplicit false

namespace Egauth.Revoke.Epochs
open Egauth.Core Identity

/-- `ErrStaleEpoch`, with the reason unless the store knows no such subject, or what the read
reported. -/
inductive CheckErr where
  | staleEpoch (why : Option String)
  | failed (err : Revoke.Err)
  deriving DecidableEq, Repr

abbrev Cache := Follower Subject UInt64

def feed (src : Store) (cursor : Nat) : Except ReadErr (List Subject × Nat) :=
  let (changes, next) := src.epochsChangedSince cursor
  .ok (changes.map EpochChange.subject, next)

def lookup (src : Store) (s : Subject) : Except ReadErr UInt64 :=
  match src.currentEpoch s with
  | .error .notFound => .error .notFound
  | .error _ => .error .failed
  | .ok epoch => .ok epoch

def current (e : Cache) (now : Time) (src : Store) (s : Subject) : Cache × Except Revoke.Err UInt64 :=
  e.get now (lookup src) s

def compare (cur sealedEpoch : UInt64) : Except CheckErr Unit :=
  if cur ≠ sealedEpoch then
    .error (.staleEpoch (some
      ("revoke: sealed epoch " ++ toString sealedEpoch ++ ", current " ++ toString cur)))
  else .ok ()

def refuse (err : Revoke.Err) : CheckErr :=
  match err with
  | .notFound => .staleEpoch none
  | err => .failed err

def check (e : Cache) (now : Time) (src : Store) (s : Subject) (sealedEpoch : UInt64) :
    Cache × Except CheckErr Unit :=
  match e.get now (lookup src) s with
  | (e, .error err) => (e, .error (refuse err))
  | (e, .ok cur) =>
    if cur < sealedEpoch then
      match (e.forget s).get now (lookup src) s with
      | (e, .error err) => (e, .error (refuse err))
      | (e, .ok cur) => (e, compare cur sealedEpoch)
    else (e, compare cur sealedEpoch)

theorem lookup_ok {src : Store} {s : Subject} {epoch : UInt64} (found : lookup src s = .ok epoch) :
    src.currentEpoch s = .ok epoch := by
  unfold lookup at found
  split at found <;> cases found
  assumption

theorem compare_ok {cur sealedEpoch : UInt64} (ok : compare cur sealedEpoch = .ok ()) : cur = sealedEpoch := by
  unfold compare at ok
  split at ok
  · cases ok
  next same => exact not_not.mp same

theorem check_ok {e e' : Cache} {now : Time} {src : Store} {s : Subject} {sealedEpoch : UInt64}
    (ok : check e now src s sealedEpoch = (e', .ok ())) :
    (∃ f, e.get now (lookup src) s = (f, .ok sealedEpoch)) ∨ lookup src s = .ok sealedEpoch := by
  unfold check at ok
  split at ok
  · cases ok
  next f cur got =>
    split at ok
    · split at ok
      · cases ok
      next f' cur' again =>
        -- The entry was dropped, so the second read is the store's.
        have same := compare_ok (Prod.mk.inj ok).2
        subst same
        rcases Follower.get_ok again with ⟨-, cached⟩ | found
        · exact absurd rfl (Lru.mem_remove.mp cached).2
        · exact .inr found
    · have same := compare_ok (Prod.mk.inj ok).2
      subst same
      exact .inl ⟨f, got⟩

/-- A check moves neither the cursor nor the last poll and caches nothing but answers. -/
theorem check_frame (e : Cache) (now : Time) (src : Store) (s : Subject) (sealedEpoch : UInt64) :
    (check e now src s sealedEpoch).1.cursor = e.cursor ∧ (check e now src s sealedEpoch).1.lastPoll = e.lastPoll ∧
      ∀ entry ∈ (check e now src s sealedEpoch).1.entries.items, entry ∈ e.entries.items ∨
        (lookup src entry.1 = .ok entry.2 ∧ e.freshLocked now = true) := by
  have first := e.get_frame now (lookup src) s
  unfold check
  split
  next f err got =>
    rw [got] at first
    exact ⟨first.1, first.2.2.1, first.2.2.2⟩
  next f cur got =>
    rw [got] at first
    obtain ⟨cursor, polled, lastPoll, entries⟩ := first
    dsimp only at cursor polled lastPoll entries
    split
    · have second := (f.forget s).get_frame now (lookup src) s
      have kept : ∀ entry ∈ ((f.forget s).get now (lookup src) s).1.entries.items, entry ∈ e.entries.items ∨
          (lookup src entry.1 = .ok entry.2 ∧ e.freshLocked now = true) := by
        intro entry member
        rcases second.2.2.2 entry member with kept | ⟨answer, fresh⟩
        · exact entries entry (Lru.mem_remove.mp kept).1
        · refine .inr ⟨answer, ?_⟩
          simp only [Follower.freshLocked, Follower.forget, polled, lastPoll] at fresh
          exact fresh
      split
      next again =>
        rw [again] at second kept
        exact ⟨second.1.trans cursor, second.2.2.1.trans lastPoll, kept⟩
      next again =>
        rw [again] at second kept
        exact ⟨second.1.trans cursor, second.2.2.1.trans lastPoll, kept⟩
    · exact ⟨cursor, lastPoll, entries⟩

abbrev World := Cached Store Subject UInt64

inductive Action where
  | advance (t : Time)
  | call (op : Op)
  | poll
  | check (s : Subject) (sealedEpoch : UInt64)
  | current (s : Subject)

namespace World

def init (capacity : Nat) (t₀ : Time) : World := ⟨t₀, .new, .new capacity⟩

def apply (w : World) : Action → World
  | .advance t => { w with clock := t }
  | .call op => { w with source := w.source.perform ⟨w.clock, op⟩ }
  | .poll => { w with cache := (w.cache.poll w.clock (feed w.source)).1 }
  | .check s sealedEpoch => { w with cache := (Epochs.check w.cache w.clock w.source s sealedEpoch).1 }
  | .current s => { w with cache := (Epochs.current w.cache w.clock w.source s).1 }

def Admits (w : World) : Action → Prop
  | .advance t => w.clock ≤ t
  | .call op => w.source.Admits ⟨w.clock, op⟩
  | _ => True

def Step (w : World) (action : Action) (w' : World) : Prop := w.Admits action ∧ w' = w.apply action

/-- No account is erased while its current epoch is cached, no tenant while an epoch of it is
cached, and the reaper leaves an unread row of every subject whose cached epoch is out of date. -/
def Covers (w : World) : Action → Prop
  | .call (.eraseUser sub) => (w.source.eraseUser sub).2 = .ok () →
      ∀ epoch, (sub, epoch) ∈ w.cache.entries.items → w.source.currentEpoch sub ≠ .ok epoch
  | .call (.eraseTenant t) => ∀ e ∈ w.cache.entries.items, e.1.tenant ≠ t
  | .call .reapExpired => ∀ e ∈ w.cache.entries.items, w.source.currentEpoch e.1 = .ok e.2 ∨
      ∃ r ∈ w.source.epochs, w.cache.cursor < r.seq ∧ r.change.subject = e.1 ∧ ¬ r.instant < Store.cutoff w.clock
  | _ => True

def Good (_clock : Time) (src : Store) (s : Subject) (epoch : UInt64) : Prop := src.currentEpoch s = .ok epoch

def Named (src : Store) (cursor : Nat) (s : Subject) (_epoch : UInt64) : Prop := src.Logs cursor s

def Valid (src : Store) (cursor : Nat) : Prop := cursor ≤ src.epochSeq

theorem names {src : Store} (logged : src.Logged) : Follower.Names (feed src) (Named src) := by
  rintro c changed next read s - ⟨r, member, after, rfl⟩
  cases read
  rcases Store.mem_epochsChangedSince logged member after with listed | ⟨nonempty, advanced, before⟩
  · exact .inl (List.mem_map.mpr ⟨r.change, listed, rfl⟩)
  · refine .inr ⟨?_, advanced, r, member, before, rfl⟩
    rw [List.length_map]
    exact nonempty

/-- An entry stays good, or comes to be named or stays so, across a call that covers it. -/
theorem known_perform {w : World} (logged : w.source.Logged) {op : Op} (admits : w.source.Admits ⟨w.clock, op⟩)
    (covers : w.Covers (.call op)) (behind : w.cache.cursor ≤ w.source.epochSeq) {e : Subject × UInt64}
    (cached : e ∈ w.cache.entries.items)
    (known : Good w.clock w.source e.1 e.2 ∨ Named w.source w.cache.cursor e.1 e.2) :
    Good w.clock (w.source.perform ⟨w.clock, op⟩) e.1 e.2 ∨
      Named (w.source.perform ⟨w.clock, op⟩) w.cache.cursor e.1 e.2 := by
  simp only [Good, Store.currentEpoch_ok] at known ⊢
  by_cases lasting : op.Lasting
  · have advances : w.source.Advances (w.source.perform ⟨w.clock, op⟩) :=
      Store.perform_advances logged admits lasting
    -- A bump is logged past the cursor, and no row is lost.
    rcases known with good | ⟨r, member, facts⟩
    · refine (advances.named e.1 e.2 good).imp_right ?_
      rintro ⟨r, member, new, own⟩
      exact ⟨r, member, lt_of_le_of_lt behind new, own⟩
    · exact .inr ⟨r, advances.kept r member, facts⟩
  · cases op with
    | eraseUser sub =>
      rcases w.source.eraseUser_cases sub with ⟨err, result⟩ | result
      · simpa only [Store.perform, result] using known
      · simp only [Store.perform, result]
        refine known.imp_left fun good => ?_
        have other : e.1 ≠ sub := by
          rintro rfl
          exact covers (by rw [result]) e.2 cached (Store.currentEpoch_ok.mpr good)
        simpa only [Store.epoch, Map.lookup_erase_eq, if_neg other] using good
    | eraseTenant t =>
      have other := covers e cached
      refine known.imp (fun good => ?_) ?_
      · simpa [Store.epoch, Store.perform, Store.eraseTenant, Map.lookup_eraseWhere, other] using good
      · rintro ⟨r, member, after, own⟩
        refine ⟨r, List.mem_filter.mpr ⟨member, ?_⟩, after, own⟩
        simpa [own] using other
    | reapExpired =>
      rcases covers e cached with good | ⟨r, member, after, own, recent⟩
      · exact .inl (Store.currentEpoch_ok.mp good)
      · exact .inr ⟨r, List.mem_filter.mpr ⟨member, by simpa using recent⟩, after, own⟩
    | _ => exact absurd trivial lasting

structure Inv (past : List World) (w : World) : Prop where
  logged : w.source.Logged
  vouched : Vouched Good Named Valid past w

theorem Inv.init (capacity : Nat) (t₀ : Time) : Inv [] (World.init capacity t₀) :=
  ⟨.new, .new _ _ _ (Nat.zero_le _)⟩

theorem Inv.step {past : List World} {w w' : World} {action : Action} (inv : Inv past w)
    (step : Restrict Covers Step w action w') : Inv (w :: past) w' := by
  obtain ⟨covers, admits, rfl⟩ := step
  obtain ⟨logged, vouched⟩ := inv
  cases action with
  | advance t => exact ⟨logged, vouched.move admits vouched.cursor fun _ _ => id⟩
  | call op =>
    refine ⟨Store.perform_logged logged admits, vouched.move le_rfl ?_ fun e member => ?_⟩
    · exact vouched.cursor.trans (Store.perform_seq_le logged admits)
    · exact known_perform logged admits covers vouched.cursor member
  | poll =>
    refine ⟨logged, vouched.poll (names logged) (Nat.zero_le _) fun c changed next read advanced => ?_⟩
    cases read
    exact Store.epochsChangedSince_le logged advanced
  | check s sealedEpoch =>
    obtain ⟨cursor, lastPoll, entries⟩ := check_frame w.cache w.clock w.source s sealedEpoch
    refine ⟨logged, vouched.recache cursor lastPoll fun e member => (entries e member).imp_right fun answer => ?_⟩
    exact ⟨lookup_ok answer.1, (Follower.freshLocked_iff.mp answer.2).2.1⟩
  | current s => exact ⟨logged, vouched.get (lookup w.source) (fun _ _ => lookup_ok) s⟩

theorem Inv.history {capacity : Nat} {t₀ : Time} {past : List World} {w : World}
    (history : History (Restrict Covers Step) (World.init capacity t₀) past w) : Inv past w :=
  history.invariant Inv (.init capacity t₀) Inv.step

/-- An epoch that passes is what the store answered at some instant less than the bound ago. -/
theorem check_of_covered_history {capacity : Nat} {t₀ : Time} {past : List World} {w : World}
    (history : History (Restrict Covers Step) (World.init capacity t₀) past w) {s : Subject} {sealedEpoch : UInt64}
    {e : Cache} (ok : Epochs.check w.cache w.clock w.source s sealedEpoch = (e, .ok ())) :
    ∃ w₀ ∈ w :: past, w.clock - pollBound < w₀.clock ∧ w₀.source.currentEpoch s = .ok sealedEpoch := by
  have vouched := (Inv.history history).vouched
  rcases check_ok ok with ⟨f, got⟩ | answer
  · obtain ⟨w₀, earlier, recent, -, good⟩ := vouched.served lookup_ok got
    exact ⟨w₀, earlier, recent, good⟩
  · have positive : (0 : Duration) < pollBound := by decide
    exact ⟨w, List.mem_cons_self, by linarith, lookup_ok answer⟩

namespace Sample

def subject : Subject := .sample

def create : Op :=
  .apply 9 (some subject.user) (.createVerified subject.tenant ⟨some .email, ascii "a@b", nofun⟩ ⟨[]⟩ false .zero)

def created : World := (init 1 1000000000).apply (.call create)

def polled : World := created.apply .poll

def cached : World := polled.apply (.check subject 0)

theorem cached_history :
    History (Restrict Covers Step) (init 1 1000000000) [polled, created, init 1 1000000000] cached := by
  have first : Restrict Covers Step (init 1 1000000000) (.call create) created := ⟨trivial, rfl, rfl⟩
  have second : Restrict Covers Step created .poll polled := ⟨trivial, trivial, rfl⟩
  have third : Restrict Covers Step polled (.check subject 0) cached := ⟨trivial, trivial, rfl⟩
  exact ((History.start.next first).next second).next third

def bumped : World := cached.apply (.call (.apply 20 none (.setDisabledState subject true)))

/-- The reaper leaves the row of the bump, which the cache has yet to read. -/
def reaped : World := bumped.apply (.call .reapExpired)

theorem reaped_history : History (Restrict Covers Step) (init 1 1000000000)
    (bumped :: cached :: [polled, created, init 1 1000000000]) reaped := by
  have bumps : Restrict Covers Step cached (.call (.apply 20 none (.setDisabledState subject true))) bumped :=
    ⟨trivial, trivial, rfl⟩
  have reaps : Restrict Covers Step bumped (.call .reapExpired) reaped := by
    refine ⟨fun e member => .inr ⟨_, List.mem_cons_self, by decide, ?_, by decide⟩, trivial, rfl⟩
    rw [List.mem_singleton.mp (show e ∈ [(subject, 0)] from member)]
    rfl
  exact (cached_history.next bumps).next reaps

end Sample

open Sample

theorem check_of_covered_history_bumped : reaped.source.currentEpoch subject = .ok 1 ∧
    ∃ w₀ ∈ [reaped, bumped, cached, polled, created, init 1 1000000000],
      reaped.clock - pollBound < w₀.clock ∧ w₀.source.currentEpoch subject = .ok 0 := by
  have ok : Epochs.check reaped.cache reaped.clock reaped.source subject 0 = (_, .ok ()) := rfl
  exact ⟨rfl, check_of_covered_history reaped_history ok⟩

namespace Sample

def erased : World := cached.apply (.call (.eraseTenant subject.tenant))

def later : World := erased.apply (.advance 11000000000)

def resumed : World := later.apply .poll

theorem resumed_history : History Step (init 1 1000000000)
    [later, erased, cached, polled, created, init 1 1000000000] resumed := by
  have erases : Step cached (.call (.eraseTenant subject.tenant)) erased := ⟨trivial, rfl⟩
  have waits : Step erased (.advance 11000000000) later := ⟨(by decide : erased.clock ≤ _), rfl⟩
  have polls : Step later .poll resumed := ⟨trivial, rfl⟩
  exact ((cached_history.unrestrict.next erases).next waits).next polls

end Sample

/-- The epoch of an erased account passes ten seconds later, however often the feed is polled:
nothing in it names the account. -/
theorem check_after_tenant_erased : ∃ past w e s sealedEpoch,
    History Step (init 1 1000000000) past w ∧
      Epochs.check w.cache w.clock w.source s sealedEpoch = (e, .ok ()) ∧
      ∀ w₀ ∈ w :: past, w.clock - pollBound < w₀.clock → w₀.source.currentEpoch s ≠ .ok sealedEpoch := by
  refine ⟨_, resumed, _, subject, 0, resumed_history, rfl, ?_⟩
  have unknown : erased.source.currentEpoch subject = .error .notFound := rfl
  have stale : ∀ w₀ ∈ [erased, cached, polled, created, init 1 1000000000],
      ¬ resumed.clock - pollBound < w₀.clock := by
    simp only [List.forall_mem_cons]
    decide
  intro w₀ member recent answered
  rcases List.mem_cons.mp member with rfl | member
  · cases unknown.symm.trans answered
  rcases List.mem_cons.mp member with rfl | member
  · cases unknown.symm.trans answered
  · exact stale w₀ member recent

end World
end Egauth.Revoke.Epochs
