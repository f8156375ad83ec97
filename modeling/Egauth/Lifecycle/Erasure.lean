import Egauth.Lifecycle.Custody

/-! An account is erased only after every component is cleaned.

The guard of `EraseUser` looks at the rows that are still stored. That says
something of the rows written before, because a row is never removed before it
is done, and done only after its subscriber has returned. A row is known by its
number, which is not used again; its attempts are all that changes of it.
-/

set_option autoImplicit false

namespace Egauth.Identity
open Egauth.Core

theorem OutboxItem.subject_of_fixed {a b : OutboxItem} (same : a.fixed = b.fixed) : a.subject = b.subject := by
  change a.fixed.subject = b.fixed.subject
  rw [same]

theorem OutboxItem.component_of_fixed {a b : OutboxItem} (same : a.fixed = b.fixed) :
    a.component = b.component := by
  change a.fixed.component = b.fixed.component
  rw [same]

def Op.acks : Op → Int → Prop
  | .ackOutbox id, other => other = id
  | _, _ => False

namespace Store
variable {s t : Store} {acked : Int → Prop}

/-- What a call that erases no tenant does to the rows: which are new, which may be marked done, which are removed. -/
structure Moves (s : Store) (acked : Int → Prop) (t : Store) : Prop where
  queued : s.Queued → t.Queued
  seq : s.outboxSeq ≤ t.outboxSeq
  origin : ∀ r ∈ t.outbox, (s.outboxSeq : Int) < r.item.id ∧ r.done = 0 ∨
    ∃ r₀ ∈ s.outbox, r.item.fixed = r₀.item.fixed ∧ (r.done = r₀.done ∨ acked r.item.id)
  kept : ∀ r ∈ s.outbox, (∃ r' ∈ t.outbox, r'.item.fixed = r.item.fixed) ∨ r.done ≠ 0
  erased : ∀ sub a, s.accounts.lookup sub = some a → t.accounts.lookup sub = none →
    ∀ r ∈ s.outbox, r.item.subject = sub → r.item.component ≠ .identity → r.done ≠ 0

theorem Moves.same (s : Store) : s.Moves acked s where
  queued := id
  seq := le_rfl
  origin r stored := .inr ⟨r, stored, rfl, .inl rfl⟩
  kept r stored := .inl ⟨r, stored, rfl⟩
  erased sub a found gone := by
    rw [found] at gone
    cases gone

theorem Moves.insert (s : Store) (sub : Subject) (a : Account) :
    s.Moves acked { s with accounts := s.accounts.insert sub a } where
  queued queued := queued.sub rfl (.refl _)
  seq := le_rfl
  origin r stored := .inr ⟨r, stored, rfl, .inl rfl⟩
  kept r stored := .inl ⟨r, stored, rfl⟩
  erased k b found gone := by
    rw [Map.lookup_insert_eq] at gone
    split at gone
    · cases gone
    · rw [found] at gone
      cases gone

theorem Moves.setRow (s : Store) (id : Int) {set : OutboxRow → OutboxRow}
    (fixed : ∀ r, (set r).item.fixed = r.item.fixed) (done : ∀ r, (set r).done = r.done ∨ acked id) :
    s.Moves acked (s.setRow id set) where
  queued queued := queued.rows (.setRow s 0 id fixed)
  seq := le_rfl
  origin r member := by
    obtain ⟨r₀, stored, rfl⟩ := List.mem_map.mp member
    refine .inr ⟨r₀, stored, ?_⟩
    split
    next own =>
      have number := OutboxItem.id_of_fixed (fixed r₀)
      rw [number, own]
      exact ⟨fixed r₀, done r₀⟩
    · exact ⟨rfl, .inl rfl⟩
  kept r stored := by
    refine .inl ⟨_, List.mem_map_of_mem stored, ?_⟩
    split
    · exact fixed r
    · rfl
  erased sub a found gone := by
    have still : s.accounts.lookup sub = none := gone
    rw [found] at still
    cases still

theorem Moves.apply (s : Store) (clk : Time) (ctx : Nat) (newID : Option UUID) (m : Mutation) :
    s.Moves acked (s.apply clk ctx newID m).1 := by
  rcases s.apply_cases clk ctx newID m with same | ⟨ap, sub, before, after, evicted, commits⟩
  · rw [same]
    exact .same s
  · refine ⟨fun queued => queued.perform ⟨clk, .apply ctx newID m⟩, ?_, fun r member => ?_, fun r stored => ?_, ?_⟩
    · rw [commits.outboxSeq]
      omega
    · rcases List.mem_append.mp (commits.outbox ▸ member) with stored | added
      · exact .inr ⟨r, stored, rfl, .inl rfl⟩
      · obtain ⟨item, listed, rfl⟩ := List.mem_map.mp added
        rw [commits.rows] at listed
        exact .inl ⟨(mem_numbered listed).1, rfl⟩
    · exact .inl ⟨r, commits.outbox ▸ List.mem_append_left _ stored, rfl⟩
    · -- A mutation writes accounts and removes none.
      intro k a found gone
      rw [commits.accounts] at gone
      by_cases own : k = sub <;> simp [own, found] at gone

theorem Moves.eraseUser (s : Store) (sub : Subject) : s.Moves acked (s.eraseUser sub).1 := by
  have guarded : (s.eraseUser sub).1 = s ∨ (s.eraseUser sub).1 = { s with accounts := s.accounts.erase sub } ∧
      ∀ r ∈ s.outbox, r.item.subject = sub → r.item.component ≠ .identity → r.done ≠ 0 := by
    unfold Store.eraseUser
    split
    · exact .inl rfl
    split
    · exact .inl rfl
    split
    · exact .inl rfl
    next clear =>
      refine .inr ⟨rfl, fun r stored own other undone => clear ?_⟩
      exact List.any_eq_true.mpr ⟨r, stored, decide_eq_true ⟨own, undone, other⟩⟩
  rcases guarded with same | ⟨erased, clean⟩
  · rw [same]
    exact .same s
  · rw [erased]
    refine ⟨fun queued => queued.sub rfl (.refl _), le_rfl, fun r stored => .inr ⟨r, stored, rfl, .inl rfl⟩,
      fun r stored => .inl ⟨r, stored, rfl⟩, fun k a found gone => ?_⟩
    rw [Map.lookup_erase_eq] at gone
    split at gone
    next own =>
      rw [own]
      exact clean
    · rw [found] at gone
      cases gone

theorem Moves.reapExpired (s : Store) (clk : Time) : s.Moves acked (s.reapExpired clk).1 where
  queued queued := queued.perform ⟨clk, .reapExpired⟩
  seq := le_rfl
  origin r member := .inr ⟨r, (List.mem_filter.mp member).1, rfl, .inl rfl⟩
  kept r stored := by
    by_cases old : r.done ≠ 0 ∧ r.done < cutoff clk
    · exact .inr old.1
    · exact .inl ⟨r, List.mem_filter.mpr ⟨stored, decide_eq_true old⟩, rfl⟩
  erased sub a found gone := by
    have still : s.accounts.lookup sub = none := gone
    rw [found] at still
    cases still

theorem Moves.perform (s : Store) (call : Call) (spares : ∀ t, call.op ≠ .eraseTenant t) :
    s.Moves call.op.acks (s.perform call) := by
  obtain ⟨clk, op⟩ := call
  cases op with
  | apply ctx newID m => exact .apply s clk ctx newID m
  | recordPasswordFailure sub p =>
    rcases s.recordPasswordFailure_cases clk sub p with same | ⟨a, a', -, -, -, result⟩
    · simp only [Store.perform, same]
      exact .same s
    · simp only [Store.perform, result]
      exact .insert s sub a'
  | resetPasswordFailures sub =>
    rcases s.resetPasswordFailures_cases sub with same | ⟨a, a', -, -, -, result⟩
    · simp only [Store.perform, same]
      exact .same s
    · simp only [Store.perform, result]
      exact .insert s sub a'
  | ackOutbox id =>
    simp only [Store.perform, Store.ackOutbox]
    split
    · exact .same s
    · split
      · exact .setRow s id (fun _ => rfl) fun _ => .inr rfl
      · exact .same s
  | failOutbox id next =>
    simp only [Store.perform, Store.failOutbox]
    split
    · exact .same s
    · split
      · exact .same s
      · exact .setRow s id (fun _ => rfl) fun _ => .inl rfl
  | eraseUser sub => exact .eraseUser s sub
  | eraseTenant tenant => exact absurd rfl (spares tenant)
  | reapExpired => exact .reapExpired s clk

/-- An item that a dispatcher holds is that of the row of its number, where there still is one. -/
structure Matches (s : Store) (item : OutboxItem) : Prop where
  numbered : item.id ≤ s.outboxSeq
  row : ∀ r ∈ s.outbox, r.item.id = item.id → r.item.fixed = item.fixed

theorem Queued.matches (queued : s.Queued) {r : OutboxRow} (stored : r ∈ s.outbox) : s.Matches r.item where
  numbered := queued.bounded r stored
  row r' member same := by
    have apart : (s.outbox.map fun r => r.item.id).Nodup :=
      (List.pairwise_map.mpr queued.sorted).imp fun less => ne_of_lt less
    rw [List.inj_on_of_nodup_map apart member stored same]

theorem Matches.moves {item : OutboxItem} (held : s.Matches item) (moves : s.Moves acked t) : t.Matches item where
  numbered := by
    have later := moves.seq
    have number := held.numbered
    omega
  row r member same := by
    rcases moves.origin r member with ⟨new, -⟩ | ⟨r₀, stored, fixed, -⟩
    · have number := held.numbered
      omega
    · rw [fixed]
      exact held.row r₀ stored ((OutboxItem.id_of_fixed fixed).symm.trans same)

end Store
end Egauth.Identity

namespace Egauth.Lifecycle
open Egauth.Core Identity Prog

section
variable {D : Type}

/-- A subscriber has returned to a program only if one of its calls says so. -/
theorem returned_follow {events : List ((c : Call D) × Reply c)} {g : Note} {item : OutboxItem}
    (returned : item ∈ (follow custody g events).returned) :
    item ∈ g.returned ∨ (⟨.subscriber item, .returned⟩ : (c : Call D) × Reply c) ∈ events := by
  induction events generalizing g with
  | nil => exact .inl returned
  | cons event events ih =>
    rcases ih (g := custody.track g event.1 event.2) returned with before | later
    · obtain ⟨c, r⟩ := event
      cases c with
      | subscriber sent =>
        cases r with
        | returned =>
          rcases List.mem_cons.mp before with rfl | before
          · exact .inr List.mem_cons_self
          · exact .inl before
        | failed err => exact .inl before
        | panicked => exact .inl before
      | apply ctx newID m => cases r <;> exact .inl before
      | pendingOutbox limit => cases r <;> exact .inl before
      | _ => exact .inl before
    · exact .inr (List.mem_cons_of_mem _ later)

theorem learned_custody (g : Note) (events : List ((c : Call D) × Reply c)) : Learned custody g events := by
  induction events generalizing g with
  | nil => trivial
  | cons event events ih => exact ⟨trivial, ih _⟩

def Call.acks : Call D → Int → Prop
  | .ackOutbox id, other => other = id
  | _, _ => False

def Delivered {I : Type} (labels : List (I × (c : Call D) × Reply c)) (item : OutboxItem) : Prop :=
  ∃ i sent, (i, (⟨.subscriber sent, .returned⟩ : (c : Call D) × Reply c)) ∈ labels ∧ sent.fixed = item.fixed

theorem Delivered.append {I : Type} {labels : List (I × (c : Call D) × Reply c)} {item : OutboxItem}
    (delivered : Delivered labels item) (later : List (I × (c : Call D) × Reply c)) :
    Delivered (labels ++ later) item := by
  obtain ⟨i, sent, member, same⟩ := delivered
  exact ⟨i, sent, List.mem_append_left _ member, same⟩

theorem World.reach_store {A : Type} (w : World D) (o : Turn) (result : Store × Except Identity.Err A) :
    (w.reach o result).2.store = w.store ∨ (w.reach o result).2.store = result.1 := by
  unfold reach
  split
  · exact .inr rfl
  · split
    · exact .inr rfl
    · exact .inl rfl

theorem World.reach_ok {A : Type} {w : World D} {o : Turn} {result : Store × Except Identity.Err A} {a : A}
    (ok : (w.reach o result).1 = .ok a) : result.2 = .ok a ∧ (w.reach o result).2.store = result.1 := by
  unfold reach at ok ⊢
  split at ok
  · obtain ⟨t, answer⟩ := result
    cases answer with
    | error err => cases ok
    | ok b =>
      cases ok
      exact ⟨rfl, rfl⟩
  · cases ok

variable [DecidableEq D]

/-- A call leaves the store alone, or is a call of it that erases no tenant. -/
theorem exec_store (o : Turn) (w : World D) (c : Call D) : (exec o w c).2.store = w.store ∨
    ∃ op : Op, (∀ t, op ≠ .eraseTenant t) ∧ op.acks = c.acks ∧ (exec o w c).2.store = w.store.perform ⟨o.clk, op⟩ := by
  have reached {A : Type} (op : Op) (result : Store × Except Identity.Err A) (spares : ∀ t, op ≠ .eraseTenant t)
      (acks : op.acks = c.acks) (same : result.1 = w.store.perform ⟨o.clk, op⟩) :
      (w.reach o result).2.store = w.store ∨ ∃ op : Op, (∀ t, op ≠ .eraseTenant t) ∧ op.acks = c.acks ∧
        (w.reach o result).2.store = w.store.perform ⟨o.clk, op⟩ := by
    rcases w.reach_store o result with kept | done
    · exact .inl kept
    · exact .inr ⟨op, spares, acks, done.trans same⟩
  cases c with
  | apply ctx newID m => exact reached (.apply ctx newID m) _ nofun rfl rfl
  | outside op =>
    obtain ⟨op, outside⟩ := op
    refine .inr ⟨op, ?_, ?_, rfl⟩
    · rintro t rfl
      exact outside
    · cases op with
      | ackOutbox => exact outside.elim
      | _ => rfl
  | ackOutbox id => exact reached (.ackOutbox id) _ nofun rfl rfl
  | failOutbox id next => exact reached (.failOutbox id next) _ nofun rfl rfl
  | pendingOutbox limit => exact .inl ((w.reach_store o _).elim id id)
  | subscriber item =>
    dsimp only [exec, identitySubscriber]
    split
    · split
      · exact reached (.eraseUser item.subject) _ nofun rfl rfl
      · exact .inl rfl
    · exact .inl rfl
  | _ => exact .inl rfl

theorem exec_moves (o : Turn) (w : World D) (c : Call D) : w.store.Moves c.acks (exec o w c).2.store := by
  rcases exec_store o w c with same | ⟨op, spares, acks, performed⟩
  · rw [same]
    exact .same _
  · rw [performed, ← acks]
    exact .perform w.store ⟨o.clk, op⟩ spares

theorem pendingOutbox_stored {s : Store} {clk : Time} {limit : Nat} {item : OutboxItem}
    (listed : item ∈ s.pendingOutbox clk limit) : ∃ r ∈ s.outbox, r.item = item := by
  obtain ⟨r, taken, same⟩ := List.mem_map.mp listed
  exact ⟨r, (List.mem_filter.mp (List.mem_of_mem_take taken)).1, same⟩

theorem known_exec {o : Turn} {w : World D} {c : Call D} {g : Note} {item : OutboxItem}
    (queued : (exec o w c).2.store.Queued) (known : item ∈ (g.track c (exec o w c).1).known) :
    item ∈ g.known ∨ (exec o w c).2.store.Matches item := by
  cases c with
  | apply ctx newID m =>
    cases reply : (exec o w (.apply ctx newID m)).1 with
    | error err =>
      rw [reply] at known
      exact .inl known
    | ok ap =>
      rw [reply] at known
      rcases List.mem_append.mp known with before | told
      · exact .inl before
      · obtain ⟨applied, store⟩ := World.reach_ok reply
        obtain ⟨_, _, _, _, commits⟩ := Store.apply_commits (Prod.ext rfl applied)
        refine .inr (queued.matches (r := { item := item }) ?_)
        change _ ∈ (w.reach o (w.store.apply o.clk ctx newID m)).2.store.outbox
        rw [store, commits.outbox]
        exact List.mem_append_right _ (List.mem_map_of_mem told)
  | pendingOutbox limit =>
    cases reply : (exec o w (.pendingOutbox limit)).1 with
    | error err =>
      rw [reply] at known
      exact .inl known
    | ok items =>
      rw [reply] at known
      rcases List.mem_append.mp known with before | told
      · exact .inl before
      · obtain ⟨pending, store⟩ := World.reach_ok reply
        cases pending
        obtain ⟨r, stored, rfl⟩ := pendingOutbox_stored told
        refine .inr (queued.matches ?_)
        change r ∈ (w.reach o (w.store, _)).2.store.outbox
        rw [store]
        exact stored
  | subscriber sent =>
    refine .inl ?_
    cases reply : (exec o w (.subscriber sent)).1 <;> rw [reply] at known <;> exact known
  | _ => exact .inl known

section
variable {I : Type} [DecidableEq I]

def start (jobs : I → Job D) : World D × (I → Program D Unit) := (.new, fun i => (jobs i).program)

structure Sound (labels : List (I × (c : Call D) × Reply c)) (w : World D) : Prop where
  queued : w.store.Queued
  done : ∀ r ∈ w.store.outbox, r.done ≠ 0 → Delivered labels r.item
  held : ∀ i, ∀ item ∈ (follow custody {} (own i labels)).known, w.store.Matches item

variable {jobs : I → Job D} {labels : List (I × (c : Call D) × Reply c)} {y z : World D × (I → Program D Unit)}
  {label : I × (c : Call D) × Reply c}

theorem step_moves (step : Interleave exec y label z) : y.1.store.Moves label.2.1.acks z.1.store := by
  obtain ⟨o, -, -, replied, -⟩ := step
  have moves := exec_moves o y.1 label.2.1
  rwa [replied] at moves

theorem Sound.marked (sound : Sound labels y.1) (run : Run (Interleave exec) (start jobs) labels y)
    (step : Interleave exec y label z) : ∀ r ∈ z.1.store.outbox, r.done ≠ 0 → Delivered labels r.item := by
  intro r member done
  have allowed := allows_of_run run step (jobs label.1).obeys (learned_custody _ _)
  rcases (step_moves step).origin r member with ⟨-, undone⟩ | ⟨r₀, stored, fixed, same | acked⟩
  · exact absurd undone done
  · obtain ⟨i, sent, returned, sentSame⟩ := sound.done r₀ stored (same ▸ done)
    exact ⟨i, sent, returned, sentSame.trans fixed.symm⟩
  · -- The row is acknowledged: its dispatcher holds the item of the same number, and the subscriber returned to it.
    obtain ⟨i, c, reply⟩ := label
    cases c with
    | ackOutbox id =>
      obtain ⟨item, known, returned, number⟩ := allowed
      rcases returned_follow returned with none | told
      · cases none
      · have own : r₀.item.id = item.id := by
          rw [← OutboxItem.id_of_fixed fixed, number]
          exact acked
        exact ⟨i, item, mem_own.mp told, ((sound.held i item known).row r₀ stored own).symm.trans fixed.symm⟩
    | _ => exact acked.elim

theorem Sound.step (sound : Sound labels y.1) (run : Run (Interleave exec) (start jobs) labels y)
    (step : Interleave exec y label z) : Sound (labels ++ [label]) z.1 := by
  have marked := sound.marked run step
  have moves := step_moves step
  obtain ⟨o, -, -, replied, -⟩ := step
  obtain ⟨i, c, reply⟩ := label
  have told (g : Note) (item : OutboxItem) := @known_exec D _ o y.1 c g item
  rw [replied] at told
  have queued := moves.queued sound.queued
  refine ⟨queued, fun r member done => (marked r member done).append _, fun j item known => ?_⟩
  rw [own_append, follow_append] at known
  by_cases mine : i = j
  · subst mine
    rw [own_cons_self] at known
    rcases told _ item queued known with before | now
    · exact (sound.held i item before).moves moves
    · exact now
  · rw [own_cons_other mine] at known
    exact (sound.held j item known).moves moves

theorem sound_of_run (run : Run (Interleave exec) (start jobs) labels y) : Sound labels y.1 := by
  induction run with
  | nil => exact ⟨.new, by simp [start, World.new, Store.new], by simp [own, follow]⟩
  | snoc before last ih => exact ih.step before last

/-- A row that was once written is still there, or was delivered. -/
theorem stored_or_delivered {before after : List (I × (c : Call D) × Reply c)} {mid : World D × (I → Program D Unit)}
    (first : Run (Interleave exec) (start jobs) before mid) (rest : Run (Interleave exec) mid after y) {r : OutboxRow}
    (written : r ∈ mid.1.store.outbox) :
    (∃ r' ∈ y.1.store.outbox, r'.item.fixed = r.item.fixed) ∨ Delivered (before ++ after) r.item := by
  induction rest with
  | nil => exact .inl ⟨r, written, rfl⟩
  | snoc earlier last ih =>
    rw [← List.append_assoc]
    rcases ih with ⟨r', stored, same⟩ | delivered
    · have sound := sound_of_run (first.append earlier)
      rcases (step_moves last).kept r' stored with ⟨r'', still, same'⟩ | done
      · exact .inl ⟨r'', still, same'.trans same⟩
      · -- Only a row that is done is removed, and it was delivered.
        obtain ⟨i, sent, returned, fixed⟩ := sound.done r' stored done
        exact .inr (Delivered.append ⟨i, sent, returned, fixed.trans same⟩ _)
    · exact .inr (delivered.append _)

/-- For any dispatchers that run the rows of one store, in any order, with subscribers and calls of the store that may
fail and programs that may stop: a row that is done after a step was delivered before it; a row that is removed was
done; and where an account is removed, every row that was ever written for it and is not the account's own was
delivered before. -/
theorem erased_after_cleanup {before after : List (I × (c : Call D) × Reply c)}
    {mid : World D × (I → Program D Unit)} (first : Run (Interleave exec) (start jobs) before mid)
    (rest : Run (Interleave exec) mid after y) (step : Interleave exec y label z) :
    (∀ r ∈ z.1.store.outbox, r.done ≠ 0 → Delivered (before ++ after) r.item) ∧
    (∀ r ∈ y.1.store.outbox, (∀ r' ∈ z.1.store.outbox, r'.item.id ≠ r.item.id) → r.done ≠ 0) ∧
    ∀ sub, (∃ a, y.1.store.accounts.lookup sub = some a) → z.1.store.accounts.lookup sub = none →
      ∀ r ∈ mid.1.store.outbox, r.item.subject = sub → r.item.component ≠ .identity →
        Delivered (before ++ after) r.item := by
  have run := first.append rest
  have sound := sound_of_run run
  have moves := step_moves step
  refine ⟨sound.marked run step, ?_, ?_⟩
  · intro r stored gone
    rcases moves.kept r stored with ⟨r', still, same⟩ | done
    · exact absurd (OutboxItem.id_of_fixed same) (gone r' still)
    · exact done
  · rintro sub ⟨a, found⟩ gone r written own other
    rcases stored_or_delivered first rest written with ⟨r', stored, same⟩ | delivered
    · -- The row is still stored, so the guard has looked at it.
      have done := moves.erased sub a found gone r' stored ((OutboxItem.subject_of_fixed same).trans own)
        (by rw [OutboxItem.component_of_fixed same]; exact other)
      obtain ⟨i, sent, returned, fixed⟩ := sound.done r' stored done
      exact ⟨i, sent, returned, fixed.trans same⟩
    · exact delivered

end
end

namespace Sample

def jobs (deletes : Bool) : Job Unit :=
  if deletes then .mutation () 20 none (.tombstone .sample)
  else .mutation () 20 (some Subject.sample.user) (.createVerified .zero .sample ⟨[]⟩ false Owners.identity)

def turns : List (Bool × Turn) := (false, { clk := 1000000 }) :: List.replicate 66 (true, { clk := 2000000 })

def deleted : List (Bool × (c : Call Unit) × Reply c) × World Unit × (Bool → Program Unit Unit) :=
  schedule exec (start jobs) turns

def erased : Option ((Bool × (c : Call Unit) × Reply c) × World Unit × (Bool → Program Unit Unit)) :=
  turn exec deleted.2 true { clk := 3000000 }

end Sample

/-- The nine other components have been cleaned when the account is erased. -/
theorem erased_after_cleanup_deletion : ∃ label z, Interleave exec Sample.deleted.2 label z ∧
    (∃ a, Sample.deleted.2.1.store.accounts.lookup .sample = some a) ∧ z.1.store.accounts.lookup .sample = none ∧
    Sample.deleted.2.1.store.outbox.length = 10 ∧ ∀ r ∈ Sample.deleted.2.1.store.outbox,
      r.item.subject = .sample → r.item.component ≠ .identity → Delivered Sample.deleted.1 r.item := by
  have found : (Sample.deleted.2.1.store.accounts.lookup .sample).isSome = true := by decide +kernel
  have gone : (Sample.erased.any fun x => (x.2.1.store.accounts.lookup .sample).isNone) = true := by decide +kernel
  obtain ⟨⟨label, z⟩, taken, none⟩ := (Option.any_eq_true _ _).mp gone
  have step := interleave_of_turn taken
  have here := Option.isSome_iff_exists.mp found
  have cleaned := (erased_after_cleanup (run_schedule exec (start Sample.jobs) Sample.turns) .nil step).2.2 .sample
    here (Option.isNone_iff_eq_none.mp none)
  rw [List.append_nil] at cleaned
  exact ⟨label, z, step, here, Option.isNone_iff_eq_none.mp none, by decide +kernel, cleaned⟩

end Egauth.Lifecycle
