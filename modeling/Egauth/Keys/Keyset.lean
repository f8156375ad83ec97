import Egauth.Keys.Rows

/-! The keysets that are loaded from the key store, and the key they sign with.

Opening the sealed material of a row is a parameter. A map is ranged over in any
order of its entries. Stale material is sealed again on the way, which changes
the store and not the keyset; it is the request `ReplaceSealed`.
-/

set_option autoImplicit false

namespace Egauth.Keys
open Egauth.Core

section
variable {S V : Type}

structure Entry (S V : Type) where
  metadata : Key
  signer : Option S
  verifier : V

inductive LoadErr where
  | notFound
  | legacyKey
  | unopened
  deriving DecidableEq

/-- The entry of a key; a retired one has no signer. -/
def openKey (material : Key → Option (S × V)) (k : Key) : Except LoadErr (Entry S V) :=
  if k.aadVersion ≠ aadVersionCurrent then .error .legacyKey
  else
    match material k with
    | none => .error .unopened
    | some (signer, verifier) =>
      .ok ⟨{ k with sealedKey := [] }, if k.retiredAt.isNone then some signer else none, verifier⟩

def loadRows (material : Key → Option (S × V)) :
    List Key → Map Bytes (Entry S V) → Except LoadErr (Map Bytes (Entry S V))
  | [], entries => .ok entries
  | k :: rows, entries => do
    let e ← openKey material k
    loadRows material rows (entries.insert k.keyID e)

def load (material : Key → Option (S × V)) (rows : List Key) : Except LoadErr (Map Bytes (Entry S V)) :=
  if rows.length = 0 then .error .notFound else loadRows material rows ∅

def newer (a b : Key) : Bool := (compare a.createdAt b.createdAt).then (compare a.keyID b.keyID) == .gt

/-- `order` is the order in which the entries are met. -/
def signerAt (order : List (Entry S V)) (now : Time) : Option S :=
  (best (fun e => e.signer.isSome && e.metadata.isActive now) (fun e b => newer e.metadata b.metadata) order).bind Entry.signer

variable {material : Key → Option (S × V)} {k : Key}

theorem openKey_ok {e : Entry S V} (ok : openKey material k = .ok e) :
    e.metadata = { k with sealedKey := [] } ∧
      ∃ signer, (material k).map Prod.fst = some signer ∧ e.signer = if k.retiredAt.isNone then some signer else none := by
  unfold openKey at ok
  split at ok
  · cases ok
  split at ok
  · cases ok
  next signer verifier opened =>
    cases ok
    rw [opened]
    exact ⟨rfl, signer, rfl, rfl⟩

theorem newer_eq (a b : Key) : newer a b = outranks a b := by
  have oriented : newest a b = (compare b.createdAt a.createdAt).then (compare b.keyID a.keyID) := rfl
  rw [newer, outranks, oriented, Std.OrientedOrd.eq_swap (a := a.createdAt), Std.OrientedOrd.eq_swap (a := a.keyID)]
  cases compare b.createdAt a.createdAt <;> cases compare b.keyID a.keyID <;> rfl

theorem newer_trans (a b c : Entry S V) (first : newer a.metadata b.metadata = true)
    (second : newer b.metadata c.metadata = true) : newer a.metadata c.metadata = true := by
  rw [newer_eq] at *
  exact outranks_trans _ _ _ first second

theorem newer_irrefl (a : Entry S V) : newer a.metadata a.metadata = false := by
  rw [newer_eq]
  exact outranks_irrefl _

variable {start entries : Map Bytes (Entry S V)}

theorem lookup_loadRows {rows : List Key}
    (ok : loadRows material rows start = .ok entries) (ids : (rows.map Key.keyID).Nodup) (id : Bytes) (e : Entry S V) :
    entries.lookup id = some e ↔
      (∃ k ∈ rows, k.keyID = id ∧ openKey material k = .ok e) ∨
        id ∉ rows.map Key.keyID ∧ start.lookup id = some e := by
  induction rows generalizing start with
  | nil =>
    cases ok
    simp
  | cons k rows ih =>
    obtain ⟨first, opened, ok⟩ := bind_eq_ok.mp ok
    rw [List.map_cons, List.nodup_cons] at ids
    rw [ih ok ids.2, Map.lookup_insert_eq]
    by_cases same : id = k.keyID
    · subst same
      have elsewhere : ¬ ∃ k' ∈ rows, k'.keyID = k.keyID ∧ openKey material k' = .ok e := by
        rintro ⟨k', member, id, -⟩
        exact ids.1 (id ▸ List.mem_map_of_mem member)
      simp [elsewhere, ids.1, opened]
    · have other : k.keyID ≠ id := Ne.symm same
      simp [same, other]

theorem openKey_of_loadRows {rows : List Key} (ok : loadRows material rows start = .ok entries) (member : k ∈ rows) :
    ∃ e, openKey material k = .ok e := by
  induction rows generalizing start with
  | nil => cases member
  | cons first rows ih =>
    obtain ⟨e, opened, ok⟩ := bind_eq_ok.mp ok
    rcases List.mem_cons.mp member with rfl | later
    · exact ⟨e, opened⟩
    · exact ih ok later

theorem isActive_truncate (whole : cloneKey k = k) (clk : Time) : k.isActive clk.truncate = k.isActive clk := by
  have ends : k.notAfter.truncate = k.notAfter := congrArg Key.notAfter whole
  have same : clk.truncate < k.notAfter ↔ clk < k.notAfter := by
    refine ⟨fun early => ?_, fun early => lt_of_le_of_lt (Time.truncate_le clk) early⟩
    by_contra late
    have kept := Time.truncate_mono (not_lt.mp late)
    rw [ends] at kept
    exact absurd early (not_lt.mpr kept)
  simp only [Key.isActive, Key.isExpired, same]

theorem Key.verifies_of_isActive {now : Time} (active : k.isActive now = true) : k.verifies now = true := by
  simp only [isActive, Bool.and_eq_true, Option.isNone_iff_eq_none] at active
  simp [verifies, active.1, active.2]

variable {s : Store} {clk : Time} {t : TenantID}

theorem mem_verificationKeys (inv : s.Inv) :
    k ∈ s.verificationKeys clk t ↔ k ∈ s.held t ∧ k.verifies clk.truncate = true := by
  have whole (x : Key) (member : x ∈ s.held t) : cloneKey x = x := by
    obtain ⟨r, held, rfl⟩ := List.mem_map.mp member
    exact ((inv.sound t).formed r held).2.1
  simp only [Store.verificationKeys, List.mem_insertionSort, List.mem_map, Store.verifying, List.mem_filter]
  constructor
  · rintro ⟨x, ⟨member, verifies⟩, rfl⟩
    rw [whole x member]
    exact ⟨member, verifies⟩
  · rintro ⟨member, verifies⟩
    exact ⟨k, ⟨member, verifies⟩, whole k member⟩

theorem nodup_verificationKeys (inv : s.Inv) : ((s.verificationKeys clk t).map Key.keyID).Nodup := by
  have ids : ((s.held t).map Key.keyID).Nodup := by
    rw [Store.held, List.map_map]
    exact (inv.sound t).ids
  have sorted : List.Perm (s.verificationKeys clk t) ((s.verifying clk.truncate t).map cloneKey) :=
    List.perm_insertionSort _ _
  rw [(sorted.map Key.keyID).nodup_iff, List.map_map]
  exact ids.sublist (List.filter_sublist.map _)

section
variable (inv : s.Inv)
include inv

variable {entries : Map Bytes (Entry S V)}

theorem mem_order (loaded : loadRows material (s.verificationKeys clk t) ∅ = .ok entries) {order : List (Entry S V)}
    (ranged : order.Perm (entries.entries.map Sigma.snd)) (e : Entry S V) :
    e ∈ order ↔ ∃ k ∈ s.held t, k.verifies clk.truncate = true ∧ openKey material k = .ok e := by
  have lookup := lookup_loadRows loaded (nodup_verificationKeys inv)
  rw [ranged.mem_iff, List.mem_map]
  constructor
  · rintro ⟨⟨id, e⟩, member, rfl⟩
    rcases (lookup id e).mp (Map.mem_entries.mp member) with ⟨k, held, -, opened⟩ | ⟨-, absent⟩
    · obtain ⟨held, verifies⟩ := (mem_verificationKeys inv).mp held
      exact ⟨k, held, verifies, opened⟩
    · simp at absent
  · rintro ⟨k, held, verifies, opened⟩
    have found := (lookup k.keyID e).mpr (.inl ⟨k, (mem_verificationKeys inv).mpr ⟨held, verifies⟩, rfl, opened⟩)
    exact ⟨⟨k.keyID, e⟩, Map.mem_entries.mpr found, rfl⟩

/-- An entry signs while its key is active, to the microsecond. -/
theorem usable_eq {r : Row} {e : Entry S V} (member : r ∈ s.rowsOf t) (opened : openKey material r.key = .ok e) :
    (e.signer.isSome && e.metadata.isActive clk) = r.key.isActive clk.truncate := by
  obtain ⟨same, signer, -, signs⟩ := openKey_ok opened
  have whole := ((inv.sound t).formed r member).2.1
  have active : e.metadata.isActive clk = r.key.isActive clk := by
    rw [same]
    rfl
  rw [active, signs, isActive_truncate whole]
  cases retired : r.key.retiredAt <;> simp [Key.isActive, retired]

/-- The keyset signs with the key that the store names as active. -/
theorem signerAt_eq (loaded : load material (s.verificationKeys clk t) = .ok entries)
    {order : List (Entry S V)} (ranged : order.Perm (entries.entries.map Sigma.snd)) :
    signerAt order clk = (s.activeKey clk t).bind fun k => (material k).map Prod.fst := by
  simp only [load, ite_error_eq_ok] at loaded
  have source := mem_order inv loaded.2 ranged
  cases signs : s.signer t clk.truncate with
  | none =>
    have idle : best (fun e : Entry S V => e.signer.isSome && e.metadata.isActive clk)
        (fun e b => newer e.metadata b.metadata) order = none := by
      refine best_eq_none.mpr fun e member => ?_
      obtain ⟨k, held, -, opened⟩ := (source e).mp member
      obtain ⟨r, member, rfl⟩ := List.mem_map.mp held
      rw [Store.signer_eq, best_eq_none] at signs
      rw [usable_eq inv member opened, signs r member]
    simp [signerAt, idle, Store.activeKey, signs]
  | some row =>
    obtain ⟨member, active, least⟩ := Store.signer_eq_some signs
    have listed : row.key ∈ s.held t ∧ row.key.verifies clk.truncate = true :=
      ⟨List.mem_map_of_mem member, Key.verifies_of_isActive active⟩
    obtain ⟨e, opened⟩ := openKey_of_loadRows loaded.2 ((mem_verificationKeys inv).mpr listed)
    have chosen : best (fun e : Entry S V => e.signer.isSome && e.metadata.isActive clk)
        (fun e b => newer e.metadata b.metadata) order = some e := by
      refine best_eq_some_of newer_trans newer_irrefl ((source e).mpr ⟨_, listed.1, listed.2, opened⟩) ?_ ?_
      · rw [usable_eq inv member opened]
        exact active
      · intro a memberA usedA other
        obtain ⟨k, held, -, openedA⟩ := (source a).mp memberA
        obtain ⟨r, memberR, rfl⟩ := List.mem_map.mp held
        rw [usable_eq inv memberR openedA] at usedA
        -- Two entries of one id would be one entry.
        have differs : r.key.keyID ≠ row.key.keyID := by
          intro same
          rw [List.inj_on_of_nodup_map (inv.sound t).ids memberR member same] at openedA
          exact other (Except.ok.inj (openedA.symm.trans opened))
        rw [newer_eq, (openKey_ok opened).1, (openKey_ok openedA).1]
        exact outranks_total differs (least r memberR usedA)
    obtain ⟨-, signer, made, held⟩ := openKey_ok opened
    have unretired : row.key.retiredAt.isNone = true := (Bool.and_eq_true_iff.mp active).1
    have whole := ((inv.sound t).formed row member).2.1
    simp [signerAt, chosen, Store.activeKey, signs, whole, held, made, unretired]

end
end

/-- Before the earlier of the own end of a key and the end of the overlap, to the microsecond. -/
def Overlap (prev : Key) (overlapUntil x : Time) : Prop :=
  (prev.notAfter = 0 ∨ x < prev.notAfter) ∧ x < overlapUntil.truncate

/-- The key is retired and verifies during the overlap only. An overlap that ends at the zero Time, to the
microsecond, is none. -/
structure Superseded (prev : Key) (overlapUntil : Time) (k : Key) : Prop where
  retired : k.retiredAt.isSome = true
  ends : ∀ x, k.verifies x = true → Overlap prev overlapUntil x
  lasts : overlapUntil.truncate ≠ 0 → k.notAfter ≠ 0 ∧ ∀ x, Overlap prev overlapUntil x → k.verifies x = true

theorem superseded_retire (prev : Row) (retiredAt overlapUntil : Time) :
    Superseded prev.key overlapUntil (Store.retire prev retiredAt overlapUntil).key where
  retired := rfl
  ends x verifies := by
    obtain ⟨own, within, -⟩ := (Store.verifies_retire prev retiredAt overlapUntil x).mp verifies
    exact ⟨own, within⟩
  lasts finite := by
    have ends : (Store.retire prev retiredAt overlapUntil).key.notAfter ≠ 0 := by
      simp only [Store.retire]
      split
      · exact finite
      next own => exact fun never => own (.inl never)
    exact ⟨ends, fun x within =>
      (Store.verifies_retire prev retiredAt overlapUntil x).mpr ⟨within.1, within.2, ends⟩⟩

theorem Superseded.congr {prev k k' : Key} {overlapUntil : Time} (superseded : Superseded prev overlapUntil k)
    (retired : k'.retiredAt = k.retiredAt) (ends : k'.notAfter = k.notAfter) : Superseded prev overlapUntil k' := by
  have same (x : Time) : k'.verifies x = k.verifies x := by
    simp only [Key.verifies, Key.isExpired, retired, ends]
  refine ⟨by rw [retired]; exact superseded.retired, fun x => ?_, fun finite => ?_⟩
  · rw [same]
    exact superseded.ends x
  · rw [ends]
    refine ⟨(superseded.lasts finite).1, fun x within => ?_⟩
    rw [same]
    exact (superseded.lasts finite).2 x within

def Key.unsealed (k : Key) : Key := { k with sealedKey := [], aadVersion := aadVersionCurrent }

namespace Store
variable {s s' : Store} {clk : Time} {t : TenantID}

theorem perform_records (bounded : s.Bounded) {op : Op} (changed : (s.perform ⟨clk, op⟩).held t ≠ s.held t) :
    ∃ c ∈ (s.perform ⟨clk, op⟩).feed, c ∉ s.feed ∧ c.tenant = t := by
  have new {c : Change} (later : s.seq < c.seq) : c ∉ s.feed := fun member => absurd (bounded c member) (by omega)
  by_cases reaps : op = .reapExpired
  · subst reaps
    obtain ⟨mid, advances, prunes⟩ := reapExpired_prunes s clk
    have pruned : s.perform ⟨clk, .reapExpired⟩ = mid.prune clk.truncate := prunes
    rw [pruned] at changed ⊢
    rcases advances.named t with same | ⟨c, member, later, own, instant⟩
    · exact absurd same changed
    · -- An entry of this very call is retained.
      refine ⟨c, List.mem_filter.mpr ⟨member, ?_⟩, new later, own⟩
      rw [instant]
      simp [Time.sub, feedRetention, Duration.hour, Duration.minute, Duration.second, Duration.minDuration,
        Duration.maxDuration]
  · have other : (Call.mk clk op).op ≠ .reapExpired := reaps
    have advances : s.Advances clk.truncate (s.perform ⟨clk, op⟩) := perform_advances s other
    rcases advances.named t with same | ⟨c, member, later, own, -⟩
    · exact absurd same changed
    · exact ⟨c, member, new later, own⟩

theorem verifying_reseal (n : Nat) (material : Bytes) (rows : List Row) (now : Time) :
    ((((reviseAt n (Row.reseal · material) rows).map Row.key).filter fun k => k.verifies now).map Key.unsealed) =
      ((rows.map Row.key).filter fun k => k.verifies now).map Key.unsealed := by
  induction rows with
  | nil => rfl
  | cons row rows ih =>
    have verifies : (row.reseal material).key.verifies now = row.key.verifies now := rfl
    have same : (row.reseal material).key.unsealed = row.key.unsealed := rfl
    simp only [reviseAt, List.map_cons, List.filter_cons] at ih ⊢
    by_cases own : row.seq = n
    · cases shows : row.key.verifies now <;> simp [own, verifies, shows, same, ih, -List.map_map]
    · cases shows : row.key.verifies now <;> simp [own, shows, ih, -List.map_map]

theorem replaceSealed_verifying (s : Store) (r : Reseal) (now : Time) (t : TenantID) :
    ((s.replaceSealed r).1.verifying now t).map Key.unsealed = (s.verifying now t).map Key.unsealed := by
  dsimp only [replaceSealed]
  split
  · rfl
  split
  · rfl
  split
  · rfl
  next found _ _ =>
    simp only [verifying, held]
    rw [rowsOf_write]
    split
    next own =>
      subst own
      exact verifying_reseal found.seq r.new _ now
    · rfl

theorem rotate_ok {r : Rotation} (ok : s.rotate clk r = (s', .ok ())) :
    ∃ next prev, s.Rotates clk r next prev ∧ s' = s.rotated clk r next prev := by
  rcases rotate_cases s clk r with ⟨err, failed⟩ | ⟨next, prev, rotates, done⟩
  · rw [failed] at ok
    cases ok
  · rw [done] at ok
    exact ⟨next, prev, rotates, (Prod.ext_iff.mp ok).1.symm⟩

/-- What a rotation leaves of the previous signer, here and after any further requests. -/
theorem Rotates.retired {r : Rotation} {next : Key} {prev : Row} (inv : s.Inv) (rotates : s.Rotates clk r next prev) :
    retire prev r.retiredAt r.overlapUntil ∈ (s.rotated clk r next prev).rowsOf next.tenant ∧
      (s.rotated clk r next prev).Retired next.tenant prev.seq (retire prev r.retiredAt r.overlapUntil).key.retiredAt
        (retire prev r.retiredAt r.overlapUntil).key.notAfter := by
  obtain ⟨member, -, -⟩ := signer_eq_some rotates.signs
  have sound := inv.sound next.tenant
  have issued := sound.bounded prev member
  have rows := rowsOf_rotated s clk r next prev next.tenant
  rw [if_pos rfl] at rows
  refine ⟨?_, issued.trans rotates.changes.seq, fun row' member' same => ?_⟩
  · rw [rows]
    exact List.mem_append_left _ (mem_reviseAt.mpr ⟨prev, member, (if_pos rfl).symm⟩)
  · rw [rows] at member'
    rcases List.mem_append.mp member' with old | new
    · obtain ⟨row, held, rfl⟩ := mem_reviseAt.mp old
      have own : row.seq = prev.seq := by
        split at same
        · exact same
        · exact same
      rw [if_pos own, List.inj_on_of_nodup_map sound.seqs held member own]
      exact ⟨rfl, rfl⟩
    · rw [List.mem_singleton.mp new] at same
      dsimp only at same
      omega

end Store

/-- What a successful rotation has done: the next key signs, the previous one is superseded for good, and no later
rotation succeeds from its row. -/
structure Rotated (s : Store) (clk : Time) (r : Rotation) (s' : Store) (next : Key) (prev : Row) : Prop where
  checked : checkKey clk r.next = .ok next
  named : s.find next.tenant r.previous = some prev
  signs : s'.activeKey clk next.tenant = some next
  kept : ∃ old, s'.find next.tenant r.previous = some old ∧ old.seq = prev.seq
  superseded : ∀ later u, Run Step s' later u → ∀ old ∈ u.rowsOf next.tenant, old.seq = prev.seq →
    Superseded prev.key r.overlapUntil old.key
  once : ∀ later u, Run Step s' later u → ∀ clk' r' u', u.rotate clk' r' = (u', .ok ()) →
    r'.next.tenant = next.tenant → ∀ row, u.find next.tenant r'.previous = some row → row.seq ≠ prev.seq

theorem rotated_of_rotate {s s' : Store} (inv : s.Inv) {clk : Time} {r : Rotation}
    (ok : s.rotate clk r = (s', .ok ())) : ∃ next prev, Rotated s clk r s' next prev := by
  obtain ⟨next, prev, rotates, rfl⟩ := Store.rotate_ok ok
  obtain ⟨member, active, -⟩ := Store.signer_eq_some rotates.signs
  obtain ⟨present, retired⟩ := rotates.retired inv
  have inv' : (s.rotated clk r next prev).Inv := by
    have after : (s.answer clk (.write (.rotate r))).1 = s.rotated clk r next prev :=
      congrArg Prod.fst ok
    rw [← after]
    exact inv.answer _ _
  have superseded (later : List (Time × Request)) (u : Store) (run : Run Step (s.rotated clk r next prev) later u)
      (old : Row) (held : old ∈ u.rowsOf next.tenant) (same : old.seq = prev.seq) :
      Superseded prev.key r.overlapUntil old.key := by
    obtain ⟨retiredAt, notAfter⟩ := (retired.run run inv' rfl).2 old held same
    exact (superseded_retire prev r.retiredAt r.overlapUntil).congr retiredAt notAfter
  refine ⟨next, prev, rotates.checked, ?_, ?_, ?_, superseded, ?_⟩
  · rw [← rotates.named]
    exact Store.find_of_mem inv member
  · simp only [Store.activeKey, rotates.signer, Option.map_some, rotates.adds.whole]
  · have found := Store.find_of_mem inv' present
    have id : (Store.retire prev r.retiredAt r.overlapUntil).key.keyID = r.previous := rotates.named
    rw [id] at found
    exact ⟨_, found, rfl⟩
  · intro later u run clk' r' u' again tenant row found same
    -- A rotation starts from the active signer, and this row is retired.
    obtain ⟨next', prev', rotates', rfl⟩ := Store.rotate_ok again
    obtain ⟨member', active', -⟩ := Store.signer_eq_some rotates'.signs
    have own : next'.tenant = next.tenant := (Store.checkKey_ok rotates'.checked).2.2.1.trans tenant
    rw [own] at member'
    have sameRow : row = prev' := by
      have named := Store.find_of_mem (inv'.run run) member'
      rw [rotates'.named, found] at named
      exact Option.some.inj named
    subst sameRow
    have gone := (superseded later u run row member' same).retired
    simp [Key.isActive, Option.isSome_iff_ne_none.mp gone] at active'

/-- Key rotation after any history: ids are unique, a rotation installs its key and supersedes the previous one, a
failed request changes nothing, a tombstone is final, what changes a tenant's verifying keys is recorded or reseals one
of them, and a keyset signs with the active key. -/
theorem keys_rotate {calls : List (Time × Request)} {s : Store} (run : Run Step .new calls s) :
    (∀ t, ((s.held t).map Key.keyID).Nodup) ∧
    (∀ clk r s', s.rotate clk r = (s', .ok ()) → ∃ next prev, Rotated s clk r s' next prev) ∧
    (∀ clk request, (s.answer clk request).2 = false → (s.answer clk request).1 = s) ∧
    (∀ t, s.isTombstoned t = true → ∀ later u, Run Step s later u → u.rowsOf t = []) ∧
    (∀ clk request t, (s.answer clk request).1.verifying clk.truncate t ≠ s.verifying clk.truncate t →
      (∃ c ∈ (s.answer clk request).1.feed, c ∉ s.feed ∧ c.tenant = t) ∨
        (∃ r, request = .replaceSealed r) ∧ ((s.answer clk request).1.verifying clk.truncate t).map Key.unsealed =
          (s.verifying clk.truncate t).map Key.unsealed) ∧
    ∀ (S V : Type) (material : Key → Option (S × V)) (clk : Time) (t : TenantID),
      (s.verificationKeys clk t = [] → s.activeKey clk t = none) ∧
      ∀ entries, load material (s.verificationKeys clk t) = .ok entries →
        ∀ order : List (Entry S V), order.Perm (entries.entries.map Sigma.snd) →
          signerAt order clk = (s.activeKey clk t).bind fun k => (material k).map Prod.fst := by
  have inv : s.Inv := Store.Inv.new.run run
  refine ⟨fun t => ?_, fun clk r s' ok => rotated_of_rotate inv ok, fun clk request => Store.answer_failed,
    fun t dead later u after => (inv.run after).dead t (Store.dead_run after dead), fun clk request t changed => ?_,
    fun S V material clk t => ⟨fun empty => ?_, fun entries loaded order ranged => signerAt_eq inv loaded ranged⟩⟩
  · rw [Store.held, List.map_map]
    exact (inv.sound t).ids
  · cases request with
    | write op =>
      refine .inl (Store.perform_records inv.feed fun same => changed ?_)
      simp only [Store.answer, Store.verifying, same]
    | replaceSealed r => exact .inr ⟨⟨r, rfl⟩, Store.replaceSealed_verifying s r _ t⟩
  · cases signs : s.signer t clk.truncate with
    | none => simp [Store.activeKey, signs]
    | some row =>
      obtain ⟨member, active, -⟩ := Store.signer_eq_some signs
      have listed : row.key ∈ s.verificationKeys clk t :=
        (mem_verificationKeys inv).mpr ⟨List.mem_map_of_mem member, Key.verifies_of_isActive active⟩
      rw [empty] at listed
      cases listed

namespace Sample

def key (id : Bytes) : Key := ⟨.zero, id, [1], [1], aadVersionCurrent, 0, 0, none⟩

def rotation (overlapUntil : Time) : Rotation := ⟨[97], key [98], -Duration.hour, overlapUntil⟩

def first : Time × Request := (-Duration.hour, .write (.createTenant (key [97])))

def second (overlapUntil : Time) : Time × Request := (-Duration.hour, .write (.rotate (rotation overlapUntil)))

def after (calls : List (Time × Request)) : Store :=
  calls.foldl (fun s call => (s.answer call.1 call.2).1) .new

theorem run_after (calls : List (Time × Request)) : Run Step .new calls (after calls) := by
  have each : ∀ (s : Store), ∀ call ∈ calls, Step s call (s.answer call.1 call.2).1 := fun _ _ _ => rfl
  exact Run.foldl calls each Store.new

end Sample

open Sample

theorem keys_rotate_second :
    ∃ next prev, Rotated (after [first]) (-Duration.hour) (rotation Duration.hour)
      (after [first, second Duration.hour]) next prev := by
  obtain ⟨-, rotates, -⟩ := keys_rotate (run_after [first])
  have succeeds : ((after [first]).rotate (-Duration.hour) (rotation Duration.hour)).2.toBool =
      true := by decide +kernel
  refine rotates _ _ _ (Prod.ext rfl ?_)
  cases outcome : ((after [first]).rotate (-Duration.hour) (rotation Duration.hour)).2 with
  | error err =>
    rw [outcome] at succeeds
    cases succeeds
  | ok done => rfl

/-- Resealing a verifying key records nothing. An overlap that ends in the first microsecond after the zero Time leaves
no overlap before it. -/
theorem keys_rotate_unrecorded :
    (let s := after [first]
     let s' := (s.answer 0 (.replaceSealed ⟨.zero, [97], [1], [2]⟩)).1
     s'.verifying 0 .zero ≠ s.verifying 0 .zero ∧ s'.feed = s.feed) ∧
      ((after [first, second 1]).find .zero [97]).any (fun old =>
        decide ((-1 : Time) < Time.truncate 1) && !old.key.verifies (-1)) = true := by
  decide +kernel

end Egauth.Keys
