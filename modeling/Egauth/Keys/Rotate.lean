import Egauth.Data.Best
import Egauth.Keys.Feed
import Egauth.Semantics.Result

/-! What a call does to the rows of a tenant.

`Edit` lists the ways in which the rows of one tenant can change. That ids stay
unique, that a retired row stays retired and that a tombstone is final are read
off from it.
-/

set_option autoImplicit false

namespace Egauth.Keys
open Egauth.Core

structure Reseal where
  tenant : TenantID
  keyID : Bytes
  old : Bytes
  new : Bytes
  deriving DecidableEq

def Row.reseal (row : Row) (material : Bytes) : Row :=
  { row with key := { row.key with sealedKey := material, aadVersion := aadVersionCurrent } }

namespace Store

/-- None for `errInvalidSeal`. -/
def replaceSealed (s : Store) (r : Reseal) : Store × Option Bool :=
  if r.old.length = 0 ∨ r.new.length = 0 ∨ r.keyID = [] then (s, none)
  else
    match s.find r.tenant r.keyID with
    | none => (s, some false)
    | some found =>
      if found.key.sealedKey ≠ r.old then (s, some false)
      else
        let rows := (s.rowsOf r.tenant).map fun row => if row.seq = found.seq then row.reseal r.new else row
        ({ s with rows := s.rows.insert r.tenant rows }, some true)

/-- None for `ErrNoActiveKey`. -/
def activeKey (s : Store) (clk : Time) (t : TenantID) : Option Key :=
  (s.signer t clk.truncate).map fun r => cloneKey r.key

def verifying (s : Store) (now : Time) (t : TenantID) : List Key := (s.held t).filter fun k => k.verifies now

def verificationKeys (s : Store) (clk : Time) (t : TenantID) : List Key :=
  ((s.verifying clk.truncate t).map cloneKey).insertionSort fun a b => newest a b ≠ .gt

def accepts (s : Store) (clk : Time) : Op → Bool
  | .createTenant initial => (s.createTenant clk initial).2.toBool
  | .putKey key => (s.putKey clk key).2.toBool
  | .rotate r => (s.rotate clk r).2.toBool
  | .revokeTenantKeys _ => true
  | .tombstone _ => true
  | .eraseTenant _ => true
  | .reapExpired => true

end Store

inductive Request where
  | write (op : Op)
  | replaceSealed (r : Reseal)

/-- The state after a request, and whether it returned without an error. -/
def Store.answer (s : Store) (clk : Time) : Request → Store × Bool
  | .write op => (s.perform ⟨clk, op⟩, s.accepts clk op)
  | .replaceSealed r => ((s.replaceSealed r).1, (s.replaceSealed r).2.isSome)

def Step (s : Store) (call : Time × Request) (s' : Store) : Prop := s' = (s.answer call.1 call.2).1

instance : Std.TransCmp newest := by
  have times : Std.TransCmp fun a b : Key => compareOn Key.createdAt b a := .opposite
  have ids : Std.TransCmp fun a b : Key => compareOn Key.keyID b a := .opposite
  have both : Std.TransCmp (compareLex (fun a b : Key => compareOn Key.createdAt b a)
      fun a b => compareOn Key.keyID b a) := inferInstance
  exact both

theorem keyID_eq_of_newest {a b : Key} (same : newest a b = .eq) : a.keyID = b.keyID :=
  (Std.LawfulEqCmp.eq_of_compare (Ordering.then_eq_eq.mp same).2).symm

def outranks (a b : Key) : Bool := newest a b == .lt

theorem outranks_trans (a b c : Key) (first : outranks a b = true) (second : outranks b c = true) :
    outranks a c = true := by
  simp only [outranks, beq_iff_eq] at first second ⊢
  exact Std.TransCmp.lt_trans first second

theorem outranks_irrefl (a : Key) : outranks a a = false := by
  simp [outranks, Std.ReflCmp.compare_self]

theorem outranks_of_not_gt {a b : Key} (other : a.keyID ≠ b.keyID) (notGreater : newest a b ≠ .gt) :
    outranks a b = true := by
  cases order : newest a b with
  | lt => simp [outranks, order]
  | eq => exact absurd (keyID_eq_of_newest order) other
  | gt => exact absurd order notGreater

theorem outranks_total {a b : Key} (other : a.keyID ≠ b.keyID) (below : outranks a b = false) :
    outranks b a = true := by
  refine outranks_of_not_gt (Ne.symm other) fun greater => ?_
  simp [outranks, Std.OrientedCmp.gt_iff_lt.mp greater] at below

theorem Store.signer_eq (s : Store) (t : TenantID) (now : Time) :
    s.signer t now =
      best (fun r => r.key.isActive now) (fun r b => outranks r.key b.key) (s.rowsOf t) := by
  unfold signer best
  congr 1
  funext found r
  cases found <;> rfl

structure Adds (t : TenantID) (rows : List Row) (k : Key) : Prop where
  owner : k.tenant = t
  whole : cloneKey k = k
  current : k.aadVersion = aadVersionCurrent
  fresh : ∀ r ∈ rows, r.key.keyID ≠ k.keyID

def reviseAt (n : Nat) (f : Row → Row) (rows : List Row) : List Row := rows.map fun row => if row.seq = n then f row else row

/-- The rows of a tenant before and after a call at a time, which issues the positions after the first up to the
second. -/
inductive Edit (t : TenantID) (dead : Prop) (low high : Nat) (now : Time) : List Row → List Row → Prop where
  | same (rows : List Row) : Edit t dead low high now rows rows
  | added {rows : List Row} {k : Key} {n : Nat} (alive : ¬ dead) (adds : Adds t rows k) (later : low < n)
      (issued : n ≤ high) : Edit t dead low high now rows (rows ++ [⟨k, n⟩])
  | rotated {rows : List Row} {k : Key} {n : Nat} {prev : Row} {retiredAt overlapUntil : Time} (alive : ¬ dead)
      (adds : Adds t rows k) (later : low < n) (issued : n ≤ high) (member : prev ∈ rows)
      (active : prev.key.isActive now = true) :
      Edit t dead low high now rows (reviseAt prev.seq (Store.retire · retiredAt overlapUntil) rows ++ [⟨k, n⟩])
  | resealed {rows : List Row} (n : Nat) (material : Bytes) :
      Edit t dead low high now rows (reviseAt n (Row.reseal · material) rows)
  | reaped (rows : List Row) : Edit t dead low high now rows (rows.filter fun r => r.key.verifies now)
  | wiped (rows : List Row) : Edit t dead low high now rows []

namespace Store
variable {s s' : Store} {clk now : Time} {t : TenantID}

structure Changes (s : Store) (now : Time) (s' : Store) : Prop where
  edit : ∀ t, Edit t (s.isTombstoned t = true) s.seq s'.seq now (s.rowsOf t) (s'.rowsOf t)
  seq : s.seq ≤ s'.seq
  dead : ∀ t, s.isTombstoned t = true → s'.isTombstoned t = true
  died : ∀ t, s'.isTombstoned t = true → s.isTombstoned t = true ∨ s'.rowsOf t = []

theorem Changes.refl (s : Store) (now : Time) : s.Changes now s where
  edit _ := .same _
  seq := le_rfl
  dead _ := id
  died _ := .inl

@[simp] theorem rowsOf_record (t k : TenantID) (now : Time) : (s.record k now).rowsOf t = s.rowsOf t := rfl

theorem rowsOf_insert (k : Key) (t : TenantID) :
    (s.insert k).rowsOf t = if t = k.tenant then s.rowsOf t ++ [⟨k, s.seq + 1⟩] else s.rowsOf t := by
  simp only [rowsOf, insert, Map.lookup_insert_eq]
  split
  next same =>
    subst same
    rfl
  · rfl

theorem rowsOf_write (rows : Map TenantID (List Row)) (k : TenantID) (new : List Row) (t : TenantID) :
    ({ s with rows := rows.insert k new } : Store).rowsOf t =
      if t = k then new else ({ s with rows := rows } : Store).rowsOf t := by
  simp only [rowsOf, Map.lookup_insert_eq]
  split <;> rfl

theorem cloneKey_cloneKey (k : Key) : cloneKey (cloneKey k) = cloneKey k := by
  have whole (t : Time) : t.truncate.truncate = t.truncate := Time.truncate_of_dvd (Time.microsecond_dvd_truncate t)
  simp [cloneKey, whole, Function.comp_def]

theorem checkKey_ok {key k : Key} (ok : checkKey clk key = .ok k) :
    cloneKey k = k ∧ k.aadVersion = aadVersionCurrent ∧ k.tenant = key.tenant ∧ k.keyID = key.keyID ∧
      k.retiredAt.isSome = key.retiredAt.isSome := by
  simp only [checkKey, ite_error_eq_ok, not_not, ne_eq, not_or] at ok
  obtain ⟨current, -, ok⟩ := ok
  cases ok
  have whole := cloneKey_cloneKey key
  split
  · refine ⟨?_, current, rfl, rfl, by simp [cloneKey]⟩
    have start : clk.truncate.truncate = clk.truncate := Time.truncate_of_dvd (Time.microsecond_dvd_truncate clk)
    rw [Key.mk.injEq] at whole
    exact (Key.mk.injEq ..).mpr ⟨rfl, rfl, rfl, rfl, rfl, start, whole.2.2.2.2.2.2.1, whole.2.2.2.2.2.2.2⟩
  · exact ⟨whole, current, rfl, rfl, by simp [cloneKey]⟩

theorem find_eq_none {id : Bytes} : s.find t id = none ↔ ∀ r ∈ s.rowsOf t, r.key.keyID ≠ id := by
  simp [find]

theorem Changes.insert {k : Key} (adds : Adds k.tenant (s.rowsOf k.tenant) k) (alive : s.isTombstoned k.tenant ≠ true) :
    s.Changes now ((s.insert k).record k.tenant now) where
  edit t := by
    rw [rowsOf_record, rowsOf_insert]
    split
    next own =>
      subst own
      exact .added alive adds (Nat.lt_succ_self _) (Nat.le_succ _)
    · exact .same _
  seq := (Nat.le_succ _).trans (Nat.le_succ _)
  dead _ := id
  died _ := .inl

theorem createTenant_cases (s : Store) (clk : Time) (initial : Key) :
    (∃ err, s.createTenant clk initial = (s, .error err)) ∨
      ∃ k, Adds k.tenant (s.rowsOf k.tenant) k ∧ s.isTombstoned k.tenant ≠ true ∧
        s.createTenant clk initial = ((s.insert k).record k.tenant clk.truncate, .ok ()) := by
  unfold createTenant
  split
  next err _ => exact .inl ⟨err, rfl⟩
  next k checked =>
    split
    · exact .inl ⟨_, rfl⟩
    next alive =>
      split
      · exact .inl ⟨_, rfl⟩
      next empty =>
        obtain ⟨whole, current, -⟩ := checkKey_ok checked
        have none : s.rowsOf k.tenant = [] := by simpa using empty
        exact .inr ⟨k, ⟨rfl, whole, current, by simp [none]⟩, alive, rfl⟩

theorem putKey_cases (s : Store) (clk : Time) (key : Key) :
    (∃ err, s.putKey clk key = (s, .error err)) ∨
      ∃ k, Adds k.tenant (s.rowsOf k.tenant) k ∧ s.isTombstoned k.tenant ≠ true ∧
        s.putKey clk key = ((s.insert k).record k.tenant clk.truncate, .ok ()) := by
  unfold putKey
  split
  next err _ => exact .inl ⟨err, rfl⟩
  next k checked =>
    split
    · exact .inl ⟨_, rfl⟩
    next alive =>
      split
      · exact .inl ⟨_, rfl⟩
      next absent =>
        obtain ⟨whole, current, -⟩ := checkKey_ok checked
        have fresh := find_eq_none.mp (Option.not_isSome_iff_eq_none.mp absent)
        exact .inr ⟨k, ⟨rfl, whole, current, fresh⟩, alive, rfl⟩

structure Rotates (s : Store) (clk : Time) (r : Rotation) (next : Key) (signer : Row) : Prop where
  valid : r.valid = true
  checked : checkKey clk r.next = .ok next
  alive : s.isTombstoned next.tenant ≠ true
  signs : s.signer next.tenant clk.truncate = some signer
  named : signer.key.keyID = r.previous
  fresh : s.find next.tenant next.keyID = none
  becomes : s.becomesSigner next signer clk.truncate = true

def rotated (s : Store) (clk : Time) (r : Rotation) (next : Key) (signer : Row) : Store :=
  let rows := reviseAt signer.seq (retire · r.retiredAt r.overlapUntil) (s.rowsOf next.tenant)
  (insert { s with rows := s.rows.insert next.tenant rows } next).record next.tenant clk.truncate

theorem rotate_cases (s : Store) (clk : Time) (r : Rotation) :
    (∃ err, s.rotate clk r = (s, .error err)) ∨
      ∃ next signer, s.Rotates clk r next signer ∧ s.rotate clk r = (s.rotated clk r next signer, .ok ()) := by
  dsimp only [rotate]
  split
  · exact .inl ⟨_, rfl⟩
  next valid =>
    split
    · exact .inl ⟨_, rfl⟩
    · exact .inl ⟨_, rfl⟩
    next next checked =>
      split
      · exact .inl ⟨_, rfl⟩
      next alive =>
        split
        · exact .inl ⟨_, rfl⟩
        next signer signs =>
          split
          · exact .inl ⟨_, rfl⟩
          next named =>
            split
            · exact .inl ⟨_, rfl⟩
            next absent =>
              split
              · exact .inl ⟨_, rfl⟩
              next becomes =>
                refine .inr ⟨next, signer, ⟨by simpa using valid, checked, alive, signs, not_not.mp named, ?_, ?_⟩, rfl⟩
                · exact Option.not_isSome_iff_eq_none.mp absent
                · simpa using becomes

theorem rowsOf_rotated (s : Store) (clk : Time) (r : Rotation) (next : Key) (signer : Row) (t : TenantID) :
    (s.rotated clk r next signer).rowsOf t =
      if t = next.tenant then
        reviseAt signer.seq (retire · r.retiredAt r.overlapUntil) (s.rowsOf t) ++ [⟨next, s.seq + 1⟩]
      else s.rowsOf t := by
  unfold rotated
  rw [rowsOf_record, rowsOf_insert, rowsOf_write]
  split
  next own =>
    subst own
    rfl
  · rfl

theorem signer_eq_some {row : Row} (signs : s.signer t now = some row) :
    row ∈ s.rowsOf t ∧ row.key.isActive now = true ∧
      ∀ r ∈ s.rowsOf t, r.key.isActive now = true → outranks r.key row.key = false := by
  rw [signer_eq] at signs
  have trans (a b c : Row) := outranks_trans a.key b.key c.key
  have irrefl (a : Row) := outranks_irrefl a.key
  exact best_eq_some trans irrefl signs

theorem Rotates.adds {r : Rotation} {next : Key} {signer : Row} (rotates : s.Rotates clk r next signer) :
    Adds next.tenant (s.rowsOf next.tenant) next := by
  obtain ⟨whole, current, -⟩ := checkKey_ok rotates.checked
  exact ⟨rfl, whole, current, find_eq_none.mp rotates.fresh⟩

theorem Rotates.changes {r : Rotation} {next : Key} {signer : Row} (rotates : s.Rotates clk r next signer) :
    s.Changes clk.truncate (s.rotated clk r next signer) where
  edit t := by
    rw [rowsOf_rotated]
    split
    next own =>
      subst own
      obtain ⟨member, active, -⟩ := signer_eq_some rotates.signs
      exact .rotated rotates.alive rotates.adds (Nat.lt_succ_self _) (Nat.le_succ _) member active
    · exact .same _
  seq := (Nat.le_succ _).trans (Nat.le_succ _)
  dead _ := id
  died _ := .inl

theorem rowsOf_wipe (s : Store) (k t : TenantID) : (s.wipe k).1.rowsOf t = if t = k then [] else s.rowsOf t := by
  simp only [rowsOf, wipe, Map.lookup_erase_eq]
  split <;> rfl

theorem edit_wipe (s : Store) (k t : TenantID) (dead : Prop) (low high : Nat) (now : Time) :
    Edit t dead low high now (s.rowsOf t) ((s.wipe k).1.rowsOf t) := by
  rw [rowsOf_wipe]
  split
  · exact .wiped _
  · exact .same _

theorem revokeTenantKeys_changes (s : Store) (clk : Time) (k : TenantID) :
    s.Changes clk.truncate (s.revokeTenantKeys clk k) := by
  dsimp only [revokeTenantKeys]
  split
  · exact ⟨fun t => edit_wipe s k t _ _ _ _, Nat.le_succ _, fun _ => id, fun _ => .inl⟩
  · exact ⟨fun t => edit_wipe s k t _ _ _ _, le_rfl, fun _ => id, fun _ => .inl⟩

/-- The rows and the tombstones after `Tombstone`, whether it records the change or not. -/
theorem tombstone_eq (s : Store) (clk : Time) (k : TenantID) :
    s.seq ≤ (s.tombstone clk k).seq ∧ (∀ t, (s.tombstone clk k).rowsOf t = (s.wipe k).1.rowsOf t) ∧
      ∀ t, (s.tombstone clk k).isTombstoned t = (decide (t = k) || s.isTombstoned t) := by
  dsimp only [tombstone]
  by_cases dead : (s.wipe k).1.isTombstoned k = true
  · have dead' : s.isTombstoned k = true := dead
    have marked (t : TenantID) : s.isTombstoned t = (decide (t = k) || s.isTombstoned t) := by
      by_cases own : t = k
      · subst own
        simp [dead']
      · simp [own]
    rw [if_pos dead]
    split
    · exact ⟨Nat.le_succ _, fun _ => rfl, marked⟩
    · exact ⟨le_rfl, fun _ => rfl, marked⟩
  · rw [if_neg dead, if_pos (by simp [dead])]
    refine ⟨Nat.le_succ _, fun _ => rfl, fun t => ?_⟩
    change ((s.tombstones.insert k ()).lookup t).isSome = _
    rw [Map.lookup_insert_eq]
    by_cases own : t = k
    · simp [own]
    · simp [own, isTombstoned]

theorem tombstone_changes (s : Store) (clk : Time) (k : TenantID) :
    s.Changes clk.truncate (s.tombstone clk k) := by
  obtain ⟨seq, rows, marks⟩ := tombstone_eq s clk k
  refine ⟨fun t => ?_, seq, fun t dead => by simp [marks, dead], fun t dead => ?_⟩
  · rw [rows]
    exact edit_wipe s k t _ _ _ _
  · rw [rows, rowsOf_wipe]
    simp only [marks, Bool.or_eq_true, decide_eq_true_eq] at dead
    rcases dead with own | old
    · exact .inr (if_pos own)
    · exact .inl old

theorem rowsOf_reapTenant (s : Store) (now : Time) (k t : TenantID) :
    (s.reapTenant now k).1.rowsOf t = s.rowsOf t ∨
      (s.reapTenant now k).1.rowsOf t = (s.rowsOf t).filter fun r => r.key.verifies now := by
  dsimp only [reapTenant]
  split
  · exact .inl rfl
  · rw [rowsOf_record]
    by_cases own : t = k
    · subst own
      refine .inr ?_
      split
      next empty =>
        rw [List.length_eq_zero_iff.mp empty]
        simp [rowsOf]
      · simp [rowsOf]
    · refine .inl ?_
      split
      · simp [rowsOf, AList.lookup_erase_ne own]
      · simp [rowsOf, AList.lookup_insert_ne own]

theorem reapTenant_rest (s : Store) (now : Time) (k : TenantID) :
    s.seq ≤ (s.reapTenant now k).1.seq ∧ (s.reapTenant now k).1.tombstones = s.tombstones := by
  dsimp only [reapTenant]
  split
  · exact ⟨le_rfl, rfl⟩
  · exact ⟨Nat.le_succ _, rfl⟩

/-- Reaping a tenant twice is reaping it once, so that the order of the loop does not matter. -/
theorem reapTenants_eq (now : Time) (tenants : List TenantID) (acc : Store × Nat) :
    let after := (tenants.foldl
      (fun acc t =>
        let (s, removed) := acc.1.reapTenant now t
        (s, acc.2 + removed)) acc).1
    acc.1.seq ≤ after.seq ∧ after.tombstones = acc.1.tombstones ∧
      ∀ t, after.rowsOf t = acc.1.rowsOf t ∨ after.rowsOf t = (acc.1.rowsOf t).filter fun r => r.key.verifies now := by
  induction tenants generalizing acc with
  | nil => exact ⟨le_rfl, rfl, fun _ => .inl rfl⟩
  | cons k tenants ih =>
    obtain ⟨seq, marks, rows⟩ := ih ((acc.1.reapTenant now k).1, acc.2 + (acc.1.reapTenant now k).2)
    obtain ⟨seq', marks'⟩ := reapTenant_rest acc.1 now k
    refine ⟨seq'.trans seq, marks.trans marks', fun t => ?_⟩
    rw [List.foldl_cons]
    rcases rowsOf_reapTenant acc.1 now k t with first | first <;> rcases rows t with second | second
    · exact .inl (second.trans first)
    · exact .inr (by rw [second, first])
    · exact .inr (second.trans first)
    · exact .inr (by rw [second, first, List.filter_filter]; simp)

theorem reapExpired_changes (s : Store) (clk : Time) : s.Changes clk.truncate (s.reapExpired clk).1 := by
  obtain ⟨seq, marks, rows⟩ := reapTenants_eq clk.truncate
    (s.rows.keys.insertionSort fun a b => ¬ b.id < a.id) (s, 0)
  -- Pruning leaves everything but the feed.
  have marked (t : TenantID) : (s.reapExpired clk).1.isTombstoned t = s.isTombstoned t := by
    change ((_ : Map TenantID Unit).lookup t).isSome = _
    exact congrArg (fun m : Map TenantID Unit => (m.lookup t).isSome) marks
  refine ⟨fun t => ?_, seq, fun t dead => by rw [marked, dead], fun t dead => .inl (by rw [← marked, dead])⟩
  rcases rows t with same | fewer
  · have kept : (s.reapExpired clk).1.rowsOf t = s.rowsOf t := same
    rw [kept]
    exact .same _
  · have kept : (s.reapExpired clk).1.rowsOf t = (s.rowsOf t).filter fun r => r.key.verifies clk.truncate := fewer
    rw [kept]
    exact .reaped _

theorem replaceSealed_changes (s : Store) (now : Time) (r : Reseal) : s.Changes now (s.replaceSealed r).1 := by
  dsimp only [replaceSealed]
  split
  · exact .refl s now
  split
  · exact .refl s now
  next found _ =>
    split
    · exact .refl s now
    · refine ⟨fun t => ?_, le_rfl, fun _ => id, fun _ => .inl⟩
      rw [rowsOf_write]
      split
      next own =>
        subst own
        exact .resealed found.seq r.new
      · exact .same _

theorem answer_changes (s : Store) (clk : Time) (request : Request) :
    s.Changes clk.truncate (s.answer clk request).1 := by
  cases request with
  | replaceSealed r => exact replaceSealed_changes s _ r
  | write op =>
    change s.Changes clk.truncate (s.perform ⟨clk, op⟩)
    cases op with
    | createTenant initial =>
      rcases createTenant_cases s clk initial with ⟨err, failed⟩ | ⟨k, adds, alive, done⟩
      · simp only [perform, failed]
        exact .refl s _
      · simp only [perform, done]
        exact .insert adds alive
    | putKey key =>
      rcases putKey_cases s clk key with ⟨err, failed⟩ | ⟨k, adds, alive, done⟩
      · simp only [perform, failed]
        exact .refl s _
      · simp only [perform, done]
        exact .insert adds alive
    | rotate r =>
      rcases rotate_cases s clk r with ⟨err, failed⟩ | ⟨next, signer, rotates, done⟩
      · simp only [perform, failed]
        exact .refl s _
      · simp only [perform, done]
        exact rotates.changes
    | revokeTenantKeys t => exact revokeTenantKeys_changes s clk t
    | tombstone t => exact tombstone_changes s clk t
    | eraseTenant t => exact tombstone_changes s clk t
    | reapExpired => exact reapExpired_changes s clk

theorem answer_failed {request : Request} (failed : (s.answer clk request).2 = false) :
    (s.answer clk request).1 = s := by
  cases request with
  | replaceSealed r =>
    simp only [answer, replaceSealed] at failed ⊢
    split at failed
    next malformed => rw [if_pos malformed]
    · split at failed
      · cases failed
      · split at failed <;> cases failed
  | write op =>
    simp only [answer] at failed ⊢
    cases op with
    | createTenant initial =>
      rcases createTenant_cases s clk initial with ⟨err, same⟩ | ⟨k, -, -, done⟩
      · simp only [perform, same]
      · simp [accepts, done, Except.toBool] at failed
    | putKey key =>
      rcases putKey_cases s clk key with ⟨err, same⟩ | ⟨k, -, -, done⟩
      · simp only [perform, same]
      · simp [accepts, done, Except.toBool] at failed
    | rotate r =>
      rcases rotate_cases s clk r with ⟨err, same⟩ | ⟨next, signer, -, done⟩
      · simp only [perform, same]
      · simp [accepts, done, Except.toBool] at failed
    | revokeTenantKeys t => cases failed
    | tombstone t => cases failed
    | eraseTenant t => cases failed
    | reapExpired => cases failed

end Store
end Egauth.Keys
