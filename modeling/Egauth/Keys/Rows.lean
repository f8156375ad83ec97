import Egauth.Keys.Rotate

/-! The rows of a tenant after any history of requests.

Ids and positions stay unique, a retired row keeps its end, and a tombstoned
tenant stays without rows.
-/

set_option autoImplicit false

namespace Egauth.Keys
open Egauth.Core

/-- The rows of one tenant: ids and positions are unique, and every key is as `checkKey` leaves it. -/
structure Sound (t : TenantID) (high : Nat) (rows : List Row) : Prop where
  ids : (rows.map fun r => r.key.keyID).Nodup
  seqs : (rows.map Row.seq).Nodup
  bounded : ∀ r ∈ rows, r.seq ≤ high
  formed : ∀ r ∈ rows, r.key.tenant = t ∧ cloneKey r.key = r.key ∧ r.key.aadVersion = aadVersionCurrent

section
variable {t : TenantID} {dead : Prop} {low high : Nat} {now : Time} {rows rows' : List Row}

theorem map_reviseAt {B : Type} (g : Row → B) {f : Row → Row} (kept : ∀ r, g (f r) = g r) (n : Nat) (rows : List Row) :
    (reviseAt n f rows).map g = rows.map g := by
  rw [reviseAt, List.map_map]
  refine List.map_congr_left fun r _ => ?_
  dsimp only [Function.comp_apply]
  split
  · exact kept r
  · rfl

theorem mem_reviseAt {n : Nat} {f : Row → Row} {r' : Row} :
    r' ∈ reviseAt n f rows ↔ ∃ r ∈ rows, r' = if r.seq = n then f r else r := by
  simp only [reviseAt, List.mem_map, eq_comm]

theorem Sound.wiped : Sound t high [] := ⟨List.nodup_nil, List.nodup_nil, nofun, nofun⟩

theorem Sound.mono (sound : Sound t low rows) (le : low ≤ high) : Sound t high rows :=
  { sound with bounded := fun r member => (sound.bounded r member).trans le }

theorem Sound.filter (sound : Sound t high rows) (keep : Row → Bool) : Sound t high (rows.filter keep) where
  ids := sound.ids.sublist (List.filter_sublist.map _)
  seqs := sound.seqs.sublist (List.filter_sublist.map _)
  bounded r member := sound.bounded r (List.mem_of_mem_filter member)
  formed r member := sound.formed r (List.mem_of_mem_filter member)

theorem Sound.revise (sound : Sound t high rows) (n : Nat) {f : Row → Row}
    (id : ∀ r, (f r).key.keyID = r.key.keyID) (seq : ∀ r, (f r).seq = r.seq)
    (formed : ∀ r, r.key.tenant = t ∧ cloneKey r.key = r.key ∧ r.key.aadVersion = aadVersionCurrent →
      (f r).key.tenant = t ∧ cloneKey (f r).key = (f r).key ∧ (f r).key.aadVersion = aadVersionCurrent) :
    Sound t high (reviseAt n f rows) where
  ids := by
    rw [map_reviseAt (fun r => r.key.keyID) id]
    exact sound.ids
  seqs := by
    rw [map_reviseAt Row.seq seq]
    exact sound.seqs
  bounded r' member := by
    obtain ⟨r, held, rfl⟩ := mem_reviseAt.mp member
    have bound := sound.bounded r held
    split
    · rw [seq]
      exact bound
    · exact bound
  formed r' member := by
    obtain ⟨r, held, rfl⟩ := mem_reviseAt.mp member
    split
    · exact formed r (sound.formed r held)
    · exact sound.formed r held

theorem Sound.add {k : Key} {n : Nat} (sound : Sound t low rows) (adds : Adds t rows k) (later : low < n)
    (issued : n ≤ high) : Sound t high (rows ++ [⟨k, n⟩]) where
  ids := by
    rw [List.map_append, List.nodup_append]
    refine ⟨sound.ids, List.nodup_singleton _, ?_⟩
    rintro _ member _ last same
    obtain ⟨r, held, rfl⟩ := List.mem_map.mp member
    rw [List.map_singleton, List.mem_singleton] at last
    exact adds.fresh r held (same.trans last)
  seqs := by
    rw [List.map_append, List.nodup_append]
    refine ⟨sound.seqs, List.nodup_singleton _, ?_⟩
    rintro _ member _ last same
    obtain ⟨r, held, rfl⟩ := List.mem_map.mp member
    rw [List.map_singleton, List.mem_singleton] at last
    have bound := sound.bounded r held
    dsimp only at last
    omega
  bounded r member := by
    rcases List.mem_append.mp member with old | new
    · exact (sound.bounded r old).trans (later.le.trans issued)
    · rw [List.mem_singleton.mp new]
      exact issued
  formed r member := by
    rcases List.mem_append.mp member with old | new
    · exact sound.formed r old
    · rw [List.mem_singleton.mp new]
      exact ⟨adds.owner, adds.whole, adds.current⟩

theorem cloneKey_retire {row : Row} (whole : cloneKey row.key = row.key) (retiredAt overlapUntil : Time) :
    cloneKey (Store.retire row retiredAt overlapUntil).key = (Store.retire row retiredAt overlapUntil).key := by
  have cut (t : Time) : t.truncate.truncate = t.truncate := Time.truncate_of_dvd (Time.microsecond_dvd_truncate t)
  rw [Key.mk.injEq] at whole
  obtain ⟨-, -, -, -, -, created, ends, -⟩ := whole
  refine (Key.mk.injEq ..).mpr ⟨rfl, rfl, rfl, rfl, rfl, created, ?_, ?_⟩
  · dsimp only [Store.retire]
    split
    · exact cut _
    · exact ends
  · simp [Store.retire, cut]

theorem Sound.retire (sound : Sound t high rows) (n : Nat) (retiredAt overlapUntil : Time) :
    Sound t high (reviseAt n (Store.retire · retiredAt overlapUntil) rows) :=
  sound.revise n (fun _ => rfl) (fun _ => rfl) fun _ formed =>
    ⟨formed.1, cloneKey_retire formed.2.1 retiredAt overlapUntil, formed.2.2⟩

theorem Edit.sound (edit : Edit t dead low high now rows rows') (grows : low ≤ high) (sound : Sound t low rows) :
    Sound t high rows' := by
  cases edit with
  | same => exact sound.mono grows
  | added alive adds later issued => exact sound.add adds later issued
  | rotated alive adds later issued member active =>
    refine (sound.retire _ _ _).add { adds with fresh := fun r member => ?_ } later issued
    obtain ⟨old, held, rfl⟩ := mem_reviseAt.mp member
    split
    · exact adds.fresh old held
    · exact adds.fresh old held
  | resealed n material =>
    refine (sound.mono grows).revise n (fun _ => rfl) (fun _ => rfl) fun r formed => ⟨formed.1, ?_, rfl⟩
    have whole := formed.2.1
    rw [Key.mk.injEq] at whole
    exact (Key.mk.injEq ..).mpr ⟨rfl, rfl, rfl, rfl, rfl, whole.2.2.2.2.2⟩
  | reaped => exact (sound.mono grows).filter _
  | wiped => exact .wiped

/-- A row after a call is new, or was there and has kept its retirement. -/
theorem Edit.origin (edit : Edit t dead low high now rows rows') (sound : Sound t low rows) {r' : Row}
    (member : r' ∈ rows') :
    low < r'.seq ∨ ∃ r ∈ rows, r'.seq = r.seq ∧
      (r.key.retiredAt.isSome → r'.key.retiredAt = r.key.retiredAt ∧ r'.key.notAfter = r.key.notAfter) := by
  cases edit with
  | same => exact .inr ⟨r', member, rfl, fun _ => ⟨rfl, rfl⟩⟩
  | added alive adds later issued =>
    rcases List.mem_append.mp member with old | new
    · exact .inr ⟨r', old, rfl, fun _ => ⟨rfl, rfl⟩⟩
    · rw [List.mem_singleton.mp new]
      exact .inl later
  | @rotated _ _ prev _ _ alive adds later issued memberPrev active =>
    rcases List.mem_append.mp member with old | new
    · obtain ⟨r, held, rfl⟩ := mem_reviseAt.mp old
      refine .inr ⟨r, held, ?_, fun retired => ?_⟩
      · split <;> rfl
      · -- The row that is retired now was active.
        have other : r.seq ≠ prev.seq := by
          intro same
          rw [List.inj_on_of_nodup_map sound.seqs held memberPrev same] at retired
          simp [Key.isActive, Option.isSome_iff_ne_none.mp retired] at active
        rw [if_neg other]
        exact ⟨rfl, rfl⟩
    · rw [List.mem_singleton.mp new]
      exact .inl later
  | resealed n material =>
    obtain ⟨r, held, rfl⟩ := mem_reviseAt.mp member
    refine .inr ⟨r, held, ?_, fun _ => ?_⟩
    · split <;> rfl
    · split <;> exact ⟨rfl, rfl⟩
  | reaped => exact .inr ⟨r', List.mem_of_mem_filter member, rfl, fun _ => ⟨rfl, rfl⟩⟩
  | wiped => cases member

end

namespace Store
variable {s s' u : Store} {clk : Time} {t : TenantID} {calls : List (Time × Request)}

structure Inv (s : Store) : Prop where
  sound : ∀ t, Sound t s.seq (s.rowsOf t)
  dead : ∀ t, s.isTombstoned t = true → s.rowsOf t = []
  feed : s.Bounded

theorem Inv.new : Inv new := ⟨fun _ => .wiped, fun _ => nofun, nofun⟩

theorem Edit.dead {dead : Prop} {low high : Nat} {now : Time} {rows : List Row}
    (edit : Edit t dead low high now [] rows) (gone : dead) : rows = [] := by
  cases edit with
  | same => rfl
  | added alive => exact absurd gone alive
  | rotated alive => exact absurd gone alive
  | resealed => rfl
  | reaped => rfl
  | wiped => rfl

theorem bounded_answer (bounded : s.Bounded) (clk : Time) (request : Request) :
    (s.answer clk request).1.Bounded := by
  cases request with
  | write op =>
    by_cases reaps : op = .reapExpired
    · subst reaps
      obtain ⟨mid, advances, prunes⟩ := reapExpired_prunes s clk
      change (s.reapExpired clk).1.Bounded
      rw [prunes]
      exact fun c member => advances.bounded bounded c (List.mem_of_mem_filter member)
    · exact (perform_advances s reaps).bounded bounded
  | replaceSealed r =>
    simp only [answer, replaceSealed]
    split
    · exact bounded
    split
    · exact bounded
    split
    · exact bounded
    · exact bounded

theorem Inv.answer (inv : s.Inv) (clk : Time) (request : Request) : (s.answer clk request).1.Inv := by
  have changes := answer_changes s clk request
  refine ⟨fun t => (changes.edit t).sound changes.seq (inv.sound t), fun t dead => ?_, bounded_answer inv.feed clk request⟩
  rcases changes.died t dead with old | empty
  · have edit := changes.edit t
    rw [inv.dead t old] at edit
    exact Edit.dead edit old
  · exact empty

theorem Inv.run (run : Run Step s calls u) (inv : s.Inv) : u.Inv := by
  refine run.invariant Inv (fun {s call t} inv step => ?_) inv
  obtain rfl : t = (s.answer call.1 call.2).1 := step
  exact inv.answer _ _

theorem dead_run (run : Run Step s calls u) (dead : s.isTombstoned t = true) : u.isTombstoned t = true := by
  refine run.invariant (fun u => u.isTombstoned t = true) (fun {s call u} dead step => ?_) dead
  obtain rfl : u = (s.answer call.1 call.2).1 := step
  exact (answer_changes s call.1 call.2).dead t dead

def Retired (s : Store) (t : TenantID) (n : Nat) (retiredAt : Option Time) (notAfter : Time) : Prop :=
  n ≤ s.seq ∧ ∀ r ∈ s.rowsOf t, r.seq = n → r.key.retiredAt = retiredAt ∧ r.key.notAfter = notAfter

theorem Retired.answer {n : Nat} {retiredAt : Option Time} {notAfter : Time} (inv : s.Inv)
    (isRetired : retiredAt.isSome) (retired : s.Retired t n retiredAt notAfter) (clk : Time) (request : Request) :
    (s.answer clk request).1.Retired t n retiredAt notAfter := by
  have changes := answer_changes s clk request
  refine ⟨retired.1.trans changes.seq, fun r' member same => ?_⟩
  rcases (changes.edit t).origin (inv.sound t) member with new | ⟨r, held, seq, kept⟩
  · have issued := retired.1
    omega
  · obtain ⟨ends, last⟩ := retired.2 r held (seq.symm.trans same)
    obtain ⟨ends', last'⟩ := kept (by rw [ends]; exact isRetired)
    exact ⟨ends'.trans ends, last'.trans last⟩

theorem Retired.run {n : Nat} {retiredAt : Option Time} {notAfter : Time}
    (run : Run Step s calls u) (inv : s.Inv) (isRetired : retiredAt.isSome)
    (retired : s.Retired t n retiredAt notAfter) : u.Retired t n retiredAt notAfter := by
  have both : u.Inv ∧ u.Retired t n retiredAt notAfter := by
    refine run.invariant (fun u => u.Inv ∧ u.Retired t n retiredAt notAfter) (fun {s call u} kept step => ?_)
      ⟨inv, retired⟩
    obtain rfl : u = (s.answer call.1 call.2).1 := step
    exact ⟨kept.1.answer _ _, kept.2.answer kept.1 isRetired _ _⟩
  exact both.2

theorem find_of_mem (inv : s.Inv) {r : Row} (member : r ∈ s.rowsOf t) : s.find t r.key.keyID = some r := by
  cases found : s.find t r.key.keyID with
  | none => exact absurd rfl (find_eq_none.mp found r member)
  | some other =>
    have held : other ∈ s.rowsOf t := List.mem_of_find?_eq_some found
    have same : other.key.keyID = r.key.keyID := by simpa using List.find?_some found
    rw [List.inj_on_of_nodup_map (inv.sound t).ids held member same]

theorem Rotates.signer {r : Rotation} {next : Key} {prev : Row} (rotates : s.Rotates clk r next prev) :
    (s.rotated clk r next prev).signer next.tenant clk.truncate = some ⟨next, s.seq + 1⟩ := by
  have becomes := rotates.becomes
  simp only [becomesSigner, Bool.and_eq_true, Bool.not_eq_true', List.any_eq_false, bne_iff_ne, ne_eq, beq_iff_eq,
    not_and] at becomes
  obtain ⟨active, outranked⟩ := becomes
  have trans (a b c : Row) := outranks_trans a.key b.key c.key
  have irrefl (a : Row) := outranks_irrefl a.key
  rw [signer_eq, rowsOf_rotated, if_pos rfl]
  refine best_eq_some_of trans irrefl (by simp) active fun a member activeA other => ?_
  rcases List.mem_append.mp member with old | new
  · obtain ⟨row, held, rfl⟩ := mem_reviseAt.mp old
    by_cases same : row.seq = prev.seq
    · -- The previous signer is retired.
      simp [if_pos same, retire, Key.isActive] at activeA
    · rw [if_neg same] at activeA ⊢
      exact outranks_of_not_gt (Ne.symm (rotates.adds.fresh row held)) (outranked row held ⟨same, activeA⟩)
  · exact absurd (List.mem_singleton.mp new) other

theorem verifies_retire (prev : Row) (retiredAt overlapUntil x : Time) :
    (retire prev retiredAt overlapUntil).key.verifies x = true ↔
      (prev.key.notAfter = 0 ∨ x < prev.key.notAfter) ∧ x < overlapUntil.truncate ∧
        (retire prev retiredAt overlapUntil).key.notAfter ≠ 0 := by
  have ends (k : Key) (retired : k.retiredAt.isSome) : k.verifies x = true ↔ x < k.notAfter ∧ k.notAfter ≠ 0 := by
    by_cases never : k.notAfter = 0
    · simp [Key.verifies, retired, never]
    · simp [Key.verifies, Key.isExpired, never]
  rw [ends _ rfl]
  simp only [retire]
  split
  next capped =>
    refine ⟨fun early => ⟨?_, early⟩, fun early => early.2⟩
    rcases capped with never | later
    · exact .inl never
    · exact .inr (early.1.trans later)
  next own =>
    obtain ⟨finite, earlier⟩ := not_or.mp own
    simp only [finite, false_or, ne_eq, not_false_eq_true, and_true]
    exact ⟨fun early => ⟨early, lt_of_lt_of_le early (not_lt.mp earlier)⟩, fun early => early.1⟩

end Store
end Egauth.Keys
