import Egauth.Ceremony.Index
import Egauth.Revert.Footprint

/-! The numbered marks of one label.

A label has a few keys under one scope, no more than the scope may hold, so
that writing one of its marks evicts none of the others. What a call leaves of
the marks follows from what it does to the rows of the ceremony store.
-/

set_option autoImplicit false

namespace Egauth.Revert
open Egauth.Core Identity Service Prog

theorem Slot.byte_injective {n : Nat} (few : n ≤ 5) : Function.Injective (Slot.byte (n := n)) := by
  intro i j same
  have small (i : Slot n) : i.val < UInt8.size := i.isLt.trans_le (few.trans (by decide))
  have bytes := congrArg UInt8.toNat (List.cons.inj same).1
  rw [UInt8.toNat_ofNat_of_lt' (small i), UInt8.toNat_ofNat_of_lt' (small j)] at bytes
  exact Fin.ext bytes

structure Family (n : Nat) where
  tenant : TenantID
  scope : Ceremony.Digest
  key : Slot n → Ceremony.Digest
  distinct : Function.Injective key
  sized : ∀ i, (key i).length = 32
  few : n ≤ 5

namespace Family
variable {n : Nat} (f : Family n)

def keyAt (i : Slot n) : Ceremony.Key := ⟨f.tenant, .securityRevert, f.key i⟩

theorem keyAt_injective : Function.Injective f.keyAt := fun _ _ same => f.distinct (congrArg Ceremony.Key.handle same)

def rowAt (w : World) (i : Slot n) : Option Ceremony.Row := (w.ceremonies.rows.lookup (f.keyAt i)).map Ceremony.Entry.row

/-- The scope holds the marks and nothing else. -/
structure Sound (w : World) : Prop where
  indexed : w.ceremonies.Indexed
  own : ∀ i e, w.ceremonies.rows.lookup (f.keyAt i) = some e → e.row.scopeHash = f.scope
  inside : ∀ k e, w.ceremonies.rows.lookup k = some e → k.bucket = ⟨f.tenant, .securityRevert⟩ →
    e.row.scopeHash = f.scope → ∃ i, k = f.keyAt i

variable {f} {o : Turn} {w w' : World}

/-- A put within the scope evicts nothing: there are not enough rows. -/
theorem not_capped (sound : f.Sound w) {rec : Ceremony.Record} {i : Slot n} (key : rec.row.key = f.keyAt i)
    (scope : rec.row.scopeHash = f.scope) {clk : Time} {k : Ceremony.Key} {e : Ceremony.Entry}
    (capped : w.ceremonies.Capped clk rec k e) : False := by
  obtain ⟨stored, bucket, other, eligible, ahead, count, once, each⟩ := capped
  rw [key] at other each bucket
  have kind : rec.row.kind = .securityRevert := congrArg Ceremony.Key.kind key
  -- The evicted row, the new one and those ahead of the evicted one are six marks.
  have listed : (k :: f.keyAt i :: ahead.map Sigma.fst) ⊆ (List.finRange n).map f.keyAt := by
    have member {k : Ceremony.Key} {e : Ceremony.Entry} (stored : w.ceremonies.rows.lookup k = some e)
        (bucket : k.bucket = (f.keyAt i).bucket) (same : e.row.scopeHash = f.scope) :
        k ∈ (List.finRange n).map f.keyAt := by
      obtain ⟨j, rfl⟩ := sound.inside k e stored bucket same
      exact List.mem_map_of_mem (List.mem_finRange j)
    intro k' mem
    rcases List.mem_cons.mp mem with rfl | mem
    · exact member stored bucket ((of_decide_eq_true eligible).trans scope)
    rcases List.mem_cons.mp mem with rfl | mem
    · exact List.mem_map_of_mem (List.mem_finRange i)
    obtain ⟨c, ahead, rfl⟩ := List.mem_map.mp mem
    obtain ⟨-, -, found, here, same, -⟩ := each c ahead
    exact member found here ((of_decide_eq_true same).trans scope)
  have nodup : (k :: f.keyAt i :: ahead.map Sigma.fst).Nodup := by
    refine List.nodup_cons.mpr ⟨?_, List.nodup_cons.mpr ⟨?_, once⟩⟩
    · intro mem
      rcases List.mem_cons.mp mem with same | mem
      · exact other same
      · obtain ⟨c, ahead, same⟩ := List.mem_map.mp mem
        exact (each c ahead).1 same
    · intro mem
      obtain ⟨c, ahead, same⟩ := List.mem_map.mp mem
      exact (each c ahead).2.1 same
  have enough := (nodup.subperm listed).length_le
  have small := f.few
  rw [kind] at count
  simp only [List.length_cons, List.length_map, List.length_finRange, count, Ceremony.Kind.maxLivePerScope] at enough
  omega

/-- Rows that stay under their keys keep the scope as it is. -/
theorem Sound.of_rows (sound : f.Sound w) (indexed : w'.ceremonies.Indexed)
    (rows : ∀ k e, w'.ceremonies.rows.lookup k = some e → k.bucket = ⟨f.tenant, .securityRevert⟩ →
      (e.row.scopeHash = f.scope ∨ ∃ i, k = f.keyAt i) → w.ceremonies.rows.lookup k = some e) : f.Sound w' where
  indexed := indexed
  own i e found := sound.own i e (rows _ e found rfl (.inr ⟨i, rfl⟩))
  inside k e found bucket scope := sound.inside k e (rows k e found bucket (.inl scope)) bucket scope

theorem Sound.unchanged (sound : f.Sound w) (still : w'.ceremonies = w.ceremonies) :
    f.Sound w' ∧ f.rowAt w' = f.rowAt w := by
  refine ⟨sound.of_rows (still ▸ sound.indexed) fun k e found _ _ => still ▸ found, ?_⟩
  unfold rowAt
  rw [still]

def liveAt (f : Family n) (w : World) (clk : Time) (i : Slot n) : Option Ceremony.Row :=
  (f.rowAt w i).filter fun row => row.expiresAt > clk

theorem live_eq (f : Family n) (w : World) (clk : Time) (i : Slot n) :
    (w.ceremonies.live (f.keyAt i) clk).map Ceremony.Entry.row = f.liveAt w clk i := by
  unfold Ceremony.Store.live liveAt rowAt
  cases found : w.ceremonies.rows.lookup (f.keyAt i) with
  | none => rfl
  | some e => by_cases alive : e.row.expiresAt > clk <;> simp [alive, Option.filter]

theorem lookupKey_eq (f : Family n) (i : Slot n) :
    Ceremony.Store.lookupKey f.tenant .securityRevert (f.key i) = .ok (f.keyAt i) := by
  simp [Ceremony.Store.lookupKey, f.sized i, Ceremony.handleHashLen, keyAt]

variable {r : Except Ceremony.Err Ceremony.Record}

theorem peek_mark {i : Slot n} (replied : exec o w (.peek f.tenant .securityRevert (f.key i)) = (r, w')) :
    o.fault = true ∧ r = .error .context ∨ f.liveAt w w'.clock i = none ∧ r = .error .notFound ∨
      ∃ row, f.liveAt w w'.clock i = some row ∧ r = Ceremony.restore row := by
  rcases peek_exec replied with failed | done
  · exact .inl failed
  refine .inr ?_
  rw [Ceremony.Store.peek_live (lookupKey_eq f i)] at done
  rw [← live_eq]
  cases alive : w.ceremonies.live (f.keyAt i) w'.clock with
  | none =>
    rw [alive] at done
    exact .inl ⟨rfl, done.symm⟩
  | some e =>
    rw [alive] at done
    exact .inr ⟨e.row, rfl, done.symm⟩

theorem consume_mark (sound : f.Sound w) {i : Slot n}
    (replied : exec o w (.consume f.tenant .securityRevert (f.key i)) = (r, w')) :
    f.Sound w' ∧ (r = .error .context ∧ f.rowAt w' = f.rowAt w ∨
      f.liveAt w w'.clock i = none ∧ r = .error .notFound ∧ f.rowAt w' = f.rowAt w ∨
      ∃ row, f.liveAt w w'.clock i = some row ∧ r = Ceremony.restore row ∧
        f.rowAt w' = Function.update (f.rowAt w) i none) := by
  rcases consume_exec replied with ⟨failed, still⟩ | done
  · exact ⟨(sound.unchanged still).1, .inl ⟨failed, (sound.unchanged still).2⟩⟩
  have rows := w.ceremonies.rows_consume w'.clock f.tenant .securityRevert (f.key i)
  have indexed := sound.indexed.consume w'.clock f.tenant .securityRevert (f.key i)
  rw [done] at rows indexed
  refine ⟨sound.of_rows indexed ?_, .inr ?_⟩
  · intro k e found _ _
    rcases rows k with old | ⟨-, gone⟩
    · exact old ▸ found
    · exact absurd (gone.symm.trans found) nofun
  rw [Ceremony.Store.consume, lookupKey_eq] at done
  dsimp only at done
  rw [← live_eq]
  split at done
  next absent =>
    obtain ⟨still, rfl⟩ := Prod.mk.inj done
    refine .inl ⟨by rw [absent]; rfl, rfl, ?_⟩
    unfold rowAt
    rw [still]
  next e alive =>
    obtain ⟨removed, rfl⟩ := Prod.mk.inj done
    refine .inr ⟨e.row, by rw [alive]; rfl, rfl, funext fun j => ?_⟩
    unfold rowAt
    rw [← removed, Ceremony.Store.rows_remove]
    by_cases own : j = i
    · subst own
      simp
    · rw [if_neg (fun same => own (f.keyAt_injective same)), Function.update_of_ne own]

theorem put_mark (sound : f.Sound w) {rec : Ceremony.Record} {i : Slot n} (key : rec.row.key = f.keyAt i)
    (scope : rec.row.scopeHash = f.scope) {r : Except Ceremony.Err Nat} (replied : exec o w (.put rec) = (r, w')) :
    f.Sound w' ∧ (r = .error .context ∧ f.rowAt w' = f.rowAt w ∨
      (∃ row, f.liveAt w w'.clock i = some row) ∧ r = .error .conflict ∧ f.rowAt w' = f.rowAt w ∨
      f.liveAt w w'.clock i = none ∧ (∃ evicted, r = .ok evicted) ∧
        f.rowAt w' = Function.update (f.rowAt w) i (some rec.row.stored)) := by
  rcases put_exec replied with ⟨failed, still⟩ | done
  · exact ⟨(sound.unchanged still).1, .inl ⟨failed, (sound.unchanged still).2⟩⟩
  have kind : rec.row.kind = .securityRevert := congrArg Ceremony.Key.kind key
  have live := f.live_eq w w'.clock i
  rcases Ceremony.Store.put_cases sound.indexed (by rw [kind]; rfl) done with ⟨failed, still, e, alive⟩ |
    ⟨done, free, indexed, ⟨seq, new⟩, others⟩
  · rw [key] at alive
    rw [alive] at live
    exact ⟨(sound.unchanged still).1, .inr (.inl ⟨⟨e.row, live.symm⟩, failed, (sound.unchanged still).2⟩)⟩
  rw [key] at free new others
  have old : ∀ k, k ≠ f.keyAt i → w'.ceremonies.rows.lookup k = w.ceremonies.rows.lookup k := by
    intro k other
    rcases others k other with old | ⟨-, e, capped⟩
    · exact old
    · exact (not_capped sound key scope capped).elim
  refine ⟨⟨indexed, ?_, ?_⟩, .inr (.inr ⟨?_, done, funext fun j => ?_⟩)⟩
  · intro j e found
    by_cases own : j = i
    · subst own
      rw [new] at found
      cases found
      exact scope
    · rw [old _ fun same => own (f.keyAt_injective same)] at found
      exact sound.own j e found
  · intro k e found bucket inside
    by_cases own : k = f.keyAt i
    · exact ⟨i, own⟩
    · rw [old k own] at found
      exact sound.inside k e found bucket inside
  · rw [free] at live
    exact live.symm
  · unfold rowAt
    by_cases own : j = i
    · subst own
      simp [new]
    · rw [old _ (fun same => own (f.keyAt_injective same)), Function.update_of_ne own]

end Family

structure Armed (row : Ceremony.Row) (note : Bytes) (t : Time) : Prop where
  valid : Ceremony.checkRow row = none
  payload : row.payload = ⟨.securityRevert, markBody note⟩
  readable : (markBody note).valid = true
  createdAt : row.createdAt = t
  expiresAt : row.expiresAt = t + Ceremony.Kind.ttl .securityRevert

section
variable {u : User} {scope hash : Ceremony.Digest} {body : Ceremony.Body} {note : Bytes} {t : Time}
  {rec : Ceremony.Record} {row : Ceremony.Row}

theorem Arms.stored (arms : Arms u scope hash body t rec) (whole : Duration.microsecond ∣ t) :
    rec.row.stored = rec.row := by
  have created : rec.row.createdAt.truncate = rec.row.createdAt := by
    rw [arms.createdAt, Time.truncate_of_dvd whole]
  have expires : rec.row.expiresAt.truncate = rec.row.expiresAt := by
    rw [arms.expiresAt, Time.truncate_add whole]
    rfl
  unfold Ceremony.Row.stored
  rw [created, expires]

theorem Arms.armed (arms : Arms u scope hash (markBody note) t rec) (whole : Duration.microsecond ∣ t) :
    Armed rec.row.stored note t := by
  rw [arms.stored whole]
  exact ⟨rec.valid, arms.payload, arms.readable, arms.createdAt, arms.expiresAt⟩

theorem Arms.key (arms : Arms u scope hash body t rec) :
    rec.row.key = ⟨u.subject.tenant, .securityRevert, hash⟩ := by
  unfold Ceremony.Row.key
  rw [arms.tenant, arms.kind, arms.handle]

theorem restore_eq (valid : Ceremony.checkRow row = none) : Ceremony.restore row = .ok ⟨row, valid⟩ := by
  unfold Ceremony.restore
  split
  · rfl
  next err failed =>
    rw [valid] at failed
    cases failed

theorem Armed.noteOf (armed : Armed row note t) : noteOf ⟨row, armed.valid⟩ = some note := by
  have decoded : Ceremony.decode .securityRevert row.payload = some (markBody note) := by
    rw [armed.payload, Ceremony.decode, if_pos ⟨rfl, armed.readable⟩]
  unfold Revert.noteOf
  rw [decoded]
  rfl

theorem ofUnixMicro_unixMicro (whole : Duration.microsecond ∣ t) : ofUnixMicro (unixMicro t) = t := by
  have fromEpoch : Duration.microsecond ∣ t - unixEpoch := Int.dvd_sub whole (by decide)
  unfold ofUnixMicro unixMicro
  rw [Int.ediv_mul_cancel fromEpoch]
  lia

theorem parse_noteFrom (whole : Duration.microsecond ∣ t) : (Decimal.parse (noteFrom t)).map ofUnixMicro = some t := by
  rw [noteFrom, Decimal.parse_format, Option.map_some, ofUnixMicro_unixMicro whole]

theorem Armed.markedFrom {start : Time} (armed : Armed row (noteFrom start) t)
    (whole : Duration.microsecond ∣ start) : markedFrom ⟨row, armed.valid⟩ = some start := by
  rw [Revert.markedFrom, armed.noteOf, Option.bind_some, parse_noteFrom whole]

end

end Egauth.Revert
