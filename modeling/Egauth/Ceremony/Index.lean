import Egauth.Ceremony.Memory

/-! What each call of the ceremony store leaves in its rows.

The buckets index the rows; `Put` evicts among the live rows of a bucket, and
only behind as many newer rows of the same scope as the cap leaves room for.
-/

set_option autoImplicit false

namespace Egauth.Ceremony
open Egauth.Core

/-- Rows are stored under their own keys, and a bucket holds the rows of its tenant and kind. -/
structure Store.Indexed (s : Store) : Prop where
  keyed : ∀ k e, s.rows.lookup k = some e → e.row.key = k
  bucket : ∀ bk k, (s.bucketOf bk).lookup k = if k.bucket = bk then s.rows.lookup k else none

theorem newer_trans {a b c : Entry} (first : newer a b) (second : newer b c) : newer a c := by
  unfold newer at *
  lia

theorem newer_total (a b : Entry) : newer a b ∨ newer b a := by
  unfold newer
  lia

instance : Std.Total fun a b : (_ : Key) × Entry => newer a.2 b.2 := ⟨fun a b => newer_total a.2 b.2⟩

instance : IsTrans ((_ : Key) × Entry) fun a b => newer a.2 b.2 := ⟨fun _ _ _ => newer_trans⟩

namespace Store
variable {s : Store} {same : Entry → Bool} {e : Entry} {k : Key} {now : Time}

theorem Indexed.new : Indexed .new where
  keyed := by simp [Store.new]
  bucket bk k := by simp [bucketOf, Store.new]

theorem bucketOf_insert (s : Store) (k : Key) (e : Entry) (bk : BucketKey) :
    (s.insert k e).bucketOf bk = if bk = k.bucket then (s.bucketOf k.bucket).insert k e else s.bucketOf bk := by
  simp only [insert, bucketOf]
  rw [Map.lookup_insert_eq]
  split <;> rfl

theorem rows_insert (s : Store) (k : Key) (e : Entry) (k' : Key) :
    (s.insert k e).rows.lookup k' = if k' = k then some e else s.rows.lookup k' := Map.lookup_insert_eq _ _ _ _

theorem Indexed.insert (indexed : s.Indexed) (own : e.row.key = k) : (s.insert k e).Indexed where
  keyed k' e' found := by
    rw [rows_insert] at found
    split at found
    next same =>
      cases found
      rw [own, same]
    next => exact indexed.keyed k' e' found
  bucket bk k' := by
    rw [bucketOf_insert, rows_insert]
    by_cases here : bk = k.bucket
    · rw [if_pos here, Map.lookup_insert_eq, indexed.bucket]
      by_cases same : k' = k
      · simp [same, here]
      · simp [same, here]
    · rw [if_neg here, indexed.bucket]
      by_cases same : k' = k
      · simp [same, Ne.symm here]
      · simp [same]

theorem rows_remove (s : Store) (k k' : Key) :
    (s.remove k).rows.lookup k' = if k' = k then none else s.rows.lookup k' := by
  unfold remove
  split
  next absent =>
    split
    next same => rw [same, absent]
    next => rfl
  next e found => exact Map.lookup_erase_eq _ _ _

theorem bucketOf_remove_found (found : s.rows.lookup k = some e) (bk : BucketKey) :
    (s.remove k).bucketOf bk = if bk = k.bucket then (s.bucketOf k.bucket).erase k else s.bucketOf bk := by
  simp only [remove, found]
  by_cases empty : ((s.bucketOf k.bucket).erase k).entries.length = 0
  · have none : (s.bucketOf k.bucket).erase k = ∅ := AList.ext (List.length_eq_zero_iff.mp empty)
    rw [if_pos empty, none]
    change ((s.buckets.erase k.bucket).lookup bk).getD ∅ = _
    rw [Map.lookup_erase_eq]
    split <;> rfl
  · rw [if_neg empty]
    change ((s.buckets.insert k.bucket _).lookup bk).getD ∅ = _
    rw [Map.lookup_insert_eq]
    split <;> rfl

theorem Indexed.remove (indexed : s.Indexed) (k : Key) : (s.remove k).Indexed where
  keyed k' e' found := by
    rw [rows_remove] at found
    split at found
    · cases found
    · exact indexed.keyed k' e' found
  bucket bk k' := by
    rw [rows_remove]
    cases found : s.rows.lookup k with
    | none =>
      have same : s.remove k = s := by simp [Store.remove, found]
      rw [same, indexed.bucket]
      by_cases own : k' = k
      · subst own
        simp [found]
      · simp [own]
    | some e =>
      rw [bucketOf_remove_found found]
      by_cases here : bk = k.bucket
      · rw [if_pos here, Map.lookup_erase_eq, indexed.bucket]
        by_cases own : k' = k
        · simp [own]
        · simp [own, here]
      · rw [if_neg here, indexed.bucket]
        by_cases own : k' = k
        · simp [own, Ne.symm here]
        · simp [own]

theorem rows_foldl_remove (keys : List ((_ : Key) × Entry)) (s : Store) (k : Key) :
    (keys.foldl (fun s c => s.remove c.1) s).rows.lookup k =
      if k ∈ keys.map Sigma.fst then none else s.rows.lookup k := by
  induction keys generalizing s with
  | nil => simp
  | cons first keys ih =>
    rw [List.foldl_cons, ih, rows_remove, List.map_cons]
    by_cases same : k = first.1
    · rw [if_pos same, if_pos (List.mem_cons.mpr (.inl same)), ite_self]
    · simp only [List.mem_cons, same, false_or, if_false]

theorem Indexed.foldl_remove (indexed : s.Indexed) (keys : List ((_ : Key) × Entry)) :
    (keys.foldl (fun s c => s.remove c.1) s).Indexed := by
  induction keys generalizing s with
  | nil => exact indexed
  | cons first keys ih => exact ih (indexed.remove first.1)

theorem mem_others (indexed : s.Indexed) {keep : Key} :
    ⟨k, e⟩ ∈ s.others keep now same ↔ s.rows.lookup k = some e ∧ k.bucket = keep.bucket ∧ k ≠ keep ∧
      e.row.expiresAt > now ∧ same e = true := by
  unfold others
  rw [List.mem_filter, Map.mem_entries, indexed.bucket]
  by_cases here : k.bucket = keep.bucket
  · simp [here]
  · simp [here]

/-- What `evict` takes: a live row behind a full set of newer ones. -/
structure Superseded (s : Store) (keep : Key) (now : Time) (same : Entry → Bool) (limit : Nat) (k : Key) (e : Entry) :
    Prop where
  stored : s.rows.lookup k = some e
  bucket : k.bucket = keep.bucket
  other : k ≠ keep
  eligible : same e = true
  newest : ∃ ahead : List ((_ : Key) × Entry), ahead.length = limit - 1 ∧ (ahead.map Sigma.fst).Nodup ∧
    ∀ c ∈ ahead, c.1 ≠ k ∧ c.1 ≠ keep ∧ s.rows.lookup c.1 = some c.2 ∧ c.1.bucket = keep.bucket ∧ same c.2 = true ∧
      newer c.2 e

theorem nodup_others (s : Store) (keep : Key) (now : Time) (same : Entry → Bool) :
    ((s.others keep now same).map Sigma.fst).Nodup := by
  exact List.Nodup.sublist (List.filter_sublist.map Sigma.fst) (s.bucketOf keep.bucket).nodupKeys

theorem mem_ranked (indexed : s.Indexed) {keep : Key} :
    ⟨k, e⟩ ∈ s.ranked keep now same ↔ s.rows.lookup k = some e ∧ k.bucket = keep.bucket ∧ k ≠ keep ∧
      e.row.expiresAt > now ∧ same e = true := by
  rw [ranked, List.mem_insertionSort, mem_others indexed]

theorem nodup_ranked (s : Store) (keep : Key) (now : Time) (same : Entry → Bool) :
    ((s.ranked keep now same).map Sigma.fst).Nodup :=
  ((List.perm_insertionSort _ _).map Sigma.fst).nodup_iff.mpr (s.nodup_others keep now same)

theorem superseded_of_dropped (indexed : s.Indexed) {keep : Key} {limit : Nat}
    (full : limit ≤ (s.others keep now same).length)
    (dropped : ⟨k, e⟩ ∈ (s.ranked keep now same).drop (limit - 1)) : s.Superseded keep now same limit k e := by
  obtain ⟨stored, bucket, other, -, eligible⟩ := (mem_ranked indexed).mp (List.mem_of_mem_drop dropped)
  -- What comes before the victim in the order is kept, and newer.
  have sorted : ((s.ranked keep now same).take (limit - 1) ++ (s.ranked keep now same).drop (limit - 1)).Pairwise
      fun a b => newer a.2 b.2 := by
    rw [List.take_append_drop]
    exact List.pairwise_insertionSort _ _
  have keys := s.nodup_ranked keep now same
  rw [← List.take_append_drop (limit - 1) (s.ranked keep now same), List.map_append, List.nodup_append] at keys
  refine ⟨stored, bucket, other, eligible, (s.ranked keep now same).take (limit - 1), ?_, keys.1, ?_⟩
  · rw [List.length_take, ranked, List.length_insertionSort]
    omega
  · rintro ⟨k', e'⟩ kept
    obtain ⟨found, here, apart, -, also⟩ := (mem_ranked indexed).mp (List.mem_of_mem_take kept)
    refine ⟨?_, apart, found, here, also, (List.pairwise_append.mp sorted).2.2 _ kept _ dropped⟩
    rintro rfl
    exact keys.2.2 _ (List.mem_map_of_mem kept) _ (List.mem_map_of_mem dropped) rfl

/-- What an eviction leaves: each row stays, or was behind a full set of newer ones. -/
theorem rows_evict (indexed : s.Indexed) (keep : Key) (now : Time) (same : Entry → Bool) (limit : Nat) (k : Key) :
    (s.evict keep now same limit).1.rows.lookup k = s.rows.lookup k ∨
      (s.evict keep now same limit).1.rows.lookup k = none ∧ ∃ e, s.Superseded keep now same limit k e := by
  unfold evict
  split
  · exact .inl rfl
  split
  · exact .inl rfl
  next full =>
    dsimp only
    rw [rows_foldl_remove]
    split
    next chosen =>
      obtain ⟨⟨k, e⟩, dropped, rfl⟩ := List.mem_map.mp chosen
      exact .inr ⟨rfl, e, superseded_of_dropped indexed (not_lt.mp full) dropped⟩
    next => exact .inl rfl

theorem Indexed.evict (indexed : s.Indexed) (keep : Key) (now : Time) (same : Entry → Bool) (limit : Nat) :
    (s.evict keep now same limit).1.Indexed := by
  unfold Store.evict
  split
  · exact indexed
  split
  · exact indexed
  · exact indexed.foldl_remove _

def added (s : Store) (r : Record) : Store :=
  { s.remove r.row.key with seq := (s.remove r.row.key).seq + 1 }.insert r.row.key
    ⟨r.row.stored, (s.remove r.row.key).seq + 1⟩

theorem rows_added (s : Store) (r : Record) (k : Key) : (s.added r).rows.lookup k =
    if k = r.row.key then some ⟨r.row.stored, (s.remove r.row.key).seq + 1⟩ else s.rows.lookup k := by
  unfold added
  rw [rows_insert]
  split
  · rfl
  next other =>
    change (s.remove r.row.key).rows.lookup k = _
    rw [rows_remove, if_neg other]

theorem Indexed.added (indexed : s.Indexed) (r : Record) : (s.added r).Indexed := by
  have removed := indexed.remove r.row.key
  have numbered : Indexed { s.remove r.row.key with seq := (s.remove r.row.key).seq + 1 } :=
    ⟨removed.keyed, removed.bucket⟩
  exact numbered.insert rfl

/-- The new row is none of those an eviction compares, so it was there to compare before. -/
theorem Superseded.of_added {r : Record} {limit : Nat}
    (behind : (s.added r).Superseded r.row.key now same limit k e) :
    s.Superseded r.row.key now same limit k e := by
  obtain ⟨stored, bucket, other, eligible, ahead, count, once, each⟩ := behind
  have before (k : Key) (apart : k ≠ r.row.key) : (s.added r).rows.lookup k = s.rows.lookup k := by
    rw [rows_added, if_neg apart]
  refine ⟨(before k other) ▸ stored, bucket, other, eligible, ahead, count, once, ?_⟩
  intro c member
  obtain ⟨distinct, apart, found, rest⟩ := each c member
  exact ⟨distinct, apart, (before c.1 apart) ▸ found, rest⟩

/-- The cap that `Put` applies to the scope of a record. -/
def Capped (s : Store) (now : Time) (r : Record) (k : Key) (e : Entry) : Prop :=
  s.Superseded r.row.key now (fun e => e.row.scopeHash = r.row.scopeHash) r.row.kind.maxLivePerScope k e

theorem write_eq {r : Record} (unlimited : r.row.kind.maxLivePerTenant = 0) (clk : Time) :
    (s.write clk r).1 = ((s.added r).capScope r.row.key clk r.row.scopeHash).1 := by
  have none (t : Store) : t.capTenant r.row.key clk = (t, 0) := by
    unfold capTenant
    rw [if_neg]
    simp [Row.key, unlimited]
  unfold write
  dsimp only
  rw [none]
  rfl

theorem Indexed.capScope (indexed : s.Indexed) (k : Key) (now : Time) (scope : Digest) :
    (s.capScope k now scope).1.Indexed := by
  unfold Store.capScope
  split
  · exact indexed.evict _ _ _ _
  · exact indexed

theorem rows_capScope (indexed : s.Indexed) (keep : Key) (now : Time) (scope : Digest) (k : Key) :
    (s.capScope keep now scope).1.rows.lookup k = s.rows.lookup k ∨
      (s.capScope keep now scope).1.rows.lookup k = none ∧
        ∃ e, s.Superseded keep now (fun e => e.row.scopeHash = scope) keep.kind.maxLivePerScope k e := by
  unfold capScope
  split
  · exact rows_evict indexed keep now _ _ k
  · exact .inl rfl

/-- A row that `Put` wrote, for a kind without a ceiling for the tenant. -/
theorem put_cases (indexed : s.Indexed) {r : Record} (unlimited : r.row.kind.maxLivePerTenant = 0) {clk : Time}
    {s' : Store} {answer : Except Err Nat} (done : s.put clk r = (s', answer)) :
    (answer = .error .conflict ∧ s' = s ∧ ∃ e, s.live r.row.key clk = some e) ∨
      (∃ n, answer = .ok n) ∧ s.live r.row.key clk = none ∧ s'.Indexed ∧
        (∃ seq, s'.rows.lookup r.row.key = some ⟨r.row.stored, seq⟩) ∧
        ∀ k, k ≠ r.row.key → s'.rows.lookup k = s.rows.lookup k ∨
          s'.rows.lookup k = none ∧ ∃ e, s.Capped clk r k e := by
  unfold put at done
  split at done
  next e found =>
    cases done
    exact .inl ⟨rfl, rfl, e, found⟩
  next free =>
    cases done
    rw [write_eq unlimited]
    refine .inr ⟨⟨_, rfl⟩, free, (indexed.added r).capScope _ _ _, ?_, ?_⟩
    · rcases rows_capScope (indexed.added r) r.row.key clk r.row.scopeHash r.row.key with kept | ⟨-, e, behind⟩
      · rw [kept, rows_added, if_pos rfl]
        exact ⟨_, rfl⟩
      · exact absurd rfl behind.other
    · intro k other
      rcases rows_capScope (indexed.added r) r.row.key clk r.row.scopeHash k with kept | ⟨gone, e, behind⟩
      · rw [kept, rows_added, if_neg other]
        exact .inl rfl
      · exact .inr ⟨gone, e, behind.of_added⟩

theorem live_eq_some : s.live k now = some e ↔ s.rows.lookup k = some e ∧ e.row.expiresAt > now := by
  unfold live
  split
  next absent => simp [absent]
  next e' found =>
    rw [found]
    split
    next alive =>
      refine ⟨fun same => ?_, fun ⟨same, _⟩ => same⟩
      cases same
      exact ⟨rfl, alive⟩
    next dead =>
      refine ⟨nofun, fun ⟨same, alive⟩ => ?_⟩
      cases same
      exact absurd alive dead

theorem peek_ok {clk : Time} {t : TenantID} {k : Kind} {h : Digest} {rec : Record}
    (found : s.peek clk t k h = .ok rec) : ∃ seq, s.live ⟨t, k, h⟩ clk = some ⟨rec.row, seq⟩ := by
  obtain ⟨kk, looked, found⟩ := bind_eq_ok.mp found
  unfold lookupKey at looked
  rw [ite_error_eq_ok] at looked
  cases looked.2
  split at found
  · cases found
  next e alive => exact ⟨e.seq, by rw [alive, restore_ok found]⟩

theorem Indexed.consume (indexed : s.Indexed) (clk : Time) (t : TenantID) (k : Kind) (h : Digest) :
    (s.consume clk t k h).1.Indexed := by
  unfold Store.consume
  split
  · exact indexed
  · split
    · exact indexed
    · exact indexed.remove _

theorem rows_consume (s : Store) (clk : Time) (t : TenantID) (k : Kind) (h : Digest) (k' : Key) :
    (s.consume clk t k h).1.rows.lookup k' = s.rows.lookup k' ∨
      k' = ⟨t, k, h⟩ ∧ (s.consume clk t k h).1.rows.lookup k' = none := by
  unfold consume
  split
  · exact .inl rfl
  next kk looked =>
    unfold lookupKey at looked
    rw [ite_error_eq_ok] at looked
    cases looked.2
    split
    · exact .inl rfl
    · dsimp only
      rw [rows_remove]
      split
      next own => exact .inr ⟨own, rfl⟩
      next => exact .inl rfl

theorem consume_row {s s' : Store} {clk : Time} {t : TenantID} {k : Kind} {h : Digest} {rec : Record}
    (done : s.consume clk t k h = (s', .ok rec)) : ∃ e, s.rows.lookup ⟨t, k, h⟩ = some e ∧ rec.row = e.row := by
  unfold consume at done
  split at done
  · cases done
  next kk looked =>
    unfold lookupKey at looked
    rw [ite_error_eq_ok] at looked
    cases looked.2
    unfold live at done
    split at done
    · cases done
    next e here =>
      split at here
      · cases here
      next found =>
        split at here
        · cases here
          exact ⟨_, found, restore_ok (congrArg Prod.snd done)⟩
        · cases here

theorem rows_removeWhere (s : Store) (drop : Key → Entry → Bool) (k : Key) :
    (s.removeWhere drop).1.rows.lookup k =
      match s.rows.lookup k with
      | some e => if drop k e then none else some e
      | none => none := by
  unfold removeWhere
  rw [rows_foldl_remove]
  cases found : s.rows.lookup k with
  | none => simp
  | some e =>
    have member : k ∈ (s.rows.entries.filter fun c => drop c.1 c.2).map Sigma.fst ↔ drop k e = true := by
      rw [List.mem_map]
      constructor
      · rintro ⟨⟨k', e'⟩, listed, rfl⟩
        obtain ⟨stored, doomed⟩ := List.mem_filter.mp listed
        rw [Map.mem_entries, found] at stored
        cases stored
        exact doomed
      · intro doomed
        exact ⟨⟨k, e⟩, List.mem_filter.mpr ⟨Map.mem_entries.mpr found, doomed⟩, rfl⟩
    simp [member]

end Store
end Egauth.Ceremony
