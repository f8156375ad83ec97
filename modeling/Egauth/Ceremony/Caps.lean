import Egauth.Ceremony.Index
import Egauth.Data.Count
import Egauth.Semantics.Run

/-! The caps of the ceremony store.

The buckets and the counters agree with the rows after any calls. The counters
include expired rows, while the caps are on live ones: a counter that is within
its cap bounds the live rows as well, and one beyond it starts an eviction among
the live rows only.
-/

set_option autoImplicit false

namespace Egauth.Ceremony
open Egauth.Core

def ofScope (sk : ScopeKey) (k : Key) (e : Entry) : Bool := k.bucket = sk.bucket ∧ e.row.scopeHash = sk.scope

def ofBucket (bk : BucketKey) (k : Key) (_ : Entry) : Bool := k.bucket = bk

def liveIn (group : Key → Entry → Bool) (now : Time) (k : Key) (e : Entry) : Bool := group k e && decide (e.row.expiresAt > now)

/-- The buckets and the counters are those of the rows; none is empty or zero. -/
structure Store.Agrees (s : Store) : Prop where
  indexed : s.Indexed
  occupied : ∀ bk bucket, s.buckets.lookup bk = some bucket → bucket.entries ≠ []
  counted : ∀ sk n, s.scopes.lookup sk = some n ↔ 0 < n ∧ n = s.rows.count (ofScope sk)

namespace Store
variable {s : Store}

theorem Agrees.new : Agrees .new where
  indexed := .new
  occupied := by simp [Store.new]
  counted sk n := by
    have none : Map.count (∅ : Map Key Entry) (ofScope sk) = 0 := rfl
    simp only [Store.new, none, AList.lookup_empty, reduceCtorEq, false_iff, not_and]
    omega

theorem Agrees.counter (agrees : s.Agrees) (sk : ScopeKey) : (s.scopes.lookup sk).getD 0 = s.rows.count (ofScope sk) := by
  cases found : s.scopes.lookup sk with
  | some n => exact ((agrees.counted sk n).mp found).2
  | none =>
    by_contra other
    have positive : 0 < (s.rows.count (ofScope sk) : Int) := by
      simp only [Option.getD_none] at other
      omega
    have counted := (agrees.counted sk _).mpr ⟨positive, rfl⟩
    rw [found] at counted
    cases counted

theorem Agrees.insert (agrees : s.Agrees) {k : Key} {e : Entry} (own : e.row.key = k) (absent : s.rows.lookup k = none) :
    (s.insert k e).Agrees where
  indexed := agrees.indexed.insert own
  occupied bk bucket found := by
    simp only [Store.insert, Map.lookup_insert_eq] at found
    split at found
    · cases found
      simp
    · exact agrees.occupied bk bucket found
  counted sk n := by
    simp only [Store.insert, Map.count_insert_new absent, Map.lookup_insert_eq]
    by_cases here : sk = ⟨k.bucket, e.row.scopeHash⟩
    · rw [if_pos here, agrees.counter, here]
      simp only [Option.some.injEq, ofScope]
      simp
      omega
    · rw [if_neg here, agrees.counted]
      have outside : ofScope sk k e = false := by
        simp only [ofScope, decide_eq_false_iff_not]
        rintro ⟨bucket, scope⟩
        exact here (by rw [bucket, scope])
      simp [outside]

theorem Agrees.remove (agrees : s.Agrees) (k : Key) : (s.remove k).Agrees where
  indexed := agrees.indexed.remove k
  occupied bk bucket found := by
    unfold Store.remove at found
    split at found
    · exact agrees.occupied bk bucket found
    · dsimp only at found
      split at found
      · rw [Map.lookup_erase_eq] at found
        split at found
        · cases found
        · exact agrees.occupied bk bucket found
      next some =>
        rw [Map.lookup_insert_eq] at found
        split at found
        · cases found
          exact fun none => some (by rw [none]; rfl)
        · exact agrees.occupied bk bucket found
  counted sk n := by
    cases found : s.rows.lookup k with
    | none =>
      have same : s.remove k = s := by simp [Store.remove, found]
      rw [same]
      exact agrees.counted sk n
    | some e =>
      have total := Map.count_erase (P := ofScope sk) found
      simp only [Store.remove, found]
      by_cases here : sk = ⟨k.bucket, e.row.scopeHash⟩
      · have counter := agrees.counter sk
        have inside : ofScope sk k e = true := by simp [ofScope, here]
        rw [inside] at total
        rw [here] at counter total ⊢
        split
        · rw [Map.lookup_erase_eq, if_pos rfl]
          simp at total ⊢
          omega
        · rw [Map.lookup_insert_eq, if_pos rfl]
          simp at total ⊢
          omega
      · have outside : ofScope sk k e = false := by
          simp only [ofScope, decide_eq_false_iff_not]
          rintro ⟨bucket, scope⟩
          exact here (by rw [bucket, scope])
        rw [outside] at total
        have kept := agrees.counted sk n
        split
        · rw [Map.lookup_erase_eq, if_neg here, kept, total]
          simp
        · rw [Map.lookup_insert_eq, if_neg here, kept, total]
          simp

theorem Agrees.foldl_remove (agrees : s.Agrees) (keys : List ((_ : Key) × Entry)) :
    (keys.foldl (fun s c => s.remove c.1) s).Agrees := by
  induction keys generalizing s with
  | nil => exact agrees
  | cons first keys ih => exact ih (agrees.remove first.1)

/-- What one eviction beside the row `keep` does: it takes live rows of the group, and none that is newer than
a live row of the group that it leaves. -/
structure Evicts (s t : Store) (keep : Key) (now : Time) (group : Key → Entry → Bool) : Prop where
  agrees : t.Agrees
  left : ∀ k e, t.rows.lookup k = some e → s.rows.lookup k = some e
  kept : t.rows.lookup keep = s.rows.lookup keep
  oldest : ∀ k e, s.rows.lookup k = some e → t.rows.lookup k = none → liveIn group now k e = true ∧
    ∀ k' e', k' ≠ keep → t.rows.lookup k' = some e' → liveIn group now k' e' = true → newer e' e

theorem Evicts.refl (agrees : s.Agrees) (keep : Key) (now : Time) (group : Key → Entry → Bool) :
    s.Evicts s keep now group := by
  refine ⟨agrees, fun _ _ => id, rfl, fun k e stored gone => ?_⟩
  rw [stored] at gone
  cases gone

section
variable {keep : Key} {now : Time} {same : Entry → Bool} {group : Key → Entry → Bool} {limit : Nat}

theorem mem_ranked_iff (agrees : s.Agrees) (alike : ∀ k e, group k e = true ↔ k.bucket = keep.bucket ∧ same e = true)
    {k : Key} {e : Entry} : ⟨k, e⟩ ∈ s.ranked keep now same ↔
      s.rows.lookup k = some e ∧ k ≠ keep ∧ liveIn group now k e = true := by
  rw [mem_ranked agrees.indexed, liveIn, Bool.and_eq_true, alike, decide_eq_true_eq]
  tauto

theorem mem_take_of_stays {n : Nat} {k : Key} {e : Entry} (ranked : ⟨k, e⟩ ∈ s.ranked keep now same)
    (stays : ((s.ranked keep now same).drop n |>.foldl (fun s v => s.remove v.1) s).rows.lookup k = some e) :
    ⟨k, e⟩ ∈ (s.ranked keep now same).take n := by
  rw [rows_foldl_remove] at stays
  split at stays
  · cases stays
  next unlisted =>
    rw [← List.take_append_drop n (s.ranked keep now same)] at ranked
    exact (List.mem_append.mp ranked).resolve_right fun dropped => unlisted (List.mem_map_of_mem dropped)

theorem evict_evicts (agrees : s.Agrees) (alike : ∀ k e, group k e = true ↔ k.bucket = keep.bucket ∧ same e = true) :
    s.Evicts (s.evict keep now same limit).1 keep now group := by
  unfold evict
  split
  · exact .refl agrees keep now group
  split
  · exact .refl agrees keep now group
  · dsimp only
    have rows := rows_foldl_remove ((s.ranked keep now same).drop (limit - 1)) s
    refine ⟨agrees.foldl_remove _, fun k e found => ?_, ?_, fun k e stored gone => ?_⟩
    · rw [rows] at found
      split at found
      · cases found
      · exact found
    · rw [rows, if_neg]
      intro listed
      obtain ⟨⟨k, e⟩, dropped, rfl⟩ := List.mem_map.mp listed
      exact ((mem_ranked agrees.indexed).mp (List.mem_of_mem_drop dropped)).2.2.1 rfl
    · rw [rows] at gone
      split at gone
      next listed =>
        obtain ⟨⟨k, e'⟩, dropped, rfl⟩ := List.mem_map.mp listed
        obtain ⟨stored', -, live⟩ := (mem_ranked_iff agrees alike).mp (List.mem_of_mem_drop dropped)
        obtain rfl : e = e' := Option.some.inj (stored.symm.trans stored')
        refine ⟨live, fun k' e' other found eligible => ?_⟩
        -- The ranking is sorted, and what stays of the group is ahead of the victim.
        have before : s.rows.lookup k' = some e' := by
          rw [rows] at found
          split at found
          · cases found
          · exact found
        have ahead := mem_take_of_stays ((mem_ranked_iff agrees alike).mpr ⟨before, other, eligible⟩) found
        have sorted : ((s.ranked keep now same).take (limit - 1) ++ (s.ranked keep now same).drop (limit - 1)).Pairwise
            fun a b => newer a.2 b.2 := by
          rw [List.take_append_drop]
          exact List.pairwise_insertionSort _ _
        exact (List.pairwise_append.mp sorted).2.2 _ ahead _ dropped
      next =>
        rw [stored] at gone
        cases gone

/-- Of the group no more are live than the limit, the row that is kept included. -/
theorem count_evict (agrees : s.Agrees) (alike : ∀ k e, group k e = true ↔ k.bucket = keep.bucket ∧ same e = true)
    (positive : 0 < limit) : (s.evict keep now same limit).1.rows.count (liveIn group now) ≤ limit := by
  have evicts : s.Evicts (s.evict keep now same limit).1 keep now group := evict_evicts agrees alike
  have covered (l : List ((_ : Key) × Entry)) (short : l.length < limit)
      (listed : ∀ k e, k ≠ keep → (s.evict keep now same limit).1.rows.lookup k = some e →
        liveIn group now k e = true → ⟨k, e⟩ ∈ l) :
      (s.evict keep now same limit).1.rows.count (liveIn group now) ≤ limit := by
    cases found : (s.evict keep now same limit).1.rows.lookup keep with
    | none =>
      refine (Map.count_le (l := l) fun k e stored live => listed k e ?_ stored live).trans short.le
      rintro rfl
      rw [found] at stored
      cases stored
    | some e₀ =>
      refine (Map.count_le (l := ⟨keep, e₀⟩ :: l) fun k e stored live => ?_).trans short
      by_cases own : k = keep
      · subst own
        rw [found] at stored
        cases stored
        exact List.mem_cons_self
      · exact List.mem_cons_of_mem _ (listed k e own stored live)
  by_cases room : (s.others keep now same).length < limit
  · refine covered (s.ranked keep now same) ?_ fun k e other stored live => ?_
    · rw [ranked, List.length_insertionSort]
      exact room
    · exact (mem_ranked_iff agrees alike).mpr ⟨evicts.left k e stored, other, live⟩
  · refine covered ((s.ranked keep now same).take (limit - 1)) ?_ fun k e other stored live => ?_
    · rw [List.length_take]
      omega
    · have ranked := (mem_ranked_iff agrees alike).mpr ⟨evicts.left k e stored, other, live⟩
      refine mem_take_of_stays ranked ?_
      simpa only [evict, Nat.le_zero_eq, positive.ne', room, if_false] using stored

end

theorem count_live_le (m : Map Key Entry) (group : Key → Entry → Bool) (now : Time) : m.count (liveIn group now) ≤ m.count group := by
  refine Map.count_mono fun k e found live => ⟨found, ?_⟩
  exact (Bool.and_eq_true_iff.mp live).1

theorem Agrees.length_bucket (agrees : s.Agrees) (bk : BucketKey) :
    s.rows.count (ofBucket bk) ≤ (s.bucketOf bk).entries.length := by
  refine Map.count_le fun k e found own => ?_
  rw [Map.mem_entries, agrees.indexed.bucket, if_pos (of_decide_eq_true own)]
  exact found

section
variable (k : Key) (now : Time)

theorem capScope_evicts (agrees : s.Agrees) (scope : Digest) :
    s.Evicts (s.capScope k now scope).1 k now (ofScope ⟨k.bucket, scope⟩) := by
  unfold capScope
  split
  · exact evict_evicts agrees fun k' e => by simp [ofScope]
  · exact .refl agrees k now _

theorem count_capScope (agrees : s.Agrees) (scope : Digest) (positive : 0 < k.kind.maxLivePerScope) :
    (s.capScope k now scope).1.rows.count (liveIn (ofScope ⟨k.bucket, scope⟩) now) ≤ k.kind.maxLivePerScope := by
  unfold capScope
  split
  · exact count_evict agrees (fun k' e => by simp [ofScope]) positive
  next within =>
    -- The counter also counts the expired rows.
    rw [agrees.counter] at within
    have live := count_live_le s.rows (ofScope ⟨k.bucket, scope⟩) now
    dsimp only
    omega

theorem capTenant_evicts (agrees : s.Agrees) : s.Evicts (s.capTenant k now).1 k now (ofBucket k.bucket) := by
  unfold capTenant
  split
  · exact evict_evicts agrees fun k' e => by simp [ofBucket]
  · exact .refl agrees k now _

theorem count_capTenant (agrees : s.Agrees) (positive : 0 < k.kind.maxLivePerTenant) :
    (s.capTenant k now).1.rows.count (liveIn (ofBucket k.bucket) now) ≤ k.kind.maxLivePerTenant := by
  unfold capTenant
  split
  · exact count_evict agrees (fun k' e => by simp [ofBucket]) positive
  next within =>
    have live := count_live_le s.rows (ofBucket k.bucket) now
    have bucket := agrees.length_bucket k.bucket
    dsimp only
    omega

theorem capTenant_none (none : k.kind.maxLivePerTenant = 0) : (s.capTenant k now).1 = s := by
  unfold capTenant
  rw [if_neg (by omega)]

end

theorem Agrees.added (agrees : s.Agrees) (r : Record) : (s.added r).Agrees := by
  have removed := agrees.remove r.row.key
  have numbered : Agrees { s.remove r.row.key with seq := (s.remove r.row.key).seq + 1 } :=
    ⟨⟨removed.indexed.keyed, removed.indexed.bucket⟩, removed.occupied, removed.counted⟩
  refine numbered.insert rfl ?_
  change (s.remove r.row.key).rows.lookup r.row.key = none
  rw [rows_remove, if_pos rfl]

theorem write_caps (s : Store) (clk : Time) (r : Record) :
    (s.write clk r).1 = (((s.added r).capScope r.row.key clk r.row.scopeHash).1.capTenant r.row.key clk).1 := rfl

theorem Agrees.removeWhere (agrees : s.Agrees) (drop : Key → Entry → Bool) : (s.removeWhere drop).1.Agrees :=
  agrees.foldl_remove _

theorem Agrees.consume (agrees : s.Agrees) (clk : Time) (t : TenantID) (k : Kind) (h : Digest) :
    (s.consume clk t k h).1.Agrees := by
  unfold Store.consume
  split
  · exact agrees
  · split
    · exact agrees
    · exact agrees.remove _

theorem Agrees.recordFailure (agrees : s.Agrees) (clk : Time) (t : TenantID) (k : Kind) (h : Digest) :
    (s.recordFailure clk t k h).1.Agrees := by
  unfold Store.recordFailure
  split
  · exact agrees
  next kk _ =>
    split
    · exact agrees
    next e live =>
      obtain ⟨found, -⟩ := live_eq_some.mp live
      dsimp only
      split
      · exact agrees.remove _
      · refine ⟨⟨fun k' e' stored => ?_, fun bk k' => ?_⟩, fun bk bucket stored => ?_, fun sk n => ?_⟩
        · rw [Map.lookup_insert_eq] at stored
          split at stored
          next same =>
            cases stored
            rw [same]
            exact agrees.indexed.keyed kk e found
          next => exact agrees.indexed.keyed k' e' stored
        · have before := agrees.indexed.bucket bk k'
          unfold bucketOf at before ⊢
          dsimp only
          rw [Map.lookup_insert_eq, Map.lookup_insert_eq]
          by_cases here : bk = kk.bucket
          · subst here
            rw [if_pos rfl, Option.getD_some, Map.lookup_insert_eq]
            by_cases own : k' = kk
            · simp [own]
            · rw [if_neg own, if_neg own]
              exact before
          · rw [if_neg here, before]
            by_cases own : k' = kk
            · simp [own, Ne.symm here]
            · simp [own]
        · rw [Map.lookup_insert_eq] at stored
          split at stored
          · cases stored
            simp
          · exact agrees.occupied bk bucket stored
        · have same : Map.count (s.rows.insert kk { e with row.attempts := e.row.attempts + 1 }) (ofScope sk) =
              s.rows.count (ofScope sk) := Map.count_update found rfl
          rw [same]
          exact agrees.counted sk n

end Store

/-- The calls that write rows; a reading of the clock comes with each. -/
inductive Op where
  | put (r : Record)
  | consume (t : TenantID) (k : Kind) (handle : Digest)
  | recordFailure (t : TenantID) (k : Kind) (handle : Digest)
  | deleteForScope (t : TenantID) (scope : Digest) (kinds : List Kind)
  | eraseTenant (t : TenantID)
  | reapExpired

def Store.apply (s : Store) (clk : Time) : Op → Store
  | .put r => (s.put clk r).1
  | .consume t k handle => (s.consume clk t k handle).1
  | .recordFailure t k handle => (s.recordFailure clk t k handle).1
  | .deleteForScope t scope kinds => (s.deleteForScope t scope kinds).1
  | .eraseTenant t => s.eraseTenant t
  | .reapExpired => (s.reapExpired clk).1

def Step (s : Store) (call : Time × Op) (t : Store) : Prop := t = s.apply call.1 call.2

namespace Store
variable {s : Store}

theorem Agrees.write (agrees : s.Agrees) (clk : Time) (r : Record) : (s.write clk r).1.Agrees := by
  rw [write_caps]
  exact (capTenant_evicts _ _ (capScope_evicts _ _ (agrees.added r) _).agrees).agrees

theorem Agrees.apply (agrees : s.Agrees) (clk : Time) (op : Op) : (s.apply clk op).Agrees := by
  cases op with
  | put r =>
    simp only [Store.apply, put]
    split
    · exact agrees
    · exact agrees.write clk r
  | consume t k handle => exact agrees.consume clk t k handle
  | recordFailure t k handle => exact agrees.recordFailure clk t k handle
  | deleteForScope t scope kinds => exact agrees.removeWhere _
  | eraseTenant t =>
    have removed := agrees.removeWhere fun k _ => k.tenant = t
    exact ⟨⟨removed.indexed.keyed, removed.indexed.bucket⟩, removed.occupied, removed.counted⟩
  | reapExpired =>
    have removed := agrees.removeWhere fun _ e => ¬ e.row.expiresAt > clk
    exact ⟨⟨removed.indexed.keyed, removed.indexed.bucket⟩, removed.occupied, removed.counted⟩

theorem Agrees.run {calls : List (Time × Op)} {s : Store} (run : Run Step .new calls s) : s.Agrees := by
  refine run.invariant Agrees ?_ .new
  rintro s call _ agrees rfl
  exact agrees.apply call.1 call.2

end Store

/-- After any calls the indexes agree with the rows, and a `Put` that succeeds leaves no more live rows than its
caps allow; it evicts live rows of its tenant and kind, the oldest of a capped group. -/
theorem put_capped {calls : List (Time × Op)} {s : Store} (run : Run Step .new calls s) :
    s.Agrees ∧ ∀ (clk : Time) (r : Record) (s' : Store) (n : Nat), s.put clk r = (s', .ok n) →
      let bk := r.row.key.bucket
      let sk : ScopeKey := ⟨bk, r.row.scopeHash⟩
      (0 < r.row.kind.maxLivePerScope → s'.rows.count (liveIn (ofScope sk) clk) ≤ r.row.kind.maxLivePerScope) ∧
      (0 < r.row.kind.maxLivePerTenant → s'.rows.count (liveIn (ofBucket bk) clk) ≤ r.row.kind.maxLivePerTenant) ∧
      (∃ seq, s'.rows.lookup r.row.key = some ⟨r.row.stored, seq⟩) ∧
      ∀ k e, k ≠ r.row.key → s.rows.lookup k = some e → s'.rows.lookup k = none →
        k.bucket = bk ∧ e.row.expiresAt > clk ∧
        ∃ group, (group = ofScope sk ∨ 0 < r.row.kind.maxLivePerTenant ∧ group = ofBucket bk) ∧ group k e = true ∧
          ∀ k' e', k' ≠ r.row.key → s'.rows.lookup k' = some e' → liveIn group clk k' e' = true → newer e' e := by
  have agrees := Store.Agrees.run run
  refine ⟨agrees, fun clk r s' n done => ?_⟩
  unfold Store.put at done
  split at done
  · cases done
  cases done
  rw [Store.write_caps]
  have added := agrees.added r
  have first := Store.capScope_evicts r.row.key clk added r.row.scopeHash
  have second := Store.capTenant_evicts r.row.key clk first.agrees
  refine ⟨fun positive => ?_, fun positive => ?_, ?_, fun k e other stored gone => ?_⟩
  · -- The second eviction only takes more.
    refine le_trans ?_ (Store.count_capScope r.row.key clk added r.row.scopeHash positive)
    exact Map.count_mono fun k e found live => ⟨second.left k e found, live⟩
  · exact Store.count_capTenant r.row.key clk first.agrees positive
  · rw [second.kept, first.kept, Store.rows_added, if_pos rfl]
    exact ⟨_, rfl⟩
  · have before : (s.added r).rows.lookup k = some e := by rw [Store.rows_added, if_neg other, stored]
    have bounded {group : Key → Entry → Bool} (live : liveIn group clk k e = true) :
        group k e = true ∧ e.row.expiresAt > clk := by
      simpa only [liveIn, Bool.and_eq_true, decide_eq_true_eq] using live
    cases between : ((s.added r).capScope r.row.key clk r.row.scopeHash).1.rows.lookup k with
    | none =>
      obtain ⟨live, oldest⟩ := first.oldest k e before between
      obtain ⟨inside, alive⟩ := bounded live
      refine ⟨(of_decide_eq_true inside).1, alive, _, .inl rfl, inside, fun k' e' apart found => ?_⟩
      exact oldest k' e' apart (second.left k' e' found)
    | some e' =>
      obtain rfl : e' = e := Option.some.inj ((first.left k e' between).symm.trans before)
      obtain ⟨live, oldest⟩ := second.oldest k e' between gone
      obtain ⟨inside, alive⟩ := bounded live
      refine ⟨of_decide_eq_true inside, alive, _, .inr ⟨?_, rfl⟩, inside, oldest⟩
      by_contra none
      rw [Store.capTenant_none r.row.key clk (by simpa [Row.key] using none), between] at gone
      cases gone

namespace Sample

def link (n : UInt8) (createdAt : Time) : Row where
  tenant := .zero
  kind := .magicLink
  handleHash := .handle [n]
  scopeHash := .identifier .email [1]
  pending := .zero
  payload := ⟨.magicLink, .empty⟩
  attempts := 0
  expiresAt := createdAt + Duration.minute
  createdAt := createdAt

def links : List Record :=
  [⟨link 1 3000, by decide⟩, ⟨link 2 1000, by decide⟩, ⟨link 3 2000, by decide⟩]

def fourth : Record := ⟨link 4 4000, by decide⟩

def full : Store := links.foldl (fun s r => s.apply 5000 (.put r)) .new

end Sample

open Sample

theorem put_capped_fourth_link :
    (full.put 5000 fourth).2 = .ok 1 ∧ (full.put 5000 fourth).1.rows.count
        (liveIn (ofScope ⟨⟨.zero, .magicLink⟩, .identifier .email [1]⟩) 5000) ≤ 3 := by
  have run : Run Step .new (links.map fun r => (5000, .put r)) full := by
    have each (s : Store) (call : Time × Op) (_ : call ∈ links.map fun r => ((5000 : Time), Op.put r)) :
        Step s call (s.apply call.1 call.2) := rfl
    have folded := Run.foldl _ each .new
    rwa [List.foldl_map] at folded
  have done : full.put 5000 fourth = ((full.put 5000 fourth).1, .ok 1) := by
    rw [← show (full.put 5000 fourth).2 = .ok 1 by decide +kernel]
  exact ⟨congrArg Prod.snd done, ((put_capped run).2 5000 fourth _ 1 done).1 (by decide)⟩

end Egauth.Ceremony
