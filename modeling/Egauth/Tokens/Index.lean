import Egauth.Tokens.Ledger

/-! The in-process store refines the ledger.

The family index is redundant: it lists, for each family, the hashes of its
tokens. Under that invariant every call of the store is a run of the ledger.
-/

set_option autoImplicit false

namespace Egauth.Tokens

theorem maxTime_eq_max (a b : Time) : maxTime a b = max a b := by
  unfold maxTime
  split
  next later => exact (max_eq_right later.le).symm
  next not_later => exact (max_eq_left (not_lt.mp not_later)).symm

namespace Store

def ledger (s : Store) : Ledger := ⟨fun h => s.tokens.lookup h, s.feed, s.seq⟩

structure Indexed (s : Store) : Prop where
  listed : ∀ {fk h}, h ∈ s.hashesOf fk ↔ ∃ r, s.tokens.lookup h = some r ∧ r.key = fk
  nodup : ∀ fk, (s.hashesOf fk).Nodup
  occupied : ∀ fk, s.families.lookup fk ≠ some []

theorem Indexed.new : Indexed .new :=
  ⟨by simp [Store.new, hashesOf], by simp [Store.new, hashesOf], by simp [Store.new]⟩

variable {s : Store} {allowed : Event → Prop} {fk : FamilyKey}

/-- A family is indexed exactly when it has a token. -/
theorem Indexed.absent_iff (indexed : s.Indexed) :
    s.families.lookup fk = none ↔ ∀ h r, ¬ s.ledger.Holds fk h r := by
  have listed : s.hashesOf fk = [] ↔ ∀ h r, ¬ s.ledger.Holds fk h r := by
    rw [List.eq_nil_iff_forall_not_mem]
    simp only [indexed.listed, not_exists, Ledger.Holds, ledger]
  rw [← listed, hashesOf]
  cases found : s.families.lookup fk with
  | none => simp
  | some hashes =>
    have occupied := indexed.occupied fk
    simp_all

/-- The index depends on which token belongs to which family, not on its state. -/
theorem Indexed.congr {t : Store} (indexed : s.Indexed) (families : t.families = s.families)
    (keys : ∀ h, (t.tokens.lookup h).map Refresh.key = (s.tokens.lookup h).map Refresh.key) :
    t.Indexed := by
  have hashes : ∀ fk, t.hashesOf fk = s.hashesOf fk := fun fk => by rw [hashesOf, families, hashesOf]
  refine ⟨fun {fk h} => ?_, fun fk => hashes fk ▸ indexed.nodup fk, families ▸ indexed.occupied⟩
  have same : (∃ r, t.tokens.lookup h = some r ∧ r.key = fk) ↔
      ∃ r, s.tokens.lookup h = some r ∧ r.key = fk := by
    simp only [← Option.map_eq_some_iff, keys h]
  rw [hashes, indexed.listed, same]

theorem lookup_tokens_dropToken (s : Store) (h h' : Bytes) :
    (s.dropToken h).tokens.lookup h' = if h' = h then none else s.tokens.lookup h' := by
  unfold dropToken
  split
  next absent =>
    split
    next same => rw [same, absent]
    next => rfl
  next => exact Map.lookup_erase_eq _ _ _

theorem lookup_families_dropToken {h : Bytes} {r : Refresh} (stored : s.tokens.lookup h = some r) (fk : FamilyKey) :
    (s.dropToken h).families.lookup fk =
      if fk = r.key then
        if (s.hashesOf r.key).filter (· ≠ h) = [] then none else some ((s.hashesOf r.key).filter (· ≠ h))
      else s.families.lookup fk := by
  simp only [dropToken, stored, List.length_eq_zero_iff]
  by_cases same : fk = r.key
  · subst same
    rw [if_pos rfl]
    split <;> simp
  · rw [if_neg same]
    split <;> simp [same, AList.lookup_erase_ne, AList.lookup_insert_ne]

theorem hashesOf_dropToken {h : Bytes} {r : Refresh} (stored : s.tokens.lookup h = some r) (fk : FamilyKey) :
    (s.dropToken h).hashesOf fk =
      if fk = r.key then (s.hashesOf fk).filter (· ≠ h) else s.hashesOf fk := by
  rw [hashesOf, lookup_families_dropToken stored]
  split
  next same =>
    subst same
    split
    next empty => rw [empty, Option.getD_none]
    next => rw [Option.getD_some]
  next => rfl

@[simp] theorem feed_dropToken (s : Store) (h : Bytes) : (s.dropToken h).feed = s.feed := by
  unfold dropToken
  split <;> rfl

@[simp] theorem seq_dropToken (s : Store) (h : Bytes) : (s.dropToken h).seq = s.seq := by
  unfold dropToken
  split <;> rfl

theorem Indexed.dropToken (indexed : s.Indexed) (h : Bytes) : (s.dropToken h).Indexed := by
  cases stored : s.tokens.lookup h with
  | none => simpa [Store.dropToken, stored] using indexed
  | some r =>
    refine ⟨fun {fk h'} => ?_, fun fk => ?_, fun fk => ?_⟩
    · rw [hashesOf_dropToken stored, lookup_tokens_dropToken]
      by_cases gone : h' = h
      · -- The dropped hash was listed under its own family only.
        subst gone
        have unlisted : fk ≠ r.key → h' ∉ s.hashesOf fk := by
          intro other member
          obtain ⟨r', stored', rfl⟩ := indexed.listed.mp member
          rw [stored] at stored'
          exact other (Option.some.inj stored' ▸ rfl)
        by_cases same : fk = r.key <;> simp [same, unlisted]
      · rw [if_neg gone, ← indexed.listed]
        split <;> simp [gone]
    · rw [hashesOf_dropToken stored]
      split
      · exact (indexed.nodup fk).filter _
      · exact indexed.nodup fk
    · rw [lookup_families_dropToken stored]
      split
      · split <;> simp_all
      · exact indexed.occupied fk

theorem foldl_dropToken (hashes : List Bytes) (indexed : s.Indexed) : (hashes.foldl dropToken s).Indexed ∧
      (hashes.foldl dropToken s).ledger =
        ⟨fun h => if h ∈ hashes then none else s.tokens.lookup h, s.feed, s.seq⟩ := by
  induction hashes generalizing s with
  | nil => simpa [ledger] using indexed
  | cons h hashes ih =>
    obtain ⟨kept, contents⟩ := ih (indexed.dropToken h)
    refine ⟨kept, ?_⟩
    rw [List.foldl_cons, contents]
    simp only [feed_dropToken, seq_dropToken, lookup_tokens_dropToken, List.mem_cons]
    congr 1
    funext h'
    by_cases first : h' = h <;> simp [first]

/-- From an indexed store to an indexed store, by a run of the ledger made of allowed events. -/
def Refines (allowed : Event → Prop) (s t : Store) : Prop :=
  s.Indexed → t.Indexed ∧
    ∃ events, Run Ledger.Step s.ledger events t.ledger ∧ ∀ event ∈ events, allowed event

theorem Refines.refl (allowed : Event → Prop) (s : Store) : s.Refines allowed s :=
  fun indexed => ⟨indexed, [], .nil, by simp⟩

theorem Refines.trans {t u : Store} (first : s.Refines allowed t)
    (second : t.Refines allowed u) : s.Refines allowed u := by
  intro indexed
  obtain ⟨indexed, events, run, ok⟩ := first indexed
  obtain ⟨indexed, events', run', ok'⟩ := second indexed
  refine ⟨indexed, events ++ events', run.append run', ?_⟩
  intro event member
  exact (List.mem_append.mp member).elim (ok event) (ok' event)

theorem Refines.foldl {A : Type} {body : Store → A → Store}
    (each : ∀ (s : Store) a, s.Refines allowed (body s a)) (items : List A) (s : Store) :
    s.Refines allowed (items.foldl body s) := by
  induction items generalizing s with
  | nil => exact .refl _ _
  | cons a items ih => exact (each s a).trans (ih _)

theorem Refines.of_eq {t : Store} (tokens : t.tokens = s.tokens)
    (families : t.families = s.families) (feed : t.feed = s.feed) (seq : t.seq = s.seq) :
    s.Refines allowed t := by
  intro indexed
  refine ⟨indexed.congr families (by simp [tokens]), [], ?_, by simp⟩
  have same : t.ledger = s.ledger := by rw [ledger, tokens, feed, seq, ledger]
  rw [same]
  exact .nil

theorem refines_event {t : Store} {event : Event} (ok : allowed event)
    (indexed : s.Indexed → t.Indexed) (step : s.Indexed → Ledger.Step s.ledger event t.ledger) :
    s.Refines allowed t :=
  fun start => ⟨indexed start, [event], .single (step start), by simpa using ok⟩

theorem dropFamily_step (indexed : s.Indexed) (revoked : ∀ h r, s.ledger.Holds fk h r → r.revoked = true) :
    Ledger.Step s.ledger (.forgotten fk) (s.dropFamily fk).ledger := by
  have contents : (s.dropFamily fk).ledger =
      { s.ledger with tokens := fun h => (s.ledger.tokens h).filter fun r => decide (r.key ≠ fk) } := by
    rw [dropFamily, (foldl_dropToken _ indexed).2]
    refine Ledger.ext (funext fun h => ?_) rfl rfl
    have listed := @Indexed.listed s indexed fk h
    cases stored : s.tokens.lookup h with
    | none => simp [ledger, stored]
    | some r =>
      by_cases own : r.key = fk <;> simp [ledger, stored, own, listed, Option.filter_some]
  rw [contents]
  exact .forget fk revoked

theorem lookup_markRevoked (acc : Map Bytes Refresh × Time × Bool) (h h' : Bytes) :
    (markRevoked acc h).1.lookup h' =
      if h' = h then (acc.1.lookup h').map ({ · with revoked := true }) else acc.1.lookup h' := by
  unfold markRevoked
  split
  next absent =>
    split
    next same => rw [same, absent, Option.map_none]
    next => rfl
  next r stored =>
    by_cases same : h' = h
    · subst same
      rw [if_pos rfl, stored]
      by_cases revoked : r.revoked = true
      · rw [if_pos revoked, stored, Option.map_some, ← revoked]
      · rw [if_neg revoked, AList.lookup_insert, Option.map_some]
    · rw [if_neg same]
      split
      · rfl
      · exact AList.lookup_insert_ne same

/-- The running maximum never decreases and covers the token just seen. -/
theorem expires_markRevoked (acc : Map Bytes Refresh × Time × Bool) (h : Bytes) :
    acc.2.1 ≤ (markRevoked acc h).2.1 ∧
      ∀ r, acc.1.lookup h = some r → r.row.familyExpiresAt ≤ (markRevoked acc h).2.1 := by
  unfold markRevoked
  split
  next absent => simp [absent]
  next r stored =>
    have latest : (if r.revoked then (acc.1, maxTime acc.2.1 r.row.familyExpiresAt, acc.2.2) else
        (acc.1.insert h { r with revoked := true }, maxTime acc.2.1 r.row.familyExpiresAt, true)).2.1 =
          max acc.2.1 r.row.familyExpiresAt := by
      rw [← maxTime_eq_max]
      split <;> rfl
    simp only [latest, stored, Option.some.injEq, forall_eq']
    exact ⟨le_max_left _ _, le_max_right _ _⟩

theorem appended_markRevoked (acc : Map Bytes Refresh × Time × Bool) (h : Bytes) :
    (markRevoked acc h).2.2 = true ↔
      acc.2.2 = true ∨ ∃ r, acc.1.lookup h = some r ∧ r.revoked = false := by
  unfold markRevoked
  split
  next absent => simp [absent]
  next r stored => by_cases revoked : r.revoked = true <;> simp [stored, revoked]

theorem foldl_markRevoked (hashes : List Bytes) (acc : Map Bytes Refresh × Time × Bool) :
    (∀ h, (hashes.foldl markRevoked acc).1.lookup h =
      if h ∈ hashes then (acc.1.lookup h).map ({ · with revoked := true }) else acc.1.lookup h) ∧
    (acc.2.1 ≤ (hashes.foldl markRevoked acc).2.1 ∧ ∀ h ∈ hashes, ∀ r, acc.1.lookup h = some r →
      r.row.familyExpiresAt ≤ (hashes.foldl markRevoked acc).2.1) ∧
    ((hashes.foldl markRevoked acc).2.2 = true ↔
      acc.2.2 = true ∨ ∃ h ∈ hashes, ∃ r, acc.1.lookup h = some r ∧ r.revoked = false) := by
  induction hashes generalizing acc with
  | nil => simp
  | cons first hashes ih =>
    -- Marking the first token changes no expiry, so the rest sees the same ones.
    obtain ⟨contents, ⟨grows, covers⟩, appended⟩ := ih (markRevoked acc first)
    obtain ⟨later, covered⟩ := expires_markRevoked acc first
    have looked := lookup_markRevoked acc first
    refine ⟨fun h => ?_, ⟨later.trans grows, fun h member r stored => ?_⟩, ?_⟩
    · rw [List.foldl_cons, contents, looked]
      by_cases same : h = first
      · cases stored : acc.1.lookup h <;> simp [same]
      · simp [same]
    · rw [List.foldl_cons]
      rcases List.mem_cons.mp member with rfl | member
      · exact (covered r stored).trans grows
      · by_cases same : h = first
        · subst same
          exact (covered r stored).trans grows
        · exact covers h member r (by rw [looked, if_neg same, stored])
    · rw [List.foldl_cons, appended, appended_markRevoked]
      simp only [List.mem_cons, exists_eq_or_imp, or_assoc]
      refine or_congr_right ⟨?_, ?_⟩
      · rintro (found | ⟨h, member, r, stored, unrevoked⟩)
        · exact .inl found
        · by_cases same : h = first
          · -- The first token is marked by now.
            subst same
            rw [looked, if_pos rfl, Option.map_eq_some_iff] at stored
            obtain ⟨_, -, rfl⟩ := stored
            cases unrevoked
          · exact .inr ⟨h, member, r, by rwa [looked, if_neg same] at stored, unrevoked⟩
      · rintro (found | ⟨h, member, r, stored, unrevoked⟩)
        · exact .inl found
        · by_cases same : h = first
          · exact .inl ⟨r, same ▸ stored, unrevoked⟩
          · exact .inr ⟨h, member, r, by rwa [looked, if_neg same], unrevoked⟩

@[simp] theorem families_revoke (s : Store) (fk : FamilyKey) (now : Time) :
    (s.revoke fk now).families = s.families := by
  dsimp only [revoke]
  split <;> rfl

theorem lookup_revoke (s : Store) (fk : FamilyKey) (now : Time) (h : Bytes) :
    (s.revoke fk now).tokens.lookup h =
      if h ∈ s.hashesOf fk then (s.tokens.lookup h).map ({ · with revoked := true }) else s.tokens.lookup h := by
  rw [← (foldl_markRevoked (s.hashesOf fk) (s.tokens, 0, false)).1 h, revoke]
  split <;> rfl

theorem lookup_tokens_revoke (indexed : s.Indexed) (fk : FamilyKey) (now : Time) (h : Bytes) :
    (s.revoke fk now).tokens.lookup h = (s.tokens.lookup h).map (Refresh.revokeIn fk) := by
  rw [lookup_revoke]
  have listed := @Indexed.listed s indexed fk h
  cases stored : s.tokens.lookup h with
  | none => simp
  | some r => by_cases own : r.key = fk <;> simp [stored, listed, own, Refresh.revokeIn]

theorem Indexed.revoke (indexed : s.Indexed) (fk : FamilyKey) (now : Time) : (s.revoke fk now).Indexed := by
  refine indexed.congr (families_revoke s fk now) fun h => ?_
  rw [lookup_tokens_revoke indexed, Option.map_map]
  congr 1
  funext r
  exact Refresh.key_revokeIn fk r

/-- Revoking a family with an unrevoked token announces it once. -/
theorem revoke_step (indexed : s.Indexed) (now : Time)
    (unrevoked : ∃ h r, s.ledger.Holds fk h r ∧ r.revoked = false) :
    ∃ expires, (∀ h r, s.ledger.Holds fk h r → r.row.familyExpiresAt ≤ expires) ∧
      (s.revoke fk now).ledger =
        ⟨fun h => (s.tokens.lookup h).map (Refresh.revokeIn fk),
          s.feed ++ [⟨s.seq + 1, ⟨fk.tenant, fk.family, now⟩, expires⟩], s.seq + 1⟩ := by
  obtain ⟨-, ⟨-, covers⟩, appended⟩ := foldl_markRevoked (s.hashesOf fk) (s.tokens, 0, false)
  have marked : ((s.hashesOf fk).foldl markRevoked (s.tokens, 0, false)).2.2 = true := by
    obtain ⟨h, r, ⟨stored, own⟩, unrevoked⟩ := unrevoked
    exact appended.mpr (.inr ⟨h, indexed.listed.mpr ⟨r, stored, own⟩, r, stored, unrevoked⟩)
  refine ⟨_, fun h r held => covers h (indexed.listed.mpr ⟨r, held⟩) r held.1, ?_⟩
  refine Ledger.ext (funext fun h => lookup_tokens_revoke indexed fk now h) ?_ ?_
  · simp only [ledger, revoke, marked, if_true]
  · simp only [ledger, revoke, marked, if_true]

theorem revoke_ledger_of_revoked (indexed : s.Indexed) (now : Time)
    (revoked : ¬ ∃ h r, s.ledger.Holds fk h r ∧ r.revoked = false) :
    (s.revoke fk now).ledger = s.ledger := by
  obtain ⟨-, -, appended⟩ := foldl_markRevoked (s.hashesOf fk) (s.tokens, 0, false)
  have unmarked : ((s.hashesOf fk).foldl markRevoked (s.tokens, 0, false)).2.2 ≠ true := by
    rw [ne_eq, appended]
    rintro (impossible | ⟨h, member, r, stored, unrevoked⟩)
    · cases impossible
    · obtain ⟨r', stored', own⟩ := indexed.listed.mp member
      exact revoked ⟨h, r', ⟨stored', own⟩, Option.some.inj (stored.symm.trans stored') ▸ unrevoked⟩
  refine Ledger.ext (funext fun h => ?_) ?_ ?_
  · refine (lookup_tokens_revoke indexed fk now h).trans ?_
    cases stored : s.tokens.lookup h with
    | none => simp [ledger, stored]
    | some r =>
      have same : r.revokeIn fk = r := by
        by_cases own : r.key = fk
        · refine Refresh.revokeIn_of_revoked (eq_true_of_ne_false fun unrevoked => ?_)
          exact revoked ⟨h, r, ⟨stored, own⟩, unrevoked⟩
        · exact Refresh.revokeIn_of_ne own
      simp [ledger, stored, same]
  · simp only [ledger, revoke, unmarked, if_false, Bool.false_eq_true]
  · simp only [ledger, revoke, unmarked, if_false, Bool.false_eq_true]

theorem revoke_refines (ok : allowed (.revoked fk))
    (s : Store) (now : Time) : s.Refines allowed (s.revoke fk now) := by
  intro indexed
  refine ⟨indexed.revoke fk now, ?_⟩
  by_cases unrevoked : ∃ h r, s.ledger.Holds fk h r ∧ r.revoked = false
  · obtain ⟨expires, covers, contents⟩ := revoke_step indexed now unrevoked
    rw [contents]
    exact ⟨[.revoked fk], .single (.revoke fk now unrevoked covers), by simpa using ok⟩
  · rw [revoke_ledger_of_revoked indexed now unrevoked]
    exact ⟨[], .nil, by simp⟩

theorem revoked_of_holds_revoke (indexed : s.Indexed) {now : Time} {h : Bytes}
    {r : Refresh} (held : (s.revoke fk now).ledger.Holds fk h r) : r.revoked = true := by
  obtain ⟨stored, own⟩ := held
  have before := (lookup_tokens_revoke indexed fk now h).symm.trans stored
  obtain ⟨r, -, rfl⟩ := Option.map_eq_some_iff.mp before
  rw [Refresh.key_revokeIn] at own
  simp [own]

/-- A family is announced before it is deleted. -/
theorem revoke_dropFamily_refines (revoked : allowed (.revoked fk))
    (forgotten : allowed (.forgotten fk)) (s : Store) (now : Time) :
    s.Refines allowed ((s.revoke fk now).dropFamily fk) := by
  intro indexed
  have last : (s.revoke fk now).Refines allowed ((s.revoke fk now).dropFamily fk) :=
    refines_event forgotten (fun indexed => (foldl_dropToken _ indexed).1) fun revoked =>
      dropFamily_step revoked fun _ _ held => revoked_of_holds_revoke indexed held
  exact (revoke_refines revoked s now).trans last indexed

end Store
end Egauth.Tokens
