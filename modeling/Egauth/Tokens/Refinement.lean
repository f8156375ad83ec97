import Egauth.Tokens.Index

/-! Every call of the store is a run of the ledger. -/

set_option autoImplicit false

namespace Egauth.Tokens
open Egauth.Core

theorem replayable_eq_none {r : Refresh} {now : Time} : replayable r now = none ↔
    r.revoked = false ∧ now < r.row.familyExpiresAt ∧ (r.consumedAt = 0 → now < r.row.idleExpiresAt) := by
  unfold replayable usable
  by_cases ended : r.revoked = true ∨ ¬ now < r.row.familyExpiresAt
  · simp only [ended, if_true, ne_eq, reduceCtorEq, not_false_eq_true, or_true, false_iff]
    rintro ⟨live, within, -⟩
    simp_all
  · push Not at ended
    by_cases idle : now < r.row.idleExpiresAt <;> simp [ended, idle]

/-- No error of these tells of an earlier use. -/
theorem replayable_unused {r : Refresh} {now : Time} {err : Err} (refused : replayable r now = some err) :
    err ≠ .reused ∧ err ≠ .concurrent := by
  unfold replayable usable at refused
  grind

theorem state_owner (first : Refresh) (rows : List Refresh) :
    (state first rows).subject = first.row.subject ∧ (state first rows).lineage = first.row.lineage := by
  have fold : ∀ (st : FamilyState),
      (rows.foldl (fun st r => { st with
        revoked := st.revoked || r.revoked
        expiresAt := maxTime st.expiresAt r.row.familyExpiresAt }) st).subject = st.subject ∧
      (rows.foldl (fun st r => { st with
        revoked := st.revoked || r.revoked
        expiresAt := maxTime st.expiresAt r.row.familyExpiresAt }) st).lineage = st.lineage := by
    induction rows with
    | nil => simp
    | cons r rows ih => exact fun st => ih _
  exact fold _

theorem continues_iff {r : RefreshRow} {next : RefreshRecord} : continues r next = true ↔
    r.subject = next.row.subject ∧ r.lineage = next.row.lineage ∧ r.family = next.row.family := by
  simp [continues, and_assoc]

namespace Store

variable {s t : Store} {r : RefreshRecord} {h : Bytes}

theorem lookup_eq_some {t : TenantID} {r : Refresh} :
    s.lookup t h = some r ↔ s.tokens.lookup h = some r ∧ r.row.subject.tenant = t := by
  unfold lookup
  split
  next absent => simp [absent]
  next r' stored =>
    split
    next same => simp only [stored, Option.some.injEq]; grind
    next other => simp only [stored, Option.some.injEq]; grind

theorem insert_ok (inserted : s.insert r = .ok t) : (rowOf r).Valid ∧ s.tokens.lookup (rowOf r).tokenHash = none ∧
      t = { s with
        tokens := s.tokens.insert (rowOf r).tokenHash { row := rowOf r }
        families := s.families.insert (rowOf r).key (s.hashesOf (rowOf r).key ++ [(rowOf r).tokenHash]) } := by
  dsimp only [insert] at inserted
  split at inserted <;> try contradiction
  next restored =>
  split at inserted <;> try contradiction
  next fresh =>
  have accepted := (restoreRefreshRecord_ok restored).1
  exact ⟨checkRefreshRow_valid accepted, by simpa using fresh, (Except.ok.inj inserted).symm⟩

theorem insert_unused {err : Err} (refused : s.insert r = .error err) : err ≠ .reused ∧ err ≠ .concurrent := by
  unfold insert restoreRefreshRecord at refused
  grind

theorem ledger_insert (inserted : s.insert r = .ok t) :
    t.ledger = s.ledger.set (rowOf r).tokenHash { row := rowOf r } := by
  obtain ⟨-, -, rfl⟩ := insert_ok inserted
  refine Ledger.ext (funext fun h => ?_) rfl rfl
  simp only [ledger, Ledger.set, Map.lookup_insert_eq, Function.update_apply]

theorem Indexed.insert (indexed : s.Indexed) (inserted : s.insert r = .ok t) : t.Indexed := by
  obtain ⟨-, fresh, rfl⟩ := insert_ok inserted
  have unlisted : ∀ fk, (rowOf r).tokenHash ∉ s.hashesOf fk := by
    intro fk member
    obtain ⟨r', stored, -⟩ := indexed.listed.mp member
    rw [fresh] at stored
    cases stored
  refine ⟨fun {fk h} => ?_, fun fk => ?_, fun fk => ?_⟩
  · simp only [hashesOf, Map.lookup_insert_eq]
    -- Only the list of the new token's family grows, and only by its hash.
    by_cases own : fk = (rowOf r).key <;> by_cases new : h = (rowOf r).tokenHash
    · simp [own, new, Refresh.key]
    · subst own
      rw [if_pos rfl, if_neg new, ← indexed.listed]
      simp [new, hashesOf]
    · rw [if_neg own, if_pos new]
      have unlisted := unlisted fk
      rw [← new, hashesOf] at unlisted
      simp [unlisted, Refresh.key, Ne.symm own]
    · rw [if_neg own, if_neg new, ← indexed.listed, hashesOf]
  · simp only [hashesOf, Map.lookup_insert_eq]
    split
    · rw [Option.getD_some]
      refine List.nodup_append.mpr ⟨indexed.nodup _, by simp, ?_⟩
      rintro h member h' new rfl
      exact unlisted _ (List.mem_singleton.mp new ▸ member)
    · exact indexed.nodup fk
  · rw [Map.lookup_insert_eq]
    split
    · simp
    · exact indexed.occupied fk

variable {allowed : Event → Prop} {next : RefreshRecord}

theorem insert_refines (ok : allowed (.issued ⟨r.tenant, r.row.family⟩))
    (first : s.families.lookup ⟨r.tenant, r.row.family⟩ = none) (inserted : s.insert r = .ok t) :
    s.Refines allowed t := by
  have issued : allowed (.issued (rowOf r).key) := ok
  refine refines_event issued (fun indexed => indexed.insert inserted) fun indexed => ?_
  obtain ⟨valid, fresh, -⟩ := insert_ok inserted
  rw [ledger_insert inserted]
  exact .issue fresh (indexed.absent_iff.mp first) valid

theorem create_refines (r : RefreshRecord)
    (ok : allowed (.issued ⟨r.tenant, r.row.family⟩)) (s : Store) : s.Refines allowed (s.create r).1 := by
  unfold create
  split
  · exact .refl _ _
  · split
    · exact .refl _ _
    next first =>
      split
      · exact .refl _ _
      next inserted => exact insert_refines ok (by simpa using first) inserted

/-- What `consumeForRotation` can do: refuse, revoke the family of a replayed token,
or consume the head and store the next one. -/
theorem consumeForRotation_cases (s : Store) (clk : Time) (req : RotationRequest) :
    (∃ err, s.consumeForRotation clk req = (s, .error err) ∧ err ≠ .reused) ∨
    (∃ r, s.lookup req.next.tenant req.presented = some r ∧ r.consumedAt ≠ 0 ∧
      s.consumeForRotation clk req = (s.revoke r.key clk.truncate, .error .reused)) ∨
    (∃ r t, s.lookup req.next.tenant req.presented = some r ∧ replayable r clk.truncate = none ∧
      continues r.row req.next = true ∧ r.consumedAt = 0 ∧
      req.next.row.familyExpiresAt.truncate ≤ r.row.familyExpiresAt ∧ s.insert req.next = .ok t ∧
      s.consumeForRotation clk req =
        ({ t with tokens :=
            t.tokens.insert req.presented (r.consume clk.truncate req.next.row.clientFingerprint) },
          .ok ⟨r.row.family, clk.truncate⟩)) := by
  dsimp only [consumeForRotation]
  split
  · exact .inl ⟨_, rfl, nofun⟩
  cases found : s.lookup req.next.tenant req.presented with
  | none => exact .inl ⟨_, rfl, nofun⟩
  | some r =>
    dsimp only
    split
    next refused => exact .inl ⟨_, rfl, (replayable_unused refused).1⟩
    next replay =>
    split
    · exact .inl ⟨_, rfl, nofun⟩
    next continuing =>
    split
    next consumed =>
      split
      · exact .inl ⟨_, rfl, nofun⟩
      · exact .inr (.inl ⟨r, rfl, consumed, rfl⟩)
    next unconsumed =>
    split
    · exact .inl ⟨_, rfl, nofun⟩
    next within =>
    cases inserted : s.insert req.next with
    | error err => exact .inl ⟨_, rfl, (insert_unused inserted).1⟩
    | ok t => exact .inr (.inr ⟨r, t, rfl, replay, by simpa using continuing, not_not.mp unconsumed,
        not_lt.mp within, rfl, rfl⟩)

theorem ne_of_insert {r : Refresh} (stored : s.tokens.lookup h = some r) (inserted : s.insert next = .ok t) :
    h ≠ (rowOf next).tokenHash := Ledger.ne_of_fresh (l := s.ledger) stored (insert_ok inserted).2.1

theorem lookup_of_insert {r : Refresh} (stored : s.tokens.lookup h = some r) (inserted : s.insert next = .ok t) :
    t.tokens.lookup h = some r := by
  have other := ne_of_insert stored inserted
  obtain ⟨-, -, rfl⟩ := insert_ok inserted
  rw [Map.lookup_insert_eq, if_neg other, stored]

/-- The presented token is consumed in the store that already holds the next one. -/
theorem ledger_rotate {r : Refresh}
    (stored : s.tokens.lookup h = some r) (inserted : s.insert next = .ok t) (consumed : Refresh) :
    ({ t with tokens := t.tokens.insert h consumed } : Store).ledger =
      (s.ledger.set h consumed).set (rowOf next).tokenHash { row := rowOf next } := by
  have other := ne_of_insert stored inserted
  obtain ⟨-, -, rfl⟩ := insert_ok inserted
  refine Ledger.ext (funext fun h' => ?_) rfl rfl
  simp only [ledger, Ledger.set, Map.lookup_insert_eq, Function.update_apply]
  by_cases presented : h' = h <;> simp [presented, other]

theorem consumeForRotation_refines (revoked : ∀ fk, allowed (.revoked fk))
    {clk : Time} (rotated : allowed (.rotated clk.truncate)) (s : Store) (req : RotationRequest) :
    s.Refines allowed (s.consumeForRotation clk req).1 := by
  rcases s.consumeForRotation_cases clk req with
    ⟨err, result, -⟩ | ⟨r, -, -, result⟩ | ⟨r, t, found, replay, continuing, unconsumed, within, inserted, result⟩
  · rw [result]
    exact .refl _ _
  · rw [result]
    exact revoke_refines (revoked _) s _
  · rw [result]
    obtain ⟨stored, -⟩ := lookup_eq_some.mp found
    obtain ⟨valid, fresh, -⟩ := insert_ok inserted
    obtain ⟨subject, lineage, family⟩ := continues_iff.mp continuing
    refine refines_event rotated (fun indexed => ?_) fun _ => ?_
    · -- Consuming a token leaves its key, and so the index.
      refine (indexed.insert inserted).congr rfl fun h => ?_
      rw [Map.lookup_insert_eq]
      split
      next presented =>
        rw [presented, lookup_of_insert stored inserted]
        rfl
      next => rfl
    · rw [ledger_rotate stored inserted]
      exact .rotate clk.truncate stored unconsumed (replayable_eq_none.mp replay).1 fresh valid subject
        lineage family within

/-- Reissuing either refuses or starts the next family and revokes the old one, which was live. -/
theorem reissue_cases (s : Store) (clk : Time) (req : ReissueRequest) :
    (∃ err, s.reissue clk req = (s, .error err) ∧ err ≠ .reused) ∨
    (∃ t first rest, s.families.lookup ⟨req.next.tenant, req.next.row.family⟩ = none ∧
      s.familyRows ⟨req.next.tenant, req.family⟩ = first :: rest ∧ req.next.row.family ≠ req.family ∧
      (state first (first :: rest)).revoked = false ∧ first.row.subject = req.next.row.subject ∧
      first.row.lineage = req.next.row.lineage ∧ s.insert req.next = .ok t ∧
      s.reissue clk req = (t.revoke ⟨req.next.tenant, req.family⟩ clk.truncate, .ok ())) := by
  dsimp only [reissue]
  split
  · exact .inl ⟨_, rfl, nofun⟩
  cases s.familyRows ⟨req.next.tenant, req.family⟩ with
  | nil => exact .inl ⟨_, rfl, nofun⟩
  | cons first rest =>
    dsimp only
    split
    · exact .inl ⟨_, rfl, nofun⟩
    next apart =>
    split
    · exact .inl ⟨_, rfl, nofun⟩
    next free =>
    split
    · exact .inl ⟨_, rfl, nofun⟩
    split
    · exact .inl ⟨_, rfl, nofun⟩
    next same =>
    simp only [not_or, Bool.not_eq_true, not_not, (state_owner _ _).1, (state_owner _ _).2] at same
    obtain ⟨unrevoked, -, subject, lineage⟩ := same
    split
    · exact .inl ⟨_, rfl, nofun⟩
    cases inserted : s.insert req.next with
    | error err => exact .inl ⟨_, rfl, (insert_unused inserted).1⟩
    | ok t => exact .inr ⟨t, first, rest, by simpa using free, rfl, apart, unrevoked, subject, lineage, rfl, rfl⟩

theorem reissue_refines (req : ReissueRequest) (issued : allowed (.issued ⟨req.next.tenant, req.next.row.family⟩))
    (revoked : ∀ fk, allowed (.revoked fk)) (s : Store) (clk : Time) : s.Refines allowed (s.reissue clk req).1 := by
  rcases s.reissue_cases clk req with ⟨err, result, -⟩ | ⟨t, -, -, free, -, -, -, -, -, inserted, result⟩
  · rw [result]
    exact .refl _ _
  · rw [result]
    exact (insert_refines issued free inserted).trans (revoke_refines (revoked _) t _)

theorem dropKeys_refines (doomed : KeyRef → APIKey → Prop) [∀ ref k, Decidable (doomed ref k)]
    (keys : List (Sigma fun _ : KeyRef => APIKey)) (s : Store) :
    s.Refines allowed (keys.foldl (fun s k => if doomed k.1 k.2 then s.dropKey k.1 k.2.id else s) s) := by
  refine .foldl (fun s k => ?_) keys s
  split
  · exact .of_eq rfl rfl rfl rfl
  · exact .refl _ _

theorem eraseFamily_refines (revoked : ∀ fk, allowed (.revoked fk))
    (forgotten : ∀ fk, allowed (.forgotten fk)) (t : TenantID) (now : Time) (s : Store) (fk : FamilyKey) :
    s.Refines allowed (if fk.tenant = t then (s.revoke fk now).dropFamily fk else s) := by
  split
  · exact revoke_dropFamily_refines (revoked fk) (forgotten fk) s _
  · exact .refl _ _

theorem deleteForSubject_refines (revoked : ∀ fk, allowed (.revoked fk))
    (forgotten : ∀ fk, allowed (.forgotten fk)) (s : Store) (clk : Time) (sub : Subject) :
    s.Refines allowed (s.deleteForSubject clk sub) := by
  refine Refines.trans (.foldl (fun s fk => ?_) _ s) (dropKeys_refines (fun _ k => k.owner = sub) _ _)
  exact revoke_dropFamily_refines (revoked fk) (forgotten fk) s _

theorem eraseTenant_refines (revoked : ∀ fk, allowed (.revoked fk))
    (forgotten : ∀ fk, allowed (.forgotten fk)) (s : Store) (clk : Time) (t : TenantID)
    (order : List FamilyKey) : s.Refines allowed (s.eraseTenant clk t order) :=
  (Refines.foldl (eraseFamily_refines revoked forgotten t clk.truncate) order s).trans
    (dropKeys_refines (fun ref _ => ref.tenant = t) _ _)

theorem reapTokens_fst (s : Store) (now : Time) :
    (s.reapTokens now).1 =
      ((s.tokens.entries.filter fun e => e.2.expired now).map Sigma.fst).foldl dropToken s := by
  rw [List.foldl_map, List.foldl_filter]
  exact (List.foldl_hom Prod.fst fun acc e => by split <;> rfl).symm

theorem mem_expired {now : Time} : h ∈ (s.tokens.entries.filter fun e => e.2.expired now).map Sigma.fst ↔
      ∃ r, s.tokens.lookup h = some r ∧ r.expired now = true := by
  constructor
  · rintro member
    obtain ⟨⟨_, r⟩, kept, rfl⟩ := List.mem_map.mp member
    obtain ⟨entry, expired⟩ := List.mem_filter.mp kept
    exact ⟨r, Map.mem_entries.mp entry, expired⟩
  · rintro ⟨r, stored, expired⟩
    exact List.mem_map.mpr ⟨⟨h, r⟩, List.mem_filter.mpr ⟨Map.mem_entries.mpr stored, expired⟩, rfl⟩

theorem ledger_reapTokens (indexed : s.Indexed) (now : Time) : (s.reapTokens now).1.ledger =
      ⟨fun h => (s.tokens.lookup h).filter fun r => !r.expired now, s.feed, s.seq⟩ := by
  rw [reapTokens_fst, (foldl_dropToken _ indexed).2]
  refine Ledger.ext (funext fun h => ?_) rfl rfl
  simp only [mem_expired]
  cases stored : s.tokens.lookup h with
  | none => simp
  | some r => by_cases expired : r.expired now = true <;> simp [expired, Option.filter_some]

theorem reapKeys_frame (s : Store) (now : Time) :
    (s.reapKeys now).1.tokens = s.tokens ∧ (s.reapKeys now).1.families = s.families ∧
      (s.reapKeys now).1.feed = s.feed ∧ (s.reapKeys now).1.seq = s.seq := by
  refine List.foldlRecOn (motive := fun acc : Store × Nat => acc.1.tokens = s.tokens ∧
    acc.1.families = s.families ∧ acc.1.feed = s.feed ∧ acc.1.seq = s.seq)
    s.keys.entries _ ⟨rfl, rfl, rfl, rfl⟩ fun acc kept e _ => ?_
  split
  · exact kept
  · exact kept

theorem reapExpired_refines {clk : Time} (ok : allowed (.expired clk.truncate))
    (s : Store) : s.Refines allowed (s.reapExpired clk).1 := by
  obtain ⟨tokens, families, feed, seq⟩ := reapKeys_frame (s.reapTokens clk.truncate).1 clk.truncate
  refine refines_event ok (fun indexed => ?_) fun indexed => ?_
  · have dropped : (s.reapTokens clk.truncate).1.Indexed := by
      rw [reapTokens_fst]
      exact (foldl_dropToken _ indexed).1
    exact dropped.congr families fun h => by rw [← tokens]; rfl
  · have contents := ledger_reapTokens indexed clk.truncate
    have reaped : (s.reapExpired clk).1.ledger =
        { s.ledger with
          tokens := fun h => (s.ledger.tokens h).filter fun r => !r.expired clk.truncate
          feed := s.ledger.feed.filter fun a => decide (clk.truncate < a.expires) } := by
      refine Ledger.ext (funext fun h => ?_) ?_ ?_
      · exact (congrArg (AList.lookup h) tokens).trans (congrFun (congrArg Ledger.tokens contents) h)
      · exact congrArg (List.filter _) (feed.trans (congrArg Ledger.feed contents))
      · exact seq.trans (congrArg Ledger.seq contents)
    rw [reaped]
    exact .expire clk.truncate

theorem createAPIKey_refines (s : Store) (k : APIKey) : s.Refines allowed (s.createAPIKey k).1 := by
  dsimp only [createAPIKey]
  repeat' split
  all_goals exact .of_eq rfl rfl rfl rfl

theorem revokeAPIKey_refines (s : Store) (clk : Time) (owner : Subject)
    (id : UUID) : s.Refines allowed (s.revokeAPIKey clk owner id).1 := by
  dsimp only [revokeAPIKey]
  repeat' split
  all_goals exact .of_eq rfl rfl rfl rfl

end Store

def Op.Removes : Op → Prop
  | .deleteForSubject _ | .eraseTenant _ _ => True
  | _ => False

def Op.starts : Op → Option FamilyKey
  | .create r => some ⟨r.tenant, r.row.family⟩
  | .reissue req => some ⟨req.next.tenant, req.next.row.family⟩
  | _ => none

/-- The events a call can cause. Only the reaper lets tokens expire, at its own
reading of the clock, and it does nothing else. -/
def Call.Allows (call : Call) : Event → Prop
  | .issued fk => call.op.starts = some fk
  | .rotated now => (∃ req, call.op = .consumeForRotation req) ∧ now = call.clk.truncate
  | .revoked _ => call.op ≠ .reapExpired
  | .forgotten _ => call.op.Removes
  | .expired now => call.op = .reapExpired ∧ now = call.clk.truncate

theorem Store.apply_refines (s : Store) (call : Call) : s.Refines call.Allows (s.apply call) := by
  obtain ⟨clk, op⟩ := call
  cases op with
  | create r => exact create_refines r (by rfl) s
  | consumeForRotation req => exact consumeForRotation_refines (fun _ => nofun) ⟨⟨req, rfl⟩, rfl⟩ s req
  | reissue req => exact reissue_refines req (by rfl) (fun _ => nofun) s clk
  | revokeFamily t family => exact revoke_refines nofun s _
  | revokeForSubject sub exceptLineage => exact .foldl (fun s fk => revoke_refines nofun s _) _ s
  | deleteForSubject sub => exact deleteForSubject_refines (fun _ => nofun) (fun _ => trivial) s clk sub
  | eraseTenant t order => exact eraseTenant_refines (fun _ => nofun) (fun _ => trivial) s clk t order
  | reapExpired => exact reapExpired_refines ⟨rfl, rfl⟩ s
  | createAPIKey k => exact createAPIKey_refines s k
  | revokeAPIKey owner id => exact revokeAPIKey_refines s clk owner id

/-- A property of the ledger that every allowed event keeps, a call keeps. -/
theorem Store.Indexed.apply_invariant {s : Store} (indexed : s.Indexed) (call : Call) (kept : Ledger → Prop)
    (keep : ∀ {l event m}, kept l → call.Allows event → Ledger.Step l event m → kept m)
    (start : kept s.ledger) : kept (s.apply call).ledger := by
  obtain ⟨-, events, run, allowed⟩ := s.apply_refines call indexed
  refine (run.restrict fun _ event => allowed event).invariant kept ?_ start
  exact fun ok ⟨permitted, step⟩ => keep ok permitted step

/-- An indexed store whose families are coherent. -/
structure Store.Sound (s : Store) : Prop where
  indexed : s.Indexed
  coherent : s.ledger.Coherent

theorem Store.Sound.new : Store.Sound .new := ⟨.new, Ledger.coherent_empty⟩

theorem Store.Sound.apply {s : Store} (sound : s.Sound) (call : Call) : (s.apply call).Sound := by
  refine ⟨(s.apply_refines call sound.indexed).1, ?_⟩
  exact sound.indexed.apply_invariant call Ledger.Coherent (fun ok _ step => ok.step step) sound.coherent

end Egauth.Tokens
