import Egauth.Jwt.Minted
import Egauth.Semantics.Discipline
import Egauth.Tokens.Rows

/-! No chain of renewals outlives the admission.

Every token and every record is made from attributes that descend from an
admission, and no step of a session moves `CreatedAt`. The attributes come back
to the backend in two ways only: in a record that the store kept, and in a token
that the backend signed.
-/

set_option autoImplicit false

namespace Egauth.Jwt
open Egauth.Core Prog

/-- Attributes of some history; those of the lineage date from its admission. -/
structure Descends (lineage : UUID) (createdAt : Time) (a : SessionAttrs) : Prop where
  history : ∃ origin events, Lineage.Inv origin events a
  dated : a.lineage = lineage → a.createdAt = createdAt

section
variable {lineage : UUID} {createdAt : Time} {a a' : SessionAttrs}

theorem Descends.formed (descends : Descends lineage createdAt a) : a.Formed := by
  obtain ⟨origin, events, inv⟩ := descends.history
  exact inv.formed

theorem Descends.step (descends : Descends lineage createdAt a) {e : Lineage.Event} (step : Lineage.Step a e a') :
    Descends lineage createdAt a' ∧ a'.lineage = a.lineage ∧ a'.createdAt = a.createdAt := by
  obtain ⟨origin, events, inv⟩ := descends.history
  have fixed := (step.carries inv.formed).fixed
  have same : a'.lineage = a.lineage := congrArg Lineage.Fixed.lineage fixed
  have date : a'.createdAt = a.createdAt := congrArg Lineage.Fixed.createdAt fixed
  refine ⟨⟨⟨origin, _, inv.step step⟩, fun own => ?_⟩, same, date⟩
  rw [date]
  exact descends.dated (same ▸ own)

theorem Descends.unsealed (descends : Descends lineage createdAt a) {stored : Sealed} (sealing : sealAttrs a = .ok stored)
    (opened : unsealAttrs stored = .ok a') : a' = a := by
  rw [unsealAttrs_sealAttrs descends.formed sealing] at opened
  exact (Except.ok.inj opened).symm

end

section
variable (b : Backend) (lineage : UUID) (createdAt : Time)

/-- A row that seals attributes, and ends with their admission; the store cuts its instants. -/
def Bounded (cut : Time → Time) (row : Tokens.RefreshRow) : Prop :=
  ∃ a, Descends lineage createdAt a ∧ sealAttrs a = .ok row.sealedAttrs ∧ row.lineage = a.lineage ∧
    row.idleExpiresAt ≤ row.familyExpiresAt ∧ row.familyExpiresAt = cut (a.createdAt + b.life.maxLifetime)

def SignedWithin (input : Bytes) : Prop :=
  ∃ h cs a stored, input = signingInput b.lib h cs ∧ cs.WellFormed b.lib ∧ cs.att = Base64.encode stored.bytes ∧
    sealAttrs a = .ok stored ∧ Descends lineage createdAt a ∧
    (cs.exp - cs.iat) * Duration.second ≤ b.life.recheckEvery ∧ ofUnix cs.exp ≤ a.createdAt + b.life.maxLifetime

/-- The note of a request: whether it has seen the clock before the end of the lineage. -/
def bounds : Discipline Call Reply Bool where
  track early c r :=
    match c, r with
    | .now, t => early || decide (t < createdAt + b.life.maxLifetime)
    | _, _ => early
  learns _ c r :=
    match c, r with
    | .get .., r => ∀ record, r = .ok record → Bounded b lineage createdAt Time.truncate record.row
    | .verifySignature _ s, r => r = .ok () → SignedWithin b lineage createdAt s.input
    | _, _ => True
  allows _ c :=
    match c with
    | .create r => Bounded b lineage createdAt id r.row
    | .consumeForRotation req => Bounded b lineage createdAt id req.next.row
    | .reissue req => Bounded b lineage createdAt id req.next.row
    | .sign _ input => SignedWithin b lineage createdAt input
    | _ => True

end

def Call.free : Call → Bool
  | .create _ | .consumeForRotation _ | .reissue _ | .sign _ _ => false
  | _ => true

section
variable {b : Backend} {lineage : UUID} {createdAt : Time} {g : Bool} {A B : Type}

theorem bounds_free {c : Call} (free : c.free = true) : (bounds b lineage createdAt).allows g c := by
  cases c with
  | create r => cases free
  | consumeForRotation req => cases free
  | reissue req => cases free
  | sign k input => cases free
  | _ => trivial

theorem early_stable (g : Bool) (c : Call) (r : Reply c) (early : g = true) :
    (bounds b lineage createdAt).track g c r = true := by
  subst early
  cases c <;> rfl

theorem yields_free {p : Program A} {post : A → Prop}
    (made : Only (fun c => c.free = true) p fun result => ∀ a, result = .ok a → post a) :
    Yields (bounds b lineage createdAt) g p fun _ a => post a := by
  refine (made.obeys (d := bounds b lineage createdAt) (fun _ => True) trivial ?_).mono ?_
  · exact fun _ _ _ free => ⟨bounds_free free, fun _ _ => trivial⟩
  · exact fun _ _ ends => ends.2

theorem yields_idle {p : Program A} (made : Only (fun c => c.free = true) p fun _ => True) :
    Yields (bounds b lineage createdAt) g p fun _ _ => True :=
  yields_free (made.mono fun _ _ _ _ => trivial)

theorem only_demand {P : Call → Prop} {x : Except Failure A} {post : Except Failure A → Prop} :
    Only P (demand x) post ↔ post x := by
  cases x <;> exact Iff.rfl

theorem only_then_demand {P : Call → Prop} {x : Except Failure A} {f : A → Program B} {post : Except Failure B → Prop}
    (onward : ∀ a, x = .ok a → Only P (f a) post) (failed : ∀ err, x = .error err → post (.error err)) :
    Only P (demand x >>= f) post := by
  cases x with
  | ok a => exact onward a rfl
  | error err => exact failed err rfl

end

section
variable {b : Backend}

theorem free_newRefresh {lib : Library} {t : TenantID} :
    Only (fun c => c.free = true) (newRefresh lib t) fun _ => True :=
  only_perform.mpr ⟨rfl, fun _ => only_then_demand (fun _ _ => trivial) fun _ _ => trivial⟩

theorem free_signer (t : TenantID) (wrap : Failure → Failure) :
    Only (fun c => c.free = true) ((ask (.signer t) >>= demand).refail wrap) fun _ => True :=
  only_refail.mpr (only_perform.mpr ⟨rfl, fun _ => only_demand.mpr trivial⟩)

theorem free_write {a : SessionAttrs} {access refresh : Bytes} {record : Tokens.RefreshRecord} :
    Only (fun c => c.free = true) (write a access refresh record) fun _ => True := by
  unfold write
  split
  · refine only_perform.mpr ⟨rfl, fun _ => ?_⟩
    refine Only.then (only_perform.mpr ⟨rfl, fun _ => only_demand.mpr trivial⟩) fun _ => ?_
    exact only_perform.mpr ⟨rfl, fun _ => only_demand.mpr trivial⟩
  · exact only_perform.mpr ⟨rfl, fun _ => trivial⟩
  · trivial

variable {s : Subject}

theorem free_fetchClaims {lib : Library} :
    Only (fun c => c.free = true) (fetchClaims lib s) fun _ => True := by
  refine only_perform.mpr ⟨rfl, fun reply => ?_⟩
  cases fetched lib reply with
  | claims c => trivial
  | unknown err => trivial
  | tooLarge err => exact only_perform.mpr ⟨rfl, fun _ => trivial⟩
  | failed err => exact only_perform.mpr ⟨rfl, fun _ => trivial⟩

theorem free_revokeUnknown {family : UUID} {cause : Failure} :
    Only (fun c => c.free = true) (revokeUnknown s family cause) fun _ => True := by
  refine Only.then (only_refail.mpr (only_perform.mpr ⟨rfl, fun _ => only_demand.mpr trivial⟩)) fun _ => ?_
  exact only_perform.mpr ⟨rfl, fun _ => trivial⟩

theorem free_renewFailed {family : UUID} {err : Failure} :
    Only (fun c => c.free = true) (renewFailed s family err) fun _ => True := by
  unfold renewFailed
  split
  · exact free_revokeUnknown
  · split <;> trivial

theorem free_rotationFailed {err : Failure} {post : Resumed → Prop} :
    Only (fun c => c.free = true) (rotationFailed s err) fun result => ∀ res, result = .ok res → post res := by
  unfold rotationFailed
  split
  · exact only_perform.mpr ⟨rfl, fun _ => only_fail.mpr fun _ impossible => nomatch impossible⟩
  · split <;> exact only_fail.mpr fun _ impossible => nomatch impossible

theorem free_renewSession {a : SessionAttrs} {current : Bytes} :
    Only (fun c => c.free = true) (renewSession b a current) fun result =>
      ∀ renewed, result = .ok renewed → ∃ e, Lineage.Step a e renewed.1 := by
  unfold renewSession
  split
  · exact nofun
  have account : Only (fun c => c.free = true) ((ask (.accountState a.subject) >>= demand).refail
      (.text "session: account state" :: ·)) fun result => ∀ st, result = .ok st → True :=
    only_refail.mpr (only_perform.mpr ⟨rfl, fun _ => only_demand.mpr fun _ _ => trivial⟩)
  have decision : Only (fun c => c.free = true) ((ask (.mfaDecision a.subject) >>= demand).refail
      (.text "session: MFA decision" :: ·)) fun result => ∀ mfa, result = .ok mfa → True :=
    only_refail.mpr (only_perform.mpr ⟨rfl, fun _ => only_demand.mpr fun _ _ => trivial⟩)
  refine account.bindOk fun st _ => decision.bindOk fun mfa _ => ?_
  refine only_perform.mpr ⟨rfl, fun now => only_perform.mpr ⟨rfl, fun reply => ?_⟩⟩
  dsimp only
  split
  · exact only_perform.mpr ⟨rfl, fun _ => nofun⟩
  · exact only_perform.mpr ⟨rfl, fun _ => nofun⟩
  · exact nofun
  next n renewed =>
    have step : Lineage.Step a (.renewed st mfa (some (renewalClaims b.life.recheckEvery a current now
        (fetched b.lib reply)).1) now) n := renewed
    split
    · refine only_perform.mpr ⟨rfl, fun _ => ?_⟩
      rintro _ ⟨⟩
      exact ⟨_, step⟩
    · rintro _ ⟨⟩
      exact ⟨_, step⟩

end

section
variable {b : Backend} {lineage : UUID} {createdAt : Time} {g : Bool} {a : SessionAttrs} {tenant : TenantID}

theorem truncateSecond_le {d : Duration} (positive : 0 < truncateSecond d) : truncateSecond d ≤ d ∧ 0 < d := by
  unfold truncateSecond Duration.second at *
  rcases lt_or_ge 0 d with above | below
  · have rest := Int.tmod_nonneg 1000000000 above.le
    lia
  · -- The remainder of a negative Duration is negative, and no greater than it.
    have rest := Int.neg_tmod d 1000000000
    rw [Int.tmod_eq_emod_of_nonneg (by lia)] at rest
    lia

/-- A difference that is not negative may have been cut, but not raised. -/
theorem sub_le_of_pos {t u : Time} (positive : 0 < t.sub u) : t.sub u ≤ t - u := by
  change 0 < max (-9223372036854775808) (min 9223372036854775807 (t - u)) at positive
  change max (-9223372036854775808) (min 9223372036854775807 (t - u)) ≤ t - u
  lia

theorem tokenLifetime_ok {now : Time} {limit life : Duration} (ok : tokenLifetime b a now limit = .ok life) :
    life ≤ limit ∧ now + life ≤ a.createdAt + b.life.maxLifetime := by
  unfold tokenLifetime at ok
  dsimp only at ok
  split at ok
  · cases ok
  next lasting =>
    cases ok
    have positive : 0 < truncateSecond ((absoluteEnd b a).sub now) := by
      unfold Duration.second at lasting
      lia
    obtain ⟨cut, above⟩ := truncateSecond_le positive
    have exact := sub_le_of_pos above
    unfold absoluteEnd at cut exact
    refine ⟨min_le_right _ _, ?_⟩
    have least := min_le_left (truncateSecond ((a.createdAt + b.life.maxLifetime).sub now)) limit
    unfold absoluteEnd
    lia

variable {record : Tokens.RefreshRecord}

theorem newRefreshRecord_ok {spec : RefreshSpec} (ok : newRefreshRecord spec = .ok record)
    (descends : Descends lineage createdAt spec.attrs) (life : spec.maxLifetime = b.life.maxLifetime) :
    Bounded b lineage createdAt id record.row := by
  simp only [newRefreshRecord, ite_error_eq_ok] at ok
  obtain ⟨-, -, -, -, ok⟩ := ok
  split at ok
  · cases ok
  next stored sealing =>
    obtain ⟨accepted, same⟩ := Tokens.restoreRefreshRecord_ok (mapError_eq_ok.mp ok)
    have order := (Tokens.checkRefreshRow_valid accepted).idle
    rw [← same] at order
    refine ⟨spec.attrs, descends, ?_, ?_, order, ?_⟩
    · rw [same]
      exact sealing
    · rw [same]
    · rw [same, ← life]
      rfl

theorem Bounded.stored {r : Tokens.RefreshRecord} (bounded : Bounded b lineage createdAt id r.row) :
    Bounded b lineage createdAt Time.truncate (Tokens.rowOf r) := by
  obtain ⟨a, descends, sealing, own, order, ends⟩ := bounded
  refine ⟨a, descends, sealing, own, Time.truncate_mono order, ?_⟩
  change r.row.familyExpiresAt.truncate = _
  rw [ends]
  rfl

section
variable (exact : b.lib.Exact) (texts : b.codec.Texts) (audiences : ∀ audience ∈ b.audiences, Text audience)
include exact texts

theorem yields_encode {k : Key} {m : Mint} (descends : Descends lineage createdAt m.attrs) (audience : Text m.audience)
    (within : m.issuedAt + m.lifetime ≤ m.attrs.createdAt + b.life.maxLifetime) :
    Yields (bounds b lineage createdAt) g (encode b k m) fun _ _ => True := by
  refine yields_ofExcept fun ⟨cs, token⟩ ok => ?_
  obtain ⟨iss, claims, stored, encodes, rfl, rfl⟩ := claimSet_ok ok
  have whole : m.lifetime / Duration.second * Duration.second ≤ m.lifetime := Int.ediv_mul_le _ (by decide)
  have signed : SignedWithin b lineage createdAt
      (signingInput b.lib ⟨k.alg.name, k.kid, tokenType⟩ (m.set b.codec iss claims stored)) := by
    refine ⟨_, _, m.attrs, stored, rfl, encodes.wellFormed exact texts audience, rfl, encodes.stored, descends, ?_, ?_⟩
    · have most := encodes.most
      rw [b.agrees] at most
      have lasts : (m.set b.codec iss claims stored).exp - (m.set b.codec iss claims stored).iat =
          m.lifetime / Duration.second := by
        simp [Mint.set, Mint.exp]
      rw [lasts]
      lia
    · have before := ofUnix_unix_le m.issuedAt
      have ends : ofUnix (m.set b.codec iss claims stored).exp =
          ofUnix (unix m.issuedAt) + m.lifetime / Duration.second * Duration.second := by
        simp only [Mint.set, Mint.exp, Mint.iat, ofUnix]
        ring
      rw [ends]
      lia
  have signing : Yields (bounds b lineage createdAt) g (ask (.sign k (signingInput b.lib ⟨k.alg.name, k.kid, tokenType⟩
      (m.set b.codec iss claims stored))) >>= demand) fun _ _ => True :=
    yields_perform.mpr ⟨signed, fun _ _ => yields_reply fun _ _ => trivial⟩
  exact signing.then fun _ _ => yields_ret.mpr trivial

omit exact texts in
theorem yields_record {spec : RefreshSpec} (descends : Descends lineage createdAt spec.attrs)
    (life : spec.maxLifetime = b.life.maxLifetime) (wrap : Failure → Failure) :
    Yields (bounds b lineage createdAt) g ((demand (newRefreshRecord spec)).refail wrap) fun _ record =>
      Bounded b lineage createdAt id record.row :=
  yields_refail.mpr (yields_reply fun _ ok => newRefreshRecord_ok ok descends life)

theorem yields_prepare {i : Issue} (descends : Descends lineage createdAt i.attrs) :
    Yields (bounds b lineage createdAt) g (prepare b i) fun _ out => Bounded b lineage createdAt id out.record.row := by
  refine yields_ofExcept fun life lasts => ?_
  obtain ⟨-, within⟩ := tokenLifetime_ok lasts
  refine (yields_idle free_newRefresh).then fun _ refreshed => ?_
  refine (yields_record descends rfl recordFailure).bind fun _ record bounded => ?_
  refine (yields_idle (free_signer _ _)).then fun _ k => ?_
  refine (yields_encode exact texts descends ⟨[], rfl⟩ within).then fun _ minted => ?_
  dsimp only
  split
  · exact yields_perform.mpr ⟨trivial, fun _ _ => yields_fail⟩
  · exact yields_ret.mpr bounded

theorem yields_start {a : SessionAttrs} (descends : Descends lineage createdAt a) (c : Bytes) :
    Yields (bounds b lineage createdAt) g (start b a c) fun _ _ => True := by
  refine yields_ofExcept fun _ _ => ?_
  cases compactClaims b.lib c with
  | error err =>
    cases err with
    | malformed => exact yields_fail
    | tooLarge n => exact yields_perform.mpr ⟨trivial, fun _ _ => yields_fail⟩
  | ok claims =>
    refine yields_perform.mpr ⟨trivial, fun family _ => yields_perform.mpr ⟨trivial, fun now _ => ?_⟩⟩
    refine (yields_prepare exact texts descends).bind fun _ out bounded => ?_
    refine Yields.then ?_ fun _ _ => yields_idle free_write
    exact yields_refail.mpr (yields_perform.mpr ⟨bounded, fun _ _ => yields_reply fun _ _ => trivial⟩)

theorem yields_reissue {cur : Handle} {a : SessionAttrs} (descends : Descends lineage createdAt a) :
    Yields (bounds b lineage createdAt) g (reissue b cur a) fun _ _ => True := by
  refine yields_ofExcept fun _ _ => ?_
  split
  · exact yields_fail
  refine (yields_idle (only_attempt.mpr free_fetchClaims)).then fun _ fetched => ?_
  cases fetched with
  | error err =>
    dsimp only
    split
    · exact yields_idle free_revokeUnknown
    · exact yields_fail
  | ok claims =>
    refine yields_perform.mpr ⟨trivial, fun family _ => yields_perform.mpr ⟨trivial, fun now _ => ?_⟩⟩
    refine (yields_refail.mpr (yields_prepare exact texts descends)).bind fun _ out bounded => ?_
    refine Yields.then ?_ fun _ _ => yields_idle free_write
    exact yields_refail.mpr (yields_perform.mpr ⟨bounded, fun _ _ => yields_reply fun _ _ => trivial⟩)

end

/-- A token that was signed here carries attributes that descend from an admission. -/
theorem yields_verify (exact : b.lib.Exact) {raw audience : Bytes} {want : Option TenantID} :
    Yields (bounds b lineage createdAt) g (verify b raw audience want) fun _ result =>
      Descends lineage createdAt result.1.attrs := by
  refine yields_ofExcept fun parts parsed => yields_ofExcept fun tenant _ => ?_
  split
  · exact yields_fail
  refine yields_perform.mpr ⟨trivial, fun now _ => yields_ofExcept fun result checked => ?_⟩
  have looked (g : Bool) : Yields (bounds b lineage createdAt) g ((ask (.verifier tenant parts.header.kid) >>=
      demand).refail verifierFailure) fun _ _ => True :=
    yields_refail.mpr (yields_perform.mpr ⟨trivial, fun _ _ => yields_reply fun _ _ => trivial⟩)
  refine (looked _).then fun _ k => ?_
  have verified (g : Bool) : Yields (bounds b lineage createdAt) g ((ask (.verifySignature k
      ⟨parts.header.alg, parts.header.kid, parts.input, parts.signature⟩) >>= demand).refail (.invalidToken :: ·))
      fun _ _ => SignedWithin b lineage createdAt parts.input := by
    refine yields_refail.mpr (yields_perform.mpr ⟨trivial, fun reply learned => yields_reply fun _ ok => ?_⟩)
    exact learned ok
  refine (verified _).bind fun _ _ signed => yields_ret.mpr ?_
  obtain ⟨h, cs, a, stored, input, wellFormed, att, sealing, descends, -⟩ := signed
  obtain ⟨bytes, decoded, opened⟩ := check_attrs checked
  rw [parseToken_claims exact wellFormed parsed input, att, Base64.decode_encode] at decoded
  cases decoded
  rw [descends.unsealed sealing opened]
  exact descends

theorem yields_load {refresh : Bytes} :
    Yields (bounds b lineage createdAt) g (load b refresh) fun _ loaded => Descends lineage createdAt loaded.2.1 := by
  refine yields_ofExcept fun parsed _ => ?_
  have got (g : Bool) : Yields (bounds b lineage createdAt) g ((ask (.get parsed.1 parsed.2) >>= demand).refail getFailure)
      fun _ record => Bounded b lineage createdAt Time.truncate record.row := by
    refine yields_refail.mpr (yields_perform.mpr ⟨trivial, fun reply learned => yields_reply fun record ok => ?_⟩)
    exact learned record ok
  refine (got _).bind fun _ record bounded => yields_ofExcept fun a opened => ?_
  split
  · exact yields_fail
  · obtain ⟨a', descends, sealing, -⟩ := bounded
    have same := descends.unsealed sealing (mapError_eq_ok.mp opened)
    exact yields_ret.mpr (same ▸ descends)

/-- The clock was before the end of the lineage, where the attributes are of it. -/
def Early (lineage : UUID) (a : SessionAttrs) (early : Bool) : Prop := a.lineage = lineage → early = true

theorem Early.stable (g : Bool) (c : Call) (r : Reply c) (early : Early lineage a g) :
    Early lineage a ((bounds b lineage createdAt).track g c r) := fun own => early_stable g c r (early own)

theorem Descends.early (descends : Descends lineage createdAt a) {now : Time} (before : now < absoluteEnd b a) :
    Early lineage a ((bounds b lineage createdAt).track g .now now) := by
  intro own
  have soon : now < createdAt + b.life.maxLifetime := by
    rw [← descends.dated own]
    exact before
  simp [bounds, soon]

variable {claims : Bytes}

theorem resumed_ok {family : UUID} {res : Resumed} (ok : resumed a claims family = .ok res) :
    res.attrs = a := by
  obtain ⟨-, ok⟩ := ite_error_eq_ok.mp ok
  cases ok
  rfl

theorem yields_resumeLive (descends : Descends lineage createdAt a) {family : UUID} :
    Yields (bounds b lineage createdAt) g (resumeLive b family a claims) fun g res =>
      Early lineage a g ∧ res.attrs = a := by
  refine yields_perform.mpr ⟨trivial, fun now _ => ?_⟩
  split
  · exact yields_fail
  next before =>
    have live : Only (fun c => c.free = true) ((ask (.live a.subject family a.lineage) >>= demand).refail classifyRevoke)
        fun _ => True := only_refail.mpr (only_perform.mpr ⟨rfl, fun _ => only_demand.mpr trivial⟩)
    have epoch : Only (fun c => c.free = true) ((ask (.checkEpoch a.subject a.epoch) >>= demand).refail classifyRevoke)
        fun _ => True := only_refail.mpr (only_perform.mpr ⟨rfl, fun _ => only_demand.mpr trivial⟩)
    refine Yields.stable ?_ Early.stable (descends.early (not_not.mp before))
    refine (yields_idle live).then fun _ _ => (yields_idle epoch).then fun _ _ => ?_
    exact yields_reply fun res ok => resumed_ok ok

/-- What follows a look at the clock only has to keep the lineage. -/
theorem yields_early {p : Program Resumed} (early : Early lineage a g)
    (kept : Yields (bounds b lineage createdAt) g p fun _ res =>
      Descends lineage createdAt res.attrs ∧ res.attrs.lineage = a.lineage) :
    Yields (bounds b lineage createdAt) g p fun g res =>
      Descends lineage createdAt res.attrs ∧ Early lineage res.attrs g := by
  refine (kept.stable Early.stable early).mono fun g res met => ⟨met.2.1, fun own => met.1 ?_⟩
  rw [← met.2.2]
  exact own

theorem yields_rotate {s : Subject} {hash : Bytes} {prior : Option Token}
    {renewed : SessionAttrs} {out : Issued} (descends : Descends lineage createdAt renewed)
    (bounded : Bounded b lineage createdAt id out.record.row) :
    Yields (bounds b lineage createdAt) g (rotate b s record hash prior renewed claims out) fun _ res =>
      res.attrs = renewed := by
  refine yields_perform.mpr ⟨bounded, fun rotation _ => ?_⟩
  cases rotation with
  | error err =>
    dsimp only
    split
    · split
      · exact (yields_resumeLive descends).mono fun _ _ met => met.2
      · exact yields_fail
    · exact yields_free free_rotationFailed
  | ok rotated =>
    refine (yields_idle free_write).then fun _ _ => ?_
    exact yields_reply fun res ok => resumed_ok ok

variable {p : Presented}

theorem yields_renew (exact : b.lib.Exact) (texts : b.codec.Texts) {fp : Bytes}
    {prior : Option Token} : Yields (bounds b lineage createdAt) g (renew b fp p prior tenant) fun g res =>
      Descends lineage createdAt res.attrs ∧ Early lineage res.attrs g := by
  refine yields_load.bind fun _ loaded descends => ?_
  obtain ⟨record, a, hash⟩ := loaded
  dsimp only at descends ⊢
  split
  · exact yields_fail
  split
  · exact yields_fail
  split
  · exact yields_fail
  refine yields_perform.mpr ⟨trivial, fun now _ => ?_⟩
  split
  · exact yields_fail
  next before =>
    refine yields_early (descends.early (not_not.mp before)) ?_
    have renewal (g : Bool) : Yields (bounds b lineage createdAt) g (renewSession b a record.row.appClaims).attempt
        fun _ outcome => ∀ renewed, outcome = .ok renewed → ∃ e, Lineage.Step a e renewed.1 := by
      refine yields_free (only_attempt.mpr (free_renewSession.mono fun result steps outcome same => ?_))
      cases same
      exact steps
    refine (renewal _).bind fun _ outcome steps => ?_
    cases outcome with
    | error err => exact (yields_idle free_renewFailed).then fun _ _ => yields_fail
    | ok result =>
      obtain ⟨renewed, claims⟩ := result
      obtain ⟨e, step⟩ := steps _ rfl
      obtain ⟨descends', own, -⟩ := descends.step step
      refine (yields_refail.mpr (yields_prepare exact texts descends')).bind fun _ out bounded => ?_
      refine (yields_rotate descends' bounded).mono fun _ res same => ?_
      rw [same]
      exact ⟨descends', own⟩

def Access.Known (lineage : UUID) (createdAt : Time) : Access → Prop
  | .live token => Descends lineage createdAt token.attrs
  | .renewal _ => True

theorem yields_readAccess (exact : b.lib.Exact) :
    Yields (bounds b lineage createdAt) g (readAccess b p tenant) fun _ access => access.Known lineage createdAt := by
  unfold readAccess
  split
  · exact yields_ret.mpr trivial
  have verified (g : Bool) : Yields (bounds b lineage createdAt) g (verify b p.access [] (some tenant)).attempt
      fun _ outcome => ∀ result, outcome = .ok result → Descends lineage createdAt result.1.attrs := by
    refine obeys_attempt.mpr (Obeys.mono (yields_verify exact) fun _ result met outcome same => ?_)
    cases same
    exact met
  refine (verified _).bind fun _ outcome met => ?_
  cases outcome with
  | error err =>
    dsimp only
    split
    · exact yields_fail
    split
    · exact yields_fail
    split
    · exact yields_fail
    · exact yields_ret.mpr trivial
  | ok result =>
    obtain ⟨token, expired⟩ := result
    dsimp only
    split
    · exact yields_fail
    split
    · exact yields_fail
    · refine yields_ret.mpr ?_
      cases expired with
      | false => exact met _ rfl
      | true => trivial

/-- Whatever is resumed descends from an admission, and the clock was seen before its end. -/
theorem yields_resume (exact : b.lib.Exact) (texts : b.codec.Texts) {fp : Bytes} :
    Yields (bounds b lineage createdAt) g (resume b fp p tenant) fun g res =>
      Descends lineage createdAt res.attrs ∧ Early lineage res.attrs g := by
  unfold resume
  split
  · exact yields_fail
  split
  · exact yields_fail
  refine (yields_readAccess exact).bind fun _ access known => ?_
  cases access with
  | live token =>
    refine (yields_resumeLive known).mono fun g res met => ?_
    rw [met.2]
    exact ⟨known, met.1⟩
  | renewal prior =>
    dsimp only
    split
    · exact yields_fail
    · exact yields_renew exact texts

theorem yields_mintResource (exact : b.lib.Exact) (texts : b.codec.Texts)
    (audiences : ∀ audience ∈ b.audiences, Text audience) {res : Resumed} (descends : Descends lineage createdAt res.attrs)
    {audience : Bytes} {lifetime : Duration} :
    Yields (bounds b lineage createdAt) g (mintResource b res audience lifetime) fun _ _ => True := by
  unfold mintResource
  dsimp only
  split
  · exact yields_fail
  split
  · exact yields_fail
  refine yields_ofExcept fun iss _ => ?_
  split
  · exact yields_fail
  next listed =>
    refine Yields.then ((yields_resumeLive descends).mono fun _ _ _ => trivial) fun _ _ => ?_
    refine yields_perform.mpr ⟨trivial, fun now _ => yields_ofExcept fun life lasts => ?_⟩
    refine (yields_idle (free_signer _ _)).then fun _ k => ?_
    have text := audiences audience (not_not.mp (not_or.mp listed).2)
    refine (yields_encode (m := ⟨audience, res.handle.id, now, life, res.attrs, res.claims⟩) exact texts descends text
      (tokenLifetime_ok lasts).2).then fun _ _ => ?_
    exact yields_ret.mpr trivial

theorem Transition.step {t : Transition} {a' : SessionAttrs} (ok : t.apply a = .ok a') : Lineage.Step a t.event a' := by
  cases t <;> exact ok

/-- What the requests of a deployment do; a lineage is admitted at one instant. -/
theorem yields_request (exact : b.lib.Exact) (texts : b.codec.Texts)
    (audiences : ∀ audience ∈ b.audiences, Text audience) {request : Request}
    (admission : ∀ origin st mfa now claims, request = .start origin st mfa now lineage claims → now = createdAt) :
    Yields (bounds b lineage createdAt) false (request.program b) fun g outcome =>
      ∀ res, outcome = some res → res.attrs.lineage = lineage → g = true := by
  cases request with
  | start origin st mfa now own claims =>
    refine yields_ofExcept fun a admitted => ?_
    have descends : Descends lineage createdAt a := by
      unfold admittedAttrs at admitted
      split at admitted
      · cases admitted
      · cases admitted
      next a' ok =>
        cases admitted
        refine ⟨⟨origin, [], .admitted ok⟩, fun same => ?_⟩
        obtain ⟨-, -, -, rfl⟩ := admitPending_session ok
        cases same
        exact admission _ _ _ _ _ rfl
    refine (yields_start exact texts descends claims).then fun _ _ => yields_ret.mpr ?_
    rintro res ⟨⟩
  | resume fp p tenant =>
    refine (yields_resume exact texts).bind fun _ res met => yields_ret.mpr ?_
    rintro _ ⟨⟩ own
    exact met.2 own
  | reissue fp p tenant t =>
    refine (yields_resume exact texts).bind fun _ res met => yields_ofExcept fun a applied => ?_
    obtain ⟨descends, -⟩ := met.1.step (Transition.step (mapError_eq_ok.mp applied))
    refine (yields_reissue exact texts descends).then fun _ _ => yields_ret.mpr ?_
    rintro res ⟨⟩
  | mintResource fp p tenant audience lifetime =>
    refine (yields_resume exact texts).bind fun _ res met => ?_
    refine (yields_mintResource exact texts audiences met.1).then fun _ _ => yields_ret.mpr ?_
    rintro res ⟨⟩

end

def Call.records : Call → List Tokens.RefreshRecord
  | .create r => [r]
  | .consumeForRotation req => [req.next]
  | .reissue req => [req.next]
  | _ => []

/-- All that is stored and all that is signed ends with the admission. -/
structure World.Within (b : Backend) (lineage : UUID) (createdAt : Time) (w : World) : Prop where
  rows : w.tokens.Rows (Bounded b lineage createdAt Time.truncate)
  signed : ∀ made ∈ w.signed, SignedWithin b lineage createdAt made.2.1

section
variable {b : Backend} {lineage : UUID} {createdAt : Time} {g : Bool} {w : World}

theorem World.Within.reach {A : Type} (within : w.Within b lineage createdAt) (o : Turn) (c : Call)
    {result : Tokens.Store × Except Tokens.Err A} (rows : result.1.Rows (Bounded b lineage createdAt Time.truncate)) :
    (w.reach o c result).2.Within b lineage createdAt := by
  unfold World.reach
  split
  · exact ⟨rows, within.signed⟩
  · dsimp only
    split
    · exact ⟨rows, within.signed⟩
    · exact within

theorem World.reach_ok {A : Type} {o : Turn} {c : Call} {result : Tokens.Store × Except Tokens.Err A} {a : A}
    (ok : (w.reach o c result).1 = .ok a) : result.2 = .ok a := by
  unfold World.reach at ok
  split at ok
  · exact mapError_eq_ok.mp ok
  · cases ok

theorem World.Within.exec (within : w.Within b lineage createdAt) (o : Turn) {c : Call}
    (allowed : (bounds b lineage createdAt).allows g c) : (exec o w c).2.Within b lineage createdAt := by
  cases c with
  | create r => exact within.reach o _ (within.rows.create allowed.stored)
  | get t hash => exact within.reach o _ within.rows
  | consumeForRotation req => exact within.reach o _ (within.rows.consumeForRotation o.clk allowed.stored)
  | reissue req => exact within.reach o _ (within.rows.reissue o.clk allowed.stored)
  | revokeFamily t family => exact within.reach o _ (within.rows.revoke _ _)
  | sign k input =>
    unfold Jwt.exec
    split
    · exact within
    · refine ⟨within.rows, fun made member => ?_⟩
      rcases List.mem_cons.mp member with rfl | old
      · exact allowed
      · exact within.signed made old
  | setCookie name value remember maxAge =>
    unfold Jwt.exec World.put
    dsimp only
    split
    · split <;> exact ⟨within.rows, within.signed⟩
    · exact within
  | setHeaders access refresh => exact ⟨within.rows, within.signed⟩
  | _ => exact within

theorem World.Within.told (within : w.Within b lineage createdAt) (o : Turn) (c : Call) :
    (bounds b lineage createdAt).learns g c (Jwt.exec o w c).1 := by
  cases c with
  | get t hash =>
    intro record ok
    exact within.rows.get (World.reach_ok ok)
  | verifySignature k s =>
    intro ok
    unfold Jwt.exec at ok
    dsimp only at ok
    split at ok
    next signed => exact within.signed _ signed.2
    · cases ok
  | _ => trivial

theorem early_of_follow {events : List ((c : Call) × Reply c)} (early : follow (bounds b lineage createdAt) g events = true)
    (start : g = false) : ∃ now, ⟨.now, now⟩ ∈ events ∧ now < createdAt + b.life.maxLifetime := by
  induction events generalizing g with
  | nil =>
    rw [start] at early
    cases early
  | cons event events ih =>
    obtain ⟨c, r⟩ := event
    cases noted : (bounds b lineage createdAt).track g c r with
    | false =>
      obtain ⟨now, member, before⟩ := ih early noted
      exact ⟨now, List.mem_cons_of_mem _ member, before⟩
    | true =>
      rw [start] at noted
      cases c with
      | now =>
        refine ⟨r, List.mem_cons_self, ?_⟩
        simpa [bounds] using noted
      | _ => cases noted

end

/-- Along one lineage: every token and every record ends with the admission, and so does every request. -/
theorem lineage_bounded {I : Type} [DecidableEq I] {b : Backend} (exact : b.lib.Exact) (texts : b.codec.Texts)
    (audiences : ∀ audience ∈ b.audiences, Text audience) {requests : I → Request} {lineage : UUID} {createdAt : Time}
    (admission : ∀ i origin st mfa now claims, requests i = .start origin st mfa now lineage claims → now = createdAt)
    {labels : List (I × (c : Call) × Reply c)} {w : World} {programs : I → Program (Option Resumed)}
    (run : Run (Interleave exec) (.new, fun i => (requests i).program b) labels (w, programs)) :
    (∀ i k input reply, (i, ⟨.sign k input, reply⟩) ∈ labels →
      ∃ h cs a stored, input = signingInput b.lib h cs ∧ cs.WellFormed b.lib ∧
        (∀ raw parts, parseToken b.lib raw = .ok parts → parts.input = input → parts.claims = cs) ∧
        cs.att = Base64.encode stored.bytes ∧ unsealAttrs stored = .ok a ∧
        (cs.exp - cs.iat) * Duration.second ≤ b.life.recheckEvery ∧
        (a.lineage = lineage → ofUnix cs.exp ≤ createdAt + b.life.maxLifetime)) ∧
    (∀ label ∈ labels, ∀ r ∈ label.2.1.records, r.row.lineage = lineage →
      r.row.idleExpiresAt ≤ r.row.familyExpiresAt ∧ r.row.familyExpiresAt = createdAt + b.life.maxLifetime) ∧
    (∀ h r, w.tokens.tokens.lookup h = some r → r.row.lineage = lineage →
      r.row.idleExpiresAt ≤ r.row.familyExpiresAt ∧
        r.row.familyExpiresAt = (createdAt + b.life.maxLifetime).truncate) ∧
    (∀ i res, res.attrs.lineage = lineage →
      (∀ now, (i, ⟨.now, now⟩) ∈ labels → createdAt + b.life.maxLifetime ≤ now) → programs i ≠ .ret (some res)) := by
  have obeys (i : I) : Yields (bounds b lineage createdAt) false ((requests i).program b) fun g outcome =>
      ∀ res, outcome = some res → res.attrs.lineage = lineage → g = true :=
    yields_request exact texts audiences (admission i)
  have start : World.new.Within b lineage createdAt := ⟨.new, by simp [World.new]⟩
  obtain ⟨within, learned⟩ := learned_of_allowed (World.Within b lineage createdAt) run obeys start
    (fun o s c g allowed kept => kept.exec o allowed) (fun o s c g _ kept => kept.told o c)
  have allowed := allowed_of_run run obeys learned
  refine ⟨?_, ?_, ?_, ?_⟩
  · intro i k input reply member
    obtain ⟨_, h, cs, a, stored, rfl, formed, att, sealing, descends, lasts, ends⟩ := allowed _ member
    refine ⟨h, cs, a, stored, rfl, formed, fun raw parts parsed same => parseToken_claims exact formed parsed same, att,
      unsealAttrs_sealAttrs descends.formed sealing, lasts, fun own => ?_⟩
    rw [← descends.dated own]
    exact ends
  · rintro ⟨i, c, reply⟩ member r written own
    obtain ⟨g, permitted⟩ := allowed _ member
    have bounded : Bounded b lineage createdAt id r.row := by
      cases c with
      | create r' =>
        cases List.mem_singleton.mp written
        exact permitted
      | consumeForRotation req =>
        cases List.mem_singleton.mp written
        exact permitted
      | reissue req =>
        cases List.mem_singleton.mp written
        exact permitted
      | _ => cases written
    obtain ⟨a, descends, -, same, order, ends⟩ := bounded
    rw [descends.dated (same ▸ own)] at ends
    exact ⟨order, ends⟩
  · intro h r stored own
    obtain ⟨a, descends, -, same, order, ends⟩ := within.rows h r stored
    rw [descends.dated (same ▸ own)] at ends
    exact ⟨order, ends⟩
  · intro i res own late ended
    have rest := (obeys i).follow (path_of_run run i) (learned i)
    dsimp only at rest
    rw [ended] at rest
    obtain ⟨now, seen, before⟩ := early_of_follow (rest _ rfl res rfl own) rfl
    exact absurd before (not_lt.mpr (late now (mem_own.mp seen)))

def Sample.requests : Bool → Request
  | false => .start Lineage.twoFactorLogin (Pending.usableAt 7) (.new [.totp]) (unixEpoch + 3)
      Lineage.twoFactorSession.lineage (ascii "\x7b\x7d")
  | true => .resume (ascii "browser") ⟨.cookies, [], Base64.encode (List.replicate 32 9), false⟩ .zero

def Sample.turns : List (Bool × Turn) :=
  List.replicate 9 (false, Sample.turn (unixEpoch + 2 * Duration.second) 9 (.ok [])) ++
    List.replicate 14 (true, Sample.turn (unixEpoch + Duration.minute + 3 * Duration.second) 8 (.ok (ascii "\x7b\x7d")))

def Sample.renewal := schedule exec (World.new, fun i => (Sample.requests i).program Sample.backend) Sample.turns

theorem lineage_bounded_renewal :
    (Sample.renewal.2.2 true).returned.isSome = true ∧
    ∃ r, Sample.renewal.2.1.tokens.tokens.lookup (List.replicate 32 8) = some r ∧
      r.row.idleExpiresAt ≤ r.row.familyExpiresAt ∧
      r.row.familyExpiresAt = (unixEpoch + 3 + Sample.backend.life.maxLifetime).truncate := by
  refine ⟨by decide +kernel, ?_⟩
  have admission (i : Bool) (origin : Lineage.Journey) (st : AccountState) (mfa : MFADecision) (now : Time) (claims : Bytes)
      (starts : Sample.requests i = .start origin st mfa now Lineage.twoFactorSession.lineage claims) :
      now = unixEpoch + 3 := by
    cases i with
    | false =>
      cases starts
      rfl
    | true => cases starts
  have run : Run (Interleave exec) (World.new, fun i => (Sample.requests i).program Sample.backend) Sample.renewal.1
      Sample.renewal.2 := by
    unfold Sample.renewal
    exact run_schedule exec _ Sample.turns
  rw [← Prod.mk.eta (p := Sample.renewal.2)] at run
  obtain ⟨-, -, rows, -⟩ := lineage_bounded Framed.library_exact Sample.codec_texts Sample.audiences_texts admission run
  have kept : (Sample.renewal.2.1.tokens.tokens.lookup (List.replicate 32 8)).any
      (fun r => decide (r.row.lineage = Lineage.twoFactorSession.lineage)) = true := by decide +kernel
  obtain ⟨r, found, own⟩ := (Option.any_eq_true _ _).mp kept
  exact ⟨r, found, rows _ r found (of_decide_eq_true own)⟩

end Egauth.Jwt
