import Egauth.Jwt.Minted

/-! Every minted token is accepted.

A token that `prepare` or `MintResource` returned is verified in its own tenant
and for its own audience, from thirty seconds before it was minted until it
expires, and in no other tenant and for no other audience. The exception is a
token that is longer than `verify` reads: nothing bounds the token of a Bearer
session, whose attributes grow with each reauthentication.
-/

set_option autoImplicit false

namespace Egauth.Jwt
open Egauth.Core Prog

abbrev Calls := List ((c : Call) × Reply c)

def signs : ((c : Call) × Reply c) → Option (Key × Bytes × Bytes)
  | ⟨.sign k input, .ok signature⟩ => some (k, input, signature)
  | _ => none

/-- The key that signed still verifies: the key source finds it, and its signatures are good. -/
def Verifies (calls : Calls) (o : Turn) (w : World) : Prop :=
  ∀ made ∈ calls.filterMap signs, o.verifier.toOption = some made.1 ∧ made ∈ w.signed

/-- What is sealed in a token is what was to be minted. -/
structure Token.Carries (lib : Library) (token : Token) (m : Mint) : Prop where
  attrs : token.attrs = m.attrs
  claims : compactClaims lib m.claims = .ok token.claims
  family : token.family = m.family
  issued : token.issuedAt = ofUnix (unix m.issuedAt)
  expires : token.expiresAt = ofUnix (unix m.issuedAt + m.lifetime / Duration.second)

/-- A token that is accepted as what it was minted for, unless it is too long to be read, and as nothing else. -/
structure Accepted (b : Backend) (m : Mint) (calls : Calls) (raw : Bytes) (token : Token) : Prop where
  carries : token.Carries b.lib m
  accepts : unixEpoch + Duration.second ≤ m.issuedAt → token.expiresAt ≤ ofUnix maxUnixSeconds →
    ∀ o w, Verifies calls o w → m.issuedAt - maxIssuedAtSkew ≤ o.clk → o.clk < token.expiresAt →
    ∀ want : Option TenantID, (∀ t ∈ want, t = m.attrs.subject.tenant) →
      ((verify b raw m.audience want).alone exec o w = (.ok (token, false), w) ↔ raw.length ≤ maxTokenLen)
  refuses : ∀ o w audience, ∀ want : Option TenantID, (audience ≠ m.audience ∨ ∃ t ∈ want, t ≠ m.attrs.subject.tenant) →
    ∃ err, (verify b raw audience want).alone exec o w = (.error err, w)

theorem Mint.Encodes.carries {lib : Library} {c : Codec} {m : Mint} {iss claims : Bytes} {stored : Sealed}
    (encodes : m.Encodes lib c iss claims stored) : (m.token iss claims).Carries lib m where
  attrs := rfl
  claims := encodes.claims
  family := rfl
  issued := rfl
  expires := by simp only [Mint.token, Mint.exp, Mint.iat]

section
variable {b : Backend} {m : Mint} {calls : Calls} {raw : Bytes} {token : Token}

theorem path_encode {k : Key} (path : Path (encode b k m) calls (.ret (raw, token))) :
    ∃ iss claims stored signature, m.Encodes b.lib b.codec iss claims stored ∧ token = m.token iss claims ∧
      let input := signingInput b.lib ⟨k.alg.name, k.kid, tokenType⟩ (m.set b.codec iss claims stored)
      (k, input, signature) ∈ calls.filterMap signs ∧ raw = input ++ ascii "." ++ Base64.encode signature := by
  obtain ⟨⟨cs, token'⟩, ok, path⟩ := path.of_ofExcept
  obtain ⟨iss, claims, stored, encodes, rfl, rfl⟩ := claimSet_ok ok
  obtain ⟨reply, rest, rfl, replied⟩ := Path.of_perform path
  obtain ⟨signature, rfl, done⟩ := Path.of_ofExcept replied
  cases done
  exact ⟨iss, claims, stored, signature, encodes, rfl, by simp [signs], rfl⟩

section
variable {parts : Parts} {tenant : TenantID} {want : Option TenantID} {audience : Bytes} {o : Turn} {w : World}

/-- The checks pass, and the key that is found has signed this very input. -/
theorem verify_accepts (parsed : parseToken b.lib raw = .ok parts) (known : parseTenant parts.claims.tid = .ok tenant)
    (wanted : ∀ t ∈ want, t = tenant) {result : Token × Bool}
    (checked : b.codec.check b.lib o.clk parts.claims tenant audience = .ok result) {k : Key}
    (found : o.verifier.toOption = some k)
    (accepts : k.accepts ⟨parts.header.alg, parts.header.kid, parts.input, parts.signature⟩ = true)
    (signed : (k, parts.input, parts.signature) ∈ w.signed) :
    (verify b raw audience want).alone exec o w = (.ok result, w) := by
  have own : ¬ want.any (· ≠ tenant) := by
    cases want with
    | none => simp
    | some t => simpa using wanted t rfl
  have lookup : exec o w (.verifier tenant parts.header.kid) = (.ok k, w) := by
    cases known : o.verifier with
    | error err => simp [known, Except.toOption] at found
    | ok k' => simpa [known, exec, Except.toOption] using found
  have verified : exec o w (.verifySignature k ⟨parts.header.alg, parts.header.kid, parts.input, parts.signature⟩) =
      (.ok (), w) := by simp [exec, accepts, signed]
  have read : exec o w .now = (o.clk, w) := rfl
  simp only [verify, parsed, known, demand_ok, ret_bind, Except.mapError, if_neg own, perform_bind, alone_call]
  simp [read, checked, lookup, verified]

theorem verify_refuses (parsed : ∀ parts, parseToken b.lib raw = .ok parts → ∀ tenant,
      parseTenant parts.claims.tid = .ok tenant → (∃ t ∈ want, t ≠ tenant) ∨
        ∀ result, b.codec.check b.lib o.clk parts.claims tenant audience ≠ .ok result) :
    ∃ err, (verify b raw audience want).alone exec o w = (.error err, w) := by
  unfold verify
  cases taken : parseToken b.lib raw with
  | error err => exact ⟨err, rfl⟩
  | ok parts =>
    cases known : parseTenant parts.claims.tid with
    | error err => exact ⟨invalid "tenant", by simp [known, Except.mapError]⟩
    | ok tenant =>
      simp only [demand_ok, ret_bind, known, Except.mapError]
      split
      · exact ⟨_, rfl⟩
      next own =>
        rcases parsed parts taken tenant known with ⟨t, wanted, other⟩ | failed
        · rw [Option.mem_def.mp wanted] at own
          simp [other] at own
        · simp only [perform_bind, alone_call]
          cases checked : b.codec.check b.lib o.clk parts.claims tenant audience with
          | ok result => exact absurd checked (failed result)
          | error err => exact ⟨err, by simp [exec, checked]⟩

end

theorem verify_long (long : maxTokenLen < raw.length) (audience : Bytes) (want : Option TenantID) (o : Turn) (w : World) :
    (verify b raw audience want).alone exec o w = (.error (invalid "token length"), w) := by
  have refused : parseToken b.lib raw = .error (invalid "token length") := by
    unfold parseToken
    rw [if_pos (.inr long)]
  simp [verify, refused]

/-- Attributes that are sealed into so many bytes make a token longer than is read, whatever its JSON. -/
theorem encode_long (exact : b.lib.Exact) {k : Key} (path : Path (encode b k m) calls (.ret (raw, token))) {stored : Sealed}
    (sealing : sealAttrs m.attrs = .ok stored) (large : 4608 ≤ stored.bytes.length) : maxTokenLen < raw.length := by
  obtain ⟨iss, claims, stored', signature, encodes, -, -, rfl⟩ := path_encode path
  obtain rfl : stored = stored' := Except.ok.inj (sealing.symm.trans encodes.stored)
  have json := exact.long (m.set b.codec iss claims stored)
  have att : (m.set b.codec iss claims stored).att = Base64.encode stored.bytes := rfl
  have dot : (ascii ".").length = 1 := rfl
  rw [att, Base64.length_encode] at json
  simp only [signingInput, List.length_append, Base64.length_encode, dot, maxTokenLen]
  omega

theorem accepted_encode (exact : b.lib.Exact) (texts : b.codec.Texts) (audience : Text m.audience)
    (formed : m.attrs.Formed) (apart : ∀ iss, b.codec.issuer m.attrs.subject.tenant = .ok iss → m.audience ≠ [] →
      m.audience ≠ iss) {k : Key} (path : Path (encode b k m) calls (.ret (raw, token))) : Accepted b m calls raw token := by
  obtain ⟨iss, claims, stored, signature, encodes, rfl, event, rfl⟩ := path_encode path
  have wellFormed := encodes.wellFormed exact texts audience
  have other := apart iss encodes.issuer
  refine ⟨encodes.carries, ?_, ?_⟩
  · intro born range o w verifies skew unexpired want own
    refine ⟨fun accepted => ?_, fun short => ?_⟩
    · by_contra long
      rw [verify_long (not_le.mp long)] at accepted
      cases accepted
    obtain ⟨found, signed⟩ := verifies _ event
    have issued : 0 < m.iat := by
      unfold Mint.iat unix
      unfold Duration.second at born ⊢
      lia
    have bounded : m.exp ≤ maxUnixSeconds := by
      change ofUnix m.exp ≤ _ at range
      unfold ofUnix Duration.second at range
      lia
    have checked := check_set exact encodes formed other issued bounded skew
    have live : decide (¬ o.clk < ofUnix m.exp) = false := decide_eq_false (not_not.mpr unexpired)
    rw [live] at checked
    have accepts : k.accepts ⟨k.alg.name, k.kid, signingInput b.lib ⟨k.alg.name, k.kid, tokenType⟩
        (m.set b.codec iss claims stored), signature⟩ = true := by simp [Key.accepts]
    exact verify_accepts (parseToken_signed exact wellFormed k short) (parseTenant_id _) own checked found accepts signed
  · intro o w audience want wrong
    refine verify_refuses fun parts parsed tenant known => ?_
    rw [parseToken_signed exact wellFormed k (parseToken_short parsed)] at parsed
    cases parsed
    obtain rfl : m.attrs.subject.tenant = tenant := Except.ok.inj ((parseTenant_id _).symm.trans known)
    refine wrong.symm.imp id fun foreign result ok => ?_
    exact foreign (check_audience encodes other ok)

theorem Accepted.mono {calls' : Calls} (accepted : Accepted b m calls raw token) (more : calls ⊆ calls') :
    Accepted b m calls' raw token := by
  refine ⟨accepted.carries, fun born range o w verifies => ?_, accepted.refuses⟩
  exact accepted.accepts born range o w fun made event => verifies made (List.filterMap_subset signs more event)

end

section
variable {b : Backend} {calls : Calls}

theorem path_prepare {i : Issue} {out : Issued} (path : Path (prepare b i) calls (.ret out)) :
    ∃ lifetime k calls', calls' ⊆ calls ∧ tokenLifetime b i.attrs i.now b.life.recheckEvery = .ok lifetime ∧
      Path (encode b k { family := i.family, issuedAt := i.now, lifetime := lifetime, attrs := i.attrs, claims := i.claims })
        calls' (.ret (out.access, out.token)) ∧
      fits b i.attrs out.access out.refresh = .ok () := by
  obtain ⟨lifetime, lasts, path⟩ := Path.of_ofExcept path
  obtain ⟨⟨refresh, hash⟩, _, _, rfl, -, path⟩ := Path.of_bind path
  obtain ⟨record, _, _, rfl, -, path⟩ := Path.of_bind path
  obtain ⟨k, _, _, rfl, -, path⟩ := Path.of_bind path
  obtain ⟨⟨access, token⟩, calls', _, rfl, minted, path⟩ := Path.of_bind path
  dsimp only at path
  split at path
  · cases path with
    | cons rest => cases rest
  next fitting =>
    cases path
    refine ⟨lifetime, k, calls', ?_, lasts, minted, fitting⟩
    intro event member
    simp [member]

def reading : ((c : Call) × Reply c) → Option Time
  | ⟨.now, t⟩ => some t
  | _ => none

def lastReading (calls : Calls) : Option Time := (calls.filterMap reading).getLast?

/-- `encode` does not look at the clock. -/
theorem reading_encode {k : Key} {m : Mint} {result : Bytes × Token} (path : Path (encode b k m) calls (.ret result)) :
    calls.filterMap reading = [] := by
  obtain ⟨⟨cs, token⟩, -, path⟩ := Path.of_ofExcept path
  obtain ⟨reply, rest, rfl, replied⟩ := Path.of_perform path
  obtain ⟨signature, rfl, done⟩ := Path.of_ofExcept replied
  cases done
  rfl

theorem path_mintResource {res : Resumed} {audience raw : Bytes} {limit : Duration} {expires : Time}
    (path : Path (mintResource b res audience limit) calls (.ret (raw, expires))) :
    ∃ now lifetime k token calls', calls' ⊆ calls ∧ lastReading calls = some now ∧ token.expiresAt = expires ∧
      limit ≤ b.life.recheckEvery ∧ tokenLifetime b res.attrs now limit = .ok lifetime ∧ audience ∈ b.audiences ∧
      (∀ iss, b.codec.issuer res.attrs.subject.tenant = .ok iss → audience ≠ iss) ∧
      Path (encode b k
        { audience := audience, family := res.handle.id, issuedAt := now, lifetime := lifetime, attrs := res.attrs,
          claims := res.claims }) calls' (.ret (raw, token)) := by
  unfold mintResource at path
  dsimp only at path
  split at path
  · cases path
  split at path
  · cases path
  next allowed =>
    obtain ⟨iss, issuer, path⟩ := Path.of_ofExcept path
    split at path
    · cases path
    next listed =>
      obtain ⟨own, member⟩ := not_or.mp listed
      obtain ⟨_, before, _, rfl, -, path⟩ := Path.of_bind path
      obtain ⟨now, _, rfl, onward⟩ := Path.of_perform path
      obtain ⟨lifetime, lasts, path⟩ := Path.of_ofExcept onward
      obtain ⟨k, found, _, rfl, lookup, path⟩ := Path.of_bind path
      obtain ⟨⟨raw, token⟩, calls', _, rfl, minted, path⟩ := Path.of_bind path
      cases path
      -- The key is looked up between the last look at the clock and the signature.
      have silent : found.filterMap reading = [] := by
        cases Path.of_refail lookup with
        | @cons _ reply _ _ _ rest =>
          cases reply with
          | error err => cases rest
          | ok found =>
            cases rest
            rfl
      refine ⟨now, lifetime, k, token, calls', fun event member => by simp [member], ?_, rfl,
        Int.not_lt.mp (not_or.mp allowed).2, lasts, not_not.mp member, fun iss' same => ?_, minted⟩
      · simp [lastReading, reading, silent, reading_encode minted]
      · rw [issuer] at same
        cases same
        exact own

end

section
variable {b : Backend} {origin : Lineage.Journey} {st : AccountState} {mfa : MFADecision} {admission : Time}
  {lineage : UUID} {admitted a : SessionAttrs} {events : List Lineage.Event}

/-- Whatever is minted for a session of any history is accepted as what it was minted for, and as nothing else. -/
theorem minted_accepted (exact : b.lib.Exact) (texts : b.codec.Texts) (audiences : ∀ audience ∈ b.audiences, Text audience)
    (ok : admitPending origin.pending st mfa admission lineage = .ok (.session admitted))
    (life : Run Lineage.Step admitted events a) :
    (∀ i calls out, i.attrs = a → Path (prepare b i) calls (.ret out) →
      ∃ lifetime, Accepted b
        { family := i.family, issuedAt := i.now, lifetime := lifetime, attrs := a, claims := i.claims }
        calls out.access out.token ∧
        (a.transport = some .cookies → out.access.length ≤ maxTokenLen)) ∧
    (∀ res audience limit calls raw expires now, res.attrs = a → lastReading calls = some now →
      Path (mintResource b res audience limit) calls (.ret (raw, expires)) →
      ∃ lifetime token, audience ≠ [] ∧ token.expiresAt = expires ∧ Accepted b
        { audience := audience, family := res.handle.id, issuedAt := now, lifetime := lifetime, attrs := a,
          claims := res.claims } calls raw token) := by
  have formed : a.Formed := ((Lineage.Inv.admitted ok).run life).formed
  constructor
  · rintro i calls out rfl path
    obtain ⟨lifetime, k, calls', part, -, minted, fitting⟩ := path_prepare path
    let m : Mint := ⟨[], i.family, i.now, lifetime, i.attrs, i.claims⟩
    have silent : Text m.audience := ⟨[], rfl⟩
    have accepted : Accepted b m calls' out.access out.token :=
      accepted_encode (m := m) exact texts silent formed (fun iss _ some => absurd rfl some) minted
    refine ⟨lifetime, accepted.mono part, ?_⟩
    intro cookies
    simp only [fits, cookies, ne_eq, not_true, ↓reduceIte] at fitting
    have room := (ite_error_eq_ok.mp fitting).1
    unfold maxCookieBytes at room
    unfold maxTokenLen
    omega
  · rintro res audience limit calls raw expires now rfl reads path
    obtain ⟨now', lifetime, k, token, calls', part, last, same, -, -, listed, apart, minted⟩ := path_mintResource path
    rw [reads] at last
    cases last
    let m : Mint := ⟨audience, res.handle.id, now, lifetime, res.attrs, res.claims⟩
    have accepted : Accepted b m calls' raw token :=
      accepted_encode (m := m) exact texts (audiences audience listed) formed (fun iss issuer _ => apart iss issuer) minted
    refine ⟨lifetime, token, ?_, same, accepted.mono part⟩
    intro none
    exact b.origins (none ▸ listed)

end

def Sample.issue : Issue where
  family := ⟨List.replicate 16 5, rfl⟩
  attrs := Lineage.twoFactorSession
  claims := ascii "\x7b \x7d"
  now := unixEpoch + 2 * Duration.second

theorem minted_accepted_twoFactor :
    ∃ out w, (prepare Sample.backend Sample.issue).alone exec (Sample.turn Sample.issue.now 9 (.ok [])) .new = (.ok out, w) ∧
      (verify Sample.backend out.access [] (some .zero)).alone exec (Sample.turn (Sample.issue.now + 1) 9 (.ok [])) w =
        (.ok (out.token, false), w) := by
  obtain ⟨sessions, -⟩ := minted_accepted Framed.library_exact Sample.codec_texts Sample.audiences_texts
    Lineage.twoFactorSession_admitted .nil
  have dated : ((prepare Sample.backend Sample.issue).alone exec (Sample.turn Sample.issue.now 9 (.ok [])) .new).1.toOption.any
      (fun out => decide (out.token.expiresAt ≤ ofUnix maxUnixSeconds ∧ Sample.issue.now + 1 < out.token.expiresAt)) =
        true := by decide +kernel
  have verifies : Verifies ((prepare Sample.backend Sample.issue).trace exec (Sample.turn Sample.issue.now 9 (.ok [])) .new)
      (Sample.turn (Sample.issue.now + 1) 9 (.ok []))
      ((prepare Sample.backend Sample.issue).alone exec (Sample.turn Sample.issue.now 9 (.ok [])) .new).2 := by
    unfold Verifies
    decide +kernel
  cases ran : (prepare Sample.backend Sample.issue).alone exec (Sample.turn Sample.issue.now 9 (.ok [])) .new with
  | mk result w =>
    rw [ran] at dated verifies
    cases result with
    | error err => cases dated
    | ok out =>
      obtain ⟨range, unexpired⟩ := of_decide_eq_true dated
      obtain ⟨lifetime, accepted, small⟩ := sessions Sample.issue _ out rfl (path_trace (congrArg Prod.fst ran))
      have born : unixEpoch + Duration.second ≤ Sample.issue.now := by decide
      have skew : Sample.issue.now - maxIssuedAtSkew ≤ Sample.issue.now + 1 := by decide
      have own : ∀ t ∈ some TenantID.zero, t = Lineage.twoFactorSession.subject.tenant := by decide
      exact ⟨out, w, rfl, (accepted.accepts born range _ w verifies skew unexpired (some .zero) own).mpr (small rfl)⟩

namespace Sample

def passkey (n : UInt8) : Verified where
  subject := .sample
  factors := [.passkey, .userVerification]
  credentialID := List.replicate 1023 n
  identifies := true
  provider := []
  verifiedAt := unixEpoch + 1

def grown (others : Nat) : SessionAttrs :=
  { Lineage.twoFactorSession with
    factors := [.passkey, .userVerification]
    credentialIDs := (List.range (others + 1)).map fun n => ⟨.passkey, List.replicate 1023 (n + 1).toUInt8⟩
    secondAt := unixEpoch + 1
    transport := some .bearer }

def bearerStart : Pending :=
  { Pending.twoFactorStart with transport := some .bearer }

def verifiedBy (start : Pending) (n : UInt8) : Pending :=
  { start with subject := .sample, epochAtBind := 7, verified := [passkey n] }

theorem passkey_added {start : Pending} {n : UInt8} (ok : start.add (passkey n) (Pending.usableAt 7) = .ok (verifiedBy start n)) :
    Run Pending.Step start [.added (passkey n) (Pending.usableAt 7)] (verifiedBy start n) :=
  .single ⟨⟨⟨.sample, [.passkey, .userVerification], List.replicate 1023 n, true, [], unixEpoch + 1⟩, by rfl⟩, ok⟩

def login : Lineage.Journey :=
  ⟨bearerStart, [.added (passkey 1) (Pending.usableAt 7)], verifiedBy bearerStart 1,
    .login (show Pending.new .zero (some .declined) [] (some .bearer) (some .never) unixEpoch = .ok bearerStart by rfl),
    passkey_added (by decide +kernel)⟩

theorem again_added (n : UInt8) : Run Pending.Step (pendingForReauth (grown 0) (unixEpoch + 4))
    [.added (passkey n) (Pending.usableAt 7)] (verifiedBy (pendingForReauth (grown 0) (unixEpoch + 4)) n) :=
  passkey_added (by rfl)

def again (n : UInt8) : Lineage.Journey :=
  ⟨pendingForReauth (grown 0) (unixEpoch + 4), [.added (passkey n) (Pending.usableAt 7)],
    verifiedBy (pendingForReauth (grown 0) (unixEpoch + 4)) n, .reauth (fun _ => by decide), again_added n⟩

def reauthentication (n : UInt8) : Lineage.Event :=
  .reauthenticated (again n) (Pending.usableAt 7) (.new []) (unixEpoch + 5)

theorem grown_run : Run Lineage.Step (grown 0) [reauthentication 2, reauthentication 3, reauthentication 4, reauthentication 5]
    (grown 4) := by
  have second : Lineage.Step (grown 0) (reauthentication 2) (grown 1) := by
    change reauthenticate _ _ _ _ _ = _
    decide +kernel
  have third : Lineage.Step (grown 1) (reauthentication 3) (grown 2) := by
    change reauthenticate _ _ _ _ _ = _
    decide +kernel
  have fourth : Lineage.Step (grown 2) (reauthentication 4) (grown 3) := by
    change reauthenticate _ _ _ _ _ = _
    decide +kernel
  have fifth : Lineage.Step (grown 3) (reauthentication 5) (grown 4) := by
    change reauthenticate _ _ _ _ _ = _
    decide +kernel
  exact (((Run.single second).snoc third).snoc fourth).snoc fifth

theorem grown_admitted : admitPending login.pending (Pending.usableAt 7) (.new []) (unixEpoch + 3)
    Lineage.twoFactorSession.lineage = .ok (.session (grown 0)) := by decide +kernel

def grownIssue : Issue := { issue with attrs := grown 4 }

end Sample

open Sample

/-- Five passkeys with ids of 1023 bytes: the token of the Bearer session is minted, and is refused for its length. -/
theorem grown_token_refused :
    admitPending login.pending (Pending.usableAt 7) (.new []) (unixEpoch + 3) Lineage.twoFactorSession.lineage =
      .ok (.session (grown 0)) ∧
    (∃ events, Run Lineage.Step (grown 0) events (grown 4)) ∧
    ∃ calls out o w, Path (prepare backend grownIssue) calls (.ret out) ∧
      unixEpoch + Duration.second ≤ grownIssue.now ∧ out.token.expiresAt ≤ ofUnix maxUnixSeconds ∧
      Verifies calls o w ∧ grownIssue.now - maxIssuedAtSkew ≤ o.clk ∧ o.clk < out.token.expiresAt ∧
      (verify backend out.access [] (some .zero)).alone exec o w = (.error (invalid "token length"), w) := by
  refine ⟨grown_admitted, ⟨_, grown_run⟩, ?_⟩
  have dated : ((prepare backend grownIssue).alone exec (turn issue.now 9 (.ok []))
      .new).1.toOption.any (fun out => decide (out.token.expiresAt ≤ ofUnix maxUnixSeconds ∧
        issue.now < out.token.expiresAt)) = true := by decide +kernel
  have known : (((prepare backend grownIssue).trace exec (turn issue.now 9 (.ok []))
      .new).filterMap signs).all (fun made => decide (made.1 = Sample.key)) = true := by decide +kernel
  have large : (sealAttrs (grown 4)).toOption.any (fun stored => decide (4608 ≤ stored.bytes.length)) = true := by
    decide +kernel
  have now : grownIssue.now = issue.now := rfl
  have late : unixEpoch + Duration.second ≤ issue.now := by decide
  have skew : issue.now - maxIssuedAtSkew ≤ issue.now := by decide
  cases ran : ((prepare backend grownIssue).alone exec (turn issue.now 9 (.ok [])) .new).1 with
  | error err =>
    rw [ran] at dated
    cases dated
  | ok out =>
    rw [ran] at dated
    obtain ⟨range, unexpired⟩ := of_decide_eq_true dated
    have path := path_trace ran
    generalize (prepare backend grownIssue).trace exec (turn issue.now 9 (.ok [])) .new = calls
      at path known
    have verifies : Verifies calls (turn issue.now 9 (.ok [])) ⟨.new, calls.filterMap signs, {}⟩ := by
      intro made event
      have key := of_decide_eq_true (List.all_eq_true.mp known made event)
      exact ⟨congrArg some key.symm, event⟩
    rw [now]
    refine ⟨calls, out, _, _, path, late, range, verifies, skew, unexpired, ?_⟩
    obtain ⟨lifetime, k, calls', -, -, minted, -⟩ := path_prepare path
    cases stored : sealAttrs (grown 4) with
    | error err =>
      rw [stored] at large
      cases large
    | ok bytes =>
      rw [stored] at large
      exact verify_long (encode_long Framed.library_exact minted stored (of_decide_eq_true large)) _ _ _ _

end Egauth.Jwt
