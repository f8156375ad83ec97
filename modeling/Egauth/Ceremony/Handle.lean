import Egauth.Ceremony.Record
import Egauth.Core.RoundTrip

/-! Stateless handles: a begin that is sealed into the string it answers with.

The cipher and the text encoding are parameters with the law that what they
write they read; a text decoder may also accept other spellings. JSON is a
parameter of a codec, without a law.
-/

set_option autoImplicit false

namespace Egauth.Ceremony
open Egauth.Core

def Kind.code : Kind → UInt8
  | .mfaFlow => 1
  | .passkeyRegistration => 2
  | .mfaPasskey => 3
  | .magicLink => 4
  | .emailCode => 5
  | .smsCode => 6
  | .phoneVerification => 7
  | .passwordReset => 8
  | .pendingRegistration => 9
  | .emailVerification => 10
  | .emailChange => 11
  | .recoveryEmail => 12
  | .securityRevert => 13
  | .exchange => 14
  | .discoverablePasskey => 15
  | .usernameFirstPasskey => 16
  | .oauthState => 17
  | .externalLogin => 18
  | .passwordResetCode => 19

theorem Kind.code_injective : Function.Injective Kind.code := by
  have number (k : Kind) : k.code.toNat = k.ctorIdx + 1 := by cases k <;> rfl
  intro k k' same
  have index : k.ctorIdx = k'.ctorIdx := by
    have equal := number k
    rw [same, number k'] at equal
    omega
  rw [← Kind.ofNat_ctorIdx k, index, Kind.ofNat_ctorIdx]

/-- The errors of handles, each joined to `ErrInvalidHandle` where `Open` joins it. -/
inductive HandleErr where
  | notStateless
  | wrongKind
  | malformedPayload
  | sealing (err : Core.Err)
  | expired
  | tooLarge
  | wrongTenant
  | invalid
  | invalidBecause (cause : HandleErr)

def payloadVersion : UInt8 := 1

def maxPayloadBytes : Nat := 4 * 1024

structure Codec (P : Type) where
  kind : Kind
  check : P → Bool
  marshal : P → Bytes
  unmarshal : Bytes → Option P

namespace Codec
variable {P : Type} (c : Codec P)

def encode (p : P) : Except HandleErr Bytes :=
  if !c.check p then .error .malformedPayload
  else if (c.marshal p).length + 2 > maxPayloadBytes then .error .malformedPayload
  else .ok ([payloadVersion, c.kind.code] ++ c.marshal p)

def decode (b : Bytes) : Except HandleErr P :=
  match b with
  | version :: kind :: body =>
    if b.length > maxPayloadBytes ∨ version ≠ payloadVersion then .error .malformedPayload
    else if kind ≠ c.kind.code then .error .wrongKind
    else match c.unmarshal body with
      | some p => if c.check p then .ok p else .error .malformedPayload
      | none => .error .malformedPayload
  | _ => .error .malformedPayload

theorem length_encode {payload : P} {body : Bytes} (encoded : c.encode payload = .ok body) :
    body.length ≤ maxPayloadBytes := by
  simp only [encode, ite_error_eq_ok] at encoded
  obtain ⟨-, short, encoded⟩ := encoded
  cases encoded
  rw [List.length_append, Nat.add_comm]
  exact not_lt.mp short

theorem decode_encode {payload : P} {body : Bytes} (faithful : c.unmarshal (c.marshal payload) = some payload)
    (encoded : c.encode payload = .ok body) : c.decode body = .ok payload := by
  have short := c.length_encode encoded
  simp only [encode, ite_error_eq_ok] at encoded
  obtain ⟨checked, -, encoded⟩ := encoded
  cases encoded
  have passes : c.check payload = true := by simpa using checked
  unfold decode
  dsimp only [List.cons_append, List.nil_append] at short ⊢
  rw [if_neg (by simpa using short), if_neg (not_not.mpr rfl), faithful]
  dsimp only
  rw [if_pos passes]

end Codec

def handleVersion : UInt8 := 1

def nonceSize : Nat := 24

def overhead : Nat := 16

def maxHandleChars : Nat := 8 * 1024

def expiresAtLength : Nat := 8

structure Nonce where
  bytes : Bytes
  size : bytes.length = nonceSize

structure Sealer where
  encodeText : Bytes → Bytes
  decodeText : Bytes → Option Bytes
  sealBox : Nonce → Bytes → Bytes
  openBox : Bytes → Bytes → Option Bytes
  text : ∀ raw, decodeText (encodeText raw) = some raw
  nonempty : ∀ raw, raw ≠ [] → encodeText raw ≠ []
  box : ∀ nonce pt, openBox nonce.bytes (sealBox nonce pt) = some pt
  longer : ∀ nonce pt, (sealBox nonce pt).length = pt.length + overhead

structure HandleFields where
  kind : UInt8
  tenant : Bytes
  pending : Bytes
  payload : Bytes
  expiresAt : Time

def lengthPrefixed (b : Bytes) : Option (Bytes × Bytes) :=
  if b.length < 4 then none
  else
    let n := Wire.ofBigEndian (b.take 4)
    let b := b.drop 4
    if b.length < n then none else some (b.take n, b.drop n)

/-- `time.Unix(0, n)` of eight bytes. -/
def timeOf (b : Bytes) : Time := unixEpoch + (UInt64.ofNat (Wire.ofBigEndian b)).toInt64.toInt

def parseHandle : Bytes → Option HandleFields
  | kind :: n :: rest =>
    if rest.length < n.toNat then none
    else do
      let (pending, b) ← lengthPrefixed (rest.drop n.toNat)
      let (payload, b) ← lengthPrefixed b
      if b.length ≠ expiresAtLength then none
      else some ⟨kind, rest.take n.toNat, pending, payload, timeOf b⟩
  | _ => none

def plaintext (k : Kind) (t : TenantID) (pending body : Bytes) (ends : Time) : Bytes :=
  [k.code, t.id.length.toUInt8] ++ (t.id ++ (Wire.bigEndian 4 pending.length ++ (pending ++
    (Wire.bigEndian 4 body.length ++ (body ++ Wire.bigEndian 8 (unixNano ends).toUInt64.toNat)))))

structure Issued where
  handle : Bytes
  expiresAt : Time

structure Opened (P : Type) where
  pending : Pending
  payload : P
  expiresAt : Time
  handleHash : Digest

def Sealer.raw (s : Sealer) (nonce : Nonce) (pt : Bytes) : Bytes :=
  [handleVersion] ++ (nonce.bytes ++ s.sealBox nonce pt)

namespace Codec
variable {P : Type} (c : Codec P)

def sealHandle (s : Sealer) (nonce : Nonce) (now : Time) (p : Pending) (payload : P) : Except HandleErr Issued :=
  if !c.kind.stateless then .error .notStateless
  else do
    let body ← c.encode payload
    let pending ← (sealPending p).mapError .sealing
    let ends := c.kind.expiresAt p.expiresAt now
    if ¬ now < ends then .error .expired
    else
      let handle := s.encodeText (s.raw nonce (plaintext c.kind p.tenant pending.bytes body ends))
      if handle.length > maxHandleChars then .error .tooLarge else .ok ⟨handle, ends⟩

def openHandle (s : Sealer) (t : TenantID) (handle : Bytes) (now : Time) : Except HandleErr (Opened P) :=
  if !c.kind.stateless then .error (.invalidBecause .notStateless)
  else if handle.length = 0 ∨ handle.length > maxHandleChars then .error .invalid
  else
    match s.decodeText handle with
    | none => .error .invalid
    | some raw =>
      if raw.length < 1 + nonceSize + overhead ∨ raw.headD 0 ≠ handleVersion then .error .invalid
      else
        match s.openBox ((raw.drop 1).take nonceSize) (raw.drop (1 + nonceSize)) with
        | none => .error .invalid
        | some pt =>
          match parseHandle pt with
          | none => .error .invalid
          | some h =>
            if h.kind ≠ c.kind.code then .error (.invalidBecause .wrongKind)
            else if h.tenant ≠ t.id then .error (.invalidBecause .wrongTenant)
            else if ¬ now < h.expiresAt then .error (.invalidBecause .expired)
            else
              match unsealPending ⟨h.pending⟩ with
              | .error err => .error (.invalidBecause (.sealing err))
              | .ok p =>
                if p.tenant ≠ t then .error .invalid
                else
                  match c.decode h.payload with
                  | .error err => .error (.invalidBecause err)
                  | .ok payload => .ok ⟨p, payload, h.expiresAt, .handle raw⟩

end Codec

theorem lengthPrefixed_append {b : Bytes} (short : b.length < 2 ^ 32) (rest : Bytes) :
    lengthPrefixed (Wire.bigEndian 4 b.length ++ (b ++ rest)) = some (b, rest) := by
  have front : (Wire.bigEndian 4 b.length ++ (b ++ rest)).take 4 = Wire.bigEndian 4 b.length :=
    List.take_left' (Wire.length_bigEndian 4 b.length)
  have back : (Wire.bigEndian 4 b.length ++ (b ++ rest)).drop 4 = b ++ rest :=
    List.drop_left' (Wire.length_bigEndian 4 b.length)
  unfold lengthPrefixed
  rw [front, back, Wire.ofBigEndian_bigEndian (by simpa using short)]
  simp

theorem tenant_eq {t t' : TenantID} (same : t.id = t'.id) : t = t' := by
  cases t
  cases same
  rfl

theorem length_id_lt (t : TenantID) : t.id.length < 256 := by
  rcases t.parsed with empty | accepted
  · simp [empty]
  · unfold checkTenant at accepted
    split_ifs at accepted with bad
    have short : ¬ t.id.length > maxTenantLen := fun long => bad (.inr long)
    simp only [maxTenantLen] at short
    omega

theorem length_sealPending {p : Pending} {sealed' : Sealed} (ok : sealPending p = .ok sealed') :
    sealed'.bytes.length ≤ maxSealedLen := by
  unfold sealPending at ok
  rw [ite_error_eq_ok] at ok
  replace ok := ok.2
  split at ok
  · cases ok
  · obtain ⟨fields, -, ok⟩ := bind_eq_ok.mp ok
    simp only [Encoder.finish, ite_error_eq_ok] at ok
    cases ok.2
    exact not_lt.mp ok.1

def Issued.sealedExpiry (i : Issued) : Time := unixEpoch + (unixNano i.expiresAt).toInt

theorem Issued.sealedExpiry_eq {i : Issued} (early : minUnixNano ≤ i.expiresAt) (late : i.expiresAt ≤ maxUnixNano) :
    i.sealedExpiry = i.expiresAt := Decoder.unixEpoch_add_unixNano early late

theorem parseHandle_plaintext (k : Kind) (t : TenantID) {pending body : Bytes} (ends : Time)
    (pendingShort : pending.length < 2 ^ 32) (bodyShort : body.length < 2 ^ 32) :
    parseHandle (plaintext k t pending body ends) =
      some ⟨k.code, t.id, pending, body, unixEpoch + (unixNano ends).toInt⟩ := by
  have size : t.id.length.toUInt8.toNat = t.id.length := Wire.toNat_toUInt8 (length_id_lt t)
  have last : timeOf (Wire.bigEndian 8 (unixNano ends).toUInt64.toNat) = unixEpoch + (unixNano ends).toInt := by
    unfold timeOf
    rw [Wire.ofBigEndian_bigEndian (by simpa using (unixNano ends).toUInt64.toNat_lt), UInt64.ofNat_toNat]
    simp
  unfold plaintext parseHandle
  dsimp only [List.cons_append, List.nil_append]
  rw [size, if_neg (by simp), List.drop_left, List.take_left, lengthPrefixed_append pendingShort]
  dsimp only [Option.bind_eq_bind, Option.bind_some]
  rw [lengthPrefixed_append bodyShort]
  dsimp only [Option.bind_some]
  rw [if_neg (by simp [expiresAtLength]), last]

namespace Codec
variable {P : Type} {c : Codec P} {s : Sealer}
  {nonce : Nonce} {now : Time} {p : Pending} {payload : P} {issued : Issued}

theorem sealHandle_ok (ok : c.sealHandle s nonce now p payload = .ok issued) :
    c.kind.stateless = true ∧ issued.handle.length ≤ maxHandleChars ∧
      issued.expiresAt = c.kind.expiresAt p.expiresAt now ∧ now < issued.expiresAt ∧
      ∃ body pending, c.encode payload = .ok body ∧ sealPending p = .ok pending ∧
        issued.handle = s.encodeText (s.raw nonce (plaintext c.kind p.tenant pending.bytes body issued.expiresAt)) := by
  unfold sealHandle at ok
  rw [ite_error_eq_ok] at ok
  obtain ⟨stateless, ok⟩ := ok
  obtain ⟨body, encoded, ok⟩ := bind_eq_ok.mp ok
  obtain ⟨pending, stored, ok⟩ := bind_eq_ok.mp ok
  simp only [ite_error_eq_ok] at ok
  obtain ⟨early, short, ok⟩ := ok
  cases ok
  refine ⟨by simpa using stateless, not_lt.mp short, rfl, not_not.mp early, body, pending, encoded, ?_, rfl⟩
  cases sealed' : sealPending p with
  | ok pending' =>
    rw [sealed'] at stored
    cases stored
    rfl
  | error err =>
    rw [sealed'] at stored
    cases stored

theorem openHandle_ok {t : TenantID} {handle : Bytes} {o : Opened P} (ok : c.openHandle s t handle now = .ok o) :
    ∃ raw pt h, s.decodeText handle = some raw ∧
      s.openBox ((raw.drop 1).take nonceSize) (raw.drop (1 + nonceSize)) = some pt ∧ parseHandle pt = some h ∧
      h.kind = c.kind.code ∧ h.tenant = t.id ∧ now < h.expiresAt ∧ o.expiresAt = h.expiresAt ∧
      o.handleHash = .handle raw := by
  simp only [openHandle, ite_error_eq_ok] at ok
  obtain ⟨-, -, ok⟩ := ok
  split at ok
  · cases ok
  next raw decoded =>
  rw [ite_error_eq_ok] at ok
  replace ok := ok.2
  split at ok
  · cases ok
  next pt opened =>
  split at ok
  · cases ok
  next h parsed =>
  simp only [ite_error_eq_ok] at ok
  obtain ⟨kind, tenant, early, ok⟩ := ok
  split at ok
  · cases ok
  rw [ite_error_eq_ok] at ok
  replace ok := ok.2
  split at ok
  · cases ok
  cases ok
  exact ⟨raw, pt, h, decoded, opened, parsed, not_not.mp kind, not_not.mp tenant, not_not.mp early, rfl, rfl⟩

theorem take_raw (nonce : Nonce) (pt : Bytes) : ((s.raw nonce pt).drop 1).take nonceSize = nonce.bytes :=
  List.take_left' nonce.size

theorem drop_raw (nonce : Nonce) (pt : Bytes) : (s.raw nonce pt).drop (1 + nonceSize) = s.sealBox nonce pt := by
  rw [← List.drop_drop]
  exact List.drop_left' nonce.size

theorem parseHandle_sealed {body : Bytes} {pending : Sealed} (ends : Time)
    (encoded : c.encode payload = .ok body) (stored : sealPending p = .ok pending) :
    parseHandle (plaintext c.kind p.tenant pending.bytes body ends) =
      some ⟨c.kind.code, p.tenant.id, pending.bytes, body, unixEpoch + (unixNano ends).toInt⟩ := by
  have bodyShort : body.length < 2 ^ 32 := lt_of_le_of_lt (c.length_encode encoded) (by decide)
  have pendingShort : pending.bytes.length < 2 ^ 32 := lt_of_le_of_lt (length_sealPending stored) (by decide)
  exact parseHandle_plaintext c.kind p.tenant ends pendingShort bodyShort

theorem openHandle_sealHandle {sealedAt : Time}
    (formed : p.Formed) (faithful : c.unmarshal (c.marshal payload) = some payload)
    (stored : c.sealHandle s nonce sealedAt p payload = .ok issued) (early : now < issued.sealedExpiry) :
    ∃ raw, s.decodeText issued.handle = some raw ∧
      c.openHandle s p.tenant issued.handle now = .ok ⟨p, payload, issued.sealedExpiry, .handle raw⟩ := by
  obtain ⟨stateless, short, -, -, body, pending, encoded, sealed', text⟩ := sealHandle_ok stored
  have parsed := parseHandle_sealed issued.expiresAt encoded sealed'
  generalize plaintext c.kind p.tenant pending.bytes body issued.expiresAt = pt at text parsed
  have decoded : s.decodeText issued.handle = some (s.raw nonce pt) := by rw [text, s.text]
  have size : ¬(issued.handle.length = 0 ∨ issued.handle.length > maxHandleChars) := by
    have filled : issued.handle ≠ [] := by
      rw [text]
      exact s.nonempty _ (by simp [Sealer.raw])
    simp [filled, not_lt.mpr short]
  have long : ¬((s.raw nonce pt).length < 1 + nonceSize + overhead ∨ (s.raw nonce pt).headD 0 ≠ handleVersion) := by
    have length : (s.raw nonce pt).length = 1 + (nonceSize + (pt.length + overhead)) := by
      simp only [Sealer.raw, List.length_append, s.longer, nonce.size, List.length_singleton]
    rintro (less | other)
    · omega
    · exact other rfl
  have expiry : now < unixEpoch + (unixNano issued.expiresAt).toInt := early
  refine ⟨s.raw nonce pt, decoded, ?_⟩
  unfold openHandle
  rw [if_neg (by simp [stateless]), if_neg size, decoded]
  dsimp only
  rw [if_neg long, take_raw, drop_raw, s.box]
  dsimp only
  rw [parsed]
  dsimp only
  rw [if_neg (not_not.mpr rfl), if_neg (not_not.mpr rfl), if_neg (not_not.mpr expiry)]
  rw [unsealPending_sealPending formed sealed']
  dsimp only
  rw [if_neg (not_not.mpr rfl), c.decode_encode faithful encoded]
  rfl

/-- Whoever opens a spelling of a sealed handle gets its tenant, its expiry and the hash of its bytes. -/
theorem openHandle_of_sealHandle {Q : Type} {c' : Codec Q} {sealedAt : Time}
    (stored : c.sealHandle s nonce sealedAt p payload = .ok issued) {raw : Bytes}
    (bytes : s.decodeText issued.handle = some raw) {t : TenantID} {handle : Bytes} {o : Opened Q}
    (spelling : s.decodeText handle = some raw) (ok : c'.openHandle s t handle now = .ok o) :
    t = p.tenant ∧ o.expiresAt = issued.sealedExpiry ∧ o.handleHash = .handle raw ∧ c'.kind = c.kind ∧
      now < issued.sealedExpiry := by
  obtain ⟨-, -, -, -, body, pending, encoded, sealed', text⟩ := sealHandle_ok stored
  obtain ⟨raw', pt, h, decoded, opened, parsed, kind, tenant, early, ends, hash⟩ := openHandle_ok ok
  cases decoded.symm.trans spelling
  rw [text, s.text] at bytes
  cases bytes
  rw [take_raw, drop_raw, s.box] at opened
  cases opened
  cases (parseHandle_sealed issued.expiresAt encoded sealed').symm.trans parsed
  exact ⟨(tenant_eq tenant).symm, ends, hash, (Kind.code_injective kind).symm, early⟩

end Codec
end Egauth.Ceremony
