import Egauth.Ceremony.Payload
import Egauth.Ceremony.Single
import Egauth.Jwt.Claims

/-! What a stateless handle carries.

The layout of its fields is read in one way only, so that the kind, the tenant
and the expiry that are checked are those that were sealed.
-/

set_option autoImplicit false

namespace Egauth.Ceremony
open Egauth.Core

def HandleFields.layout (h : HandleFields) : Bytes :=
  [h.kind, h.tenant.length.toUInt8] ++ (h.tenant ++ (Wire.bigEndian 4 h.pending.length ++ (h.pending ++
    (Wire.bigEndian 4 h.payload.length ++ (h.payload ++ Wire.bigEndian 8 (unixNano h.expiresAt).toUInt64.toNat)))))

structure HandleFields.Fits (h : HandleFields) : Prop where
  tenant : h.tenant.length < 2 ^ 8
  pending : h.pending.length < 2 ^ 32
  payload : h.payload.length < 2 ^ 32
  early : minUnixNano ≤ h.expiresAt
  late : h.expiresAt ≤ maxUnixNano

theorem lengthPrefixed_eq_some {b field rest : Bytes} (read : lengthPrefixed b = some (field, rest)) :
    field.length < 2 ^ 32 ∧ b = Wire.bigEndian 4 field.length ++ (field ++ rest) := by
  simp only [lengthPrefixed, Option.ite_none_left_eq_some, not_lt, Option.some.injEq, Prod.mk.injEq] at read
  obtain ⟨long, enough, rfl, rfl⟩ := read
  have four : (b.take 4).length = 4 := List.length_take_of_le long
  have size : ((b.drop 4).take (Wire.ofBigEndian (b.take 4))).length = Wire.ofBigEndian (b.take 4) :=
    List.length_take_of_le enough
  have small := Wire.ofBigEndian_lt (b.take 4)
  have front := Wire.bigEndian_ofBigEndian (b.take 4)
  rw [four] at small front
  rw [size, front, List.take_append_drop, List.take_append_drop]
  exact ⟨by simpa using small, rfl⟩

theorem timeOf_eq {b : Bytes} (eight : b.length = 8) :
    minUnixNano ≤ timeOf b ∧ timeOf b ≤ maxUnixNano ∧ b = Wire.bigEndian 8 (unixNano (timeOf b)).toUInt64.toNat := by
  have small := Wire.ofBigEndian_lt b
  have back := Wire.bigEndian_ofBigEndian b
  rw [eight] at small back
  have nanos : unixNano (timeOf b) = (UInt64.ofNat (Wire.ofBigEndian b)).toInt64 := by
    rw [unixNano, timeOf, add_sub_cancel_left, Int64.ofInt_toInt]
  have number : (UInt64.ofNat (Wire.ofBigEndian b)).toNat = Wire.ofBigEndian b := UInt64.toNat_ofNat_of_lt small
  have least := (UInt64.ofNat (Wire.ofBigEndian b)).toInt64.le_toInt
  have greatest := (UInt64.ofNat (Wire.ofBigEndian b)).toInt64.toInt_lt
  refine ⟨?_, ?_, ?_⟩
  · unfold minUnixNano timeOf
    linarith
  · unfold maxUnixNano timeOf
    linarith
  · rw [nanos, UInt64.toUInt64_toInt64, number, back]

theorem parseHandle_eq_some {pt : Bytes} {h : HandleFields} (read : parseHandle pt = some h) :
    h.Fits ∧ pt = h.layout := by
  unfold parseHandle at read
  split at read
  next kind n rest =>
    rw [Option.ite_none_left_eq_some, not_lt] at read
    obtain ⟨long, read⟩ := read
    obtain ⟨⟨pending, b⟩, first, read⟩ := Option.bind_eq_some_iff.mp read
    obtain ⟨⟨payload, b'⟩, second, read⟩ := Option.bind_eq_some_iff.mp read
    simp only [Option.ite_none_left_eq_some, not_not, ne_eq, Option.some.injEq] at read
    obtain ⟨eight, rfl⟩ := read
    obtain ⟨pendingShort, pendingRead⟩ := lengthPrefixed_eq_some first
    obtain ⟨payloadShort, payloadRead⟩ := lengthPrefixed_eq_some second
    obtain ⟨early, late, ends⟩ := timeOf_eq eight
    have size : (rest.take n.toNat).length = n.toNat := List.length_take_of_le long
    refine ⟨⟨?_, pendingShort, payloadShort, early, late⟩, ?_⟩
    · dsimp only
      rw [size]
      exact n.toNat_lt
    · simp only [HandleFields.layout, size, ← ends, ← payloadRead, ← pendingRead, List.take_append_drop]
      simp
  · cases read

structure Contents where
  kind : StatelessKind
  tenant : TenantID
  expiresAt : Time
  pending : Pending
  payload : kind.Payload

namespace Contents

def plaintext (json : Json) (x : Contents) : Except HandleErr Bytes := do
  let body ← (x.kind.codec json).encode x.payload
  let pending ← (sealPending x.pending).mapError .sealing
  .ok (Ceremony.plaintext x.kind.kind x.tenant pending.bytes body x.expiresAt)

/-- The Pending is one that the core builds, the strings are UTF-8 and the expiry has a number of nanoseconds. -/
structure Plain (x : Contents) : Prop where
  formed : x.pending.Formed
  texts : ∀ text ∈ x.kind.strings x.payload, Utf8.Valid text
  early : minUnixNano ≤ x.expiresAt
  late : x.expiresAt ≤ maxUnixNano

variable {json : Json} {x y : Contents} {pt : Bytes}

theorem plaintext_ok (ok : x.plaintext json = .ok pt) :
    ∃ body pending, (x.kind.codec json).encode x.payload = .ok body ∧ sealPending x.pending = .ok pending ∧
      pt = Ceremony.plaintext x.kind.kind x.tenant pending.bytes body x.expiresAt := by
  obtain ⟨body, encoded, ok⟩ := bind_eq_ok.mp ok
  obtain ⟨pending, stored, ok⟩ := bind_eq_ok.mp ok
  cases ok
  exact ⟨body, pending, encoded, mapError_eq_ok.mp stored, rfl⟩

/-- The fields are what the parser reads, and each of them is read back in one way. -/
theorem parse_plaintext (ok : x.plaintext json = .ok pt) (plain : x.Plain) :
    ∃ h, parseHandle pt = some h ∧ h.kind = x.kind.kind.code ∧ h.tenant = x.tenant.id ∧ h.expiresAt = x.expiresAt ∧
      unsealPending ⟨h.pending⟩ = .ok x.pending ∧ (x.kind.codec json).decode h.payload = .ok x.payload := by
  obtain ⟨body, pending, encoded, stored, rfl⟩ := plaintext_ok ok
  have bodyShort : body.length < 2 ^ 32 := lt_of_le_of_lt (Codec.length_encode _ encoded) (by decide)
  have pendingShort : pending.bytes.length < 2 ^ 32 := lt_of_le_of_lt (length_sealPending stored) (by decide)
  refine ⟨_, parseHandle_plaintext x.kind.kind x.tenant x.expiresAt pendingShort bodyShort, rfl, rfl, ?_, ?_, ?_⟩
  · exact Decoder.unixEpoch_add_unixNano plain.early plain.late
  · exact unsealPending_sealPending plain.formed stored
  · exact Codec.decode_encode _ (StatelessKind.unmarshal_marshal json plain.texts) encoded

theorem eq_of_plaintext (ok : x.plaintext json = .ok pt) (plain : x.Plain) (ok' : y.plaintext json = .ok pt)
    (plain' : y.Plain) : x = y := by
  obtain ⟨h, parsed, kind, tenant, ends, pending, payload⟩ := parse_plaintext ok plain
  obtain ⟨h', parsed', kind', tenant', ends', pending', payload'⟩ := parse_plaintext ok' plain'
  cases parsed.symm.trans parsed'
  have sameKind : x.kind = y.kind := StatelessKind.kind_injective (Kind.code_injective (kind.symm.trans kind'))
  have sameTenant : x.tenant = y.tenant := tenant_eq (tenant.symm.trans tenant')
  have samePending : x.pending = y.pending := Except.ok.inj (pending.symm.trans pending')
  have sameEnds : x.expiresAt = y.expiresAt := ends.symm.trans ends'
  cases x
  cases y
  -- The payloads are of one type once the kinds are the same.
  cases sameKind
  cases sameTenant
  cases samePending
  cases sameEnds
  cases Except.ok.inj (payload.symm.trans payload')
  rfl

end Contents

theorem sealPending_expiry {p : Pending} {s : Sealed} (ok : sealPending p = .ok s) :
    minUnixNano ≤ p.expiresAt ∧ p.expiresAt ≤ maxUnixNano := by
  simp only [sealPending, ite_error_eq_ok] at ok
  replace ok := ok.2
  split at ok
  · cases ok
  next checked =>
    have dated : p.expiresAt ≠ 0 := by
      intro zero
      simp [checkPending, zero] at checked
    obtain ⟨fields, encoded, -⟩ := bind_eq_ok.mp ok
    simp only [Encoder.pending, bind_eq_ok] at encoded
    obtain ⟨-, -, b, written, -⟩ := encoded
    simp only [Encoder.time, dated, if_false, ite_error_eq_ok, not_or, not_lt] at written
    exact written.1

theorem Kind.expiresAt_le {k : Kind} (admits : k.admitsSession = true) (pendingEnd now : Time) :
    k.expiresAt pendingEnd now ≤ pendingEnd := by
  simp only [Kind.expiresAt, admits, true_and]
  split
  · exact le_rfl
  next later => exact not_lt.mp later

/-- The expiry of a handle is that of its kind, as far as its Pending lasts; one that is not before 1677 is in range. -/
theorem expiry_sealHandle {json : Json} {s : Sealer} {k : StatelessKind} {payload : k.Payload} {nonce : Nonce}
    {sealedAt : Time} {p : Pending} {issued : Issued} (late : minUnixNano ≤ k.kind.expiresAt p.expiresAt sealedAt)
    (stored : (k.codec json).sealHandle s nonce sealedAt p payload = .ok issued) :
    issued.expiresAt = k.kind.expiresAt p.expiresAt sealedAt ∧ issued.expiresAt ≤ p.expiresAt ∧
      issued.sealedExpiry = issued.expiresAt := by
  obtain ⟨-, -, ends, -, _, _, -, sealed', -⟩ := Codec.sealHandle_ok stored
  rw [StatelessKind.codec_kind] at ends
  have within : issued.expiresAt ≤ p.expiresAt := by
    rw [ends]
    exact Kind.expiresAt_le k.admitsSession _ _
  exact ⟨ends, within, Issued.sealedExpiry_eq (ends ▸ late) (within.trans (sealPending_expiry sealed').2)⟩

/-- A handle opens to what was sealed, for its kind and its tenant and before its expiry; its layout is read in one
way, and nothing but a layout is read. -/
theorem handle_exact (json : Json) (s : Sealer) :
    (∀ (k : StatelessKind) (payload : k.Payload) (nonce : Nonce) (sealedAt : Time) (p : Pending) (issued : Issued),
      p.Formed → (∀ text ∈ k.strings payload, Utf8.Valid text) →
      minUnixNano ≤ k.kind.expiresAt p.expiresAt sealedAt →
      (k.codec json).sealHandle s nonce sealedAt p payload = .ok issued →
        issued.expiresAt = k.kind.expiresAt p.expiresAt sealedAt ∧ issued.expiresAt ≤ p.expiresAt ∧
        (∃ pt, (Contents.mk k p.tenant issued.expiresAt p payload).plaintext json = .ok pt ∧
          issued.handle = s.encodeText (s.raw nonce pt)) ∧
        (∀ now < issued.expiresAt, ∃ raw, s.decodeText issued.handle = some raw ∧
          (k.codec json).openHandle s p.tenant issued.handle now =
            .ok ⟨p, payload, issued.expiresAt, .handle raw⟩) ∧
        ∀ (Q : Type) (c : Codec Q) (t : TenantID) (now : Time),
          c.kind ≠ k.kind ∨ t ≠ p.tenant ∨ issued.expiresAt ≤ now →
            ∃ err, c.openHandle s t issued.handle now = .error err) ∧
    (∀ (x y : Contents) (pt : Bytes), x.Plain → y.Plain →
      x.plaintext json = .ok pt → y.plaintext json = .ok pt → x = y) ∧
    ∀ (pt : Bytes) (h : HandleFields), parseHandle pt = some h → h.Fits ∧ pt = h.layout := by
  refine ⟨?_, fun x y pt plain plain' ok ok' => Contents.eq_of_plaintext ok plain ok' plain',
    fun pt h => parseHandle_eq_some⟩
  intro k payload nonce sealedAt p issued formed texts late stored
  obtain ⟨ends, within, exact'⟩ := expiry_sealHandle late stored
  obtain ⟨-, -, -, -, body, pending, encoded, sealed', text⟩ := Codec.sealHandle_ok stored
  refine ⟨ends, within, ⟨_, ?_, text⟩, ?_, ?_⟩
  · simp only [Contents.plaintext, encoded, sealed', StatelessKind.codec_kind]
    rfl
  · intro now early
    rw [← exact'] at early ⊢
    exact Codec.openHandle_sealHandle formed (StatelessKind.unmarshal_marshal json texts) stored early
  · intro Q c t now differs
    cases outcome : c.openHandle s t issued.handle now with
    | error err => exact ⟨err, rfl⟩
    | ok o =>
      have bytes := s.text (s.raw nonce (plaintext (k.codec json).kind p.tenant pending.bytes body issued.expiresAt))
      rw [← text] at bytes
      obtain ⟨tenant, -, -, kind, early⟩ := Codec.openHandle_of_sealHandle stored bytes bytes outcome
      rw [exact'] at early
      rw [StatelessKind.codec_kind] at kind
      rcases differs with other | other | over'
      · exact absurd kind other
      · exact absurd tenant other
      · exact absurd early (not_lt.mpr over')

namespace Sample

def oauthOf : List Bytes → Option OAuth
  | [provider, pkceVerifier, nonce, redirectURI] => some ⟨provider, pkceVerifier, nonce, redirectURI⟩
  | _ => none

/-- Strings as JSON reads them, in frames in place of its syntax. -/
def json : Json where
  webAuthn w := w.session
  oauth o := Jwt.Framed.frame [Utf8.replaced o.provider, Utf8.replaced o.pkceVerifier, Utf8.replaced o.nonce,
    Utf8.replaced o.redirectURI]
  external e := Utf8.replaced e.name
  readWebAuthn b := some ⟨b⟩
  readOAuth b := oauthOf (Jwt.Framed.unframe [] b)
  readExternal b := some ⟨b⟩
  bytes _ := rfl
  oauthStrings o := by rw [Jwt.Framed.unframe_frame]; rfl
  externalStrings _ := rfl

def login (name : Bytes) (now : Time) : Except HandleErr Issued :=
  (externalLogin json).sealHandle Once.Sample.sealer Once.Sample.nonce now Once.Sample.pending ⟨name⟩

def contents (name : Bytes) : Contents :=
  ⟨.externalLogin, .zero, unixEpoch, Once.Sample.pending, (⟨name⟩ : External)⟩

def reopened (name : Bytes) (sealedAt now : Time) : Option (Opened External) :=
  (login name sealedAt).toOption.bind fun issued =>
    ((externalLogin json).openHandle Once.Sample.sealer .zero issued.handle now).toOption

end Sample

open Sample Once.Sample

theorem handle_exact_login :
    ∃ issued, login [65] unixEpoch = .ok issued ∧
      ∃ raw, (externalLogin json).openHandle sealer .zero issued.handle (unixEpoch + Duration.minute) =
        .ok ⟨pending, ⟨[65]⟩, issued.expiresAt, .handle raw⟩ := by
  obtain ⟨opens, -, -⟩ := handle_exact json sealer
  have succeeds : (login [65] unixEpoch).toOption.any
      (fun issued => decide (unixEpoch + Duration.minute < issued.expiresAt)) = true := by decide +kernel
  cases stored : login [65] unixEpoch with
  | error err =>
    rw [stored] at succeeds
    cases succeeds
  | ok issued =>
    rw [stored] at succeeds
    have early : unixEpoch + Duration.minute < issued.expiresAt := of_decide_eq_true succeeds
    have formed : pending.Formed :=
      { version := fun _ => rfl
        bound := by decide
        unbound := by decide
        subjects := by decide
        ordered := by simp [pending, Pending.zero] }
    have texts : ∀ text ∈ StatelessKind.strings .externalLogin (⟨[65]⟩ : External), Utf8.Valid text := by
      intro text member
      cases List.mem_singleton.mp member
      exact ⟨['A'], rfl⟩
    obtain ⟨-, -, -, own, -⟩ := opens .externalLogin _ _ _ _ _ formed texts (by decide) stored
    obtain ⟨raw, -, opened⟩ := own _ early
    exact ⟨issued, rfl, raw, opened⟩

/-- A name that is not UTF-8 comes back as another one, and two such names are laid out alike. A clock so early
that the handle ends before 1677 seals an expiry that lies after that of the Pending. -/
theorem handle_altered :
    (reopened [0xFF] unixEpoch unixEpoch).map Opened.payload = some ⟨[0xEF, 0xBF, 0xBD]⟩ ∧
      ((contents [0xFF]).plaintext json).toOption.isSome = true ∧
      ((contents [0xFF]).plaintext json).toOption = ((contents [0xFE]).plaintext json).toOption ∧
      (reopened [65] (minUnixNano - Duration.hour) (pending.expiresAt + 1)).any
        (fun o => decide (pending.expiresAt < o.expiresAt)) = true := by
  decide +kernel

end Egauth.Ceremony
