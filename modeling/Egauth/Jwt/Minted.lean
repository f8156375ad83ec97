import Egauth.Core.Bijection
import Egauth.Jwt.Backend

/-! What a minted token says, and that it is read back.

`encode` and `verify` are separate code. A token that `encode` made is taken
apart into the very header and claim set it was made from, and `check` passes
that claim set in the same tenant and for the same audience.
-/

set_option autoImplicit false

namespace Egauth.Jwt
open Egauth.Core

theorem text_encode (b : Bytes) : Text (Base64.encode b) := text_of_ascii fun _ member => (Base64.mem_encode member).2.2

theorem text_tenant (t : TenantID) : Text t.id := by
  refine text_of_ascii fun c member => ?_
  rcases t.parsed with none | accepted
  · rw [none] at member
    cases member
  · simp only [checkTenant, ite_some_eq_none] at accepted
    obtain ⟨-, plain⟩ := accepted
    have byte : tenantByte c = true := by
      by_contra other
      rw [if_neg fun all => other (List.all_eq_true.mp all c member)] at plain
      cases plain
    simp only [tenantByte, Bool.or_eq_true, Bool.and_eq_true, decide_eq_true_eq, beq_iff_eq] at byte
    have bound := c.toNat_lt
    simp only [UInt8.le_iff_toNat_le, UInt8.lt_iff_toNat_lt, ← UInt8.toNat_inj, UInt8.reduceToNat] at byte ⊢
    omega

theorem text_amr (f : Factor) : Text (amr f) := by
  refine text_of_ascii ?_
  cases f <;> decide +kernel

theorem text_amrOf (fs : List Factor) : ∀ s ∈ amrOf fs, Text s := by
  have listed (out : List Bytes) (texts : ∀ s ∈ out, Text s) :
      ∀ s ∈ fs.foldl (fun out f => if amr f ≠ [] ∧ amr f ∉ out then out ++ [amr f] else out) out, Text s := by
    induction fs generalizing out with
    | nil => exact texts
    | cons f fs ih =>
      rw [List.foldl_cons]
      refine ih _ ?_
      split
      · intro s member
        rcases List.mem_append.mp member with old | new
        · exact texts s old
        · rw [List.mem_singleton.mp new]
          exact text_amr f
      · exact texts
  have plain := listed [] (by simp)
  unfold amrOf
  dsimp only
  split
  · intro s member
    rcases List.mem_append.mp member with old | new
    · exact plain s old
    · rw [List.mem_singleton.mp new]
      exact text_of_ascii (by decide +kernel)
  · exact plain

/-- The strings of the configuration are texts, so JSON keeps them as they are. -/
structure Codec.Texts (c : Codec) : Prop where
  fingerprint : Text c.fingerprint
  issuer : ∀ t iss, c.issuer t = .ok iss → Text iss

section
variable {lib : Library} {c : Codec} {m : Mint} {iss claims : Bytes} {stored : Sealed} {cs : ClaimSet}

def Mint.aud (m : Mint) (iss : Bytes) : Bytes := if m.audience = [] then iss else m.audience

def Mint.iat (m : Mint) : Int := unix m.issuedAt

def Mint.exp (m : Mint) : Int := m.iat + m.lifetime / Duration.second

def Mint.set (c : Codec) (m : Mint) (iss claims : Bytes) (stored : Sealed) : ClaimSet where
  iss := iss
  aud := m.aud iss
  sub := m.attrs.subject.user.string
  tid := m.attrs.subject.tenant.id
  sid := m.family.string
  iat := m.iat
  exp := m.exp
  typ := tokenType
  egv := version
  egc := c.fingerprint
  att := Base64.encode stored.bytes
  apc := claims
  amr := amrOf m.attrs.factors
  authTime := unix m.attrs.primaryAt

def Mint.token (m : Mint) (iss claims : Bytes) : Token :=
  ⟨iss, m.aud iss, m.family, ofUnix m.iat, ofUnix m.exp, m.attrs, claims⟩

structure Mint.Encodes (lib : Library) (c : Codec) (m : Mint) (iss claims : Bytes) (stored : Sealed) : Prop where
  family : m.family ≠ .nil
  least : Duration.second ≤ m.lifetime
  most : m.lifetime ≤ c.recheck
  issuer : c.issuer m.attrs.subject.tenant = .ok iss
  stored : sealAttrs m.attrs = .ok stored
  claims : compactClaims lib m.claims = .ok claims

theorem claimSet_ok {token : Token} (ok : c.claimSet lib m = .ok (cs, token)) :
    ∃ iss claims stored, m.Encodes lib c iss claims stored ∧ cs = m.set c iss claims stored ∧
      token = m.token iss claims := by
  simp only [Codec.claimSet, ite_error_eq_ok, not_or, not_lt, gt_iff_lt] at ok
  obtain ⟨⟨-, family, least, most⟩, ok⟩ := ok
  obtain ⟨iss, issuer, ok⟩ := bind_eq_ok.mp ok
  obtain ⟨stored, sealing, ok⟩ := bind_eq_ok.mp ok
  obtain ⟨claims, compacted, ok⟩ := bind_eq_ok.mp ok
  cases ok
  exact ⟨iss, claims, stored, ⟨family, least, most, issuer, mapError_eq_ok.mp sealing, mapError_eq_ok.mp compacted⟩,
    rfl, rfl⟩

theorem Mint.Encodes.wellFormed (encodes : m.Encodes lib c iss claims stored) (exact : lib.Exact) (texts : c.Texts)
    (audience : Text m.audience) : (m.set c iss claims stored).WellFormed lib := by
  refine ⟨?_, compactClaims_again exact encodes.claims⟩
  have issuer := texts.issuer _ iss encodes.issuer
  have aud : Text (m.aud iss) := by
    unfold Mint.aud
    split
    · exact issuer
    · exact audience
  intro s member
  simp only [Mint.set, List.cons_append, List.nil_append, List.mem_cons] at member
  rcases member with rfl | rfl | rfl | rfl | rfl | rfl | rfl | rfl | listed
  · exact issuer
  · exact aud
  · exact text_of_ascii fun c member => (UUID.string_ascii _ c member).2
  · exact text_tenant _
  · exact text_of_ascii fun c member => (UUID.string_ascii _ c member).2
  · exact text_of_ascii (by decide +kernel)
  · exact texts.fingerprint
  · exact text_encode _
  · exact text_amrOf _ s listed

theorem Key.wellFormed (k : Key) : (⟨k.alg.name, k.kid, tokenType⟩ : Header).WellFormed := by
  refine ⟨fun s member => text_of_ascii fun c byte => ?_⟩
  simp only [List.mem_cons, List.not_mem_nil, or_false] at member
  rcases member with rfl | rfl | rfl
  · have plain : ∀ alg : Alg, ∀ c ∈ alg.name, c < 128 := by
      intro alg
      cases alg <;> decide +kernel
    exact plain k.alg c byte
  · have named := List.all_eq_true.mp k.named.2 c byte
    simp only [keyIDByte, Bool.or_eq_true, Bool.and_eq_true, decide_eq_true_eq, beq_iff_eq] at named
    have bound := c.toNat_lt
    simp only [UInt8.le_iff_toNat_le, UInt8.lt_iff_toNat_lt, ← UInt8.toNat_inj, UInt8.reduceToNat] at named ⊢
    omega
  · revert c
    decide +kernel

theorem halves_eq {a b x y : Bytes} (plain : 46 ∉ x ∧ 46 ∉ y) (same : a ++ ascii "." ++ b = x ++ ascii "." ++ y) :
    a = x ∧ b = y := by
  have dot : ascii "." = [46] := rfl
  simp only [dot, List.append_assoc, List.singleton_append] at same
  -- Split at the dots, the right side has two pieces, so each half on the left is one of them.
  have pieces := congrArg (List.splitOn 46) same
  rw [List.splitOn_append_cons_self, List.splitOn_append_cons_self_of_not_mem plain.1,
    List.splitOn_eq_singleton plain.2] at pieces
  obtain ⟨u, us, first⟩ := List.exists_cons_of_ne_nil (List.splitOn_ne_nil 46 a)
  obtain ⟨v, vs, second⟩ := List.exists_cons_of_ne_nil (List.splitOn_ne_nil 46 b)
  have whole : [46].intercalate (List.splitOn 46 a) = a := List.intercalate_splitOn 46
  have whole' : [46].intercalate (List.splitOn 46 b) = b := List.intercalate_splitOn 46
  simp only [first, second, List.cons_append, List.cons.injEq] at pieces
  obtain ⟨rfl, rest⟩ := pieces
  obtain ⟨rfl, single⟩ : us = [] ∧ v :: vs = [y] := by
    cases us with
    | nil => exact ⟨rfl, rest⟩
    | cons z zs => simp at rest
  cases single
  rw [first, List.intercalate_singleton] at whole
  rw [second, List.intercalate_singleton] at whole'
  exact ⟨whole.symm, whole'.symm⟩

theorem encode_plain (b : Bytes) : 46 ∉ Base64.encode b := fun member => (Base64.mem_encode member).2.1 rfl

theorem splitOn_signed (h : Header) (cs : ClaimSet) (signature : Bytes) :
    (signingInput lib h cs ++ ascii "." ++ Base64.encode signature).splitOn 46 =
      [Base64.encode (lib.header h), Base64.encode (lib.claims cs), Base64.encode signature] := by
  have dot : ascii "." = [46] := rfl
  simp only [signingInput, dot, List.append_assoc, List.cons_append, List.nil_append]
  rw [List.splitOn_append_cons_self_of_not_mem (encode_plain _), List.splitOn_append_cons_self_of_not_mem (encode_plain _),
    List.splitOn_eq_singleton (encode_plain _)]

theorem parseToken_signed (exact : lib.Exact) (formed : cs.WellFormed lib) (k : Key) {signature : Bytes}
    (short : (signingInput lib ⟨k.alg.name, k.kid, tokenType⟩ cs ++ ascii "." ++
      Base64.encode signature).length ≤ maxTokenLen) :
    parseToken lib (signingInput lib ⟨k.alg.name, k.kid, tokenType⟩ cs ++ ascii "." ++ Base64.encode signature) =
      .ok ⟨⟨k.alg.name, k.kid, tokenType⟩, cs, signingInput lib ⟨k.alg.name, k.kid, tokenType⟩ cs, signature⟩ := by
  have algorithm : k.alg.name ≠ [] := by
    cases k.alg <;> decide
  have proper : ¬(signingInput lib ⟨k.alg.name, k.kid, tokenType⟩ cs ++ ascii "." ++ Base64.encode signature = [] ∨
      (signingInput lib ⟨k.alg.name, k.kid, tokenType⟩ cs ++ ascii "." ++ Base64.encode signature).length >
        maxTokenLen) := by
    refine not_or.mpr ⟨?_, Nat.not_lt.mpr short⟩
    simp [ascii]
  unfold parseToken
  rw [if_neg proper, splitOn_signed]
  simp [exact.header _ k.wellFormed, exact.claims cs formed, algorithm, k.named.1, signingInput, Except.bind, bind,
    pure, Except.pure]

theorem parseToken_short {raw : Bytes} {parts : Parts} (parsed : parseToken lib raw = .ok parts) :
    raw.length ≤ maxTokenLen := by
  unfold parseToken at parsed
  obtain ⟨proper, -⟩ := ite_error_eq_ok.mp parsed
  exact Nat.not_lt.mp fun long => proper (.inr long)

/-- Whatever is taken apart with an input that was signed, its claim set is the one that was signed. -/
theorem parseToken_claims (exact : lib.Exact) (formed : cs.WellFormed lib) {h : Header} {raw : Bytes}
    {parts : Parts} (parsed : parseToken lib raw = .ok parts) (same : parts.input = signingInput lib h cs) :
    parts.claims = cs := by
  unfold parseToken at parsed
  obtain ⟨-, parsed⟩ := ite_error_eq_ok.mp parsed
  split at parsed
  next first second third _ =>
    obtain ⟨hb, -, parsed⟩ := bind_eq_ok.mp parsed
    obtain ⟨header, -, parsed⟩ := bind_eq_ok.mp parsed
    obtain ⟨-, parsed⟩ := ite_error_eq_ok.mp parsed
    obtain ⟨pb, payload, parsed⟩ := bind_eq_ok.mp parsed
    obtain ⟨signature, -, parsed⟩ := bind_eq_ok.mp parsed
    obtain ⟨claims, read, parsed⟩ := bind_eq_ok.mp parsed
    cases parsed
    obtain ⟨-, rfl⟩ := halves_eq ⟨encode_plain _, encode_plain _⟩ same
    rw [Base64.decode_encode] at payload
    cases payload
    rw [exact.claims cs formed] at read
    exact (Except.ok.inj read).symm
  · cases parsed

theorem parseTenant_id (t : TenantID) : parseTenant t.id = .ok t := by
  unfold parseTenant
  split
  next none =>
    obtain ⟨id, parsed⟩ := t
    cases none
    rfl
  next some => rw [parseTenantID_id some, Except.mapError]

theorem canonicalUUID_string {u : UUID} (some : u ≠ .nil) : canonicalUUID u.string = .some u := by
  simp [canonicalUUID, UUID.parse_string, some]

theorem ofUnix_unix_le (t : Time) : ofUnix (unix t) ≤ t := by
  unfold ofUnix unix Duration.second
  lia

theorem check_set (exact : lib.Exact) (encodes : m.Encodes lib c iss claims stored) (formed : m.attrs.Formed)
    (apart : m.audience ≠ [] → m.audience ≠ iss) (born : 0 < m.iat) (range : m.exp ≤ maxUnixSeconds) {now : Time}
    (skew : m.issuedAt - maxIssuedAtSkew ≤ now) :
    c.check lib now (m.set c iss claims stored) m.attrs.subject.tenant m.audience =
      .ok (m.token iss claims, decide (¬ now < ofUnix m.exp)) := by
  have checked := (sealAttrs_ok encodes.stored).1
  simp only [checkAttrs, ite_some_eq_none, not_or, Bool.not_eq_true] at checked
  have user : m.attrs.subject.user ≠ .nil := by
    intro none
    have zero := checked.1.2.1
    rw [(Subject.isZero_iff _).mpr none] at zero
    cases zero
  have lifetime : 0 < m.lifetime / Duration.second := by
    have least := encodes.least
    unfold Duration.second at least ⊢
    lia
  have most : m.lifetime / Duration.second ≤ c.recheck / Duration.second :=
    Int.ediv_le_ediv (by decide) encodes.most
  have window : ¬(m.iat ≤ 0 ∨ m.exp ≤ m.iat ∨ m.exp > maxUnixSeconds ∨ m.exp - m.iat > c.recheck / Duration.second) := by
    unfold Mint.exp at range ⊢
    lia
  have issued : ¬ ofUnix m.iat > now + maxIssuedAtSkew := by
    have before := ofUnix_unix_le m.issuedAt
    unfold Mint.iat
    lia
  have audience : ¬(m.aud iss ≠ (if m.audience = [] then iss else m.audience) ∨ (m.audience ≠ [] ∧ m.aud iss = iss)) := by
    unfold Mint.aud
    split
    next none => simp [none]
    next some => simp [some, apart some]
  have opened : unsealAttrs ⟨stored.bytes⟩ = .ok m.attrs := unsealAttrs_sealAttrs formed encodes.stored
  have again := compactClaims_again exact encodes.claims
  simp only [Codec.check, Mint.set, encodes.issuer, Except.mapError, if_neg audience, if_neg window, if_neg issued,
    canonicalUUID_string encodes.family, canonicalUUID_string user, Base64.decode_encode, opened, again, bind, Except.bind,
    pure, Except.pure, Option.elim, ne_eq, not_true, or_self, ↓reduceIte]
  rfl

theorem check_attrs {now : Time} {tenant : TenantID} {audience : Bytes} {result : Token × Bool}
    (ok : c.check lib now cs tenant audience = .ok result) :
    ∃ stored, Base64.decode cs.att = some stored ∧ unsealAttrs ⟨stored⟩ = .ok result.1.attrs := by
  simp only [Codec.check, ite_error_eq_ok] at ok
  obtain ⟨-, -, ok⟩ := ok
  obtain ⟨iss, -, ok⟩ := bind_eq_ok.mp ok
  obtain ⟨-, ok⟩ := ite_error_eq_ok.mp ok
  obtain ⟨-, ok⟩ := ite_error_eq_ok.mp ok
  obtain ⟨-, ok⟩ := ite_error_eq_ok.mp ok
  obtain ⟨-, ok⟩ := ite_error_eq_ok.mp ok
  obtain ⟨family, -, ok⟩ := bind_eq_ok.mp ok
  obtain ⟨user, -, ok⟩ := bind_eq_ok.mp ok
  obtain ⟨stored, decoded, ok⟩ := bind_eq_ok.mp ok
  obtain ⟨attrs, opened, ok⟩ := bind_eq_ok.mp ok
  obtain ⟨-, ok⟩ := ite_error_eq_ok.mp ok
  obtain ⟨claims, -, ok⟩ := bind_eq_ok.mp ok
  obtain ⟨-, ok⟩ := ite_error_eq_ok.mp ok
  cases ok
  refine ⟨stored, ?_, mapError_eq_ok.mp opened⟩
  cases read : Base64.decode cs.att with
  | none =>
    rw [read] at decoded
    cases decoded
  | some bytes =>
    rw [read] at decoded
    cases decoded
    rfl

/-- A claim set passes the checks of the audience it was minted for only. -/
theorem check_audience (encodes : m.Encodes lib c iss claims stored) {now : Time} {audience : Bytes} {result : Token × Bool}
    (apart : m.audience ≠ [] → m.audience ≠ iss)
    (ok : c.check lib now (m.set c iss claims stored) m.attrs.subject.tenant audience = .ok result) :
    audience = m.audience := by
  simp only [Codec.check, ite_error_eq_ok] at ok
  obtain ⟨-, -, ok⟩ := ok
  obtain ⟨iss', issuer, ok⟩ := bind_eq_ok.mp ok
  obtain rfl : iss' = iss := Except.ok.inj ((mapError_eq_ok.mp issuer).symm.trans encodes.issuer)
  obtain ⟨-, ok⟩ := ite_error_eq_ok.mp ok
  obtain ⟨meant, -⟩ := ite_error_eq_ok.mp ok
  simp only [not_or, not_and, not_not, Mint.set, Mint.aud] at meant
  obtain ⟨same, other⟩ := meant
  by_cases none : m.audience = []
  · rw [if_pos none] at same other
    by_cases own : audience = []
    · rw [own, none]
    · exact absurd rfl (other own)
  · rw [if_neg none] at same
    by_cases own : audience = []
    · rw [if_pos own] at same
      exact absurd same (apart none)
    · rw [if_neg own] at same
      exact same.symm

end

theorem Sample.codec_texts : Sample.codec.Texts := by
  refine ⟨text_of_ascii (by decide +kernel), fun t iss ok => ?_⟩
  have plain : ¬ tenantMarker <:+: Sample.codec.origin := by decide
  rw [Codec.issuer, if_pos plain] at ok
  cases ok
  exact text_of_ascii (by decide +kernel)

theorem Sample.audiences_texts : ∀ audience ∈ Sample.backend.audiences, Text audience := by
  intro audience listed
  rw [List.mem_singleton.mp listed]
  exact text_of_ascii (by decide +kernel)

end Egauth.Jwt
