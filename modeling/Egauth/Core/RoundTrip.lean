import Egauth.Core.Codec

/-! What was sealed is unsealed.

Every field of the decoder takes back what the encoder wrote for it, and the
two orders of the fields agree.
-/

set_option autoImplicit false

namespace Egauth.Core
open Wire (Reads)

theorem Encoder.bytes_ne_nil (p : Bytes) : Encoder.bytes p ≠ [] := by
  simp [Encoder.bytes, Encoder.count, Wire.appendUvarint_ne_nil]

theorem Encoder.factors_ne_nil (fs : List Factor) : Encoder.factors fs ≠ [] := by
  simp [Encoder.factors, Encoder.count, Wire.appendUvarint_ne_nil]

namespace Decoder

theorem count_reads (n : Nat) : Reads n count (Encoder.count n) n := by
  intro rest long short
  have small : n < 2 ^ 64 := by
    rw [List.length_append] at short
    omega
  simp only [count, Encoder.count, Wire.uvarint_appendUvarint small]
  rw [if_neg (Nat.not_lt.mpr long)]

theorem bytes_reads (p : Bytes) : Reads 0 bytes (Encoder.bytes p) p := by
  have taken : Reads 0 (take p.length) p p := by
    intro rest _ _
    simp [take]
  exact (count_reads p.length).bind taken (by simp)

theorem fixed_reads {p : Bytes} {size : Nat} (length : p.length = size) :
    Reads 0 (fixed size) (Encoder.bytes p) p :=
  (bytes_reads p).last (if_neg (not_not.mpr length))

theorem u64_reads (v : UInt64) : Reads 0 u64 (Encoder.u64 v) v := by
  refine (fixed_reads (Wire.length_bigEndian 8 _)).last ?_
  rw [Wire.ofBigEndian_bigEndian v.toNat_lt, UInt64.ofNat_toNat]

theorem bool_reads (v : Bool) : Reads 0 bool (Encoder.bool v) v := by
  refine (fixed_reads rfl).last ?_
  cases v <;> rfl

theorem uuid_reads (u : UUID) : Reads 0 uuid (Encoder.uuid u) u := (bytes_reads u.bytes).last (dif_pos u.size)

theorem transport_reads (t : Option Transport) : Reads 0 transport (Encoder.transport t) t := by
  refine (fixed_reads rfl).last ?_
  rcases t with _ | _ | _ <;> rfl

/-- Within the range of the codec the nanoseconds are an Int64, sign included. -/
theorem unixEpoch_add_unixNano {t : Time} (least : minUnixNano ≤ t) (greatest : t ≤ maxUnixNano) :
    unixEpoch + (unixNano t).toInt = t := by
  have exact : (unixNano t).toInt = t - unixEpoch := by
    unfold minUnixNano at least
    unfold maxUnixNano at greatest
    exact Int64.toInt_ofInt_of_le (by linarith) (by linarith)
  rw [exact, add_sub_cancel]

variable {b : Bytes}

/-- The zero time is the empty field; another one keeps its sign through the unsigned number. -/
theorem time_reads {t : Time} (ok : Encoder.time t = .ok b) : Reads 0 time b t := by
  unfold Encoder.time at ok
  split at ok
  next zero =>
    cases ok
    exact (bytes_reads []).last (by rw [zero]; rfl)
  · simp only [ite_error_eq_ok, not_or, not_lt] at ok
    obtain ⟨⟨least, greatest⟩, ok⟩ := ok
    cases ok
    refine (bytes_reads _).last ?_
    have width := Wire.length_bigEndian 8 (unixNano t).toUInt64.toNat
    have nonempty : Wire.bigEndian 8 (unixNano t).toUInt64.toNat ≠ [] := by
      intro nil
      rw [nil] at width
      cases width
    rw [if_neg nonempty, if_neg (not_not.mpr width), Wire.ofBigEndian_bigEndian (UInt64.toNat_lt _),
      UInt64.ofNat_toNat, Int64.toInt64_toUInt64]
    rw [unixEpoch_add_unixNano least greatest]

theorem subject_reads (t : TenantID) (user : UUID) :
    Reads 0 subject (Encoder.subjectTenant t user) ⟨t, user⟩ := by
  refine (bytes_reads t.id).seq ((uuid_reads user).last ?_)
  split
  next empty =>
    have zero : t = .zero := by
      cases t
      cases empty
      rfl
    rw [zero]
  next nonzero => rw [parseTenantID_id nonzero]

theorem factor_reads {f : Factor} (valid : f.valid = true) : Reads 0 factor (Encoder.bytes f.code) f :=
  (bytes_reads f.code).last (by rw [factorByCode_code valid])

/-- The list read so far and the rest of it are in order together. -/
theorem factorsLoop_reads {fs out : List Factor} (ordered : Ordered (out ++ fs)) (valid : ∀ f ∈ fs, f.valid = true) :
    Reads 0 (factorsLoop fs.length out) (fs.flatMap fun f => Encoder.bytes f.code) (out ++ fs) := by
  induction fs generalizing out with
  | nil =>
    rw [List.append_nil]
    exact Reads.pure out
  | cons f fs ih =>
    have above : ¬(out.getLast?.any fun last => f.code ≤ last.code) = true := by
      cases found : out.getLast? with
      | none => simp
      | some last =>
        have below := (List.pairwise_append.mp ordered).2.2 last (List.mem_of_getLast? found) f (by simp)
        simpa using below
    rw [List.append_cons] at ordered ⊢
    refine (factor_reads (valid f (by simp))).seq ?_
    rw [if_neg above]
    exact ih ordered fun f member => valid f (List.mem_cons_of_mem _ member)

theorem factors_reads {fs : List Factor} (ordered : Ordered fs) (valid : ∀ f ∈ fs, f.valid = true) :
    Reads 0 factors (Encoder.factors fs) fs := by
  refine (count_reads fs.length).bind (factorsLoop_reads ordered valid) ?_
  refine Wire.length_le_flatten ?_
  rw [List.forall₂_map_left_iff, List.forall₂_same]
  exact fun f _ => Encoder.bytes_ne_nil f.code

theorem credentialUse_reads {u : CredentialUse} (valid : u.factor.valid = true) :
    Reads 0 credentialUse (Encoder.credentialUse u) u :=
  (factor_reads valid).seq ((bytes_reads u.id).last rfl)

theorem many_reads {A B : Type} {item : Wire.Reader Err A} {next : List A → Wire.Reader Err B}
    {encoded : List Bytes} {as : List A} {bytes : Bytes} {b : B}
    (each : List.Forall₂ (fun b a => b ≠ [] ∧ Reads 0 item b a) encoded as) (after : Reads 0 (next as) bytes b) :
    Reads 0 (count >>= fun n => Wire.Reader.many item n >>= next)
      (Encoder.count as.length ++ (encoded.flatten ++ bytes)) b := by
  have items := Reads.many (each.imp fun _ _ facts => facts.2)
  refine (count_reads as.length).bind (items.seq after) ?_
  -- The count is checked against the input that is left, which holds a byte for each item.
  have counted := Wire.length_le_flatten (each.imp fun _ _ facts => facts.1)
  rw [List.length_append]
  omega

theorem attrs_reads {a : SessionAttrs} (version : a.version = codecVersion)
    (ordered : Ordered a.factors) (valid : ∀ f ∈ a.factors, f.valid = true)
    (uses : ∀ u ∈ a.credentialIDs, u.factor.valid = true) (ok : Encoder.attrs a = .ok b) :
    Reads 0 attrs b a := by
  simp only [Encoder.attrs, bind_eq_ok] at ok
  obtain ⟨_, primaryAt, _, secondAt, _, createdAt, _, claimsFetchedAt, ok⟩ := ok
  cases ok
  -- Field by field, in the order of the encoder.
  refine (uuid_reads _).seq ((subject_reads _ _).seq ((factors_reads ordered valid).seq ?_))
  have each : List.Forall₂ (fun b u => b ≠ [] ∧ Reads 0 credentialUse b u)
      (a.credentialIDs.map Encoder.credentialUse) a.credentialIDs := by
    rw [List.forall₂_map_left_iff, List.forall₂_same]
    exact fun u member => ⟨by simp [Encoder.credentialUse, Encoder.bytes_ne_nil], credentialUse_reads (uses u member)⟩
  refine many_reads each ?_
  refine (time_reads primaryAt).seq ((time_reads secondAt).seq ((u64_reads _).seq ((bool_reads _).seq
    ((bool_reads _).seq ((bytes_reads _).seq ((transport_reads _).seq ((bytes_reads _).seq
    ((time_reads createdAt).seq ((time_reads claimsFetchedAt).last ?_)))))))))
  rw [← version]

theorem verified_reads {v : Verified} (ordered : Ordered v.factors)
    (valid : ∀ f ∈ v.factors, f.valid = true) (ok : Encoder.verified v = .ok b) :
    b ≠ [] ∧ Reads 0 (verified v.subject) b v := by
  simp only [Encoder.verified, bind_eq_ok] at ok
  obtain ⟨_, verifiedAt, ok⟩ := ok
  cases ok
  refine ⟨by simp [Encoder.factors_ne_nil], ?_⟩
  exact (factors_reads ordered valid).seq ((bytes_reads _).seq ((bool_reads _).seq ((bytes_reads _).seq
    ((time_reads verifiedAt).last rfl))))

theorem whole_reads {A : Type} {fields : Wire.Reader Err A} {a : A} (reads : Reads 0 fields b a)
    (short : b.length < 2 ^ 64) : whole fields b = .ok a := by
  have read := reads [] (Nat.zero_le _) (by rwa [List.append_nil])
  rw [List.append_nil] at read
  simp only [whole, read]
  rfl

end Decoder

variable {s : Sealed}

theorem finish_new {tag : UInt8} {fields : Bytes} (ok : Encoder.finish tag fields = .ok s) :
    Decoder.new s.bytes tag = .ok fields ∧ fields.length < 2 ^ 64 := by
  simp only [Encoder.finish, ite_error_eq_ok, gt_iff_lt, not_lt] at ok
  obtain ⟨bounded, ok⟩ := ok
  cases ok
  have within : ¬(([codecVersion, tag] ++ fields).length < 2 ∨
      ([codecVersion, tag] ++ fields).length > maxSealedLen) := by
    simp only [List.length_append, List.length_cons, List.length_nil] at bounded ⊢
    omega
  constructor
  · rw [Decoder.new, if_neg within]
    simp
  · simp only [List.length_append, List.length_cons, List.length_nil, maxSealedLen] at bounded
    omega

theorem accept_self {A : Type} {a : A} {check : Option Err} {reseal : Except Err Sealed}
    (passed : check = none) (same : reseal = .ok s) : accept a check s.bytes reseal = .ok a := by
  simp [accept, canonical, passed, same]

/-- What the codec asks of session attributes beyond its own checks; every transition gives it. -/
structure SessionAttrs.Formed (a : SessionAttrs) : Prop where
  version : a.version = codecVersion
  ordered : Ordered a.factors
  valid : ∀ f ∈ a.factors, f.valid = true

theorem SessionAttrs.Formed.reads {a : SessionAttrs} {fields : Bytes} (formed : a.Formed) (checked : checkAttrs a = none)
    (encoded : Encoder.attrs a = .ok fields) : Reads 0 Decoder.attrs fields a := by
  have uses : ∀ u ∈ a.credentialIDs, u.factor.valid = true := by
    intro u member
    by_contra invalid
    simp only [checkAttrs, ite_some_eq_none] at checked
    refine checked.2.1 ⟨u, member, .inl ⟨?_, ?_⟩⟩ <;>
      exact fun same => invalid (by rw [same]; rfl)
  exact Decoder.attrs_reads formed.version formed.ordered formed.valid uses encoded

theorem unsealAttrs_sealAttrs {a : SessionAttrs} (formed : a.Formed) (ok : sealAttrs a = .ok s) :
    unsealAttrs s = .ok a := by
  have resealed := ok
  simp only [sealAttrs, ite_error_eq_ok] at ok
  obtain ⟨-, ok⟩ := ok
  split at ok
  · cases ok
  next checked =>
    obtain ⟨fields, encoded, finished⟩ := bind_eq_ok.mp ok
    obtain ⟨opened, short⟩ := finish_new finished
    have read := Decoder.whole_reads (formed.reads checked encoded) short
    simp only [unsealAttrs, opened, bind_eq_ok]
    exact ⟨fields, rfl, a, read, accept_self checked resealed⟩

/-- What the codec asks of a Pending beyond its own checks: the subjects it does not store can be restored. -/
structure Pending.Formed (p : Pending) : Prop where
  version : p.version ≠ 0 → p.version = codecVersion
  bound : p.bound = true → p.subject.tenant = p.tenant
  unbound : p.bound = false → p.subject = .zero
  subjects : ∀ v ∈ p.verified, v.subject = p.subject
  ordered : ∀ v ∈ p.verified, Ordered v.factors

theorem Pending.Formed.subject {p : Pending} (formed : p.Formed) :
    (if Subject.isZero ⟨p.tenant, p.subject.user⟩ then Subject.zero else ⟨p.tenant, p.subject.user⟩) = p.subject := by
  by_cases zero : p.subject.user = .nil
  · have unbound : p.bound = false := by simp [Pending.bound, zero]
    rw [if_pos (by simpa using zero)]
    exact (formed.unbound unbound).symm
  · have bound : p.bound = true := by simp [Pending.bound, Subject.isZero, zero]
    rw [if_neg (by simpa using zero), ← formed.bound bound]

theorem Decoder.pending_reads {p : Pending} {b : Bytes} (formed : p.Formed) (nonzero : p.version ≠ 0)
    (valid : ∀ v ∈ p.verified, ∀ f ∈ v.factors, f.valid = true) (ok : Encoder.pending p = .ok b) :
    Reads 0 Decoder.pending b p := by
  simp only [Encoder.pending, bind_eq_ok] at ok
  obtain ⟨encoded, verified, _, expiresAt, ok⟩ := ok
  cases ok
  have items := forall₂_of_mapM verified
  refine (subject_reads p.tenant p.subject.user).seq ((u64_reads _).seq ?_)
  -- The subject of a Pending is stored with its tenant only; an unbound one reads as zero.
  rw [formed.subject]
  have each : List.Forall₂ (fun b v => b ≠ [] ∧ Reads 0 (Decoder.verified p.subject) b v) encoded p.verified := by
    refine items.imp fun b v ⟨member, written⟩ => ?_
    rw [← formed.subjects v member]
    exact verified_reads (formed.ordered v member) (valid v member) written
  refine many_reads each ?_
  refine (bool_reads _).seq ((bytes_reads _).seq ((transport_reads _).seq ((bytes_reads _).seq
    ((uuid_reads _).seq ((bytes_reads _).seq ((time_reads expiresAt).last ?_))))))
  rw [← formed.version nonzero]

theorem unsealPending_sealPending {p : Pending} (formed : p.Formed) (ok : sealPending p = .ok s) :
    unsealPending s = .ok p := by
  have resealed := ok
  simp only [sealPending, ite_error_eq_ok] at ok
  obtain ⟨nonzero, ok⟩ := ok
  split at ok
  · cases ok
  next checked =>
    obtain ⟨fields, encoded, finished⟩ := bind_eq_ok.mp ok
    obtain ⟨opened, short⟩ := finish_new finished
    have valid : ∀ v ∈ p.verified, ∀ f ∈ v.factors, f.valid = true := by
      intro v member
      simp only [checkPending, ite_some_eq_none] at checked
      have passed := List.findSome?_eq_none_iff.mp checked.2 v member
      simp only [checkVerified, ite_some_eq_none, Option.map_eq_none_iff] at passed
      exact (Shape.of_check passed.2).valid
    have read := Decoder.whole_reads (Decoder.pending_reads formed nonzero valid encoded) short
    simp only [unsealPending, opened, bind_eq_ok]
    exact ⟨fields, rfl, p, read, accept_self checked resealed⟩

end Egauth.Core
