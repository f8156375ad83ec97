import Egauth.Core.Lineage

/-! Sealed bytes and the values they stand for.

Sealing and unsealing are inverse to each other on the bytes that are accepted,
and the values of the transitions are refused by the codec for their size or
for the range of its times only.
-/

set_option autoImplicit false

namespace Egauth.Core
open Wire (Reads Reader Yields)

namespace Decoder

theorem factor_yields : Yields factor fun f => f.valid = true := by
  refine .skip fun code => ?_
  unfold factorByCode
  -- The table holds the closed set, and the zero Factor is not in it.
  cases found : factorTable.find? fun f => f.code == code with
  | none => exact .fail _
  | some f =>
    have listed : ∀ g ∈ factorTable, g.valid = true := by decide
    exact .pure (listed f (List.mem_of_find?_eq_some found))

theorem ordered_append {out : List Factor} {f : Factor} (ordered : Ordered out)
    (above : ¬(out.getLast?.any fun last => f.code ≤ last.code) = true) : Ordered (out ++ [f]) := by
  refine List.pairwise_append.mpr ⟨ordered, List.pairwise_singleton _ f, fun g member f' single => ?_⟩
  rw [List.mem_singleton.mp single]
  cases found : out.getLast? with
  | none =>
    rw [List.getLast?_eq_none_iff.mp found] at member
    cases member
  | some last =>
    have below : last.code < f.code := by simpa [found] using above
    obtain ⟨front, rfl⟩ := List.getLast?_eq_some_iff.mp found
    rcases List.mem_append.mp member with earlier | this
    · exact List.lt_trans ((List.pairwise_append.mp ordered).2.2 g earlier last (by simp)) below
    · rwa [List.mem_singleton.mp this]

theorem factorsLoop_yields {n : Nat} {out : List Factor} (ordered : Ordered out)
    (valid : ∀ f ∈ out, f.valid = true) :
    Yields (factorsLoop n out) fun fs => Ordered fs ∧ ∀ f ∈ fs, f.valid = true := by
  induction n generalizing out with
  | zero => exact .pure ⟨ordered, valid⟩
  | succ n ih =>
    refine factor_yields.bind fun f known => ?_
    split
    · exact .fail _
    next above =>
      refine ih (ordered_append ordered above) fun g member => ?_
      rcases List.mem_append.mp member with earlier | this
      · exact valid g earlier
      · rwa [List.mem_singleton.mp this]

theorem factors_yields : Yields factors fun fs => Ordered fs ∧ ∀ f ∈ fs, f.valid = true :=
  .skip fun _ => factorsLoop_yields .nil (by simp)

theorem attrs_yields : Yields attrs SessionAttrs.Formed := by
  refine .skip fun _ => .skip fun _ => factors_yields.bind fun fs formed => ?_
  obtain ⟨ordered, valid⟩ := formed
  -- The fields after the factors go into the value as they are.
  refine .skip fun _ => .skip fun _ => .skip fun _ => .skip fun _ => .skip fun _ => .skip fun _ => .skip fun _ =>
    .skip fun _ => .skip fun _ => .skip fun _ => .skip fun _ => .skip fun _ => ?_
  exact .pure ⟨rfl, ordered, valid⟩

theorem whole_ok {A : Type} {fields : Reader Err A} {b : Bytes} {a : A} (ok : whole fields b = .ok a) :
    fields b = .ok (a, []) := by
  obtain ⟨⟨x, rest⟩, read, ok⟩ := bind_eq_ok.mp ok
  obtain ⟨⟨_, left⟩, ended, ok⟩ := bind_eq_ok.mp ok
  cases ok
  unfold done at ended
  split at ended
  · cases ended
  next nothing =>
    rw [not_not.mp nothing] at read
    exact read

end Decoder

theorem accept_ok {A : Type} {a x : A} {check : Option Err} {s : Sealed} {reseal : Except Err Sealed}
    (ok : accept a check s.bytes reseal = .ok x) : x = a ∧ reseal = .ok s := by
  unfold accept at ok
  split at ok
  · cases ok
  split at ok
  · cases ok
  next same =>
    cases ok
    unfold canonical at same
    split at same
    · cases same
    next out =>
      rw [ite_some_eq_none, not_not] at same
      exact ⟨rfl, congrArg (fun b => Except.ok (Sealed.mk b)) same.1⟩

section
variable {a : SessionAttrs} {p : Pending} {s : Sealed}

/-- What `Unseal` accepts is what `Seal` returns for a value of the form that the transitions give. -/
theorem unsealAttrs_iff : unsealAttrs s = .ok a ↔ a.Formed ∧ sealAttrs a = .ok s := by
  constructor
  · intro ok
    obtain ⟨fields, -, ok⟩ := bind_eq_ok.mp ok
    obtain ⟨x, read, ok⟩ := bind_eq_ok.mp ok
    obtain ⟨rfl, resealed⟩ := accept_ok ok
    exact ⟨Decoder.attrs_yields fields a [] (Decoder.whole_ok read), resealed⟩
  · rintro ⟨formed, stored⟩
    exact unsealAttrs_sealAttrs formed stored

theorem sealPending_of_unsealPending (ok : unsealPending s = .ok p) : sealPending p = .ok s := by
  obtain ⟨fields, -, ok⟩ := bind_eq_ok.mp ok
  obtain ⟨x, read, ok⟩ := bind_eq_ok.mp ok
  obtain ⟨rfl, resealed⟩ := accept_ok ok
  exact resealed

theorem sealAttrs_ok (ok : sealAttrs a = .ok s) :
    checkAttrs a = none ∧ ∃ fields, Encoder.attrs a = .ok fields ∧ s.bytes = [codecVersion, tagAttrs] ++ fields ∧
      s.bytes.length ≤ maxSealedLen := by
  simp only [sealAttrs, ite_error_eq_ok] at ok
  obtain ⟨-, ok⟩ := ok
  split at ok
  · cases ok
  next checked =>
    obtain ⟨fields, encoded, finished⟩ := bind_eq_ok.mp ok
    simp only [Encoder.finish, ite_error_eq_ok, gt_iff_lt, not_lt] at finished
    obtain ⟨bounded, finished⟩ := finished
    cases finished
    exact ⟨checked, fields, encoded, rfl, bounded⟩

theorem new_ok {tag : UInt8} {b fields : Bytes} (ok : Decoder.new b tag = .ok fields) :
    b.length ≤ maxSealedLen ∧ b.tail.headD 0 = tag ∧ fields = b.drop 2 := by
  simp only [Decoder.new, ite_error_eq_ok, not_or, not_lt, not_not, gt_iff_lt] at ok
  obtain ⟨⟨-, bounded⟩, -, tagged, ok⟩ := ok
  cases ok
  exact ⟨bounded, tagged, rfl⟩

def Decoder.codes : Reader Err (List Bytes) := do
  let _ ← uuid
  let _ ← subject
  let n ← count
  Reader.many bytes n

theorem Decoder.codes_attrs {fields : Bytes} (encoded : Encoder.attrs a = .ok fields) (short : fields.length < 2 ^ 64) :
    ∃ rest, codes fields = .ok (a.factors.map Factor.code, rest) := by
  have head : ∃ rest, fields = (Encoder.uuid a.lineage ++ (Encoder.subjectTenant a.subject.tenant a.subject.user ++
      Encoder.factors a.factors)) ++ rest := by
    simp only [Encoder.attrs, bind_eq_ok] at encoded
    obtain ⟨_, -, _, -, _, -, _, -, encoded⟩ := encoded
    cases encoded
    simp only [List.append_assoc]
    exact ⟨_, rfl⟩
  obtain ⟨rest, rfl⟩ := head
  have each : List.Forall₂ (fun b code => b ≠ [] ∧ Reads 0 bytes b code)
      ((a.factors.map Factor.code).map Encoder.bytes) (a.factors.map Factor.code) := by
    rw [List.forall₂_map_left_iff, List.forall₂_same]
    exact fun code _ => ⟨Encoder.bytes_ne_nil code, bytes_reads code⟩
  have listed := (count_reads (a.factors.map Factor.code).length).bind
    (Reads.many (each.imp fun _ _ facts => facts.2))
    (Wire.length_le_flatten (each.imp fun _ _ facts => facts.1))
  have written : Encoder.count (a.factors.map Factor.code).length ++
      ((a.factors.map Factor.code).map Encoder.bytes).flatten = Encoder.factors a.factors := by
    simp [Encoder.factors, List.flatMap, Function.comp_def]
  rw [written] at listed
  have all : Reads 0 codes _ _ := (uuid_reads a.lineage).seq ((subject_reads a.subject.tenant a.subject.user).seq listed)
  exact ⟨rest, all rest (Nat.zero_le _) short⟩

theorem unsealAttrs_disordered {fields : Bytes} (encoded : Encoder.attrs a = .ok fields)
    (disordered : ¬Ordered a.factors) (x : SessionAttrs) :
    unsealAttrs ⟨[codecVersion, tagAttrs] ++ fields⟩ ≠ .ok x := by
  intro ok
  obtain ⟨formed, stored⟩ := unsealAttrs_iff.mp ok
  obtain ⟨-, fields', encoded', same, bounded⟩ := sealAttrs_ok stored
  obtain rfl : fields = fields' := List.append_cancel_left same
  have short : fields.length < 2 ^ 64 := by
    simp only [List.length_append, List.length_cons, List.length_nil, maxSealedLen] at bounded
    omega
  obtain ⟨_, read⟩ := Decoder.codes_attrs encoded short
  obtain ⟨_, read'⟩ := Decoder.codes_attrs encoded' short
  rw [read] at read'
  -- Both values have the codes that stand there, and a code has one factor.
  have codes : a.factors.map Factor.code = x.factors.map Factor.code := congrArg Prod.fst (Except.ok.inj read')
  have factors : a.factors = x.factors := (List.map_injective_iff.mpr fun _ _ => Factor.code_injective) codes
  exact disordered (factors ▸ formed.ordered)

theorem unsealAttrs_trailing (ok : unsealAttrs s = .ok a) {extra : Bytes} (more : extra ≠ []) (x : SessionAttrs) :
    unsealAttrs ⟨s.bytes ++ extra⟩ ≠ .ok x := by
  intro longer
  obtain ⟨formed, stored⟩ := unsealAttrs_iff.mp ok
  obtain ⟨checked, fields, encoded, same, -⟩ := sealAttrs_ok stored
  obtain ⟨opened, starts, loaded⟩ := bind_eq_ok.mp longer
  obtain ⟨y, read, -⟩ := bind_eq_ok.mp loaded
  obtain ⟨bounded, -, rfl⟩ := new_ok starts
  have left : (s.bytes ++ extra).drop 2 = fields ++ extra := by simp [same]
  have short : (fields ++ extra).length < 2 ^ 64 := by
    rw [← left, List.length_drop]
    dsimp only [maxSealedLen] at bounded
    omega
  -- The fields are read as before, and the rest is not empty.
  have before := formed.reads checked encoded extra (Nat.zero_le _) short
  have whole := Decoder.whole_ok read
  rw [left, before] at whole
  cases whole
  exact more rfl

def OutOfRange (t : Time) : Prop := t ≠ 0 ∧ (t < minUnixNano ∨ maxUnixNano < t)

theorem time_error {t : Time} {err : Err} (failed : Encoder.time t = .error err) :
    OutOfRange t ∧ err = .join .malformed (.text "time out of codec range") := by
  unfold Encoder.time at failed
  split at failed
  · cases failed
  next nonzero =>
    split at failed
    next far =>
      cases failed
      exact ⟨⟨nonzero, far⟩, rfl⟩
    · cases failed

/-- Only its times can keep a session from being encoded. -/
theorem attrs_error {err : Err} (failed : Encoder.attrs a = .error err) :
    (∃ t ∈ [a.primaryAt, a.secondAt, a.createdAt, a.claimsFetchedAt], OutOfRange t) ∧
      err = .join .malformed (.text "time out of codec range") := by
  simp only [Encoder.attrs, bind_eq_error] at failed
  rcases failed with failed | ⟨_, -, failed | ⟨_, -, failed | ⟨_, -, failed | ⟨_, -, failed⟩⟩⟩⟩
  · obtain ⟨far, rfl⟩ := time_error failed
    exact ⟨⟨_, by simp, far⟩, rfl⟩
  · obtain ⟨far, rfl⟩ := time_error failed
    exact ⟨⟨_, by simp, far⟩, rfl⟩
  · obtain ⟨far, rfl⟩ := time_error failed
    exact ⟨⟨_, by simp, far⟩, rfl⟩
  · obtain ⟨far, rfl⟩ := time_error failed
    exact ⟨⟨_, by simp, far⟩, rfl⟩
  · cases failed

end

structure SessionAttrs.Checked (a : SessionAttrs) : Prop where
  lineage : a.lineage ≠ .nil
  subject : a.subject.isZero = false
  primary : hasRole a.factors .primary = true
  transport : a.transport ≠ none
  uses : ∀ u ∈ a.credentialIDs,
    (u.factor = .passkey ∨ u.factor = .passkeyStepUp) ∧ u.id ≠ [] ∧ u.factor ∈ a.factors

theorem SessionAttrs.Checked.passes {a : SessionAttrs} (checked : a.Checked) : checkAttrs a = none := by
  simp only [checkAttrs, ite_some_eq_none, not_or, Bool.not_eq_true, Bool.not_eq_false, not_exists, not_and]
  refine ⟨⟨checked.lineage, checked.subject, checked.primary, checked.transport⟩, fun u member => ?_, trivial⟩
  obtain ⟨kind, made, held⟩ := checked.uses u member
  exact ⟨fun notPasskey notStepUp => kind.elim notPasskey notStepUp, made, not_not.mpr held⟩

theorem mem_appendCredentials {uses new : List CredentialUse} {u : CredentialUse}
    (member : u ∈ appendCredentials uses new) : u ∈ uses ∨ u ∈ new := by
  unfold appendCredentials at member
  induction new generalizing uses with
  | nil => exact .inl member
  | cons v new ih =>
    rw [List.foldl_cons] at member
    rcases ih member with old | later
    · split at old
      · exact .inl old
      · rcases List.mem_append.mp old with old | single
        · exact .inl old
        · exact .inr (List.mem_singleton.mp single ▸ List.mem_cons_self)
    · exact .inr (List.mem_cons_of_mem _ later)

theorem Pending.uses_checked {p : Pending} {u : CredentialUse} (member : u ∈ p.credentialUses) :
    (u.factor = .passkey ∨ u.factor = .passkeyStepUp) ∧ u.id ≠ [] ∧ u.factor ∈ p.factorSet := by
  obtain ⟨kind, v, held, made, used, same⟩ := mem_credentialUses.mp member
  exact ⟨kind, same ▸ made, mem_factorSet.mpr ⟨v, held, used⟩⟩

namespace Lineage
variable {origin : Journey} {events : List Event} {e : Event} {a a' : SessionAttrs}

theorem checked_admitted {st : AccountState} {mfa : MFADecision} {now : Time} {lineage : UUID} {p : Pending}
    (fresh : lineage ≠ .nil) (ok : admitPending p st mfa now lineage = .ok (.session a)) : a.Checked := by
  have transport : p.transport ≠ none := by
    simp only [admitPending, ite_error_eq_ok] at ok
    exact fun none => ok.1 (.inr (.inl none))
  obtain ⟨-, bound, completes, rfl⟩ := admitPending_session ok
  have subject : p.subject.isZero = false := by simpa [Pending.bound] using bound
  exact ⟨fresh, subject, completes.primary, transport, fun u member => Pending.uses_checked member⟩

theorem checked_mono (checked : a.Checked) (same : fixed a' = fixed a) (more : a.factors ⊆ a'.factors)
    (uses : ∀ u ∈ a'.credentialIDs, u ∈ a.credentialIDs ∨
      (u.factor = .passkey ∨ u.factor = .passkeyStepUp) ∧ u.id ≠ [] ∧ u.factor ∈ a'.factors) : a'.Checked := by
  have lineage : a'.lineage = a.lineage := congrArg Fixed.lineage same
  have subject : a'.subject = a.subject := congrArg Fixed.subject same
  have transport : a'.transport = a.transport := congrArg Fixed.transport same
  obtain ⟨f, held, role⟩ := hasRole_iff.mp checked.primary
  refine ⟨lineage ▸ checked.lineage, subject ▸ checked.subject, hasRole_iff.mpr ⟨f, more held, role⟩,
    transport ▸ checked.transport, fun u member => ?_⟩
  rcases uses u member with old | new
  · obtain ⟨kind, made, held⟩ := checked.uses u old
    exact ⟨kind, made, more held⟩
  · exact new

theorem checked_step (formed : a.Formed) (checked : a.Checked) (step : Step a e a') : a'.Checked := by
  have carries := step.carries formed
  refine checked_mono checked carries.fixed carries.factors fun u member => ?_
  cases e with
  | reauthenticated j st mfa now =>
    obtain ⟨-, -, -, rfl⟩ := reauthenticate_ok step
    refine (mem_appendCredentials member).imp id fun new => ?_
    obtain ⟨kind, made, held⟩ := Pending.uses_checked new
    exact ⟨kind, made, mem_unionFactors.mpr (.inr held)⟩
  | enrolled f st =>
    obtain ⟨-, rfl⟩ := factorEnrolled_ok step
    exact .inl member
  | passwordChanged st now =>
    cases passwordChanged_ok step
    exact .inl member
  | renewed st mfa claims now =>
    obtain ⟨fetched, rfl⟩ := renew_ok step
    exact .inl member
  | resealed =>
    rw [step.resealed formed] at member
    exact .inl member

theorem checked_run {before : List Event} (inv : Inv origin before a) (checked : a.Checked)
    (run : Run Step a events a') : a'.Checked := by
  induction run with
  | nil => exact checked
  | snoc first last ih => exact checked_step (inv.run first).formed ih last

theorem sealAttrs_error {err : Err} (formed : a.Formed) (checked : a.Checked) (failed : sealAttrs a = .error err) :
    (∃ t ∈ [a.primaryAt, a.secondAt, a.createdAt, a.claimsFetchedAt], OutOfRange t) ∨
      ∃ fields, Encoder.attrs a = .ok fields ∧ maxSealedLen < ([codecVersion, tagAttrs] ++ fields).length := by
  have nonzero : a.version ≠ 0 := by
    rw [formed.version]
    decide
  simp only [sealAttrs, if_neg nonzero, checked.passes] at failed
  rcases bind_eq_error.mp failed with failed | ⟨fields, encoded, failed⟩
  · exact .inl (attrs_error failed).1
  · refine .inr ⟨fields, encoded, ?_⟩
    unfold Encoder.finish at failed
    dsimp only at failed
    split at failed
    next long => exact long
    · cases failed

/-- Sealing is a bijection between the sessions of a history and the bytes that are accepted for them. -/
theorem sealed_bytes_bijective {st : AccountState} {mfa : MFADecision} {now : Time} {lineage : UUID}
    {admitted : SessionAttrs} (fresh : lineage ≠ .nil)
    (ok : admitPending origin.pending st mfa now lineage = .ok (.session admitted)) (run : Run Step admitted events a) :
    (∀ s, sealAttrs a = .ok s → unsealAttrs s = .ok a) ∧
    (∀ s x, unsealAttrs s = .ok x → sealAttrs x = .ok s) ∧
    (∀ s s' x, unsealAttrs s = .ok x → unsealAttrs s' = .ok x → s = s') ∧
    -- What is accepted is what the encoder writes, so no other varint stands for a length in it.
    (∀ s x, unsealAttrs s = .ok x →
      ∃ fields, Encoder.attrs x = .ok fields ∧ s.bytes = [codecVersion, tagAttrs] ++ fields) ∧
    (∀ s x fields, Decoder.new s.bytes tagAttrs = .ok fields → Decoder.whole Decoder.attrs fields = .ok x →
      sealAttrs x ≠ .ok s → ∃ err, unsealAttrs s = .error err) ∧
    (∀ x fields, Encoder.attrs x = .ok fields → ¬Ordered x.factors →
      ∃ err, unsealAttrs ⟨[codecVersion, tagAttrs] ++ fields⟩ = .error err) ∧
    (∀ s x extra, unsealAttrs s = .ok x → extra ≠ [] → ∃ err, unsealAttrs ⟨s.bytes ++ extra⟩ = .error err) ∧
    (∀ s, s.bytes.tail.headD 0 ≠ tagAttrs ∨ maxSealedLen < s.bytes.length → ∃ err, unsealAttrs s = .error err) ∧
    (∀ err, sealAttrs a = .error err →
      (∃ t ∈ [a.primaryAt, a.secondAt, a.createdAt, a.claimsFetchedAt], OutOfRange t) ∨
      ∃ fields, Encoder.attrs a = .ok fields ∧ maxSealedLen < ([codecVersion, tagAttrs] ++ fields).length) := by
  have refused {s : Sealed} (never : ∀ x, unsealAttrs s ≠ .ok x) : ∃ err, unsealAttrs s = .error err := by
    cases result : unsealAttrs s with
    | error err => exact ⟨err, rfl⟩
    | ok x => exact absurd result (never x)
  have start := Inv.admitted ok
  have formed : a.Formed := (start.run run).formed
  have checked : a.Checked := checked_run start (checked_admitted fresh ok) run
  refine ⟨fun s => unsealAttrs_sealAttrs formed, fun s x accepted => (unsealAttrs_iff.mp accepted).2, ?_, ?_, ?_, ?_, ?_,
    ?_, fun err => sealAttrs_error formed checked⟩
  · intro s s' x first second
    have stored := (unsealAttrs_iff.mp first).2
    rw [(unsealAttrs_iff.mp second).2] at stored
    exact (Except.ok.inj stored).symm
  · intro s x accepted
    obtain ⟨-, fields, encoded, same, -⟩ := sealAttrs_ok (unsealAttrs_iff.mp accepted).2
    exact ⟨fields, encoded, same⟩
  · intro s x fields opened read other
    refine refused fun y accepted => ?_
    obtain ⟨_, opened', accepted'⟩ := bind_eq_ok.mp accepted
    obtain ⟨_, read', accepted'⟩ := bind_eq_ok.mp accepted'
    rw [opened] at opened'
    cases opened'
    rw [read] at read'
    cases read'
    exact other (accept_ok accepted').2
  · intro x fields encoded disordered
    exact refused (unsealAttrs_disordered encoded disordered)
  · intro s x extra accepted more
    exact refused (unsealAttrs_trailing accepted more)
  · intro s wrong
    refine refused fun x accepted => ?_
    obtain ⟨fields, opened, -⟩ := bind_eq_ok.mp accepted
    obtain ⟨bounded, tagged, -⟩ := new_ok opened
    rcases wrong with other | long
    · exact other tagged
    · omega

/-- The bytes of a session, and the same bytes with a longer varint for the first length. -/
theorem sealed_bytes_bijective_twoFactor :
    ∃ s, sealAttrs twoFactorSession = .ok s ∧ unsealAttrs s = .ok twoFactorSession ∧
      ∃ err, unsealAttrs ⟨[codecVersion, tagAttrs, 144, 0] ++ s.bytes.drop 3⟩ = .error err := by
  have fresh : twoFactorSession.lineage ≠ .nil := by decide
  obtain ⟨loaded, -, -, -, other, -⟩ := sealed_bytes_bijective fresh twoFactorSession_admitted .nil
  refine ⟨_, by rfl, loaded _ (by rfl), ?_⟩
  exact other _ twoFactorSession _ (by rfl) (by rfl) (by decide +kernel)

end Lineage

/-- Sealing is a bijection on the Pendings of a journey; the two kinds of sealed values are told apart. -/
theorem sealed_pending_bijective {start p : Pending} {events : List Pending.Event} (starts : Pending.Starts start)
    (run : Run Pending.Step start events p) :
    (∀ s, sealPending p = .ok s → unsealPending s = .ok p) ∧
    (∀ s q, unsealPending s = .ok q → sealPending q = .ok s) ∧
    (∀ s a q, ¬(unsealAttrs s = .ok a ∧ unsealPending s = .ok q)) := by
  refine ⟨fun s => unsealPending_sealPending (Pending.Inv.run starts run).formed,
    fun s q => sealPending_of_unsealPending, ?_⟩
  rintro s a q ⟨session, pending⟩
  obtain ⟨_, opened, -⟩ := bind_eq_ok.mp session
  obtain ⟨_, opened', -⟩ := bind_eq_ok.mp pending
  have tags : tagAttrs = tagPending := (new_ok opened).2.1.symm.trans (new_ok opened').2.1
  exact absurd tags (by decide)

theorem sealed_pending_bijective_twoFactor :
    ∃ s, sealPending Pending.twoFactorPending = .ok s ∧ unsealPending s = .ok Pending.twoFactorPending := by
  have login : Pending.new .zero (some .declined) [] (some .cookies) (some .never) unixEpoch =
      .ok Pending.twoFactorStart := by rfl
  obtain ⟨loaded, -, -⟩ := sealed_pending_bijective (.login login) Pending.twoFactor_run
  obtain ⟨s, stored⟩ : ∃ s, sealPending Pending.twoFactorPending = .ok s := ⟨_, by rfl⟩
  exact ⟨s, stored, loaded s stored⟩

end Egauth.Core
