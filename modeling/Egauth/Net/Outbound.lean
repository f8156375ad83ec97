import Egauth.Net.Addr
import Egauth.Semantics.Result

/-! The networks that outbound calls may reach.

Whether the program is a test binary is a parameter. A prefix of this model has
no zone, so the refusal of zoned prefixes is left out.
-/

set_option autoImplicit false

namespace Egauth.Outbound
open Net

def blockedPrefixes : List Prefix :=
  [.v4 (ipv4 0 0 0 0) 8, .v4 (ipv4 10 0 0 0) 8, .v4 (ipv4 100 64 0 0) 10, .v4 (ipv4 127 0 0 0) 8,
    .v4 (ipv4 169 254 0 0) 16, .v4 (ipv4 172 16 0 0) 12, .v4 (ipv4 192 0 0 0) 24, .v4 (ipv4 192 0 2 0) 24,
    .v4 (ipv4 192 88 99 0) 24, .v4 (ipv4 192 168 0 0) 16, .v4 (ipv4 198 18 0 0) 15, .v4 (ipv4 198 51 100 0) 24,
    .v4 (ipv4 203 0 113 0) 24, .v4 (ipv4 224 0 0 0) 4, .v4 (ipv4 240 0 0 0) 4,
    .v6 (ipv6 0 0 0 0 0 0 0 0) 96, .v6 (ipv6 0 0 0 0 0 0 0 1) 128, .v6 (ipv6 0 0 0 0 0 0xffff 0 0) 96,
    .v6 (ipv6 0 0 0 0 0xffff 0 0 0) 96, .v6 (ipv6 0x64 0xff9b 1 0 0 0 0 0) 48, .v6 (ipv6 0x100 0 0 0 0 0 0 0) 64,
    .v6 (ipv6 0x2001 2 0 0 0 0 0 0) 48, .v6 (ipv6 0x2001 0x10 0 0 0 0 0 0) 28, .v6 (ipv6 0x2001 0x20 0 0 0 0 0 0) 28,
    .v6 (ipv6 0x2001 0xdb8 0 0 0 0 0 0) 32, .v6 (ipv6 0x3fff 0 0 0 0 0 0 0) 20, .v6 (ipv6 0x5f00 0 0 0 0 0 0 0) 16,
    .v6 (ipv6 0xfc00 0 0 0 0 0 0 0) 7, .v6 (ipv6 0xfe80 0 0 0 0 0 0 0) 10, .v6 (ipv6 0xfec0 0 0 0 0 0 0 0) 10,
    .v6 (ipv6 0xff00 0 0 0 0 0 0 0) 8]

def nat64WellKnown : Prefix := .v6 (ipv6 0x64 0xff9b 0 0 0 0 0 0) 96

def sixToFour : Prefix := .v6 (ipv6 0x2002 0 0 0 0 0 0 0) 16

def teredo : Prefix := .v6 (ipv6 0x2001 0 0 0 0 0 0 0) 32

/-- The addresses with the text of each. -/
def metadataAddrs : List (Addr × String) :=
  [(.v4 (ipv4 169 254 169 254), "169.254.169.254"), (.v4 (ipv4 169 254 170 2), "169.254.170.2"),
    (.v4 (ipv4 100 100 100 200), "100.100.100.200"), (.v4 (ipv4 168 63 129 16), "168.63.129.16"),
    (.v4 (ipv4 192 0 0 192), "192.0.0.192"), (.v6 (ipv6 0xfd00 0xec2 0 0 0 0 0 0x254) [], "fd00:ec2::254"),
    (.v6 (ipv6 0xfd20 0xce 0 0 0 0 0 0x254) [], "fd20:ce::254")]

def loopbackPrefixes : List Prefix := [.v4 (ipv4 127 0 0 0) 8, .v6 (ipv6 0 0 0 0 0 0 0 1) 128]

def neverAllowed : List (Prefix × String) :=
  [(.v4 (ipv4 169 254 0 0) 16, "overlaps IPv4 link-local"),
    (.v6 (ipv6 0xfe80 0 0 0 0 0 0 0) 10, "overlaps IPv6 link-local"),
    (.v4 (ipv4 0 0 0 0) 8, "overlaps the unspecified IPv4 network"),
    (.v6 (ipv6 0 0 0 0 0 0 0 0) 96, "overlaps the unspecified or IPv4-compatible IPv6 range"),
    (.v6 (ipv6 0 0 0 0 0 0xffff 0 0) 96, "overlaps the IPv4-mapped IPv6 range"),
    (.v6 (ipv6 0 0 0 0 0xffff 0 0 0) 96, "overlaps the IPv4-translated IPv6 range"),
    (nat64WellKnown, "overlaps the NAT64 well-known prefix"),
    (.v6 (ipv6 0x64 0xff9b 1 0 0 0 0 0) 48, "overlaps the NAT64 local-use prefix"),
    (sixToFour, "overlaps the 6to4 range"),
    (teredo, "overlaps the Teredo range"),
    (.v4 (ipv4 224 0 0 0) 4, "overlaps IPv4 multicast"),
    (.v4 (ipv4 240 0 0 0) 4, "overlaps reserved IPv4 space"),
    (.v6 (ipv6 0xff00 0 0 0 0 0 0 0) 8, "overlaps IPv6 multicast")]

structure Allowance where
  prefixes : List Prefix
  deriving DecidableEq

/-- What is found of a prefix after the loopback ranges. -/
def neverProblem (p : Prefix) : Option String := (neverAllowed.find? fun n => p.Overlaps n.1).map Prod.snd

def loopbackProblem (underTest : Bool) (p : Prefix) : List Prefix → Option String
  | [] => neverProblem p
  | l :: rest =>
    if ¬ p.Overlaps l then loopbackProblem underTest p rest
    else if !underTest then some "overlaps loopback"
    else if l.bits ≤ p.bits then none
    else loopbackProblem underTest p rest

def prefixProblem (underTest : Bool) (p : Prefix) : Option String :=
  if !p.isValid then some "invalid prefix"
  else if p.addr.is4In6 then some "IPv4-mapped prefix; use the IPv4 form"
  else
    let q := p.masked
    if p.addr.is4 ∧ q.bits < 8 then some "IPv4 prefix shorter than /8"
    else if p.addr.is6 ∧ q.bits < 32 then some "IPv6 prefix shorter than /32"
    else
      match metadataAddrs.find? fun m => q.Contains m.1 with
      | some m => some ("contains the metadata address " ++ m.2)
      | none => loopbackProblem underTest q loopbackPrefixes

def problemsOf (underTest : Bool) (prefixes : List Prefix) : List (Nat × Prefix × String) :=
  prefixes.zipIdx.filterMap fun (p, i) => (prefixProblem underTest p).map fun reason => (i, p, reason)

def newAllowance (underTest : Bool) (prefixes : List Prefix) : Except (List (Nat × Prefix × String)) Allowance :=
  let problems := problemsOf underTest prefixes
  if problems ≠ [] then .error problems else .ok ⟨prefixes.map Prefix.masked⟩

def isBlocked (a : Addr) : Bool := blockedPrefixes.any fun p => p.Contains a

def dialled (a : Addr) : Addr := a.withoutZone.unmap

def judgedAddrs (a : Addr) : List Addr :=
  let a := dialled a
  let b := a.as16
  if nat64WellKnown.Contains a then [.v4 (b.extractLsb' 0 32)]
  else if sixToFour.Contains a then [.v4 (b.extractLsb' 80 32)]
  else if teredo.Contains a then [.v4 (b.extractLsb' 64 32), .v4 (~~~b.extractLsb' 0 32)]
  else [a]

namespace Allowance

def covers (al : Allowance) (a : Addr) : Bool := al.prefixes.any fun p => p.Contains a

def permits (al : Allowance) (a : Addr) : Bool :=
  a.isValid && (judgedAddrs a).all fun e => !(decide (e ∈ metadataAddrs.map Prod.fst) || (isBlocked e && !al.covers e))

end Allowance

/-- The ranges whose addresses are judged by what they carry. -/
def transition : List Prefix := [nat64WellKnown, sixToFour, teredo]

/-- An address stands for itself and for what it carries. -/
def standsFor (a : Addr) : List Addr := dialled a :: judgedAddrs a

theorem judged_cases (a : Addr) :
    judgedAddrs a = [dialled a] ∧ (∀ t ∈ transition, ¬ t.Contains (dialled a)) ∨
      (∃ t ∈ transition, t.Contains (dialled a)) ∧ ∀ e ∈ judgedAddrs a, ∃ bits, e = .v4 bits := by
  unfold judgedAddrs
  dsimp only
  split_ifs with nat64 six ter
  · exact .inr ⟨⟨_, by simp [transition], nat64⟩, by simp⟩
  · exact .inr ⟨⟨_, by simp [transition], six⟩, by simp⟩
  · exact .inr ⟨⟨_, by simp [transition], ter⟩, by simp⟩
  · exact .inl ⟨rfl, by simp [transition, nat64, six, ter]⟩

theorem not_transition_judged {a e : Addr} (judged : e ∈ judgedAddrs a) {t : Prefix} (listed : t ∈ transition) :
    ¬ t.Contains e := by
  rcases judged_cases a with ⟨only, outside⟩ | ⟨-, carried⟩
  · rw [only, List.mem_singleton] at judged
    exact judged ▸ outside t listed
  · obtain ⟨bits, rfl⟩ := carried e judged
    simp only [transition, List.mem_cons, List.not_mem_nil, or_false] at listed
    rcases listed with rfl | rfl | rfl <;> exact id

/-- The transition ranges are apart from the blocked ones and from the metadata addresses. -/
theorem transition_apart : ∀ t ∈ transition,
    (∀ p ∈ blockedPrefixes, ¬ t.Overlaps p) ∧ ∀ m ∈ metadataAddrs, ¬ t.Contains m.1 := by
  decide +kernel

/-- What is never allowed and is no transition range is blocked. -/
theorem blocked_of_never : ∀ f ∈ loopbackPrefixes ++ neverAllowed.map Prod.fst,
    f ∉ transition → f ∈ blockedPrefixes := by
  decide +kernel

section
variable {p : Prefix}

theorem loopbackProblem_none {ranges : List Prefix} (fine : loopbackProblem false p ranges = none) :
    (∀ l ∈ ranges, ¬ p.Overlaps l) ∧ neverProblem p = none := by
  induction ranges with
  | nil => exact ⟨nofun, fine⟩
  | cons l rest ih =>
    rw [loopbackProblem] at fine
    split at fine
    next apart =>
      obtain ⟨others, never⟩ := ih fine
      refine ⟨?_, never⟩
      rintro _ (_ | ⟨_, member⟩)
      · exact apart
      · exact others _ member
    next => simp at fine

/-- An accepted prefix is apart from the metadata addresses and from all that is never allowed. -/
theorem prefixProblem_none (fine : prefixProblem false p = none) :
    (∀ m ∈ metadataAddrs, ¬ p.Contains m.1) ∧
      ∀ f ∈ loopbackPrefixes ++ neverAllowed.map Prod.fst, ¬ p.masked.Overlaps f := by
  unfold prefixProblem at fine
  simp only [ite_some_eq_none] at fine
  obtain ⟨-, -, -, -, fine⟩ := fine
  split at fine
  · cases fine
  next metadata =>
    obtain ⟨loopback, never⟩ := loopbackProblem_none fine
    simp only [neverProblem, Option.map_eq_none_iff, List.find?_eq_none, decide_eq_true_eq] at never metadata
    refine ⟨fun m listed inside => metadata m listed (Prefix.contains_masked.mpr inside), ?_⟩
    intro f listed
    rcases List.mem_append.mp listed with low | high
    · exact loopback f low
    · obtain ⟨n, member, rfl⟩ := List.mem_map.mp high
      exact never n member

variable {given : List Prefix} {al : Allowance}

theorem newAllowance_ok (accepted : newAllowance false given = .ok al) :
    al.prefixes = given.map Prefix.masked ∧ ∀ p ∈ given, prefixProblem false p = none := by
  obtain ⟨none', same⟩ := ite_error_eq_ok.mp accepted
  obtain rfl := (Except.ok.inj same).symm
  refine ⟨rfl, fun p member => ?_⟩
  rw [not_not, problemsOf, List.filterMap_eq_nil_iff] at none'
  obtain ⟨i, bound, rfl⟩ := List.mem_iff_getElem.mp member
  have here := none' (given[i], i) (List.mk_mem_zipIdx_iff_getElem?.mpr (List.getElem?_eq_getElem bound))
  exact Option.map_eq_none_iff.mp here

theorem covers_iff (accepted : newAllowance false given = .ok al) (a : Addr) :
    al.covers a = true ↔ ∃ p ∈ given, p.Contains a := by
  simp [Allowance.covers, (newAllowance_ok accepted).1, Prefix.contains_masked]

theorem not_never_of_covers (accepted : newAllowance false given = .ok al) {a : Addr} (covered : al.covers a = true)
    {f : Prefix} (listed : f ∈ loopbackPrefixes ++ neverAllowed.map Prod.fst) : ¬ f.Contains a := by
  obtain ⟨p, member, inside⟩ := (covers_iff accepted a).mp covered
  intro within
  exact (prefixProblem_none ((newAllowance_ok accepted).2 p member)).2 f listed
    ((Prefix.contains_masked.mpr inside).overlaps within)

theorem permits_iff (a : Addr) : al.permits a = true ↔ a.isValid = true ∧ ∀ e ∈ judgedAddrs a,
    e ∉ metadataAddrs.map Prod.fst ∧ (isBlocked e = true → al.covers e = true) := by
  simp [Allowance.permits, imp_iff_not_or]

theorem judged_reached (accepted : newAllowance false given = .ok al) {a e : Addr} (permitted : al.permits a = true)
    (judged : e ∈ judgedAddrs a) {f : Prefix} (listed : f ∈ loopbackPrefixes ++ neverAllowed.map Prod.fst) :
    ¬ f.Contains e := by
  by_cases carries : f ∈ transition
  · exact not_transition_judged judged carries
  · intro inside
    have blocked : isBlocked e = true :=
      List.any_eq_true.mpr ⟨f, blocked_of_never f listed carries, decide_eq_true inside⟩
    have covered := (((permits_iff a).mp permitted).2 e judged).2 blocked
    exact not_never_of_covers accepted covered listed inside

/-- An address that carries another one is in no blocked range itself. -/
theorem carrier_apart {a : Addr} {t : Prefix} (listed : t ∈ transition) (inside : t.Contains a) :
    a ∉ metadataAddrs.map Prod.fst ∧ ∀ p ∈ blockedPrefixes, ¬ p.Contains a := by
  obtain ⟨blocked, metadata⟩ := transition_apart t listed
  refine ⟨fun member => ?_, fun p member within => blocked p member (inside.overlaps within)⟩
  obtain ⟨m, known, rfl⟩ := List.mem_map.mp member
  exact metadata m known inside

/-- What an allowance lets through, and that it lets its own prefixes through. -/
theorem guard_reaches_allowed (accepted : newAllowance false given = .ok al) :
    (∀ a, al.permits a = true → ∀ e ∈ standsFor a,
      e ∉ metadataAddrs.map Prod.fst ∧
      (∀ f ∈ loopbackPrefixes ++ neverAllowed.map Prod.fst, f.Contains e → f ∈ transition ∧ e ∉ judgedAddrs a) ∧
      (isBlocked e = true → ∃ p ∈ given, p.Contains e)) ∧
    ∀ a, ∀ p ∈ given, p.Contains (dialled a) → al.permits a = true := by
  constructor
  · intro a permitted e stands
    have passed := ((permits_iff a).mp permitted).2
    by_cases judged : e ∈ judgedAddrs a
    · obtain ⟨metadata, blocked⟩ := passed e judged
      exact ⟨metadata, fun f listed inside => absurd inside (judged_reached accepted permitted judged listed),
        fun held => (covers_iff accepted e).mp (blocked held)⟩
    · have itself : e = dialled a := (List.mem_cons.mp stands).resolve_right judged
      rcases judged_cases a with ⟨only, -⟩ | ⟨⟨t, listed, inside⟩, -⟩
      · exact absurd (by rw [only, itself]; exact List.mem_singleton_self _) judged
      · rw [← itself] at inside
        obtain ⟨metadata, apart⟩ := carrier_apart listed inside
        refine ⟨metadata, fun f never within => ⟨?_, judged⟩, fun blocked => ?_⟩
        · by_contra other
          exact apart f (blocked_of_never f never other) within
        · obtain ⟨p, member, within⟩ := List.any_eq_true.mp blocked
          exact absurd (of_decide_eq_true within) (apart p member)
  · intro a p member inside
    have covered : al.covers (dialled a) = true := (covers_iff accepted _).mpr ⟨p, member, inside⟩
    obtain ⟨metadata, -⟩ := prefixProblem_none ((newAllowance_ok accepted).2 p member)
    refine (permits_iff a).mpr ⟨?_, ?_⟩
    · cases a with
      | invalid => cases p <;> exact inside.elim
      | _ => rfl
    · rcases judged_cases a with ⟨only, -⟩ | ⟨⟨t, listed, within⟩, -⟩
      · rw [only]
        intro e judged
        obtain rfl := List.mem_singleton.mp judged
        refine ⟨fun known => ?_, fun _ => covered⟩
        obtain ⟨m, member, same⟩ := List.mem_map.mp known
        exact metadata m member (same ▸ inside)
      · have never : t ∈ loopbackPrefixes ++ neverAllowed.map Prod.fst := by
          have all : ∀ t ∈ transition, t ∈ loopbackPrefixes ++ neverAllowed.map Prod.fst := by decide +kernel
          exact all t listed
        exact absurd within (not_never_of_covers accepted covered never)

end

theorem guard_reaches_allowed_ten :
    isBlocked (.v4 (ipv4 10 1 2 3)) = true ∧ ∃ al, newAllowance false [.v4 (ipv4 10 1 0 0) 16] = .ok al ∧
      al.permits (.v6 (ipv6 0 0 0 0 0 0xffff 0x0a01 0x0203) []) = true := by
  have accepted : newAllowance false [.v4 (ipv4 10 1 0 0) 16] = .ok ⟨[.v4 (ipv4 10 1 0 0) 16]⟩ := by decide +kernel
  refine ⟨by decide +kernel, _, accepted, ?_⟩
  exact (guard_reaches_allowed accepted).2 _ _ (List.mem_singleton_self _) (by decide +kernel)

end Egauth.Outbound
