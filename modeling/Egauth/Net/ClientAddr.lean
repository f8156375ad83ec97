import Egauth.Net.Addr
import Egauth.Semantics.Result

/-! The client address of a request.

The parsers of the standard library are parameters: nothing depends on which
strings they accept. The warning about headers that are ignored is left out.
-/

set_option autoImplicit false

namespace Egauth.ClientAddr
open Net

def minIPv4Bits : Nat := 8

def minIPv6Bits : Nat := 16

def mappedBits : Nat := 96

inductive Err where
  | invalidPolicy
  | prefixTooBroad
  | noClient
  deriving DecidableEq, Repr

inductive Policy where
  | direct
  | trusted (prefixes : List Prefix)
  deriving DecidableEq

/-- The prefix of IPv4 addresses that a prefix of mapped ones stands for. -/
def unmapPrefix : Prefix → Except Err Prefix
  | .v6 base len =>
    if Addr.mapped base then
      if len.val < mappedBits + minIPv4Bits then .error .prefixTooBroad
      else .ok (.v4 (base.truncate 32) ⟨len.val - mappedBits, by have := len.isLt; unfold mappedBits; omega⟩)
    else .ok (.v6 base len)
  | p => .ok p

def tooBroad : Prefix → Bool
  | .v4 _ len => len.val < minIPv4Bits
  | .v6 _ len => len.val < minIPv6Bits
  | .invalid => false

def normalisePrefix (p : Prefix) : Except Err Prefix := do
  if !p.isValid then .error .invalidPolicy
  else
    let p ← unmapPrefix p
    if tooBroad p then .error .prefixTooBroad else .ok p.masked

def trusted (first : Prefix) (more : List Prefix) : Except Err Policy :=
  ((first :: more).mapM normalisePrefix).map .trusted

def trusts (prefixes : List Prefix) (a : Addr) : Bool := prefixes.any fun p => p.Contains a

/-- `net`, `net/netip` and `strings`. A host and port is split into the host; the address of an address and port is
kept. -/
structure Library where
  parseAddr : Bytes → Option Addr
  parseAddrPort : Bytes → Option Addr
  splitHostPort : Bytes → Option Bytes
  trimSpace : Bytes → Bytes

/-- The zero address stands for a result that is not ok. -/
def clean (a : Addr) : Option Addr :=
  let a := a.unmap.withoutZone
  if a.isValid && !a.isUnspecified then some a else none

variable (lib : Library)

def parseHost (s : Bytes) : Option Addr :=
  match lib.parseAddrPort s with
  | some a => clean a
  | none =>
    match lib.parseAddr s with
    | some a => clean a
    | none =>
      match lib.splitHostPort s with
      | none => none
      | some host =>
        match lib.parseAddr host with
        | some a => clean a
        | none => none

/-- The hops of the lines of the header; 44 is the comma. -/
def forwardedFor (lines : List Bytes) : List Bytes :=
  lines.flatMap fun line => ((line.splitOn 44).map lib.trimSpace).filter (· ≠ [])

def walk (prefixes : List Prefix) (current : Addr) : List Bytes → Addr
  | [] => current
  | hop :: hops =>
    match parseHost lib hop with
    | none => current
    | some a => if !trusts prefixes a then a else walk prefixes a hops

def resolve (policy : Policy) (remoteAddr : Bytes) (lines : List Bytes) : Except Err Addr :=
  match parseHost lib remoteAddr with
  | none => .error .noClient
  | some peer =>
    match policy with
    | .direct => .ok peer
    | .trusted prefixes =>
      if !trusts prefixes peer then .ok peer
      else .ok (walk lib prefixes peer (forwardedFor lib lines).reverse)

def readHost (s : Bytes) : Option Addr :=
  (lib.parseAddrPort s).or ((lib.parseAddr s).or ((lib.splitHostPort s).bind lib.parseAddr))

variable {lib}

theorem parseHost_eq (s : Bytes) : parseHost lib s = (readHost lib s).bind clean := by
  unfold parseHost readHost
  cases lib.parseAddrPort s with
  | some a => rfl
  | none =>
    cases lib.parseAddr s with
    | some a => rfl
    | none =>
      cases lib.splitHostPort s with
      | none => rfl
      | some host => cases found : lib.parseAddr host <;> simp [found]

theorem parseHost_some {s : Bytes} {a : Addr} (parsed : parseHost lib s = some a) :
    ∃ raw, readHost lib s = some raw ∧ a = raw.unmap.withoutZone := by
  rw [parseHost_eq, Option.bind_eq_some_iff] at parsed
  obtain ⟨raw, read, cleaned⟩ := parsed
  have same : raw.unmap.withoutZone = a := Option.some.inj (Option.ite_none_right_eq_some.mp cleaned).2
  exact ⟨raw, read, same.symm⟩

def Trusted (lib : Library) (prefixes : List Prefix) (hop : Bytes) : Prop :=
  ∃ a, parseHost lib hop = some a ∧ trusts prefixes a = true

section
variable {prefixes : List Prefix} {hops : List Bytes}

theorem walk_past (past : ∀ hop ∈ hops, Trusted lib prefixes hop) (current : Addr) {hop : Bytes} {a : Addr}
    (parsed : parseHost lib hop = some a) (outside : trusts prefixes a = false) (rest : List Bytes) :
    walk lib prefixes current (hops ++ hop :: rest) = a := by
  induction hops generalizing current with
  | nil => simp [walk, parsed, outside]
  | cons first hops ih =>
    obtain ⟨b, found, inside⟩ := past first List.mem_cons_self
    simp only [List.cons_append, walk, found, inside, Bool.not_true, Bool.false_eq_true, if_false]
    exact ih (fun hop member => past hop (List.mem_cons_of_mem _ member)) b

/-- The walk ends at a hop that it came to over trusted ones. -/
theorem walk_ends (current : Addr) (hops : List Bytes) :
    walk lib prefixes current hops = current ∨ ∃ past hop rest, hops = past ++ hop :: rest ∧
      parseHost lib hop = some (walk lib prefixes current hops) ∧ ∀ h ∈ past, Trusted lib prefixes h := by
  induction hops generalizing current with
  | nil => exact .inl rfl
  | cons first hops ih =>
    rw [walk]
    cases found : parseHost lib first with
    | none => exact .inl rfl
    | some a =>
      by_cases inside : trusts prefixes a = true
      · simp only [inside, Bool.not_true, Bool.false_eq_true, if_false]
        refine .inr ?_
        rcases ih a with same | ⟨past, hop, rest, rfl, parsed, trusted⟩
        · exact ⟨[], first, hops, rfl, by rw [same, found], nofun⟩
        · refine ⟨first :: past, hop, rest, rfl, parsed, ?_⟩
          rintro h (⟨⟩ | ⟨_, member⟩)
          · exact ⟨a, found, inside⟩
          · exact trusted h member
      · simp only [inside, Bool.not_false, if_true]
        exact .inr ⟨[], first, hops, rfl, found, nofun⟩

end

theorem normalisePrefix_ok {p q : Prefix} (ok : normalisePrefix p = .ok q) :
    ∃ plain, unmapPrefix p = .ok plain ∧ q = plain.masked := by
  unfold normalisePrefix at ok
  split at ok
  · cases ok
  · obtain ⟨plain, unmapped, ok⟩ := bind_eq_ok.mp ok
    split at ok
    · cases ok
    · exact ⟨plain, unmapped, (Except.ok.inj ok).symm⟩

/-- The prefixes are trusted as they were given, those of mapped addresses as IPv4 ones. -/
theorem trusts_normalised {given prefixes : List Prefix} (ok : given.mapM normalisePrefix = .ok prefixes) (a : Addr) :
    trusts prefixes a = true ↔ ∃ p ∈ given, ∃ plain, unmapPrefix p = .ok plain ∧ plain.Contains a := by
  induction given generalizing prefixes with
  | nil =>
    cases ok
    simp [trusts]
  | cons p given ih =>
    rw [List.mapM_cons] at ok
    obtain ⟨q, normal, ok⟩ := bind_eq_ok.mp ok
    obtain ⟨rest, others, ok⟩ := bind_eq_ok.mp ok
    cases ok
    obtain ⟨plain, unmapped, rfl⟩ := normalisePrefix_ok normal
    have tail := ih others
    simp only [trusts] at tail ⊢
    simp only [List.any_cons, Bool.or_eq_true, decide_eq_true_eq, Prefix.contains_masked, tail, List.exists_mem_cons_iff,
      unmapped, Except.ok.injEq, exists_eq_left']

/-- The part of the header that the trusted proxies did not write chooses nothing. -/
theorem client_not_chosen {first : Prefix} {more prefixes : List Prefix}
    (built : trusted first more = .ok (.trusted prefixes)) (lib : Library) (remoteAddr : Bytes) :
    (∀ a, trusts prefixes a = true ↔ ∃ p ∈ first :: more, ∃ plain, unmapPrefix p = .ok plain ∧ plain.Contains a) ∧
    (∀ hop hops, Trusted lib prefixes remoteAddr →
      (∃ a, parseHost lib hop = some a ∧ trusts prefixes a = false) → (∀ h ∈ hops, Trusted lib prefixes h) →
      ∃ raw, readHost lib hop = some raw ∧ ∀ lines, hop :: hops <:+ forwardedFor lib lines →
        resolve lib (.trusted prefixes) remoteAddr lines = .ok raw.unmap.withoutZone) ∧
    (∀ peer lines, parseHost lib remoteAddr = some peer →
      resolve lib .direct remoteAddr lines = .ok peer ∧
      (trusts prefixes peer = false → resolve lib (.trusted prefixes) remoteAddr lines = .ok peer)) ∧
    ∀ lines client, resolve lib (.trusted prefixes) remoteAddr lines = .ok client →
      parseHost lib remoteAddr = some client ∨
        ∃ before hop after, forwardedFor lib lines = before ++ hop :: after ∧ parseHost lib hop = some client ∧
          ∀ h ∈ after, Trusted lib prefixes h := by
  refine ⟨?_, ?_, ?_, ?_⟩
  · intro a
    unfold trusted at built
    cases ok : (first :: more).mapM normalisePrefix with
    | error err => simp [ok, Except.map] at built
    | ok normal =>
      rw [ok] at built
      cases built
      exact trusts_normalised ok a
  · rintro hop hops ⟨peer, here, inside⟩ ⟨a, parsed, outside⟩ past
    obtain ⟨raw, read, rfl⟩ := parseHost_some parsed
    refine ⟨raw, read, ?_⟩
    rintro lines ⟨before, flat⟩
    have reversed : (forwardedFor lib lines).reverse = hops.reverse ++ hop :: before.reverse := by simp [← flat]
    simp only [resolve, here, inside, Bool.not_true, Bool.false_eq_true, if_false, reversed]
    rw [walk_past (fun h member => past h (List.mem_reverse.mp member)) peer parsed outside]
  · intro peer lines here
    simp +contextual [resolve, here]
  · intro lines client resolved
    cases here : parseHost lib remoteAddr with
    | none => simp [resolve, here] at resolved
    | some peer =>
      simp only [resolve, here] at resolved
      split at resolved
      · exact .inl (congrArg some (Except.ok.inj resolved))
      · obtain rfl := Except.ok.inj resolved
        rcases walk_ends peer (forwardedFor lib lines).reverse with same | ⟨past, hop, rest, split, parsed, trusted⟩
        · exact .inl (congrArg some same.symm)
        · refine .inr ⟨rest.reverse, hop, past.reverse, ?_, parsed, fun h member => trusted h (List.mem_reverse.mp member)⟩
          rw [← List.reverse_reverse (forwardedFor lib lines), split]
          simp

def proxy : Addr := .v4 (ipv4 10 0 0 1)

def client : Addr := .v4 (ipv4 192 0 2 9)

/-- The answers of the parsers for four strings. -/
def hosts : Library where
  parseAddr s := (([("10.0.0.1", proxy), ("192.0.2.9", client), ("198.51.100.7", .v4 (ipv4 198 51 100 7))] :
    List (String × Addr)).find? fun e => ascii e.1 = s).map Prod.snd
  parseAddrPort s := if s = ascii "10.0.0.1:443" then some proxy else none
  splitHostPort s := if s = ascii "10.0.0.1:443" then some (ascii "10.0.0.1") else none
  trimSpace s := ((s.dropWhile (· = 32)).reverse.dropWhile (· = 32)).reverse

theorem client_not_chosen_forged :
    resolve hosts (.trusted [.v4 (ipv4 10 0 0 0) 8]) (ascii "10.0.0.1:443")
      [ascii "198.51.100.7, 192.0.2.9, 10.0.0.1"] = .ok client ∧
    resolve hosts (.trusted [.v4 (ipv4 10 0 0 0) 8]) (ascii "10.0.0.1:443")
      [ascii "192.0.2.9", ascii "10.0.0.1,"] = .ok client := by
  have built : trusted (.v4 (ipv4 10 0 0 7) 8) [] = .ok (.trusted [.v4 (ipv4 10 0 0 0) 8]) := by decide +kernel
  obtain ⟨-, chosen, -⟩ := client_not_chosen built hosts (ascii "10.0.0.1:443")
  have inside (s : Bytes) (parsed : parseHost hosts s = some proxy) : Trusted hosts [.v4 (ipv4 10 0 0 0) 8] s :=
    ⟨proxy, parsed, by decide +kernel⟩
  obtain ⟨raw, read, same⟩ := chosen (ascii "192.0.2.9") [ascii "10.0.0.1"] (inside _ (by decide +kernel))
    ⟨client, by decide +kernel, by decide +kernel⟩ (by simpa using inside _ (by decide +kernel))
  have own : readHost hosts (ascii "192.0.2.9") = some client := by decide +kernel
  cases read.symm.trans own
  exact ⟨same _ (by decide +kernel), same _ (by decide +kernel)⟩

end Egauth.ClientAddr
