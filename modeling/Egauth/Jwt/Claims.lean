import Egauth.Core.Session
import Egauth.Data.Base64
import Egauth.Data.Decimal

/-! The texts of an access token and the application claims in it.

What the codec takes from the standard library, JSON texts and a digest, is a
parameter; `Library.Exact` is what is asked of it. White space and the
compaction of a JSON text are plain functions on bytes and are given here.
-/

set_option autoImplicit false

namespace Egauth.Jwt
open Egauth.Core

structure Header where
  alg : Bytes
  kid : Bytes
  typ : Bytes
  deriving DecidableEq

structure ClaimSet where
  iss : Bytes
  aud : Bytes
  sub : Bytes
  tid : Bytes
  sid : Bytes
  iat : Int
  exp : Int
  typ : Bytes
  egv : Int
  egc : Bytes
  att : Bytes
  apc : Bytes
  amr : List Bytes
  authTime : Int
  deriving DecidableEq

structure Library where
  /-- `json.Valid`. -/
  valid : Bytes → Bool
  /-- `marshal`, of a header and of a claim set. -/
  header : Header → Bytes
  claims : ClaimSet → Bytes
  /-- `strictDecode`, none for its errors. -/
  readHeader : Bytes → Option Header
  readClaims : Bytes → Option ClaimSet
  sha256 : Bytes → Bytes

def spaceWidth (x y z : UInt8) : Nat :=
  if (9 ≤ x ∧ x ≤ 13) ∨ x = 32 then 1
  else if x = 0xC2 ∧ (y = 0x85 ∨ y = 0xA0) then 2
  else if (x = 0xE1 ∧ y = 0x9A ∧ z = 0x80) ∨
      (x = 0xE2 ∧ y = 0x80 ∧ ((0x80 ≤ z ∧ z ≤ 0x8A) ∨ z = 0xA8 ∨ z = 0xA9 ∨ z = 0xAF)) ∨
      (x = 0xE2 ∧ y = 0x81 ∧ z = 0x9F) ∨ (x = 0xE3 ∧ y = 0x80 ∧ z = 0x80) then 3
  else 0

def firstSpace (b : Bytes) : Nat := spaceWidth (b.getD 0 0) (b.getD 1 0) (b.getD 2 0)

def lastSpace (b : Bytes) : Nat :=
  if spaceWidth (b.getD 0 0) 0 0 = 1 then 1
  else if spaceWidth (b.getD 1 0) (b.getD 0 0) 0 = 2 then 2
  else if spaceWidth (b.getD 2 0) (b.getD 1 0) (b.getD 0 0) = 3 then 3
  else 0

/-- Characters are dropped while there are any to drop; a text has no more of them than bytes. -/
def dropSpaces (width : Bytes → Nat) : Nat → Bytes → Bytes
  | 0, b => b
  | n + 1, b => if width b = 0 then b else dropSpaces width n (b.drop (width b))

def trimSpace (b : Bytes) : Bytes :=
  let front := dropSpaces firstSpace b.length b
  (dropSpaces lastSpace front.length front.reverse).reverse

/-- Where a JSON text is read: between values, in a string, or after a backslash in one. -/
inductive Mode where
  | outside
  | inside
  | escaped

/-- `json.Compact` of a valid text: the white space outside strings is left out. -/
def compact : Mode → Bytes → Bytes
  | _, [] => []
  | .outside, c :: rest =>
    if c = 32 ∨ c = 9 ∨ c = 10 ∨ c = 13 then compact .outside rest
    else c :: compact (if c = 34 then .inside else .outside) rest
  | .inside, c :: rest => c :: compact (if c = 92 then .escaped else if c = 34 then .outside else .inside) rest
  | .escaped, c :: rest => c :: compact .inside rest

@[simp] theorem compact_compact (mode : Mode) (b : Bytes) : compact mode (compact mode b) = compact mode b := by
  induction b generalizing mode with
  | nil => cases mode <;> rfl
  | cons c rest ih =>
    cases mode with
    | outside =>
      simp only [compact]
      split
      · exact ih .outside
      next solid => simp only [compact, solid, ↓reduceIte, ih]
    | inside => simp only [compact, ih]
    | escaped => simp only [compact, ih]

def maxAppClaimsBytes : Nat := 2048

inductive ClaimsErr where
  | malformed
  | tooLarge (bytes : Nat)
  deriving DecidableEq, Repr

def compactClaims (lib : Library) (raw : Bytes) : Except ClaimsErr Bytes :=
  let trimmed := trimSpace raw
  if trimmed = [] ∨ trimmed.headD 0 ≠ 123 ∨ lib.valid trimmed = false then .error .malformed
  else if (compact .outside trimmed).length > maxAppClaimsBytes then
    .error (.tooLarge (compact .outside trimmed).length)
  else .ok (compact .outside trimmed)

def Text (b : Bytes) : Prop := ∃ cs : List Char, b = cs.flatMap String.utf8EncodeChar

structure Header.WellFormed (h : Header) : Prop where
  texts : ∀ s ∈ [h.alg, h.kid, h.typ], Text s

/-- The strings are texts, and the raw claims are a compact JSON object. -/
structure ClaimSet.WellFormed (lib : Library) (cs : ClaimSet) : Prop where
  texts : ∀ s ∈ [cs.iss, cs.aud, cs.sub, cs.tid, cs.sid, cs.typ, cs.egc, cs.att] ++ cs.amr, Text s
  object : compactClaims lib cs.apc = .ok cs.apc

/-- What is written is read back; a compact text is valid, and that of an object ends with its brace; a text is as
long as what is in it; a digest has 32 bytes. -/
structure Library.Exact (lib : Library) : Prop where
  header : ∀ h, h.WellFormed → lib.readHeader (lib.header h) = some h
  claims : ∀ cs, cs.WellFormed lib → lib.readClaims (lib.claims cs) = some cs
  valid : ∀ b, lib.valid b = true → lib.valid (compact .outside b) = true
  closed : ∀ b, lib.valid b = true → b.headD 0 = 123 → (compact .outside b).getLast? = some 125
  long : ∀ cs, cs.att.length ≤ (lib.claims cs).length
  digest : ∀ b, (lib.sha256 b).length = 32

variable {b : Bytes}

theorem text_of_ascii (low : ∀ c ∈ b, c < 128) : Text b := by
  refine ⟨b.map fun c => Char.ofNat c.toNat, ?_⟩
  induction b with
  | nil => rfl
  | cons c rest ih =>
    have small : c.toNat < 128 := low c List.mem_cons_self
    have one : String.utf8EncodeChar (Char.ofNat c.toNat) = [c] := by
      have value : c = c.toNat.toUInt8 := UInt8.ofNat_toNat.symm
      rw [value]
      generalize c.toNat = n at small
      interval_cases n <;> rfl
    rw [List.map_cons, List.flatMap_cons, one, ← ih fun d member => low d (List.mem_cons_of_mem _ member)]
    rfl

theorem dropSpaces_solid {width : Bytes → Nat} (solid : width b = 0) (n : Nat) : dropSpaces width n b = b := by
  cases n with
  | zero => rfl
  | succ n => simp [dropSpaces, solid]

theorem firstSpace_brace (brace : b.headD 0 = 123) : firstSpace b = 0 := by
  cases b with
  | nil => cases brace
  | cons c rest =>
    obtain rfl : c = 123 := brace
    simp [firstSpace, spaceWidth]

/-- No character of white space ends with the byte of a brace. -/
theorem lastSpace_brace (brace : b.headD 0 = 125) : lastSpace b = 0 := by
  cases b with
  | nil => cases brace
  | cons c rest =>
    obtain rfl : c = 125 := brace
    simp only [lastSpace, spaceWidth, List.getD_cons_zero]
    grind

theorem trimSpace_braces (first : b.headD 0 = 123) (last : b.getLast? = some 125) : trimSpace b = b := by
  have front : dropSpaces firstSpace b.length b = b := dropSpaces_solid (firstSpace_brace first) _
  have back : b.reverse.headD 0 = 125 := by
    rw [List.headD_eq_head?_getD, List.head?_reverse, last]
    rfl
  simp [trimSpace, front, dropSpaces_solid (lastSpace_brace back)]

theorem compact_brace (brace : b.headD 0 = 123) : (compact .outside b).headD 0 = 123 := by
  cases b with
  | nil => cases brace
  | cons c rest =>
    obtain rfl : c = 123 := brace
    simp [compact]

theorem compactClaims_ok {lib : Library} {raw claims : Bytes} (ok : compactClaims lib raw = .ok claims) :
    ∃ b, b.headD 0 = 123 ∧ lib.valid b = true ∧ claims = compact .outside b ∧ claims.length ≤ maxAppClaimsBytes := by
  simp only [compactClaims, ite_error_eq_ok, not_or, not_not, Bool.not_eq_false, gt_iff_lt, not_lt] at ok
  obtain ⟨⟨-, brace, valid⟩, short, ok⟩ := ok
  cases ok
  exact ⟨_, brace, valid, rfl, short⟩

theorem compactClaims_again {lib : Library} (exact : lib.Exact) {raw claims : Bytes}
    (ok : compactClaims lib raw = .ok claims) : compactClaims lib claims = .ok claims := by
  obtain ⟨b, brace, valid, rfl, short⟩ := compactClaims_ok ok
  have first := compact_brace brace
  have nonempty : compact .outside b ≠ [] := by
    intro nil
    rw [nil] at first
    cases first
  have accepted : ¬(compact .outside b = [] ∨ (compact .outside b).headD 0 ≠ 123 ∨
      lib.valid (compact .outside b) = false) := by
    simp only [nonempty, first, exact.valid b valid, ne_eq, not_true, or_self, Bool.true_eq_false,
      not_false_eq_true]
  simp only [compactClaims, trimSpace_braces first (exact.closed b valid brace), compact_compact]
  rw [if_neg accepted, if_neg (Nat.not_lt.mpr short)]

/-! ### An exact library

Fields one after the other, each byte marked, in place of JSON. It stands for
the standard library where a run is evaluated. -/

namespace Framed

def frame (fields : List Bytes) : Bytes := fields.flatMap fun field => field.flatMap (fun c => [1, c]) ++ [0]

def unframe : Bytes → Bytes → List Bytes
  | read, 1 :: c :: rest => unframe (read ++ [c]) rest
  | read, 0 :: rest => read :: unframe [] rest
  | _, _ => []

theorem unframe_marked (field : Bytes) (read rest : Bytes) :
    unframe read (field.flatMap (fun c => [1, c]) ++ rest) = unframe (read ++ field) rest := by
  induction field generalizing read with
  | nil => simp
  | cons c field ih => simp [unframe, ih]

theorem unframe_frame (fields : List Bytes) : unframe [] (frame fields) = fields := by
  induction fields with
  | nil => rfl
  | cons field fields ih =>
    have rest : unframe [] (fields.flatMap fun field => field.flatMap (fun c => [1, c]) ++ [0]) = fields := ih
    simp [frame, unframe_marked, unframe, rest]

theorem length_le_frame {fields : List Bytes} {field : Bytes} (member : field ∈ fields) :
    field.length ≤ (frame fields).length := by
  induction fields with
  | nil => cases member
  | cons first fields ih =>
    simp only [frame, List.flatMap_cons, List.length_append, List.length_singleton]
    rcases List.mem_cons.mp member with rfl | later
    · have marked : (field.flatMap fun c => [1, c]).length = field.length * 2 := by simp
      omega
    · have rest : field.length ≤ (fields.flatMap fun field => field.flatMap (fun c => [1, c]) ++ [0]).length := ih later
      omega

def fields (cs : ClaimSet) : List Bytes :=
  [cs.iss, cs.aud, cs.sub, cs.tid, cs.sid, Decimal.format cs.iat, Decimal.format cs.exp, cs.typ, Decimal.format cs.egv,
    cs.egc, cs.att, cs.apc, Decimal.format cs.authTime] ++ cs.amr

def readHeader (b : Bytes) : Option Header :=
  match unframe [] b with
  | [alg, kid, typ] => some ⟨alg, kid, typ⟩
  | _ => none

def readClaims (b : Bytes) : Option ClaimSet :=
  match unframe [] b with
  | iss :: aud :: sub :: tid :: sid :: iat :: exp :: typ :: egv :: egc :: att :: apc :: authTime :: amr => do
    let iat ← Decimal.parse iat
    let exp ← Decimal.parse exp
    let egv ← Decimal.parse egv
    let authTime ← Decimal.parse authTime
    pure ⟨iss, aud, sub, tid, sid, iat, exp, typ, egv, egc, att, apc, amr, authTime⟩
  | _ => none

def library : Library where
  valid b := (compact .outside b).getLast? == some 125
  header h := frame [h.alg, h.kid, h.typ]
  claims cs := frame (fields cs)
  readHeader := readHeader
  readClaims := readClaims
  sha256 b := (b ++ List.replicate 32 0).take 32

theorem library_exact : library.Exact where
  header h _ := by simp [library, readHeader, unframe_frame]
  claims cs _ := by simp [library, readClaims, fields, unframe_frame, Decimal.parse_format]
  valid b := by simp [library]
  closed b valid _ := by simpa [library] using valid
  long cs := length_le_frame (by simp [fields])
  digest b := by simp [library]

end Framed
end Egauth.Jwt
