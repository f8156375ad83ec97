import Mathlib.Data.List.Basic

/-! Tenants, subjects and identifiers.

Go strings and byte slices are lists of bytes; a nil slice is the empty list.
A TenantID other than the zero one comes from `ParseTenantID` only, so the
accepted form is part of the type.
-/

set_option autoImplicit false

namespace Egauth

abbrev Bytes := List UInt8

instance : LawfulBEq Bytes := inferInstance

/-- The bytes of an ASCII string literal of the source. -/
def ascii (s : String) : Bytes := s.toList.map fun c => c.toNat.toUInt8

namespace Core

/-- `uuid.UUID`, an array of sixteen bytes. -/
structure UUID where
  bytes : Bytes
  size : bytes.length = 16
  deriving DecidableEq

namespace UUID

def nil : UUID := ⟨List.replicate 16 0, rfl⟩

def hexDigit (n : UInt8) : UInt8 := if n < 10 then 48 + n else 87 + n

def hex (bs : Bytes) : Bytes := bs.flatMap fun b => [hexDigit (b / 16), hexDigit (b % 16)]

/-- `u.String()`: five groups of lower-case hexadecimal digits. -/
def string (u : UUID) : Bytes :=
  hex (u.bytes.take 4) ++ ascii "-" ++ hex ((u.bytes.drop 4).take 2) ++ ascii "-" ++
    hex ((u.bytes.drop 6).take 2) ++ ascii "-" ++ hex ((u.bytes.drop 8).take 2) ++ ascii "-" ++
    hex (u.bytes.drop 10)

end UUID

def maxTenantLen : Nat := 128

def tenantByte (c : UInt8) : Bool :=
  (97 ≤ c && c ≤ 122) || (65 ≤ c && c ≤ 90) || (48 ≤ c && c ≤ 57) || c == 46 || c == 95 || c == 45

/-- `ErrInvalidTenant`, alone or joined with the character error. -/
inductive TenantErr where
  | invalidTenant
  | invalidCharacter
  deriving DecidableEq, Repr

def checkTenant (s : Bytes) : Option TenantErr :=
  if s = [] ∨ s.length > maxTenantLen then some .invalidTenant
  else if s.all tenantByte then none
  else some .invalidCharacter

/-- The zero TenantID is the single tenant. -/
structure TenantID where
  id : Bytes
  parsed : id = [] ∨ checkTenant id = none
  deriving DecidableEq

def TenantID.zero : TenantID := ⟨[], .inl rfl⟩

def parseTenantID (s : Bytes) : Except TenantErr TenantID :=
  match accepted : checkTenant s with
  | none => .ok ⟨s, .inr accepted⟩
  | some err => .error err

theorem parseTenantID_id {t : TenantID} (nonzero : t.id ≠ []) : parseTenantID t.id = .ok t := by
  have accepted := t.parsed.resolve_left nonzero
  unfold parseTenantID
  split
  · rfl
  · simp_all

/-- A user within a tenant. A Subject with a nil User is invalid everywhere. -/
structure Subject where
  tenant : TenantID
  user : UUID
  deriving DecidableEq

def Subject.zero : Subject := ⟨.zero, .nil⟩

def Subject.isZero (s : Subject) : Bool := s.user == .nil

@[simp] theorem Subject.isZero_iff (s : Subject) : s.isZero = true ↔ s.user = .nil := by
  simp [Subject.isZero]

def Subject.sample : Subject := ⟨.zero, ⟨List.replicate 16 1, rfl⟩⟩

/-- The opaque persisted form of session state; stores keep its bytes verbatim. -/
structure Sealed where
  bytes : Bytes
  deriving DecidableEq

def Sealed.isZero (s : Sealed) : Bool := s.bytes.isEmpty

end Core
end Egauth
