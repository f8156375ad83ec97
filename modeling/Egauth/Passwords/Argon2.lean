import Egauth.Core.Principal
import Egauth.Data.Base64
import Egauth.Data.Decimal

/-! The Argon2id hasher of passwords.

The key derivation, base64 and the white space that `fmt` skips before a number
are given by a library; of these only what is stated with them is used. A
derivation waits for a slot and is given up when the context of the call ends.
-/

set_option autoImplicit false

namespace Egauth.Argon2
open Decimal

def maxPasswordLength : Nat := 1024

def maxMemoryKiB : Nat := 524288

def minTime : Nat := 1

def maxTime : Nat := 16

def version : Nat := 19

inductive Err where
  | hashFailed
  | passwordTooLong
  | invalidPassword
  | context
  deriving DecidableEq, Repr

structure Hasher where
  time : Nat
  memory : Nat
  threads : Nat
  keyLen : Nat
  saltLen : Nat

/-- The arguments of `argon2.IDKey`. -/
structure Derivation where
  password : Bytes
  salt : Bytes
  time : Nat
  memory : Nat
  threads : Nat
  keyLen : Nat

/-- `argon2.IDKey`, `base64.RawStdEncoding` and `SkipSpace` of a scan, which fails at a line break. -/
structure Library where
  idKey : Derivation → Bytes
  length_idKey (d : Derivation) : (idKey d).length = d.keyLen
  encode : Bytes → Bytes
  decode : Bytes → Option Bytes
  decode_encode (b : Bytes) : decode (encode b) = some b
  encode_plain (b : Bytes) : 36 ∉ encode b
  skipSpace : Bytes → Option Bytes
  skipSpace_digit (b : UInt8) (rest : Bytes) : isDigit b = true → skipSpace (b :: rest) = some (b :: rest)

variable (lib : Library)

def derive (ended : Bool) (d : Derivation) : Except Err Bytes := if ended then .error .context else .ok (lib.idKey d)

def scanNumber (text : Bytes) : Option (Nat × Bytes) :=
  if text.takeWhile isDigit = [] then none else some (value (text.takeWhile isDigit), text.dropWhile isDigit)

/-- `%d` into an unsigned integer of so many bits. -/
def scanUint (bits : Nat) (text : Bytes) : Option (Nat × Bytes) := do
  let (n, rest) ← scanNumber (← lib.skipSpace text)
  if n < 2 ^ bits then some (n, rest) else none

def scanInt (text : Bytes) : Option (Int × Bytes) := do
  let text ← lib.skipSpace text
  let sign := text.head?.filter fun b => b = 43 ∨ b = 45
  let (n, rest) ← scanNumber (if sign.isSome then text.tail else text)
  let n : Int := if sign = some 45 then -n else n
  if -2 ^ 63 ≤ n ∧ n < 2 ^ 63 then some (n, rest) else none

def scanWord (word text : Bytes) : Option Bytes :=
  if word <+: text then some (text.drop word.length) else none

/-- The format `v=%d`. What follows is not read. -/
def scanVersion (text : Bytes) : Option Int := do
  let (v, _) ← scanInt lib (← scanWord (ascii "v=") text)
  some v

/-- The format `m=%d,t=%d,p=%d`. -/
def scanCost (text : Bytes) : Option (Nat × Nat × Nat) := do
  let (memory, rest) ← scanUint lib 32 (← scanWord (ascii "m=") text)
  let (time, rest) ← scanUint lib 32 (← scanWord (ascii ",t=") rest)
  let (threads, _) ← scanUint lib 8 (← scanWord (ascii ",p=") rest)
  some (memory, time, threads)

structure Stored where
  memory : Nat
  time : Nat
  threads : Nat
  salt : Bytes
  key : Bytes

/-- What `Compare` and `NeedsRehash` read of a hash; 36 is the dollar sign. -/
def readHash (hash : Bytes) : Option Stored :=
  match hash.splitOn 36 with
  | [_, name, v, cost, salt, key] =>
    if name ≠ ascii "argon2id" ∨ scanVersion lib v ≠ some (version : Int) then none
    else do
      let (memory, time, threads) ← scanCost lib cost
      let salt ← lib.decode salt
      let key ← lib.decode key
      some ⟨memory, time, threads, salt, key⟩
  | _ => none

def costText (h : Hasher) : Bytes :=
  ascii "m=" ++ (digits h.memory ++ (ascii ",t=" ++ (digits h.time ++ (ascii ",p=" ++ digits h.threads))))

def phcText (h : Hasher) (salt key : Bytes) : Bytes :=
  [36].intercalate [[], ascii "argon2id", ascii "v=" ++ digits version, costText h, lib.encode salt, lib.encode key]

namespace Hasher

/-- The random bytes of the salt are given; there are none when reading them fails. -/
def hash (h : Hasher) (random : Option Bytes) (ended : Bool) (password : Bytes) : Except Err Bytes :=
  if password = [] then .error .hashFailed
  else if password.length > maxPasswordLength then .error .passwordTooLong
  else
    match random with
    | none => .error .hashFailed
    | some salt => do
      let key ← derive lib ended ⟨password, salt, h.time, h.memory, h.threads, h.keyLen⟩
      .ok (phcText lib h salt key)

end Hasher

/-- The derivation that `Compare` asks for, with the key that it is compared to. -/
def demanded (hash password : Bytes) : Option (Derivation × Bytes) :=
  if password = [] ∨ password.length > maxPasswordLength then none
  else do
    let st ← readHash lib hash
    let keyLen := st.key.length % 2 ^ 32
    if st.time < 1 ∨ st.threads < 1 ∨ keyLen = 0 ∨ st.time > maxTime ∨ st.memory < 8 * st.threads ∨
        st.memory > maxMemoryKiB then none
    else some (⟨password, st.salt, st.time, st.memory, st.threads, keyLen⟩, st.key)

/-- The cost of the hasher itself is not used. -/
def Hasher.compare (_ : Hasher) (ended : Bool) (hash password : Bytes) : Except Err Unit :=
  match demanded lib hash password with
  | none => .error .invalidPassword
  | some (d, key) => do
    let derived ← derive lib ended d
    if key = derived then .ok () else .error .invalidPassword

variable {lib}

variable {h : Hasher}

/-- A library whose derivation repeats one byte. -/
def Sample.library : Library where
  idKey d := List.replicate d.keyLen 7
  length_idKey _ := List.length_replicate
  encode := Base64.encode
  decode := Base64.decode
  decode_encode := Base64.decode_encode
  encode_plain b member := by
    obtain ⟨n, listed, same⟩ := List.mem_map.mp member
    have read := Base64.value_digit (Base64.sextets_lt listed)
    rw [same] at read
    exact absurd read nofun
  skipSpace := some
  skipSpace_digit _ _ _ := rfl

end Egauth.Argon2
