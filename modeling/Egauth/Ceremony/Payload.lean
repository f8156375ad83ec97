import Egauth.Ceremony.Handle
import Egauth.Data.Utf8

/-! The payloads of the stateless kinds and their codecs.

JSON is a parameter with the law of its strings: a byte that is part of no
character is written as the replacement character. A byte slice is written in
base64 and read back as it is.
-/

set_option autoImplicit false

namespace Egauth.Ceremony
open Egauth.Core

def maxURILen : Nat := 2048

def minPKCEVerifier : Nat := 43

def maxPKCEVerifier : Nat := 128

structure WebAuthn where
  session : Bytes
  deriving DecidableEq

def WebAuthn.validate (w : WebAuthn) : Bool := nonEmpty w.session maxSessionBytes

structure OAuth where
  provider : Bytes
  pkceVerifier : Bytes
  nonce : Bytes
  redirectURI : Bytes
  deriving DecidableEq

namespace OAuth

def validate (o : OAuth) : Bool :=
  let n := o.pkceVerifier.length
  nonEmpty o.provider maxNameLen && nonEmpty o.redirectURI maxURILen &&
    !(n ≠ 0 && (n < minPKCEVerifier || n > maxPKCEVerifier)) && !(o.nonce.length > maxNameLen)

def replaced (o : OAuth) : OAuth :=
  ⟨Utf8.replaced o.provider, Utf8.replaced o.pkceVerifier, Utf8.replaced o.nonce, Utf8.replaced o.redirectURI⟩

end OAuth

structure External where
  name : Bytes
  deriving DecidableEq

namespace External

def validate (e : External) : Bool := nonEmpty e.name maxNameLen

def replaced (e : External) : External := ⟨Utf8.replaced e.name⟩

end External

/-- `json.Marshal` of the payloads, and a strict `json.Decoder` that reads one value to the end. -/
structure Json where
  webAuthn : WebAuthn → Bytes
  oauth : OAuth → Bytes
  external : External → Bytes
  readWebAuthn : Bytes → Option WebAuthn
  readOAuth : Bytes → Option OAuth
  readExternal : Bytes → Option External
  bytes : ∀ w, readWebAuthn (webAuthn w) = some w
  oauthStrings : ∀ o, readOAuth (oauth o) = some o.replaced
  externalStrings : ∀ e, readExternal (external e) = some e.replaced

def discoverablePasskey (json : Json) : Codec WebAuthn :=
  ⟨.discoverablePasskey, WebAuthn.validate, json.webAuthn, json.readWebAuthn⟩

def usernameFirstPasskey (json : Json) : Codec WebAuthn :=
  ⟨.usernameFirstPasskey, WebAuthn.validate, json.webAuthn, json.readWebAuthn⟩

def oauthState (json : Json) : Codec OAuth := ⟨.oauthState, OAuth.validate, json.oauth, json.readOAuth⟩

def externalLogin (json : Json) : Codec External := ⟨.externalLogin, External.validate, json.external, json.readExternal⟩

inductive StatelessKind where
  | discoverablePasskey
  | usernameFirstPasskey
  | oauthState
  | externalLogin
  deriving DecidableEq

namespace StatelessKind

def kind : StatelessKind → Kind
  | .discoverablePasskey => .discoverablePasskey
  | .usernameFirstPasskey => .usernameFirstPasskey
  | .oauthState => .oauthState
  | .externalLogin => .externalLogin

def Payload : StatelessKind → Type
  | .discoverablePasskey => WebAuthn
  | .usernameFirstPasskey => WebAuthn
  | .oauthState => OAuth
  | .externalLogin => External

def codec (json : Json) : (k : StatelessKind) → Codec k.Payload
  | .discoverablePasskey => Ceremony.discoverablePasskey json
  | .usernameFirstPasskey => Ceremony.usernameFirstPasskey json
  | .oauthState => Ceremony.oauthState json
  | .externalLogin => Ceremony.externalLogin json

def strings : (k : StatelessKind) → k.Payload → List Bytes
  | .discoverablePasskey, _ => []
  | .usernameFirstPasskey, _ => []
  | .oauthState, o => [OAuth.provider o, OAuth.pkceVerifier o, OAuth.nonce o, OAuth.redirectURI o]
  | .externalLogin, e => [External.name e]

@[simp] theorem codec_kind (json : Json) (k : StatelessKind) : (k.codec json).kind = k.kind := by
  cases k <;> rfl

theorem kind_injective : Function.Injective kind := by
  intro k k' same
  cases k <;> cases k' <;> first | rfl | cases same

theorem admitsSession (k : StatelessKind) : k.kind.admitsSession = true := by
  cases k <;> rfl

theorem unmarshal_marshal (json : Json) {k : StatelessKind} {payload : k.Payload}
    (texts : ∀ text ∈ k.strings payload, Utf8.Valid text) :
    (k.codec json).unmarshal ((k.codec json).marshal payload) = some payload := by
  cases k with
  | discoverablePasskey => exact json.bytes payload
  | usernameFirstPasskey => exact json.bytes payload
  | oauthState =>
    have same : OAuth.replaced payload = payload := by
      simp only [strings, List.forall_mem_cons, ← Utf8.replaced_eq_self] at texts
      obtain ⟨provider, verifier, nonce, uri, -⟩ := texts
      exact (OAuth.mk.injEq ..).mpr ⟨provider, verifier, nonce, uri⟩
    exact (json.oauthStrings payload).trans (congrArg some same)
  | externalLogin =>
    have same : External.replaced payload = payload := by
      simp only [strings, List.forall_mem_cons, ← Utf8.replaced_eq_self] at texts
      exact (External.mk.injEq ..).mpr texts.1
    exact (json.externalStrings payload).trans (congrArg some same)

end StatelessKind
end Egauth.Ceremony
