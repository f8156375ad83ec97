import Egauth.Tokens.Replay
import Egauth.Revoke.Staleness
import Egauth.Revoke.Families
import Egauth.Revoke.Keysets
import Egauth.Mfa.Removal
import Egauth.Passkey.Clone
import Egauth.Login.Guess
import Egauth.Service.Ownership
import Egauth.Service.Redeem
import Egauth.Revert.Anchor
import Egauth.Tokens.Atomic
import Egauth.Tokens.Final
import Egauth.Identity.Projection
import Egauth.Lifecycle.Erasure
import Egauth.Jwt.Accepts
import Egauth.Jwt.Bounds
import Egauth.Revoke.Checks
import Egauth.Ceremony.Caps
import Egauth.Ceremony.Stateless
import Egauth.Keys.Keyset
import Egauth.Flow.Once
import Egauth.Limiter.Window
import Egauth.Limiter.Accounts
import Egauth.Revoke.Nodes
import Egauth.Net.ClientAddr
import Egauth.Net.Outbound
import Egauth.Passwords.Argon2
import Egauth.Keys.Sealing
import Egauth.Tokens.Gate
