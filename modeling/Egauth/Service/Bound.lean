import Egauth.Revert.Footprint
import Egauth.Service.Endpoints

/-! Whether a ceremony acts on the account state it was bound to.

The epoch is compared and the mutation applied in two calls, and the store is
not told what the first has seen. Two resets whose links were bound at the same
epoch can both pass the comparison before either changes the password. A
mutation does find the compared epoch where nothing bumped it in between; the
proof of an email address bumps it twice itself before it marks the address.
-/

set_option autoImplicit false

namespace Egauth.Service
open Egauth.Core Identity Revert Prog

/-- A request of one of the endpoints, or any other mutation. -/
inductive Request where
  | resetPassword (t : TenantID) (handle : Option Ceremony.Digest)
  | verifyEmail (t : TenantID) (handle : Option Ceremony.Digest)
  | confirmEmailChange (t : TenantID) (handle : Option Ceremony.Digest)
  | confirmRecoveryEmail (t : TenantID) (handle : Option Ceremony.Digest)
  | verifyPhone (a : SessionAttrs) (t : TenantID) (handle : Option Ceremony.Digest) (code : Bytes)
  | registerFinish (a : SessionAttrs) (handle : Option Ceremony.Digest) (nickname : Bytes)
  | link (sub : Subject) (epoch : UInt64) (identity : FederatedIdentity) (valid : Bool)
  | mutation (m : Mutation)

def Request.program (cfg : Config) : Request → Program Unit
  | .resetPassword t handle => Service.resetPassword t handle
  | .verifyEmail t handle => Service.verifyEmail t handle
  | .confirmEmailChange t handle => Service.confirmEmailChange cfg t handle
  | .confirmRecoveryEmail t handle => Service.confirmRecoveryEmail cfg t handle
  | .verifyPhone a t handle code => Service.verifyPhone cfg a t handle code
  | .registerFinish a handle nickname => Service.registerFinish a handle nickname
  | .link sub epoch identity valid => Service.link sub epoch identity valid
  | .mutation m => do
    let _ ← value .identity (← ask (.apply m))

def Request.acts : Request → Bool
  | .mutation _ => false
  | _ => true

/-- The one that applies more than one mutation. -/
def Request.wipes : Request → Bool
  | .verifyEmail .. => true
  | _ => false

def opened : Event → Option (Subject × UInt64)
  | ⟨.peek .., .ok rec⟩ | ⟨.consume .., .ok rec⟩ => some (rec.row.pending.subject, rec.row.pending.epochAtBind)
  | _ => none

/-- `Directory.Link` is given what the others find in a record. -/
def Request.given : Request → Option (Subject × UInt64)
  | .link sub epoch .. => some (sub, epoch)
  | _ => none

/-- The account and the epoch that the ceremony of a request is bound to, as the record says that was handed to it
last. -/
def Request.binding (request : Request) (events : List Event) : Option (Subject × UInt64) :=
  events.foldl (fun binding event => (opened event).or binding) request.given

/-- The binding of a request, the epochs that it has read since its last bump, and the one that the bump answered. -/
structure Note where
  binding : Option (Subject × UInt64)
  read : List (Subject × UInt64)
  bumped : Option UInt64

def Note.open (g : Note) (rec : Ceremony.Record) : Note :=
  { g with binding := some (rec.row.pending.subject, rec.row.pending.epochAtBind) }

/-- The request has read the epoch of its binding, or after a bump of its own the one that the bump answered; an
epoch that is zero then is not compared. -/
def Note.Finds (g : Note) (wipes : Bool) (sub : Subject) : Prop :=
  ∃ epoch, g.binding = some (sub, epoch) ∧
    match g.bumped with
    | none => (sub, epoch) ∈ g.read
    | some own => wipes = true ∧ (own ≠ 0 → (sub, own) ∈ g.read)

def compares (wipes : Bool) : Discipline Call Reply Note where
  track g c r :=
    match c, r with
    | .peek .., .ok rec | .consume .., .ok rec => g.open rec
    | .getUser sub, .ok u => { g with read := (sub, u.securityEpoch) :: g.read }
    | .apply m, .ok ap => if (effectsOf m).bumpsEpoch then { g with read := [], bumped := some ap.newEpoch } else g
    | _, _ => g
  learns _ c r :=
    match c, r with
    | .getUser sub, .ok u => u.subject = sub
    | _, _ => True
  allows g c :=
    match c with
    | .apply m => g.Finds wipes (subjectOf m)
    | .peek .. | .consume .. => wipes = true → g.bumped = none
    | _ => True

def Call.plain : Call → Prop
  | .getUser _ | .apply _ | .peek .. | .consume .. => False
  | _ => True

variable {A : Type} {wipes : Bool} {g : Note} {p : Program A} {met : Note → A → Prop} {handle : Option Ceremony.Digest}
  {sub : Subject} {epoch : UInt64} {t : TenantID} {m : Mutation} {rec : Ceremony.Record}

theorem plain_compares {c : Call} (plain : c.plain) (g : Note) :
    (compares wipes).allows g c ∧ ∀ r, (compares wipes).track g c r = g := by
  cases c with
  | getUser | apply | peek | consume => cases plain
  | _ => exact ⟨trivial, fun _ => rfl⟩

theorem yields_plain (made : Only Call.plain p fun _ => True) : Yields (compares wipes) g p fun g' _ => g' = g := by
  refine .of_obeys (made.obeys (fun g' => g' = g) rfl ?_) fun _ _ ends => ends.1
  rintro _ c rfl plain
  exact ⟨(plain_compares plain _).1, fun r _ => (plain_compares plain _).2 r⟩

theorem yields_ask {c : Call} {f : Reply c → Program A} (plain : c.plain)
    (onward : ∀ r, Yields (compares wipes) g (f r) met) : Yields (compares wipes) g (ask c >>= f) met := by
  refine yields_perform.mpr ⟨(plain_compares plain g).1, fun r _ => ?_⟩
  rw [(plain_compares plain g).2 r]
  exact onward r

section
variable {k : Ceremony.Kind} {h : Ceremony.Digest} {wrap : Ceremony.Err → Problem} {f : Ceremony.Record → Program A}

theorem yields_peek (unbumped : g.bumped = none) (onward : ∀ rec, Yields (compares wipes) (g.open rec) (f rec) met) :
    Yields (compares wipes) g (ask (.peek t k h) >>= fun r => value wrap r >>= f) met := by
  refine yields_perform.mpr ⟨fun _ => unbumped, fun r _ => yields_value fun rec handed => ?_⟩
  subst handed
  exact onward rec

theorem yields_consume (unbumped : g.bumped = none)
    (onward : ∀ rec, Yields (compares wipes) (g.open rec) (f rec) met) :
    Yields (compares wipes) g (ask (.consume t k h) >>= fun r => value wrap r >>= f) met := by
  refine yields_perform.mpr ⟨fun _ => unbumped, fun r _ => yields_value fun rec handed => ?_⟩
  subst handed
  exact onward rec

end

/-- What reads of the account leave of the note. -/
structure Note.Reads (g g' : Note) : Prop where
  binding : g'.binding = g.binding
  bumped : g'.bumped = g.bumped
  read : g.read ⊆ g'.read

theorem Note.finds_of_read {e : UInt64} (held : g.binding = some (sub, e)) (unbumped : g.bumped = none)
    (read : (sub, e) ∈ g.read) : g.Finds wipes sub := by
  refine ⟨e, held, ?_⟩
  rw [unbumped]
  exact read

theorem yields_applyMutation {problem : Identity.Err → Problem} (finds : g.Finds wipes (subjectOf m)) :
    Yields (compares wipes) g (applyMutation m problem) fun _ _ => True :=
  yields_perform.mpr ⟨finds, fun _ _ => yields_value fun _ _ => yields_ret.mpr trivial⟩

theorem yields_accountState : Yields (compares wipes) g (accountState sub) fun g' st =>
    g.Reads g' ∧ (st.usable = true → (sub, st.epoch) ∈ g'.read) := by
  refine yields_perform.mpr ⟨trivial, fun r _ => ?_⟩
  split
  · exact yields_ret.mpr ⟨⟨rfl, rfl, List.subset_cons_self _ _⟩, fun _ => List.mem_cons_self⟩
  · exact yields_ret.mpr ⟨⟨rfl, rfl, List.Subset.refl _⟩, nofun⟩
  · exact yields_fail

theorem yields_readUser : Yields (compares wipes) g (readUser sub) fun g' u =>
    g.Reads g' ∧ u.subject = sub ∧ (sub, u.securityEpoch) ∈ g'.read := by
  refine yields_perform.mpr ⟨trivial, fun r possible => ?_⟩
  split
  · exact yields_ret.mpr ⟨⟨rfl, rfl, List.subset_cons_self _ _⟩, possible, List.mem_cons_self⟩
  · exact yields_fail
  · exact yields_fail

theorem read_of_passed {st : AccountState}
    (read : st.usable = true → (sub, st.epoch) ∈ g.read) (passed : ¬(!st.usable ∨ st.epoch ≠ epoch)) :
    (sub, epoch) ∈ g.read := by
  simp only [not_or, not_not, Bool.not_eq_true', Bool.not_eq_false] at passed
  obtain ⟨usable, rfl⟩ := passed
  exact read usable

theorem yields_changeEmail {cfg : Config} {before : User} {to' : Identifier} (finds : g.Finds false before.subject) :
    Yields (compares false) g (changeEmail cfg before to') fun _ _ => True := by
  refine yields_perform.mpr ⟨finds, fun r _ => yields_value fun ap _ => ?_⟩
  have tenure : Only (fun c => c.part ≠ some .identity) (recordTenure cfg before ap).attempt fun _ => True :=
    only_attempt.mpr (only_recordTenure nofun (fun _ => nofun) (fun _ => nofun) fun _ _ _ _ _ _ _ => nofun)
  -- The marks of the tenures are opened after the mutation, which is the only one.
  refine Yields.bind (.of_obeys (tenure.obeys (fun _ => True) trivial fun g c _ apart => ⟨?_, fun _ _ => trivial⟩)
    fun _ _ _ => trivial) fun _ _ (_ : True) => yields_ret.mpr trivial
  cases c with
  | apply => exact absurd rfl apart
  | peek | consume => nofun
  | _ => trivial

theorem yields_stillUnverified : Yields (compares wipes) g (stillUnverified sub epoch) fun g' _ =>
    g.Reads g' ∧ (epoch ≠ 0 → (sub, epoch) ∈ g'.read) := by
  refine yields_perform.mpr ⟨trivial, fun r _ => yields_value fun u told => ?_⟩
  subst told
  split
  · exact yields_fail
  · split
    · exact yields_fail
    next passed =>
      refine yields_ret.mpr ⟨⟨rfl, rfl, List.subset_cons_self _ _⟩, fun nonzero => ?_⟩
      simp only [not_or, not_and, not_not] at passed
      rw [← passed.2 nonzero]
      exact List.mem_cons_self

theorem Note.Finds.reads {g' : Note} (finds : g.Finds wipes sub) (reads : g.Reads g') : g'.Finds wipes sub := by
  obtain ⟨epoch, held, read⟩ := finds
  refine ⟨epoch, reads.binding.trans held, ?_⟩
  rw [reads.bumped]
  split
  next unbumped =>
    rw [unbumped] at read
    exact reads.read read
  next own bumped =>
    rw [bumped] at read
    exact ⟨read.1, fun nonzero => reads.read (read.2 nonzero)⟩

theorem yields_wipe {change : FactorChange} {del : Program Unit} (finds : g.Finds true sub)
    (deletes : Only Call.plain del fun _ => True) :
    Yields (compares true) g (wipe sub change del) fun g _ => g.Finds true sub := by
  obtain ⟨epoch, held, -⟩ := id finds
  refine yields_perform.mpr ⟨finds, fun r _ => yields_value fun ap committed => ?_⟩
  subst committed
  refine yields_stillUnverified.bind fun g' _ read => (yields_plain deletes).mono fun _ _ same => ?_
  rw [same]
  refine ⟨epoch, read.1.binding.trans held, ?_⟩
  rw [show g'.bumped = some ap.newEpoch from read.1.bumped]
  exact ⟨rfl, read.2⟩

theorem yields_verifyEmailOwnership {phc : PasswordHash} (finds : g.Finds true sub) :
    Yields (compares true) g (verifyEmailOwnership sub phc) fun _ _ => True := by
  refine yields_stillUnverified.bind fun g' _ read => ?_
  have passkeys : Only Call.plain (deleteAllPasskeys sub) fun _ => True :=
    only_perform.mpr ⟨trivial, fun _ => only_value.mono fun _ _ => trivial⟩
  have factors : Only Call.plain (deleteAllMFA sub) fun _ => True :=
    only_perform.mpr ⟨trivial, fun _ => only_value.mono fun _ _ => trivial⟩
  refine (yields_wipe (finds.reads read.1) passkeys).bind fun _ _ finds => ?_
  refine (yields_wipe finds factors).bind fun _ _ finds => ?_
  refine yields_perform.mpr ⟨finds, fun r _ => ?_⟩
  cases r with
  | ok ap => exact yields_ret.mpr trivial
  | error err => exact yields_fail

section
-- An endpoint opens its ceremony before it has bumped anything itself.
variable {cfg : Config} (unbumped : g.bumped = none)
include unbumped

theorem yields_resetPassword : Yields (compares wipes) g (resetPassword t handle) fun _ _ => True := by
  refine yields_required fun hash _ => yields_peek unbumped fun _ => yields_value fun _ _ => ?_
  refine yields_ask trivial fun _ => yields_required fun phc _ => yields_consume unbumped fun rec => ?_
  refine yields_value fun found ok => ?_
  obtain rfl := openReset_ok ok
  refine yields_accountState.bind fun g st read => ?_
  split
  · exact yields_fail
  next passed =>
    exact yields_applyMutation (Note.finds_of_read read.1.binding (read.1.bumped.trans unbumped)
      (read_of_passed read.2 passed))

theorem yields_consumeBound {k : Ceremony.Kind} : Yields (compares wipes) g (consumeBound t k handle) fun g c =>
      c.user.subject = c.subject ∧ g.bumped = none ∧ g.Finds wipes c.subject := by
  refine yields_required fun hash _ => yields_peek unbumped fun _ => yields_value fun _ _ => ?_
  refine yields_consume unbumped fun rec => yields_value fun found ok => ?_
  obtain rfl := openReset_ok ok
  refine yields_readUser.bind fun g u read => ?_
  split
  · exact yields_fail
  next passed =>
    have still := read.1.bumped.trans unbumped
    exact yields_ret.mpr ⟨read.2.1, still, Note.finds_of_read read.1.binding still
      (read_of_passed (fun _ => read.2.2) passed)⟩

theorem yields_confirmRecoveryEmail : Yields (compares wipes) g (confirmRecoveryEmail cfg t handle) fun _ _ => True :=
  (yields_consumeBound unbumped).bind fun _ _ bound => yields_required fun _ _ => yields_required fun _ _ =>
    yields_applyMutation bound.2.2

theorem yields_confirmEmailChange : Yields (compares false) g (confirmEmailChange cfg t handle) fun _ _ => True := by
  refine (yields_consumeBound unbumped).bind fun _ c bound => yields_required fun _ _ => yields_required fun email _ => ?_
  split
  · exact yields_fail
  · have finds := bound.2.2
    rw [← bound.1] at finds
    exact (yields_refail.mpr (yields_changeEmail finds)).bind fun _ _ _ => yields_ret.mpr trivial

theorem yields_verifyEmail : Yields (compares true) g (verifyEmail t handle) fun _ _ => True := by
  refine (yields_consumeBound unbumped).bind fun g c bound => yields_required fun _ _ => ?_
  split
  · exact yields_fail
  · exact (yields_refail.mpr (yields_verifyEmailOwnership bound.2.2)).bind fun _ _ _ => yields_ret.mpr trivial

theorem yields_consumeChecked {hash : Ceremony.Digest} {remaining : Int} :
    Yields (compares wipes) (g.open rec) (consumeChecked t hash rec remaining) fun g' rec' => g' = g.open rec' := by
  unfold consumeChecked
  split
  · refine yields_perform.mpr ⟨fun _ => unbumped, fun r _ => ?_⟩
    cases r with
    | ok rec' => exact yields_ret.mpr rfl
    | error err => exact yields_fail
  · exact yields_ret.mpr rfl

theorem yields_checkPhoneCode {code : Bytes} :
    Yields (compares wipes) g (checkPhoneCode cfg t handle code sub) fun g' found =>
      ∃ rec, g' = g.open rec ∧ found.2 = rec.row.pending ∧ rec.row.pending.subject = sub := by
  refine yields_required fun hash _ => yields_peek unbumped fun rec => ?_
  refine yields_required fun _ _ => yields_required fun _ _ => yields_ask trivial fun _ => yields_value fun n _ => ?_
  split
  · exact yields_fail
  · refine (yields_consumeChecked unbumped).bind ?_
    rintro _ rec rfl
    refine yields_required fun p found => yields_required fun _ _ => yields_required fun _ _ => yields_ret.mpr ?_
    exact ⟨rec, rfl, openedFor_some found⟩

theorem yields_verifyPhone {a : SessionAttrs} {code : Bytes} :
    Yields (compares wipes) g (verifyPhone cfg a t handle code) fun _ _ => True := by
  have current : Yields (compares wipes) g (currentAccount a) fun g' u =>
      g'.bumped = none ∧ (u.subject, (stateOf u).epoch) ∈ g'.read := by
    refine yields_perform.mpr ⟨trivial, fun r possible => ?_⟩
    split
    · exact yields_fail
    · exact yields_fail
    next u =>
      split
      · exact yields_fail
      · refine yields_ret.mpr ⟨unbumped, ?_⟩
        rw [show u.subject = a.subject from possible]
        exact List.mem_cons_self
  refine current.bind fun g u read => (yields_checkPhoneCode read.1).bind ?_
  rintro _ ⟨phone, p⟩ ⟨rec, rfl, same, own⟩
  dsimp only at same ⊢
  subst same
  split
  · exact yields_fail
  next equal =>
    rw [not_not] at equal
    refine yields_applyMutation (Note.finds_of_read (e := rec.row.pending.epochAtBind) ?_ read.1 ?_)
    · exact congrArg (fun sub => some (sub, rec.row.pending.epochAtBind)) own
    · rw [equal]
      exact read.2

theorem yields_verifyRegistration {nickname : Bytes} :
    Yields (compares wipes) g (verifyRegistration sub handle nickname) fun g _ => g.Finds wipes sub := by
  have opens : Yields (compares wipes) g
      (consumeSubjectCeremony sub.tenant .passkeyRegistration handle .registrationFailed) fun g' found =>
        ∃ rec, g' = g.open rec ∧ found.1 = rec.row.pending := by
    refine yields_required fun hash _ => yields_consume unbumped fun rec => ?_
    split
    next p _ session ok _ => exact yields_ret.mpr ⟨rec, rfl, congrArg Prod.fst (openReset_ok ok)⟩
    · exact yields_fail
  refine opens.bind ?_
  rintro _ ⟨p, session⟩ ⟨rec, rfl, same⟩
  dsimp only at same ⊢
  subst same
  split
  · exact yields_fail
  next own =>
    rw [not_not] at own
    refine yields_accountState.bind fun g' st read => ?_
    split
    · exact yields_fail
    next passed =>
      refine yields_ask trivial fun _ => yields_required fun c _ => yields_ask trivial fun now => yields_ret.mpr ?_
      refine Note.finds_of_read (e := rec.row.pending.epochAtBind) ?_ (read.1.bumped.trans unbumped)
        (read_of_passed read.2 passed)
      exact read.1.binding.trans (congrArg (fun sub => some (sub, rec.row.pending.epochAtBind)) own)

theorem yields_registerFinish {a : SessionAttrs} {nickname : Bytes} :
    Yields (compares wipes) g (registerFinish a handle nickname) fun _ _ => True := by
  refine (yields_verifyRegistration unbumped).bind fun g c finds => yields_ask trivial fun r => ?_
  split
  · exact yields_fail
  · refine (yields_applyMutation finds).bind fun _ _ _ => yields_ask trivial fun r => ?_
    cases r with
    | ok done => exact yields_ret.mpr trivial
    | error err => exact yields_fail
  · exact yields_fail

theorem yields_attach {identity : FederatedIdentity} (held : g.binding = some (sub, epoch)) :
    Yields (compares wipes) g (attach sub epoch identity) fun _ _ => True := by
  refine yields_accountState.bind fun g' st read => ?_
  split
  · exact yields_fail
  next passed =>
    split
    · exact yields_fail
    · exact yields_applyMutation (Note.finds_of_read (read.1.binding.trans held) (read.1.bumped.trans unbumped)
        (read_of_passed read.2 passed))

theorem yields_link {identity : FederatedIdentity} {valid : Bool} (held : g.binding = some (sub, epoch))
    : Yields (compares wipes) g (link sub epoch identity valid) fun _ _ => True := by
  unfold link
  split
  · exact yields_fail
  · have finds : Only Call.plain (linked sub.tenant identity) fun _ => True := by
      refine only_perform.mpr ⟨trivial, fun _ => ?_⟩
      split
      · trivial
      · trivial
      · split <;> trivial
    refine (yields_plain finds).bind ?_
    rintro _ found rfl
    split
    · exact yields_attach unbumped held
    · split
      · exact yields_fail
      · split
        · exact yields_ret.mpr trivial
        · exact yields_attach unbumped held

end

def Request.start (request : Request) : Note := ⟨request.given, [], none⟩

/-- Every endpoint compares the epoch that its ceremony is bound at with the one it reads. -/
theorem yields_program (cfg : Config) {request : Request} (acts : request.acts = true) :
    Yields (compares request.wipes) request.start (request.program cfg) fun _ _ => True := by
  cases request with
  | resetPassword => exact yields_resetPassword rfl
  | verifyEmail => exact yields_verifyEmail rfl
  | confirmEmailChange => exact yields_confirmEmailChange rfl
  | confirmRecoveryEmail => exact yields_confirmRecoveryEmail rfl
  | verifyPhone => exact yields_verifyPhone rfl
  | registerFinish => exact yields_registerFinish rfl
  | link => exact yields_link rfl rfl
  | mutation m => cases acts

theorem binding_follow (events : List Event) : (follow (compares wipes) g events).binding =
    events.foldl (fun binding event => (opened event).or binding) g.binding := by
  induction events generalizing g with
  | nil => rfl
  | cons event events ih =>
    refine ih.trans (congrArg (events.foldl _) ?_)
    obtain ⟨c, r⟩ := event
    cases c with
    | peek | consume | getUser => cases r <;> rfl
    | apply m =>
      cases r with
      | error err => rfl
      | ok ap =>
        change (if (effectsOf m).bumpsEpoch then { g with read := [], bumped := some ap.newEpoch } else g).binding = _
        split <;> rfl
    | _ => rfl

theorem quiet_of_unbumped {events : List Event} (unbumped : (follow (compares wipes) g events).bumped = none) :
    g.bumped = none ∧ ∀ sub, events.countP (bumps sub) = 0 := by
  induction events generalizing g with
  | nil => exact ⟨unbumped, fun _ => rfl⟩
  | cons event events ih =>
    obtain ⟨start, quiet⟩ := ih unbumped
    obtain ⟨c, r⟩ := event
    have first : g.bumped = none ∧ ∀ sub, bumps sub ⟨c, r⟩ = false := by
      cases c with
      | peek | consume | getUser => cases r <;> exact ⟨start, fun _ => rfl⟩
      | apply m =>
        cases r with
        | error err => exact ⟨start, fun _ => rfl⟩
        | ok ap =>
          change (if (effectsOf m).bumpsEpoch then { g with read := [], bumped := some ap.newEpoch } else g).bumped = none
            at start
          split at start
          · cases start
          next still => exact ⟨start, fun sub => by simp [bumps, still]⟩
      | _ => exact ⟨start, fun _ => rfl⟩
    refine ⟨first.1, fun sub => ?_⟩
    rw [List.countP_cons, quiet sub, first.2 sub]
    rfl

variable {I : Type} [DecidableEq I]

def looks (sub : Subject) : Event → Bool
  | ⟨.getUser s, .ok _⟩ => s = sub
  | _ => false

/-- Whether something bumped the epoch since a request first read the account after its last bump; none where it has
not read it. -/
def watch (i : I) (sub : Subject) (moved : Option Bool) (label : I × Event) : Option Bool :=
  if label.1 = i ∧ bumps sub label.2 then none
  else
    match moved with
    | none => if label.1 = i ∧ looks sub label.2 then some false else none
    | some moved => some (moved || bumps sub label.2)

def disturbed (i : I) (sub : Subject) (labels : List (I × Event)) : Bool := labels.foldl (watch i sub) none = some true

/-- No epoch moved between the first read of a request and its mutation; the latest label comes first. -/
def undisturbed : List (I × Event) → Bool
  | [] => true
  | (i, ⟨.apply m, .ok _⟩) :: earlier => undisturbed earlier && !disturbed i (subjectOf m) earlier.reverse
  | _ :: earlier => undisturbed earlier

def resets (sub : Subject) : Event → Bool
  | ⟨.apply (.setPassword s _ (some .passwordReset) _), .ok _⟩ => s = sub
  | _ => false

def Request.isReset : Request → Bool
  | .resetPassword .. => true
  | _ => false

/-- How many passwords were set through reset links that were bound at the epoch; the latest label comes first. -/
def resetsAt (requests : I → Request) (sub : Subject) (epoch : UInt64) : List (I × Event) → Nat
  | [] => 0
  | (i, event) :: earlier =>
    (if (requests i).isReset ∧ (requests i).binding (own i earlier.reverse) = some (sub, epoch) ∧ resets sub event
      then 1 else 0) + resetsAt requests sub epoch earlier

variable {cfg : Config} {x y z : World × (I → Program Unit)} {labels : List (I × Event)}

theorem keyed_of_run (run : Run (Interleave exec) x labels y) (keyed : x.1.identity.Keyed) : y.1.identity.Keyed := by
  refine Run.invariant (fun x : World × (I → Program Unit) => x.1.identity.Keyed) ?_ run keyed
  rintro s label t keyed ⟨o, -, -, replied, -⟩
  exact keyed_exec keyed replied

/-- The bumps of a run add up. -/
theorem epoch_of_run (run : Run (Interleave exec) x labels y) (keyed : x.1.identity.Keyed)
    (current : x.1.identity.epoch sub = some epoch) :
    y.1.identity.epoch sub = some (epoch + UInt64.ofNat (labels.countP fun label => bumps sub label.2)) := by
  induction run with
  | nil => simpa using current
  | snoc before last ih =>
    obtain ⟨o, -, -, replied, -⟩ := last
    rw [epoch_exec (keyed_of_run before keyed) replied ih, List.countP_append, UInt64.ofNat_add, UInt64.add_assoc]
    congr 3
    rw [List.countP_singleton]
    split <;> rfl

/-- An epoch that a request has read is still that of the account, unless something bumped it since its first read. -/
theorem epoch_of_read (run : Run (Interleave exec) x labels y) (keyed : x.1.identity.Keyed) {i : I} (unread : g.read = [])
    (read : (sub, epoch) ∈ (follow (compares wipes) g (own i labels)).read) :
    labels.foldl (watch i sub) none = some true ∨
      labels.foldl (watch i sub) none = some false ∧ y.1.identity.epoch sub = some epoch := by
  induction run with
  | nil =>
    change (sub, epoch) ∈ g.read at read
    rw [unread] at read
    cases read
  | @snoc mid after labels label before last ih =>
    obtain ⟨o, -, -, replied, -⟩ := last
    have keyedThen := keyed_of_run before keyed
    rw [List.foldl_append, List.foldl_cons, List.foldl_nil]
    have later (old : (sub, epoch) ∈ (follow (compares wipes) g (own i labels)).read)
        (foreign : ¬(label.1 = i ∧ bumps sub label.2 = true)) :
        watch i sub (labels.foldl (watch i sub) none) label = some true ∨
          watch i sub (labels.foldl (watch i sub) none) label = some false ∧ after.1.identity.epoch sub = some epoch := by
      rcases ih old with moved | ⟨still, current⟩
      · exact .inl (by simp [watch, foreign, moved])
      · have next := epoch_exec keyedThen replied current
        cases bumped : bumps sub label.2 with
        | true => exact .inl (by simp [watch, show label.1 ≠ i from fun own => foreign ⟨own, bumped⟩, still, bumped])
        | false =>
          rw [bumped] at next
          exact .inr ⟨by simp [watch, still, bumped], by simpa using next⟩
    rw [follow_own_snoc] at read
    split at read
    next mine =>
      obtain ⟨j, c, r⟩ := label
      cases c with
      | getUser s =>
        cases r with
        | error err => exact later read (by simp [bumps])
        | ok u =>
          rcases List.mem_cons.mp read with same | old
          · -- The request is told the epoch by this very reply.
            obtain ⟨rfl, rfl⟩ := Prod.mk.inj same
            have same := (frame_exec replied).identity (by simp [Call.part])
            have current : _ = some u.securityEpoch :=
              (congrArg (Store.epoch · sub) same).trans (Store.getUser_ok (getUser_exec replied))
            cases moved : labels.foldl (watch i sub) none with
            | none => exact .inr ⟨by simp [watch, bumps, looks, show j = i from mine], current⟩
            | some past =>
              cases past with
              | true => exact .inl (by simp [watch, bumps])
              | false => exact .inr ⟨by simp [watch, bumps], current⟩
          · exact later old (by simp [bumps])
      | apply m =>
        cases r with
        | error err => exact later read (by simp [bumps])
        | ok ap =>
          change (sub, epoch) ∈ (if (effectsOf m).bumpsEpoch then _ else _ : Note).read at read
          split at read
          · cases read
          next still => exact later read (by simp [bumps, still])
      | peek | consume => cases r <;> exact later read (by simp [bumps])
      | _ => exact later read (by simp [bumps])
    next other => exact later read fun own => other own.1

theorem undisturbed_append (earlier : List (I × Event)) {later : List (I × Event)} (calm : undisturbed (earlier ++ later) = true) :
    undisturbed later = true := by
  induction earlier with
  | nil => exact calm
  | cons label earlier ih =>
    refine ih ?_
    rw [List.cons_append] at calm
    unfold undisturbed at calm
    split at calm
    · next same => cases same
    · next same =>
        cases same
        exact (Bool.and_eq_true_iff.mp calm).1
    · next same =>
        cases same
        exact calm

section
variable {request : Request} {events : List Event}

/-- What a request has noted of its own calls. -/
def Request.note (request : Request) (events : List Event) : Note := follow (compares request.wipes) request.start events

/-- Its own bumps have led the account from the epoch of its binding to the one that the last of them answered,
unless the epoch wrapped around. -/
def Counted (request : Request) (events : List Event) : Prop :=
  ∀ own', (request.note events).bumped = some own' → ∃ sub epoch,
    (request.note events).binding = some (sub, epoch) ∧ 0 < events.countP (bumps sub) ∧
      (epoch.toNat + events.countP (bumps sub) < 2 ^ 64 → own' = epoch + .ofNat (events.countP (bumps sub)))

theorem toNat_add_ofNat {epoch : UInt64} {n : Nat} (fits : epoch.toNat + n < 2 ^ 64) :
    (epoch + .ofNat n).toNat = epoch.toNat + n := by
  have small : n < UInt64.size := by
    change n < 2 ^ 64
    omega
  rw [UInt64.toNat_add, UInt64.toNat_ofNat_of_lt' small, Nat.mod_eq_of_lt fits]

theorem track_quiet {c : Call} {r : Reply c} {own' : UInt64} (allowed : (compares true).allows g c)
    (quiet : ∀ sub, bumps sub ⟨c, r⟩ = false) (bumped : ((compares true).track g c r).bumped = some own') :
    g.bumped = some own' ∧ ((compares true).track g c r).binding = g.binding := by
  cases c with
  | apply m =>
    cases r with
    | error err => exact ⟨bumped, rfl⟩
    | ok ap =>
      have still : (effectsOf m).bumpsEpoch = false := by simpa [bumps] using quiet (subjectOf m)
      dsimp only [compares] at bumped ⊢
      rw [still] at bumped ⊢
      exact ⟨bumped, rfl⟩
  | peek | consume =>
    cases r with
    | error err => exact ⟨bumped, rfl⟩
    | ok rec => cases (allowed rfl).symm.trans bumped
  | getUser => cases r <;> exact ⟨bumped, rfl⟩
  | _ => exact ⟨bumped, rfl⟩

theorem note_snoc (event : Event) : request.note (events ++ [event]) =
    (compares request.wipes).track (request.note events) event.1 event.2 := follow_append _ _ _

theorem Counted.snoc {event : Event} (counted : Counted request events) (wipes : request.wipes = true)
    (allowed : (compares request.wipes).allows (request.note events) event.1)
    (answered : ∀ m ap, event = ⟨.apply m, .ok ap⟩ → (effectsOf m).bumpsEpoch = true → ∃ epoch,
      (request.note events).binding = some (subjectOf m, epoch) ∧
        (epoch.toNat + events.countP (bumps (subjectOf m)) < 2 ^ 64 →
          ap.newEpoch = epoch + .ofNat (events.countP (bumps (subjectOf m))) + 1)) :
    Counted request (events ++ [event]) := by
  intro own' bumped
  rw [note_snoc] at bumped ⊢
  by_cases quiet : ∀ sub, bumps sub event = false
  · rw [wipes] at bumped allowed ⊢
    obtain ⟨before, same⟩ := track_quiet allowed quiet bumped
    obtain ⟨sub, epoch, held, some', count⟩ := counted own' before
    refine ⟨sub, epoch, same.trans held, ?_⟩
    rw [List.countP_append, List.countP_singleton, quiet sub]
    exact ⟨some', count⟩
  · obtain ⟨m, ap, rfl, bumping⟩ : ∃ m ap, event = ⟨.apply m, .ok ap⟩ ∧ (effectsOf m).bumpsEpoch = true := by
      obtain ⟨sub, bumping⟩ := not_forall.mp quiet
      unfold bumps at bumping
      split at bumping
      next m ap => exact ⟨m, ap, rfl, by simp_all⟩
      next => exact absurd rfl bumping
    obtain ⟨epoch, held, moved⟩ := answered m ap rfl bumping
    dsimp only [compares] at bumped ⊢
    rw [if_pos bumping] at bumped ⊢
    cases bumped
    refine ⟨subjectOf m, epoch, held, ?_⟩
    rw [List.countP_append, List.countP_singleton, if_pos (by simp [bumps, bumping])]
    refine ⟨Nat.succ_pos _, fun fits => ?_⟩
    rw [moved (by omega), UInt64.ofNat_add, UInt64.add_assoc]
    rfl

variable {i : I}

/-- Where nothing disturbed the request, the account is at the epoch of its binding, moved by its own bumps. -/
theorem epoch_of_finds (run : Run (Interleave exec) x labels y) (keyed : x.1.identity.Keyed)
    (counted : request.wipes = true → Counted request (own i labels))
    (finds : (request.note (own i labels)).Finds request.wipes sub) (calm : disturbed i sub labels = false) :
    ∃ epoch, request.binding (own i labels) = some (sub, epoch) ∧
      (epoch.toNat + (own i labels).countP (bumps sub) < 2 ^ 64 →
        y.1.identity.epoch sub = some (epoch + .ofNat ((own i labels).countP (bumps sub)))) ∧
      (request.wipes = false → (own i labels).countP (bumps sub) = 0) := by
  have current {epoch : UInt64} (read : (sub, epoch) ∈ (request.note (own i labels)).read) :
      y.1.identity.epoch sub = some epoch := by
    rcases epoch_of_read run keyed rfl read with moved | still
    · exact absurd moved (of_decide_eq_false calm)
    · exact still.2
  obtain ⟨epoch, held, read⟩ := finds
  refine ⟨epoch, (binding_follow _).symm.trans held, ?_⟩
  cases bumped : (request.note (own i labels)).bumped with
  | none =>
    rw [bumped] at read
    rw [(quiet_of_unbumped bumped).2 sub]
    exact ⟨fun _ => by simpa using current read, fun _ => rfl⟩
  | some own' =>
    rw [bumped] at read
    obtain ⟨sub', epoch', held', some', answered⟩ := counted read.1 own' bumped
    obtain ⟨rfl, rfl⟩ := Prod.mk.inj (Option.some.inj (held'.symm.trans held))
    refine ⟨fun fits => ?_, fun single => absurd (single.symm.trans read.1) (by simp)⟩
    have same := answered fits
    rw [← same]
    refine current (read.2 fun zero => ?_)
    have value := toNat_add_ofNat fits
    rw [← same, zero] at value
    change 0 = _ at value
    omega

theorem learned_compares (run : Run (Interleave exec) x labels y) (keyed : x.1.identity.Keyed) (g : Note) (i : I) :
    Learned (compares wipes) g (own i labels) := by
  refine (learned_of_run (fun w : World => w.identity.Keyed) run keyed (fun o w c keyed => keyed_exec keyed rfl) ?_ g i).2
  intro o w c g keyed
  cases c with
  | getUser sub =>
    cases answer : (exec o w (.getUser sub)).1 with
    | error err => trivial
    | ok u => exact Store.getUser_subject keyed (getUser_exec (Prod.ext answer rfl))
  | _ => trivial

variable {requests : I → Request} {label : I × Event}

theorem allows_of_acts (keyed : x.1.identity.Keyed) (pool : x.2 = fun i => (requests i).program cfg)
    (run : Run (Interleave exec) x labels y) (step : Interleave exec y label z) (acts : (requests label.1).acts = true) :
    (compares (requests label.1).wipes).allows ((requests label.1).note (own label.1 labels)) label.2.1 := by
  have obeys : Yields (compares (requests label.1).wipes) (requests label.1).start (x.2 label.1) fun _ _ => True := by
    rw [pool]
    exact yields_program cfg acts
  exact allows_of_run run step obeys (learned_compares run keyed _ _)

theorem undisturbed_snoc (calm : undisturbed (labels ++ [label]).reverse = true) :
    undisturbed labels.reverse = true ∧
      ∀ m ap, label.2 = ⟨.apply m, .ok ap⟩ → disturbed label.1 (subjectOf m) labels = false := by
  rw [List.reverse_concat'] at calm
  unfold undisturbed at calm
  split at calm
  next same => cases same
  next same =>
    cases same
    rw [List.reverse_reverse, Bool.and_eq_true_iff, Bool.not_eq_true'] at calm
    refine ⟨calm.1, ?_⟩
    rintro m ap ⟨⟩
    exact calm.2
  next other same =>
    cases same
    exact ⟨calm, fun m ap same => (other label.1 m ap (Prod.ext rfl same)).elim⟩

theorem newEpoch_exec {o : Turn} {w w' : World} {ap : Applied} (keyed : w.identity.Keyed)
    (replied : exec o w (.apply m) = (.ok ap, w')) (bumping : (effectsOf m).bumpsEpoch = true)
    (current : w.identity.epoch (subjectOf m) = some epoch) : ap.newEpoch = epoch + 1 := by
  rcases apply_exec replied with ⟨-, err, impossible⟩ | ⟨ap', newID, same, -, applied⟩
  · cases impossible
  · cases same
    have loads : m.loads = true := by
      cases m with
      | createVerified | foreign => cases bumping
      | _ => rfl
    obtain ⟨a, a', applies⟩ := Store.apply_loaded keyed loads applied
    rw [Store.epoch, applies.found, Option.map_some, Option.some.injEq] at current
    rw [applies.epoch, applies.user, bumping, if_pos rfl, ← current]

/-- A mutation of an undisturbed run is applied at the epoch that its ceremony is bound at. -/
theorem epoch_of_bound (keyed : x.1.identity.Keyed) (pool : x.2 = fun i => (requests i).program cfg)
    (run : Run (Interleave exec) x labels y) {ap : Applied} (step : Interleave exec y (i, ⟨.apply m, .ok ap⟩) z)
    (counted : (requests i).wipes = true → Counted (requests i) (own i labels))
    (calm : disturbed i (subjectOf m) labels = false) (acts : (requests i).acts = true) :
    ∃ epoch, (requests i).binding (own i labels) = some (subjectOf m, epoch) ∧
      (epoch.toNat + (own i labels).countP (bumps (subjectOf m)) < 2 ^ 64 →
        y.1.identity.epoch (subjectOf m) = some (epoch + .ofNat ((own i labels).countP (bumps (subjectOf m))))) ∧
      ((requests i).wipes = false → (own i labels).countP (bumps (subjectOf m)) = 0) :=
  epoch_of_finds run keyed counted (allows_of_acts keyed pool run step acts) calm

theorem counted_of_run (keyed : x.1.identity.Keyed) (pool : x.2 = fun i => (requests i).program cfg)
    (run : Run (Interleave exec) x labels y) (calm : undisturbed labels.reverse = true) (i : I)
    (wipes : (requests i).wipes = true) : Counted (requests i) (own i labels) := by
  induction run with
  | nil => nofun
  | @snoc mid _ labels label before last ih =>
    obtain ⟨calm, undisturbed⟩ := undisturbed_snoc calm
    have counted := ih calm
    obtain ⟨j, event⟩ := label
    rw [own_append]
    by_cases mine : j = i
    · subst mine
      have acts : (requests j).acts = true := by
        cases same : requests j with
        | mutation => simp [same, Request.wipes] at wipes
        | _ => rfl
      rw [own_cons_self]
      refine counted.snoc wipes (allows_of_acts keyed pool before last acts) ?_
      rintro m ap rfl bumping
      obtain ⟨epoch, held, current, -⟩ :=
        epoch_of_bound keyed pool before last (fun _ => counted) (undisturbed m ap rfl) acts
      obtain ⟨o, -, -, replied, -⟩ := last
      exact ⟨epoch, (binding_follow _).trans held, fun fits =>
        newEpoch_exec (keyed_of_run before keyed) replied bumping (current fits)⟩
    · rw [own_cons_other mine]
      simpa [own] using counted

end

theorem bumps_of_resets {event : Event} (reset : resets sub event = true) :
    ∃ m ap, event = ⟨.apply m, .ok ap⟩ ∧ subjectOf m = sub ∧ bumps sub event = true := by
  unfold resets at reset
  split at reset
  · obtain rfl := of_decide_eq_true reset
    refine ⟨_, _, rfl, rfl, ?_⟩
    simp [bumps, effectsOf, subjectOf]
  · cases reset

/-- Once a link of an epoch has set the password, the account is past that epoch. -/
theorem resetsAt_of_run {requests : I → Request} (keyed : x.1.identity.Keyed)
    (pool : x.2 = fun i => (requests i).program cfg) (run : Run (Interleave exec) x labels y)
    (calm : undisturbed labels.reverse = true) (short : labels.length < 2 ^ 64) :
    resetsAt requests sub epoch labels.reverse = 0 ∨ resetsAt requests sub epoch labels.reverse = 1 ∧
      ∃ n, 0 < n ∧ n ≤ labels.length ∧ y.1.identity.epoch sub = some (epoch + .ofNat n) := by
  induction run with
  | nil => exact .inl rfl
  | @snoc mid _ labels label before last ih =>
    obtain ⟨calmBefore, undisturbed⟩ := undisturbed_snoc calm
    rw [List.length_append, List.length_singleton] at short ⊢
    obtain ⟨i, event⟩ := label
    have keyedThen := keyed_of_run before keyed
    have earlier := ih calmBefore (by omega)
    rw [List.reverse_concat', resetsAt, List.reverse_reverse]
    split
    next counts =>
      obtain ⟨isReset, held, reset⟩ := counts
      obtain ⟨m, ap, rfl, rfl, bumped⟩ := bumps_of_resets reset
      have acts : (requests i).acts = true ∧ (requests i).wipes = false := by
        cases same : requests i with
        | resetPassword => exact ⟨rfl, rfl⟩
        | _ => simp [same, Request.isReset] at isReset
      obtain ⟨epoch', held', current, single⟩ := epoch_of_bound keyed pool before last
        (counted_of_run keyed pool before calmBefore i) (undisturbed m ap rfl) acts.1
      obtain rfl := (Prod.mk.inj (Option.some.inj (held.symm.trans held'))).2
      rw [single acts.2] at current
      have now : mid.1.identity.epoch (subjectOf m) = some epoch := by simpa using current epoch.toNat_lt
      obtain ⟨o, -, -, replied, -⟩ := last
      have next := epoch_exec keyedThen replied now
      rw [bumped, if_pos rfl] at next
      rcases earlier with none' | ⟨-, n, some', few, past⟩
      · exact .inr ⟨by rw [none'], 1, Nat.one_pos, by omega, next⟩
      · -- Between one and 2^64 - 1 bumps do not lead back to the same epoch.
        have same := congrArg UInt64.toNat (Option.some.inj (now.symm.trans past))
        have small : n < UInt64.size := by
          change n < 2 ^ 64
          omega
        rw [UInt64.toNat_add, UInt64.toNat_ofNat_of_lt' small] at same
        have below := epoch.toNat_lt
        omega
    next =>
      rw [Nat.zero_add]
      rcases earlier with none' | ⟨one, n, some', few, past⟩
      · exact .inl none'
      · obtain ⟨o, -, -, replied, -⟩ := last
        have next := epoch_exec keyedThen replied past
        refine .inr ⟨one, n + if bumps sub event then 1 else 0, by omega, ?_, ?_⟩
        · split <;> omega
        · rw [next, UInt64.ofNat_add, UInt64.add_assoc]
          split <;> rfl

/-- For requests of the endpoints and other mutations in any order: where no epoch moved between the first read of a
request and its mutation, a mutation is applied to the account that its ceremony is bound to and at the epoch it is
bound at, further by as many as the proof of an email address has bumped it itself; and of the reset links bound at
one epoch at most one sets the password. -/
theorem applied_at_bound_epoch (cfg : Config) (requests : I → Request) (w : World) (keyed : w.identity.Keyed)
    (run : Run (Interleave exec) (w, fun i => (requests i).program cfg) labels y)
    (calm : undisturbed labels.reverse = true) :
    (∀ before i m ap after s s', labels = before ++ (i, ⟨.apply m, .ok ap⟩) :: after →
      Run (Interleave exec) (w, fun i => (requests i).program cfg) before s →
      Interleave exec s (i, ⟨.apply m, .ok ap⟩) s' → Run (Interleave exec) s' after y → (requests i).acts = true →
        ∃ epoch, (requests i).binding (own i before) = some (subjectOf m, epoch) ∧
          (epoch.toNat + (own i before).countP (bumps (subjectOf m)) < 2 ^ 64 → s.1.identity.epoch (subjectOf m) =
            some (epoch + .ofNat ((own i before).countP (bumps (subjectOf m))))) ∧
          ((requests i).wipes = false → (own i before).countP (bumps (subjectOf m)) = 0)) ∧
      (labels.length < 2 ^ 64 → ∀ sub epoch, resetsAt requests sub epoch labels.reverse ≤ 1) := by
  refine ⟨?_, fun short sub epoch => ?_⟩
  · rintro before i m ap after s s' rfl first step - acts
    have calmThen : undisturbed (before ++ [(i, (⟨.apply m, .ok ap⟩ : Event))]).reverse = true := by
      refine undisturbed_append after.reverse ?_
      simpa using calm
    obtain ⟨calmBefore, undisturbed⟩ := undisturbed_snoc calmThen
    exact epoch_of_bound keyed rfl first step (counted_of_run keyed rfl first calmBefore i) (undisturbed m ap rfl) acts
  · rcases resetsAt_of_run keyed rfl run calm short with none' | ⟨one, -⟩
    · exact none'.trans_le (Nat.zero_le 1)
    · exact one.le

namespace Sample

def email : Identifier := .sample

def subject : Subject := .sample

def config : Config := ⟨.never, fun _ _ => true, fun digest code => digest == code⟩

def day (n : Nat) : Time := n * (24 * Duration.hour)

def factors : Mfa.Config :=
  { subject := subject, secret := some, stale := fun _ => false, decodeSecret := some, hotp := fun key _ => key
    normalizeRecoveryCode := id, hashRecoveryCode := id }

def turn (now : Time) : Turn :=
  ⟨now, false, 20, some subject.user, some ⟨ascii "hash"⟩, none, factors, none, some [ascii "code"], true⟩

def identity : Identity.Store :=
  (Store.new.apply (day 30) 20 (some subject.user) (.createVerified .zero email ⟨ascii "old"⟩ false .zero)).1

theorem identity_keyed : identity.Keyed := Store.Logged.new.keyed.apply _ _ _ _

def pending (epoch : UInt64) : Pending :=
  { Pending.zero with version := codecVersion, subject := subject, epochAtBind := epoch, expiresAt := day 31 + pendingTTL }

def resetRow (n : UInt8) : Ceremony.Row :=
  { tenant := .zero, kind := .passwordReset, handleHash := .handle [n], scopeHash := .user subject.user
    pending := pending 0, payload := ⟨.passwordReset, .empty⟩, attempts := 0
    expiresAt := day 31 + Duration.hour, createdAt := day 31 }

def ceremonies : Ceremony.Store :=
  (Ceremony.Store.new.insert (resetRow 0).key ⟨resetRow 0, 1⟩).insert (resetRow 1).key ⟨resetRow 1, 2⟩

def world : World :=
  ⟨identity, ceremonies, .new, .new, [], day 31, by decide⟩

/-- Two links of the same epoch. -/
def resetRequests (second : Bool) : Request := .resetPassword .zero (some (.handle [if second then 1 else 0]))

def resetStart : World × (Bool → Program Unit) := (world, fun i => (resetRequests i).program config)

def resetTurns (second : Bool) (count : Nat) : List (Bool × Turn) := List.replicate count (second, turn (day 31))

def resetAfter (order : List (Bool × Turn)) : List (Bool × Event) × World × (Bool → Program Unit) :=
  schedule exec resetStart order

end Sample

open Sample

theorem applied_at_bound_epoch_in_turn : ∃ labels y,
    Run (Interleave exec) resetStart labels y ∧ undisturbed labels.reverse = true ∧ labels.length < 2 ^ 64 ∧
      resetsAt resetRequests subject 0 labels.reverse = 1 ∧
      ∀ sub epoch, resetsAt resetRequests sub epoch labels.reverse ≤ 1 := by
  have run := run_schedule exec resetStart (resetTurns false 5 ++ resetTurns true 5)
  refine ⟨_, _, run, by decide +kernel, by decide +kernel, by decide +kernel, ?_⟩
  exact (applied_at_bound_epoch config resetRequests world identity_keyed run
    (by decide +kernel)).2 (by decide +kernel)

/-- Both links are opened and the account is read for both before either password is set: the second reset is
applied at another epoch than its own. -/
theorem two_resets_at_one_epoch : ∃ labels y label z,
    Run (Interleave exec) resetStart labels y ∧ Interleave exec y label z ∧
      resetsAt resetRequests subject 0 (labels ++ [label]).reverse = 2 ∧
      label.1 = true ∧ resets subject label.2 = true ∧
      (resetRequests true).binding (own true labels) = some (subject, 0) ∧
      y.1.identity.epoch subject = some 1 := by
  have ends : (Prog.turn exec (resetAfter (resetTurns false 4 ++ resetTurns true 4 ++
      resetTurns false 1)).2 true (turn (day 31))).any
        (fun taken => taken.1.1 = true ∧ resets subject taken.1.2 ∧ resetsAt resetRequests subject 0
          (taken.1 :: (resetAfter (resetTurns false 4 ++ resetTurns true 4 ++
            resetTurns false 1)).1.reverse) = 2) = true := by decide +kernel
  obtain ⟨⟨label, z⟩, taken, reset⟩ := (Option.any_eq_true _ _).mp ends
  obtain ⟨own', reset, twice⟩ := of_decide_eq_true reset
  refine ⟨_, _, label, z, run_schedule _ _ _, interleave_of_turn taken, ?_, own', reset, by decide +kernel,
    by decide +kernel⟩
  rw [List.reverse_concat']
  exact twice

end Egauth.Service
