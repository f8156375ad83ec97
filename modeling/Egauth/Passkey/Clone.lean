import Egauth.Passkey.Assertion

/-! The counter of a credential, and its suspension, over every interleaving.

What matters of a stored credential is its counter and whether it is
suspended; no call but `UpdateSignCount` and `Suspend` changes these. A
verification is minted from the credential that was read first, so a
suspension stops exactly the assertions that read the credential after it.
-/

set_option autoImplicit false

namespace Egauth.Passkey
open Egauth.Core Prog

/-- `AcceptsSignCount` against a stored counter. -/
def acceptsAfter (prev next : UInt32) : Bool := decide (next > prev ∨ prev = 0 ∧ next = 0)

theorem acceptsSignCount_eq (c : Credential) (next : UInt32) :
    c.acceptsSignCount next = acceptsAfter c.signCount next := rfl

theorem acceptsAfter_trans {a b c : UInt32} (first : acceptsAfter a b = true) (second : acceptsAfter b c = true) :
    acceptsAfter a c = true := by
  simp only [acceptsAfter, decide_eq_true_eq] at *
  rcases first with up | ⟨zero, zero'⟩
  · rcases second with up' | ⟨zero', zero''⟩
    · exact .inl (UInt32.lt_trans up up')
    · subst zero'
      exact absurd up (UInt32.not_lt.mpr (UInt32.zero_le ..))
  · subst zero zero'
    exact second

theorem le_of_acceptsAfter {prev next : UInt32} (accepted : acceptsAfter prev next = true) : prev ≤ next := by
  simp only [acceptsAfter, decide_eq_true_eq] at accepted
  rcases accepted with up | ⟨zero, zero'⟩
  · exact UInt32.le_of_lt up
  · rw [zero, zero']
    exact UInt32.le_refl 0

def accepts (k : Key) : Event → Option UInt32
  | ⟨.updateSignCount sub id next, .ok true⟩ => if (⟨sub.tenant, id⟩ : Key) = k then some next else none
  | _ => none

def suspends (k : Key) : Event → Bool
  | ⟨.suspend sub id _, .ok _⟩ => (⟨sub.tenant, id⟩ : Key) = k
  | _ => false

def reads (k : Key) : Event → Bool
  | ⟨.get t id, _⟩ => (⟨t, id⟩ : Key) = k
  | _ => false

def readsActive (k : Key) : Event → Bool
  | ⟨.get t id, .ok c⟩ => (⟨t, id⟩ : Key) = k && c.active
  | _ => false

theorem accepts_of_suspends {k : Key} {event : Event} (suspended : suspends k event = true) : accepts k event = none := by
  unfold suspends at suspended
  split at suspended
  · rfl
  · cases suspended

theorem reads_of_readsActive {k : Key} {event : Event} (read : readsActive k event = true) : reads k event = true := by
  unfold readsActive at read
  split at read
  · exact (Bool.and_eq_true_iff.mp read).1
  · cases read

theorem reads_of_suspends {k : Key} {event : Event} (suspended : suspends k event = true) : reads k event = false := by
  unfold suspends at suspended
  split at suspended
  · rfl
  · cases suspended

structure View where
  signCount : UInt32
  suspended : Bool

def View.of (c : Credential) : View := ⟨c.signCount, !c.active⟩

def viewed (k : Key) (s : Store) : Option View := (s.creds.lookup k).map View.of

inductive Moves (k : Key) (v : Option View) (event : Event) : Option View → Prop where
  | quiet : accepts k event = none → suspends k event = false → Moves k v event v
  | accepted {w : View} {next : UInt32} : v = some w → accepts k event = some next →
      acceptsAfter w.signCount next = true → Moves k v event (some { w with signCount := next })
  | suspended {w : View} : v = some w → suspends k event = true → Moves k v event (some { w with suspended := true })

section
variable {k : Key} {s : Store}

theorem viewed_amend (sub : Subject) (id : Bytes) (c : Credential) :
    viewed k (s.amend sub id c) = if k = ⟨sub.tenant, id⟩ then some (.of c) else viewed k s := by
  unfold viewed Store.amend
  rw [Map.lookup_insert_eq]
  split <;> rfl

theorem lookup_of_owned {sub : Subject} {id : Bytes} {c : Credential} (owned : s.owned sub id = some c) :
    s.creds.lookup ⟨sub.tenant, id⟩ = some c := by
  unfold Store.owned at owned
  split at owned
  · cases owned
  next c' found =>
    split at owned
    · cases owned
    · cases owned
      exact found

theorem viewed_update (c : Credential) : viewed k (s.update c).1 = viewed k s := by
  unfold Store.update
  split
  · rfl
  split
  · rfl
  next cur owned =>
    dsimp only
    rw [viewed_amend]
    split
    next same =>
      rw [viewed, same, lookup_of_owned owned]
      rfl
    next => rfl

theorem moves_updateSignCount (sub : Subject) (id : Bytes) (next : UInt32) :
    Moves k (viewed k s) ⟨.updateSignCount sub id next, (s.updateSignCount sub id next).2⟩
      (viewed k (s.updateSignCount sub id next).1) := by
  unfold Store.updateSignCount
  split
  · exact .quiet rfl rfl
  next cur owned =>
    split
    · exact .quiet rfl rfl
    next accepted =>
      dsimp only
      rw [viewed_amend]
      split
      next same =>
        have found := lookup_of_owned owned
        rw [viewed, same, found]
        have after : acceptsAfter cur.signCount next = true := by simpa [acceptsSignCount_eq] using accepted
        exact .accepted (w := .of cur) rfl (by simp [accepts]) after
      next other => exact .quiet (by simp [accepts, Ne.symm other]) rfl

theorem moves_suspend (sub : Subject) (id : Bytes) (at' : Time) :
    Moves k (viewed k s) ⟨.suspend sub id at', (s.suspend sub id at').2⟩ (viewed k (s.suspend sub id at').1) := by
  unfold Store.suspend
  split
  · exact .quiet rfl rfl
  next cur owned =>
    have found := lookup_of_owned owned
    split
    next active =>
      dsimp only
      rw [viewed_amend]
      split
      next same =>
        rw [viewed, same, found]
        exact .suspended (w := .of cur) rfl (by simp [suspends])
      next other => exact .quiet rfl (by simp [suspends, Ne.symm other])
    next already =>
      by_cases same : k = ⟨sub.tenant, id⟩
      · rw [viewed, same, found]
        have view : View.of cur = { View.of cur with suspended := true } := by
          simpa [View.of, Credential.active] using Option.isSome_iff_ne_none.mpr already
        rw [Option.map_some]
        nth_rewrite 2 [view]
        exact .suspended rfl (by simp [suspends])
      · exact .quiet rfl (by simp [suspends, Ne.symm same])

/-- The store refines the machine on views. -/
theorem moves_exec (k : Key) (o : Turn) (s : Store) (c : Call) :
    Moves k (viewed k s) ⟨c, (exec o s c).1⟩ (viewed k (exec o s c).2) := by
  obtain ⟨now, fault, valid, first, account⟩ := o
  cases fault with
  | true => cases c <;> exact .quiet rfl rfl
  | false =>
    cases c with
    | updateSignCount sub id next => exact moves_updateSignCount sub id next
    | suspend sub id at' => exact moves_suspend sub id at'
    | update c => exact (viewed_update c).symm ▸ .quiet rfl rfl
    | _ => exact .quiet rfl rfl

/-- The counters that were accepted, the first one included, are accepted one after the other; the stored one is the
last of them. -/
structure Counted (counters : List UInt32) (v : Option View) : Prop where
  ordered : counters.Pairwise fun prev next => acceptsAfter prev next = true
  stored : ∃ w, v = some w ∧ ∀ n ∈ counters, n = w.signCount ∨ acceptsAfter n w.signCount = true

theorem Counted.moves {counters : List UInt32} {v v' : Option View} {event : Event} (counted : Counted counters v)
    (moves : Moves k v event v') : Counted (counters ++ (accepts k event).toList) v' := by
  obtain ⟨ordered, w, found, last⟩ := counted
  cases moves with
  | quiet none =>
    rw [none, Option.toList_none, List.append_nil]
    exact ⟨ordered, w, found, last⟩
  | accepted same taken after =>
    cases found.symm.trans same
    rw [taken, Option.toList_some]
    have older : ∀ n ∈ counters, acceptsAfter n _ = true := fun n member => by
      rcases last n member with same | before
      · exact same ▸ after
      · exact acceptsAfter_trans before after
    refine ⟨List.pairwise_append.mpr ⟨ordered, List.pairwise_singleton .., ?_⟩, _, rfl, fun n member => ?_⟩
    · intro n member next single
      cases List.mem_singleton.mp single
      exact older n member
    · rcases List.mem_append.mp member with before | now
      · exact .inr (older n before)
      · exact .inl (List.mem_singleton.mp now)
  | suspended same suspended =>
    cases found.symm.trans same
    rw [accepts_of_suspends suspended, Option.toList_none, List.append_nil]
    exact ⟨ordered, _, rfl, last⟩

end

def acceptedCounters {I : Type} (k : Key) (labels : List (I × Event)) : List UInt32 :=
  labels.filterMap fun label => accepts k label.2

section
variable {I : Type} [DecidableEq I] {k : Key} {x y : Store × (I → Program (Option Verified))}
  {labels : List (I × Event)}

theorem moves_interleave {label : I × Event} (step : Interleave exec x label y) :
    Moves k (viewed k x.1) label.2 (viewed k y.1) := by
  obtain ⟨o, -, -, replied, -⟩ := step
  have moves := moves_exec k o x.1 label.2.1
  rwa [replied] at moves

theorem counted_of_run {first : View} (found : viewed k x.1 = some first) (run : Run (Interleave exec) x labels y) :
    Counted (first.signCount :: acceptedCounters k labels) (viewed k y.1) := by
  induction run with
  | nil => exact ⟨List.pairwise_singleton .., first, found, by simp [acceptedCounters]⟩
  | snoc before last ih =>
    rename_i middle after earlier label
    have next := ih.moves (moves_interleave last)
    have counters : acceptedCounters k (earlier ++ [label]) =
        acceptedCounters k earlier ++ (accepts k label.2).toList := by
      unfold acceptedCounters
      rw [List.filterMap_append]
      cases taken : accepts k label.2 <;> simp [taken]
    rwa [counters, ← List.cons_append]

omit [DecidableEq I] in
theorem readsActive_exec {s : Store} {w : View} (found : viewed k s = some w) (suspended : w.suspended = true) (o : Turn)
    (c : Call) : readsActive k ⟨c, (exec o s c).1⟩ = false := by
  cases c with
  | get t id =>
    unfold exec performed Store.get
    dsimp only
    split
    · rfl
    split
    · rfl
    next c here =>
      by_cases same : (⟨t, id⟩ : Key) = k
      · subst same
        rw [viewed, here] at found
        cases found
        simpa [readsActive, View.of, Credential.active, Credential.clone] using suspended
      · simp [readsActive, same]
  | _ => rfl

omit [DecidableEq I] in
theorem Moves.suspended_kept {v v' : Option View} {event : Event} (moves : Moves k v event v')
    (before : ∃ w, v = some w ∧ w.suspended = true) : ∃ w, v' = some w ∧ w.suspended = true := by
  obtain ⟨w, found, suspended⟩ := before
  cases moves with
  | quiet => exact ⟨w, found, suspended⟩
  | accepted same =>
    cases found.symm.trans same
    exact ⟨_, rfl, suspended⟩
  | suspended => exact ⟨_, rfl, rfl⟩

omit [DecidableEq I] in
theorem Moves.suspended_of_suspends {v v' : Option View} {event : Event} (moves : Moves k v event v')
    (suspended : suspends k event = true) : ∃ w, v' = some w ∧ w.suspended = true := by
  cases moves with
  | quiet _ not => cases suspended.symm.trans not
  | accepted _ taken => cases taken.symm.trans (accepts_of_suspends suspended)
  | suspended => exact ⟨_, rfl, rfl⟩

theorem suspended_of_run (start : ∃ w, viewed k x.1 = some w ∧ w.suspended = true)
    (run : Run (Interleave exec) x labels y) :
    (∃ w, viewed k y.1 = some w ∧ w.suspended = true) ∧ ∀ label ∈ labels, readsActive k label.2 = false := by
  induction run with
  | nil => exact ⟨start, by simp⟩
  | snoc before last ih =>
    rename_i middle after earlier label
    obtain ⟨⟨w, found, suspended⟩, inactive⟩ := ih
    refine ⟨(moves_interleave last).suspended_kept ⟨w, found, suspended⟩, fun other member => ?_⟩
    rcases List.mem_append.mp member with past | now
    · exact inactive other past
    · cases List.mem_singleton.mp now
      obtain ⟨o, -, -, replied, -⟩ := last
      have read := readsActive_exec found suspended o label.2.1
      rwa [replied] at read

end

def Keyed (s : Store) : Prop := ∀ k c, s.creds.lookup k = some c → c.id = k.id ∧ c.subject.tenant = k.tenant

/-- The note of a request says which credentials it has read as active ones. -/
def seen : Discipline Call Reply (Key → Bool) where
  track g c r :=
    match c, r with
    | .get t id, .ok c => if c.active then Function.update g ⟨t, id⟩ true else g
    | _, _ => g
  learns _ c r :=
    match c, r with
    | .get t id, .ok c => c.id = id ∧ c.subject.tenant = t
    | _, _ => True
  allows _ _ := True

section
variable {g : Key → Bool}

theorem seen_kept {k : Key} (held : g k = true) (event : Event) : seen.track g event.1 event.2 k = true := by
  obtain ⟨c, r⟩ := event
  cases c with
  | get t id =>
    cases r with
    | error err => exact held
    | ok c =>
      unfold seen
      dsimp only
      split
      · by_cases same : k = ⟨t, id⟩
        · simp [same]
        · rw [Function.update_of_ne same]
          exact held
      · exact held
  | _ => exact held

/-- Whatever else a program does, what was seen stays so. -/
theorem yields_seen {A : Type} {k : Key} (held : g k = true) (p : Program A) : Yields seen g p fun g' _ => g' k = true := by
  induction p generalizing g with
  | ret a => exact yields_ret.mpr held
  | fail err => exact yields_fail
  | call c next ih => exact ⟨trivial, fun r _ => ih r (seen_kept held ⟨c, r⟩)⟩

theorem yields_activeCredential (t : TenantID) (rawID : Bytes) :
    Yields seen g (activeCredential t rawID) fun g' cred => g' ⟨cred.subject.tenant, cred.id⟩ = true := by
  unfold activeCredential
  split
  · exact yields_fail
  refine yields_perform.mpr ⟨trivial, fun reply learned => yields_ofExcept fun cred replied => ?_⟩
  subst replied
  obtain ⟨sameID, sameTenant⟩ : cred.id = rawID ∧ cred.subject.tenant = t := learned
  split
  · exact yields_fail
  next usable =>
    refine yields_ret.mpr ?_
    have active : cred.active = true := by
      by_contra inactive
      exact usable (.inl (by simpa using inactive))
    rw [sameID, sameTenant]
    simp [seen, active]

theorem newVerified_names {spec : VerifiedSpec} {v : Verified} (ok : newVerified spec = .ok v) :
    v.subject = spec.subject ∧ v.credentialID = spec.credentialID := by
  unfold newVerified at ok
  split at ok
  · cases ok
  split at ok
  · cases ok
  · cases ok
    exact ⟨rfl, rfl⟩

theorem mint_ok {stepUp : Bool} {cred : PasskeyCredential} {a : Assertion} {now : Time} {v : Verified}
    (ok : mint stepUp cred a now = .ok v) : v.subject = cred.owner ∧ v.credentialID = cred.id := by
  unfold mint at ok
  split at ok
  · cases ok
  dsimp only at ok
  generalize built : newVerified _ = result at ok
  cases result with
  | error err => cases ok
  | ok v' =>
    cases ok
    exact newVerified_names built

theorem yields_minted {cred : Credential} (held : g ⟨cred.subject.tenant, cred.id⟩ = true) (stepUp : Bool)
    (a : Assertion) :
    Yields seen g (minted stepUp cred a) fun g' v => g' ⟨v.subject.tenant, v.credentialID⟩ = true := by
  refine yields_perform.mpr ⟨trivial, fun now _ => yields_reply fun v ok => ?_⟩
  obtain ⟨owner, id⟩ := mint_ok ok
  rw [owner, id]
  exact held

theorem yields_verifyLogin (t : TenantID) (e : Entry) (a : Assertion) :
    Yields seen g (verifyLogin t e a) fun g' v => g' ⟨v.subject.tenant, v.credentialID⟩ = true := by
  refine Yields.bind (yields_activeCredential t a.rawID) fun g cred held => ?_
  refine yields_perform.mpr ⟨trivial, fun valid _ => ?_⟩
  split
  · exact yields_fail
  refine yields_perform.mpr ⟨trivial, fun _ _ => yields_ofExcept fun first _ => ?_⟩
  split
  · exact yields_fail
  refine Yields.bind (yields_seen held (recordUse cred a)) fun g _ held => ?_
  refine yields_perform.mpr ⟨trivial, fun _ _ => yields_ofExcept fun st _ => ?_⟩
  split
  · exact yields_fail
  · exact yields_minted held false a

theorem yields_verifySubjectAssertion (sub : Subject) (stepUp : Bool) (a : Assertion) :
    Yields seen g (verifySubjectAssertion sub stepUp a) fun g' v => g' ⟨v.subject.tenant, v.credentialID⟩ = true := by
  refine Yields.bind (yields_activeCredential sub.tenant a.rawID) fun g cred held => ?_
  split
  · exact yields_fail
  refine yields_perform.mpr ⟨trivial, fun valid _ => ?_⟩
  split
  · exact yields_fail
  refine Yields.bind (yields_seen held (recordUse cred a)) fun g _ held => ?_
  exact yields_minted held stepUp a

theorem yields_rename (sub : Subject) (id nickname : Bytes) :
    Yields seen g (renameCredential sub id nickname) fun _ _ => True := by
  refine yields_perform.mpr ⟨trivial, fun _ _ => yields_ofExcept fun c _ => ?_⟩
  split
  · exact yields_fail
  · exact yields_perform.mpr ⟨trivial, fun _ _ => yields_reply fun _ _ => trivial⟩

/-- A request verifies only a credential that it has read as an active one. -/
theorem yields_program (request : Request) : Yields seen g request.program fun g' result =>
    ∀ v, result = some v → g' ⟨v.subject.tenant, v.credentialID⟩ = true := by
  have answered (g' : Key → Bool) (v : Verified) (held : g' ⟨v.subject.tenant, v.credentialID⟩ = true) :
      Yields seen g' (pure (some v) : Program (Option Verified)) fun g' result =>
        ∀ v, result = some v → g' ⟨v.subject.tenant, v.credentialID⟩ = true :=
    yields_ret.mpr fun _ same => Option.some.inj same ▸ held
  cases request with
  | login t e a => exact Yields.bind (yields_verifyLogin t e a) answered
  | stepUp sub a => exact Yields.bind (yields_verifySubjectAssertion sub true a) answered
  | reauth sub a => exact Yields.bind (yields_verifySubjectAssertion sub false a) answered
  | rename sub id nickname =>
    exact Yields.bind (yields_rename sub id nickname) fun _ _ _ => yields_ret.mpr nofun

theorem readsActive_of_follow {k : Key} {events : List Event} (now : follow seen g events k = true)
    (before : g k = false) : ∃ event ∈ events, readsActive k event = true := by
  induction events generalizing g with
  | nil => cases before.symm.trans now
  | cons event events ih =>
    cases here : readsActive k event with
    | true => exact ⟨event, by simp, here⟩
    | false =>
      have still : seen.track g event.1 event.2 k = false := by
        obtain ⟨c, r⟩ := event
        cases c with
        | get t id =>
          cases r with
          | error err => exact before
          | ok c =>
            unfold seen
            dsimp only
            split
            next active =>
              have other : k ≠ ⟨t, id⟩ := by
                rintro rfl
                simp [readsActive, active] at here
              rw [Function.update_of_ne other]
              exact before
            next => exact before
        | _ => exact before
      obtain ⟨found, member, read⟩ := ih now still
      exact ⟨found, List.mem_cons_of_mem _ member, read⟩

end

section
variable {s : Store}

theorem Keyed.amend (keyed : Keyed s) {sub : Subject} {id : Bytes} {cur c : Credential}
    (owned : s.owned sub id = some cur) (sameID : c.id = cur.id) (sameSubject : c.subject = cur.subject) :
    Keyed (s.amend sub id c) := by
  intro k other found
  unfold Store.amend at found
  rw [Map.lookup_insert_eq] at found
  split at found
  next same =>
    cases found
    rw [same, sameID, sameSubject]
    exact keyed _ _ (lookup_of_owned owned)
  next => exact keyed k other found

theorem Keyed.exec (keyed : Keyed s) (o : Turn) (c : Call) : Keyed (exec o s c).2 := by
  obtain ⟨now, fault, valid, first, account⟩ := o
  cases fault with
  | true => cases c <;> exact keyed
  | false =>
    cases c with
    | updateSignCount sub id next =>
      change Keyed (s.updateSignCount sub id next).1
      unfold Store.updateSignCount
      split
      · exact keyed
      next cur owned =>
        split
        · exact keyed
        · exact keyed.amend owned rfl rfl
    | suspend sub id at' =>
      change Keyed (s.suspend sub id at').1
      unfold Store.suspend
      split
      · exact keyed
      next cur owned =>
        split
        · exact keyed.amend owned rfl rfl
        · exact keyed
    | update c =>
      change Keyed (s.update c).1
      unfold Store.update
      split
      · exact keyed
      split
      · exact keyed
      next cur owned => exact keyed.amend owned rfl rfl
    | _ => exact keyed

theorem Keyed.learns (keyed : Keyed s) (o : Turn) (c : Call) (g : Key → Bool) :
    seen.learns g c (Passkey.exec o s c).1 := by
  cases c with
  | get t id =>
    unfold Passkey.exec performed Store.get
    dsimp only
    split
    · trivial
    split
    · trivial
    next c found => exact keyed ⟨t, id⟩ c found
  | _ => trivial

end

section
variable {I : Type} [DecidableEq I] {requests : I → Request} {start : Store} {labels : List (I × Event)}
  {y : Store × (I → Program (Option Verified))}

theorem readsActive_of_verified (keyed : Keyed start)
    (run : Run (Interleave exec) (start, fun i => (requests i).program) labels y) {i : I} {v : Verified}
    (verified : y.2 i = .ret (some v)) :
    ∃ event, (i, event) ∈ labels ∧ readsActive ⟨v.subject.tenant, v.credentialID⟩ event = true := by
  have learned := (learned_of_run Keyed run keyed (fun o _ c keyed => keyed.exec o c)
    (fun o _ c g keyed => keyed.learns o c g) (fun _ => false) i).2
  have ends := (yields_program (requests i)).follow (path_of_run run i) learned
  rw [verified] at ends
  obtain ⟨event, member, read⟩ := readsActive_of_follow (ends (some v) rfl v rfl) rfl
  exact ⟨event, mem_own.mp member, read⟩

end

/-- The counters of accepted assertions are accepted one after the other, and none of them is above the stored one. An
assertion that reads the credential after it was suspended verifies nothing with it. -/
theorem suspended_verifies_nothing {I : Type} [DecidableEq I] (requests : I → Request) {start : Store}
    (keyed : Keyed start) {k : Key} {first : Credential} (found : start.creds.lookup k = some first)
    {labels : List (I × Event)} {y : Store × (I → Program (Option Verified))}
    (run : Run (Interleave exec) (start, fun i => (requests i).program) labels y) :
    (first.signCount :: acceptedCounters k labels).Pairwise (fun prev next => acceptsAfter prev next = true) ∧
    (∃ c, y.1.creds.lookup k = some c ∧ ∀ n ∈ acceptedCounters k labels, n ≤ c.signCount) ∧
    ∀ earlier label later i v, labels = earlier ++ label :: later → suspends k label.2 = true →
      (∀ other ∈ earlier, other.1 = i → reads k other.2 = false) → y.2 i = .ret (some v) →
      (⟨v.subject.tenant, v.credentialID⟩ : Key) ≠ k := by
  have view : viewed k start = some (.of first) := by rw [viewed, found]; rfl
  obtain ⟨ordered, w, here, last⟩ := counted_of_run view run
  refine ⟨ordered, ?_, fun earlier label later i v split suspended unread verified same => ?_⟩
  · obtain ⟨c, stored, rfl⟩ := Option.map_eq_some_iff.mp here
    refine ⟨c, stored, fun n member => ?_⟩
    rcases last n (List.mem_cons_of_mem _ member) with same | after
    · exact UInt32.le_of_eq same
    · exact le_of_acceptsAfter after
  · obtain ⟨event, member, read⟩ := readsActive_of_verified keyed run verified
    rw [same] at read
    obtain ⟨t, t', -, step, rest⟩ := run.split split
    obtain ⟨-, inactive⟩ := suspended_of_run ((moves_interleave step).suspended_of_suspends suspended) rest
    rw [split] at member
    rcases List.mem_append.mp member with before | after
    · cases (unread _ before rfl).symm.trans (reads_of_readsActive read)
    rcases List.mem_cons.mp after with now | later'
    · subst now
      cases (reads_of_suspends suspended).symm.trans (reads_of_readsActive read)
    · cases (inactive _ later').symm.trans read

namespace Sample

def key : Key := ⟨.zero, [7]⟩

def credential : Credential :=
  { subject := .sample, id := [7], publicKey := [1], signCount := 5, data := [], createdAt := 0, nickname := []
    lastUsedAt := none, transports := [], backupEligible := false, backupState := false
    discoverable := some .confirmed, suspendedAt := none }

def start : Store := ⟨AList.insert key credential ∅⟩

theorem start_keyed : Keyed start := by
  intro k c found
  unfold start at found
  rw [Map.lookup_insert_eq] at found
  split at found
  next same =>
    cases found
    subst same
    exact ⟨rfl, rfl⟩
  next => cases found

def assertion (counter : UInt32) : Assertion := ⟨[7], Subject.sample.user.bytes, counter, true, true, false⟩

/-- A step-up with a counter that is accepted, one with a counter from before, and a login. -/
def asserting : Nat → Request
  | 0 => .stepUp .sample (assertion 9)
  | 1 => .stepUp .sample (assertion 3)
  | _ => .login .zero .discoverable (assertion 10)

def turn : Turn := ⟨Duration.second, false, true, true, ⟨true, false, false, false, true, 0⟩⟩

def asserted (turns : List Nat) : List (Nat × Event) × Store × (Nat → Program (Option Verified)) :=
  schedule exec (start, fun i => (asserting i).program) (turns.map fun i => (i, turn))

theorem run_asserted (turns : List Nat) :
    Run (Interleave exec) (start, fun i => (asserting i).program) (asserted turns).1 (asserted turns).2 :=
  run_schedule exec (start, fun i => (asserting i).program) (turns.map fun i => (i, turn))

def inTurn : List Nat := List.replicate 7 0 ++ List.replicate 5 1 ++ [2]

/-- The first has read the credential when the second suspends it. -/
def crossing : List Nat := List.replicate 2 0 ++ List.replicate 5 1 ++ List.replicate 5 0

end Sample

open Sample

/-- A step-up is accepted, the next one is a clone, and a login comes after the suspension. -/
theorem suspended_verifies_nothing_in_turn : ∃ labels y earlier label later,
    Run (Interleave exec) (start, fun i => (asserting i).program) labels y ∧
      (credential.signCount :: acceptedCounters key labels) = [5, 9] ∧
      labels = earlier ++ label :: later ∧ suspends key label.2 = true ∧
      (∀ other ∈ earlier, other.1 = 2 → reads key other.2 = false) ∧
      (∃ other ∈ later, other.1 = 2 ∧ reads key other.2 = true) ∧
      ([5, 9] : List UInt32).Pairwise (fun prev next => acceptsAfter prev next = true) ∧
      (∃ c, y.1.creds.lookup key = some c ∧ 9 ≤ c.signCount) ∧
      ∀ v, y.2 2 = .ret (some v) → (⟨v.subject.tenant, v.credentialID⟩ : Key) ≠ key := by
  have run := run_asserted inTurn
  have found : start.creds.lookup key = some credential := AList.lookup_insert _
  have counters : acceptedCounters key (asserted inTurn).1 = [9] := by decide +kernel
  obtain ⟨ordered, ⟨c, stored, above⟩, refused⟩ :=
    suspended_verifies_nothing asserting start_keyed found run
  obtain ⟨label, split, suspended⟩ := split_at (asserted inTurn).1 11
    (fun label => suspends key label.2) (by decide +kernel)
  have unread : ∀ other ∈ (asserted inTurn).1.take 11, other.1 = 2 → reads key other.2 = false := by
    decide +kernel
  rw [counters] at ordered above
  exact ⟨_, _, _, label, _, run, by rw [counters]; rfl, split, suspended, unread, by decide +kernel, ordered,
    ⟨c, stored, above 9 (by simp)⟩, fun v => refused _ label _ 2 v split suspended unread⟩

/-- An assertion that read the credential before it was suspended counts after that, and is verified. -/
theorem suspended_passkey_verified : ∃ labels y earlier label later v,
    Run (Interleave exec) (start, fun i => (asserting i).program) labels y ∧
      labels = earlier ++ label :: later ∧ suspends key label.2 = true ∧
      (∃ other ∈ later, other.1 = 0 ∧ accepts key other.2 = some 9) ∧ y.2 0 = .ret (some v) ∧
      (⟨v.subject.tenant, v.credentialID⟩ : Key) = key := by
  obtain ⟨label, split, suspended⟩ := split_at (asserted crossing).1 6
    (fun label => suspends key label.2) (by decide +kernel)
  have ends : ((asserted crossing).2.2 0).returned.any (fun result =>
      result.any fun v => (⟨v.subject.tenant, v.credentialID⟩ : Key) = key) = true := by
    decide +kernel
  obtain ⟨result, returned, verified⟩ := (Option.any_eq_true _ _).mp ends
  obtain ⟨v, rfl, same⟩ := (Option.any_eq_true _ _).mp verified
  exact ⟨_, _, _, label, _, v, run_asserted crossing, split, suspended, by decide +kernel,
    eq_ret_of_returned returned, of_decide_eq_true same⟩

end Egauth.Passkey
