import Egauth.Identity.Effects

/-! Who an identifier or a provider account belongs to.

An identifier is looked for among the accounts that are not tombstoned, a link
among all of them. What a mutation sets was free in the store it began with,
so that one account holds it at most, whatever the order of the calls.
-/

set_option autoImplicit false

namespace Egauth.Identity
open Egauth.Core

def Account.Answers (a : Account) (id : Identifier) : Prop :=
  id.kind = some .email ∧ a.user.email = id ∨ id.kind = some .phone ∧ a.user.phone = id

namespace Store
variable {s t : Store} {evicted : Option Account} {f : FederatedIdentity} {before links : List FederatedLink}
  {a : Account} {tenant : TenantID} {now : Time} {k : Subject} {id : Identifier} {newID : Option UUID}
  {m : Mutation}

def Live (s : Store) (k : Subject) (a : Account) : Prop := s.accounts.lookup k = some a ∧ a.user.deletedAt = 0

variable {except : UUID}

theorem owner_test {e : Sigma fun _ : Subject => Account} :
    (decide (e.1.tenant = tenant) && decide (e.1.user ≠ except) && decide (e.2.user.deletedAt = (0 : Time)) &&
      match id.kind with
      | some .email => decide (e.2.user.email = id)
      | some .phone => decide (e.2.user.phone = id)
      | _ => false) = true ↔
    e.1.tenant = tenant ∧ e.1.user ≠ except ∧ e.2.user.deletedAt = 0 ∧ e.2.Answers id := by
  unfold Account.Answers
  cases id.kind with
  | none => simp
  | some kind => cases kind <;> simp [and_assoc]

theorem owner_eq_none (free : s.owner tenant id except = none)
    (live : s.Live k a) (here : k.tenant = tenant) (other : k.user ≠ except) : ¬ a.Answers id := by
  intro answers
  have all := List.find?_eq_none.mp (Option.map_eq_none_iff.mp free) ⟨k, a⟩ (Map.mem_entries.mpr live.1)
  exact all (owner_test.mpr ⟨here, other, live.2, answers⟩)

theorem owner_eq_some (found : s.owner tenant id except = some a) :
    ∃ k, s.Live k a ∧ k.tenant = tenant ∧ k.user ≠ except ∧ a.Answers id := by
  obtain ⟨⟨k, a⟩, first, rfl⟩ := Option.map_eq_some_iff.mp found
  have meets := List.find?_some first
  obtain ⟨here, other, kept, answers⟩ := owner_test.mp meets
  exact ⟨k, ⟨Map.mem_entries.mp (List.mem_of_find?_eq_some first), kept⟩, here, other, answers⟩

theorem linkOwner_eq_none {provider subject : Bytes} (free : s.linkOwner tenant provider subject = none)
    (found : s.accounts.lookup k = some a) (here : k.tenant = tenant) : ¬ a.Holds (provider, subject) := by
  intro holds
  have all := List.find?_eq_none.mp (Option.map_eq_none_iff.mp free) ⟨k, a⟩ (Map.mem_entries.mpr found)
  exact all (by simp only [here, decide_true, Bool.true_and]; exact links_test.mpr holds)

/-- Per tenant, one account at most that is not tombstoned has an email or a phone, and one at most of all of them
has a link. -/
structure Exclusive (s : Store) : Prop where
  emails : ∀ k k' a a', s.Live k a → s.Live k' a' → k.tenant = k'.tenant → a.user.email = a'.user.email → k = k'
  phones : ∀ k k' a a', s.Live k a → s.Live k' a' → k.tenant = k'.tenant → a.user.phone.isZero = false →
    a.user.phone = a'.user.phone → k = k'
  links : ∀ k k' a a' pair, s.accounts.lookup k = some a → s.accounts.lookup k' = some a' → k.tenant = k'.tenant →
    a.Holds pair → a'.Holds pair → k = k'
  once : ∀ k a, s.accounts.lookup k = some a → (a.links.map FederatedLink.pair).Nodup

/-- With what the calls rely on: accounts and links under their subjects, and ids that are not nil. -/
structure Distinct (s : Store) : Prop where
  keyed : s.Keyed
  picked : ∀ k a, s.accounts.lookup k = some a → k.user ≠ .nil
  named : ∀ k a, s.accounts.lookup k = some a → ∀ l ∈ a.links, l.subject = k
  exclusive : s.Exclusive

theorem Distinct.new : Distinct .new where
  keyed _ _ found := nomatch found
  picked _ _ found := nomatch found
  named _ _ found := nomatch found
  exclusive :=
    { emails := fun _ _ _ _ live => nomatch live.1
      phones := fun _ _ _ _ live => nomatch live.1
      links := fun _ _ _ _ _ found => nomatch found
      once := fun _ _ found => nomatch found }

/-- Accounts that are erased take nothing with them that others rely on. -/
theorem Distinct.sub (distinct : s.Distinct)
    (accounts : ∀ k a, t.accounts.lookup k = some a → s.accounts.lookup k = some a) : t.Distinct where
  keyed k a found := distinct.keyed k a (accounts k a found)
  picked k a found := distinct.picked k a (accounts k a found)
  named k a found := distinct.named k a (accounts k a found)
  exclusive :=
    { emails := fun k k' a a' live live' => distinct.exclusive.emails k k' a a' ⟨accounts k a live.1, live.2⟩
        ⟨accounts k' a' live'.1, live'.2⟩
      phones := fun k k' a a' live live' => distinct.exclusive.phones k k' a a' ⟨accounts k a live.1, live.2⟩
        ⟨accounts k' a' live'.1, live'.2⟩
      links := fun k k' a a' pair found found' => distinct.exclusive.links k k' a a' pair (accounts k a found)
        (accounts k' a' found')
      once := fun k a found => distinct.exclusive.once k a (accounts k a found) }

structure Fits (s : Store) (sub : Subject) (a : Account) : Prop where
  subject : a.user.subject = sub
  picked : sub.user ≠ .nil
  named : ∀ l ∈ a.links, l.subject = sub
  email : a.user.deletedAt = 0 → ∀ k b, s.Live k b → k ≠ sub → k.tenant = sub.tenant → b.user.email ≠ a.user.email
  phone : a.user.deletedAt = 0 → a.user.phone.isZero = false → ∀ k b, s.Live k b → k ≠ sub → k.tenant = sub.tenant →
    b.user.phone ≠ a.user.phone
  links : ∀ k b pair, s.accounts.lookup k = some b → k ≠ sub → k.tenant = sub.tenant → a.Holds pair → ¬ b.Holds pair
  once : (a.links.map FederatedLink.pair).Nodup

variable {sub : Subject}

theorem Distinct.write (distinct : s.Distinct) (fits : s.Fits sub a)
    (written : ∀ k, t.accounts.lookup k = if k = sub then some a else s.accounts.lookup k) : t.Distinct := by
  have cases {k : Subject} {b : Account} (found : t.accounts.lookup k = some b) :
      k = sub ∧ b = a ∨ k ≠ sub ∧ s.accounts.lookup k = some b := by
    rw [written] at found
    split at found
    next own => exact .inl ⟨own, (Option.some.inj found).symm⟩
    next other => exact .inr ⟨other, found⟩
  refine ⟨fun k b found => ?_, fun k b found => ?_, fun k b found => ?_, ⟨?_, ?_, ?_, fun k b found => ?_⟩⟩
  · rcases cases found with ⟨rfl, rfl⟩ | ⟨-, found⟩
    · exact fits.subject
    · exact distinct.keyed k b found
  · rcases cases found with ⟨rfl, rfl⟩ | ⟨-, found⟩
    · exact fits.picked
    · exact distinct.picked k b found
  · rcases cases found with ⟨rfl, rfl⟩ | ⟨-, found⟩
    · exact fits.named
    · exact distinct.named k b found
  · rintro k k' b b' ⟨found, kept⟩ ⟨found', kept'⟩ tenant same
    rcases cases found with ⟨rfl, rfl⟩ | ⟨other, found⟩ <;> rcases cases found' with ⟨rfl, rfl⟩ | ⟨other', found'⟩
    · rfl
    · exact absurd same.symm (fits.email kept k' b' ⟨found', kept'⟩ other' tenant.symm)
    · exact absurd same (fits.email kept' k b ⟨found, kept⟩ other tenant)
    · exact distinct.exclusive.emails k k' b b' ⟨found, kept⟩ ⟨found', kept'⟩ tenant same
  · rintro k k' b b' ⟨found, kept⟩ ⟨found', kept'⟩ tenant set same
    rcases cases found with ⟨rfl, rfl⟩ | ⟨other, found⟩ <;> rcases cases found' with ⟨rfl, rfl⟩ | ⟨other', found'⟩
    · rfl
    · exact absurd same.symm (fits.phone kept set k' b' ⟨found', kept'⟩ other' tenant.symm)
    · exact absurd same (fits.phone kept' (same ▸ set) k b ⟨found, kept⟩ other tenant)
    · exact distinct.exclusive.phones k k' b b' ⟨found, kept⟩ ⟨found', kept'⟩ tenant set same
  · intro k k' b b' pair found found' tenant holds holds'
    rcases cases found with ⟨rfl, rfl⟩ | ⟨other, found⟩ <;> rcases cases found' with ⟨rfl, rfl⟩ | ⟨other', found'⟩
    · rfl
    · exact absurd holds' (fits.links k' b' pair found' other' tenant.symm holds)
    · exact absurd holds (fits.links k b pair found other tenant holds')
    · exact distinct.exclusive.links k k' b b' pair found found' tenant holds holds'
  · rcases cases found with ⟨rfl, rfl⟩ | ⟨-, found⟩
    · exact fits.once
    · exact distinct.exclusive.once k b found

def Free (s : Store) (sub : Subject) (id : Identifier) : Prop :=
  ∀ k b, s.Live k b → k ≠ sub → k.tenant = sub.tenant → ¬ b.Answers id

theorem free_of_owner (free : s.owner sub.tenant id sub.user = none) : s.Free sub id := by
  intro k b live other here
  refine owner_eq_none free live here fun same => other ?_
  cases k
  cases sub
  simp_all

/-- A live account written anew: what it sets is free, and its links are among those it had. -/
theorem Distinct.fits (distinct : s.Distinct) {a' : Account} (found : s.accounts.lookup sub = some a)
    (kept : a.user.deletedAt = 0) (subject : a'.user.subject = a.user.subject)
    (email : a'.user.email = a.user.email ∨ a'.user.email.kind = some .email ∧ s.Free sub a'.user.email)
    (phone : a'.user.phone = a.user.phone ∨ a'.user.phone.isZero = true ∨
      a'.user.phone.kind = some .phone ∧ s.Free sub a'.user.phone)
    (links : a'.links.Sublist a.links) : s.Fits sub a' where
  subject := subject.trans (distinct.keyed sub a found)
  picked := distinct.picked sub a found
  named l member := distinct.named sub a found l (links.subset member)
  email _ k b live other here same := by
    rcases email with old | ⟨kind, free⟩
    · exact other (distinct.exclusive.emails k sub b a live ⟨found, kept⟩ here (same.trans old))
    · exact free k b live other here (.inl ⟨kind, same⟩)
  phone _ set k b live other here same := by
    rcases phone with old | zero | ⟨kind, free⟩
    · exact other (distinct.exclusive.phones k sub b a live ⟨found, kept⟩ here (same ▸ set) (same.trans old))
    · exact Bool.noConfusion (set.symm.trans zero)
    · exact free k b live other here (.inr ⟨kind, same⟩)
  links k b pair stored other here := by
    rintro ⟨l, member, own⟩ holds
    exact other (distinct.exclusive.links k sub b a pair stored found here holds ⟨l, links.subset member, own⟩)
  once := (distinct.exclusive.once sub a found).sublist (links.map _)

theorem email_of_check {email : Identifier} (valid : (Mutation.changeEmail sub email).check = none) :
    email.kind = some .email := by
  simp only [Mutation.check] at valid
  split at valid
  · cases valid
  · simpa using valid

theorem email_of_create {email : Identifier} {phc : PasswordHash} {mustChange : Bool}
    {federated : FederatedIdentity}
    (valid : (Mutation.createVerified tenant email phc mustChange federated).check = none) :
    email.kind = some .email := by
  by_contra wrong
  simp [Mutation.check, wrong] at valid

theorem phone_of_check {phone : Identifier} (valid : (Mutation.setPhone sub phone).check = none)
    (set : ¬ phone.isZero = true) : phone.kind = some .phone := by
  simp only [Mutation.check] at valid
  split at valid
  · cases valid
  · simpa [set] using valid

theorem rewritten_fits (distinct : s.Distinct) (valid : m.check = none)
    (found : s.accounts.lookup (subjectOf m) = some a) (kept : a.user.deletedAt = 0) (frees : s.Frees m) :
    s.Fits (subjectOf m) (rewritten now m a) := by
  have same (a' : Account) (subject : a'.user.subject = a.user.subject) (email : a'.user.email = a.user.email)
      (phone : a'.user.phone = a.user.phone) (links : a'.links.Sublist a.links) : s.Fits (subjectOf m) a' :=
    distinct.fits found kept subject (.inl email) (.inl phone) links
  cases m with
  | changeEmail sub email =>
    exact distinct.fits found kept rfl (.inr ⟨email_of_check valid, free_of_owner frees⟩) (.inl rfl) (List.Sublist.refl _)
  | setPhone sub phone =>
    refine distinct.fits found kept rfl (.inl rfl) (.inr ?_) (List.Sublist.refl _)
    rcases frees with zero | free
    · exact .inl zero
    by_cases zero : phone.isZero = true
    · exact .inl zero
    exact .inr ⟨phone_of_check valid zero, free_of_owner free⟩
  | markEmailVerified => exact same _ rfl rfl rfl (List.nil_sublist _)
  | unlinkFederated => exact same _ rfl rfl rfl (List.eraseP_sublist)
  | setDisabledState sub disable =>
    refine same _ ?_ ?_ ?_ ?_ <;> dsimp only [rewritten] <;> (split <;> [skip; split]) <;> rfl
  | _ => exact same _ rfl rfl rfl (List.Sublist.refl _)

def yielding (s : Store) (evicted : Option Account) : Store :=
  evicted.elim s fun b => { s with accounts := s.accounts.insert b.user.subject b }

theorem lookup_yielding (s : Store) (evicted : Option Account) (k : Subject) :
    (s.yielding evicted).accounts.lookup k =
      (evicted.filter fun b => b.user.subject = k).or (s.accounts.lookup k) := by
  cases evicted with
  | none => rfl
  | some b =>
    simp only [yielding, Option.elim_some, Map.lookup_insert_eq, Option.filter_some]
    by_cases own : b.user.subject = k
    · simp [own]
    · simp [own, Ne.symm own]

theorem Distinct.without (distinct : s.Distinct) {owner : Account}
    (stored : s.accounts.lookup k = some owner) (deleted : owner.user.deletedAt ≠ 0) (f : FederatedIdentity) :
    s.Fits k (owner.without f) := by
  have rest : (owner.without f).links.Sublist owner.links := List.filter_sublist
  exact
    { subject := distinct.keyed k owner stored
      picked := distinct.picked k owner stored
      named := fun l member => distinct.named k owner stored l (rest.subset member)
      email := fun kept => absurd kept deleted
      phone := fun kept => absurd kept deleted
      links := fun k' b pair stored' other here holds held => by
        obtain ⟨l, member, same⟩ := holds
        exact other (distinct.exclusive.links k' k b owner pair stored' stored here held ⟨l, rest.subset member, same⟩)
      once := (distinct.exclusive.once k owner stored).sublist (rest.map _) }

def Yielded (s : Store) (sub : Subject) (f : FederatedIdentity) (evicted : Option Account) : Prop :=
  ∀ b, evicted = some b → ∃ k owner, s.accounts.lookup k = some owner ∧ owner.user.deletedAt ≠ 0 ∧
    k.tenant = sub.tenant ∧ k ≠ sub ∧ owner.Holds f.pair ∧ b = owner.without f ∧ b.user.subject = k

theorem Links.yielded (keyed : s.Keyed) (joins : s.Links now sub f before links evicted) :
    s.Yielded sub f evicted := by
  cases joins with
  | added | rebound => exact fun _ absent => nomatch absent
  | @taken owner found other deleted =>
    rintro b ⟨⟩
    obtain ⟨k, stored, here, holds⟩ := linkOwner_eq_some found
    have own : owner.user.subject = k := keyed k owner stored
    exact ⟨k, owner, stored, deleted, here, fun same => other (own.trans same), holds, rfl, own⟩

theorem Distinct.yielding (distinct : s.Distinct)
    (yielded : s.Yielded sub f evicted) : (s.yielding evicted).Distinct := by
  cases evicted with
  | none => exact distinct
  | some b =>
    obtain ⟨k, owner, stored, deleted, -, -, -, rfl, own⟩ := yielded b rfl
    refine distinct.write (distinct.without stored deleted f) fun k' => ?_
    rw [← own]
    exact Map.lookup_insert_eq _ _ _ _

theorem Yielded.holds (yielded : s.Yielded sub f evicted) {b : Account}
    (found : (s.yielding evicted).accounts.lookup k = some b) :
    ∃ a, s.accounts.lookup k = some a ∧ b.links.Sublist a.links ∧ (b = a ∨ a.user.deletedAt ≠ 0 ∧ b = a.without f) := by
  rw [lookup_yielding] at found
  cases evicted with
  | none => exact ⟨b, found, List.Sublist.refl _, .inl rfl⟩
  | some taken =>
    obtain ⟨k', owner, stored, deleted, -, -, -, rfl, own⟩ := yielded taken rfl
    rw [Option.filter_some] at found
    by_cases same : (owner.without f).user.subject = k
    · simp only [same, decide_true, if_true, Option.some_or, Option.some.injEq] at found
      subst found
      exact ⟨owner, own.symm.trans same ▸ stored, List.filter_sublist, .inr ⟨deleted, rfl⟩⟩
    · simp only [same, decide_false, Bool.false_eq_true, if_false, Option.none_or] at found
      exact ⟨b, found, List.Sublist.refl _, .inl rfl⟩

theorem holds_without {pair : Bytes × Bytes} : (a.without f).Holds pair ↔ a.Holds pair ∧ pair ≠ f.pair := by
  have other (l : FederatedLink) : (!l.isOf f.provider f.providerSubject) = true ↔ l.pair ≠ f.pair := by
    rw [Bool.not_eq_true', ← Bool.not_eq_true, FederatedLink.isOf_iff]
    rfl
  constructor
  · rintro ⟨l, member, rfl⟩
    obtain ⟨stored, apart⟩ := List.mem_filter.mp member
    exact ⟨⟨l, stored, rfl⟩, (other l).mp apart⟩
  · rintro ⟨⟨l, stored, rfl⟩, apart⟩
    exact ⟨l, List.mem_filter.mpr ⟨stored, (other l).mpr apart⟩, rfl⟩

theorem Links.apart (distinct : s.Distinct) (joins : s.Links now sub f before links evicted)
    {b : Account} (found : (s.yielding evicted).accounts.lookup k = some b) (other : k ≠ sub)
    (here : k.tenant = sub.tenant) : ¬ b.Holds f.pair := by
  rintro ⟨l, member, same⟩
  cases joins with
  | added free => exact linkOwner_eq_none free found here ⟨l, member, same⟩
  | @rebound owner i position own =>
    obtain ⟨k', stored, here', holds⟩ := linkOwner_eq_some position
    obtain rfl : k' = sub := (distinct.keyed k' owner stored).symm.trans own
    exact other (distinct.exclusive.links k k' b owner f.pair found stored here ⟨l, member, same⟩ holds)
  | @taken owner position _ _ =>
    obtain ⟨k', stored, here', holds⟩ := linkOwner_eq_some position
    have own : (owner.without f).user.subject = k' := distinct.keyed k' owner stored
    rw [lookup_yielding, Option.filter_some, own] at found
    by_cases lost : k' = k
    · simp only [lost, decide_true, if_true, Option.some_or, Option.some.injEq] at found
      subst found
      exact (holds_without.mp ⟨l, member, same⟩).2 rfl
    · simp only [lost, decide_false, Bool.false_eq_true, if_false, Option.none_or] at found
      exact lost (distinct.exclusive.links k' k owner b f.pair stored found (here'.trans here.symm) holds
        ⟨l, member, same⟩)

theorem stored_of_elim {l : FederatedLink}
    (own : (s.accounts.lookup sub).elim [] Account.links = before) (member : l ∈ before) :
    ∃ a, s.accounts.lookup sub = some a ∧ l ∈ a.links := by
  rw [← own] at member
  cases stored : s.accounts.lookup sub with
  | none => simp [stored] at member
  | some a => exact ⟨a, rfl, by simpa [stored] using member⟩

theorem Links.mine (distinct : s.Distinct) (joins : s.Links now sub f before links evicted)
    (own : (s.accounts.lookup sub).elim [] Account.links = before) :
    (∀ l ∈ links, l ∈ before ∨ l = ⟨sub, f, now⟩) ∧ (links.map FederatedLink.pair).Nodup ∧
      (∀ pair ∈ before.map FederatedLink.pair, pair ∈ links.map FederatedLink.pair) ∧
      ⟨sub, f, now⟩ ∈ links := by
  have once : (before.map FederatedLink.pair).Nodup := by
    rw [← own]
    cases stored : s.accounts.lookup sub with
    | none => exact List.nodup_nil
    | some a => exact distinct.exclusive.once sub a stored
  -- What is appended is not there yet, since somebody else or nobody owns it.
  have appended (link : FederatedLink) (absent : link.pair ∉ before.map FederatedLink.pair) :
      (∀ l ∈ before ++ [link], l ∈ before ∨ l = link) ∧ ((before ++ [link]).map FederatedLink.pair).Nodup ∧
        (∀ pair ∈ before.map FederatedLink.pair, pair ∈ (before ++ [link]).map FederatedLink.pair) ∧
        link ∈ before ++ [link] := by
    refine ⟨by simp, ?_, fun pair member => ?_, by simp⟩
    · rw [List.map_append, List.map_singleton]
      exact List.nodup_append'.mpr ⟨once, List.nodup_singleton _, List.disjoint_singleton.mpr absent⟩
    · rw [List.map_append]
      exact List.mem_append_left _ member
  cases joins with
  | added free =>
    refine appended _ fun present => ?_
    obtain ⟨l, member, same⟩ := List.mem_map.mp present
    obtain ⟨a, stored, listed⟩ := stored_of_elim own member
    exact linkOwner_eq_none free stored rfl ⟨l, listed, same⟩
  | @taken owner found other deleted =>
    refine appended _ fun present => ?_
    obtain ⟨l, member, same⟩ := List.mem_map.mp present
    obtain ⟨a, stored, listed⟩ := stored_of_elim own member
    obtain ⟨k, theirs, here, holds⟩ := linkOwner_eq_some found
    have taken : k = sub := distinct.exclusive.links k sub owner a f.pair theirs stored here holds ⟨l, listed, same⟩
    exact other ((distinct.keyed k owner theirs).trans taken)
  | @rebound owner i found mine position =>
    -- The pair stays where it was.
    obtain ⟨bound, meets, -⟩ := List.findIdx?_eq_some_iff_getElem.mp position
    have pairs : (before.set i ⟨sub, f, now⟩).map FederatedLink.pair = before.map FederatedLink.pair := by
      have within : i < (before.map FederatedLink.pair).length := by simpa using bound
      have same : FederatedLink.pair ⟨sub, f, now⟩ = (before.map FederatedLink.pair)[i] := by
        rw [List.getElem_map]
        exact (FederatedLink.isOf_iff.mp meets).symm
      rw [List.map_set, same, List.set_getElem_self]
    refine ⟨fun l member => (List.mem_or_eq_of_mem_set member), pairs ▸ once, fun pair member => pairs ▸ member, ?_⟩
    exact List.mem_set bound _

theorem Yielded.live
    (yielded : s.Yielded sub f evicted) {b : Account} (live : (s.yielding evicted).Live k b) : s.Live k b := by
  obtain ⟨a, stored, -, rfl | ⟨deleted, rfl⟩⟩ := yielded.holds live.1
  · exact ⟨stored, live.2⟩
  · exact absurd live.2 deleted

theorem Links.fits (distinct : s.Distinct) {a' : Account}
    (joins : s.Links now sub f before a'.links evicted) (own : (s.accounts.lookup sub).elim [] Account.links = before)
    (subject : a'.user.subject = sub) (picked : sub.user ≠ .nil)
    (email : ∀ k b, s.Live k b → k ≠ sub → k.tenant = sub.tenant → b.user.email ≠ a'.user.email)
    (phone : a'.user.phone.isZero = false → ∀ k b, s.Live k b → k ≠ sub → k.tenant = sub.tenant →
      b.user.phone ≠ a'.user.phone) : (s.yielding evicted).Fits sub a' := by
  have yielded := joins.yielded distinct.keyed
  obtain ⟨members, once, -, -⟩ := joins.mine distinct own
  exact
    { subject := subject
      picked := picked
      named := fun l member => by
        rcases members l member with old | rfl
        · obtain ⟨a, stored, listed⟩ := stored_of_elim own old
          exact distinct.named sub a stored l listed
        · rfl
      email := fun _ k b live => email k b (yielded.live live)
      phone := fun _ set k b live => phone set k b (yielded.live live)
      links := fun k b pair stored other here holds held => by
        obtain ⟨l, member, rfl⟩ := holds
        rcases members l member with old | rfl
        · obtain ⟨a, mine, listed⟩ := stored_of_elim own old
          obtain ⟨a₀, theirs, rest, -⟩ := yielded.holds stored
          obtain ⟨l', member', same⟩ := held
          exact other (distinct.exclusive.links k sub a₀ a l.pair theirs mine here ⟨l', rest.subset member', same⟩
            ⟨l, listed, rfl⟩)
        · exact joins.apart distinct stored other here held
      once := once }

variable {after : Account}

/-- A committed mutation writes an account that fits, once a former owner has yielded its link. -/
theorem Writes.fits (distinct : s.Distinct) {before : Option Account}
    (writes : s.Writes now newID m sub before after evicted) (valid : m.check = none) (fresh : s.Picks newID m)
    (picked : newID ≠ some .nil) :
    ∃ f, s.Yielded sub f evicted ∧ (s.yielding evicted).Fits sub after := by
  cases writes with
  | amended plain found kept frees =>
    exact ⟨.zero, (fun _ absent => nomatch absent), rewritten_fits distinct valid found kept frees⟩
  | @linked sub identity keep a links evicted found kept joins =>
    refine ⟨identity, joins.yielded distinct.keyed, joins.fits distinct (by simp [found]) (distinct.keyed sub a found)
      (distinct.picked sub a found) ?_ ?_⟩
    · intro k b live other here same
      exact other (distinct.exclusive.emails k sub b a live ⟨found, kept⟩ here same)
    · intro set k b live other here same
      exact other (distinct.exclusive.phones k sub b a live ⟨found, kept⟩ here (same ▸ set) same)
  | @created tenant email phc mustChange federated id _ _ minted frees user joins =>
    subst minted
    have absent : s.accounts.lookup ⟨tenant, id⟩ = none := fresh
    have nonnil : id ≠ .nil := fun same => picked (congrArg some same)
    have subject : after.user.subject = ⟨tenant, id⟩ := by rw [user]
    have email : ∀ k b, s.Live k b → k ≠ ⟨tenant, id⟩ → k.tenant = tenant → b.user.email ≠ after.user.email := by
      intro k b live _ here same
      rw [user] at same
      exact owner_eq_none frees live here (distinct.picked k b live.1) (.inl ⟨email_of_create valid, same⟩)
    have phone : after.user.phone.isZero = true := by
      rw [user]
      rfl
    have unset {P : Prop} (set : after.user.phone.isZero = false) : P := Bool.noConfusion (set.symm.trans phone)
    rcases joins with ⟨-, bare, rfl⟩ | joins
    · refine ⟨.zero, (fun _ gone => nomatch gone), subject, nonnil, ?_, fun _ => email, fun _ => unset, ?_, ?_⟩
      · simp [bare]
      · rintro k b pair - - - ⟨l, member, -⟩
        simp [bare] at member
      · simp [bare]
    · exact ⟨federated, joins.yielded distinct.keyed, joins.fits distinct (by simp [absent]) subject nonnil email unset⟩

theorem Fits.bumped (fits : s.Fits sub a) (m : Mutation) : s.Fits sub (a.bumped m) :=
  ⟨fits.subject, fits.picked, fits.named, fits.email, fits.phone, fits.links, fits.once⟩

/-- A committed mutation writes the subject's account over a store in which the former owner has yielded. -/
theorem Commits.lookup {ap : Applied} {before : Option Account}
    (commits : s.Commits now newID m t ap sub before after evicted) (yielded : s.Yielded sub f evicted) (k : Subject) :
    t.accounts.lookup k = if k = sub then some (after.bumped m) else (s.yielding evicted).accounts.lookup k := by
  rw [commits.accounts, lookup_yielding]
  by_cases own : k = sub
  · cases evicted with
    | none => simp [own]
    | some b =>
      obtain ⟨k', _, -, -, -, other, -, -, named⟩ := yielded b rfl
      have apart : ¬ b.user.subject = k := fun same => other (named.symm.trans (same.trans own))
      simp [own, Option.filter_some, own ▸ apart]
  · simp [own]

theorem Commits.distinct (distinct : s.Distinct) {ap : Applied}
    {before : Option Account}
    (commits : s.Commits now newID m t ap sub before after evicted) (fresh : s.Picks newID m)
    (picked : newID ≠ some .nil) : t.Distinct := by
  obtain ⟨f, yielded, fits⟩ := commits.writes.fits distinct commits.valid fresh picked
  exact (distinct.yielding yielded).write (fits.bumped m) (commits.lookup yielded)

end Store
end Egauth.Identity
