import Egauth.Identity.Unique

/-! Who is found, and what a call takes from whom.

The calls are those that write or erase accounts. An id that `uuid.NewV7` picks
is nobody's and not nil.
-/

set_option autoImplicit false

namespace Egauth.Identity
open Egauth.Core

/-- The calls that write accounts or erase them. -/
def Op.OnAccounts : Op → Prop
  | .apply _ newID _ => newID ≠ some .nil
  | .eraseUser _ | .eraseTenant _ | .reapExpired => True
  | _ => False

namespace Store
variable {s t : Store}

def Turn (s : Store) (call : Call) (t : Store) : Prop := (call.op.OnAccounts ∧ s.Admits call) ∧ t = s.perform call

/-- The lookups answer the live owner, who is the only one. -/
structure Finds (s : Store) : Prop where
  user : ∀ (tenant : TenantID) (id : Identifier) (u : User), s.findUser tenant id = .ok u ↔
    ∃ k a, (s.Live k a ∧ k.tenant = tenant ∧ a.Answers id ∧ a.view = u) ∧
      ∀ k' a', s.Live k' a' → k'.tenant = tenant → a'.Answers id → k' = k
  federated : ∀ (tenant : TenantID) (provider subject : Bytes) (l : FederatedLink),
    s.findFederated tenant provider subject = .ok l ↔
      ∃ k a, (s.Live k a ∧ k.tenant = tenant ∧ l ∈ a.links ∧ l.pair = (provider, subject) ∧ l.subject = k) ∧
        ∀ k' a', s.accounts.lookup k' = some a' → k'.tenant = tenant → a'.Holds (provider, subject) → k' = k

theorem Distinct.answers_unique (distinct : s.Distinct) {id : Identifier} {k k' : Subject} {a a' : Account}
    (live : s.Live k a) (live' : s.Live k' a') (here : k.tenant = k'.tenant) (answers : a.Answers id)
    (answers' : a'.Answers id) : k = k' := by
  rcases answers with ⟨kind, same⟩ | ⟨kind, same⟩ <;> rcases answers' with ⟨kind', same'⟩ | ⟨kind', same'⟩
  · exact distinct.exclusive.emails k k' a a' live live' here (same.trans same'.symm)
  · simp [kind] at kind'
  · simp [kind] at kind'
  · refine distinct.exclusive.phones k k' a a' live live' here ?_ (same.trans same'.symm)
    rw [same]
    simp [Identifier.isZero, kind]

theorem Distinct.findUser (distinct : s.Distinct) {tenant : TenantID} {id : Identifier} {u : User} :
    s.findUser tenant id = .ok u ↔ ∃ k a, s.Live k a ∧ k.tenant = tenant ∧ a.Answers id ∧ a.view = u := by
  unfold Store.findUser
  split
  next neither =>
    refine ⟨nofun, ?_⟩
    rintro ⟨k, a, -, -, ⟨kind, -⟩ | ⟨kind, -⟩, -⟩
    · exact absurd kind neither.1
    · exact absurd kind neither.2
  cases found : s.owner tenant id .nil with
  | none =>
    refine ⟨nofun, ?_⟩
    rintro ⟨k, a, live, here, answers, -⟩
    exact absurd answers (owner_eq_none found live here (distinct.picked k a live.1))
  | some a =>
    obtain ⟨k, live, here, -, answers⟩ := owner_eq_some found
    simp only [Except.ok.injEq]
    constructor
    · exact fun same => ⟨k, a, live, here, answers, same⟩
    · rintro ⟨k', a', live', here', answers', rfl⟩
      obtain rfl := distinct.answers_unique live live' (here.trans here'.symm) answers answers'
      rw [Option.some.inj (live.1.symm.trans live'.1)]

theorem Distinct.findFederated (distinct : s.Distinct) {tenant : TenantID} {provider subject : Bytes}
    {l : FederatedLink} : s.findFederated tenant provider subject = .ok l ↔
      ∃ k a, s.Live k a ∧ k.tenant = tenant ∧ l ∈ a.links ∧ l.pair = (provider, subject) := by
  unfold Store.findFederated
  cases found : s.linkOwner tenant provider subject with
  | none =>
    refine ⟨nofun, ?_⟩
    rintro ⟨k, a, live, here, member, same⟩
    exact absurd ⟨l, member, same⟩ (linkOwner_eq_none found live.1 here)
  | some a =>
    obtain ⟨k, stored, here, holds⟩ := linkOwner_eq_some found
    -- Whoever holds the link is the owner that was found.
    have owner {k' : Subject} {a' : Account} (stored' : s.accounts.lookup k' = some a') (here' : k'.tenant = tenant)
        (holds' : a'.Holds (provider, subject)) : k' = k ∧ a' = a := by
      obtain rfl := distinct.exclusive.links k' k a' a _ stored' stored (here'.trans here.symm) holds' holds
      exact ⟨rfl, Option.some.inj (stored'.symm.trans stored)⟩
    dsimp only
    split
    next deleted =>
      refine ⟨nofun, ?_⟩
      rintro ⟨k', a', live, here', member, same⟩
      obtain ⟨-, rfl⟩ := owner live.1 here' ⟨l, member, same⟩
      exact absurd live.2 deleted
    next kept =>
      cases listed : a.links.find? fun l => l.isOf provider subject with
      | none =>
        obtain ⟨l', member, same⟩ := holds
        exact absurd (FederatedLink.isOf_iff.mpr same) (List.find?_eq_none.mp listed l' member)
      | some l' =>
        have member := List.mem_of_find?_eq_some listed
        have meets := List.find?_some listed
        have same : l'.pair = (provider, subject) := FederatedLink.isOf_iff.mp meets
        simp only [Except.ok.injEq]
        constructor
        · rintro rfl
          exact ⟨k, a, ⟨stored, not_not.mp kept⟩, here, member, same⟩
        · rintro ⟨k', a', live, here', member', same'⟩
          obtain ⟨-, rfl⟩ := owner live.1 here' ⟨l, member', same'⟩
          exact List.inj_on_of_nodup_map (distinct.exclusive.once k a' stored) member member' (same.trans same'.symm)

theorem Distinct.finds (distinct : s.Distinct) : s.Finds where
  user tenant id u := by
    rw [distinct.findUser]
    constructor
    · rintro ⟨k, a, live, here, answers, same⟩
      refine ⟨k, a, ⟨live, here, answers, same⟩, fun k' a' live' here' answers' => ?_⟩
      exact distinct.answers_unique live' live (here'.trans here.symm) answers' answers
    · rintro ⟨k, a, found, -⟩
      exact ⟨k, a, found⟩
  federated tenant provider subject l := by
    rw [distinct.findFederated]
    constructor
    · rintro ⟨k, a, live, here, member, same⟩
      refine ⟨k, a, ⟨live, here, member, same, distinct.named k a live.1 l member⟩, fun k' a' stored' here' holds' => ?_⟩
      exact distinct.exclusive.links k' k a' a _ stored' live.1 (here'.trans here.symm) holds' ⟨l, member, same⟩
    · rintro ⟨k, a, ⟨live, here, member, same, -⟩, -⟩
      exact ⟨k, a, live, here, member, same⟩

def Drops (k : Subject) (pair : Bytes × Bytes) : Mutation → Prop
  | .unlinkFederated sub provider subject _ => sub = k ∧ pair = (provider, subject)
  | .markEmailVerified sub _ => sub = k
  | _ => False

/-- What a call does to a tombstoned account: nothing, unless it is erased or another account takes a link over. -/
def Rests (s : Store) (call : Call) (k : Subject) (a : Account) : Prop :=
  (s.perform call).accounts.lookup k = some a ∨
    ((call.op = .eraseUser k ∨ call.op = .eraseTenant k.tenant) ∧ (s.perform call).accounts.lookup k = none) ∨
    ∃ f taker b, (s.perform call).accounts.lookup k = some (a.without f) ∧ a.Holds f.pair ∧ taker ≠ k ∧
      taker.tenant = k.tenant ∧ (s.perform call).Live taker b ∧ b.Holds f.pair ∧
      (s.accounts.lookup taker = none ∨ ∃ a', s.Live taker a')

/-- What a call does to a link of a live account: nobody else has it, and its owner gives it up itself or keeps it. -/
def KeepsLink (s : Store) (call : Call) (k : Subject) (pair : Bytes × Bytes) : Prop :=
  (∀ k' a', (s.perform call).accounts.lookup k' = some a' → k'.tenant = k.tenant → a'.Holds pair → k' = k) ∧
    ((∃ a', (s.perform call).accounts.lookup k = some a' ∧ a'.Holds pair) ∨ call.op = .eraseTenant k.tenant ∨
      ∃ ctx newID m, call.op = .apply ctx newID m ∧ Drops k pair m)

section Commits
variable {now : Time} {newID : Option UUID} {m : Mutation} {ap : Applied} {sub : Subject} {before : Option Account}
  {after : Account} {evicted : Option Account}

theorem Writes.begins (writes : s.Writes now newID m sub before after evicted) (fresh : s.Picks newID m) :
    s.accounts.lookup sub = before ∧ ∀ a, before = some a → a.user.deletedAt = 0 := by
  cases writes with
  | amended _ found kept _ =>
    refine ⟨found, ?_⟩
    rintro a ⟨⟩
    exact kept
  | linked found kept _ =>
    refine ⟨found, ?_⟩
    rintro a ⟨⟩
    exact kept
  | created picked _ _ _ =>
    subst picked
    exact ⟨fresh, (fun _ absent => nomatch absent)⟩

theorem Writes.takes (distinct : s.Distinct) (writes : s.Writes now newID m sub before after evicted)
    (fresh : s.Picks newID m) {b : Account} (taken : evicted = some b) :
    ∃ f, s.Yielded sub f evicted ∧ after.user.deletedAt = 0 ∧ after.Holds f.pair := by
  cases writes with
  | amended => cases taken
  | @linked sub identity keep a links evicted found kept joins =>
    obtain ⟨-, -, -, member⟩ := joins.mine distinct (by simp [found])
    exact ⟨identity, joins.yielded distinct.keyed, kept, _, member, rfl⟩
  | @created tenant email phc mustChange federated id _ _ picked _ user joins =>
    subst picked
    have absent : s.accounts.lookup ⟨tenant, id⟩ = none := fresh
    rcases joins with ⟨-, -, rfl⟩ | joins
    · cases taken
    · obtain ⟨-, -, -, member⟩ := joins.mine distinct (by simp [absent])
      exact ⟨federated, joins.yielded distinct.keyed, by rw [user], _, member, rfl⟩

theorem Writes.keeps (distinct : s.Distinct) (writes : s.Writes now newID m sub before after evicted) {a : Account}
    (stored : before = some a) {pair : Bytes × Bytes} (holds : a.Holds pair) : after.Holds pair ∨ Drops sub pair m := by
  cases writes with
  | @amended m a plain found kept frees =>
    cases stored
    cases m with
    | markEmailVerified => exact .inr rfl
    | unlinkFederated sub provider subject keep =>
      by_cases same : pair = (provider, subject)
      · exact .inr ⟨rfl, same⟩
      obtain ⟨l, member, rfl⟩ := holds
      refine .inl ⟨l, (List.mem_eraseP_of_neg fun meets => same ?_).mpr member, rfl⟩
      exact FederatedLink.isOf_iff.mp meets
    | setDisabledState sub disable =>
      refine .inl ?_
      dsimp only [rewritten]
      split
      · exact holds
      · split <;> exact holds
    | _ => exact .inl holds
  | @linked sub identity keep a links evicted found kept joins =>
    cases stored
    obtain ⟨-, -, pairs, -⟩ := joins.mine distinct (by simp [found])
    obtain ⟨l, member, same⟩ := holds
    obtain ⟨l', member', same'⟩ := List.mem_map.mp (pairs _ (List.mem_map.mpr ⟨l, member, same⟩))
    exact .inl ⟨l', member', same'⟩
  | created => cases stored

/-- A mutation leaves tombstoned accounts alone, apart from the one that yields. -/
theorem Commits.rests (distinct : s.Distinct) (commits : s.Commits now newID m t ap sub before after evicted)
    (fresh : s.Picks newID m) {k : Subject} {a : Account} (stored : s.accounts.lookup k = some a)
    (deleted : a.user.deletedAt ≠ 0) : t.accounts.lookup k = some a ∨ ∃ f b, t.accounts.lookup k = some (a.without f) ∧
      a.Holds f.pair ∧ sub ≠ k ∧ sub.tenant = k.tenant ∧ t.Live sub b ∧ b.Holds f.pair := by
  obtain ⟨begun, kept⟩ := commits.writes.begins fresh
  have other : sub ≠ k := by
    rintro rfl
    exact deleted (kept a (begun.symm.trans stored))
  cases taken : evicted with
  | none => exact .inl (by simp [commits.accounts, taken, other.symm, stored])
  | some b =>
    obtain ⟨f, yielded, live, holds⟩ := commits.writes.takes distinct fresh taken
    obtain ⟨k', owner, theirs, -, here, -, held, rfl, own⟩ := yielded b taken
    by_cases same : k' = k
    · subst same
      cases stored.symm.trans theirs
      refine .inr ⟨f, after.bumped m, ?_, held, other, here.symm, ⟨?_, live⟩, holds⟩
      · simp [commits.accounts, taken, Option.filter_some, own]
      · rw [commits.lookup yielded, if_pos rfl]
    · refine .inl ?_
      simp [commits.accounts, taken, Option.filter_some, own, same, other.symm, stored]

/-- A live account keeps its links, unless it is written and gives one up. -/
theorem Commits.keepsLink (distinct : s.Distinct) (commits : s.Commits now newID m t ap sub before after evicted)
    (fresh : s.Picks newID m) (picked : newID ≠ some .nil) {k : Subject} {a : Account} (live : s.Live k a)
    {pair : Bytes × Bytes} (holds : a.Holds pair) :
    (∀ k' a', t.accounts.lookup k' = some a' → k'.tenant = k.tenant → a'.Holds pair → k' = k) ∧
      ((∃ a', t.accounts.lookup k = some a' ∧ a'.Holds pair) ∨ Drops k pair m) := by
  obtain ⟨f, yielded, -⟩ := commits.writes.fits distinct commits.valid fresh picked
  have lookup := commits.lookup yielded
  -- An account that is not written is one of the store before, since only a tombstoned one yields.
  have untouched (other : k ≠ sub) : t.accounts.lookup k = some a := by
    rw [lookup, if_neg other, lookup_yielding]
    cases taken : evicted with
    | none => simp [live.1]
    | some b =>
      obtain ⟨k', owner, theirs, deleted, -, -, -, -, own⟩ := yielded b taken
      have apart : ¬ b.user.subject = k := by
        intro named
        rw [← own.symm.trans named] at live
        cases theirs.symm.trans live.1
        exact deleted live.2
      simp [Option.filter_some, apart, live.1]
  constructor
  · intro k' a' found here held
    by_cases own : k' = sub
    · by_cases mine : k = sub
      · exact own.trans mine.symm
      · exact (commits.distinct distinct fresh picked).exclusive.links k' k a' a pair found (untouched mine) here held
          holds
    · rw [lookup, if_neg own] at found
      obtain ⟨a₀, theirs, rest, -⟩ := yielded.holds found
      obtain ⟨l, member, same⟩ := held
      exact distinct.exclusive.links k' k a₀ a pair theirs live.1 here ⟨l, rest.subset member, same⟩ holds
  · by_cases own : k = sub
    · subst own
      obtain ⟨begun, -⟩ := commits.writes.begins fresh
      rcases commits.writes.keeps distinct (begun.symm.trans live.1) holds with still | drops
      · exact .inl ⟨after.bumped m, by rw [lookup, if_pos rfl], still⟩
      · exact .inr drops
    · exact .inl ⟨a, untouched own, holds⟩

end Commits

theorem Distinct.turn (distinct : s.Distinct) {call : Call} (turn : s.Turn call t) : t.Distinct := by
  obtain ⟨⟨onAccounts, admits⟩, rfl⟩ := turn
  obtain ⟨clk, op⟩ := call
  cases op with
  | apply ctx newID m =>
    rcases s.apply_cases clk ctx newID m with same | ⟨ap, sub, before, after, evicted, commits⟩
    · simpa only [perform, same] using distinct
    · exact commits.distinct distinct admits onAccounts
  | eraseUser | eraseTenant | reapExpired => exact distinct.sub (s.perform_erases id).1
  | _ => cases onAccounts

theorem Distinct.rests (distinct : s.Distinct) {call : Call} (onAccounts : call.op.OnAccounts) (admits : s.Admits call)
    {k : Subject} {a : Account} (stored : s.accounts.lookup k = some a) (deleted : a.user.deletedAt ≠ 0) :
    s.Rests call k a := by
  obtain ⟨clk, op⟩ := call
  cases op with
  | apply ctx newID m =>
    rcases s.apply_cases clk ctx newID m with same | ⟨ap, sub, before, after, evicted, commits⟩
    · exact .inl (by simpa only [perform, same] using stored)
    · rcases commits.rests distinct admits stored deleted with same | ⟨f, b, lost, held, other, here, live, holds⟩
      · exact .inl same
      · obtain ⟨begun, kept⟩ := commits.writes.begins admits
        refine .inr (.inr ⟨f, sub, b, lost, held, other, here, live, holds, ?_⟩)
        cases before with
        | none => exact .inl begun
        | some a' => exact .inr ⟨a', begun, kept a' rfl⟩
  | eraseUser sub =>
    rcases s.eraseUser_cases sub with ⟨err, result⟩ | result
    · exact .inl (by simpa only [perform, result] using stored)
    · by_cases own : k = sub
      · exact .inr (.inl ⟨.inl (by rw [own]), by simp only [perform, result, Map.lookup_erase_eq, if_pos own]⟩)
      · exact .inl (by simp only [perform, result, Map.lookup_erase_eq, if_neg own, stored])
  | eraseTenant tenant =>
    by_cases here : k.tenant = tenant
    · exact .inr (.inl ⟨.inr (by rw [here]), by simp [perform, Store.eraseTenant, Map.lookup_eraseWhere, here]⟩)
    · exact .inl (by simp [perform, Store.eraseTenant, Map.lookup_eraseWhere, here, stored])
  | reapExpired => exact .inl stored
  | _ => cases onAccounts

theorem Distinct.keepsLink (distinct : s.Distinct) {call : Call} (onAccounts : call.op.OnAccounts)
    (admits : s.Admits call) {k : Subject} {a : Account} (live : s.Live k a) {pair : Bytes × Bytes}
    (holds : a.Holds pair) : s.KeepsLink call k pair := by
  -- What an erasure leaves was there before, under the same subject.
  have erased (gone : ¬ call.op.Lasting) :
      ∀ k' a', (s.perform call).accounts.lookup k' = some a' → k'.tenant = k.tenant → a'.Holds pair → k' = k :=
    fun k' a' found here held =>
      distinct.exclusive.links k' k a' a pair ((s.perform_erases gone).1 k' a' found) live.1 here held holds
  obtain ⟨clk, op⟩ := call
  cases op with
  | apply ctx newID m =>
    rcases s.apply_cases clk ctx newID m with same | ⟨ap, sub, before, after, evicted, commits⟩
    · refine ⟨fun k' a' found here held => ?_, .inl ⟨a, by simpa only [perform, same] using live.1, holds⟩⟩
      simp only [perform, same] at found
      exact distinct.exclusive.links k' k a' a pair found live.1 here held holds
    · obtain ⟨others, kept | drops⟩ := commits.keepsLink distinct admits onAccounts live holds
      · exact ⟨others, .inl kept⟩
      · exact ⟨others, .inr (.inr ⟨ctx, newID, m, rfl, drops⟩)⟩
  | eraseUser sub =>
    refine ⟨erased id, .inl ⟨a, ?_, holds⟩⟩
    by_cases own : k = sub
    · -- A live account is not erased.
      subst own
      simp [perform, Store.eraseUser, existing, live.1, live.2]
    · rcases s.eraseUser_cases sub with ⟨err, result⟩ | result
      · simpa only [perform, result] using live.1
      · simp only [perform, result, Map.lookup_erase_eq, if_neg own, live.1]
  | eraseTenant tenant =>
    refine ⟨erased id, ?_⟩
    by_cases here : k.tenant = tenant
    · exact .inr (.inl (by rw [here]))
    · exact .inl ⟨a, by simp [perform, Store.eraseTenant, Map.lookup_eraseWhere, here, live.1], holds⟩
  | reapExpired => exact ⟨erased id, .inl ⟨a, live.1, holds⟩⟩
  | _ => cases onAccounts

theorem distinct_of_run {calls : List Call} (run : Run Turn .new calls s) : s.Distinct :=
  run.invariant Distinct (fun distinct turn => distinct.turn turn) .new

/-- In every reachable store identifiers and links have one owner, whom the lookups find; and a further call takes
nothing from a live account, nor from a tombstoned one but a link that a live or a new one joins. -/
theorem owners_unique {calls : List Call} (run : Run Turn .new calls s) :
    s.Exclusive ∧ s.Finds ∧ ∀ call, call.op.OnAccounts → s.Admits call →
      (∀ k a, s.accounts.lookup k = some a → a.user.deletedAt ≠ 0 → s.Rests call k a) ∧
      ∀ k a pair, s.Live k a → a.Holds pair → s.KeepsLink call k pair := by
  have distinct := distinct_of_run run
  refine ⟨distinct.exclusive, distinct.finds, fun call onAccounts admits => ⟨?_, ?_⟩⟩
  · exact fun k a stored deleted => distinct.rests onAccounts admits stored deleted
  · exact fun k a pair live holds => distinct.keepsLink onAccounts admits live holds

end Store

namespace Owners

def identity : FederatedIdentity := ⟨ascii "provider", ascii "subject", ascii "authority", .zero, false⟩

def successor : UUID := ⟨List.replicate 16 9, rfl⟩

def creation (id : UUID) : Call :=
  ⟨1000000, .apply 20 (some id) (.createVerified .zero .sample ⟨[]⟩ false identity)⟩

def deletion : Call := ⟨2000000, .apply 20 none (.tombstone .sample)⟩

def store : Store := (Store.new.perform (creation Subject.sample.user)).perform deletion

def account : Account where
  user :=
    { subject := .sample, email := .sample, emailVerifiedAt := 1000000, deletedAt := 2000000, securityEpoch := 1
      createdAt := 1000000 }
  links := [⟨.sample, identity, 1000000⟩]

theorem store_run : Run Store.Turn .new [creation Subject.sample.user, deletion] store :=
  .snoc (.single ⟨⟨by simp [creation, Op.OnAccounts]; decide, rfl⟩, rfl⟩) ⟨⟨by simp [deletion, Op.OnAccounts], trivial⟩, rfl⟩

end Owners

/-- A second account of the same email takes the link of the first over. -/
theorem owners_unique_successor : Owners.store.Exclusive ∧ Owners.store.Finds ∧
    Owners.store.Rests (Owners.creation Owners.successor) .sample Owners.account :=
  have unique := Store.owners_unique Owners.store_run
  ⟨unique.1, unique.2.1, (unique.2.2 (Owners.creation Owners.successor)
    (by simp [Owners.creation, Op.OnAccounts]; decide) (by rfl)).1 .sample Owners.account (by decide +kernel) (by decide)⟩

end Egauth.Identity
