import Egauth.Ceremony.Index
import Egauth.Codes.Check

/-! A short code is guessed a bounded number of times and redeemed once.

A record gives out as many charges as it has attempts left, and it is removed
once. Every comparison was charged, and every success took the record away: by
the last charge or by consuming it.
-/

set_option autoImplicit false

namespace Egauth.Codes
open Egauth.Core Ceremony Prog
open Service (Problem)

abbrev Event := (c : Call) × Reply c

section
variable (kk : Key)

def charges : Event → Bool
  | ⟨.recordFailure t k h, .ok _⟩ => decide (Key.mk t k h = kk)
  | _ => false

/-- The record was taken away: by its last attempt, or consumed. -/
def takes : Event → Bool
  | ⟨.recordFailure t k h, .ok remaining⟩ => decide (Key.mk t k h = kk ∧ remaining = 0)
  | ⟨.consume t k h, .ok _⟩ => decide (Key.mk t k h = kk)
  | _ => false

def compares : Event → Bool
  | ⟨.compare against _ _, _⟩ => decide (against = some kk)
  | _ => false

/-- No other record is put under the handle. -/
def Spares : Call → Prop
  | .put r => r.row.key ≠ kk
  | _ => True

def left (s : Store) : Nat :=
  match s.rows.lookup kk with
  | some e => (kk.kind.maxAttempts - e.row.attempts).toNat
  | none => 0

/-- What stays of the record is its Pending, and it has an attempt left. -/
def Intact (p : Pending) (s : Store) : Prop :=
  ∀ e, s.rows.lookup kk = some e → e.row.pending = p ∧ e.row.attempts < kk.kind.maxAttempts

inductive Treats (s : Store) (event : Event) (s' : Store) : Prop where
  | kept : s'.rows.lookup kk = s.rows.lookup kk → charges kk event = false → takes kk event = false →
      Treats s event s'
  | dropped : s'.rows.lookup kk = none → charges kk event = false → takes kk event = false → Treats s event s'
  | charged {e : Entry} : s.rows.lookup kk = some e → e.row.attempts + 1 < kk.kind.maxAttempts →
      s'.rows.lookup kk = some { e with row.attempts := e.row.attempts + 1 } → takes kk event = false →
      Treats s event s'
  | taken {e : Entry} : s.rows.lookup kk = some e → s'.rows.lookup kk = none → Treats s event s'

end

section
variable {kk : Key} {s s' : Store}

theorem rows_evict_other (s : Store) (keep : Key) (now : Time) (same : Entry → Bool) (limit : Nat) (k : Key) :
    (s.evict keep now same limit).1.rows.lookup k = s.rows.lookup k ∨
      (s.evict keep now same limit).1.rows.lookup k = none := by
  unfold Store.evict
  split
  · exact .inl rfl
  split
  · exact .inl rfl
  · dsimp only
    rw [Store.rows_foldl_remove]
    split
    · exact .inr rfl
    · exact .inl rfl

theorem rows_write (clk : Time) (r : Record) (k : Key) :
    (s.write clk r).1.rows.lookup k = (s.added r).rows.lookup k ∨ (s.write clk r).1.rows.lookup k = none := by
  have scope (s : Store) : (s.capScope r.row.key clk r.row.scopeHash).1.rows.lookup k = s.rows.lookup k ∨
      (s.capScope r.row.key clk r.row.scopeHash).1.rows.lookup k = none := by
    unfold Store.capScope
    split
    · exact rows_evict_other ..
    · exact .inl rfl
  have tenant (s : Store) : (s.capTenant r.row.key clk).1.rows.lookup k = s.rows.lookup k ∨
      (s.capTenant r.row.key clk).1.rows.lookup k = none := by
    unfold Store.capTenant
    split
    · exact rows_evict_other ..
    · exact .inl rfl
  have written : (s.write clk r).1 =
      (((s.added r).capScope r.row.key clk r.row.scopeHash).1.capTenant r.row.key clk).1 := rfl
  rw [written]
  rcases tenant ((s.added r).capScope r.row.key clk r.row.scopeHash).1 with kept | gone
  · rw [kept]
    exact scope (s.added r)
  · exact .inr gone

theorem rows_put_other {r : Record} (other : r.row.key ≠ kk) (clk : Time) :
    (s.put clk r).1.rows.lookup kk = s.rows.lookup kk ∨ (s.put clk r).1.rows.lookup kk = none := by
  have added : (s.added r).rows.lookup kk = s.rows.lookup kk := by
    rw [Store.rows_added, if_neg (Ne.symm other)]
  unfold Store.put
  split
  · exact .inl rfl
  · rw [← added]
    exact rows_write clk r kk

variable {clk : Time}

theorem rows_put {r : Record} {n : Nat} (stored : (s.put clk r).2 = .ok n) {e : Entry}
    (found : (s.put clk r).1.rows.lookup r.row.key = some e) : e.row = r.row.stored := by
  unfold Store.put at stored found
  split at stored
  · cases stored
  next absent =>
    rw [absent] at found
    rcases rows_write (s := s) clk r r.row.key with kept | gone
    · rw [Store.rows_added, if_pos rfl] at kept
      cases found.symm.trans kept
      rfl
    · cases found.symm.trans gone

theorem intact_put {r : Record} {n : Nat} (stored : (s.put clk r).2 = .ok n) :
    Intact r.row.key r.row.pending (s.put clk r).1 ∧ (left r.row.key (s.put clk r).1 : Int) ≤ r.row.kind.maxAttempts := by
  have bounded : 0 ≤ r.row.attempts ∧ r.row.attempts < r.row.kind.maxAttempts := by
    have valid := r.valid
    simp only [checkRow] at valid
    split_ifs at valid with _ _ _ _ within
    exact ⟨by omega, by omega⟩
  constructor
  · intro e found
    rw [rows_put stored found]
    exact ⟨rfl, bounded.2⟩
  · unfold left
    split
    next e found =>
      rw [rows_put stored found]
      change ((r.row.kind.maxAttempts - r.row.attempts).toNat : Int) ≤ _
      omega
    · change (0 : Int) ≤ _
      omega

theorem lookupKey_ok {t : TenantID} {k : Kind} {h : Digest} {key : Key} (ok : Store.lookupKey t k h = .ok key) :
    key = ⟨t, k, h⟩ := by
  unfold Store.lookupKey at ok
  rw [ite_error_eq_ok] at ok
  exact (Except.ok.inj ok.2).symm

theorem consume_ok {t : TenantID} {k : Kind} {h : Digest} {rec : Record}
    (taken : (s.consume clk t k h).2 = .ok rec) : ∃ seq, s.live ⟨t, k, h⟩ clk = some ⟨rec.row, seq⟩ := by
  unfold Store.consume at taken
  cases looked : Store.lookupKey t k h with
  | error err =>
    rw [looked] at taken
    cases taken
  | ok key =>
    rw [looked, lookupKey_ok looked] at taken
    dsimp only at taken
    split at taken
    · cases taken
    next e found => exact ⟨e.seq, by rw [found, restore_ok taken]⟩

theorem recordFailure_nonneg {t : TenantID} {k : Kind} {h : Digest} {remaining : Int}
    (charged : (s.recordFailure clk t k h).2 = .ok remaining) : 0 ≤ remaining := by
  unfold Store.recordFailure at charged
  split at charged
  · cases charged
  split at charged
  · cases charged
  dsimp only at charged
  split at charged
  · cases charged
    exact le_refl 0
  next many =>
    cases charged
    exact (not_le.mp many).le

theorem treats_recordFailure (clk : Time) (t : TenantID) (k : Kind) (h : Digest) :
    Treats kk s ⟨.recordFailure t k h, (s.recordFailure clk t k h).2⟩ (s.recordFailure clk t k h).1 := by
  unfold Store.recordFailure
  cases looked : Store.lookupKey t k h with
  | error err => exact .kept rfl rfl rfl
  | ok key =>
    dsimp only
    rw [lookupKey_ok looked]
    cases found : s.live ⟨t, k, h⟩ clk with
    | none => exact .kept rfl rfl rfl
    | some e =>
      obtain ⟨stored, -⟩ := Store.live_eq_some.mp found
      dsimp only
      by_cases own : Key.mk t k h = kk
      · subst own
        split
        · exact .taken stored (by rw [Store.rows_remove, if_pos rfl])
        next more =>
          refine .charged stored (by dsimp only; lia) (by rw [Map.lookup_insert_eq, if_pos rfl]) ?_
          simp only [takes, true_and, decide_eq_false_iff_not]
          lia
      · have other : kk ≠ ⟨t, k, h⟩ := Ne.symm own
        split
        · exact .kept (by rw [Store.rows_remove, if_neg other]) (by simp [charges, own]) (by simp [takes, own])
        · exact .kept (by rw [Map.lookup_insert_eq, if_neg other]) (by simp [charges, own]) (by simp [takes, own])

theorem treats_consume (clk : Time) (t : TenantID) (k : Kind) (h : Digest) :
    Treats kk s ⟨.consume t k h, (s.consume clk t k h).2⟩ (s.consume clk t k h).1 := by
  unfold Store.consume
  cases looked : Store.lookupKey t k h with
  | error err => exact .kept rfl rfl rfl
  | ok key =>
    dsimp only
    rw [lookupKey_ok looked]
    cases found : s.live ⟨t, k, h⟩ clk with
    | none => exact .kept rfl rfl rfl
    | some e =>
      obtain ⟨stored, -⟩ := Store.live_eq_some.mp found
      dsimp only
      by_cases own : Key.mk t k h = kk
      · subst own
        exact .taken stored (by rw [Store.rows_remove, if_pos rfl])
      · have other : kk ≠ ⟨t, k, h⟩ := Ne.symm own
        refine .kept (by rw [Store.rows_remove, if_neg other]) rfl ?_
        cases restore e.row <;> simp [takes, own]

theorem rows_removeWhere_other (s : Store) (drop : Key → Entry → Bool) (k : Key) :
    (s.removeWhere drop).1.rows.lookup k = s.rows.lookup k ∨ (s.removeWhere drop).1.rows.lookup k = none := by
  rw [Store.rows_removeWhere]
  cases s.rows.lookup k with
  | none => exact .inl rfl
  | some e =>
    dsimp only
    split
    · exact .inr rfl
    · exact .inl rfl

variable {event : Event}

theorem Treats.of_rows (rows : s'.rows.lookup kk = s.rows.lookup kk ∨ s'.rows.lookup kk = none)
    (free : charges kk event = false) (stays : takes kk event = false) : Treats kk s event s' := by
  rcases rows with kept | gone
  · exact .kept kept free stays
  · exact .dropped gone free stays

theorem treats_exec (cfg : Config) (o : Turn) {c : Call} (spares : Spares kk c) :
    Treats kk s ⟨c, (exec cfg o s c).1⟩ (exec cfg o s c).2 := by
  obtain ⟨clk, fault⟩ := o
  cases fault with
  | true => cases c <;> exact .kept rfl rfl rfl
  | false =>
    cases c with
    | compare | peek => exact .kept rfl rfl rfl
    | recordFailure t k h => exact treats_recordFailure clk t k h
    | consume t k h => exact treats_consume clk t k h
    | put r => exact .of_rows (rows_put_other spares clk) rfl rfl
    | deleteForScope t scope kinds =>
      change Treats kk s _ (s.deleteForScope t scope kinds).1
      exact .of_rows (rows_removeWhere_other ..) rfl rfl
    | eraseTenant t => exact .of_rows (rows_removeWhere_other s (fun k _ => k.tenant = t) kk) rfl rfl
    | reapExpired => exact .of_rows (rows_removeWhere_other s (fun _ e => ¬ e.row.expiresAt > clk) kk) rfl rfl

theorem Intact.treats {p : Pending} (intact : Intact kk p s) (treats : Treats kk s event s') :
    Intact kk p s' := by
  intro e' found
  cases treats with
  | kept same => exact intact e' (same ▸ found)
  | dropped gone =>
    rw [gone] at found
    cases found
  | charged held more row =>
    rw [row] at found
    cases found
    exact ⟨(intact _ held).1, more⟩
  | taken _ gone =>
    rw [gone] at found
    cases found

theorem Intact.left_treats {p : Pending} (intact : Intact kk p s) (treats : Treats kk s event s') :
    (if charges kk event then 1 else 0) + left kk s' ≤ left kk s := by
  cases treats with
  | kept same free => simp [free, left, same]
  | dropped gone free => simp [free, left, gone]
  | @charged e held more row =>
    simp only [left, held, row]
    split <;> omega
  | @taken e held gone =>
    have before := (intact e held).2
    simp only [left, held, gone]
    split <;> omega

theorem Treats.present (treats : Treats kk s event s') :
    (if takes kk event then 1 else 0) + (if (s'.rows.lookup kk).isSome then 1 else 0) ≤
      if (s.rows.lookup kk).isSome then 1 else 0 := by
  cases treats with
  | kept same _ stays => simp [stays, same]
  | dropped gone _ stays => simp [stays, gone]
  | charged held _ row stays => simp [stays, held, row]
  | taken held gone =>
    simp only [held, gone, Option.isSome_some, Option.isSome_none, Bool.false_eq_true, ↓reduceIte]
    split <;> omega

theorem budget_of_run {I A : Type} [DecidableEq I] {cfg : Config} {x y : Store × (I → Program A)}
    {labels : List (I × Event)} (run : Run (Interleave (exec cfg)) x labels y)
    (made : ∀ label ∈ labels, Spares kk label.2.1) {p : Pending} (intact : Intact kk p x.1) :
    Intact kk p y.1 ∧ (labels.countP fun label => charges kk label.2) + left kk y.1 ≤ left kk x.1 ∧
      (labels.countP fun label => takes kk label.2) + (if (y.1.rows.lookup kk).isSome then 1 else 0) ≤
        if (x.1.rows.lookup kk).isSome then 1 else 0 := by
  induction run with
  | nil => exact ⟨intact, by simp, by simp⟩
  | snoc _ last ih =>
    obtain ⟨o, -, -, replied, -⟩ := last
    rename_i middle after _ label _
    obtain ⟨now, charged, taken⟩ := ih fun label member => made label (List.mem_append_left _ member)
    have treats := treats_exec (s := middle.1) cfg o (made label (by simp))
    rw [replied] at treats
    have cost : (if charges kk label.2 then 1 else 0) + left kk after.1 ≤ left kk middle.1 := now.left_treats treats
    have once : (if takes kk label.2 then 1 else 0) + (if (after.1.rows.lookup kk).isSome then 1 else 0) ≤
        if (middle.1.rows.lookup kk).isSome then 1 else 0 := treats.present
    refine ⟨now.treats treats, ?_, ?_⟩
    · rw [List.countP_append, List.countP_singleton]
      omega
    · rw [List.countP_append, List.countP_singleton]
      omega

end

/-- Whether a request has a charge that it has not used, and whether it took the record. -/
structure Note where
  granted : Bool
  gone : Bool

/-- A code is compared with that of the record after a charge of its own only. -/
def checks (kk : Key) (p : Pending) : Discipline Call Reply Note where
  track g c r :=
    ⟨if compares kk ⟨c, r⟩ then false else if charges kk ⟨c, r⟩ then true else g.granted,
      if takes kk ⟨c, r⟩ then true else g.gone⟩
  learns _ c r :=
    match c, r with
    | .peek t k h, .ok rec => Key.mk t k h = kk → rec.row.pending = p
    | .consume t k h, .ok rec => Key.mk t k h = kk → rec.row.pending = p
    | .recordFailure _ _ _, .ok remaining => 0 ≤ remaining
    | _, _ => True
  allows g c :=
    match c with
    | .compare against _ _ => against = some kk → g.granted = true
    | .put r => r.row.key ≠ kk
    | _ => True

structure Redeemed where
  key : Key
  pending : Pending
  subject : Subject

inductive Request where
  | code (r : CodeRequest)
  | phone (r : PhoneRequest)
  | other (c : Call)

def Request.program (cfg : Config) : Request → Program (Option Redeemed)
  | .code r => do
    let (p, sub, k) ← checkCode cfg r
    pure (r.handle.map fun h => ⟨⟨r.tenant, k, h⟩, p, sub⟩)
  | .phone r => do
    let (_, p) ← checkPhoneCode cfg r
    pure (r.handle.map fun h => ⟨⟨r.tenant, .phoneVerification, h⟩, p, r.subject⟩)
  | .other c => do
    let _ ← ask c
    pure none

def Request.Fresh (kk : Key) : Request → Prop
  | .other c => Spares kk c ∧ ∀ digest code, c ≠ .compare (some kk) digest code
  | _ => True

section
variable {kk : Key} {p : Pending} {g : Note} {cfg : Config} {t : TenantID}

/-- The Pending is that of the record if the record was found under its key. -/
def Sealed (kk : Key) (p : Pending) (key : Key) (found : Pending) (sub : Subject) : Prop :=
  key = kk → found = p ∧ sub = p.subject

theorem yields_findLoop {h : Digest} {kinds : List Kind} {found : Option (Record × Kind)}
    (known : ∀ rec k, found = some (rec, k) → Key.mk t k h = kk → rec.row.pending = p) :
    Yields (checks kk p) g (findLoop t h kinds found) fun g' result =>
      g' = g ∧ ∀ rec k, result = some (rec, k) → Key.mk t k h = kk → rec.row.pending = p := by
  induction kinds generalizing found with
  | nil => exact yields_ret.mpr ⟨rfl, known⟩
  | cons k kinds ih =>
    refine yields_perform.mpr ⟨trivial, fun r learned => ?_⟩
    cases r with
    | ok rec =>
      refine ih fun rec' k' same own => ?_
      cases found with
      | none =>
        cases same
        exact learned own
      | some first => exact known rec' k' same own
    | error err =>
      cases err with
      | notFound => exact ih known
      | _ => exact yields_fail

theorem yields_decoyCheck {code : Bytes} : Yields (checks kk p) g (decoyCheck cfg t code) fun _ _ => True := by
  unfold decoyCheck
  split
  · exact yields_ret.mpr trivial
  · refine yields_perform.mpr ⟨trivial, fun _ _ => ?_⟩
    refine yields_perform.mpr ⟨nofun, fun _ _ => ?_⟩
    exact yields_ret.mpr trivial

variable {found : Pending} {sub : Subject}

theorem openBound_ok {rec : Record} {invalid : Problem}
    (ok : openBound rec t invalid = .ok (found, sub)) : found = rec.row.pending ∧ sub = rec.row.pending.subject := by
  simp only [openBound, ite_error_eq_ok] at ok
  obtain ⟨-, -, ok⟩ := ok
  cases ok
  exact ⟨rfl, rfl⟩

/-- The two calls of a redemption, from the Pending that was peeked. -/
theorem yields_redeem {k : Kind} {hash : Digest} {digest code : Bytes} (known : Sealed kk p ⟨t, k, hash⟩ found sub) :
    Yields (checks kk p) g (redeem t k hash digest code found sub) fun g' result =>
      result.2.2 = k ∧ (Key.mk t k hash = kk → g'.gone = true) ∧ Sealed kk p ⟨t, k, hash⟩ result.1 result.2.1 := by
  refine yields_perform.mpr ⟨trivial, fun charge _ => yields_ofExcept fun remaining charged => ?_⟩
  subst charged
  refine yields_perform.mpr ⟨fun own => ?_, fun matched _ => ?_⟩
  · cases own
    simp [checks, compares, charges]
  cases matched with
  | false => exact yields_fail
  | true =>
    dsimp only [Bool.not_true, Bool.false_eq_true, if_false]
    by_cases last : remaining = 0
    · rw [if_pos last]
      refine yields_ret.mpr ⟨rfl, fun own => ?_, known⟩
      simp [checks, takes, last, own]
    · rw [if_neg last]
      refine yields_perform.mpr ⟨trivial, fun reply learned => yields_ofExcept fun rec consumed => ?_⟩
      subst consumed
      refine yields_ofExcept fun opened bound => ?_
      obtain ⟨same, subject⟩ := openBound_ok bound
      refine yields_ret.mpr ⟨rfl, fun own => ?_, fun own => ?_⟩
      · simp [checks, takes, own]
      · have row : rec.row.pending = p := learned own
        rw [same, subject, row]
        exact ⟨rfl, rfl⟩

/-- What a request that returned tells of the record. -/
def Redeemed.Of (kk : Key) (p : Pending) (g : Note) (x : Redeemed) : Prop :=
  x.key = kk → g.gone = true ∧ x.pending = p ∧ x.subject = p.subject

theorem yields_checkCode (r : CodeRequest) : Yields (checks kk p) g (checkCode cfg r) fun g' result =>
    ∀ hash, r.handle = some hash → Redeemed.Of kk p g' ⟨⟨r.tenant, result.2.2, hash⟩, result.1, result.2.1⟩ := by
  unfold checkCode
  refine yields_ofOption fun hash handle => ?_
  split
  · exact yields_fail
  refine Yields.bind (yields_findLoop (by simp)) fun g' found => ?_
  rintro ⟨-, known⟩
  cases found with
  | none => exact Yields.bind yields_decoyCheck fun _ _ _ => yields_fail
  | some found =>
    obtain ⟨rec, k⟩ := found
    refine yields_ofExcept fun opened bound => ?_
    obtain ⟨same, subject⟩ := openBound_ok bound
    dsimp only
    split
    · exact Yields.bind yields_decoyCheck fun _ _ _ => yields_fail
    refine yields_ofOption fun digest _ => ?_
    have sealed' : Sealed kk p ⟨r.tenant, k, hash⟩ opened.1 opened.2 := by
      intro own
      rw [same, subject, known rec k rfl own]
      exact ⟨rfl, rfl⟩
    refine (yields_redeem sealed').mono ?_
    rintro g' result ⟨kind, gone, holds⟩ hash' again
    cases handle.symm.trans again
    rw [kind]
    exact fun own => ⟨gone own, holds own⟩

/-- The record that counts is the one that was taken away, by the last charge or by the consumption. -/
theorem yields_consumeChecked {hash : Digest} {rec : Record} {remaining : Int}
    (last : remaining > 0 ∨ (Key.mk t .phoneVerification hash = kk → g.gone = true))
    (known : Key.mk t .phoneVerification hash = kk → rec.row.pending = p) :
    Yields (checks kk p) g (consumeChecked t hash rec remaining) fun g' taken =>
      Key.mk t .phoneVerification hash = kk → g'.gone = true ∧ taken.row.pending = p := by
  unfold consumeChecked
  split
  · refine yields_perform.mpr ⟨trivial, fun reply told => ?_⟩
    cases reply with
    | error err => exact yields_fail
    | ok taken =>
      refine yields_ret.mpr fun own => ⟨?_, told own⟩
      simp [checks, takes, own]
  next none =>
    have gone := last.resolve_left none
    exact yields_ret.mpr fun own => ⟨gone own, known own⟩

theorem yields_checkPhoneCode (r : PhoneRequest) : Yields (checks kk p) g (checkPhoneCode cfg r) fun g' result =>
    ∀ hash, r.handle = some hash →
      Redeemed.Of kk p g' ⟨⟨r.tenant, .phoneVerification, hash⟩, result.2, r.subject⟩ := by
  unfold checkPhoneCode
  refine yields_ofOption fun hash handle => ?_
  refine yields_perform.mpr ⟨trivial, fun peeked learned => yields_ofExcept fun rec found => ?_⟩
  subst found
  refine yields_ofOption fun first _ => yields_ofOption fun digest _ => ?_
  refine yields_perform.mpr ⟨trivial, fun charge counted => yields_ofExcept fun remaining charged => ?_⟩
  subst charged
  refine yields_perform.mpr ⟨fun own => ?_, fun matched _ => ?_⟩
  · cases own
    simp [checks, compares, charges]
  cases matched with
  | false => exact yields_fail
  | true =>
    refine Yields.bind (yields_consumeChecked ?_ learned) fun g' taken known => ?_
    · by_cases last : remaining > 0
      · exact .inl last
      · refine .inr fun own => ?_
        have zero : remaining = 0 := le_antisymm (not_lt.mp last) counted
        simp [checks, takes, own, zero]
    · refine yields_ofOption fun second opened => yields_ofOption fun number _ => yields_ofOption fun phone _ => ?_
      obtain ⟨same, subject⟩ := Service.openedFor_some opened
      refine yields_ret.mpr fun hash' again own => ?_
      cases handle.symm.trans again
      obtain ⟨gone, row⟩ := known own
      rw [row] at same subject
      exact ⟨gone, same, subject.symm⟩

theorem yields_program {request : Request} (fresh : request.Fresh kk) :
    Yields (checks kk p) g (request.program cfg) fun g' result => ∀ x, result = some x → x.Of kk p g' := by
  cases request with
  | code r =>
    refine Yields.bind (yields_checkCode r) fun g' result known => yields_ret.mpr fun x returned => ?_
    obtain ⟨hash, handle, rfl⟩ := Option.map_eq_some_iff.mp returned
    exact known hash handle
  | phone r =>
    refine Yields.bind (yields_checkPhoneCode r) fun g' result known => yields_ret.mpr fun x returned => ?_
    obtain ⟨hash, handle, rfl⟩ := Option.map_eq_some_iff.mp returned
    exact known hash handle
  | other c =>
    refine yields_perform.mpr ⟨?_, fun _ _ => yields_ret.mpr (by simp)⟩
    obtain ⟨spares, apart⟩ := fresh
    cases c with
    | put r => exact spares
    | compare against digest code =>
      rintro rfl
      exact absurd rfl (apart digest code)
    | _ => trivial

theorem compares_le_charges {events : List Event} (permitted : Permitted (checks kk p) g events) :
    events.countP (compares kk) + (if (follow (checks kk p) g events).granted then 1 else 0) ≤
      events.countP (charges kk) + if g.granted then 1 else 0 := by
  induction events generalizing g with
  | nil => exact le_refl _
  | cons event events ih =>
    have rest := ih permitted.2
    have step : (if compares kk event then 1 else 0) +
        (if ((checks kk p).track g event.1 event.2).granted then 1 else 0) ≤
          (if charges kk event then 1 else 0) + if g.granted then 1 else 0 := by
      obtain ⟨c, r⟩ := event
      by_cases compared : compares kk ⟨c, r⟩
      · have granted : g.granted = true := by
          cases c with
          | compare against digest code => exact permitted.1 (of_decide_eq_true compared)
          | _ => cases compared
        simp [checks, compared, granted]
      · simp only [checks, compared, Bool.false_eq_true, if_false, Nat.zero_add]
        split <;> simp
    rw [List.countP_cons, List.countP_cons]
    change _ + (if (follow (checks kk p) ((checks kk p).track g event.1 event.2) events).granted then 1 else 0) ≤ _
    omega

theorem taken_of_gone {events : List Event} (gone : (follow (checks kk p) g events).gone = true) :
    g.gone = true ∨ 0 < events.countP (takes kk) := by
  induction events generalizing g with
  | nil => exact .inl gone
  | cons event events ih =>
    rw [List.countP_cons]
    rcases ih gone with before | later
    · by_cases taken : takes kk event
      · exact .inr (by simp [taken])
      · refine .inl ?_
        have unchanged : ((checks kk p).track g event.1 event.2).gone = g.gone := if_neg taken
        rw [← unchanged]
        exact before
    · exact .inr (by omega)

theorem learns_exec (o : Turn) {s : Store} {c : Call} (intact : Intact kk p s) :
    (checks kk p).learns g c (exec cfg o s c).1 := by
  have live {t : TenantID} {k : Kind} {h : Digest} {e : Entry} (found : s.live ⟨t, k, h⟩ o.clk = some e)
      (own : Key.mk t k h = kk) : e.row.pending = p := by
    subst own
    exact (intact e (Store.live_eq_some.mp found).1).1
  unfold exec performed
  cases c with
  | peek t k h =>
    dsimp only
    split
    · trivial
    cases told : s.peek o.clk t k h with
    | error err => trivial
    | ok rec =>
      obtain ⟨seq, found⟩ := Store.peek_ok told
      exact live found
  | consume t k h =>
    dsimp only
    split
    · trivial
    cases told : (s.consume o.clk t k h).2 with
    | error err => trivial
    | ok rec =>
      obtain ⟨seq, found⟩ := consume_ok told
      exact live found
  | recordFailure t k h =>
    dsimp only
    split
    · trivial
    cases told : (s.recordFailure o.clk t k h).2 with
    | error err => trivial
    | ok remaining => exact recordFailure_nonneg told
  | _ => trivial

theorem spares_of_allows {c : Call} (allowed : (checks kk p).allows g c) : Spares kk c := by
  cases c with
  | put r => exact allowed
  | _ => trivial

end

/-- However the requests interleave, with whatever clock readings and evictions: the code of a record is compared
as often as its kind allows at most, one request at most succeeds with it, and that one answers with what was put. -/
theorem short_code_bounded {I : Type} [DecidableEq I] (cfg : Config) (s : Store) (clk : Time) (r : Record) {n : Nat}
    (stored : (s.put clk r).2 = .ok n) (requests : I → Request) (fresh : ∀ i, (requests i).Fresh r.row.key)
    {labels : List (I × Event)} {y : Store × (I → Program (Option Redeemed))}
    (run : Run (Interleave (exec cfg)) ((s.put clk r).1, fun i => (requests i).program cfg) labels y) :
    ((labels.countP fun label => compares r.row.key label.2 : Nat) : Int) ≤ r.row.kind.maxAttempts ∧
      (∀ i j x x', y.2 i = .ret (some x) → y.2 j = .ret (some x') → x.key = r.row.key → x'.key = r.row.key → i = j) ∧
      ∀ i x, y.2 i = .ret (some x) → x.key = r.row.key →
        x.pending = r.row.pending ∧ x.subject = r.row.pending.subject := by
  obtain ⟨intact, attempts⟩ := intact_put stored
  have yields (i : I) : Yields (checks r.row.key r.row.pending) ⟨false, false⟩ ((requests i).program cfg) _ :=
    yields_program (fresh i)
  obtain ⟨-, learned⟩ := learned_of_allowed (Intact r.row.key r.row.pending) run yields intact
    (fun o s c g allowed now => now.treats (treats_exec cfg o (spares_of_allows allowed)))
    fun o s c g _ now => learns_exec o now
  have made (label : I × Event) (member : label ∈ labels) : Spares r.row.key label.2.1 := by
    obtain ⟨g, allowed⟩ := allowed_of_run run yields learned label member
    exact spares_of_allows allowed
  obtain ⟨-, charged, taken⟩ := budget_of_run run made intact
  have path (i : I) := path_of_run run i
  have redeemed {i : I} {x : Redeemed} (returned : y.2 i = .ret (some x)) (own' : x.key = r.row.key) :
      0 < (own i labels).countP (takes r.row.key) ∧
        x.pending = r.row.pending ∧ x.subject = r.row.pending.subject := by
    have ended := (yields i).follow (path i) (learned i)
    rw [returned] at ended
    obtain ⟨gone, same⟩ := yields_ret.mp ended x rfl own'
    exact ⟨(taken_of_gone gone).resolve_left nofun, same⟩
  refine ⟨?_, fun i j x x' first second own own' => ?_, fun i x returned own => (redeemed returned own).2⟩
  · have each (i : I) : (own i labels).countP (compares r.row.key) ≤ (own i labels).countP (charges r.row.key) := by
      have uses := compares_le_charges ((yields i).permitted (path i) (learned i))
      simp only [Bool.false_eq_true, if_false, Nat.add_zero] at uses
      omega
    have all : (labels.countP fun label => compares r.row.key label.2) ≤
        labels.countP fun label => charges r.row.key label.2 := countP_le_of_own each
    have given : (labels.countP fun label => charges r.row.key label.2) ≤ left r.row.key (s.put clk r).1 :=
      le_trans (Nat.le_add_right _ _) charged
    omega
  · by_contra apart
    have once : (labels.countP fun label => takes r.row.key label.2) ≤ 1 := by
      refine le_trans (le_trans (Nat.le_add_right _ _) taken) ?_
      split <;> simp
    have both := le_trans (countP_own_add_le (takes r.row.key) labels apart) once
    have one := (redeemed first own).1
    have other := (redeemed second own').1
    omega

namespace Sample

def config : Config :=
  { base := ⟨.never, fun _ _ => true, fun digest code => digest.drop 26 == code⟩
    emailCodes := true, smsCodes := false, decoyHandle := .handle [0], decoyCode := [], verifyBind := fun _ _ => true }

def created : Time := 30 * (24 * Duration.hour)

def row : Row :=
  { tenant := .zero, kind := .emailCode, handleHash := .handle [1], scopeHash := .handle [2]
    pending := { Pending.zero with version := codecVersion, subject := .sample, expiresAt := created + pendingTTL }
    payload := ⟨.emailCode, .code (List.replicate 26 0 ++ ascii "123456")⟩, attempts := 0
    expiresAt := created + 5 * Duration.minute, createdAt := created }

def record : Record := ⟨row, by decide +kernel⟩

def requests (_ : Bool) : Request := .code ⟨.zero, some (.handle [1]), ascii "123456", [], []⟩

def turns (second : Bool) (count : Nat) : List (Bool × Turn) := List.replicate count (second, ⟨created, false⟩)

/-- Both requests compare the code before either consumes the record. -/
def race : List (Bool × Turn) := turns false 3 ++ turns true 3 ++ turns false 1 ++ turns true 1

end Sample

open Sample

theorem short_code_bounded_race : ∃ labels y,
    Run (Interleave (exec config))
      ((Store.new.put created record).1, fun i => (requests i).program config) labels y ∧
      (labels.countP fun label => compares row.key label.2) = 2 ∧
      (∃ x, y.2 false = .ret (some x) ∧ x.key = row.key ∧ x.pending = row.pending) ∧
      ∀ x, y.2 true = .ret (some x) → x.key ≠ row.key := by
  have run := run_schedule (exec config)
    ((Store.new.put created record).1, fun i => (requests i).program config) race
  obtain ⟨-, once, same⟩ := short_code_bounded config .new created record (n := 0)
    (by decide +kernel) requests (fun _ => trivial) run
  have won : ((Prog.schedule (exec config) ((Store.new.put created record).1,
      fun i => (requests i).program config) race).2.2 false).returned.any
        (fun x => x.any fun x => x.key = row.key) = true := by decide +kernel
  obtain ⟨result, returned, found⟩ := (Option.any_eq_true _ _).mp won
  obtain ⟨x, rfl, own⟩ := (Option.any_eq_true _ _).mp found
  have key := of_decide_eq_true own
  have first := eq_ret_of_returned returned
  refine ⟨_, _, run, by decide +kernel, ⟨x, first, key, (same false x first key).1⟩, fun x' second key' => ?_⟩
  cases once false true x x' first second key key'

end Egauth.Codes
