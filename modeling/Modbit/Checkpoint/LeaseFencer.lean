import Mathlib.Data.String.Basic
import Modbit.Lib.OrdMap
import Modbit.Lib.Run

/-!
# Session leases

One session at a time holds the lease of a scope.  Each lease has an epoch, taken from a
counter of its scope that outlives the lease, and a commit is accepted from the holder with
the epoch of its lease.

The counter is a `u64`: where it would overflow, the call ends there (`Answer.overflow`),
with the lease already taken back if it was a release.

`later` says what any calls leave of a scope: its counter does not go back, and a holder is
the one from before or has an epoch above the counter.  `fencing_law` follows.
-/

namespace Modbit

open Lib List

namespace Checkpoint

structure SessionLease where
  scope : String
  sessionId : String
  epoch : UInt64
  deriving DecidableEq

inductive LeaseError where
  | heldByOther (scope holder : String)
  | staleEpoch (scope session : String) (leaseEpoch currentEpoch : UInt64)
  deriving DecidableEq

structure LeaseFencer where
  /-- The holder and the epoch of each scope with a lease. -/
  active : OrdMap String (String × UInt64)
  fencing : OrdMap String UInt64

namespace LeaseFencer

def new : LeaseFencer := ⟨.empty, .empty⟩

/-- `self.fencing.get(scope).copied().unwrap_or(0)`. -/
def current (f : LeaseFencer) (scope : String) : UInt64 := (f.fencing.find? scope).getD 0

/-- `n + 1`, where it does not overflow. -/
def checkedSucc (n : UInt64) : Option UInt64 :=
  if n.toNat + 1 < 2 ^ 64 then some (n + 1) else none

def nextEpoch (f : LeaseFencer) (scope : String) : Option UInt64 := checkedSucc (f.current scope)

inductive Answer where
  | acquired (result : Except LeaseError SessionLease)
  | released
  | overflow

def acquire (f : LeaseFencer) (scope sessionId : String) : LeaseFencer × Answer :=
  match f.active.find? scope with
  | some (holder, _) => (f, .acquired (.error (.heldByOther scope holder)))
  | none =>
    match f.nextEpoch scope with
    | none => (f, .overflow)
    | some epoch =>
      (⟨f.active.insert scope (sessionId, epoch), f.fencing.insert scope epoch⟩,
        .acquired (.ok ⟨scope, sessionId, epoch⟩))

def pastEpoch (f : LeaseFencer) (scope : String) (epoch : UInt64) : Option UInt64 :=
  (f.nextEpoch scope).bind (fun next => (checkedSucc epoch).map (fun past => max next past))

def release (f : LeaseFencer) (scope : String) : LeaseFencer × Answer :=
  match f.active.find? scope with
  | none => (f, .released)
  | some (_, epoch) =>
    match f.pastEpoch scope epoch with
    | none => ({ f with active := f.active.erase scope }, .overflow)
    | some past => (⟨f.active.erase scope, f.fencing.insert scope past⟩, .released)

def validateCommit (f : LeaseFencer) (scope sessionId : String) (leaseEpoch : UInt64) :
    Except LeaseError Unit :=
  let stale := LeaseError.staleEpoch scope sessionId leaseEpoch (f.current scope)
  match f.active.find? scope with
  | some (holder, epoch) =>
    if holder = sessionId ∧ epoch = leaseEpoch then .ok () else .error stale
  | none => .error stale

/-! ### Calls -/

inductive Call where
  | acquire (scope sessionId : String)
  | release (scope : String)

def step (f : LeaseFencer) : Call → LeaseFencer × Answer
  | .acquire scope sessionId => f.acquire scope sessionId
  | .release scope => f.release scope

def issued (answers : List Answer) : List SessionLease :=
  answers.filterMap (fun answer => match answer with
    | .acquired (.ok lease) => some lease
    | _ => none)

/-! ### One call -/

variable {f g : LeaseFencer} {scope sessionId : String} {n epoch : UInt64}

theorem checkedSucc_eq_some (h : checkedSucc n = some epoch) : epoch.toNat = n.toNat + 1 := by
  rw [checkedSucc] at h
  split_ifs at h with hlt
  rw [← Option.some.inj h, UInt64.toNat_add]
  exact Nat.mod_eq_of_lt hlt

theorem current_insert (active : OrdMap String (String × UInt64)) (k : String) :
    current ⟨active, f.fencing.insert scope epoch⟩ k = if k = scope then epoch else f.current k := by
  rw [current, current, OrdMap.find?_insert]
  split_ifs
  · rfl
  · rfl

/-- What can happen to the `k`-th scope: it is left alone, its lease is taken back, or it gets a
lease with the next epoch. -/
inductive Moved (f : LeaseFencer) (k : String) (g : LeaseFencer) : Answer → Prop
  | kept {answer : Answer} (hactive : g.active.find? k = f.active.find? k)
      (hcurrent : g.current k = f.current k)
      (hnone : ∀ lease, answer = .acquired (.ok lease) → lease.scope ≠ k) : Moved f k g answer
  | freed {answer : Answer} (hactive : g.active.find? k = none) (hcurrent : f.current k ≤ g.current k)
      (hnone : ∀ lease, answer ≠ .acquired (.ok lease)) : Moved f k g answer
  | leased (lease : SessionLease) (hscope : lease.scope = k)
      (hactive : g.active.find? k = some (lease.sessionId, lease.epoch))
      (hcurrent : g.current k = lease.epoch) (hlt : f.current k < lease.epoch) :
      Moved f k g (.acquired (.ok lease))

theorem pastEpoch_lt {past : UInt64} (h : f.pastEpoch scope epoch = some past) :
    f.current scope < past := by
  obtain ⟨next, hnext, hpast⟩ := Option.bind_eq_some_iff.mp h
  obtain ⟨succ, -, rfl⟩ := Option.map_eq_some_iff.mp hpast
  have hn := checkedSucc_eq_some hnext
  have hle : next ≤ max next succ := by
    show next ≤ if next ≤ succ then succ else next
    split_ifs with hle
    · exact hle
    · exact UInt64.le_refl next
  refine UInt64.lt_of_lt_of_le ?_ hle
  rw [UInt64.lt_iff_toNat_lt]
  omega

theorem moved_acquire (f : LeaseFencer) (scope sessionId k : String) :
    Moved f k (f.acquire scope sessionId).1 (f.acquire scope sessionId).2 := by
  rw [acquire]
  cases f.active.find? scope with
  | some held => exact .kept rfl rfl (fun lease h => (nomatch h))
  | none =>
    cases hnext : f.nextEpoch scope with
    | none => exact .kept rfl rfl (fun lease h => (nomatch h))
    | some epoch =>
      by_cases hk : k = scope
      · subst hk
        have hsucc := checkedSucc_eq_some hnext
        refine .leased ⟨k, sessionId, epoch⟩ rfl ?_ ?_ ?_
        · rw [OrdMap.find?_insert, if_pos rfl]
        · rw [current_insert, if_pos rfl]
        · rw [UInt64.lt_iff_toNat_lt]
          dsimp only
          omega
      · refine .kept ?_ ?_ (fun lease h => ?_)
        · rw [OrdMap.find?_insert, if_neg hk]
        · rw [current_insert, if_neg hk]
        · cases h
          exact fun he => hk he.symm

theorem moved_release (f : LeaseFencer) (scope k : String) :
    Moved f k (f.release scope).1 (f.release scope).2 := by
  rw [release]
  cases hactive : f.active.find? scope with
  | none => exact .kept rfl rfl (fun lease h => (nomatch h))
  | some held =>
    dsimp only
    cases hpast : f.pastEpoch scope held.2 with
    | none =>
      by_cases hk : k = scope
      · refine .freed ?_ (UInt64.le_refl _) (fun lease h => (nomatch h))
        rw [OrdMap.find?_erase, if_pos hk]
      · refine .kept ?_ rfl (fun lease h => (nomatch h))
        rw [OrdMap.find?_erase, if_neg hk]
    | some past =>
      by_cases hk : k = scope
      · subst hk
        refine .freed ?_ ?_ (fun lease h => (nomatch h))
        · rw [OrdMap.find?_erase, if_pos rfl]
        · rw [current_insert, if_pos rfl]
          exact UInt64.le_of_lt (pastEpoch_lt hpast)
      · refine .kept ?_ ?_ (fun lease h => (nomatch h))
        · rw [OrdMap.find?_erase, if_neg hk]
        · rw [current_insert, if_neg hk]

/-- **What one call can do to a scope.** -/
theorem moved_step (f : LeaseFencer) (call : Call) (k : String) :
    Moved f k (step f call).1 (step f call).2 := by
  cases call with
  | acquire scope sessionId => exact moved_acquire f scope sessionId k
  | release scope => exact moved_release f scope k

/-! ### Any calls -/

/-- **What any calls leave of a scope.**  The counter does not go back, and the holder is the one
from before or has an epoch above the counter of before. -/
theorem later (calls : List Call) (k : String) : ∀ f : LeaseFencer,
    f.current k ≤ (run step f calls).current k ∧
      ∀ holder epoch, (run step f calls).active.find? k = some (holder, epoch) →
        f.active.find? k = some (holder, epoch) ∨ f.current k < epoch := by
  induction calls with
  | nil => exact fun f => ⟨UInt64.le_refl _, fun holder epoch h => .inl h⟩
  | cons call calls ih =>
    intro f
    obtain ⟨hle, hheld⟩ := ih (step f call).1
    rw [run_cons]
    have hmoved := moved_step f call k
    generalize (step f call).2 = answer at hmoved
    cases hmoved with
    | kept hactive hcurrent _ =>
      rw [hcurrent] at hle hheld
      rw [hactive] at hheld
      exact ⟨hle, hheld⟩
    | freed hactive hcurrent _ =>
      refine ⟨UInt64.le_trans hcurrent hle, fun holder epoch h => .inr ?_⟩
      rcases hheld holder epoch h with h | h
      · rw [hactive] at h
        cases h
      · exact UInt64.lt_of_le_of_lt hcurrent h
    | leased lease hscope hactive hcurrent hlt =>
      rw [hcurrent] at hle hheld
      refine ⟨UInt64.le_of_lt (UInt64.lt_of_lt_of_le hlt hle), fun holder epoch h => .inr ?_⟩
      rcases hheld holder epoch h with h | h
      · rw [hactive] at h
        cases h
        exact hlt
      · exact UInt64.lt_trans hlt h

theorem issued_cons (answer : Answer) (answers : List Answer) :
    issued (answer :: answers) = issued [answer] ++ issued answers := by
  rw [issued, issued, issued, ← filterMap_append, singleton_append]

theorem mem_issued_singleton {answer : Answer} {lease : SessionLease} :
    lease ∈ issued [answer] ↔ answer = .acquired (.ok lease) := by
  rw [issued, mem_filterMap]
  constructor
  · rintro ⟨answer', hmem, h⟩
    cases mem_singleton.mp hmem
    match answer, h with
    | .acquired (.ok _), h => rw [← Option.some.inj h]
  · rintro rfl
    exact ⟨_, mem_singleton.mpr rfl, rfl⟩

theorem issued_bounds (calls : List Call) : ∀ f : LeaseFencer,
    ∀ lease ∈ issued (replies step f calls),
      f.current lease.scope < lease.epoch ∧
        lease.epoch ≤ (run step f calls).current lease.scope := by
  induction calls with
  | nil => exact fun f lease h => (nomatch h)
  | cons call calls ih =>
    intro f lease hmem
    rw [replies, issued_cons, mem_append] at hmem
    rw [run_cons]
    rcases hmem with hmem | hmem
    · have hanswer := mem_issued_singleton.mp hmem
      have hmoved := moved_step f call lease.scope
      rw [hanswer] at hmoved
      cases hmoved with
      | kept _ _ hnone => exact absurd rfl (hnone lease rfl)
      | freed _ _ hnone => exact absurd rfl (hnone lease)
      | leased _ _ _ hcurrent hlt =>
        refine ⟨hlt, ?_⟩
        rw [← hcurrent]
        exact (later calls lease.scope (step f call).1).1
    · obtain ⟨hlt, hle⟩ := ih (step f call).1 lease hmem
      exact ⟨UInt64.lt_of_le_of_lt (later [call] lease.scope f).1 hlt, hle⟩

/-- **The epochs of a scope go up.** -/
theorem issued_increasing (calls : List Call) : ∀ f : LeaseFencer,
    (issued (replies step f calls)).Pairwise
      (fun a b => a.scope = b.scope → a.epoch < b.epoch) := by
  induction calls with
  | nil => exact fun f => .nil
  | cons call calls ih =>
    intro f
    rw [replies, issued_cons, pairwise_append]
    refine ⟨?_, ih _, fun a ha b hb hscope => ?_⟩
    · generalize (step f call).2 = answer
      rcases answer with (_ | lease) | _ | _
      · exact .nil
      · exact pairwise_singleton _ lease
      · exact .nil
      · exact .nil
    · have hone : a ∈ issued (replies step f [call]) := ha
      have hle := (issued_bounds [call] f a hone).2
      rw [hscope] at hle
      exact UInt64.lt_of_le_of_lt hle (issued_bounds calls _ b hb).1

theorem validateCommit_eq_ok : f.validateCommit scope sessionId epoch = .ok () ↔
    f.active.find? scope = some (sessionId, epoch) := by
  rw [validateCommit]
  cases f.active.find? scope with
  | none => exact ⟨fun h => (nomatch h), fun h => (nomatch h)⟩
  | some held =>
    obtain ⟨holder, e⟩ := held
    dsimp only
    constructor
    · intro h
      split_ifs at h with heq
      rw [heq.1, heq.2]
    · intro h
      cases h
      exact if_pos ⟨rfl, rfl⟩

theorem active_release (f : LeaseFencer) (scope : String) :
    (f.release scope).1.active.find? scope = none := by
  rw [release]
  cases hactive : f.active.find? scope with
  | none => exact hactive
  | some held =>
    dsimp only
    cases f.pastEpoch scope held.2 with
    | none => rw [OrdMap.find?_erase, if_pos rfl]
    | some past => rw [OrdMap.find?_erase, if_pos rfl]

/-- **A lease that was released is not accepted again.** -/
theorem released_stale (before after : List Call) {lease : SessionLease}
    (hmem : lease ∈ issued (replies step f before)) :
    (run step f (before ++ .release lease.scope :: after)).validateCommit lease.scope lease.sessionId
      lease.epoch ≠ .ok () := by
  intro hok
  rw [validateCommit_eq_ok, run_append, run_cons] at hok
  obtain ⟨-, hle⟩ := issued_bounds before f lease hmem
  rcases (later after lease.scope _).2 _ _ hok with h | h
  · rw [show (step (run step f before) (.release lease.scope)).1
      = ((run step f before).release lease.scope).1 from rfl, active_release] at h
    cases h
  · have hfreed := (later [.release lease.scope] lease.scope (run step f before)).1
    exact absurd (UInt64.lt_of_lt_of_le h (UInt64.le_trans hle hfreed)) (UInt64.lt_irrefl _)

/-- **The fencing law.**  Over any calls, the epochs of a scope go up, one session and epoch at a
time is accepted for a scope, and a released lease is not accepted again. -/
theorem fencing_law :
    (∀ calls scope, ((issued (replies step new calls)).filter (·.scope = scope)).Pairwise
      (fun a b => a.epoch < b.epoch)) ∧
    (∀ calls scope s s' e e', (run step new calls).validateCommit scope s e = .ok () →
      (run step new calls).validateCommit scope s' e' = .ok () → s = s' ∧ e = e') ∧
    ∀ before after, ∀ lease ∈ issued (replies step new before),
      (run step new (before ++ .release lease.scope :: after)).validateCommit lease.scope
        lease.sessionId lease.epoch ≠ .ok () := by
  refine ⟨fun calls scope => ?_, fun calls scope s s' e e' h h' => ?_,
    fun before after lease hmem => released_stale before after hmem⟩
  · refine List.Pairwise.imp_of_mem (fun ha hb hlt => ?_) ((issued_increasing calls new).filter _)
    have ha := of_decide_eq_true (mem_filter.mp ha).2
    have hb := of_decide_eq_true (mem_filter.mp hb).2
    exact hlt (ha.trans hb.symm)
  · rw [validateCommit_eq_ok] at h h'
    cases h.symm.trans h'
    exact ⟨rfl, rfl⟩

end LeaseFencer

end Checkpoint

end Modbit
