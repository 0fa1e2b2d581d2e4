import Modbit.EventStore.Timestamps
import Modbit.Lib.OrdMap
import Modbit.Lib.Sha256
import Modbit.Lib.Tickets
import Modbit.Lib.Utf8

/-!
# The credential broker

`CredentialBroker` in `crates/secrets/src/lib.rs`.  A secret is registered under a reference, a
lease on it is issued to a task, and the handle of the lease is exchanged for the value.  Times are
readings of a clock.  The order in which a `HashMap` is gone through is an input of each call,
`Iteration`.

`released_iff`: a value is released only for a lease that was issued to the task and not revoked
since, within its life, its generation and its scopes; where no two leases have one handle, always.
`revokeTask_exact`: an emergency stop takes every value from its task and none from another.  Of a
call that is refused either way it may change the reason.
-/

namespace Modbit.Credentials

open Lib Automations List

structure SecretRef where
  id : String
  name : String

inductive CredScope where
  | procEnv
  | httpHeader
  deriving DecidableEq

structure CredentialLease where
  leaseId : String
  handle : String
  task : String
  generation : Nat
  secretRefId : String
  scopes : List CredScope
  expiresAt : Nat
  deriving DecidableEq

inductive CredentialError where
  | unknownLease
  | expired
  | revoked
  | taskMismatch (leaseTask : String)
  | fenced (leaseGeneration : Nat)
  | scopeDenied (requested : CredScope)
  deriving DecidableEq

structure CredentialEvent where
  kind : String
  leaseId : String
  secretRefId : String
  task : String

inductive LeaseState where
  | live
  | revoked
  deriving DecidableEq

abbrev Leases := OrdMap String (CredentialLease × LeaseState)

/-- An order in which the leases are gone through. -/
structure Iteration where
  entries : Leases → List (String × CredentialLease × LeaseState)
  perm : ∀ m, (entries m).Perm m.entries

structure CredentialBroker where
  secrets : OrdMap String (List UInt8)
  leases : Leases
  audit : List CredentialEvent
  counter : Nat

/-- `{:016x}` of the first eight bytes, with the most significant one first. -/
def shortHash (bytes : List UInt8) : String :=
  String.ofList (((Sha256.digest bytes).take 8).flatMap Sha256.hexByte)

def secretId (task name : String) (value : List UInt8) : String :=
  "secr-" ++ shortHash (value ++ Utf8.encode task.toList ++ Utf8.encode name.toList)

def leaseName (n : Nat) : String := "lease-" ++ String.ofList (padded 8 n)

def handleOf (leaseId task : String) : String :=
  "cred-" ++ shortHash (Utf8.encode leaseId.toList ++ Utf8.encode task.toList)

namespace CredentialBroker

def new : CredentialBroker := ⟨.empty, .empty, [], 0⟩

def note (b : CredentialBroker) (kind : String) (l : CredentialLease) : CredentialBroker :=
  { b with audit := b.audit ++ [⟨kind, l.leaseId, l.secretRefId, l.task⟩] }

def register (b : CredentialBroker) (task name : String) (value : List UInt8) :
    CredentialBroker × SecretRef :=
  ({ b with secrets := b.secrets.insert (secretId task name value) value },
    ⟨secretId task name value, name⟩)

def issueLease (b : CredentialBroker) (ref : SecretRef) (task : String) (generation : Nat)
    (scopes : List CredScope) (ttl now : Nat) :
    CredentialBroker × Except CredentialError CredentialLease :=
  if (b.secrets.find? ref.id).isNone then (b, .error .unknownLease)
  else
    let leaseId := leaseName (b.counter + 1)
    let lease := ⟨leaseId, handleOf leaseId task, task, generation, ref.id, scopes, now + ttl⟩
    ({ b with
        counter := b.counter + 1
        leases := b.leases.insert leaseId (lease, .live) }.note "issue" lease, .ok lease)

def materialize (b : CredentialBroker) (it : Iteration) (now : Nat) (handle task : String)
    (currentGeneration : Nat) (scope : CredScope) :
    CredentialBroker × Except CredentialError (List UInt8) :=
  match ((it.entries b.leases).map Prod.snd).find? (fun e => e.1.handle = handle) with
  | none =>
    ({ b with audit := b.audit ++ [⟨"denied-unknown", "", "", task⟩] }, .error .unknownLease)
  | some (lease, state) =>
    if state = .revoked then (b.note "denied-revoked" lease, .error .revoked)
    else if lease.expiresAt ≤ now then (b.note "denied-expired" lease, .error .expired)
    else if lease.task ≠ task then
      (b.note "denied-task-mismatch" lease, .error (.taskMismatch lease.task))
    else if lease.generation < currentGeneration then
      (b.note "denied-fenced" lease, .error (.fenced lease.generation))
    else if scope ∉ lease.scopes then (b.note "denied-scope" lease, .error (.scopeDenied scope))
    else match b.secrets.find? lease.secretRefId with
      | none => (b, .error .unknownLease)
      | some value =>
        ({ b with audit := b.audit ++ [⟨"materialize", lease.leaseId, lease.secretRefId, task⟩] },
          .ok value)

def revoke (b : CredentialBroker) (leaseId : String) : CredentialBroker :=
  match b.leases.find? leaseId with
  | none => b
  | some (lease, _) =>
    { b with leases := b.leases.insert leaseId (lease, .revoked) }.note "revoke" lease

def revokeTask (b : CredentialBroker) (it : Iteration) (task : String) : CredentialBroker :=
  (((it.entries b.leases).filter (fun e => e.2.1.task = task)).map Prod.fst).foldl revoke b

end CredentialBroker

/-! ### Runs -/

inductive Call where
  | register (task name : String) (value : List UInt8)
  | issueLease (ref : SecretRef) (task : String) (generation : Nat) (scopes : List CredScope)
      (ttl now : Nat)
  | materialize (it : Iteration) (now : Nat) (handle task : String) (generation : Nat)
      (scope : CredScope)
  | revoke (leaseId : String)
  | revokeTask (it : Iteration) (task : String)

inductive Answer where
  | registered (ref : SecretRef)
  | leased (result : Except CredentialError CredentialLease)
  | value (result : Except CredentialError (List UInt8))
  | done

def step (b : CredentialBroker) : Call → CredentialBroker × Answer
  | .register task name value =>
    ((b.register task name value).1, .registered (b.register task name value).2)
  | .issueLease ref task generation scopes ttl now =>
    ((b.issueLease ref task generation scopes ttl now).1,
      .leased (b.issueLease ref task generation scopes ttl now).2)
  | .materialize it now handle task generation scope =>
    ((b.materialize it now handle task generation scope).1,
      .value (b.materialize it now handle task generation scope).2)
  | .revoke leaseId => (b.revoke leaseId, .done)
  | .revokeTask it task => (b.revokeTask it task, .done)

/-! ### What is said of a run -/

/-- The exchange hands out the lease, for what the call asks. -/
def Issues (l : CredentialLease) : Call × Answer → Prop
  | (.issueLease ref task generation scopes ttl now, .leased (.ok lease)) =>
    l = lease ∧ l.task = task ∧ l.generation = generation ∧ l.secretRefId = ref.id ∧
      l.scopes = scopes ∧ l.expiresAt = now + ttl
  | _ => False

/-- The call takes the lease back. -/
def Revokes (l : CredentialLease) : Call → Prop
  | .revoke leaseId => l.leaseId = leaseId
  | .revokeTask _ task => l.task = task
  | _ => False

instance (l : CredentialLease) : (c : Call) → Decidable (Revokes l c)
  | .revoke leaseId => inferInstanceAs (Decidable (l.leaseId = leaseId))
  | .revokeTask _ task => inferInstanceAs (Decidable (l.task = task))
  | .register .. | .issueLease .. | .materialize .. => .isFalse id

/-- The leases that were issued and not revoked since. -/
abbrev Stands : List (Call × Answer) → CredentialLease → Prop :=
  Standing Issues (fun l e => Revokes l e.1)

def Call.registers (id : String) : Call → Option (List UInt8)
  | .register task name value => if id = secretId task name value then some value else none
  | _ => none

/-- The value registered last under a reference. -/
def lastRegistered (tr : List (Call × Answer)) (id : String) : Option (List UInt8) :=
  tr.reverse.findSome? (fun e => e.1.registers id)

/-- What a task may have at a time, for a handle. -/
def Entitled (tr : List (Call × Answer)) (now : Nat) (handle task : String) (generation : Nat)
    (scope : CredScope) (v : List UInt8) : Prop :=
  ∃ l, Stands tr l ∧ l.handle = handle ∧ now < l.expiresAt ∧ l.task = task ∧
    generation ≤ l.generation ∧ scope ∈ l.scopes ∧ lastRegistered tr l.secretRefId = some v

/-- No two leases have one handle. -/
def HandlesApart (tr : List (Call × Answer)) : Prop :=
  ∀ l l', (∃ e ∈ tr, Issues l e) → (∃ e ∈ tr, Issues l' e) → l.handle = l'.handle → l = l'

variable {tr : List (Call × Answer)} {e : Call × Answer} {l : CredentialLease}
  {b : CredentialBroker}

theorem stands_concat : Stands (tr ++ [e]) l ↔ Issues l e ∨ (Stands tr l ∧ ¬ Revokes l e.1) :=
  standing_concat

theorem lastRegistered_concat (id : String) :
    lastRegistered (tr ++ [e]) id = (e.1.registers id).or (lastRegistered tr id) := by
  rw [lastRegistered, reverse_append]
  show (e :: tr.reverse).findSome? _ = _
  rw [findSome?_cons]
  cases e.1.registers id with
  | none => rfl
  | some v => rfl

/-! ### Steps -/

theorem leaseName_inj {m n : Nat} (h : leaseName m = leaseName n) : m = n := by
  have hpadded : padded 8 m = padded 8 n := String.ofList_injective (String.append_right_inj _ |>.mp h)
  rw [← Timestamps.value_padded 8 m, hpadded, Timestamps.value_padded]

namespace CredentialBroker

theorem revoke_frame (b : CredentialBroker) (id : String) :
    (b.revoke id).secrets = b.secrets ∧ (b.revoke id).counter = b.counter := by
  rw [revoke]
  cases b.leases.find? id with
  | none => exact ⟨rfl, rfl⟩
  | some p => exact ⟨rfl, rfl⟩

theorem find?_revoke (b : CredentialBroker) (id k : String) :
    (b.revoke id).leases.find? k =
      if k = id then (b.leases.find? k).map (fun p => (p.1, .revoked)) else b.leases.find? k := by
  rw [revoke]
  cases hfind : b.leases.find? id with
  | none =>
    split_ifs with hk
    · rw [hk, hfind]
      rfl
    · rfl
  | some p =>
    show (b.leases.insert id (p.1, .revoked)).find? k = _
    rw [OrdMap.find?_insert]
    split_ifs with hk
    · rw [hk, hfind]
      rfl
    · rfl

theorem foldl_revoke (ids : List String) : ∀ b : CredentialBroker,
    (ids.foldl revoke b).secrets = b.secrets ∧ (ids.foldl revoke b).counter = b.counter ∧
      ∀ k, (ids.foldl revoke b).leases.find? k =
        if k ∈ ids then (b.leases.find? k).map (fun p => (p.1, .revoked)) else b.leases.find? k := by
  induction ids with
  | nil => exact fun b => ⟨rfl, rfl, fun k => rfl⟩
  | cons id ids ih =>
    intro b
    obtain ⟨hsecrets, hcounter, hfind⟩ := ih (b.revoke id)
    obtain ⟨hsecrets₁, hcounter₁⟩ := revoke_frame b id
    refine ⟨hsecrets.trans hsecrets₁, hcounter.trans hcounter₁, fun k => ?_⟩
    rw [foldl_cons, hfind, find?_revoke]
    by_cases hk : k = id
    · rw [if_pos hk, if_pos (mem_cons.mpr (.inl hk)), Option.map_map]
      split_ifs
      · rfl
      · rfl
    · rw [if_neg hk]
      simp only [mem_cons, hk, false_or]

end CredentialBroker

open CredentialBroker

theorem secrets_step (b : CredentialBroker) (c : Call) (id : String) :
    (step b c).1.secrets.find? id = (c.registers id).or (b.secrets.find? id) := by
  cases c with
  | register task name value =>
    show (b.secrets.insert _ _).find? id = _
    rw [OrdMap.find?_insert, Call.registers]
    split_ifs
    · rfl
    · rfl
  | issueLease ref task generation scopes ttl now =>
    show (b.issueLease ref task generation scopes ttl now).1.secrets.find? id = _
    rw [issueLease]
    split_ifs
    · rfl
    · rfl
  | materialize it now handle task generation scope =>
    show (b.materialize it now handle task generation scope).1.secrets.find? id = _
    rw [materialize]
    repeat' split
    all_goals rfl
  | revoke leaseId =>
    show (b.revoke leaseId).secrets.find? id = _
    rw [(revoke_frame b leaseId).1]
    rfl
  | revokeTask it task =>
    show (List.foldl revoke b _).secrets.find? id = _
    rw [(foldl_revoke _ b).1]
    rfl

variable {c : Call}

/-- What a call other than an issue does to the leases. -/
theorem leases_step (hstored : ∀ id l s, b.leases.find? id = some (l, s) → id = l.leaseId)
    (hc : ∀ ref task generation scopes ttl now,
      c ≠ .issueLease ref task generation scopes ttl now) :
    (step b c).1.counter = b.counter ∧ ∀ id, (step b c).1.leases.find? id
      = (b.leases.find? id).map (fun p => (p.1, if Revokes p.1 c then .revoked else p.2)) := by
  have hself : ∀ id, b.leases.find? id = (b.leases.find? id).map (fun p => (p.1, p.2)) :=
    fun id => Option.map_id'.symm
  cases c with
  | register task name value => exact ⟨rfl, hself⟩
  | issueLease ref task generation scopes ttl now => exact absurd rfl (hc _ _ _ _ _ _)
  | materialize it now handle task generation scope =>
    suffices h : (b.materialize it now handle task generation scope).1.counter = b.counter ∧
        (b.materialize it now handle task generation scope).1.leases = b.leases from
      ⟨h.1, fun id => (congrArg (OrdMap.find? · id) h.2).trans (hself id)⟩
    rw [materialize]
    repeat' split
    all_goals exact ⟨rfl, rfl⟩
  | revoke leaseId =>
    refine ⟨(revoke_frame b leaseId).2, fun id => ?_⟩
    show (b.revoke leaseId).leases.find? id = _
    rw [find?_revoke]
    cases hfind : b.leases.find? id with
    | none => exact ite_self _
    | some p =>
      have hid : id = p.1.leaseId := hstored id p.1 p.2 hfind
      rw [hid]
      show _ = some (p.1, if p.1.leaseId = leaseId then _ else _)
      split_ifs
      · rfl
      · rfl
  | revokeTask it task =>
    obtain ⟨-, hcounter, hfind⟩ := foldl_revoke
      (((it.entries b.leases).filter (fun e => e.2.1.task = task)).map Prod.fst) b
    refine ⟨hcounter, fun id => (hfind id).trans ?_⟩
    have hmem : ∀ p, b.leases.find? id = some p →
        (id ∈ ((it.entries b.leases).filter (fun e => e.2.1.task = task)).map Prod.fst ↔
          p.1.task = task) := by
      intro p hp
      simp only [mem_map, mem_filter, decide_eq_true_eq, (it.perm _).mem_iff]
      constructor
      · rintro ⟨⟨k, q⟩, ⟨hq, htask⟩, rfl⟩
        rw [OrdMap.mem_entries, hp] at hq
        exact (Option.some.inj hq) ▸ htask
      · exact fun htask => ⟨(id, p), ⟨OrdMap.mem_entries.mpr hp, htask⟩, rfl⟩
    cases hp : b.leases.find? id with
    | none => exact ite_self _
    | some p =>
      show _ = some (p.1, if p.1.task = task then _ else _)
      by_cases htask : p.1.task = task
      · rw [if_pos ((hmem p hp).mpr htask), if_pos htask]
        rfl
      · rw [if_neg (mt (hmem p hp).mp htask), if_neg htask]

/-! ### What the broker knows of a run -/

structure Inv (tr : List (Call × Answer)) (b : CredentialBroker) : Prop where
  values : ∀ id, b.secrets.find? id = lastRegistered tr id
  stored : ∀ id l s, b.leases.find? id = some (l, s) → id = l.leaseId ∧ ∃ e ∈ tr, Issues l e
  live : ∀ l, b.leases.find? l.leaseId = some (l, .live) ↔ Stands tr l
  named : ∀ l, (∃ e ∈ tr, Issues l e) → ∃ n ≤ b.counter, l.leaseId = leaseName n

/-- A call that issues nothing. -/
theorem Inv.keep (h : Inv tr b) {b' : CredentialBroker} {a : Answer}
    (hnone : ∀ l, ¬ Issues l (c, a)) (hvalues : ∀ id, b'.secrets.find? id
      = (c.registers id).or (b.secrets.find? id)) (hleases : b'.counter = b.counter ∧
      ∀ id, b'.leases.find? id
        = (b.leases.find? id).map (fun p => (p.1, if Revokes p.1 c then .revoked else p.2))) :
    Inv (tr ++ [(c, a)]) b' := by
  obtain ⟨hcounter, hleases⟩ := hleases
  refine ⟨fun id => ?_, fun id l s hfind => ?_, fun l => ?_, fun l hl => ?_⟩
  · rw [hvalues, lastRegistered_concat, h.values]
  · rw [hleases] at hfind
    obtain ⟨p, hp, heq⟩ := Option.map_eq_some_iff.mp hfind
    obtain ⟨rfl, -⟩ := Prod.mk.inj heq
    obtain ⟨hid, hissued⟩ := h.stored id p.1 p.2 hp
    exact ⟨hid, exists_concat.mpr (.inl hissued)⟩
  · rw [hleases, stands_concat, ← h.live l, Option.map_eq_some_iff]
    constructor
    · rintro ⟨p, hp, heq⟩
      obtain ⟨rfl, hstate⟩ := Prod.mk.inj heq
      split_ifs at hstate with hrevokes
      exact .inr ⟨hp.trans (by rw [← hstate]), hrevokes⟩
    · rintro (hl | ⟨hp, hrevokes⟩)
      · exact absurd hl (hnone l)
      · exact ⟨_, hp, by rw [if_neg hrevokes]⟩
  · rw [hcounter]
    exact h.named l ((exists_concat.mp hl).resolve_right (hnone l))

/-- A lease is issued under a new name. -/
theorem Inv.issue (h : Inv tr b) {lease : CredentialLease}
    (hid : lease.leaseId = leaseName (b.counter + 1)) (hc : ∀ id, c.registers id = none)
    (hrevokes : ∀ l, ¬ Revokes l c)
    (hissues : ∀ l, Issues l (c, .leased (.ok lease)) ↔ l = lease) :
    Inv (tr ++ [(c, .leased (.ok lease))])
      ({ b with
          counter := b.counter + 1
          leases := b.leases.insert lease.leaseId (lease, .live) }.note "issue" lease) := by
  have hnew : ∀ l, (∃ e ∈ tr, Issues l e) → l.leaseId ≠ lease.leaseId := by
    intro l hl heq
    obtain ⟨n, hn, hname⟩ := h.named l hl
    have := leaseName_inj (hname.symm.trans (heq.trans hid))
    omega
  refine ⟨fun id => ?_, fun id l s hfind => ?_, fun l => ?_, fun l hl => ?_⟩
  · rw [lastRegistered_concat, hc]
    exact h.values id
  · change (b.leases.insert _ _).find? id = _ at hfind
    rw [OrdMap.find?_insert] at hfind
    rw [exists_concat, hissues]
    split_ifs at hfind with hk
    · cases hfind
      exact ⟨hk, .inr rfl⟩
    · exact ⟨(h.stored id l s hfind).1, .inl (h.stored id l s hfind).2⟩
  · show (b.leases.insert _ _).find? _ = _ ↔ _
    rw [OrdMap.find?_insert, stands_concat, hissues]
    split_ifs with hk
    · constructor
      · exact fun heq => .inl (Prod.mk.inj (Option.some.inj heq)).1.symm
      · rintro (rfl | ⟨hst, -⟩)
        · rfl
        · exact absurd hk (hnew l hst.issued)
    · rw [h.live l]
      constructor
      · exact fun hst => .inr ⟨hst, hrevokes l⟩
      · rintro (rfl | ⟨hst, -⟩)
        · exact absurd rfl hk
        · exact hst
  · rcases exists_concat.mp hl with hl | hl
    · obtain ⟨n, hn, hname⟩ := h.named l hl
      exact ⟨n, Nat.le_succ_of_le hn, hname⟩
    · exact ⟨_, Nat.le_refl _, (hissues l).mp hl ▸ hid⟩

theorem Inv.step (h : Inv tr b) (c : Call) : Inv (tr ++ [(c, (step b c).2)]) (step b c).1 := by
  have hstored : ∀ id l s, b.leases.find? id = some (l, s) → id = l.leaseId :=
    fun id l s hfind => (h.stored id l s hfind).1
  have hsecrets := secrets_step b c
  cases c with
  | issueLease ref task generation scopes ttl now =>
    rw [Credentials.step, issueLease] at hsecrets ⊢
    split_ifs at hsecrets ⊢ with hmissing
    · exact h.keep (fun l hl => hl) hsecrets ⟨rfl, fun id => Option.map_id'.symm⟩
    · refine h.issue rfl (fun _ => rfl) (fun _ hl => hl) (fun l => ⟨fun hl => hl.1, ?_⟩)
      rintro rfl
      exact ⟨rfl, rfl, rfl, rfl, rfl, rfl⟩
  | _ => exact h.keep (fun l hl => hl) hsecrets (leases_step hstored (by intros; exact nofun))

theorem inv_run (calls : List Call) : Inv (exchanges step .new calls) (run step .new calls) := by
  induction calls using List.reverseRecOn with
  | nil =>
    have hnone : ∀ l, ¬ ∃ e ∈ exchanges step .new [], Issues l e := by
      rintro l ⟨e, he, -⟩
      cases he
    refine ⟨fun _ => rfl, fun _ _ _ h => (by cases h), fun l => ?_, fun l h => absurd h (hnone l)⟩
    exact iff_of_false (fun h => (by cases h)) (fun h => hnone l h.issued)
  | append_singleton calls c ih =>
    rw [exchanges_concat, run_append]
    exact ih.step c

theorem mem_iteration {it : Iteration} {m : Leases} {p : CredentialLease × LeaseState} :
    p ∈ (it.entries m).map Prod.snd ↔ ∃ id, m.find? id = some p := by
  simp only [mem_map, (it.perm _).mem_iff, Prod.exists, OrdMap.mem_entries, exists_eq_right]

section Release

variable {it : Iteration} {now generation : Nat} {handle task : String} {scope : CredScope}
  {v : List UInt8}

theorem Inv.entitled (h : Inv tr b)
    (hr : (b.materialize it now handle task generation scope).2 = .ok v) :
    Entitled tr now handle task generation scope v := by
  rw [materialize] at hr
  split at hr
  · cases hr
  · next lease state hfind =>
    obtain ⟨id, hid⟩ := mem_iteration.mp (mem_of_find?_eq_some hfind)
    obtain ⟨rfl, -⟩ := h.stored id lease state hid
    have hhandle : lease.handle = handle := by simpa using find?_some hfind
    split_ifs at hr with hstate hlife htask hgeneration hscope
    split at hr
    · cases hr
    · next value hvalue =>
      cases hr
      refine ⟨lease, (h.live lease).mp ?_, hhandle, Nat.not_le.mp hlife, not_not.mp htask,
        Nat.not_lt.mp hgeneration, hscope, (h.values _).symm.trans hvalue⟩
      cases state with
      | live => exact hid
      | revoked => exact absurd rfl hstate

theorem Inv.released (h : Inv tr b) (hapart : HandlesApart tr)
    (he : Entitled tr now handle task generation scope v) :
    (b.materialize it now handle task generation scope).2 = .ok v := by
  obtain ⟨l, hst, rfl, hlife, rfl, hgeneration, hscope, hvalue⟩ := he
  have hlive := (h.live l).mpr hst
  have hfind : ((it.entries b.leases).map Prod.snd).find? (fun e => e.1.handle = l.handle)
      = some (l, .live) := by
    cases hf : ((it.entries b.leases).map Prod.snd).find? (fun e => e.1.handle = l.handle) with
    | none =>
      have := find?_eq_none.mp hf _ (mem_iteration.mpr ⟨_, hlive⟩)
      exact absurd (decide_eq_true rfl) this
    | some p =>
      obtain ⟨id, hid⟩ := mem_iteration.mp (mem_of_find?_eq_some hf)
      obtain ⟨hkey, hissued⟩ := h.stored id p.1 p.2 hid
      have hhandle : p.1.handle = l.handle := by simpa using find?_some hf
      have hsame := hapart p.1 l hissued hst.issued hhandle
      rw [hkey, hsame, hlive] at hid
      exact hid.symm
  rw [materialize, hfind]
  dsimp only
  rw [if_neg (by decide), if_neg (Nat.not_le.mpr hlife), if_neg (not_not.mpr rfl),
    if_neg (Nat.not_lt.mpr hgeneration), if_neg (not_not.mpr hscope), h.values, hvalue]

end Release

/-- **A value is released to a task only under a standing lease of its own**, for its life, its
generation and its scopes, and it is the one registered last; where no two leases have one handle,
such a lease is honoured. -/
theorem released_iff (calls : List Call) (it : Iteration) (now : Nat) (handle task : String)
    (generation : Nat) (scope : CredScope) (v : List UInt8) :
    let released := ((run step .new calls).materialize it now handle task generation scope).2 = .ok v
    (released → Entitled (exchanges step .new calls) now handle task generation scope v) ∧
      (HandlesApart (exchanges step .new calls) →
        Entitled (exchanges step .new calls) now handle task generation scope v → released) :=
  ⟨(inv_run calls).entitled, (inv_run calls).released⟩

/-! ### The emergency stop -/

theorem entitled_revokeTask {it : Iteration} {now generation : Nat} {handle task stopped : String}
    {scope : CredScope} {v : List UInt8} :
    Entitled (tr ++ [(.revokeTask it stopped, .done)]) now handle task generation scope v ↔
      task ≠ stopped ∧ Entitled tr now handle task generation scope v := by
  have hstanding : ∀ l, Stands (tr ++ [(.revokeTask it stopped, .done)]) l ↔
      Stands tr l ∧ l.task ≠ stopped := fun l => by
    rw [stands_concat]
    exact or_iff_right id
  have hvalue : ∀ id, lastRegistered (tr ++ [(.revokeTask it stopped, .done)]) id
      = lastRegistered tr id := fun id => by
    rw [lastRegistered_concat]
    rfl
  constructor
  · rintro ⟨l, hst, hhandle, hlife, rfl, hgeneration, hscope, hv⟩
    obtain ⟨hst, hother⟩ := (hstanding l).mp hst
    exact ⟨hother, l, hst, hhandle, hlife, rfl, hgeneration, hscope, (hvalue _).symm.trans hv⟩
  · rintro ⟨hother, l, hst, hhandle, hlife, rfl, hgeneration, hscope, hv⟩
    exact ⟨l, (hstanding l).mpr ⟨hst, hother⟩, hhandle, hlife, rfl, hgeneration, hscope,
      (hvalue _).trans hv⟩

/-- **An emergency stop ends the authority of its task and of no other.** -/
theorem revokeTask_exact {calls : List Call} (hapart : HandlesApart (exchanges step .new calls))
    (it it' : Iteration) (stopped : String) (now : Nat) (handle task : String) (generation : Nat)
    (scope : CredScope) (v : List UInt8) :
    ((run step .new (calls ++ [.revokeTask it' stopped])).materialize it now handle task generation
        scope).2 = .ok v ↔
      task ≠ stopped ∧
        ((run step .new calls).materialize it now handle task generation scope).2 = .ok v := by
  have hconcat : exchanges step .new (calls ++ [.revokeTask it' stopped])
      = exchanges step .new calls ++ [(.revokeTask it' stopped, .done)] := exchanges_concat _ _ _
  have hapart' : HandlesApart (exchanges step .new (calls ++ [.revokeTask it' stopped])) := by
    intro l l' hl hl'
    rw [hconcat] at hl hl'
    exact hapart l l' ((exists_concat.mp hl).resolve_right id) ((exists_concat.mp hl').resolve_right id)
  have hinv := inv_run calls
  have hinv' := inv_run (calls ++ [.revokeTask it' stopped])
  rw [hconcat] at hinv' hapart'
  constructor
  · intro h
    obtain ⟨hother, hentitled⟩ := entitled_revokeTask.mp (hinv'.entitled h)
    exact ⟨hother, hinv.released hapart hentitled⟩
  · rintro ⟨hother, h⟩
    exact hinv'.released hapart' (entitled_revokeTask.mpr ⟨hother, hinv.entitled h⟩)

/-- The order of the map itself. -/
def Iteration.sorted : Iteration := ⟨OrdMap.entries, fun _ => .refl _⟩

def twoLeases : List Call :=
  [.register "a" "key" [1], .register "b" "key" [2],
    .issueLease ⟨secretId "a" "key" [1], "key"⟩ "a" 1 [.procEnv] 10 0,
    .issueLease ⟨secretId "b" "key" [2], "key"⟩ "b" 1 [.procEnv] 10 0]

/-- Where nothing was revoked the broker has the leases that were issued. -/
theorem apart_of_leases {calls : List Call} (hnone : ∀ c ∈ calls, ∀ l, ¬ Revokes l c)
    (h : ∀ p ∈ (run step .new calls).leases.entries, ∀ q ∈ (run step .new calls).leases.entries,
      p.2.1.handle = q.2.1.handle → p.2.1 = q.2.1) : HandlesApart (exchanges step .new calls) := by
  have hstored : ∀ {l}, (∃ e ∈ exchanges step .new calls, Issues l e) →
      (l.leaseId, l, .live) ∈ (run step .new calls).leases.entries := by
    rintro l ⟨e, he, hissues⟩
    obtain ⟨before, after, htr⟩ := append_of_mem he
    have hkept : ∀ e' ∈ after, ¬ Revokes l e'.1 := fun e' he' =>
      hnone _ (of_mem_zip (htr ▸ mem_append_right _ (mem_cons_of_mem _ he') :
        e' ∈ exchanges step .new calls)).1 l
    exact OrdMap.mem_entries.mpr (((inv_run calls).live l).mpr ⟨before, e, after, htr, hissues, hkept⟩)
  exact fun l l' hl hl' hhandle => h _ (hstored hl) _ (hstored hl') hhandle

theorem apart_twoLeases : HandlesApart (exchanges step .new twoLeases) :=
  apart_of_leases (by simp [twoLeases, Revokes]) (by decide +kernel)

theorem entitled_twoLeases : Entitled (exchanges step .new twoLeases) 9 (handleOf (leaseName 2) "b")
    "b" 1 .procEnv [2] := by
  refine ⟨⟨leaseName 2, handleOf (leaseName 2) "b", "b", 1, secretId "b" "key" [2], [.procEnv], 10⟩,
    ((inv_run twoLeases).live _).mp (by decide +kernel), rfl, by decide, rfl, Nat.le_refl 1,
    mem_singleton_self _, ?_⟩
  rw [← (inv_run twoLeases).values]
  decide +kernel

/-- Two tasks, each with a lease of its own. -/
theorem released_iff_twoLeases :
    ((run step .new twoLeases).materialize .sorted 9 (handleOf (leaseName 2) "b") "b" 1 .procEnv).2
      = .ok [2] ∧
    Entitled (exchanges step .new twoLeases) 9 (handleOf (leaseName 1) "a") "a" 1 .procEnv [1] :=
  ⟨(released_iff twoLeases _ _ _ _ _ _ _).2 apart_twoLeases entitled_twoLeases,
    (released_iff twoLeases .sorted _ _ _ _ _ _).1 (by decide +kernel)⟩

theorem revokeTask_exact_twoLeases :
    ((run step .new (twoLeases ++ [.revokeTask .sorted "a"])).materialize .sorted 9
      (handleOf (leaseName 2) "b") "b" 1 .procEnv).2 = .ok [2] ∧
    ∀ v, ((run step .new (twoLeases ++ [.revokeTask .sorted "a"])).materialize .sorted 9
      (handleOf (leaseName 1) "a") "a" 1 .procEnv).2 ≠ .ok v :=
  ⟨(revokeTask_exact apart_twoLeases _ _ _ _ _ _ _ _ _).mpr ⟨by decide, by decide +kernel⟩,
    fun _ h => ((revokeTask_exact apart_twoLeases _ _ _ _ _ _ _ _ _).mp h).1 rfl⟩

end Modbit.Credentials
