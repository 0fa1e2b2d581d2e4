import Modbit.Lib.Run
import Modbit.Sandbox.GuestExecutor

/-!
# The authority of requests

Every request is meant to pass the gate before anything executes.  `execute` has three ways
through: an id that is in the replay cache is answered from it, a request of a newer generation
advances the session and is carried out, and only what is left goes through the gate.

`authorized_iff` says for every history of requests, revocations and advances which steps break
this: those of a request that the gate would refuse and whose id is cached with a payload, or
is not cached while its generation is newer than the session's.
-/

namespace Modbit.Sandbox

open Lib

namespace GuestExecutor

/-- A call on an executor, or a change made by what runs on its machine. -/
inductive GuestCall where
  | execute (o : Outside) (req : GuestRequest)
  | revokeToken (token : String)
  | advanceGeneration (target : Nat)
  | drift (tree : FileTree) (pty : PtyBroker)

def call (e : GuestExecutor) : GuestCall → GuestExecutor × Option GuestResponse
  | .execute o req => e.execute o req
  | .revokeToken token => (e.revokeToken token, none)
  | .advanceGeneration target => (e.advanceGeneration target, none)
  | .drift tree pty => ({ e with machine.tree := tree, machine.pty := pty }, none)

/-- A request runs its operation, advances the generation or is given a payload only if it
passes the gate, and one that the gate refuses gets an error and changes nothing. -/
def AuthorizedRequest (e : GuestExecutor) (o : Outside) (req : GuestRequest) : Prop :=
  let done := e.execute o req
  ((done.1.machine.performed ≠ e.machine.performed ∨
      done.1.session.generation ≠ e.session.generation ∨
      ∃ response payload, done.2 = some response ∧ response.outcome = .ok payload) →
    gate e.session req = .ok ()) ∧
  (gate e.session req ≠ .ok () →
    (∃ response error, done.2 = some response ∧ response.outcome = .err error) ∧
      done.1.machine = e.machine ∧ done.1.session = e.session)

def Authorized (e : GuestExecutor) : GuestCall → Prop
  | .execute o req => e.AuthorizedRequest o req
  | _ => True

/-- The gate lets the request pass, or its id is cached with an error, or its id is not cached
and its generation is not newer. -/
def GuardedRequest (e : GuestExecutor) (req : GuestRequest) : Prop :=
  gate e.session req = .ok () ∨
    match e.cache.get req.requestId with
    | some cached => ∃ error, cached.outcome = .err error
    | none => req.generation ≤ e.session.generation

def Guarded (e : GuestExecutor) : GuestCall → Prop
  | .execute _ req => e.GuardedRequest req
  | _ => True

variable {e : GuestExecutor} {o : Outside} {req : GuestRequest}

/-! ### The three ways -/

theorem execute_cached {cached : GuestResponse} (h : e.cache.get req.requestId = some cached) :
    e.execute o req = (e, some cached) := by
  rw [execute, h]

theorem execute_refused {error : GuestError} (hmiss : e.cache.get req.requestId = none)
    (hnew : req.generation ≤ e.session.generation) (hgate : gate e.session req = .error error) :
    e.execute o req = (e, some ⟨req.requestId, .err error⟩) := by
  rw [execute, hmiss]
  rw [if_neg (Nat.not_lt.mpr hnew), hgate]

theorem execute_newer (hmiss : e.cache.get req.requestId = none)
    (hnew : e.session.generation < req.generation) :
    e.execute o req = (e.advanceGeneration req.generation).dispatchAndCache o req := by
  rw [execute, hmiss]
  rw [if_pos hnew]

theorem performed_dispatchAndCache (e : GuestExecutor) (o : Outside) (req : GuestRequest) :
    (e.dispatchAndCache o req).1.machine.performed = e.machine.performed ++ [req] := by
  have hframe := (frame_carryOut (e := e.perform req) o req).performed
  rw [dispatchAndCache, dispatch]
  cases ((e.perform req).carryOut o req).2 with
  | none => exact hframe
  | some result =>
    dsimp only [Option.map_some]
    rw [remember]
    split
    · exact hframe
    · exact hframe

theorem performed_advanceGeneration (e : GuestExecutor) (target : Nat) :
    (e.advanceGeneration target).machine.performed = e.machine.performed := by
  rw [advanceGeneration]
  split
  · rfl
  · rfl

theorem performed_newer (hmiss : e.cache.get req.requestId = none)
    (hnew : e.session.generation < req.generation) :
    (e.execute o req).1.machine.performed = e.machine.performed ++ [req] := by
  rw [execute_newer hmiss hnew, performed_dispatchAndCache, performed_advanceGeneration]

/-! ### One step -/

theorem guarded_of_authorized (h : e.AuthorizedRequest o req) : e.GuardedRequest req := by
  by_cases hgate : gate e.session req = .ok ()
  · exact Or.inl hgate
  refine Or.inr ?_
  cases hcache : e.cache.get req.requestId with
  | some cached =>
    dsimp only
    cases hout : cached.outcome with
    | err error => exact ⟨error, rfl⟩
    | ok payload =>
      have hpayload := h.1 (Or.inr (Or.inr ⟨cached, payload, by rw [execute_cached hcache], hout⟩))
      exact absurd hpayload hgate
  | none =>
    by_contra hnew
    have hrun : (e.execute o req).1.machine.performed ≠ e.machine.performed := by
      rw [performed_newer hcache (Nat.lt_of_not_le hnew)]
      simp
    exact hgate (h.1 (Or.inl hrun))

theorem authorized_of_guarded (h : e.GuardedRequest req) : e.AuthorizedRequest o req := by
  refine ⟨fun hacts => ?_, fun hgate => ?_⟩
  · by_contra hgate
    rcases h with hpass | hrest
    · exact hgate hpass
    cases hcache : e.cache.get req.requestId with
    | some cached =>
      rw [hcache] at hrest
      obtain ⟨error, herror⟩ := hrest
      rw [execute_cached hcache] at hacts
      rcases hacts with hrun | hgeneration | ⟨response, payload, hresponse, hpayload⟩
      · exact hrun rfl
      · exact hgeneration rfl
      · obtain rfl := Option.some.inj hresponse
        rw [herror] at hpayload
        cases hpayload
    | none =>
      rw [hcache] at hrest
      cases hg : gate e.session req with
      | ok _ => exact hgate hg
      | error error =>
        rw [execute_refused hcache hrest hg] at hacts
        rcases hacts with hrun | hgeneration | ⟨response, payload, hresponse, hpayload⟩
        · exact hrun rfl
        · exact hgeneration rfl
        · obtain rfl := Option.some.inj hresponse
          cases hpayload
  · rcases h with hpass | hrest
    · exact absurd hpass hgate
    cases hcache : e.cache.get req.requestId with
    | some cached =>
      rw [hcache] at hrest
      obtain ⟨error, herror⟩ := hrest
      rw [execute_cached hcache]
      exact ⟨⟨cached, error, rfl, herror⟩, rfl, rfl⟩
    | none =>
      rw [hcache] at hrest
      cases hg : gate e.session req with
      | ok _ => exact absurd hg hgate
      | error error =>
        rw [execute_refused hcache hrest hg]
        exact ⟨⟨_, error, rfl, rfl⟩, rfl, rfl⟩

/-! ### Histories -/

/-- **In a history of calls every request acts under the gate exactly when each one passes it,
has its id cached with an error, or is neither cached nor of a newer generation.** -/
theorem authorized_iff (e : GuestExecutor) (calls : List GuestCall) :
    Admits call Authorized e calls ↔ Admits call Guarded e calls := by
  refine admits_congr (fun e c => ?_) calls e
  cases c with
  | execute o req => exact ⟨guarded_of_authorized, authorized_of_guarded⟩
  | revokeToken token => exact Iff.rfl
  | advanceGeneration target => exact Iff.rfl
  | drift tree pty => exact Iff.rfl

/-- A guest of task `task-1` with one directory, `/w`, granted and one token. -/
def sampleGuest : GuestExecutor :=
  .new "task-1" ["tok"] ["/w"] ((FileTree.empty.createDirAll ["w"]).getD .empty) []

def still : Outside where
  uuid := "0"
  var := fun _ => none
  spawn := fun _ _ _ _ => .error "no such file"
  ptySpawn := fun _ _ _ _ => .error "no such file"
  ptyWrite := fun _ => .ok ()
  ioText := "no such file"
  base64Text := "invalid"

/-- A write for another task, with a token that is not live, in the name of a newer
generation. -/
def foreignWrite : GuestRequest :=
  ⟨"r-1", 1, "task-2", "none", "fs.read", 1, .fsWrite "/w/f" "AQ=="⟩

/-- The write is carried out and the session advances, although the gate refuses the request. -/
theorem foreign_request_performed :
    gate sampleGuest.session foreignWrite ≠ .ok () ∧
      (sampleGuest.execute still foreignWrite).2 = some ⟨"r-1", .ok .accepted⟩ ∧
      (sampleGuest.execute still foreignWrite).1.machine.tree.read ["w", "f"] = some [1] ∧
      (sampleGuest.execute still foreignWrite).1.session.generation = 1 ∧
      ¬ ∀ (e : GuestExecutor) (calls : List GuestCall), Admits call Authorized e calls := by
  have hgate : gate sampleGuest.session foreignWrite ≠ .ok () := by
    intro h
    cases h
  have hanswer : (sampleGuest.execute still foreignWrite).2 = some ⟨"r-1", .ok .accepted⟩ := by
    decide +kernel
  refine ⟨hgate, hanswer, by decide +kernel, by decide +kernel, fun h => ?_⟩
  have hstep := (h sampleGuest [.execute still foreignWrite]).1
  exact hgate (hstep.1 (Or.inr (Or.inr ⟨_, _, hanswer, rfl⟩)))

end GuestExecutor

end Modbit.Sandbox
