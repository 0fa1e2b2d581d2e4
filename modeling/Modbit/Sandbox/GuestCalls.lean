import Modbit.Lib.Window
import Modbit.Sandbox.GuestExecutor
import Mathlib.Logic.Relation

/-!
# Interleaved calls on a guest

Each connection of the guest agent has a thread that calls `execute`.  The replay cache, the
session, the registered processes and the terminal broker have a lock each, and no call holds a
lock from one of its parts to the next.  `turn` is one such part, `Phase` says which one comes
next, and a `World` is a guest with its calls, in any order of turns.

`runs_execute`: a call whose turns are not interrupted does what `execute` does.

Only there to be talked about: `returned` has the targets of the advances that have returned, and
`log` which operations were begun and which ids have left the replay window since, evicted or
answered by what is never cached.
-/

namespace Modbit.Sandbox

open Lib

inductive Phase where
  | lookup
  | readGeneration
  | advance
  | fencing
  | gate
  | dispatch
  | spawned (procId : String) (run : ProgramRun)
  | waiting (procId : String) (run : ProgramRun)
  | insert (response : GuestResponse)
  | answered (response : Option GuestResponse)

namespace GuestExecutor

variable (e : GuestExecutor) (o : Outside) (req : GuestRequest)

/-- The first part of an operation: of `proc.exec` the start of the process, of any other the
whole operation. -/
def beginOp : GuestExecutor × Phase :=
  let e := e.perform req
  match req.op with
  | .procExec argv cwd env timeoutMs =>
    match e.startProc o req.generation argv cwd env timeoutMs with
    | (e, .error error) => (e, .insert (.of req.requestId (.error error)))
    | (e, .ok (procId, run)) => (e, .spawned procId run)
  | _ =>
    match e.carryOut o req with
    | (e, none) => (e, .answered none)
    | (e, some result) => (e, .insert (.of req.requestId result))

def turn : Phase → GuestExecutor × Phase
  | .lookup =>
    match e.cache.get req.requestId with
    | some cached => (e, .answered (some cached))
    | none => (e, .readGeneration)
  | .readGeneration => (e, if e.session.generation < req.generation then .advance else .gate)
  | .advance =>
    if req.generation ≤ e.session.generation then (e, .dispatch)
    else (e.setGeneration req.generation, .fencing)
  | .fencing => (e.fence req.generation, .dispatch)
  | .gate =>
    match Sandbox.gate e.session req with
    | .error error => (e, .answered (some ⟨req.requestId, .err error⟩))
    | .ok () => (e, .dispatch)
  | .dispatch => e.beginOp o req
  | .spawned procId run => (e.register procId req.generation, .waiting procId run)
  | .waiting procId run =>
    let done := e.endChild procId run
    (done.1, .insert (.of req.requestId done.2))
  | .insert response => (e.remember response req.requestId, .answered (some response))
  | .answered response => (e, .answered response)

/-! ### A call alone -/

def Runs (o : Outside) (req : GuestRequest) : GuestExecutor × Phase → GuestExecutor × Phase → Prop :=
  Relation.ReflTransGen (fun s s' => s.1.turn o req s.2 = s')

variable {e o req}

theorem Runs.next {s s' s'' : GuestExecutor × Phase} (hturn : s.1.turn o req s.2 = s')
    (h : Runs o req s' s'') : Runs o req s s'' := .head hturn h

theorem runs_insert (response : GuestResponse) :
    Runs o req (e, .insert response)
      (e.remember response req.requestId, .answered (some response)) := .single rfl

/-- What is not `proc.exec` is carried out in one turn. -/
theorem beginOp_of_ne (h : ∀ argv cwd env timeoutMs, req.op ≠ .procExec argv cwd env timeoutMs) :
    e.beginOp o req =
      match (e.perform req).carryOut o req with
      | (e, none) => (e, .answered none)
      | (e, some result) => (e, .insert (.of req.requestId result)) := by
  rw [beginOp]
  split
  · next argv cwd env timeoutMs hop => exact absurd hop (h argv cwd env timeoutMs)
  · rfl

theorem runs_dispatch :
    Runs o req (e, .dispatch) ((e.dispatchAndCache o req).1, .answered (e.dispatchAndCache o req).2) := by
  by_cases hexec : ∃ argv cwd env timeoutMs, req.op = .procExec argv cwd env timeoutMs
  · obtain ⟨argv, cwd, env, timeoutMs, hop⟩ := hexec
    have hturn : e.turn o req .dispatch = e.beginOp o req := rfl
    rw [beginOp, hop] at hturn
    rw [dispatchAndCache, dispatch, carryOut, hop]
    dsimp only at hturn ⊢
    rw [procExec]
    cases hstart : (e.perform req).startProc o req.generation argv cwd env timeoutMs with
    | mk e' result =>
      rw [hstart] at hturn
      cases result with
      | error error => exact .next hturn (runs_insert _)
      | ok started =>
        obtain ⟨procId, run⟩ := started
        exact .next hturn (.next rfl (.next rfl (runs_insert _)))
  · have hturn : e.turn o req .dispatch = e.beginOp o req := rfl
    rw [beginOp_of_ne (fun argv cwd env timeoutMs hop => hexec ⟨argv, cwd, env, timeoutMs, hop⟩)]
      at hturn
    rw [dispatchAndCache, dispatch]
    cases hdone : (e.perform req).carryOut o req with
    | mk e' result =>
      rw [hdone] at hturn
      cases result with
      | none => exact .single hturn
      | some result => exact .next hturn (runs_insert _)

/-- **A call whose turns are not interrupted does what `execute` does.** -/
theorem runs_execute (e : GuestExecutor) (o : Outside) (req : GuestRequest) :
    Runs o req (e, .lookup) ((e.execute o req).1, .answered (e.execute o req).2) := by
  have hlookup : e.turn o req .lookup =
      match e.cache.get req.requestId with
      | some cached => (e, .answered (some cached))
      | none => (e, .readGeneration) := rfl
  have hread : e.turn o req .readGeneration =
      (e, if e.session.generation < req.generation then .advance else .gate) := rfl
  have hgate : e.turn o req .gate =
      match Sandbox.gate e.session req with
      | .error error => (e, .answered (some ⟨req.requestId, .err error⟩))
      | .ok () => (e, .dispatch) := rfl
  rw [execute]
  cases hcache : e.cache.get req.requestId with
  | some cached =>
    rw [hcache] at hlookup
    exact .single hlookup
  | none =>
    rw [hcache] at hlookup
    refine .next hlookup ?_
    by_cases hnew : e.session.generation < req.generation
    · rw [if_pos hnew] at hread
      rw [if_pos hnew]
      have hset : e.turn o req .advance = (e.setGeneration req.generation, .fencing) := by
        rw [turn, if_neg (Nat.not_le.mpr hnew)]
      refine .next hread (.next hset (.next rfl ?_))
      rw [advanceGeneration, if_neg (Nat.not_le.mpr hnew)]
      exact runs_dispatch
    · rw [if_neg hnew] at hread
      rw [if_neg hnew]
      refine .next hread ?_
      cases hg : Sandbox.gate e.session req with
      | error error =>
        rw [hg] at hgate
        exact .single hgate
      | ok _ =>
        rw [hg] at hgate
        exact .next hgate runs_dispatch

end GuestExecutor

/-! ### Worlds -/

/-- Where a call of `advance_generation` stands. -/
inductive AdvancePhase where
  | start
  | fencing
  | returned
  deriving DecidableEq

structure World where
  guest : GuestExecutor
  calls : List (GuestRequest × Phase)
  advances : List (Nat × AdvancePhase)
  returned : List Nat
  log : List (Window.Note String)

inductive Event where
  | deliver (req : GuestRequest)
  | turn (i : Nat) (o : Outside)
  | advance (target : Nat)
  | advanceTurn (i : Nat)
  | revokeToken (token : String)
  /-- A process ends by itself. -/
  | ended (procId : String)
  /-- A terminal session writes, or its program ends. -/
  | ptyOutput (ptyId : String) (bytes : List UInt8) (alive : Bool)
  /-- What runs on the machine changes the file tree. -/
  | files (tree : FileTree)

def IdempotencyCache.lost (c c' : IdempotencyCache) : List String :=
  c.map.keys.filter (fun id => (c'.map.find? id).isNone)

namespace World

def returns (e : GuestExecutor) (req : GuestRequest) : Phase → List Nat
  | .advance => if req.generation ≤ e.session.generation then [req.generation] else []
  | .fencing => [req.generation]
  | _ => []

def notes (e : GuestExecutor) (o : Outside) (req : GuestRequest) : Phase → List (Window.Note String)
  | .dispatch =>
    .performed req.requestId ::
      match (e.beginOp o req).2 with
      | .answered _ => [.left req.requestId]
      | _ => []
  | .insert response =>
    if GuestExecutor.isFence response then [.left req.requestId]
    else (e.cache.lost (e.remember response req.requestId).cache).map .left
  | _ => []

/-- A turn of a call of `advance_generation`. -/
def advanceTurn (w : World) (i target : Nat) : AdvancePhase → World
  | .start =>
    if target ≤ w.guest.session.generation then
      { w with advances := w.advances.set i (target, .returned), returned := w.returned ++ [target] }
    else
      { w with
        guest := w.guest.setGeneration target
        advances := w.advances.set i (target, .fencing) }
  | .fencing =>
    { w with
      guest := w.guest.fence target
      advances := w.advances.set i (target, .returned)
      returned := w.returned ++ [target] }
  | .returned => w

/-- The output of a session grows; one that has ended does not come back. -/
def ptyOutput (e : GuestExecutor) (ptyId : String) (bytes : List UInt8) (alive : Bool) :
    GuestExecutor :=
  { e with machine.pty.sessions := e.machine.pty.sessions.filterMap (fun id session =>
      some (if id = ptyId then
        { session with output := session.output ++ bytes, alive := session.alive && alive }
      else session)) }

def step (w : World) : Event → World × Unit
  | .deliver req => ({ w with calls := w.calls ++ [(req, .lookup)] }, ())
  | .turn i o =>
    match w.calls[i]? with
    | none => (w, ())
    | some (req, phase) =>
      let done := w.guest.turn o req phase
      ({ w with
          guest := done.1
          calls := w.calls.set i (req, done.2)
          returned := w.returned ++ returns w.guest req phase
          log := w.log ++ notes w.guest o req phase }, ())
  | .advance target => ({ w with advances := w.advances ++ [(target, .start)] }, ())
  | .advanceTurn i =>
    match w.advances[i]? with
    | none => (w, ())
    | some (target, phase) => (w.advanceTurn i target phase, ())
  | .revokeToken token => ({ w with guest := w.guest.revokeToken token }, ())
  | .ended procId => ({ w with guest := w.guest.stopChild procId }, ())
  | .ptyOutput ptyId bytes alive => ({ w with guest := ptyOutput w.guest ptyId bytes alive }, ())
  | .files tree => ({ w with guest := { w.guest with machine.tree := tree } }, ())

def start (e : GuestExecutor) : World := ⟨e, [], [], [], []⟩

end World

end Modbit.Sandbox
