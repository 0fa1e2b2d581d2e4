import Modbit.Agent.TaskReads
import Modbit.Lib.Exclusion

/-!
# Run attempts

What the scheduler owes its tasks: an attempt starts only while the task is running, no
task has two attempts at once, and `run_task` starts no second one.

`Did` lists what a step can do, `did_next` that every step is one of these.  The claims
keep attempts apart in every interleaving (`claims_next`).  The rest depends on what
happens between the steps of a call: nobody looks at the state of the task, the look for
an earlier run comes before the claim, and an attempt whose start is not written is not
found.  `Guarded` rules these out, and `attempts_law` is the result over runs.
-/

namespace Modbit

open Lib List

def Phase.holds : Phase → Bool
  | .checked | .returned => false
  | .claimed | .prepared _ | .running | .ended _ => true

def Phase.waits : Phase → Bool
  | .claimed | .prepared _ => true
  | .checked | .running | .ended _ | .returned => false

/-- No attempt has been started, and none was turned away. -/
def Phase.going : Phase → Bool
  | .checked | .claimed | .prepared _ | .ended (.error _) => true
  | .running | .ended (.ok _) | .returned => false

/-- The lease of a call that is about to start its attempt. -/
def Phase.leased : Phase → Option (Option String)
  | .prepared lease => some lease
  | _ => none

namespace RunCall

def claimKey (c : RunCall) : String := c.taskId.toText

def Holds (c : RunCall) : Prop := c.phase.holds = true

def Waits (c : RunCall) : Prop := c.phase.waits = true

instance (c : RunCall) : Decidable c.Waits := inferInstanceAs (Decidable (_ = true))

theorem Waits.holds {c : RunCall} (h : c.Waits) : c.Holds := by
  rw [Waits] at h
  rw [Holds]
  cases hp : c.phase <;> rw [hp] at h <;> first | rfl | cases h

end RunCall

namespace Scheduler

variable {s : Scheduler} {m : Move} {i : Nat} {c : RunCall}

/-! ### What a step can do -/

inductive Did (s : Scheduler) : Move → Scheduler → Prop
  | idle (m : Move) : Did s m s
  | stored (op : Op) : Did s (.op op) (s.store op)
  /-- The poller, which was free, did something of its own. -/
  | polled (m : Move) (p : Poller) (hfree : s.busy = false) : Did s m { s with poller := p }
  | entered (m : Move) (c : RunCall) (p : Poller) (hphase : c.phase = .checked)
      (horigin : c.origin = .direct ∧ p = s.poller ∨ s.busy = false) :
      Did s m { s with calls := s.calls ++ [c], poller := p }
  | failed (t : TaskId) (e : RunError) (commandId message : String) (o : Oracle)
      (hfailing : s.poller.failing = some (t, e)) :
      Did s (.failTask commandId message o)
        { s.store (.execute (failCommand commandId message t) o) with
          poller := { s.poller with failing := none } }
  | turnedAway (i : Nat) (c : RunCall) (hc : s.calls[i]? = some c) (hphase : c.phase = .checked)
      (hheld : c.claimKey ∈ s.inFlight) : Did s (.claim i) (s.setPhase i .returned)
  | claimed (i : Nat) (c : RunCall) (hc : s.calls[i]? = some c) (hphase : c.phase = .checked)
      (hfree : c.claimKey ∉ s.inFlight) :
      Did s (.claim i) { s.setPhase i .claimed with inFlight := c.claimKey :: s.inFlight }
  | prepared (i : Nat) (c : RunCall) (result : Except String (Option (String × String)))
      (hc : s.calls[i]? = some c) (hphase : c.phase = .claimed) :
      Did s (.prepare i result) (s.prepare i c result)
  | started (i : Nat) (c : RunCall) (lease : Option String) (runId : RunId) (stamp : Stamp)
      (hc : s.calls[i]? = some c) (hphase : c.phase = .prepared lease) :
      Did s (.start i runId stamp) (s.start i c lease runId stamp)
  | finished (i : Nat) (c : RunCall) (outcome : RunOutcome) (commandId : String) (o : Oracle)
      (hc : s.calls[i]? = some c) (hphase : c.phase = .running) :
      Did s (.finish i outcome commandId o) (s.finish i c outcome commandId o)
  | released (i : Nat) (c : RunCall) (result : Except RunError Unit) (hc : s.calls[i]? = some c)
      (hphase : c.phase = .ended result) : Did s (.release i) (s.release i c result)
  | restarted : Did s .restart { s with inFlight := [], calls := [], poller := .start }

theorem afterReturn_eq (origin : Origin) (taskId : Option TaskId)
    (result : Except RunError Unit) :
    ∃ p, s.afterReturn origin taskId result = { s with poller := p } ∧
      (origin = .direct → p = s.poller) := by
  unfold afterReturn
  split
  · exact ⟨_, rfl, fun h => by cases h⟩
  · exact ⟨s.poller, rfl, fun _ => rfl⟩

theorem afterReturn_ok (origin : Origin) (taskId : Option TaskId) :
    s.afterReturn origin taskId (.ok ()) = s := by
  unfold afterReturn
  split
  · next h => cases h
  · rfl

theorem enter_eq (taskId : String) (resume : Bool) (origin : Origin) :
    ∃ p, (origin = .direct → p = s.poller) ∧
      (s.enter taskId resume origin = { s with poller := p } ∨
        p = s.poller ∧ ∃ c, c.phase = .checked ∧ c.origin = origin ∧
          s.enter taskId resume origin = { s with calls := s.calls ++ [c] }) := by
  have hback : ∀ (t : Option TaskId) (r : Except RunError Unit),
      ∃ p, (origin = .direct → p = s.poller) ∧
        (s.afterReturn origin t r = { s with poller := p } ∨
          p = s.poller ∧ ∃ c, c.phase = .checked ∧ c.origin = origin ∧
            s.afterReturn origin t r = { s with calls := s.calls ++ [c] }) := by
    intro t r
    obtain ⟨p, hp, hdirect⟩ := afterReturn_eq origin t r
    exact ⟨p, hdirect, Or.inl hp⟩
  unfold enter
  split
  · exact hback _ _
  · split
    · exact hback _ _
    · split
      · exact hback _ _
      · exact ⟨s.poller, fun _ => rfl, Or.inr ⟨rfl, _, rfl, rfl, rfl⟩⟩

theorem did_poller (h : s.busy = false) (m : Move) : Did s m (s.pollerStep m) := by
  have henter : ∀ (p : Poller) (id : String) (resume : Bool) (origin : Origin),
      Did s m ({ s with poller := p }.enter id resume origin) := by
    intro p id resume origin
    obtain ⟨q, _, hq | ⟨_, c, hphase, _, hc⟩⟩ :=
      enter_eq (s := { s with poller := p }) id resume origin
    · rw [hq]
      exact .polled m q h
    · rw [hc]
      exact .entered m c p hphase (Or.inr h)
  unfold pollerStep
  split
  · split
    · exact .polled _ _ h
    · exact .idle _
    · exact henter _ _ _ _
  · split
    · rw [poll]
      split
      · exact .idle _
      · exact .polled _ _ h
    · exact .idle _
  · split
    · exact .idle _
    · exact henter _ _ _ _
  · exact .idle _

theorem did_call (m : Move) (hm : ∀ c, s.calls[i]? = some c → Did s m (s.callStep i c m)) :
    Did s m (s.atCall i m) := by
  rw [atCall]
  split
  · exact .idle m
  · next c hc => exact hm c hc

/-- **Every step does one of these.** -/
theorem did_next (s : Scheduler) (m : Move) : Did s m (s.next m) := by
  cases m with
  | op op => exact .stored op
  | call id resume =>
    obtain ⟨p, hp, h | ⟨_, c, hphase, horigin, h⟩⟩ := enter_eq (s := s) id resume .direct
    · rw [next, h, hp rfl]
      exact .idle _
    · rw [next, h]
      exact .entered _ c s.poller hphase (Or.inl ⟨horigin, rfl⟩)
  | failTask commandId message o =>
    rw [next]
    cases hf : s.poller.failing with
    | none => exact .idle _
    | some failing => exact .failed failing.1 failing.2 commandId message o hf
  | restart => exact .restarted
  | boot | poll | handle =>
    rw [next]
    split
    · exact .idle _
    · next h => exact did_poller (by simpa using h) _
  | claim i =>
    refine did_call _ (fun c hc => ?_)
    rw [callStep]
    split
    · next hphase =>
      rw [claim]
      split
      · next hheld =>
        rw [afterReturn_ok]
        exact .turnedAway i c hc hphase hheld
      · next hfree => exact .claimed i c hc hphase hfree
    · exact .idle _
  | prepare i result =>
    refine did_call _ (fun c hc => ?_)
    rw [callStep]
    split
    · next hphase => exact .prepared i c result hc hphase
    · exact .idle _
  | start i runId stamp =>
    refine did_call _ (fun c hc => ?_)
    rw [callStep]
    split
    · next lease hphase => exact .started i c lease runId stamp hc hphase
    · exact .idle _
  | finish i outcome commandId o =>
    refine did_call _ (fun c hc => ?_)
    rw [callStep]
    split
    · next hphase => exact .finished i c outcome commandId o hc hphase
    · exact .idle _
  | release i =>
    refine did_call _ (fun c hc => ?_)
    rw [callStep]
    split
    · next result hphase => exact .released i c result hc hphase
    · exact .idle _

/-! ### The claims -/

/-- No two calls hold the claim of one task, and the set has every claim that is held. -/
abbrev Claims (s : Scheduler) : Prop := Exclusive RunCall.claimKey RunCall.Holds s.calls s.inFlight

theorem prepare_eq (result : Except String (Option (String × String))) :
    ∃ db phase, s.prepare i c result = { s with db := db }.setPhase i phase ∧
      phase.going = true ∧ phase ≠ .checked ∧
        (db = s.db ∨ ∃ op, db = (Modbit.step s.db op).1 ∧ accepted s.db op = []) := by
  match result with
  | .error message => exact ⟨s.db, _, rfl, rfl, nofun, Or.inl rfl⟩
  | .ok none => exact ⟨s.db, _, rfl, rfl, nofun, Or.inl rfl⟩
  | .ok (some (lease, now)) => exact ⟨_, _, rfl, rfl, nofun, Or.inr ⟨_, rfl, rfl⟩⟩

theorem finish_eq (outcome : RunOutcome) (commandId : String) (o : Oracle) :
    ∃ db result, s.finish i c outcome commandId o
        = { s with db := db }.setPhase i (.ended result) ∧
      (db = s.db ∨ ∃ payload event, outcome.payload c.taskId = some payload ∧
        lifecycleEvent payload = some event ∧
        payload.targetAggregate = some c.taskId.toText ∧
        db = (execute s.db ⟨commandId, ⟨.system, "scheduler"⟩, payload⟩ o).1) := by
  match outcome with
  | .stopped => exact ⟨s.db, _, rfl, Or.inl rfl⟩
  | .errored true => exact ⟨s.db, _, rfl, Or.inl rfl⟩
  | .completed => exact ⟨_, _, rfl, Or.inr ⟨_, _, rfl, rfl, rfl, rfl⟩⟩
  | .exhausted message => exact ⟨_, _, rfl, Or.inr ⟨_, _, rfl, rfl, rfl, rfl⟩⟩
  | .errored false => exact ⟨_, _, rfl, Or.inr ⟨_, _, rfl, rfl, rfl, rfl⟩⟩

theorem holds_of_phase {phase : Phase} (h : c.phase = phase) (hp : phase.holds = true) :
    c.Holds := by
  rw [RunCall.Holds, h, hp]

/-- **The claims keep the calls of a task apart**, whatever the step. -/
theorem claims_next (h : s.Claims) (m : Move) : (s.next m).Claims := by
  have hdid := did_next s m
  generalize s.next m = s' at hdid ⊢
  cases hdid with
  | idle _ | stored _ | polled _ _ _ | failed _ _ _ _ _ _ => exact h
  | entered _ c p hphase _ => exact h.concat (by simp [RunCall.Holds, hphase, Phase.holds])
  | turnedAway i c hc hphase _ => exact h.modify hc rfl nofun
  | claimed i c hc hphase hfree => exact h.acquire hc rfl hfree
  | prepared i c result hc hphase =>
    obtain ⟨db, phase, heq, _, _, _⟩ := prepare_eq (s := s) (i := i) (c := c) result
    rw [heq]
    exact h.modify hc rfl (fun _ => holds_of_phase hphase rfl)
  | started i c lease runId stamp hc hphase =>
    exact h.modify hc rfl (fun _ => holds_of_phase hphase rfl)
  | finished i c outcome commandId o hc hphase =>
    obtain ⟨db, result, heq, _⟩ := finish_eq (s := s) (i := i) (c := c) outcome commandId o
    rw [heq]
    exact h.modify hc rfl (fun _ => holds_of_phase hphase rfl)
  | released i c result hc hphase =>
    obtain ⟨p, heq, _⟩ :=
      afterReturn_eq (s := s.setPhase i .returned) c.origin (some c.taskId) result
    rw [release, heq]
    exact h.release hc (holds_of_phase hphase rfl) nofun
  | restarted => exact .nil

theorem claims_of_path {ok : Scheduler → Move → Prop} {s : Scheduler} (h : Path step ok fresh s) :
    s.Claims :=
  h.invariant .nil (fun s m hc _ => claims_next (s := s) hc m)

/-! ### What a step writes -/

inductive Wrote (s : Scheduler) (e : EventEnvelope) : Move → Prop
  | stored (op : Op) (h : e ∈ accepted s.db op) : Wrote s e (.op op)
  | failed (t : TaskId) (err : RunError) (commandId message : String) (o : Oracle)
      (hfailing : s.poller.failing = some (t, err)) (hid : e.aggregateId = t.toText)
      (hf : e.payload.Faithful) : Wrote s e (.failTask commandId message o)
  | started (i : Nat) (c : RunCall) (lease : Option String) (runId : RunId) (stamp : Stamp)
      (hc : s.calls[i]? = some c) (hphase : c.phase = .prepared lease)
      (he : e = runStartedEnvelope stamp runId c.sessionId c.taskId) :
      Wrote s e (.start i runId stamp)
  | finished (i : Nat) (c : RunCall) (outcome : RunOutcome) (commandId : String) (o : Oracle)
      (hc : s.calls[i]? = some c) (hphase : c.phase = .running)
      (hid : e.aggregateId = c.taskId.toText) (hf : e.payload.Faithful) :
      Wrote s e (.finish i outcome commandId o)

theorem writes_next (hg : GaplessLog s.db.events) (m : Move) :
    ∃ ws, Extended s.db ws (s.next m).db ∧ ∀ e ∈ ws, Wrote s e m := by
  have hdid := did_next s m
  have hnone : ∃ ws, Extended s.db ws s.db ∧ ∀ e ∈ ws, Wrote s e m :=
    ⟨[], extended_nil hg rfl rfl, by simp⟩
  generalize s.next m = s' at hdid ⊢
  cases hdid with
  | idle _ | polled _ _ _ | entered _ _ _ _ _ | turnedAway _ _ _ _ _ | claimed _ _ _ _ _
  | restarted => exact hnone
  | stored op => exact ⟨_, step_extended hg op, fun e he => .stored op he⟩
  | failed t err commandId message o hfailing =>
    have hx := step_extended hg (.execute (failCommand commandId message t) o)
    refine ⟨_, hx, fun e he => ?_⟩
    exact .failed t err commandId message o hfailing (mem_acceptedPlan_lifecycle rfl rfl he)
      (acceptedPlan_core he).faithful
  | prepared i c result hc hphase =>
    obtain ⟨db, phase, heq, _, _, rfl | ⟨op, rfl, hnil⟩⟩ :=
      prepare_eq (s := s) (i := i) (c := c) result
    · rw [heq]
      exact hnone
    · rw [heq]
      have hx := step_extended hg op
      rw [hnil] at hx
      exact ⟨[], hx, by simp⟩
  | started i c lease runId stamp hc hphase =>
    refine ⟨_, step_extended hg (startOp c lease runId stamp), fun e he => ?_⟩
    exact .started i c lease runId stamp hc hphase (mem_accepted_startOp he)
  | finished i c outcome commandId o hc hphase =>
    obtain ⟨db, result, heq, rfl | ⟨payload, event, _, hl, ht, rfl⟩⟩ :=
      finish_eq (s := s) (i := i) (c := c) outcome commandId o
    · rw [heq]
      exact hnone
    · rw [heq]
      refine ⟨_, execute_extended hg, fun e he => ?_⟩
      exact .finished i c outcome commandId o hc hphase (mem_acceptedPlan_lifecycle hl ht he)
        (acceptedPlan_core he).faithful
  | released i c result hc hphase =>
    obtain ⟨p, heq, _⟩ :=
      afterReturn_eq (s := s.setPhase i .returned) c.origin (some c.taskId) result
    rw [release, heq]
    exact hnone

/-! ### What has to hold between the steps of a call -/

/-- The condition on a step.  A claim is taken only of a running task, by `run_task` only if the
task has no run; until the attempt starts nothing takes the task out of its state; the start goes
into the log; and what is written can be read back. -/
def Guarded (s : Scheduler) : Move → Prop
  | .op op => FaithfulOp s.db op ∧
      ∀ c ∈ s.calls, c.Waits → Keeps c.taskId .running (accepted s.db op)
  | .failTask _ _ _ => ∀ f ∈ s.poller.failing, ∀ c ∈ s.calls, c.Waits → c.taskId ≠ f.1
  | .claim i => ∀ c ∈ s.calls[i]?, c.phase = .checked → c.claimKey ∉ s.inFlight →
      stateOf s.db c.taskId = some .running ∧
        (c.resume = false → taskHasRun s.db c.taskId = false)
  | .start i runId stamp => ∀ c ∈ s.calls[i]?, ∀ lease ∈ c.phase.leased,
      Recordable s.db c lease runId stamp
  | _ => True

instance : Decidable (s.Guarded m) :=
  match m with
  | .op _ => inferInstanceAs (Decidable (_ ∧ _))
  | .failTask _ _ _ => inferInstanceAs (Decidable (∀ f ∈ s.poller.failing, _))
  | .claim i => inferInstanceAs (Decidable (∀ c ∈ s.calls[i]?, _))
  | .start i _ _ => inferInstanceAs (Decidable (∀ c ∈ s.calls[i]?, _))
  | .call _ _ | .boot | .poll | .handle | .prepare _ _ | .finish _ _ _ _ | .release _ | .restart =>
    .isTrue trivial

structure Orderly (s : Scheduler) : Prop where
  gapless : GaplessLog s.db.events
  claims : s.Claims
  waiting : ∀ c ∈ s.calls, c.Waits → stateOf s.db c.taskId = some .running
  first : ∀ c ∈ s.calls, c.Waits → c.resume = false → ∀ a ∈ s.attempts, a.taskId ≠ c.taskId
  recorded : ∀ a ∈ s.attempts, taskHasRun s.db a.taskId = true
  running : ∀ a ∈ s.attempts, a.state = some .running
  single : s.attempts.Pairwise (fun a b => a.taskId = b.taskId → b.resume = true)

theorem orderly_fresh : Orderly fresh := by
  refine ⟨gapless_nil, .nil, ?_, ?_, ?_, ?_, .nil⟩
  · intro c hc
    cases hc
  · intro c hc
    cases hc
  · intro a ha
    cases ha
  · intro a ha
    cases ha

/-- What was true of the waiting calls before the step. -/
def WaitedFor (s : Scheduler) (a : RunCall) : Prop :=
  stateOf s.db a.taskId = some .running ∧
    (a.resume = false → ∀ b ∈ s.attempts, b.taskId ≠ a.taskId)

theorem Orderly.waitedFor (h : s.Orderly) (hc : c ∈ s.calls) (hw : c.Waits) : s.WaitedFor c :=
  ⟨h.waiting c hc hw, h.first c hc hw⟩

theorem Orderly.waits_next (h : s.Orderly) (hok : s.Guarded m) {j : Nat} {a : RunCall}
    (ha : (s.next m).calls[j]? = some a) (hw : a.Waits) : s.WaitedFor a := by
  have hdid := did_next s m
  generalize s.next m = s' at hdid ha
  -- one call is in another phase, which may be another waiting one
  have hset : ∀ {i : Nat} {c : RunCall} {phase : Phase}, s.calls[i]? = some c →
      (phase.waits = true → s.WaitedFor c) → (s.setPhase i phase).calls[j]? = some a →
      s.WaitedFor a := by
    intro i c phase hc hphase ha
    rcases getElem?_modify_cases ha with ⟨rfl, b, hb, rfl⟩ | ⟨_, ha⟩
    · obtain rfl := Option.some.inj (hb.symm.trans hc)
      exact hphase hw
    · exact h.waitedFor (mem_of_getElem? ha) hw
  have hold : ∀ {i : Nat} {c : RunCall} {phase : Phase}, s.calls[i]? = some c →
      c.phase.waits = true → (s.setPhase i phase).calls[j]? = some a → s.WaitedFor a :=
    fun hc hwaits => hset hc (fun _ => h.waitedFor (mem_of_getElem? hc) hwaits)
  cases hdid with
  | idle _ | stored _ | polled _ _ _ | failed _ _ _ _ _ _ =>
    exact h.waitedFor (mem_of_getElem? ha) hw
  | entered _ c p hphase _ =>
    rcases mem_append.mp (mem_of_getElem? ha) with hmem | hmem
    · exact h.waitedFor hmem hw
    · rw [mem_singleton.mp hmem, RunCall.Waits, hphase] at hw
      cases hw
  | turnedAway i c hc _ _ => exact hset hc (fun hp => by cases hp) ha
  | claimed i c hc hphase hfree =>
    obtain ⟨hrunning, hnone⟩ := hok c hc hphase hfree
    refine hset hc (fun _ => ⟨hrunning, fun hr b hb heq => ?_⟩) ha
    have hrec := h.recorded b hb
    rw [heq, hnone hr] at hrec
    cases hrec
  | prepared i c result hc hphase =>
    obtain ⟨db, phase, heq, _, _, _⟩ := prepare_eq (s := s) (i := i) (c := c) result
    rw [heq] at ha
    exact hold hc (by rw [hphase]; rfl) ha
  | started i c lease runId stamp hc hphase => exact hset hc (fun hp => by cases hp) ha
  | finished i c outcome commandId o hc hphase =>
    obtain ⟨db, result, heq, _⟩ := finish_eq (s := s) (i := i) (c := c) outcome commandId o
    rw [heq] at ha
    exact hset hc (fun hp => by cases hp) ha
  | released i c result hc hphase =>
    obtain ⟨p, heq, _⟩ :=
      afterReturn_eq (s := s.setPhase i .returned) c.origin (some c.taskId) result
    rw [release, heq] at ha
    exact hset hc (fun hp => by cases hp) ha
  | restarted => cases ha

theorem next_finish {outcome : RunOutcome} {commandId : String} {o : Oracle}
    (hc : s.calls[i]? = some c) (hphase : c.phase = .running) :
    s.next (.finish i outcome commandId o) = s.finish i c outcome commandId o := by
  simp only [next, atCall, hc, callStep, hphase, if_pos]

theorem Orderly.faithful_next {ws : List EventEnvelope} (hok : s.Guarded m)
    (hw : ∀ e ∈ ws, Wrote s e m) : ∀ e ∈ ws, e.payload.Faithful := by
  intro e he
  cases hw e he with
  | stored op h => exact hok.1 e h
  | failed _ _ _ _ _ _ _ hf => exact hf
  | started i c lease runId stamp _ _ heq =>
    rw [heq]
    exact trivial
  | finished _ _ _ _ _ _ _ _ hf => exact hf

theorem Orderly.keeps_next (h : s.Orderly) (hok : s.Guarded m) {ws : List EventEnvelope}
    (hw : ∀ e ∈ ws, Wrote s e m) {j : Nat} {a : RunCall} (ha : (s.next m).calls[j]? = some a)
    (hwaits : a.Waits) : Keeps a.taskId .running ws := by
  intro e he hid
  have hbefore := h.waits_next hok ha hwaits
  cases hw e he with
  | stored op hmem => exact hok.2 a (mem_of_getElem? ha) hwaits e hmem hid
  | failed t err commandId message o hfailing hid' _ =>
    rw [next, hfailing] at ha
    have hne := hok (t, err) hfailing a (mem_of_getElem? ha) hwaits
    exact absurd (Id.toText_inj (hid.symm.trans hid')) hne
  | started i c lease runId stamp hc hphase heq =>
    -- the identity of the run is new, and the task has events
    have hrec : Recordable s.db c lease runId stamp := hok c hc lease (by rw [hphase]; rfl)
    obtain ⟨r, hr, hrid⟩ := logged_of_stateOf h.gapless hbefore.1
    refine absurd (mem_map.mpr ⟨r, hr, ?_⟩) hrec.2.2
    rw [hrid, ← hid, heq]
    rfl
  | finished i c outcome commandId o hc hphase hid' _ =>
    obtain ⟨db, result, hfinish, _⟩ := finish_eq (s := s) (i := i) (c := c) outcome commandId o
    rw [next_finish hc hphase, hfinish] at ha
    rcases getElem?_modify_cases ha with ⟨_, b, _, rfl⟩ | ⟨hij, ha⟩
    · cases hwaits
    · have hne := h.claims.ne_of_holds hc (holds_of_phase hphase rfl) (Ne.symm hij) ha hwaits.holds
      exact absurd (hid.symm.trans hid') hne

theorem attempts_next (s : Scheduler) (m : Move) :
    (s.next m).attempts = s.attempts ∨
      ∃ i c lease runId stamp, m = .start i runId stamp ∧ s.calls[i]? = some c ∧
        c.phase = .prepared lease ∧ s.next m = s.start i c lease runId stamp := by
  have hdid := did_next s m
  generalize s.next m = s' at hdid ⊢
  cases hdid with
  | idle _ | stored _ | polled _ _ _ | entered _ _ _ _ _ | failed _ _ _ _ _ _
  | turnedAway _ _ _ _ _ | claimed _ _ _ _ _ | restarted => exact Or.inl rfl
  | prepared i c result _ _ =>
    obtain ⟨db, phase, heq, _, _, _⟩ := prepare_eq (s := s) (i := i) (c := c) result
    exact Or.inl (by rw [heq]; rfl)
  | started i c lease runId stamp hc hphase =>
    exact Or.inr ⟨i, c, lease, runId, stamp, rfl, hc, hphase, rfl⟩
  | finished i c outcome commandId o _ _ =>
    obtain ⟨db, result, heq, _⟩ := finish_eq (s := s) (i := i) (c := c) outcome commandId o
    exact Or.inl (by rw [heq]; rfl)
  | released i c result _ _ =>
    obtain ⟨p, heq, _⟩ :=
      afterReturn_eq (s := s.setPhase i .returned) c.origin (some c.taskId) result
    exact Or.inl (by rw [release, heq]; rfl)

/-- **A guarded step keeps the scheduler in order.** -/
theorem orderly_next (h : s.Orderly) (hok : s.Guarded m) : (s.next m).Orderly := by
  obtain ⟨ws, hx, hw⟩ := writes_next h.gapless m
  have hf := Orderly.faithful_next hok hw
  have hrec : ∀ a ∈ s.attempts, taskHasRun (s.next m).db a.taskId = true :=
    fun a ha => taskHasRun_extended h.gapless hx hf (h.recorded a ha)
  have hwaiting : ∀ c ∈ (s.next m).calls, c.Waits →
      stateOf (s.next m).db c.taskId = some .running := by
    intro c hc hwaits
    obtain ⟨j, hj⟩ := mem_iff_getElem?.mp hc
    exact stateOf_extended h.gapless hx hf (h.keeps_next hok hw hj hwaits)
      (h.waits_next hok hj hwaits).1
  rcases attempts_next s m with hsame | ⟨i, c, lease, runId, stamp, rfl, hc, hphase, hstart⟩
  · refine ⟨hx.gapless, claims_next h.claims m, hwaiting, ?_, ?_, ?_, ?_⟩
    · intro c hc hwaits hr
      obtain ⟨j, hj⟩ := mem_iff_getElem?.mp hc
      rw [hsame]
      exact (h.waits_next hok hj hwaits).2 hr
    · rw [hsame]
      exact hrec
    · rw [hsame]
      exact h.running
    · rw [hsame]
      exact h.single
  · have hgo : Recordable s.db c lease runId stamp := hok c hc lease (by rw [hphase]; rfl)
    have hcwaits : c.Waits := by
      rw [RunCall.Waits, hphase]
      rfl
    have hwaited := h.waitedFor (mem_of_getElem? hc) hcwaits
    have hatt : (s.next (.start i runId stamp)).attempts
        = s.attempts ++ [⟨c.taskId, c.resume, stateOf s.db c.taskId⟩] := by rw [hstart]; rfl
    refine ⟨hx.gapless, claims_next h.claims _, hwaiting, ?_, ?_, ?_, ?_⟩
    · intro b hb hwaits hr a ha
      obtain ⟨j, hj⟩ := mem_iff_getElem?.mp hb
      rw [hatt] at ha
      rcases mem_append.mp ha with ha | ha
      · exact (h.waits_next hok hj hwaits).2 hr a ha
      · -- the call that started is another one, so its task is another one
        rw [mem_singleton.mp ha]
        rw [hstart] at hj
        rcases getElem?_modify_cases hj with ⟨_, b', _, rfl⟩ | ⟨hij, hj⟩
        · cases hwaits
        · intro heq
          exact h.claims.ne_of_holds hc hcwaits.holds (Ne.symm hij) hj hwaits.holds
            (congrArg Id.toText heq.symm)
    · intro a ha
      rw [hatt] at ha
      rcases mem_append.mp ha with ha | ha
      · exact hrec a ha
      · rw [mem_singleton.mp ha, hstart]
        exact taskHasRun_start h.gapless hgo
    · intro a ha
      rw [hatt] at ha
      rcases mem_append.mp ha with ha | ha
      · exact h.running a ha
      · rw [mem_singleton.mp ha]
        exact hwaited.1
    · rw [hatt, pairwise_append]
      refine ⟨h.single, pairwise_singleton _ _, fun a ha b hb heq => ?_⟩
      rw [mem_singleton.mp hb] at heq ⊢
      cases hr : c.resume with
      | true => rfl
      | false => exact absurd heq (hwaited.2 hr a ha)

/-! ### Runs -/

def OneInFlight (s : Scheduler) : Prop :=
  ∀ (i j : Nat) (a b : RunCall), s.calls[i]? = some a → s.calls[j]? = some b →
    a.phase = .running → b.phase = .running → a.taskId = b.taskId → i = j

/-- Every attempt was started while its task was running. -/
def StartedRunning (s : Scheduler) : Prop := ∀ a ∈ s.attempts, a.state = some .running

instance : Decidable s.StartedRunning := inferInstanceAs (Decidable (∀ a ∈ s.attempts, _))

/-- No attempt of `run_task` came after another attempt of its task. -/
def NoSecondRun (s : Scheduler) : Prop :=
  s.attempts.Pairwise (fun a b => a.taskId = b.taskId → b.resume = true)

instance : Decidable s.NoSecondRun := inferInstanceAs (Decidable (s.attempts.Pairwise _))

/-- **The attempts of every run.**  In every interleaving a task has one attempt under way at most;
where every step is guarded, attempts are started of running tasks only, and `run_task` starts none
of a task that has one. -/
theorem attempts_law (s : Scheduler) :
    (Path step (fun _ _ => True) fresh s → s.OneInFlight) ∧
      (Path step Guarded fresh s → s.StartedRunning ∧ s.NoSecondRun) := by
  refine ⟨fun h i j a b ha hb hra hrb ht => ?_, fun h => ?_⟩
  · exact (claims_of_path h).unique ha hb (holds_of_phase hra rfl) (holds_of_phase hrb rfl)
      (congrArg Id.toText ht)
  · have horderly : s.Orderly :=
      h.invariant orderly_fresh (fun s m hs hok => orderly_next (s := s) hs hok)
    exact ⟨horderly.running, horderly.single⟩

/-! ### A run in order, and two that are not -/

/-- The task the second of the sample calls creates. -/
def sampleTask : TaskId := ⟨.ofNat 3⟩

/-- The poller finds no interrupted task; then one is created, queued and started. -/
def startedTask : List Move :=
  .boot :: (sampleCalls [.createSession "s",
    .createTask ⟨.ofNat 0⟩ "title" "prompt" none none none, .queueTask sampleTask,
    .startTask sampleTask]).map (fun c => .op (.execute c.1 c.2))

def sampleStamp (n : Nat) : Stamp := ⟨.ofNat n, "2026-01-01T00:00:01.000Z"⟩

def orderlyRun : List Move :=
  startedTask ++ [.poll, .handle, .claim 0,
    .prepare 0 (.ok (some ("lease-1", "2026-01-01T00:00:01.000Z"))),
    .start 0 ⟨.ofNat 100⟩ (sampleStamp 101), .finish 0 .completed "done" (sampleOracle 40),
    .release 0]

theorem attempts_law_orderlyRun :
    (run step fresh orderlyRun).attempts.length = 1 ∧ (run step fresh orderlyRun).OneInFlight ∧
      (run step fresh orderlyRun).StartedRunning ∧ (run step fresh orderlyRun).NoSecondRun := by
  obtain ⟨hok, hone⟩ : Admits step Guarded fresh orderlyRun ∧
      (run step fresh orderlyRun).attempts.length = 1 := by
    rw [step_eq_evalStep]
    decide +kernel
  refine ⟨hone, ?_, ?_⟩
  · exact (attempts_law _).1 (path_run fresh orderlyRun)
  · exact (attempts_law _).2 (path_of_admits orderlyRun hok)

/-- The task is cancelled after its event was read and before it is handled. -/
def cancelledRun : List Move :=
  startedTask ++ [.poll, .op (.execute ⟨"cancel", ⟨.user, "u"⟩, .cancelTask sampleTask ""⟩
      (sampleOracle 40)), .handle, .claim 0, .prepare 0 (.ok none),
    .start 0 ⟨.ofNat 100⟩ (sampleStamp 101)]

/-- Two direct calls look for a run before either has claimed the task. -/
def twiceRun : List Move :=
  startedTask ++ [.call sampleTask.toText false,
    .call sampleTask.toText false, .claim 0, .prepare 0 (.ok none),
    .start 0 ⟨.ofNat 100⟩ (sampleStamp 101), .finish 0 .stopped "done" (sampleOracle 40),
    .release 0, .claim 1, .prepare 1 (.ok none), .start 1 ⟨.ofNat 102⟩ (sampleStamp 103)]

/-- A cancelled task is run, and a task is run twice. -/
theorem attempts_unguarded :
    ¬ (run step fresh cancelledRun).StartedRunning ∧ ¬ (run step fresh twiceRun).NoSecondRun := by
  rw [step_eq_evalStep]
  decide +kernel

end Scheduler

end Modbit
