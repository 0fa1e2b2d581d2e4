import Modbit.Agent.Attempts

/-!
# Tasks that are started again

A task that waits is started again by `StartTask`: another `task_started` goes into the
log, and the poller hands the task to `run_task`.  Until the poller is free again the task
is to have a new attempt, or not to be running any more.

`Handling` follows the poller through one such event, and `handling_next` carries it over
every step of the other threads that leaves the task to the poller (`Undisturbed`).
`restart_law` says when the poller keeps its word: exactly when the task has no run yet.
`restarted_task_stranded` is a task that has one.
-/

namespace Modbit

open Lib List

namespace Scheduler

variable {s : Scheduler} {m : Move} {i : Nat} {c : RunCall} {P : Nat → Prop} {t : TaskId}

/-! ### The calls of the poller -/

/-- The poller's calls at the given places are back. -/
def Back (P : Nat → Prop) (calls : List RunCall) : Prop :=
  ∀ j c, calls[j]? = some c → P j → c.origin ≠ .direct → c.phase = .returned

theorem Back.concat {calls : List RunCall} (h : Back P calls) (ho : c.origin = .direct) :
    Back P (calls ++ [c]) := by
  intro j a ha hj hdirect
  rw [getElem?_append] at ha
  split at ha
  · exact h j a ha hj hdirect
  · rw [mem_singleton.mp (mem_of_getElem? ha)] at hdirect
    exact absurd ho hdirect

theorem Back.direct {calls : List RunCall} (h : Back P calls) (hc : calls[i]? = some c) (hi : P i)
    (hphase : c.phase ≠ .returned) : c.origin = .direct := by
  by_contra hne
  exact hphase (h i c hc hi hne)

theorem Back.setPhase (h : Back P s.calls) (hc : s.calls[i]? = some c)
    (hphase : c.phase ≠ .returned) (phase : Phase) : Back P (s.setPhase i phase).calls := by
  intro j a ha hj hdirect
  rcases getElem?_modify_cases ha with ⟨rfl, b, hb, rfl⟩ | ⟨_, ha⟩
  · obtain rfl := Option.some.inj (hb.symm.trans hc)
    exact absurd (h.direct hb hj hphase) hdirect
  · exact h j a ha hj hdirect

theorem busy_eq_false :
    s.busy = false ↔ Back (fun _ => True) s.calls ∧ s.poller.failing = none := by
  rw [busy, Bool.or_eq_false_iff, any_eq_false, Option.isSome_eq_false_iff,
    Option.isNone_iff_eq_none]
  refine and_congr_left' ⟨fun h j c hc _ ho => ?_, fun h c hc => ?_⟩
  · have := h c (mem_of_getElem? hc)
    simpa [ho] using this
  · obtain ⟨j, hj⟩ := mem_iff_getElem?.mp hc
    have := h j c hj trivial
    simpa using this

/-! ### The log of a reachable store -/

def Logged (db : Db) : Prop :=
  GaplessLog db.events ∧ ∃ es : List EventEnvelope, db.events = es.map EventEnvelope.storedRow

theorem logged_next (h : Logged s.db) (m : Move) : Logged (s.next m).db := by
  obtain ⟨hg, es, hev⟩ := h
  obtain ⟨ws, hx, _⟩ := writes_next hg m
  exact ⟨hx.gapless, es ++ ws, by rw [hx.events, hev, map_append]⟩

theorem logged_of_path {ok : Scheduler → Move → Prop} {s s' : Scheduler} (h : Logged s.db)
    (hp : Path step ok s s') : Logged s'.db :=
  hp.invariant (I := fun s => Logged s.db) h (fun s m hl _ => logged_next (s := s) hl m)

theorem attempts_grow (s : Scheduler) (m : Move) : s.attempts <+: (s.next m).attempts := by
  rcases attempts_next s m with h | ⟨i, c, lease, runId, stamp, _, _, _, h⟩
  · exact h ▸ prefix_refl _
  · rw [h]
    exact prefix_append _ _

/-! ### Handling one event -/

/-- The other threads leave the task to the poller: no other call claims it, the process goes on,
and the command that fails a task draws new identities. -/
def Undisturbed (t : TaskId) (s : Scheduler) : Move → Prop
  | .claim i => ∀ c ∈ s.calls[i]?, c.origin = .direct → c.taskId ≠ t
  | .failTask commandId message o => Fresh s.db o ∧ Unseen s.db (failCommand commandId message t)
  | .restart => False
  | _ => True

/-- The poller with the event of `t`, whose call has the place `k`; `old` are the attempts there
were. -/
inductive Handling (t : TaskId) (k : Nat) (old : List Attempt) (s : Scheduler) : Prop
  | under (c : RunCall) (hc : s.calls[k]? = some c) (ht : c.taskId = t) (ho : c.origin = .tail)
      (hgoing : c.phase.going = true) (hfree : c.phase = .checked → t.toText ∉ s.inFlight)
      (hnone : s.poller.failing = none) (hback : Back (· ≠ k) s.calls)
  | failing (e : RunError) (hfailing : s.poller.failing = some (t, e))
      (hback : Back (fun _ => True) s.calls)
  | attempted (h : ∃ a ∈ s.attempts.drop old.length, a.taskId = t)
  | settled (hfree : s.busy = false) (hstate : stateOf s.db t ≠ some .running)

variable {k : Nat} {old : List Attempt}

theorem getElem?_setPhase_ne {phase : Phase} (hc : s.calls[k]? = some c) (hne : i ≠ k) :
    (s.setPhase i phase).calls[k]? = some c := by
  change (s.calls.modify i _)[k]? = some c
  rw [getElem?_modify, hc]
  simp [hne]

theorem getElem?_setPhase_self {phase : Phase} (hc : s.calls[k]? = some c) :
    (s.setPhase k phase).calls[k]? = some { c with phase := phase } := by
  change (s.calls.modify k _)[k]? = some _
  rw [getElem?_modify, hc]
  simp

theorem under_next (hbusy : s.busy = true) (hok : s.Undisturbed t m) (hold : old <+: s.attempts)
    (hc : s.calls[k]? = some c) (ht : c.taskId = t) (ho : c.origin = .tail)
    (hgoing : c.phase.going = true) (hfree : c.phase = .checked → t.toText ∉ s.inFlight)
    (hnone : s.poller.failing = none) (hback : Back (· ≠ k) s.calls) :
    Handling t k old (s.next m) := by
  have hdid := did_next s m
  generalize s.next m = s' at hdid ⊢
  -- the call stays where it is, and nobody else takes the claim
  have hstays : ∀ {s' : Scheduler}, s'.calls[k]? = some c →
      (c.phase = .checked → t.toText ∉ s'.inFlight) → s'.poller.failing = none →
      Back (· ≠ k) s'.calls → Handling t k old s' :=
    fun hc' hfree' hnone' hback' => .under c hc' ht ho hgoing hfree' hnone' hback'
  have hsame : ∀ {i : Nat} {a : RunCall}, i = k → s.calls[i]? = some a → a = c := by
    rintro i a rfl ha
    exact Option.some.inj (ha.symm.trans hc)
  cases hdid with
  | idle _ | stored _ => exact hstays hc hfree hnone hback
  | polled _ _ hidle =>
    rw [hbusy] at hidle
    cases hidle
  | entered _ a p hphase horigin =>
    rcases horigin with ⟨hdirect, rfl⟩ | hidle
    · refine hstays ?_ hfree hnone (hback.concat hdirect)
      obtain ⟨hlt, _⟩ := List.getElem?_eq_some_iff.mp hc
      rw [getElem?_append_left hlt]
      exact hc
    · rw [hbusy] at hidle
      cases hidle
  | failed t' e _ _ _ hfailing =>
    rw [hnone] at hfailing
    cases hfailing
  | turnedAway i a ha hphase hheld =>
    have hne : i ≠ k := by
      intro heq
      obtain rfl := hsame heq ha
      exact hfree hphase (ht ▸ hheld)
    exact hstays (getElem?_setPhase_ne hc hne) hfree hnone (hback.setPhase ha (by simp [hphase]) _)
  | claimed i a ha hphase _ =>
    have hback' := hback.setPhase ha (by simp [hphase]) .claimed
    by_cases heq : i = k
    · obtain rfl := hsame heq ha
      subst heq
      exact .under _ (getElem?_setPhase_self hc) ht ho rfl nofun hnone hback'
    · have hdirect := hback.direct ha heq (by simp [hphase])
      have hother : a.taskId ≠ t := hok a ha hdirect
      refine hstays (getElem?_setPhase_ne hc heq) (fun hp hmem => ?_) hnone hback'
      rcases mem_cons.mp hmem with hmem | hmem
      · exact hother (Id.toText_inj hmem.symm)
      · exact hfree hp hmem
  | prepared i a result ha hphase =>
    obtain ⟨db, phase, hprep, hgo, hnc, _⟩ := prepare_eq (s := s) (i := i) (c := a) result
    rw [hprep]
    have hback' := hback.setPhase ha (by simp [hphase]) phase
    by_cases heq : i = k
    · obtain rfl := hsame heq ha
      subst heq
      exact .under _ (getElem?_setPhase_self hc) ht ho hgo (fun hp => absurd hp hnc) hnone hback'
    · exact hstays (getElem?_setPhase_ne hc heq) hfree hnone hback'
  | started i a lease runId stamp ha hphase =>
    by_cases heq : i = k
    · obtain rfl := hsame heq ha
      refine .attempted ⟨⟨a.taskId, a.resume, stateOf s.db a.taskId⟩, ?_, ht⟩
      obtain ⟨new, hnew⟩ := hold
      change _ ∈ (s.attempts ++ [_]).drop old.length
      rw [← hnew, append_assoc, drop_left]
      exact mem_append_right _ mem_cons_self
    · exact hstays (getElem?_setPhase_ne hc heq) hfree hnone
        (hback.setPhase ha (by simp [hphase]) .running)
  | finished i a outcome commandId o ha hphase =>
    obtain ⟨db, result, hfin, _⟩ := finish_eq (s := s) (i := i) (c := a) outcome commandId o
    rw [hfin]
    have hne : i ≠ k := by
      intro heq
      obtain rfl := hsame heq ha
      rw [hphase] at hgoing
      cases hgoing
    exact hstays (getElem?_setPhase_ne hc hne) hfree hnone
      (hback.setPhase ha (by simp [hphase]) (.ended result))
  | released i a result ha hphase =>
    have hback' := hback.setPhase ha (by simp [hphase]) .returned
    by_cases heq : i = k
    · obtain rfl := hsame heq ha
      subst heq
      rw [hphase] at hgoing
      cases result with
      | ok _ => cases hgoing
      | error e =>
        rw [release, ho, ht]
        refine .failing e rfl (fun j b hb _ hdirect => ?_)
        by_cases hj : j = i
        · subst hj
          rw [← Option.some.inj ((getElem?_setPhase_self ha).symm.trans hb)]
        · exact hback' j b hb hj hdirect
    · have hdirect := hback.direct ha heq (by simp [hphase])
      obtain ⟨p, hp, hpoller⟩ :=
        afterReturn_eq (s := s.setPhase i .returned) a.origin (some a.taskId) result
      rw [release, hp, hpoller hdirect]
      refine hstays (getElem?_setPhase_ne hc heq) (fun hp' hmem => ?_) hnone hback'
      exact hfree hp' (mem_filter.mp hmem).1
  | restarted => exact hok.elim

theorem failing_next (hbusy : s.busy = true) (hok : s.Undisturbed t m) (hlog : Logged s.db)
    {e : RunError} (hfailing : s.poller.failing = some (t, e))
    (hback : Back (fun _ => True) s.calls) : Handling t k old (s.next m) := by
  have hdid := did_next s m
  generalize s.next m = s' at hdid ⊢
  cases hdid with
  | idle _ | stored _ => exact .failing e hfailing hback
  | polled _ _ hidle =>
    rw [hbusy] at hidle
    cases hidle
  | entered _ a p hphase horigin =>
    rcases horigin with ⟨hdirect, rfl⟩ | hidle
    · exact .failing e hfailing (hback.concat hdirect)
    · rw [hbusy] at hidle
      cases hidle
  | failed t' e' commandId message o hfailing' =>
    obtain ⟨rfl, _⟩ := Prod.mk.inj (Option.some.inj (hfailing.symm.trans hfailing'))
    obtain ⟨hg, es, hev⟩ := hlog
    have hstate : stateOf (Modbit.step s.db (.execute (failCommand commandId message t) o)).1 t
        ≠ some .running := by
      rw [fst_step_execute]
      exact stateOf_failTask hev hg hok.1 hok.2 rfl
    exact .settled (busy_eq_false.mpr ⟨hback, rfl⟩) hstate
  | turnedAway i a ha hphase _ | claimed i a ha hphase _ | started i a _ _ _ ha hphase =>
    exact .failing e hfailing (hback.setPhase ha (by simp [hphase]) _)
  | prepared i a result ha hphase =>
    obtain ⟨db, phase, hprep, _, _, _⟩ := prepare_eq (s := s) (i := i) (c := a) result
    rw [hprep]
    exact .failing e hfailing (hback.setPhase ha (by simp [hphase]) _)
  | finished i a outcome commandId o ha hphase =>
    obtain ⟨db, result, hfin, _⟩ := finish_eq (s := s) (i := i) (c := a) outcome commandId o
    rw [hfin]
    exact .failing e hfailing (hback.setPhase ha (by simp [hphase]) _)
  | released i a result ha hphase =>
    have hdirect := hback.direct ha trivial (by simp [hphase])
    obtain ⟨p, hp, hpoller⟩ :=
      afterReturn_eq (s := s.setPhase i .returned) a.origin (some a.taskId) result
    rw [release, hp, hpoller hdirect]
    exact .failing e hfailing (hback.setPhase ha (by simp [hphase]) _)
  | restarted => exact hok.elim

/-- **Handling goes on until the task has an attempt or is not running.** -/
theorem handling_next (hbusy : s.busy = true) (hok : s.Undisturbed t m) (hlog : Logged s.db)
    (hold : old <+: s.attempts) (h : Handling t k old s) : Handling t k old (s.next m) := by
  cases h with
  | under c hc ht ho hgoing hfree hnone hback =>
    exact under_next hbusy hok hold hc ht ho hgoing hfree hnone hback
  | failing e hfailing hback => exact failing_next hbusy hok hlog hfailing hback
  | attempted h =>
    obtain ⟨a, ha, hat⟩ := h
    obtain ⟨new, hnew⟩ := attempts_grow s m
    refine .attempted ⟨a, ?_, hat⟩
    rw [← hnew]
    obtain ⟨older, holder⟩ := hold
    rw [← holder, drop_left] at ha
    rw [← holder, append_assoc, drop_left]
    exact mem_append_left _ ha
  | settled hfree _ =>
    rw [hbusy] at hfree
    cases hfree

/-! ### The whole event -/

theorem next_handle {id : String} {rest : List String} {sessionId : SessionId}
    (hidle : s.busy = false) (hpage : s.poller.page = id :: rest) (hid : Id.parse id = some t)
    (hbrief : readTaskBrief s.db t = .ok sessionId) :
    s.next .handle =
      if taskHasRun s.db t then { s with poller := { s.poller with page := rest } }
      else { s with calls := s.calls ++ [⟨t, sessionId, false, .tail, .checked⟩],
                    poller := { s.poller with page := rest } } := by
  simp only [next, hidle, Bool.false_eq_true, if_false, pollerStep, hpage, enter, hid, hbrief]
  cases taskHasRun s.db t with
  | false => rfl
  | true => rfl

/-- The poller is free, the event of a running task comes next, and no attempt of the task is in
flight. -/
structure Due (t : TaskId) (s : Scheduler) : Prop where
  free : s.busy = false
  page : ∃ id rest, s.poller.page = id :: rest ∧ Id.parse id = some t
  running : stateOf s.db t = some .running
  absent : t.toText ∉ s.inFlight

/-- The task has an attempt it did not have, or it is not running any more. -/
def Served (t : TaskId) (s s' : Scheduler) : Prop :=
  (∃ a ∈ s'.attempts.drop s.attempts.length, a.taskId = t) ∨ stateOf s'.db t ≠ some .running

/-- The states in which the poller is done with its event. -/
def Handled (t : TaskId) (s s' : Scheduler) : Prop :=
  Path step (fun u m => u.busy = true ∧ u.Undisturbed t m) (s.next .handle) s' ∧ s'.busy = false

theorem handling_handle (hdue : s.Due t) {sessionId : SessionId}
    (hbrief : readTaskBrief s.db t = .ok sessionId) (hnew : taskHasRun s.db t = false) :
    Handling t s.calls.length s.attempts (s.next .handle) := by
  obtain ⟨id, rest, hpage, hid⟩ := hdue.page
  obtain ⟨hback, hnone⟩ := busy_eq_false.mp hdue.free
  rw [next_handle hdue.free hpage hid hbrief, hnew]
  refine .under ⟨t, sessionId, false, .tail, .checked⟩ ?_ rfl rfl rfl (fun _ => hdue.absent) hnone ?_
  · exact getElem?_concat_length
  · intro j a ha hj hdirect
    change (s.calls ++ [_])[j]? = some a at ha
    have hlt : j < s.calls.length := by
      obtain ⟨hlt, _⟩ := List.getElem?_eq_some_iff.mp ha
      rw [length_append, length_singleton] at hlt
      omega
    rw [getElem?_append_left hlt] at ha
    exact hback j a ha trivial hdirect

theorem Handling.served {s' : Scheduler} (h : Handling t k s.attempts s')
    (hidle : s'.busy = false) : s.Served t s' := by
  obtain ⟨hback, hnone⟩ := busy_eq_false.mp hidle
  cases h with
  | under c hc _ ho hgoing _ _ _ =>
    rw [hback k c hc trivial (by simp [ho])] at hgoing
    cases hgoing
  | failing e hfailing _ =>
    rw [hnone] at hfailing
    cases hfailing
  | attempted h => exact Or.inl h
  | settled _ hstate => exact Or.inr hstate

/-- **When a started task is served.**  In every reachable state in which the poller comes to the
event of a running task, the task gets a new attempt or stops running, whatever the other threads
do meanwhile, exactly if no run of it is in the log. -/
theorem restart_law (hs : Path step (fun _ _ => True) fresh s) (hdue : s.Due t) :
    (∀ s', s.Handled t s' → s.Served t s') ↔ taskHasRun s.db t = false := by
  have hlog : Logged s.db := logged_of_path ⟨gapless_nil, [], rfl⟩ hs
  obtain ⟨sessionId, hbrief⟩ := readTaskBrief_ok hlog.2.choose_spec hlog.1 hdue.running
  constructor
  · intro h
    by_contra hrun
    rw [Bool.not_eq_false] at hrun
    obtain ⟨id, rest, hpage, hid⟩ := hdue.page
    have hnext := next_handle hdue.free hpage hid hbrief
    rw [hrun, if_pos rfl] at hnext
    have hhandled : s.Handled t (s.next .handle) := ⟨.refl, by rw [hnext]; exact hdue.free⟩
    rcases h _ hhandled with ⟨a, ha, _⟩ | hstate
    · rw [hnext, drop_length] at ha
      cases ha
    · rw [hnext] at hstate
      exact hstate hdue.running
  · rintro hnew s' ⟨hpath, hidle⟩
    have hinv : Handling t s.calls.length s.attempts s' ∧ s.attempts <+: s'.attempts
        ∧ Logged s'.db := by
      refine hpath.invariant
        (I := fun u => Handling t s.calls.length s.attempts u ∧ s.attempts <+: u.attempts
          ∧ Logged u.db) ?_ ?_
      · exact ⟨handling_handle hdue hbrief hnew, attempts_grow s .handle, logged_next hlog .handle⟩
      · rintro u m ⟨hh, hold, hl⟩ ⟨hbusy, hok⟩
        exact ⟨handling_next hbusy hok hl hold hh, hold.trans (attempts_grow u m), logged_next hl m⟩
    exact hinv.1.served hidle

/-! ### A task that is served, and one that is not -/

theorem due_of_page {s : Scheduler} (h : s.busy = false ∧ s.poller.page = [t.toText] ∧
    stateOf s.db t = some .running ∧ t.toText ∉ s.inFlight) : s.Due t :=
  ⟨h.1, ⟨_, _, h.2.1, Id.parse_toText t⟩, h.2.2.1, h.2.2.2⟩

theorem restart_law_startedTask :
    (run step fresh (startedTask ++ [.poll])).Due sampleTask ∧
      ∀ s', (run step fresh (startedTask ++ [.poll])).Handled sampleTask s' →
        (run step fresh (startedTask ++ [.poll])).Served sampleTask s' := by
  have hfacts : ((run step fresh (startedTask ++ [.poll])).busy = false ∧
      (run step fresh (startedTask ++ [.poll])).poller.page = [sampleTask.toText] ∧
      stateOf (run step fresh (startedTask ++ [.poll])).db sampleTask = some .running ∧
      sampleTask.toText ∉ (run step fresh (startedTask ++ [.poll])).inFlight) ∧
      taskHasRun (run step fresh (startedTask ++ [.poll])).db sampleTask = false := by
    rw [step_eq_evalStep]
    decide +kernel
  have hdue := due_of_page hfacts.1
  exact ⟨hdue, (restart_law (path_run fresh _) hdue).mpr hfacts.2⟩

/-- The provider fails the first attempt, the task waits for it and is started again. -/
def restartedRun : List Move :=
  startedTask ++ [.poll, .handle, .claim 0, .prepare 0 (.ok none),
    .start 0 ⟨.ofNat 100⟩ (sampleStamp 101), .finish 0 (.errored false) "park" (sampleOracle 40),
    .release 0, .op (.execute ⟨"again", ⟨.user, "u"⟩, .startTask sampleTask⟩ (sampleOracle 41)),
    .poll]

/-- The poller is done with the second event at once, and the task stays running without a run. -/
theorem restarted_task_stranded :
    (run step fresh restartedRun).Due sampleTask ∧
      ∃ s', (run step fresh restartedRun).Handled sampleTask s' ∧
        ¬ (run step fresh restartedRun).Served sampleTask s' := by
  have hfacts : ((run step fresh restartedRun).busy = false ∧
      (run step fresh restartedRun).poller.page = [sampleTask.toText] ∧
      stateOf (run step fresh restartedRun).db sampleTask = some .running ∧
      sampleTask.toText ∉ (run step fresh restartedRun).inFlight) ∧
      ((run step fresh restartedRun).next .handle).busy = false ∧
      ((run step fresh restartedRun).next .handle).attempts.length
        = (run step fresh restartedRun).attempts.length ∧
      stateOf ((run step fresh restartedRun).next .handle).db sampleTask = some .running := by
    rw [next_eq_evalNext, step_eq_evalStep]
    decide +kernel
  obtain ⟨hdue, hbusy, hlen, hrunning⟩ := hfacts
  refine ⟨due_of_page hdue, _, ⟨.refl, hbusy⟩, ?_⟩
  rintro (⟨a, ha, _⟩ | hstate)
  · rw [← hlen, drop_length] at ha
    cases ha
  · exact hstate hrunning

end Scheduler

end Modbit