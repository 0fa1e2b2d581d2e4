import Modbit.Terminal.RunStates

/-!
# Capturing the output of a run

A client of the exec broker polls a run while its process writes to the log and ends.
`run_streaming_capture` drains the log between two looks at the state and once more, to its end,
when the state is no longer running; `run_capture` and `run_capture_cancellable` read it once at
the end.  A run here is any order of the client's calls and of what the processes do (`Happens`).

`captured_exactly`: what is streamed is the whole output, in pieces that tile it; and what is
captured at the end is what was asked for exactly if that fits one read of the broker.
`replay_law`: a client that comes back with its cursor is shown the log piece by piece.
-/

namespace Modbit

open Lib List

namespace ExecBroker

def DRAIN_MAX : Nat := 256 * 1024

inductive CaptureError where
  | cancelled
  | timeout
  | broker (e : TerminalError)
  deriving DecidableEq

/-- Where a client is: it is about to drain, to look at the state, to read what is left, or has returned. -/
inductive Phase where
  | drain
  | poll
  | rest (m : RunMeta)
  | returned (result : Except CaptureError RunMeta)

/-- A run and its client: the pieces are those a sink is given, by their offsets and lengths. -/
structure Capture where
  world : World
  wrote : List UInt8
  phase : Phase
  offset : Nat
  collected : List UInt8
  pieces : List (Nat × Nat)

/-- What can happen: a process writes or ends, or the client makes its next call, having been cancelled
or not, before its deadline or after it. -/
inductive Happens where
  | writes (i : Nat) (bytes : List UInt8)
  | ends (i : Nat) (code : Int)
  | call (cancelled late : Bool) (now : Nat)

namespace Capture

variable (dirOf : String → String) (id : String) (proc : Nat)

/-- What happens in the world: the process of the run is `proc`. -/
def writes (s : Capture) (i : Nat) (bytes : List UInt8) : Capture :=
  { s with
    world := s.world.output i bytes
    wrote := if i = proc ∧ s.world.lifeOf proc = some .running then s.wrote ++ bytes else s.wrote }

def ends (s : Capture) (i : Nat) (code : Int) : Capture :=
  { s with world := (s.world.step dirOf (.exit i code)).1 }

def fail (s : Capture) (e : CaptureError) : Capture := { s with phase := .returned (.error e) }

/-- `stop`, and then the error. -/
def stopping (s : Capture) (now : Nat) (e : CaptureError) : Capture :=
  match s.world.stop dirOf id now with
  | (w, .error err) => { s with world := w }.fail (.broker err)
  | (w, .ok _) => { s with world := w }.fail e

/-- What was read is collected and handed to the sink, if it is anything. -/
def take (s : Capture) (bytes : List UInt8) (newOffset : Nat) : Capture :=
  if bytes = [] then s
  else { s with
    offset := newOffset
    collected := s.collected ++ bytes
    pieces := s.pieces ++ [(s.offset, bytes.length)] }

/-- The next call of `run_streaming_capture`. -/
def stream (s : Capture) (cancelled late : Bool) (now : Nat) : Capture :=
  match s.phase with
  | .drain =>
    if cancelled then s.stopping dirOf id now .cancelled
    else
      match s.world.readOutput dirOf id s.offset DRAIN_MAX with
      | .ok (.output bytes newOffset) => { s.take bytes newOffset with phase := .poll }
      | .ok _ => s
      | .error e => s.fail (.broker e)
  | .poll =>
    match s.world.status dirOf id now with
    | (w, .error e) => { s with world := w }.fail (.broker e)
    | (w, .ok m) =>
      let s := { s with world := w }
      if m.state ≠ .running then { s with phase := .rest m }
      else if late then s.stopping dirOf id now .timeout
      else { s with phase := .drain }
  | .rest m =>
    match s.world.readOutput dirOf id s.offset DRAIN_MAX with
    | .ok (.output bytes newOffset) =>
      if bytes = [] then { s with phase := .returned (.ok m) } else s.take bytes newOffset
    | .ok _ => s
    | .error e => s.fail (.broker e)
  | .returned _ => s

/-- The next call of `run_capture`, or of `run_capture_cancellable` where it can be cancelled. -/
def capture (maxOutput : Nat) (s : Capture) (cancelled late : Bool) (now : Nat) : Capture :=
  match s.phase with
  | .drain | .poll =>
    if cancelled then s.stopping dirOf id now .cancelled
    else
      match s.world.status dirOf id now with
      | (w, .error e) => { s with world := w }.fail (.broker e)
      | (w, .ok m) =>
        let s := { s with world := w }
        if m.state ≠ .running then { s with phase := .rest m }
        else if late then s.stopping dirOf id now .timeout
        else s
  | .rest m =>
    match s.world.readOutput dirOf id 0 maxOutput with
    | .ok (.output bytes _) => { s with collected := bytes, phase := .returned (.ok m) }
    | .ok _ => s
    | .error e => s.fail (.broker e)
  | .returned _ => s

def streamStep (s : Capture) : Happens → Capture × Unit
  | .writes i bytes => (s.writes proc i bytes, ())
  | .ends i code => (s.ends dirOf i code, ())
  | .call cancelled late now => (s.stream dirOf id cancelled late now, ())

def captureStep (maxOutput : Nat) (s : Capture) : Happens → Capture × Unit
  | .writes i bytes => (s.writes proc i bytes, ())
  | .ends i code => (s.ends dirOf i code, ())
  | .call cancelled late now => (s.capture dirOf id maxOutput cancelled late now, ())

def begin (w : World) : Capture := ⟨w, [], .drain, 0, [], []⟩

/-! ### The world of a run -/

/-- The run is the broker's own, its process is the only one of its directory, the log is what the process
has written, and a state that says that the process is over is right. -/
structure Watched (w : World) (wrote : List UInt8) : Prop where
  held : w.children.find? id = some proc
  owner : ∃ p, w.procs[proc]? = some p ∧ p.owner = some (dirOf id)
  sole : ∀ (j : Nat) q, w.procs[j]? = some q → q.owner = some (dirOf id) → j = proc
  log : (w.logAt (dirOf id)).map Prod.fst = wrote
  known : ∃ m, w.metaAt (dirOf id) = some m ∧ (m.state ≠ .running → w.lifeOf proc ≠ some .running)

/-- Nothing is there of a run, as its id is a new one. -/
structure New (w : World) : Prop where
  dir : w.dirs.find? (dirOf id) = none
  procs : ∀ p ∈ w.procs, p.owner ≠ some (dirOf id)

variable {dirOf : String → String} {id : String} {proc : Nat} {w : World} {wrote : List UInt8}

theorem watched_spawn (h : New dirOf id w) {argv : List String} (hargv : argv ≠ []) (pid now : Nat) :
    Watched dirOf id w.procs.length (w.spawnFull dirOf id argv (some pid) now).1 [] := by
  unfold World.spawnFull
  rw [if_neg hargv]
  dsimp only
  rw [h.dir]
  refine ⟨?_, ⟨⟨pid, some (dirOf id), .running⟩, ?_, rfl⟩, fun j q hj hq => ?_, ?_, ?_⟩
  · show (w.children.insert id w.procs.length).find? id = _
    rw [OrdMap.find?_insert, if_pos rfl]
  · exact getElem?_concat_length
  · rcases getElem?_concat_cases hj with hj | ⟨hj, -⟩
    · exact absurd hq (h.procs q (mem_of_getElem? hj))
    · exact hj
  · rw [World.logAt_persistMeta]
    show (((w.dirs.insert (dirOf id) ⟨[], none⟩).find? (dirOf id)).map RunDir.log
      |>.getD []).map Prod.fst = []
    rw [OrdMap.find?_insert, if_pos rfl]
    rfl
  · refine ⟨_, (World.metaAt_persistMeta _ _ _ _).trans (if_pos rfl), fun hstate => absurd rfl hstate⟩

theorem Watched.dir (h : Watched dirOf id proc w wrote) :
    ∃ d m, w.dirs.find? (dirOf id) = some d ∧ d.status = some m ∧ d.log.map Prod.fst = wrote ∧
      (m.state ≠ .running → w.lifeOf proc ≠ some .running) := by
  obtain ⟨m, hm, hlife⟩ := h.known
  obtain ⟨d, hd, hstatus⟩ := Option.bind_eq_some_iff.mp hm
  refine ⟨d, m, hd, hstatus, ?_, hlife⟩
  rw [← h.log, World.logAt, hd]
  rfl

/-- **What is read**: what was written from the offset on, as far as one read goes. -/
theorem Watched.read (h : Watched dirOf id proc w wrote) {offset : Nat} (hle : offset ≤ wrote.length)
    (max : Nat) : w.readOutput dirOf id offset max = .ok (.output
      ((wrote.drop offset).take (min (min READ_CHUNK_MAX max) (wrote.length - offset)))
      (offset + min (min READ_CHUNK_MAX max) (wrote.length - offset))) := by
  obtain ⟨d, m, hd, -, hlog, -⟩ := h.dir
  have hlen : d.log.length = wrote.length := by rw [← hlog, length_map]
  unfold World.readOutput
  rw [hd]
  dsimp only
  rw [hlen, show Nat.min offset wrote.length = offset from Nat.min_eq_left hle, map_take,
    map_drop, hlog]

/-- **A look at the state**: what it says that is over is over. -/
theorem Watched.status (h : Watched dirOf id proc w wrote) (now : Nat) :
    ∃ w' m, w.status dirOf id now = (w', .ok m) ∧ Watched dirOf id proc w' wrote ∧
      (m.state ≠ .running → w'.lifeOf proc ≠ some .running) ∧
      (w.lifeOf proc ≠ some .running → w'.lifeOf proc ≠ some .running) := by
  obtain ⟨d, m, hd, hstatus, -, hlife⟩ := h.dir
  obtain ⟨p, hp, howner⟩ := h.owner
  have hof : w.lifeOf proc = some p.life := by
    rw [World.lifeOf, hp]
    rfl
  unfold World.status
  dsimp only
  rw [hd]
  dsimp only
  rw [hstatus]
  dsimp only
  by_cases hrunning : m.state = .running
  · rw [if_pos hrunning, h.held]
    dsimp only
    rw [hof]
    -- a process that has ended is reaped, and its exit code written
    have hreaped : ∀ code, ∃ w' m', ((w.setLife proc (.reaped code)).persistMeta (dirOf id)
          { m with state := .exited code }, (Except.ok { m with state := .exited code } :
            Except TerminalError RunMeta)) = (w', .ok m') ∧
        Watched dirOf id proc w' wrote ∧ w'.lifeOf proc ≠ some .running := by
      intro code
      have hprocs : ∀ j, ((w.setLife proc (.reaped code)).persistMeta (dirOf id)
          { m with state := .exited code }).procs[j]?
          = if proc = j then w.procs[j]?.map (fun p => { p with life := .reaped code })
            else w.procs[j]? := fun j => ProcessTable.getElem?_setLife _ _ _ _
      have hover : ((w.setLife proc (.reaped code)).persistMeta (dirOf id)
          { m with state := .exited code }).lifeOf proc ≠ some .running := by
        rw [World.lifeOf, hprocs, if_pos rfl, hp]
        exact fun heq => (by cases heq)
      refine ⟨_, _, rfl, ⟨h.held, ⟨{ p with life := .reaped code }, ?_, howner⟩, fun j q hj hq => ?_, ?_,
        ⟨_, (World.metaAt_persistMeta _ _ _ _).trans (if_pos rfl), fun _ => hover⟩⟩, hover⟩
      · rw [hprocs, if_pos rfl, hp]
        rfl
      · rw [hprocs] at hj
        split_ifs at hj with hproc
        · exact hproc.symm
        · exact h.sole j q hj hq
      · rw [World.logAt_persistMeta]
        exact h.log
    cases hl : p.life with
    | running => exact ⟨w, m, rfl, h, hlife, fun hnot => absurd rfl hnot⟩
    | ended code =>
      obtain ⟨w', m', heq, hw', hover⟩ := hreaped code
      exact ⟨w', m', heq, hw', fun _ => hover, fun _ => hover⟩
    | reaped code =>
      obtain ⟨w', m', heq, hw', hover⟩ := hreaped code
      exact ⟨w', m', heq, hw', fun _ => hover, fun _ => hover⟩
  · rw [if_neg hrunning]
    exact ⟨w, m, rfl, h, hlife, fun hnot => hnot⟩

theorem Watched.writes (h : Watched dirOf id proc w wrote) (i : Nat) (bytes : List UInt8) :
    Watched dirOf id proc (w.output i bytes)
      (if i = proc ∧ w.lifeOf proc = some .running then wrote ++ bytes else wrote) := by
  obtain ⟨d, m, hd, hstatus, hlog, hlife⟩ := h.dir
  obtain ⟨p, hp, howner⟩ := h.owner
  have hof : w.lifeOf proc = some p.life := by
    rw [World.lifeOf, hp]
    rfl
  -- a directory is written to
  have hother : ∀ {dir : String} {d' : RunDir} (bs : List (UInt8 × Nat)), w.dirs.find? dir = some d' →
      dir ≠ dirOf id →
      Watched dirOf id proc { w with dirs := w.dirs.insert dir { d' with log := d'.log ++ bs } } wrote := by
    intro dir d' bs hd' hne
    refine ⟨h.held, h.owner, h.sole, ?_, m, ?_, hlife⟩
    · rw [World.logAt_insert, if_neg (Ne.symm hne)]
      exact h.log
    · rw [World.metaAt_insert, if_neg (Ne.symm hne), World.metaAt, hd]
      exact hstatus
  by_cases hi : i = proc
  · subst hi
    obtain ⟨pid, owner, life⟩ := p
    subst howner
    unfold World.output
    rw [hp, hof]
    cases life with
    | running =>
      dsimp only
      rw [hd, if_pos ⟨rfl, rfl⟩]
      refine ⟨h.held, ⟨_, hp, rfl⟩, h.sole, ?_, m, ?_, hlife⟩
      · rw [World.logAt_insert, if_pos rfl, map_append, hlog, map_map]
        exact congrArg (wrote ++ ·) (map_id bytes)
      · rw [World.metaAt_insert, if_pos rfl]
        exact hstatus
    | ended code =>
      rw [if_neg (fun heq => by cases heq.2)]
      exact h
    | reaped code =>
      rw [if_neg (fun heq => by cases heq.2)]
      exact h
  · rw [if_neg (fun heq => hi heq.1)]
    unfold World.output
    split
    · rename_i pid dir hp'
      have hne : dir ≠ dirOf id := fun heq => hi (h.sole i _ hp' (congrArg some heq))
      cases hd' : w.dirs.find? dir with
      | none => exact h
      | some d' => exact hother _ hd' hne
    · exact h

theorem Watched.ends (h : Watched dirOf id proc w wrote) (i : Nat) (code : Int) :
    Watched dirOf id proc (w.step dirOf (.exit i code)).1 wrote ∧
      (w.lifeOf proc ≠ some .running →
        (w.step dirOf (.exit i code)).1.lifeOf proc ≠ some .running) := by
  obtain ⟨p, hp, howner⟩ := h.owner
  obtain ⟨m, hm, hlife⟩ := h.known
  simp only [World.step]
  split
  · have hprocs : ∀ j, (w.setLife i (.ended code)).procs[j]?
        = if i = j then w.procs[j]?.map (fun p => { p with life := .ended code })
          else w.procs[j]? := fun j => ProcessTable.getElem?_setLife _ _ _ _
    have hnot : w.lifeOf proc ≠ some .running →
        (w.setLife i (.ended code)).lifeOf proc ≠ some .running := by
      intro hnot
      rw [World.lifeOf, hprocs]
      split_ifs
      · rw [hp]
        exact fun heq => (by cases heq)
      · exact hnot
    refine ⟨⟨h.held, ?_, fun j q hj hq => ?_, h.log, m, hm, fun hstate => hnot (hlife hstate)⟩, hnot⟩
    · rw [hprocs]
      split_ifs
      · exact ⟨_, congrArg (Option.map _) hp, howner⟩
      · exact ⟨p, hp, howner⟩
    · rw [hprocs] at hj
      split_ifs at hj
      · obtain ⟨q', hq', rfl⟩ := Option.map_eq_some_iff.mp hj
        exact h.sole j q' hq' hq
      · exact h.sole j q hj hq
  · exact ⟨h, fun hnot => hnot⟩

/-! ### Streaming -/

/-- The pieces come one after another from the beginning on, and none is empty. -/
inductive Tiles : List (Nat × Nat) → Nat → Prop where
  | nil : Tiles [] 0
  | concat {pieces : List (Nat × Nat)} {n : Nat} (h : Tiles pieces n) {len : Nat} (hlen : 0 < len) :
      Tiles (pieces ++ [(n, len)]) (n + len)

/-- What was collected is the output up to the offset. -/
structure Reached (dirOf : String → String) (id : String) (proc : Nat) (s : Capture) : Prop where
  watched : Watched dirOf id proc s.world s.wrote
  offset : s.offset ≤ s.wrote.length
  collected : s.collected = s.wrote.take s.offset
  tiles : Tiles s.pieces s.offset

/-- The client is where its phase says: the rest is read, and a status returned, when the process is over,
and a status is returned when there is no rest. -/
structure Follows (dirOf : String → String) (id : String) (proc : Nat) (s : Capture) : Prop where
  reached : Reached dirOf id proc s
  ended : ∀ m, s.phase = .rest m ∨ s.phase = .returned (.ok m) → s.world.lifeOf proc ≠ some .running
  whole : ∀ m, s.phase = .returned (.ok m) → s.offset = s.wrote.length

variable {s : Capture}

theorem lifeOf_output (w : World) (i j : Nat) (bytes : List UInt8) :
    (w.output i bytes).lifeOf j = w.lifeOf j := by
  have hprocs : (w.output i bytes).procs = w.procs := by
    unfold World.output
    split
    · rename_i dir _
      cases w.dirs.find? dir with
      | none => rfl
      | some d => rfl
    · rfl
  rw [World.lifeOf, hprocs]
  rfl

theorem Follows.writes (h : Follows dirOf id proc s) (i : Nat) (bytes : List UInt8) :
    Follows dirOf id proc (s.writes proc i bytes) := by
  obtain ⟨⟨hwatched, hoffset, hcollected, htiles⟩, hover, hwhole⟩ := h
  have hgrows : ∃ more, (s.writes proc i bytes).wrote = s.wrote ++ more := by
    rw [Capture.writes]
    split_ifs
    · exact ⟨bytes, rfl⟩
    · exact ⟨[], (append_nil _).symm⟩
  obtain ⟨more, hmore⟩ := hgrows
  refine ⟨⟨hwatched.writes i bytes, ?_, ?_, htiles⟩, fun m hphase => ?_, fun m hphase => ?_⟩
  · rw [hmore, length_append]
    exact hoffset.trans (Nat.le_add_right _ _)
  · rw [hmore]
    exact hcollected.trans (take_append_of_le_length hoffset).symm
  · show (s.world.output i bytes).lifeOf proc ≠ _
    rw [lifeOf_output]
    exact hover m hphase
  · -- what is over writes no more
    have hnot : ¬ (i = proc ∧ s.world.lifeOf proc = some .running) := fun heq =>
      hover m (.inr hphase) heq.2
    rw [show (s.writes proc i bytes).wrote = s.wrote from if_neg hnot]
    exact hwhole m hphase

theorem Follows.ends (h : Follows dirOf id proc s) (i : Nat) (code : Int) :
    Follows dirOf id proc (s.ends dirOf i code) := by
  obtain ⟨⟨hwatched, hoffset, hcollected, htiles⟩, hover, hwhole⟩ := h
  obtain ⟨hkept, hnot⟩ := hwatched.ends i code
  exact ⟨⟨hkept, hoffset, hcollected, htiles⟩, fun m hphase => hnot (hover m hphase), hwhole⟩

/-- **A drain**: the offset moves on with what is collected; and where nothing is read, nothing is left. -/
theorem Reached.drain (h : Reached dirOf id proc s) :
    ∃ bytes newOffset,
      s.world.readOutput dirOf id s.offset DRAIN_MAX = .ok (.output bytes newOffset) ∧
      Reached dirOf id proc (s.take bytes newOffset) ∧ (bytes = [] → s.offset = s.wrote.length) := by
  obtain ⟨hwatched, hoffset, hcollected, htiles⟩ := h
  obtain ⟨n, hn⟩ : ∃ n, n = min (min READ_CHUNK_MAX DRAIN_MAX) (s.wrote.length - s.offset) := ⟨_, rfl⟩
  have hread := hwatched.read hoffset DRAIN_MAX
  rw [← hn] at hread
  have hle : s.offset + n ≤ s.wrote.length := by
    rw [hn]
    omega
  have hlen : ((s.wrote.drop s.offset).take n).length = n := by
    rw [length_take, length_drop]
    omega
  refine ⟨_, _, hread, ?_, fun hnil => ?_⟩
  · unfold Capture.take
    split_ifs with hnil
    · exact ⟨hwatched, hoffset, hcollected, htiles⟩
    · refine ⟨hwatched, hle, ?_, ?_⟩
      · rw [hcollected, take_add]
      · rw [hlen]
        refine htiles.concat (Nat.pos_of_ne_zero fun hzero => hnil ?_)
        rw [hzero, take_zero]
  · rw [hnil] at hlen
    have hzero : 0 = min (min READ_CHUNK_MAX DRAIN_MAX) (s.wrote.length - s.offset) := hlen.trans hn
    have hcap : min READ_CHUNK_MAX DRAIN_MAX = 262144 := rfl
    omega

theorem stopping_failed (s : Capture) (now : Nat) (e : CaptureError) :
    ∃ e', (s.stopping dirOf id now e).phase = .returned (.error e') := by
  unfold Capture.stopping
  split
  · exact ⟨_, rfl⟩
  · exact ⟨_, rfl⟩

/-- **A call of the streaming client.** -/
theorem Follows.stream (h : Follows dirOf id proc s) (cancelled late : Bool) (now : Nat) :
    (∃ e, (s.stream dirOf id cancelled late now).phase = .returned (.error e)) ∨
      Follows dirOf id proc (s.stream dirOf id cancelled late now) := by
  obtain ⟨hreached, hover, hwhole⟩ := h
  unfold Capture.stream
  cases hphase : s.phase with
  | drain =>
    dsimp only
    split_ifs
    · exact .inl (stopping_failed s now .cancelled)
    · obtain ⟨bytes, newOffset, hread, hnext, -⟩ := hreached.drain
      rw [hread]
      exact .inr ⟨⟨hnext.watched, hnext.offset, hnext.collected, hnext.tiles⟩,
        fun m hm => hm.elim (fun h => by cases h) (fun h => by cases h), fun m hm => by cases hm⟩
  | poll =>
    obtain ⟨w', m, hstatus, hwatched, hright, -⟩ := hreached.watched.status now
    rw [hstatus]
    dsimp only
    have hnext : ∀ phase, Reached dirOf id proc { s with world := w', phase := phase } := fun phase =>
      ⟨hwatched, hreached.offset, hreached.collected, hreached.tiles⟩
    split_ifs with hstate hlate
    · exact .inr ⟨hnext _, fun _ _ => hright hstate, fun m hm => by cases hm⟩
    · exact .inl (stopping_failed _ now .timeout)
    · exact .inr ⟨hnext _, fun m hm => hm.elim (fun h => by cases h) (fun h => by cases h),
        fun m hm => by cases hm⟩
  | rest m =>
    obtain ⟨bytes, newOffset, hread, hnext, hempty⟩ := hreached.drain
    rw [hread]
    dsimp only
    split_ifs with hnil
    · exact .inr ⟨⟨hreached.watched, hreached.offset, hreached.collected, hreached.tiles⟩,
        fun _ _ => hover m (.inl hphase), fun _ _ => hempty hnil⟩
    · refine .inr ⟨hnext, fun m' _ => ?_, fun m' hm' => ?_⟩
      · rw [Capture.take, if_neg hnil]
        exact hover m (.inl hphase)
      · rw [Capture.take, if_neg hnil] at hm'
        exact absurd (hphase.symm.trans hm') (fun heq => by cases heq)
  | returned result =>
    exact .inr ⟨hreached, hover, hwhole⟩

/-- **The streaming client, at any time**: it has failed, or is where its phase says. -/
theorem streamed (hs : Follows dirOf id proc s) {t : Capture}
    (hrun : Path (streamStep dirOf id proc) (fun _ _ => True) s t) :
    (∃ e, t.phase = .returned (.error e)) ∨ Follows dirOf id proc t := by
  refine hrun.invariant (I := fun t => (∃ e, t.phase = .returned (.error e)) ∨ Follows dirOf id proc t)
    (.inr hs) (fun t i hinv _ => ?_)
  rcases hinv with ⟨e, he⟩ | hfollows
  · left
    refine ⟨e, ?_⟩
    cases i with
    | writes i bytes => exact he
    | ends i code => exact he
    | call cancelled late now =>
      show (t.stream dirOf id cancelled late now).phase = _
      rw [Capture.stream, he]
      exact he
  · cases i with
    | writes i bytes => exact .inr (hfollows.writes i bytes)
    | ends i code => exact .inr (hfollows.ends i code)
    | call cancelled late now => exact hfollows.stream cancelled late now

/-! ### Reading once -/

/-- The client that reads once is where its phase says. -/
structure Waits (dirOf : String → String) (id : String) (proc maxOutput : Nat) (s : Capture) : Prop where
  watched : Watched dirOf id proc s.world s.wrote
  ended : ∀ m, s.phase = .rest m ∨ s.phase = .returned (.ok m) → s.world.lifeOf proc ≠ some .running
  read : ∀ m, s.phase = .returned (.ok m) →
    s.collected = s.wrote.take (min (min READ_CHUNK_MAX maxOutput) s.wrote.length)

variable {maxOutput : Nat}

theorem Waits.writes (h : Waits dirOf id proc maxOutput s) (i : Nat) (bytes : List UInt8) :
    Waits dirOf id proc maxOutput (s.writes proc i bytes) := by
  refine ⟨h.watched.writes i bytes, fun m hphase => ?_, fun m hphase => ?_⟩
  · show (s.world.output i bytes).lifeOf proc ≠ _
    rw [lifeOf_output]
    exact h.ended m hphase
  · have hnot : ¬ (i = proc ∧ s.world.lifeOf proc = some .running) := fun heq =>
      h.ended m (.inr hphase) heq.2
    rw [show (s.writes proc i bytes).wrote = s.wrote from if_neg hnot]
    exact h.read m hphase

theorem Waits.ends (h : Waits dirOf id proc maxOutput s) (i : Nat) (code : Int) :
    Waits dirOf id proc maxOutput (s.ends dirOf i code) := by
  obtain ⟨hkept, hnot⟩ := h.watched.ends i code
  exact ⟨hkept, fun m hphase => hnot (h.ended m hphase), h.read⟩

/-- **A call of the client that reads once.** -/
theorem Waits.capture (h : Waits dirOf id proc maxOutput s) (cancelled late : Bool) (now : Nat) :
    (∃ e, (s.capture dirOf id maxOutput cancelled late now).phase = .returned (.error e)) ∨
      Waits dirOf id proc maxOutput (s.capture dirOf id maxOutput cancelled late now) := by
  -- a look at the state, while the client waits for the end
  have hpoll : (∀ m, s.phase ≠ .rest m) → (∀ result, s.phase ≠ .returned result) →
      (∃ e, (s.capture dirOf id maxOutput cancelled late now).phase = .returned (.error e)) ∨
        Waits dirOf id proc maxOutput (s.capture dirOf id maxOutput cancelled late now) := by
    intro hrest hreturned
    obtain ⟨w', m, hstatus, hwatched, hright, -⟩ := h.watched.status now
    have hcall : s.capture dirOf id maxOutput cancelled late now
        = if cancelled then s.stopping dirOf id now .cancelled
          else if m.state ≠ .running then { s with world := w', phase := .rest m }
          else if late then ({ s with world := w' } : Capture).stopping dirOf id now .timeout
          else { s with world := w' } := by
      unfold Capture.capture
      cases hphase : s.phase with
      | drain =>
        rw [hstatus]
      | poll =>
        rw [hstatus]
      | rest m => exact absurd hphase (hrest m)
      | returned result => exact absurd hphase (hreturned result)
    rw [hcall]
    split_ifs with hcancelled hstate hlate
    · exact .inl (stopping_failed s now .cancelled)
    · exact .inr ⟨hwatched, fun _ _ => hright hstate, fun m hm => by cases hm⟩
    · exact .inl (stopping_failed _ now .timeout)
    · exact .inr ⟨hwatched, fun m hm => hm.elim (fun hm => absurd hm (hrest m))
        (fun hm => absurd hm (hreturned _)), fun m hm => absurd hm (hreturned _)⟩
  cases hphase : s.phase with
  | drain =>
    exact hpoll (fun m hm => by cases hphase.symm.trans hm) (fun r hr => by cases hphase.symm.trans hr)
  | poll =>
    exact hpoll (fun m hm => by cases hphase.symm.trans hm) (fun r hr => by cases hphase.symm.trans hr)
  | rest m =>
    right
    have hread := h.watched.read (Nat.zero_le s.wrote.length) maxOutput
    have hover := h.ended m (.inl hphase)
    rw [Capture.capture, hphase]
    rw [hread]
    exact ⟨h.watched, fun _ _ => hover, fun _ _ => rfl⟩
  | returned result =>
    rw [Capture.capture, hphase]
    exact .inr h

/-- **The client that reads once, at any time.** -/
theorem captured (hs : Waits dirOf id proc maxOutput s) {t : Capture}
    (hrun : Path (captureStep dirOf id proc maxOutput) (fun _ _ => True) s t) :
    (∃ e, t.phase = .returned (.error e)) ∨ Waits dirOf id proc maxOutput t := by
  refine hrun.invariant
    (I := fun t => (∃ e, t.phase = .returned (.error e)) ∨ Waits dirOf id proc maxOutput t)
    (.inr hs) (fun t i hinv _ => ?_)
  rcases hinv with ⟨e, he⟩ | hwaits
  · left
    refine ⟨e, ?_⟩
    cases i with
    | writes i bytes => exact he
    | ends i code => exact he
    | call cancelled late now =>
      show (t.capture dirOf id maxOutput cancelled late now).phase = _
      rw [Capture.capture, he]
      exact he
  · cases i with
    | writes i bytes => exact .inr (hwaits.writes i bytes)
    | ends i code => exact .inr (hwaits.ends i code)
    | call cancelled late now => exact hwaits.capture cancelled late now

theorem follows_begin (h : Watched dirOf id proc w []) : Follows dirOf id proc (begin w) where
  reached := ⟨h, Nat.le_refl 0, rfl, .nil⟩
  ended m hphase := hphase.elim (fun h => by cases h) (fun h => by cases h)
  whole m hphase := by cases hphase

theorem waits_begin (h : Watched dirOf id proc w []) : Waits dirOf id proc maxOutput (begin w) where
  watched := h
  ended m hphase := hphase.elim (fun h => by cases h) (fun h => by cases h)
  read m hphase := by cases hphase

/-- **What is captured.**  A run that is new is started and captured, while its process writes and ends.
When the streaming client returns a status, it has the whole output, and its pieces tile it; when a client
that reads once does, it has what was asked for exactly if that is no more than one read gives. -/
theorem captured_exactly (h : New dirOf id w) {argv : List String} (hargv : argv ≠ []) (pid now : Nat) :
    (∀ s, Path (streamStep dirOf id w.procs.length) (fun _ _ => True)
        (begin (w.spawnFull dirOf id argv (some pid) now).1) s →
      ∀ m, s.phase = .returned (.ok m) → s.collected = s.wrote ∧ Tiles s.pieces s.wrote.length) ∧
    ∀ maxOutput s, Path (captureStep dirOf id w.procs.length maxOutput) (fun _ _ => True)
        (begin (w.spawnFull dirOf id argv (some pid) now).1) s →
      ∀ m, s.phase = .returned (.ok m) →
        (s.collected = s.wrote.take (min maxOutput s.wrote.length) ↔
          min maxOutput s.wrote.length ≤ READ_CHUNK_MAX) := by
  have hspawned := watched_spawn h hargv pid now
  constructor
  · intro s hrun m hphase
    rcases streamed (follows_begin hspawned) hrun with ⟨e, he⟩ | hfollows
    · cases hphase.symm.trans he
    · have hwhole := hfollows.whole m hphase
      refine ⟨?_, hwhole ▸ hfollows.reached.tiles⟩
      rw [hfollows.reached.collected, hwhole, take_length]
  · intro maxOutput s hrun m hphase
    rcases captured (waits_begin hspawned) hrun with ⟨e, he⟩ | hwaits
    · cases hphase.symm.trans he
    · rw [hwaits.read m hphase]
      constructor
      · intro heq
        have hlen := congrArg List.length heq
        rw [length_take, length_take] at hlen
        omega
      · intro hle
        congr 1
        omega

/-- A run that writes two bytes, is looked at, writes one more and ends. -/
def hello : List Happens :=
  [.writes 0 [104, 105], .call false false 1, .call false false 1, .writes 0 [33], .ends 0 0,
    .call false false 2, .call false false 2, .call false false 2]

/-- The broker in which the run `r` was started, its directory being named like it. -/
def spawned : World := (World.fresh.spawnFull (fun id => id) "r" ["ls"] (some 7) 0).1

theorem new_fresh : New (fun id => id) "r" World.fresh := ⟨rfl, fun _ hp => absurd hp not_mem_nil⟩

theorem captured_hello :
    (∃ m, (run (streamStep (fun id => id) "r" 0) (begin spawned) hello).phase = .returned (.ok m)) ∧
      (run (streamStep (fun id => id) "r" 0) (begin spawned) hello).wrote = [104, 105, 33] ∧
      (run (streamStep (fun id => id) "r" 0) (begin spawned) hello).collected
        = (run (streamStep (fun id => id) "r" 0) (begin spawned) hello).wrote := by
  have hend : (run (streamStep (fun id => id) "r" 0) (begin spawned) hello).phase
      = .returned (.ok ⟨"r", ["ls"], .exited 0, 0, none, some 7⟩) := rfl
  exact ⟨⟨_, hend⟩, rfl, ((captured_exactly new_fresh (cons_ne_nil "ls" []) 7 0).1 _
    (path_run (begin spawned) hello) _ hend).1⟩

/-- A run that writes one byte more than one read gives. -/
def longOutput : List Happens :=
  [.writes 0 (List.replicate 524289 0), .ends 0 0, .call false false 2, .call false false 2]

/-- Of 524289 bytes 600000 were asked for, and the last one is missing. -/
theorem captured_short :
    (∃ m, (run (captureStep (fun id => id) "r" 0 600000) (begin spawned) longOutput).phase
      = .returned (.ok m)) ∧
    (run (captureStep (fun id => id) "r" 0 600000) (begin spawned) longOutput).wrote
      = List.replicate 524289 0 ∧
    (run (captureStep (fun id => id) "r" 0 600000) (begin spawned) longOutput).collected
      ≠ (List.replicate 524289 0).take (min 600000 (List.replicate 524289 (0 : UInt8)).length) := by
  have hend : (run (captureStep (fun id => id) "r" 0 600000) (begin spawned) longOutput).phase
      = .returned (.ok ⟨"r", ["ls"], .exited 0, 0, none, some 7⟩) := rfl
  have hwrote : (run (captureStep (fun id => id) "r" 0 600000) (begin spawned) longOutput).wrote
      = List.replicate 524289 0 := nil_append _
  refine ⟨⟨_, hend⟩, hwrote, fun heq => ?_⟩
  have hwatched : Watched (fun id => id) "r" 0 spawned [] :=
    watched_spawn new_fresh (cons_ne_nil "ls" []) 7 0
  have hwaits : Waits (fun id => id) "r" 0 600000
      (run (captureStep (fun id => id) "r" 0 600000) (begin spawned) longOutput) := by
    rcases captured (waits_begin hwatched) (path_run (begin spawned) longOutput) with ⟨e, he⟩ | hwaits
    · cases hend.symm.trans he
    · exact hwaits
  have hread := hwaits.read _ hend
  rw [hwrote] at hread
  have hlen := congrArg List.length (hread.symm.trans heq)
  rw [length_take, length_take, length_replicate, READ_CHUNK_MAX] at hlen
  omega

end Capture

/-! ### The tail of a run for a client that comes back -/

structure ReplayCursor where
  runId : String
  offset : Nat

structure ReplayFrame where
  runId : String
  fromOffset : Nat
  bytes : List UInt8
  newOffset : Nat
  droppedBytes : Nat
  caughtUpAndClosed : Bool

inductive ReplayError where
  | unknownRun (id : String)
  | io
  deriving DecidableEq

/-- The loop that fills the buffer: each read fails, or gives one byte more than it says, if it can; the
last one gives all. -/
def fill (bytes : List UInt8) : List (Option Nat) → Nat → Except ReplayError (List UInt8)
  | [], need => .ok (bytes.take need)
  | read :: reads, need =>
    if need = 0 then .ok []
    else
      match read with
      | none => .error .io
      | some most =>
        let n := min (min (most + 1) need) bytes.length
        if n = 0 then .ok [] else (fill (bytes.drop n) reads (need - n)).map (bytes.take n ++ ·)

/-- What the process writes meanwhile comes after all that is read. -/
def World.replayTail (dirOf : String → String) (w : World) (cursor : ReplayCursor) (windowBytes : Nat)
    (runHasExited : Bool) (reads : List (Option Nat)) : Except ReplayError ReplayFrame :=
  match w.dirs.find? (dirOf cursor.runId) with
  | none => .error (.unknownRun cursor.runId)
  | some d =>
    let total := d.log.length
    let earliest := total - windowBytes
    let fromOffset := max earliest (min cursor.offset total)
    match fill ((d.log.map Prod.fst).drop fromOffset) reads (total - fromOffset) with
    | .error e => .error e
    | .ok bytes => .ok {
        runId := cursor.runId
        fromOffset
        bytes
        newOffset := fromOffset + bytes.length
        droppedBytes := fromOffset - min cursor.offset fromOffset
        caughtUpAndClosed := runHasExited && decide (total ≤ fromOffset + bytes.length) }

/-- A client with the frames it was sent, and the window of each. -/
structure Viewer where
  world : World
  cursor : ReplayCursor
  frames : List (Nat × ReplayFrame)

inductive Moves where
  | event (e : Event)
  | replay (windowBytes : Nat) (runHasExited : Bool) (reads : List (Option Nat))

def Viewer.step (dirOf : String → String) (s : Viewer) : Moves → Viewer × Except ReplayError Unit
  | .event e => ({ s with world := (s.world.step dirOf e).1 }, .ok ())
  | .replay windowBytes runHasExited reads =>
    match s.world.replayTail dirOf s.cursor windowBytes runHasExited reads with
    | .ok f => ({ s with
        cursor := ⟨f.runId, f.newOffset⟩
        frames := s.frames ++ [(windowBytes, f)] }, .ok ())
    | .error e => (s, .error e)

/-- Each frame goes on where the one before it ended, after what it drops, and has what the log has
there; it fits its window, and fills it if anything is dropped. -/
inductive Shows (log : List UInt8) : List (Nat × ReplayFrame) → Nat → Prop where
  | nil : Shows log [] 0
  | concat {frames : List (Nat × ReplayFrame)} {n window : Nat} {f : ReplayFrame}
      (h : Shows log frames n) (hfrom : f.fromOffset = n + f.droppedBytes)
      (hbytes : f.bytes = (log.drop f.fromOffset).take f.bytes.length)
      (hnew : f.newOffset = f.fromOffset + f.bytes.length) (hle : f.newOffset ≤ log.length)
      (hfits : f.bytes.length ≤ window) (hdropped : 0 < f.droppedBytes → f.bytes.length = window) :
      Shows log (frames ++ [(window, f)]) f.newOffset

variable {dirOf : String → String} {s : Viewer} {dir : String}
  {log : List UInt8} {frames : List (Nat × ReplayFrame)}

theorem Shows.append {n : Nat}
    (h : Shows log frames n) (more : List UInt8) : Shows (log ++ more) frames n := by
  induction h with
  | nil => exact .nil
  | concat h hfrom hbytes hnew hle hfits hdropped ih =>
    refine ih.concat hfrom ?_ hnew (by rw [length_append]; omega) hfits hdropped
    rw [drop_append_of_le_length (by omega), take_append_of_le_length, ← hbytes]
    rw [length_drop]
    omega

theorem Shows.le {n : Nat} (h : Shows log frames n) : n ≤ log.length := by
  cases h with
  | nil => exact Nat.zero_le _
  | concat _ _ _ _ hle _ _ => exact hle

theorem fill_spec (reads : List (Option Nat)) : ∀ (bytes : List UInt8) (need : Nat),
    (∀ got, fill bytes reads need = .ok got → got = bytes.take need) ∧
      (none ∉ reads → fill bytes reads need = .ok (bytes.take need)) := by
  induction reads with
  | nil => exact fun bytes need => ⟨fun got h => (Except.ok.inj h).symm, fun _ => rfl⟩
  | cons read reads ih =>
    intro bytes need
    cases read with
    | none =>
      rw [fill]
      split_ifs with hneed
      · rw [hneed]
        exact ⟨fun got h => (Except.ok.inj h).symm, fun _ => rfl⟩
      · exact ⟨fun got h => (by cases h), fun h => absurd mem_cons_self h⟩
    | some most =>
      rw [fill]
      dsimp only
      split_ifs with hneed hn
      · rw [hneed]
        exact ⟨fun got h => (Except.ok.inj h).symm, fun _ => rfl⟩
      · have hempty : bytes.take need = [] := by
          rw [take_eq_nil_iff, ← length_eq_zero_iff]
          omega
        rw [hempty]
        exact ⟨fun got h => (Except.ok.inj h).symm, fun _ => rfl⟩
      · obtain ⟨n, hdef⟩ : ∃ n, n = min (min (most + 1) need) bytes.length := ⟨_, rfl⟩
        rw [← hdef]
        obtain ⟨hsome, hall⟩ := ih (bytes.drop n) (need - n)
        have hcut : bytes.take n ++ (bytes.drop n).take (need - n) = bytes.take need := by
          rw [← take_add, Nat.add_sub_cancel' (by omega)]
        refine ⟨fun got h => ?_, fun h => ?_⟩
        · cases hrest : fill (bytes.drop n) reads (need - n) with
          | error e =>
            rw [hrest] at h
            cases h
          | ok more =>
            rw [hrest] at h
            rw [← Except.ok.inj h, ← hcut, ← hsome more hrest]
        · rw [hall (fun hm => h (mem_cons_of_mem _ hm)), ← hcut]
          rfl

/-! ### The log of a run -/

theorem World.logAt_signal (w : World) (dir' : String) (i : Nat) :
    (w.signal dir' i).logAt dir = w.logAt dir := by
  unfold World.signal
  cases w.procs[i]? with
  | none => rfl
  | some p => rfl

theorem World.logAt_status (w : World) (id : String) (now : Nat) :
    (w.status dirOf id now).1.logAt dir = w.logAt dir := by
  rw [World.status]
  cases w.dirs.find? (dirOf id) with
  | none => rfl
  | some d =>
    dsimp only
    cases d.status with
    | none => rfl
    | some m =>
      dsimp only
      split_ifs
      · split
        · split
          · exact World.logAt_persistMeta ..
          · exact World.logAt_persistMeta ..
          · rfl
        · split
          · split_ifs
            · rfl
            · exact World.logAt_persistMeta ..
          · rfl
      · rfl

theorem World.logAt_markKilled (w : World) (dir' : String) (now : Nat) :
    (w.markKilled dir' now).1.logAt dir = w.logAt dir := by
  rw [World.markKilled]
  split
  · rfl
  · exact World.logAt_persistMeta ..

theorem World.logAt_stop (w : World) (id : String) (now : Nat) :
    (w.stop dirOf id now).1.logAt dir = w.logAt dir := by
  rw [World.stop]
  dsimp only
  split
  · split
    · exact (World.logAt_markKilled ..).trans (World.logAt_signal ..)
    · exact (World.logAt_markKilled ..).trans (World.logAt_signal ..)
    · exact World.logAt_markKilled ..
  · split
    · rfl
    · split
      · rfl
      · rename_i pid _
        rw [World.killPid]
        cases ProcessTable.byPid w.procs pid with
        | none => rfl
        | some i => exact (World.logAt_markKilled ..).trans (World.logAt_signal ..)

theorem World.logAt_waitAndRecord (w : World) (id : String) (now : Nat) :
    (w.waitAndRecord dirOf id now).1.logAt dir = w.logAt dir := by
  rw [World.waitAndRecord]
  split
  · rfl
  · dsimp only
    split
    iterate 2
      split
      · next hs => exact (congrArg (fun p => World.logAt p.1 dir) hs).symm.trans (World.logAt_status ..)
      · next hs =>
        have hkept := (congrArg (fun p => World.logAt p.1 dir) hs).symm.trans (World.logAt_status ..)
        exact (World.logAt_persistMeta ..).trans hkept
    · rfl

theorem World.logAt_spawnFull (w : World) (id : String) (argv : List String)
    (process : Option Nat) (now : Nat) :
    (w.spawnFull dirOf id argv process now).1.logAt dir = w.logAt dir := by
  have hopened : ({ w with dirs := w.dirs.insert (dirOf id) ((w.dirs.find? (dirOf id)).getD ⟨[], none⟩) } :
      World).logAt dir = w.logAt dir := by
    rw [World.logAt_insert]
    split_ifs with hdir
    · rw [hdir, World.logAt]
      cases w.dirs.find? (dirOf id) with
      | none => rfl
      | some d => rfl
    · rfl
  rw [World.spawnFull]
  split_ifs
  · rfl
  · cases process with
    | none => exact hopened
    | some pid => exact (World.logAt_persistMeta ..).trans hopened

/-- **The log of a run only grows.** -/
theorem World.logAt_step (w : World) (e : Event) : w.logAt dir <+: (w.step dirOf e).1.logAt dir := by
  cases e with
  | spawnFull id argv process now =>
    rw [World.step]
    split_ifs
    · exact prefix_refl _
    · exact (World.logAt_spawnFull ..).symm ▸ prefix_refl _
  | status id now => exact (World.logAt_status ..).symm ▸ prefix_refl _
  | stop id now => exact (World.logAt_stop ..).symm ▸ prefix_refl _
  | waitAndRecord id now => exact (World.logAt_waitAndRecord ..).symm ▸ prefix_refl _
  | output i bytes =>
    rw [World.step, World.output]
    split
    · split
      · next d hd =>
        rw [World.logAt_insert]
        split_ifs with hdir
        · rw [hdir, World.logAt, hd]
          exact prefix_append _ _
        · exact prefix_refl _
      · exact prefix_refl _
    · exact prefix_refl _
  | readOutput id offset max => exact prefix_refl _
  | restart => exact prefix_refl _
  | exit i code =>
    rw [World.step]
    split
    · exact prefix_refl _
    · exact prefix_refl _
  | reap i =>
    rw [World.step]
    split
    · split_ifs
      · exact prefix_refl _
      · exact prefix_refl _
    · exact prefix_refl _
  | foreign pid =>
    rw [World.step]
    split_ifs
    · exact prefix_refl _
    · exact prefix_refl _

structure ReplayFrame.Tail (f : ReplayFrame) (log : List UInt8) (cursor : ReplayCursor)
    (windowBytes : Nat) (runHasExited : Bool) : Prop where
  run : f.runId = cursor.runId
  start : f.fromOffset = max (log.length - windowBytes) (min cursor.offset log.length)
  dropped : f.droppedBytes = f.fromOffset - min cursor.offset f.fromOffset
  bytes : f.bytes = log.drop f.fromOffset
  finish : f.newOffset = log.length
  closed : f.caughtUpAndClosed = runHasExited

theorem replayTail_spec (w : World) (cursor : ReplayCursor) (windowBytes : Nat) (runHasExited : Bool)
    (reads : List (Option Nat)) :
    (∀ f, w.replayTail dirOf cursor windowBytes runHasExited reads = .ok f →
        f.Tail ((w.logAt (dirOf cursor.runId)).map Prod.fst) cursor windowBytes runHasExited) ∧
      (w.dirs.find? (dirOf cursor.runId) ≠ none → none ∉ reads →
        ∃ f, w.replayTail dirOf cursor windowBytes runHasExited reads = .ok f) := by
  rw [World.replayTail, World.logAt]
  cases w.dirs.find? (dirOf cursor.runId) with
  | none => exact ⟨fun f hf => (by cases hf), fun h => absurd rfl h⟩
  | some d =>
    have hlen : (d.log.map Prod.fst).length = d.log.length := length_map _
    dsimp only [Option.map_some, Option.getD_some]
    rw [← hlen]
    generalize d.log.map Prod.fst = log
    obtain ⟨start, hstart⟩ : ∃ n, n = max (log.length - windowBytes) (min cursor.offset log.length) :=
      ⟨_, rfl⟩
    rw [← hstart]
    have hle : start ≤ log.length := by omega
    obtain ⟨hgot, hall⟩ := fill_spec reads (log.drop start) (log.length - start)
    rw [← length_drop, take_length] at hgot hall
    refine ⟨fun f hf => ?_, fun _ hreads => ?_⟩
    · cases hfill : fill (log.drop start) reads (log.drop start).length with
      | error e =>
        rw [← length_drop, hfill] at hf
        cases hf
      | ok got =>
        obtain rfl := hgot got hfill
        rw [← length_drop, hfill] at hf
        obtain rfl := Except.ok.inj hf
        have hend : start + (log.drop start).length = log.length := by
          rw [length_drop]
          omega
        refine ⟨rfl, hstart, rfl, rfl, hend, ?_⟩
        rw [hend, decide_eq_true (Nat.le_refl _), Bool.and_true]
    · rw [← length_drop, hall hreads]
      exact ⟨_, rfl⟩

theorem Shows.replay {cursor : ReplayCursor}
    {f : ReplayFrame} {windowBytes : Nat} {runHasExited : Bool} (h : Shows log frames cursor.offset)
    (hf : f.Tail log cursor windowBytes runHasExited) :
    Shows log (frames ++ [(windowBytes, f)]) f.newOffset := by
  obtain ⟨-, hstart, hdropped, hbytes, hfinish, -⟩ := hf
  have hlen : f.bytes.length = log.length - f.fromOffset := by rw [hbytes, length_drop]
  have hle := h.le
  refine h.concat (by omega) ?_ (by omega) (by omega) (by omega) (by omega)
  rw [hlen, ← length_drop, take_length]
  exact hbytes

structure Served (dirOf : String → String) (id : String) (s : Viewer) : Prop where
  run : s.cursor.runId = id
  shows : Shows ((s.world.logAt (dirOf id)).map Prod.fst) s.frames s.cursor.offset

theorem Served.step {id : String} (h : Served dirOf id s) (m : Moves) :
    Served dirOf id (s.step dirOf m).1 := by
  cases m with
  | event e =>
    obtain ⟨more, hmore⟩ := World.logAt_step s.world e
    refine ⟨h.run, ?_⟩
    show Shows (((s.world.step dirOf e).1.logAt (dirOf id)).map Prod.fst) s.frames s.cursor.offset
    rw [← hmore, map_append]
    exact h.shows.append _
  | replay windowBytes runHasExited reads =>
    obtain ⟨htail, -⟩ := replayTail_spec s.world s.cursor windowBytes runHasExited reads
    rw [Viewer.step]
    cases hf : s.world.replayTail dirOf s.cursor windowBytes runHasExited reads with
    | error e => exact h
    | ok f =>
      have hspec := htail f hf
      rw [h.run] at hspec
      exact ⟨hspec.run.trans h.run, h.shows.replay hspec⟩

/-- **A client that comes back is shown the log**, but for what is dropped where it is more than a window
behind, whatever the broker and the processes do between two replays; and a replay brings it to the end
of the log, unless there is no run or a read fails. -/
theorem replay_law (dirOf : String → String) (w : World) (id : String) (moves : List Moves) :
    Served dirOf id (run (Viewer.step dirOf) ⟨w, ⟨id, 0⟩, []⟩ moves) ∧
      ∀ (w : World) cursor windowBytes runHasExited reads,
        (∀ f, w.replayTail dirOf cursor windowBytes runHasExited reads = .ok f →
          f.Tail ((w.logAt (dirOf cursor.runId)).map Prod.fst) cursor windowBytes runHasExited) ∧
        (w.dirs.find? (dirOf cursor.runId) ≠ none → none ∉ reads →
          ∃ f, w.replayTail dirOf cursor windowBytes runHasExited reads = .ok f) := by
  refine ⟨?_, replayTail_spec⟩
  have hstart : Served dirOf id ⟨w, ⟨id, 0⟩, []⟩ := ⟨rfl, .nil⟩
  exact (path_run _ moves).invariant hstart (fun s m h _ => h.step m)

end ExecBroker

end Modbit
