import Modbit.Sandbox.GuestAuthority
import Modbit.Sandbox.GuestReplay

/-!
# Fences under interleaving

`advance_generation` sets the generation and then, under another lock, kills the registered
processes of older generations.  Afterwards nothing of an older generation is to run.  But a call
that has passed the gate, or found itself newer, may start or register its process after the pass;
terminal sessions have no generation and are never killed; and an advance to a generation already
set returns while the pass of the one that has set it is still to come.

`sound_run`: in every run whose steps meet the conditions that exclude this, and whose lookups are
clear, no operation is repeated within the replay window and nothing of an older generation runs
after an advance has returned.
-/

namespace Modbit.Sandbox

open Lib Window List

namespace World

/-! ### What is claimed -/

def Running (e : GuestExecutor) (p : String) (c : Child) : Prop :=
  e.machine.children.find? p = some c ∧ c.running = true

def Alive (e : GuestExecutor) (p : String) (s : PtySession) : Prop :=
  e.machine.pty.sessions.find? p = some s ∧ s.alive = true

/-- Nothing runs of a generation below that of an advance that has returned. -/
structure Fenced (w : World) : Prop where
  processes : ∀ g ∈ w.returned, ∀ p c, Running w.guest p c → g ≤ c.generation
  terminals : ∀ g ∈ w.returned, ∀ p s, Alive w.guest p s → g ≤ s.generation

/-- Operations are not repeated within the replay window, and older generations are fenced. -/
structure Sound (w : World) : Prop where
  once : Once w.log
  fenced : w.Fenced

/-! ### Clear steps -/

/-- An operation that starts a process or a terminal session. -/
def starts : GuestOp → Bool
  | .procExec .. => true
  | .ptyOpen .. => true
  | _ => false

/-- A call that will start its operation, or has started its process and not registered it. -/
def committed : Phase → Bool
  | .advance => true
  | .fencing => true
  | .dispatch => true
  | .spawned .. => true
  | _ => false

/-- A pass over the processes is outstanding, for a generation. -/
def Pending (w : World) (target : Nat) : Prop :=
  (∃ call ∈ w.calls, call.1.generation = target ∧ call.2 = .fencing) ∨
    (target, AdvancePhase.fencing) ∈ w.advances

/-- An advance: one that sets the generation finds no older call about to start or register
something, and no older terminal session alive; one that returns early finds no pass
outstanding. -/
def ClearAdvance (w : World) (target : Nat) : Prop :=
  if w.guest.session.generation < target then
    (∀ call ∈ w.calls, starts call.1.op = true → committed call.2 = true →
      target ≤ call.1.generation) ∧ ∀ p s, Alive w.guest p s → target ≤ s.generation
  else ∀ t, ¬ w.Pending t

def FreshId (w : World) (o : Outside) : Prop :=
  w.guest.machine.children.find? ("proc-" ++ o.uuid) = none ∧
    ∀ call ∈ w.calls, ∀ run, call.2 ≠ .spawned ("proc-" ++ o.uuid) run

def FenceTurn (w : World) (o : Outside) (req : GuestRequest) : Phase → Prop
  | .advance => w.ClearAdvance req.generation
  | .dispatch => w.FreshId o
  | _ => True

def FencesClear (w : World) : Event → Prop
  | .turn i o => ∀ call ∈ w.calls[i]?, w.FenceTurn o call.1 call.2
  | .advanceTurn i => ∀ call ∈ w.advances[i]?, call.2 = .start → w.ClearAdvance call.1
  | _ => True

def Clear (w : World) (ev : Event) : Prop := w.LookupsClear ev ∧ w.FencesClear ev

/-! ### The invariant -/

/-- A process that has been started is registered under the generation of its request, unless the
call that has started it is about to do so. -/
def Registered (w : World) (p : String) (generation : Nat) : Prop :=
  (∃ call ∈ w.calls, ∃ run, call.2 = .spawned p run) ∨
    ∃ h, w.guest.procs.find? p = some h ∧ h.generation = generation

structure Guarded (w : World) : Prop where
  returned : ∀ g ∈ w.returned, g ≤ w.guest.session.generation ∧
    ∀ p c, Running w.guest p c → g ≤ c.generation
  committed : ∀ call ∈ w.calls, starts call.1.op = true → committed call.2 = true →
    w.guest.session.generation ≤ call.1.generation
  spawned : ∀ call ∈ w.calls, ∀ p run, call.2 = .spawned p run → starts call.1.op = true ∧
    ∀ c, w.guest.machine.children.find? p = some c → c.generation = call.1.generation
  registered : ∀ p c, Running w.guest p c → w.Registered p c.generation
  outstanding : ∀ p c, Running w.guest p c → c.generation < w.guest.session.generation →
    ∃ target, c.generation < target ∧ w.Pending target
  pending : ∀ target, w.Pending target → target ≤ w.guest.session.generation
  terminals : ∀ p s, Alive w.guest p s → w.guest.session.generation ≤ s.generation

theorem Guarded.fenced {w : World} (h : w.Guarded) : w.Fenced where
  processes g hg := (h.returned g hg).2
  terminals g hg p s hs := Nat.le_trans (h.returned g hg).1 (h.terminals p s hs)

structure Shrinks (e e' : GuestExecutor) : Prop where
  generation : e'.session.generation = e.session.generation
  running : ∀ p c, Running e' p c → Running e p c
  children : ∀ p c, e'.machine.children.find? p = some c →
    ∃ c₀, e.machine.children.find? p = some c₀ ∧ c₀.generation = c.generation
  procs : ∀ p c, Running e' p c → e'.procs.find? p = e.procs.find? p

theorem Shrinks.of_eq {e e' : GuestExecutor}
    (hgeneration : e'.session.generation = e.session.generation) (hprocs : e'.procs = e.procs)
    (hchildren : e'.machine.children = e.machine.children) : Shrinks e e' where
  generation := hgeneration
  running p c h := ⟨hchildren ▸ h.1, h.2⟩
  children p c h := ⟨c, hchildren ▸ h, rfl⟩
  procs p c _ := by rw [hprocs]

theorem Guarded.shrink {w w' : World} (h : w.Guarded) (hguest : Shrinks w.guest w'.guest)
    (hreturned : ∀ g ∈ w'.returned, g ∈ w.returned ∨
      (g ≤ w.guest.session.generation ∧ ∀ p c, Running w.guest p c → g ≤ c.generation))
    (hcommitted : ∀ call ∈ w'.calls, starts call.1.op = true → World.committed call.2 = true →
      w.guest.session.generation ≤ call.1.generation)
    (hspawned : ∀ p run, (∀ call ∈ w'.calls, call.2 = .spawned p run → call ∈ w.calls) ∧
      ∀ call ∈ w.calls, call.2 = .spawned p run → call ∈ w'.calls)
    (hpending : ∀ t, w'.Pending t ↔ w.Pending t)
    (halive : ∀ p s, Alive w'.guest p s → w.guest.session.generation ≤ s.generation) :
    w'.Guarded where
  returned g hg := by
    rw [hguest.generation]
    have hold : g ≤ w.guest.session.generation ∧ ∀ p c, Running w.guest p c → g ≤ c.generation := by
      rcases hreturned g hg with hg | hnew
      · exact h.returned g hg
      · exact hnew
    exact ⟨hold.1, fun p c hc => hold.2 p c (hguest.running p c hc)⟩
  committed call hmem hstarts hc := by
    rw [hguest.generation]
    exact hcommitted call hmem hstarts hc
  spawned call hmem p run hp := by
    obtain ⟨hstarts, hgen⟩ := h.spawned call ((hspawned p run).1 call hmem hp) p run hp
    refine ⟨hstarts, fun c hc => ?_⟩
    obtain ⟨c₀, hc₀, hsame⟩ := hguest.children p c hc
    rw [← hsame, hgen c₀ hc₀]
  registered p c hc := by
    rcases h.registered p c (hguest.running p c hc) with ⟨call, hmem, run, hp⟩ | ⟨handle, hh, hgen⟩
    · exact Or.inl ⟨call, (hspawned p run).2 call hmem hp, run, hp⟩
    · exact Or.inr ⟨handle, by rw [hguest.procs p c hc, hh], hgen⟩
  outstanding p c hc hlt := by
    rw [hguest.generation] at hlt
    obtain ⟨target, ht, hp⟩ := h.outstanding p c (hguest.running p c hc) hlt
    exact ⟨target, ht, (hpending target).mpr hp⟩
  pending target hp := by
    rw [hguest.generation]
    exact h.pending target ((hpending target).mp hp)
  terminals p s hs := by
    rw [hguest.generation]
    exact halive p s hs

/-! ### Turns that start nothing -/

/-- The phases in which a call has something outstanding: the registration of its process, or its
pass over the processes. -/
def outstanding : Phase → Bool
  | .spawned .. => true
  | .fencing => true
  | _ => false

variable {w w' : World} {i : Nat} {o : Outside} {req : GuestRequest} {phase phase' : Phase}

theorem mem_set_of_ne {call : GuestRequest × Phase} (hi : w.calls[i]? = some (req, phase))
    (hmem : call ∈ w.calls) (hne : call ≠ (req, phase)) : call ∈ w.calls.set i (req, phase') := by
  obtain ⟨j, hj⟩ := mem_iff_getElem?.mp hmem
  have hij : i ≠ j := by
    rintro rfl
    exact hne (Option.some.inj (hj.symm.trans hi))
  refine mem_of_getElem? (i := j) ?_
  rw [getElem?_set_ne hij, hj]

theorem mem_set_outstanding {call : GuestRequest × Phase} (hi : w.calls[i]? = some (req, phase))
    (hout : outstanding phase = false) (hout' : outstanding phase' = false)
    (hcall : outstanding call.2 = true) : call ∈ w.calls.set i (req, phase') ↔ call ∈ w.calls := by
  constructor
  · intro hmem
    rcases mem_or_eq_of_mem_set hmem with hmem | rfl
    · exact hmem
    · rw [hout'] at hcall
      cases hcall
  · intro hmem
    refine mem_set_of_ne hi hmem ?_
    rintro rfl
    rw [hout] at hcall
    cases hcall

theorem committed_set (h : w.Guarded)
    (hself : starts req.op = true → World.committed phase' = true →
      w.guest.session.generation ≤ req.generation) :
    ∀ call ∈ w.calls.set i (req, phase'), starts call.1.op = true → World.committed call.2 = true →
      w.guest.session.generation ≤ call.1.generation := by
  intro call hmem hstarts hc
  rcases mem_or_eq_of_mem_set hmem with hmem | rfl
  · exact h.committed call hmem hstarts hc
  · exact hself hstarts hc

theorem Guarded.calm (h : w.Guarded) (hi : w.calls[i]? = some (req, phase))
    (hguest : Shrinks w.guest w'.guest) (hcalls : w'.calls = w.calls.set i (req, phase'))
    (hadvances : w'.advances = w.advances)
    (hout : World.outstanding phase = false) (hout' : World.outstanding phase' = false)
    (hreturned : ∀ g ∈ w'.returned, g ∈ w.returned ∨
      (g ≤ w.guest.session.generation ∧ ∀ p c, Running w.guest p c → g ≤ c.generation))
    (hcommitted : starts req.op = true → World.committed phase' = true →
      w.guest.session.generation ≤ req.generation)
    (halive : ∀ p s, Alive w'.guest p s → w.guest.session.generation ≤ s.generation) :
    w'.Guarded := by
  have hmem : ∀ call : GuestRequest × Phase, World.outstanding call.2 = true →
      (call ∈ w'.calls ↔ call ∈ w.calls) := by
    intro call hcall
    rw [hcalls]
    exact mem_set_outstanding hi hout hout' hcall
  refine h.shrink hguest hreturned (hcalls ▸ committed_set h hcommitted) ?_ ?_ halive
  · exact fun p run => ⟨fun call hm hp => (hmem call (hp ▸ rfl)).mp hm,
      fun call hm hp => (hmem call (hp ▸ rfl)).mpr hm⟩
  · intro t
    rw [Pending, Pending, hadvances]
    refine or_congr (exists_congr fun call => ?_) Iff.rfl
    exact ⟨fun ⟨hm, hgen, hp⟩ => ⟨(hmem call (hp ▸ rfl)).mp hm, hgen, hp⟩,
      fun ⟨hm, hgen, hp⟩ => ⟨(hmem call (hp ▸ rfl)).mpr hm, hgen, hp⟩⟩

/-! ### Processes and sessions of an operation -/

theorem find?_stopChild (e : GuestExecutor) (procId p : String) :
    (e.stopChild procId).machine.children.find? p =
      (e.machine.children.find? p).map
        (fun c => if p = procId then { c with running := false } else c) := by
  show (e.machine.children.filterMap _).find? p = _
  rw [OrdMap.find?_filterMap]
  cases e.machine.children.find? p with
  | none => rfl
  | some c => rfl

theorem shrinks_stopChild (e : GuestExecutor) (procId : String) : Shrinks e (e.stopChild procId) where
  generation := rfl
  running := by
    rintro p c ⟨hfind, hrun⟩
    rw [find?_stopChild] at hfind
    obtain ⟨c₀, hc₀, rfl⟩ := Option.map_eq_some_iff.mp hfind
    split_ifs at hrun with hp
    rw [if_neg hp]
    exact ⟨hc₀, hrun⟩
  children := by
    intro p c hfind
    rw [find?_stopChild] at hfind
    obtain ⟨c₀, hc₀, rfl⟩ := Option.map_eq_some_iff.mp hfind
    refine ⟨c₀, hc₀, ?_⟩
    split_ifs
    · rfl
    · rfl
  procs := fun _ _ _ => rfl

theorem shrinks_endChild (e : GuestExecutor) (procId : String) (run : ProgramRun) :
    Shrinks e (e.endChild procId run).1 := by
  have hfind : ∀ p c, (e.endChild procId run).1.machine.children.find? p = some c →
      p ≠ procId ∧ e.machine.children.find? p = some c := by
    intro p c h
    have herase : (e.machine.children.erase procId).find? p = some c := h
    rw [OrdMap.find?_erase] at herase
    split_ifs at herase with hp
    exact ⟨hp, herase⟩
  refine ⟨rfl, fun p c hc => ⟨(hfind p c hc.1).2, hc.2⟩,
    fun p c hc => ⟨c, (hfind p c hc).2, rfl⟩, fun p c hc => ?_⟩
  show (e.procs.erase procId).find? p = _
  rw [OrdMap.find?_erase, if_neg (hfind p c hc.1).1]

variable {e : GuestExecutor}

/-- What an operation that is not `proc.exec` does to the processes and the terminal sessions. -/
theorem carryOut_shrinks (h : ∀ argv cwd env timeoutMs, req.op ≠ .procExec argv cwd env timeoutMs) :
    Shrinks e (e.carryOut o req).1 := by
  have hpty : ∀ {α : Type} (code : String) (next : α → GuestPayload)
      (done : PtyBroker × Option (Except String α)), Shrinks e (e.ptyAnswer code next done).1 :=
    fun _ _ _ => .of_eq rfl rfl rfl
  rw [GuestExecutor.carryOut]
  cases hop : req.op with
  | procExec argv cwd env timeoutMs => exact absurd hop (h argv cwd env timeoutMs)
  | procKill procId =>
    dsimp only
    rw [GuestExecutor.procKill]
    split
    · exact shrinks_stopChild e procId
    · exact .of_eq rfl rfl rfl
  | fsRead path => exact .of_eq rfl rfl rfl
  | fsWrite path bytesBase64 =>
    dsimp only
    rw [GuestExecutor.fsWrite]
    split
    · exact .of_eq rfl rfl rfl
    · split
      · exact .of_eq rfl rfl rfl
      · split
        · exact .of_eq rfl rfl rfl
        · exact .of_eq rfl rfl rfl
  | fsList path => exact .of_eq rfl rfl rfl
  | ptyOpen argv cwd cols rows =>
    dsimp only
    rw [GuestExecutor.ptyOpen]
    split
    · exact .of_eq rfl rfl rfl
    · split
      · exact .of_eq rfl rfl rfl
      · exact hpty _ _ _
  | ptyWrite ptyId bytesBase64 =>
    dsimp only
    rw [GuestExecutor.ptyWrite]
    split
    · exact .of_eq rfl rfl rfl
    · exact hpty _ _ _
  | ptyRead ptyId offset max => exact hpty _ _ _
  | ptyKill ptyId => exact hpty _ _ _
  | ping => exact .of_eq rfl rfl rfl

variable {b : PtyBroker} {p : String} {s : PtySession}

theorem sessions_locked {α : Type} {next : PtyBroker × Option α}
    (h : (b.locked next).1.sessions.find? p = some s) :
    b.sessions.find? p = some s ∨ next.1.sessions.find? p = some s := by
  rw [PtyBroker.locked] at h
  split_ifs at h
  · exact Or.inl h
  · exact Or.inr h

theorem sessions_spawn {id p : String} {generation : Nat} {started : Except String Unit}
    (h : (b.spawn id generation started).1.sessions.find? p = some s) :
    b.sessions.find? p = some s ∨ s.generation = generation := by
  unfold PtyBroker.spawn at h
  rcases sessions_locked h with h | h
  · exact Or.inl h
  · split_ifs at h
    · exact Or.inl h
    · split at h
      · exact Or.inl h
      · rw [OrdMap.find?_insert] at h
        split_ifs at h
        · obtain rfl := Option.some.inj h
          exact Or.inr rfl
        · exact Or.inl h

theorem sessions_write {id p : String} {written : Except String Unit}
    (h : (b.write id written).1.sessions.find? p = some s) :
    b.sessions.find? p = some s := by
  unfold PtyBroker.write at h
  rcases sessions_locked h with h | h
  · exact h
  · split at h
    · exact h
    · exact h
    · exact h

theorem sessions_read {id p : String} {offset max : Nat}
    (h : (b.read id offset max).1.sessions.find? p = some s) : b.sessions.find? p = some s := by
  unfold PtyBroker.read at h
  rcases sessions_locked h with h | h
  · exact h
  · split at h
    · exact h
    · split_ifs at h
      · exact h
      · exact h

theorem sessions_kill {id p : String}
    (h : (b.kill id).1.sessions.find? p = some s) : b.sessions.find? p = some s := by
  unfold PtyBroker.kill at h
  rcases sessions_locked h with h | h
  · exact h
  · rw [OrdMap.find?_erase] at h
    split_ifs at h
    exact h

theorem sessions_carryOut
    (hne : ∀ argv cwd env timeoutMs, req.op ≠ .procExec argv cwd env timeoutMs)
    (h : (e.carryOut o req).1.machine.pty.sessions.find? p = some s) :
    e.machine.pty.sessions.find? p = some s ∨
      (starts req.op = true ∧ s.generation = req.generation) := by
  rw [GuestExecutor.carryOut] at h
  cases hop : req.op with
  | procExec argv cwd env timeoutMs => exact absurd hop (hne argv cwd env timeoutMs)
  | procKill procId =>
    rw [hop] at h
    dsimp only at h
    rw [GuestExecutor.procKill] at h
    split at h
    · exact Or.inl h
    · exact Or.inl h
  | fsRead path =>
    rw [hop] at h
    exact Or.inl h
  | fsWrite path bytesBase64 =>
    rw [hop] at h
    dsimp only at h
    rw [GuestExecutor.fsWrite] at h
    split at h
    · exact Or.inl h
    · split at h
      · exact Or.inl h
      · split at h
        · exact Or.inl h
        · exact Or.inl h
  | fsList path =>
    rw [hop] at h
    exact Or.inl h
  | ptyOpen argv cwd cols rows =>
    rw [hop] at h
    dsimp only at h
    rw [GuestExecutor.ptyOpen] at h
    split at h
    · exact Or.inl h
    · split at h
      · exact Or.inl h
      · exact (sessions_spawn h).imp_right (fun hgen => ⟨rfl, hgen⟩)
  | ptyWrite ptyId bytesBase64 =>
    rw [hop] at h
    dsimp only at h
    rw [GuestExecutor.ptyWrite] at h
    split at h
    · exact Or.inl h
    · exact Or.inl (sessions_write h)
  | ptyRead ptyId offset max =>
    rw [hop] at h
    exact Or.inl (sessions_read h)
  | ptyKill ptyId =>
    rw [hop] at h
    exact Or.inl (sessions_kill h)
  | ping =>
    rw [hop] at h
    exact Or.inl h

/-! ### Advances -/

variable {target : Nat}

theorem Guarded.setting (h : w.Guarded)
    (hlt : w.guest.session.generation < target) (hclear : w.ClearAdvance target)
    (hguest : w'.guest = w.guest.setGeneration target) (hreturned : w'.returned = w.returned)
    (hcalls : ∀ call ∈ w'.calls,
      call ∈ w.calls ∨ (call.1.generation = target ∧ call.2 = .fencing))
    (hspawned : ∀ call ∈ w.calls, ∀ p run, call.2 = .spawned p run → call ∈ w'.calls)
    (hpending : w'.Pending target) (hold : ∀ t, w'.Pending t → w.Pending t ∨ t = target) :
    w'.Guarded := by
  rw [ClearAdvance, if_pos hlt] at hclear
  have hgen : w'.guest.session.generation = target := by rw [hguest]; rfl
  have hrun : ∀ p c, Running w'.guest p c → Running w.guest p c := fun p c hc => by
    rw [hguest] at hc
    exact hc
  refine ⟨fun g hg => ?_, fun call hmem hstarts hc => ?_, fun call hmem p run hp => ?_,
    fun p c hc => ?_, fun p c hc hlt => ⟨target, hgen ▸ hlt, hpending⟩, fun t ht => ?_,
    fun p s hs => ?_⟩
  · rw [hreturned] at hg
    obtain ⟨hle, hruns⟩ := h.returned g hg
    exact ⟨by rw [hgen]; omega, fun p c hc => hruns p c (hrun p c hc)⟩
  · rw [hgen]
    rcases hcalls call hmem with hmem | ⟨hsame, -⟩
    · exact hclear.1 call hmem hstarts hc
    · exact Nat.le_of_eq hsame.symm
  · rcases hcalls call hmem with hmem | ⟨-, hf⟩
    · rw [hguest]
      exact h.spawned call hmem p run hp
    · rw [hf] at hp
      cases hp
  · rcases h.registered p c (hrun p c hc) with ⟨call, hmem, run, hp⟩ | hh
    · exact Or.inl ⟨call, hspawned call hmem p run hp, run, hp⟩
    · refine Or.inr ?_
      rw [hguest]
      exact hh
  · rw [hgen]
    rcases hold t ht with ht | rfl
    · have := h.pending t ht
      omega
    · exact Nat.le_refl _
  · rw [hgen]
    rw [hguest] at hs
    exact hclear.2 p s hs

theorem running_fence {c : Child} (h : Running (e.fence target) p c) :
    Running e p c ∧ ∀ handle, e.procs.find? p = some handle → target ≤ handle.generation := by
  obtain ⟨hfind, hrun⟩ := h
  simp only [GuestExecutor.fence, OrdMap.find?_filterMap] at hfind
  obtain ⟨c₀, hc₀, hc⟩ := Option.bind_eq_some_iff.mp hfind
  cases hh : e.procs.find? p with
  | none =>
    rw [hh] at hc
    obtain rfl := Option.some.inj hc
    exact ⟨⟨hc₀, hrun⟩, fun handle hhandle => by cases hhandle⟩
  | some handle =>
    rw [hh] at hc
    obtain rfl := Option.some.inj hc
    split_ifs at hrun with hold
    rw [if_neg hold]
    refine ⟨⟨hc₀, hrun⟩, fun handle' hhandle => ?_⟩
    obtain rfl := Option.some.inj hhandle
    exact Nat.le_of_not_lt hold

theorem children_fence {c : Child} (h : (e.fence target).machine.children.find? p = some c) :
    ∃ c₀, e.machine.children.find? p = some c₀ ∧ c₀.generation = c.generation := by
  simp only [GuestExecutor.fence, OrdMap.find?_filterMap] at h
  obtain ⟨c₀, hc₀, hc⟩ := Option.bind_eq_some_iff.mp h
  refine ⟨c₀, hc₀, ?_⟩
  split at hc
  · obtain rfl := Option.some.inj hc
    split_ifs
    · rfl
    · rfl
  · obtain rfl := Option.some.inj hc
    rfl

theorem procs_fence (e : GuestExecutor) (target : Nat) (p : String) :
    (e.fence target).procs.find? p = (e.procs.find? p).map
      (fun h => if h.generation < target then { h with fenced := true } else h) := by
  show (e.procs.mapValues _).find? p = _
  rw [OrdMap.find?_mapValues]

/-- **The pass over the processes**: after it none of an older generation runs. -/
theorem Guarded.passing (h : w.Guarded)
    (hle : target ≤ w.guest.session.generation) (hguest : w'.guest = w.guest.fence target)
    (hreturned : ∀ g ∈ w'.returned, g ∈ w.returned ∨ g = target)
    (hcalls : ∀ call ∈ w'.calls, call ∈ w.calls ∨ (call.2 = .dispatch ∧
      (starts call.1.op = true → w.guest.session.generation ≤ call.1.generation)))
    (hspawned : ∀ call ∈ w.calls, ∀ p run, call.2 = .spawned p run → call ∈ w'.calls)
    (hpending : ∀ t, w.Pending t → w'.Pending t ∨ t = target)
    (hold : ∀ t, w'.Pending t → w.Pending t) : w'.Guarded := by
  have hgen : w'.guest.session.generation = w.guest.session.generation := by rw [hguest]; rfl
  -- What runs afterwards has run before, and is of the target's generation or a newer one.
  have hrun : ∀ p c, Running w'.guest p c → Running w.guest p c ∧ target ≤ c.generation := by
    intro p c hc
    rw [hguest] at hc
    obtain ⟨hrun, hhandle⟩ := running_fence hc
    refine ⟨hrun, ?_⟩
    rcases h.registered p c hrun with ⟨call, hmem, run, hp⟩ | ⟨handle, hh, hsame⟩
    · obtain ⟨hstarts, hchild⟩ := h.spawned call hmem p run hp
      rw [hchild c hrun.1]
      exact Nat.le_trans hle (h.committed call hmem hstarts (hp ▸ rfl))
    · exact hsame ▸ hhandle handle hh
  refine ⟨fun g hg => ?_, fun call hmem hstarts hc => ?_, fun call hmem p run hp => ?_,
    fun p c hc => ?_, fun p c hc hlt => ?_, fun t ht => ?_, fun p s hs => ?_⟩
  · rw [hgen]
    rcases hreturned g hg with hg | rfl
    · obtain ⟨hle, hruns⟩ := h.returned g hg
      exact ⟨hle, fun p c hc => hruns p c (hrun p c hc).1⟩
    · exact ⟨hle, fun p c hc => (hrun p c hc).2⟩
  · rw [hgen]
    rcases hcalls call hmem with hmem | ⟨-, hcall⟩
    · exact h.committed call hmem hstarts hc
    · exact hcall hstarts
  · rcases hcalls call hmem with hmem | ⟨hd, -⟩
    · obtain ⟨hstarts, hchild⟩ := h.spawned call hmem p run hp
      refine ⟨hstarts, fun c hc => ?_⟩
      rw [hguest] at hc
      obtain ⟨c₀, hc₀, hsame⟩ := children_fence hc
      rw [← hsame, hchild c₀ hc₀]
    · rw [hd] at hp
      cases hp
  · rcases h.registered p c (hrun p c hc).1 with ⟨call, hmem, run, hp⟩ | ⟨handle, hh, hsame⟩
    · exact Or.inl ⟨call, hspawned call hmem p run hp, run, hp⟩
    · refine Or.inr ⟨_, by rw [hguest, procs_fence, hh, Option.map_some], ?_⟩
      split_ifs
      · exact hsame
      · exact hsame
  · rw [hgen] at hlt
    obtain ⟨t, ht, hp⟩ := h.outstanding p c (hrun p c hc).1 hlt
    rcases hpending t hp with hp | rfl
    · exact ⟨t, ht, hp⟩
    · have := (hrun p c hc).2
      omega
  · rw [hgen]
    exact h.pending t (hold t ht)
  · rw [hgen]
    rw [hguest] at hs
    exact h.terminals p s hs

theorem Guarded.early (h : w.Guarded) (hle : target ≤ w.guest.session.generation)
    (hclear : w.ClearAdvance target) :
    target ≤ w.guest.session.generation ∧ ∀ p c, Running w.guest p c → target ≤ c.generation := by
  rw [ClearAdvance, if_neg (Nat.not_lt.mpr hle)] at hclear
  refine ⟨hle, fun p c hc => ?_⟩
  by_contra hlt
  obtain ⟨t, -, hp⟩ := h.outstanding p c hc (by omega)
  exact hclear t hp

/-! ### Processes that start -/

theorem startProc_cases (e : GuestExecutor) (o : Outside) (generation : Nat) (argv : List String)
    (cwd : Option String) (env : List (String × String)) (timeoutMs : Option Nat) :
    (∃ error, e.startProc o generation argv cwd env timeoutMs = (e, .error error)) ∨
      ∃ run, e.startProc o generation argv cwd env timeoutMs =
        (e.startChild ("proc-" ++ o.uuid) generation, .ok ("proc-" ++ o.uuid, run)) := by
  rw [GuestExecutor.startProc]
  split_ifs
  · exact Or.inl ⟨_, rfl⟩
  · split
    · exact Or.inl ⟨_, rfl⟩
    · rw [GuestExecutor.spawnChild]
      split
      · exact Or.inl ⟨_, rfl⟩
      · exact Or.inr ⟨_, rfl⟩

theorem pending_set (hi : w.calls[i]? = some (req, phase)) (hf : phase ≠ .fencing)
    (hf' : phase' ≠ .fencing) (hcalls : w'.calls = w.calls.set i (req, phase'))
    (hadvances : w'.advances = w.advances) (t : Nat) : w'.Pending t ↔ w.Pending t := by
  rw [Pending, Pending, hcalls, hadvances]
  refine or_congr ⟨fun ⟨call, hmem, hgen, hp⟩ => ?_, fun ⟨call, hmem, hgen, hp⟩ => ?_⟩ Iff.rfl
  · rcases mem_or_eq_of_mem_set hmem with hmem | rfl
    · exact ⟨call, hmem, hgen, hp⟩
    · exact absurd hp hf'
  · refine ⟨call, mem_set_of_ne hi hmem ?_, hgen, hp⟩
    rintro rfl
    exact hf hp

theorem guarded_start {run : ProgramRun} (h : w.Guarded)
    (hi : w.calls[i]? = some (req, .dispatch)) (hstarts : starts req.op = true)
    (hfresh : ∀ call ∈ w.calls, ∀ run, call.2 ≠ .spawned p run)
    (hguest : w'.guest = (w.guest.perform req).startChild p req.generation)
    (hcalls : w'.calls = w.calls.set i (req, .spawned p run)) (hadvances : w'.advances = w.advances)
    (hreturned : w'.returned = w.returned) : w'.Guarded := by
  obtain ⟨hlt, -⟩ := List.getElem?_eq_some_iff.mp hi
  have hgen : w'.guest.session.generation = w.guest.session.generation := by rw [hguest]; rfl
  have hfind : ∀ q, w'.guest.machine.children.find? q =
      if q = p then some ⟨req.generation, true⟩ else w.guest.machine.children.find? q := by
    intro q
    rw [hguest]
    exact OrdMap.find?_insert _ _ _ _
  have hnewer : w.guest.session.generation ≤ req.generation :=
    h.committed _ (mem_of_getElem? hi) hstarts rfl
  have hmem : ∀ call ∈ w.calls, ∀ q r, call.2 = .spawned q r → call ∈ w'.calls := by
    intro call hm q r hp
    rw [hcalls]
    refine mem_set_of_ne hi hm ?_
    rintro rfl
    cases hp
  have hpending : ∀ t, w'.Pending t ↔ w.Pending t :=
    pending_set hi (fun h => (by cases h)) (fun h => (by cases h)) hcalls hadvances
  -- What runs is the new process or has run before.
  have hrun : ∀ q c, Running w'.guest q c →
      (q = p ∧ c.generation = req.generation) ∨ (q ≠ p ∧ Running w.guest q c) := by
    rintro q c ⟨hc, hrunning⟩
    rw [hfind] at hc
    split_ifs at hc with hq
    · obtain rfl := Option.some.inj hc
      exact Or.inl ⟨hq, rfl⟩
    · exact Or.inr ⟨hq, hc, hrunning⟩
  refine ⟨fun g hg => ?_, ?_, fun call hm q r hp => ?_, fun q c hc => ?_, fun q c hc hlt' => ?_,
    fun t ht => ?_, fun q s hs => ?_⟩
  · rw [hgen]
    rw [hreturned] at hg
    obtain ⟨hle, hruns⟩ := h.returned g hg
    refine ⟨hle, fun q c hc => ?_⟩
    rcases hrun q c hc with ⟨-, hc⟩ | ⟨-, hc⟩
    · omega
    · exact hruns q c hc
  · rw [hgen, hcalls]
    exact committed_set h (fun _ _ => hnewer)
  · rw [hcalls] at hm
    rcases mem_or_eq_of_mem_set hm with hold | rfl
    · obtain ⟨hstarts', hchild⟩ := h.spawned call hold q r hp
      refine ⟨hstarts', fun c hc => ?_⟩
      rw [hfind, if_neg] at hc
      · exact hchild c hc
      · rintro rfl
        exact hfresh call hold r hp
    · refine ⟨hstarts, fun c hc => ?_⟩
      cases hp
      rw [hfind, if_pos rfl] at hc
      rw [← Option.some.inj hc]
  · rcases hrun q c hc with ⟨rfl, -⟩ | ⟨-, hc⟩
    · exact Or.inl ⟨(req, .spawned q run), hcalls ▸ mem_set hlt _, run, rfl⟩
    · rcases h.registered q c hc with ⟨call, hm, r, hp⟩ | hh
      · exact Or.inl ⟨call, hmem call hm q r hp, r, hp⟩
      · refine Or.inr ?_
        rw [hguest]
        exact hh
  · rw [hgen] at hlt'
    rcases hrun q c hc with ⟨-, hc⟩ | ⟨-, hc⟩
    · omega
    · obtain ⟨t, ht, hp⟩ := h.outstanding q c hc hlt'
      exact ⟨t, ht, (hpending t).mpr hp⟩
  · rw [hgen]
    exact h.pending t ((hpending t).mp ht)
  · rw [hgen]
    rw [hguest] at hs
    exact h.terminals q s hs

theorem guarded_register {run : ProgramRun} (h : w.Guarded)
    (hi : w.calls[i]? = some (req, .spawned p run))
    (hguest : w'.guest = w.guest.register p req.generation)
    (hcalls : w'.calls = w.calls.set i (req, .waiting p run)) (hadvances : w'.advances = w.advances)
    (hreturned : w'.returned = w.returned) : w'.Guarded := by
  have hgen : w'.guest.session.generation = w.guest.session.generation := by rw [hguest]; rfl
  have hrun : ∀ q c, Running w'.guest q c ↔ Running w.guest q c := by
    intro q c
    rw [hguest]
    exact Iff.rfl
  have hpending : ∀ t, w'.Pending t ↔ w.Pending t :=
    pending_set hi (fun h => (by cases h)) (fun h => (by cases h)) hcalls hadvances
  refine ⟨fun g hg => ?_, ?_, fun call hm q r hp => ?_, fun q c hc => ?_, fun q c hc hlt => ?_,
    fun t ht => ?_, fun q s hs => ?_⟩
  · rw [hgen]
    rw [hreturned] at hg
    obtain ⟨hle, hruns⟩ := h.returned g hg
    exact ⟨hle, fun q c hc => hruns q c ((hrun q c).mp hc)⟩
  · rw [hgen, hcalls]
    exact committed_set h (fun _ hc => (by cases hc))
  · rw [hcalls] at hm
    rcases mem_or_eq_of_mem_set hm with hm | rfl
    · rw [hguest]
      exact h.spawned call hm q r hp
    · cases hp
  · rw [hrun] at hc
    have hprocs : w'.guest.procs.find? q =
        if q = p then some ⟨req.generation, false⟩ else w.guest.procs.find? q := by
      rw [hguest]
      exact OrdMap.find?_insert _ _ _ _
    by_cases hq : q = p
    · subst hq
      refine Or.inr ⟨⟨req.generation, false⟩, by rw [hprocs, if_pos rfl], ?_⟩
      exact ((h.spawned _ (mem_of_getElem? hi) q run rfl).2 c hc.1).symm
    · rcases h.registered q c hc with ⟨call, hm, r, hp⟩ | ⟨handle, hh, hsame⟩
      · refine Or.inl ⟨call, hcalls ▸ mem_set_of_ne hi hm ?_, r, hp⟩
        rintro rfl
        cases hp
        exact hq rfl
      · exact Or.inr ⟨handle, by rw [hprocs, if_neg hq, hh], hsame⟩
  · rw [hgen] at hlt
    obtain ⟨t, ht, hp⟩ := h.outstanding q c ((hrun q c).mp hc) hlt
    exact ⟨t, ht, (hpending t).mpr hp⟩
  · rw [hgen]
    exact h.pending t ((hpending t).mp ht)
  · rw [hgen]
    rw [hguest] at hs
    exact h.terminals q s hs

theorem guarded_dispatch (h : w.Guarded) (hi : w.calls[i]? = some (req, .dispatch))
    (hfresh : w.FreshId o) (hguest : w'.guest = (w.guest.beginOp o req).1)
    (hcalls : w'.calls = w.calls.set i (req, (w.guest.beginOp o req).2))
    (hadvances : w'.advances = w.advances) (hreturned : w'.returned = w.returned) :
    w'.Guarded := by
  have hret : ∀ g ∈ w'.returned, g ∈ w.returned ∨ (g ≤ w.guest.session.generation ∧
      ∀ p c, Running w.guest p c → g ≤ c.generation) := fun g hg => Or.inl (hreturned ▸ hg)
  by_cases hexec : ∃ argv cwd env timeoutMs, req.op = .procExec argv cwd env timeoutMs
  · obtain ⟨argv, cwd, env, timeoutMs, hop⟩ := hexec
    rw [GuestExecutor.beginOp, hop] at hguest hcalls
    dsimp only at hguest hcalls
    rcases startProc_cases (w.guest.perform req) o req.generation argv cwd env timeoutMs with
      ⟨error, hstart⟩ | ⟨run, hstart⟩
    · rw [hstart] at hguest hcalls
      refine h.calm hi (hguest ▸ .of_eq rfl rfl rfl) hcalls hadvances rfl rfl hret
        (fun _ hc => (by cases hc)) (fun p s hs => ?_)
      rw [hguest] at hs
      exact h.terminals p s hs
    · rw [hstart] at hguest hcalls
      exact guarded_start h hi (hop ▸ rfl) hfresh.2 hguest hcalls hadvances hreturned
  · have hne : ∀ argv cwd env timeoutMs, req.op ≠ .procExec argv cwd env timeoutMs :=
      fun argv cwd env timeoutMs hop => hexec ⟨argv, cwd, env, timeoutMs, hop⟩
    have hshrinks := carryOut_shrinks (o := o) (e := w.guest.perform req) hne
    have hsessions : ∀ p s, Alive ((w.guest.perform req).carryOut o req).1 p s →
        w.guest.session.generation ≤ s.generation := by
      intro p s hs
      rcases sessions_carryOut hne hs.1 with hold | ⟨hstarts, hgen⟩
      · exact h.terminals p s ⟨hold, hs.2⟩
      · exact hgen ▸ h.committed _ (mem_of_getElem? hi) hstarts rfl
    rw [GuestExecutor.beginOp_of_ne hne] at hguest hcalls
    cases hdone : (w.guest.perform req).carryOut o req with
    | mk e result =>
      rw [hdone] at hguest hcalls hshrinks hsessions
      have hmachine : Shrinks w.guest e :=
        ⟨hshrinks.generation, hshrinks.running, hshrinks.children, hshrinks.procs⟩
      cases result with
      | none =>
        exact h.calm hi (hguest ▸ hmachine) hcalls hadvances rfl rfl hret
          (fun _ hc => (by cases hc)) (hguest ▸ hsessions)
      | some result =>
        exact h.calm hi (hguest ▸ hmachine) hcalls hadvances rfl rfl hret
          (fun _ hc => (by cases hc)) (hguest ▸ hsessions)

/-! ### Steps -/

theorem generation_of_gate {session : GuestSession} {u : Unit} (h : gate session req = .ok u) :
    session.generation ≤ req.generation := by
  rw [gate] at h
  split_ifs at h with hversion htask htoken hclass hop hgen
  exact Nat.le_of_not_lt hgen

theorem guarded_turn (h : w.Guarded) (hi : w.calls[i]? = some (req, phase))
    (hclear : w.FenceTurn o req phase) : (w.step (.turn i o)).1.Guarded := by
  have hstep : (w.step (.turn i o)).1 =
      { w with
        guest := (w.guest.turn o req phase).1
        calls := w.calls.set i (req, (w.guest.turn o req phase).2)
        returned := w.returned ++ returns w.guest req phase
        log := w.log ++ notes w.guest o req phase } := by
    rw [step, hi]
  rw [hstep]
  have hmem := mem_of_getElem? hi
  have hsame : w.returned ++ [] = w.returned := append_nil _
  have hret : ∀ g ∈ w.returned ++ [], g ∈ w.returned ∨ (g ≤ w.guest.session.generation ∧
      ∀ p c, Running w.guest p c → g ≤ c.generation) := fun g hg => Or.inl (hsame ▸ hg)
  have hstill : Shrinks w.guest w.guest := .of_eq rfl rfl rfl
  cases phase with
  | lookup =>
    rw [GuestExecutor.turn]
    split
    · exact h.calm hi hstill rfl rfl rfl rfl hret (fun _ hc => (by cases hc)) h.terminals
    · exact h.calm hi hstill rfl rfl rfl rfl hret (fun _ hc => (by cases hc)) h.terminals
  | readGeneration =>
    rw [GuestExecutor.turn]
    split_ifs with hnew
    · exact h.calm hi hstill rfl rfl rfl rfl hret (fun _ _ => Nat.le_of_lt hnew) h.terminals
    · exact h.calm hi hstill rfl rfl rfl rfl hret (fun _ hc => (by cases hc)) h.terminals
  | advance =>
    by_cases hle : req.generation ≤ w.guest.session.generation
    · rw [GuestExecutor.turn, returns, if_pos hle, if_pos hle]
      refine h.calm hi hstill rfl rfl rfl rfl (fun g hg => ?_)
        (fun hstarts _ => h.committed _ hmem hstarts rfl) h.terminals
      rcases mem_append.mp hg with hg | hg
      · exact Or.inl hg
      · obtain rfl := mem_singleton.mp hg
        exact Or.inr (h.early hle hclear)
    · have hlt := Nat.lt_of_not_le hle
      obtain ⟨hin, -⟩ := List.getElem?_eq_some_iff.mp hi
      rw [GuestExecutor.turn, returns, if_neg hle, if_neg hle]
      refine h.setting hlt hclear rfl hsame (fun call hm => ?_) (fun call hm p run hp => ?_)
        (Or.inl ⟨_, mem_set hin _, rfl, rfl⟩) (fun t ht => ?_)
      · rcases mem_or_eq_of_mem_set hm with hm | rfl
        · exact Or.inl hm
        · exact Or.inr ⟨rfl, rfl⟩
      · refine mem_set_of_ne hi hm ?_
        rintro rfl
        cases hp
      · rcases ht with ⟨call, hm, hgen, hp⟩ | ht
        · rcases mem_or_eq_of_mem_set hm with hm | rfl
          · exact Or.inl (Or.inl ⟨call, hm, hgen, hp⟩)
          · exact Or.inr hgen.symm
        · exact Or.inl (Or.inr ht)
  | fencing =>
    refine h.passing (h.pending _ (Or.inl ⟨_, hmem, rfl, rfl⟩)) rfl (fun g hg => ?_)
      (fun call hm => ?_) (fun call hm p run hp => ?_) (fun t ht => ?_) (fun t ht => ?_)
    · rcases mem_append.mp hg with hg | hg
      · exact Or.inl hg
      · exact Or.inr (mem_singleton.mp hg)
    · rcases mem_or_eq_of_mem_set hm with hm | rfl
      · exact Or.inl hm
      · exact Or.inr ⟨rfl, fun hstarts => h.committed (req, .fencing) hmem hstarts rfl⟩
    · refine mem_set_of_ne hi hm ?_
      rintro rfl
      cases hp
    · rcases ht with ⟨call, hm, hgen, hp⟩ | ht
      · by_cases hcall : call = (req, .fencing)
        · exact Or.inr (hcall ▸ hgen).symm
        · exact Or.inl (Or.inl ⟨call, mem_set_of_ne hi hm hcall, hgen, hp⟩)
      · exact Or.inl (Or.inr ht)
    · rcases ht with ⟨call, hm, hgen, hp⟩ | ht
      · rcases mem_or_eq_of_mem_set hm with hm | rfl
        · exact Or.inl ⟨call, hm, hgen, hp⟩
        · cases hp
      · exact Or.inr ht
  | gate =>
    rw [GuestExecutor.turn]
    split
    · exact h.calm hi hstill rfl rfl rfl rfl hret (fun _ hc => (by cases hc)) h.terminals
    · next hgate =>
      exact h.calm hi hstill rfl rfl rfl rfl hret (fun _ _ => generation_of_gate hgate) h.terminals
  | dispatch => exact guarded_dispatch h hi hclear rfl rfl rfl hsame
  | spawned p run => exact guarded_register h hi rfl rfl rfl hsame
  | waiting p run =>
    exact h.calm hi (shrinks_endChild _ _ _) rfl rfl rfl rfl hret (fun _ hc => (by cases hc))
      h.terminals
  | insert response =>
    have hguest : Shrinks w.guest (w.guest.remember response req.requestId) := by
      rw [GuestExecutor.remember]
      split_ifs
      · exact hstill
      · exact .of_eq rfl rfl rfl
    refine h.calm hi hguest rfl rfl rfl rfl hret (fun _ hc => (by cases hc)) (fun p s hs => ?_)
    refine h.terminals p s ?_
    rw [GuestExecutor.turn, GuestExecutor.remember] at hs
    split_ifs at hs
    · exact hs
    · exact hs
  | answered response =>
    exact h.calm hi hstill rfl rfl rfl rfl hret (fun _ hc => (by cases hc)) h.terminals

/-- The other calls of `advance_generation` stand where they stood. -/
theorem mem_advances_set {t target : Nat} {a a' : AdvancePhase} (hi : w.advances[i]? = some (target, a))
    (hmem : (t, AdvancePhase.fencing) ∈ w.advances) (hne : (t, AdvancePhase.fencing) ≠ (target, a)) :
    (t, AdvancePhase.fencing) ∈ w.advances.set i (target, a') := by
  obtain ⟨j, hj⟩ := mem_iff_getElem?.mp hmem
  have hij : i ≠ j := by
    rintro rfl
    exact hne (Option.some.inj (hj.symm.trans hi))
  refine mem_of_getElem? (i := j) ?_
  rw [getElem?_set_ne hij, hj]

theorem guarded_advanceTurn {a : AdvancePhase} (h : w.Guarded)
    (hi : w.advances[i]? = some (target, a)) (hclear : a = .start → w.ClearAdvance target) :
    (w.advanceTurn i target a).Guarded := by
  obtain ⟨hin, -⟩ := List.getElem?_eq_some_iff.mp hi
  have hmem := mem_of_getElem? hi
  cases a with
  | start =>
    have hold : ∀ a' t, a' ≠ .fencing → (t, AdvancePhase.fencing) ∈ w.advances.set i (target, a') →
        (t, AdvancePhase.fencing) ∈ w.advances := by
      intro a' t ha hm
      rcases mem_or_eq_of_mem_set hm with hm | heq
      · exact hm
      · exact absurd (Prod.mk.inj heq).2.symm ha
    rw [advanceTurn]
    split_ifs with hle
    · refine h.shrink (.of_eq rfl rfl rfl) (fun g hg => ?_) h.committed
        (fun p run => ⟨fun _ hm _ => hm, fun _ hm _ => hm⟩) (fun t => or_congr Iff.rfl ?_) h.terminals
      · rcases mem_append.mp hg with hg | hg
        · exact Or.inl hg
        · obtain rfl := mem_singleton.mp hg
          exact Or.inr (h.early hle (hclear rfl))
      · exact ⟨hold .returned t (by decide), fun hm => mem_advances_set hi hm (by simp)⟩
    · refine h.setting (Nat.lt_of_not_le hle) (hclear rfl) rfl rfl (fun call hm => Or.inl hm)
        (fun call hm _ _ _ => hm) (Or.inr (mem_set hin _)) (fun t ht => ?_)
      rcases ht with ht | ht
      · exact Or.inl (Or.inl ht)
      · rcases mem_or_eq_of_mem_set ht with hm | heq
        · exact Or.inl (Or.inr hm)
        · exact Or.inr (Prod.mk.inj heq).1
  | fencing =>
    refine h.passing (h.pending _ (Or.inr hmem)) rfl (fun g hg => ?_) (fun call hm => Or.inl hm)
      (fun call hm _ _ _ => hm) (fun t ht => ?_) (fun t ht => ?_)
    · rcases mem_append.mp hg with hg | hg
      · exact Or.inl hg
      · exact Or.inr (mem_singleton.mp hg)
    · rcases ht with ht | ht
      · exact Or.inl (Or.inl ht)
      · by_cases htarget : t = target
        · exact Or.inr htarget
        · exact Or.inl (Or.inr (mem_advances_set hi ht (fun heq => htarget (Prod.mk.inj heq).1)))
    · rcases ht with ht | ht
      · exact Or.inl ht
      · rcases mem_or_eq_of_mem_set ht with hm | heq
        · exact Or.inr hm
        · cases (Prod.mk.inj heq).2
  | returned => exact h

theorem Guarded.drift (h : w.Guarded) (hguest : Shrinks w.guest e)
    (halive : ∀ p s, Alive e p s → w.guest.session.generation ≤ s.generation) :
    ({ w with guest := e } : World).Guarded :=
  h.shrink hguest (fun _ hg => Or.inl hg) h.committed
    (fun _ _ => ⟨fun _ hm _ => hm, fun _ hm _ => hm⟩) (fun _ => Iff.rfl) halive

theorem alive_ptyOutput {ptyId p : String} {bytes : List UInt8} {alive : Bool}
    (h : Alive (ptyOutput e ptyId bytes alive) p s) :
    ∃ s₀, Alive e p s₀ ∧ s₀.generation = s.generation := by
  obtain ⟨hfind, halive⟩ := h
  have hmap : (e.machine.pty.sessions.filterMap (fun id session =>
      some (if id = ptyId then
        { session with output := session.output ++ bytes, alive := session.alive && alive }
      else session))).find? p = some s := hfind
  rw [OrdMap.find?_filterMap] at hmap
  obtain ⟨s₀, hs₀, hs⟩ := Option.bind_eq_some_iff.mp hmap
  obtain rfl := Option.some.inj hs
  refine ⟨s₀, ⟨hs₀, ?_⟩, ?_⟩
  · split_ifs at halive
    · exact (Bool.and_eq_true_iff.mp halive).1
    · exact halive
  · split_ifs
    · rfl
    · rfl

theorem guarded_step (h : w.Guarded) (ev : Event) (hclear : w.FencesClear ev) :
    (w.step ev).1.Guarded := by
  cases ev with
  | deliver req =>
    -- A call that begins has nothing outstanding.
    have hmem : ∀ call ∈ w.calls ++ [(req, .lookup)], World.outstanding call.2 = true ∨
        World.committed call.2 = true → call ∈ w.calls := by
      intro call hm hcall
      rcases mem_append.mp hm with hm | hm
      · exact hm
      · rw [mem_singleton.mp hm] at hcall
        rcases hcall with hcall | hcall
        · cases hcall
        · cases hcall
    refine h.shrink (.of_eq rfl rfl rfl) (fun _ hg => Or.inl hg)
      (fun call hm hstarts hc => h.committed call (hmem call hm (Or.inr hc)) hstarts hc)
      (fun p run => ⟨fun call hm hp => hmem call hm (Or.inl (hp ▸ rfl)),
        fun _ hm _ => mem_append_left _ hm⟩)
      (fun t => or_congr ⟨fun ⟨call, hm, hgen, hp⟩ => ?_, fun ⟨call, hm, hcall⟩ => ?_⟩ Iff.rfl)
      h.terminals
    · exact ⟨call, hmem call hm (Or.inl (hp ▸ rfl)), hgen, hp⟩
    · exact ⟨call, mem_append_left _ hm, hcall⟩
  | turn i o =>
    cases hi : w.calls[i]? with
    | none =>
      rw [step, hi]
      exact h
    | some call => exact guarded_turn h hi (hclear call (hi ▸ rfl))
  | advance target =>
    refine h.shrink (.of_eq rfl rfl rfl) (fun _ hg => Or.inl hg) h.committed
      (fun _ _ => ⟨fun _ hm _ => hm, fun _ hm _ => hm⟩) (fun t => or_congr Iff.rfl ?_) h.terminals
    show (t, AdvancePhase.fencing) ∈ w.advances ++ [(target, .start)] ↔ _
    simp
  | advanceTurn i =>
    cases hi : w.advances[i]? with
    | none =>
      rw [step, hi]
      exact h
    | some call =>
      rw [step, hi]
      exact guarded_advanceTurn h hi (hclear call (hi ▸ rfl))
  | revokeToken token => exact h.drift (.of_eq rfl rfl rfl) h.terminals
  | ended procId => exact h.drift (shrinks_stopChild _ _) h.terminals
  | ptyOutput ptyId bytes alive =>
    refine h.drift (.of_eq rfl rfl rfl) (fun p s hs => ?_)
    obtain ⟨s₀, hs₀, hsame⟩ := alive_ptyOutput hs
    exact hsame ▸ h.terminals p s₀ hs₀
  | files tree => exact h.drift (.of_eq rfl rfl rfl) h.terminals

/-! ### Runs -/

theorem guarded_start_new (task : String) (tokens fsRoots : List String) (tree : FileTree)
    (cwd : FilePath) : (start (.new task tokens fsRoots tree cwd)).Guarded where
  returned g hg := by cases hg
  committed call hm := by cases hm
  spawned call hm := by cases hm
  registered p c hc := by cases hc.1
  outstanding p c hc := by cases hc.1
  pending t ht := by
    rcases ht with ⟨call, hm, -⟩ | ht
    · cases hm
    · cases ht
  terminals p s hs := by cases hs.1

/-- **In a run of clear steps the operation of an id in the replay window is performed once, and
nothing of an older generation runs after an advance has returned.** -/
theorem sound_run {task : String} {tokens fsRoots : List String} {tree : FileTree} {cwd : FilePath}
    (h : Path step Clear (start (.new task tokens fsRoots tree cwd)) w) : w.Sound := by
  have hinv : w.Held ∧ w.Guarded :=
    h.invariant (I := fun w => w.Held ∧ w.Guarded) ⟨held_start _, guarded_start_new _ _ _ _ _⟩ (fun w ev hw hclear =>
      ⟨held_step hw.1 ev hclear.1, guarded_step hw.2 ev hclear.2⟩)
  exact ⟨hinv.1.once, hinv.2.fenced⟩

/-! ### A process, a terminal and a write -/

open GuestExecutor (sampleGuest still)

/-- An outside on which every program and every terminal starts. -/
def starting : Outside :=
  { still with
    spawn := fun _ _ _ _ => .ok ⟨id, some 0, [], [], false⟩
    ptySpawn := fun _ _ _ _ => .ok () }

def request (op : GuestOp) : GuestRequest := ⟨"r-1", 1, "task-1", "tok", op.effectClass, 0, op⟩

def exec : GuestRequest := request (.procExec ["make"] none [] none)

def advanceToOne : List Event := [.advance 1, .advanceTurn 0, .advanceTurn 0]

def write : GuestRequest := { request (.fsWrite "/w/f" "AQ==") with requestId := "r-0" }

/-- A write is delivered again when it has been answered; then a process is started and registered,
and the generation advances. -/
def registeredFirst : List Event :=
  .deliver write :: (List.replicate 5 (.turn 0 starting) ++ .deliver write :: .turn 1 starting ::
    .deliver exec :: (List.replicate 5 (.turn 2 starting) ++ advanceToOne))

/-- A process is started, the generation advances, and the process is not yet registered. -/
def registeredLate : List Event :=
  .deliver exec :: (List.replicate 4 (.turn 0 starting) ++ advanceToOne)

/-- A terminal is opened, and then the generation advances. -/
def terminalFirst : List Event :=
  .deliver (request (.ptyOpen ["sh"] none 80 24)) ::
    (List.replicate 4 (.turn 0 starting) ++ advanceToOne)

/-- Two deliveries of a write look its id up before either is carried out. -/
def deliveredTwice : List Event :=
  [.deliver (request (.fsWrite "/w/f" "AQ==")), .deliver (request (.fsWrite "/w/f" "AQ==")),
    .turn 0 still, .turn 1 still, .turn 0 still, .turn 0 still, .turn 0 still, .turn 1 still,
    .turn 1 still, .turn 1 still]

/-- The write is performed twice; and the process and the terminal run on although the advance
has returned. -/
theorem not_sound_interleaved :
    (run step (start sampleGuest) deliveredTwice).log = [.performed "r-1", .performed "r-1"] ∧
      (run step (start sampleGuest) registeredLate).returned = [1] ∧
      Running (run step (start sampleGuest) registeredLate).guest "proc-0" ⟨0, true⟩ ∧
      (run step (start sampleGuest) terminalFirst).returned = [1] ∧
      Alive (run step (start sampleGuest) terminalFirst).guest "pty-0" ⟨0, [], true⟩ ∧
      ¬ (run step (start sampleGuest) deliveredTwice).Sound ∧
      ¬ (run step (start sampleGuest) registeredLate).Sound ∧
      ¬ (run step (start sampleGuest) terminalFirst).Sound := by
  have htwice : (run step (start sampleGuest) deliveredTwice).log =
      [.performed "r-1", .performed "r-1"] := by decide +kernel
  have hlate : (run step (start sampleGuest) registeredLate).returned = [1] := by decide +kernel
  have hruns : Running (run step (start sampleGuest) registeredLate).guest "proc-0" ⟨0, true⟩ :=
    ⟨by decide +kernel, rfl⟩
  have hopen : (run step (start sampleGuest) terminalFirst).returned = [1] := by decide +kernel
  have halive : Alive (run step (start sampleGuest) terminalFirst).guest "pty-0" ⟨0, [], true⟩ :=
    ⟨by decide +kernel, rfl⟩
  refine ⟨htwice, hlate, hruns, hopen, halive, fun h => ?_, fun h => ?_, fun h => ?_⟩
  · cases h.once "r-1" [] [] [] htwice
  · exact absurd (h.fenced.processes 1 (hlate ▸ mem_singleton_self 1) _ _ hruns) (by decide)
  · exact absurd (h.fenced.terminals 1 (hopen ▸ mem_singleton_self 1) _ _ halive) (by decide)

/-- The write is performed once and answered twice, and the process that is registered in time is
killed. -/
theorem sound_run_registered :
    Path step Clear (start sampleGuest) (run step (start sampleGuest) registeredFirst) ∧
      (run step (start sampleGuest) registeredFirst).log = [.performed "r-0", .performed "r-1"] ∧
      (∃ response, ((run step (start sampleGuest) registeredFirst).calls.map Prod.snd).take 2 =
        [.answered (some response), .answered (some response)]) ∧
      (run step (start sampleGuest) registeredFirst).returned = [1] ∧
      (run step (start sampleGuest) registeredFirst).guest.machine.children.find? "proc-0" =
        some ⟨0, false⟩ ∧
      (run step (start sampleGuest) registeredFirst).Sound := by
  have hclear : Admits step Clear (start sampleGuest) registeredFirst := by
    have hone : ∀ {w : World} {i : Nat} {o : Outside} {req : GuestRequest} {phase : Phase},
        w.calls[i]? = some (req, phase) → w.ClearTurn req phase → w.FenceTurn o req phase →
        w.Clear (.turn i o) := by
      intro w i o req phase hi hlookup hfence
      refine ⟨fun call hcall => ?_, fun call hcall => ?_⟩
      · obtain rfl := Option.some.inj (hi.symm.trans hcall)
        exact hlookup
      · obtain rfl := Option.some.inj (hi.symm.trans hcall)
        exact hfence
    refine ⟨⟨trivial, trivial⟩, hone rfl ?_ trivial, hone rfl trivial trivial,
      hone rfl trivial trivial, hone rfl trivial ?_, hone rfl trivial trivial, ⟨trivial, trivial⟩,
      hone rfl ?_ trivial, ⟨trivial, trivial⟩, hone rfl ?_ trivial, hone rfl trivial trivial,
      hone rfl trivial trivial, hone rfl trivial ?_, hone rfl trivial trivial, ⟨trivial, trivial⟩,
      ⟨trivial, ?_⟩, ⟨trivial, ?_⟩, trivial⟩
    · unfold ClearTurn ClearLookup
      decide +kernel
    · refine ⟨rfl, fun call hcall run hp => ?_⟩
      rw [mem_singleton.mp hcall] at hp
      cases hp
    · unfold ClearTurn ClearLookup
      decide +kernel
    · unfold ClearTurn ClearLookup
      decide +kernel
    · refine ⟨rfl, fun call hcall run hp => ?_⟩
      rcases hcall with _ | ⟨_, _ | ⟨_, _ | ⟨_, hcall⟩⟩⟩
      · cases hp
      · cases hp
      · cases hp
      · cases hcall
    · intro call hcall _
      obtain rfl := Option.some.inj hcall
      rw [ClearAdvance, if_pos (by decide +kernel)]
      refine ⟨?_, fun p s hs => ?_⟩
      · decide +kernel
      · cases hs.1
    · intro call hcall hstart
      obtain rfl := Option.some.inj hcall
      cases hstart
  have hpath := path_of_admits registeredFirst hclear
  exact ⟨hpath, by decide +kernel, ⟨_, rfl⟩, by decide +kernel, by decide +kernel,
    sound_run hpath⟩

end World

end Modbit.Sandbox
