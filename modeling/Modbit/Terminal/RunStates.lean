import Modbit.Terminal.ExecBroker

/-!
# What the exec broker keeps

A run's state is in three places: the broker's handles, the state file, and the process table.
`Inv` says how they hang together as long as the operations are careful: every run directory has one
process, the recorded number was its number, a state that says that it is over is right, and the
last state written is the one in the file.

Each part of an operation has its lemma (`Inv.persistMeta`, `Inv.setLife`, `Inv.signal`, …), and
`exec_broker_run` is the result for runs.  The operations check none of it: `exec_broker_breaks` has
a run for each of the promises that breaks it.
-/

namespace Modbit

open Lib List

namespace ExecBroker

/-- A state that says that the process is over is right about it. -/
def Agrees : RunState → Life → Prop
  | .exited code, l => l = .reaped code
  | .interrupted, l => l ≠ .running
  | _, _ => True

namespace World

structure Inv (dirOf : String → String) (w : World) : Prop where
  distinct : ProcessTable.Distinct w.procs
  held : ∀ id i, w.children.find? id = some i → ∃ p, w.procs[i]? = some p ∧ p.owner = some (dirOf id)
  known : ∀ dir m, w.metaAt dir = some m → ∃ (i : Nat) (p : Process (Option String)),
    w.procs[i]? = some p ∧ p.owner = some dir ∧ m.pid = some p.pid ∧ Agrees m.state p.life
  owned : ∀ (i : Nat) p dir, w.procs[i]? = some p → p.owner = some dir → ∃ m, w.metaAt dir = some m
  single : ∀ (i j : Nat) p q dir, w.procs[i]? = some p → w.procs[j]? = some q →
    p.owner = some dir → q.owner = some dir → i = j
  last : ∀ e ∈ w.written, e.2.Final → ∃ m, w.metaAt e.1 = some m ∧ m.state = e.2
  begun : ∀ dir ∈ w.started, ∃ m, w.metaAt dir = some m
  logged : ∀ dir, ∀ b ∈ w.logAt dir, ∃ p, w.procs[b.2]? = some p ∧ p.owner = some dir
  final : w.written.Pairwise (fun a b => a.1 = b.1 → a.2.Final → b.2 = a.2)
  signalled : ∀ s ∈ w.signals, s.target.owner = some s.dir ∧ s.target.life = .running
  once : w.started.Nodup

variable {dirOf : String → String} {w : World}

theorem inv_fresh (dirOf : String → String) : fresh.Inv dirOf where
  distinct i j p q hi := by cases hi
  held id i h := by cases h
  known dir m h := by cases h
  owned i p dir h := by cases h
  single i j p q dir h := by cases h
  last e he := by cases he
  begun dir h := by cases h
  logged dir b h := by cases h
  final := .nil
  signalled s hs := by cases hs
  once := .nil

theorem Inv.kept (h : w.Inv dirOf) : w.Kept where
  final := h.final
  signals := h.signalled
  once := h.once
  logs dir b hb i p hi hp := by
    obtain ⟨q, hq, howner⟩ := h.logged dir b hb
    exact h.single _ _ q p dir hq hi howner hp

/-! ### Parts of operations -/

theorem metaAt_insert (w : World) (dir dir' : String) (d : RunDir) :
    ({ w with dirs := w.dirs.insert dir d } : World).metaAt dir'
      = if dir' = dir then d.status else w.metaAt dir' := by
  rw [metaAt, OrdMap.find?_insert]
  split_ifs
  · rfl
  · rfl

theorem logAt_insert (w : World) (dir dir' : String) (d : RunDir) :
    ({ w with dirs := w.dirs.insert dir d } : World).logAt dir'
      = if dir' = dir then d.log else w.logAt dir' := by
  rw [logAt, OrdMap.find?_insert]
  split_ifs
  · rfl
  · rfl

theorem metaAt_persistMeta (w : World) (dir dir' : String) (m : RunMeta) :
    (w.persistMeta dir m).metaAt dir' = if dir' = dir then some m else w.metaAt dir' :=
  metaAt_insert w dir dir' ⟨w.logAt dir, some m⟩

theorem logAt_persistMeta (w : World) (dir dir' : String) (m : RunMeta) :
    (w.persistMeta dir m).logAt dir' = w.logAt dir' := by
  rw [persistMeta]
  refine (logAt_insert w dir dir' ⟨w.logAt dir, some m⟩).trans ?_
  split_ifs with h
  · rw [h]
  · rfl

variable {dir : String} {m : RunMeta}

/-- **A state may be written that is right, and the same as before if that was final.** -/
theorem Inv.persistMeta (h : w.Inv dirOf)
    (hknown : ∃ (i : Nat) (p : Process (Option String)), w.procs[i]? = some p ∧ p.owner = some dir ∧
      m.pid = some p.pid ∧ Agrees m.state p.life)
    (hfinal : ∀ m', w.metaAt dir = some m' → m'.state.Final → m.state = m'.state) :
    (w.persistMeta dir m).Inv dirOf where
  distinct := h.distinct
  held := h.held
  known dir' m' hm := by
    rw [metaAt_persistMeta] at hm
    split_ifs at hm with hdir
    · rw [hdir, ← Option.some.inj hm]
      exact hknown
    · exact h.known dir' m' hm
  owned i p dir' hi howner := by
    rw [metaAt_persistMeta]
    split_ifs
    · exact ⟨m, rfl⟩
    · exact h.owned i p dir' hi howner
  single := h.single
  last e he hfin := by
    rw [metaAt_persistMeta]
    rcases mem_append.mp he with he | he
    · obtain ⟨m', hm', hstate⟩ := h.last e he hfin
      split_ifs with hdir
      · rw [hdir] at hm'
        refine ⟨m, rfl, ?_⟩
        rw [← hstate] at hfin ⊢
        exact hfinal m' hm' hfin
      · exact ⟨m', hm', hstate⟩
    · rw [mem_singleton.mp he, if_pos rfl]
      exact ⟨m, rfl, rfl⟩
  begun dir' hdir' := by
    rw [metaAt_persistMeta]
    split_ifs
    · exact ⟨m, rfl⟩
    · exact h.begun dir' hdir'
  logged dir' b hb := by
    rw [logAt_persistMeta] at hb
    exact h.logged dir' b hb
  final := by
    refine pairwise_append.mpr ⟨h.final, pairwise_singleton _ _, fun e he e' he' hdir hfin => ?_⟩
    rw [mem_singleton.mp he'] at hdir ⊢
    obtain ⟨m', hm', hstate⟩ := h.last e he hfin
    rw [hdir] at hm'
    rw [← hstate] at hfin ⊢
    exact hfinal m' hm' hfin
  signalled := h.signalled
  once := h.once

variable {i : Nat}

theorem setLife_self {life : Life} (h : w.lifeOf i = some life) : w.setLife i life = w := by
  obtain ⟨p, hp, hlife⟩ := Option.map_eq_some_iff.mp h
  have hsame : ProcessTable.setLife w.procs i life = w.procs := by
    refine ext_getElem? (fun j => ?_)
    rw [ProcessTable.getElem?_setLife]
    split_ifs with hij
    · rw [← hij, hp, ← hlife]
      rfl
    · rfl
  rw [setLife, hsame]

/-- **A process may end or be reaped.** -/
theorem Inv.setLife (h : w.Inv dirOf) {old life : Life} (hi : w.lifeOf i = some old)
    (hold : old.present) (hlife : life ≠ .running) : (w.setLife i life).Inv dirOf := by
  obtain ⟨p, hp, rfl⟩ := Option.map_eq_some_iff.mp hi
  have hback : ∀ {j : Nat} {q : Process (Option String)}, (w.setLife i life).procs[j]? = some q →
      ∃ q', w.procs[j]? = some q' ∧ q'.owner = q.owner := by
    intro j q hj
    obtain ⟨q', hq', rfl⟩ := ProcessTable.of_setLife hj
    refine ⟨q', hq', ?_⟩
    split_ifs
    · rfl
    · rfl
  have hforth : ∀ {j : Nat} {q : Process (Option String)}, w.procs[j]? = some q →
      ∃ q', (w.setLife i life).procs[j]? = some q' ∧ q'.owner = q.owner ∧ q'.pid = q.pid ∧
        (i = j → q'.life = life) ∧ (i ≠ j → q'.life = q.life) := by
    intro j q hj
    by_cases hij : i = j
    · refine ⟨{ q with life := life }, ?_, rfl, rfl, fun _ => rfl, fun hne => absurd hij hne⟩
      show (ProcessTable.setLife w.procs i life)[j]? = _
      rw [ProcessTable.getElem?_setLife, if_pos hij, hj]
      rfl
    · refine ⟨q, ?_, rfl, rfl, fun heq => absurd heq hij, fun _ => rfl⟩
      show (ProcessTable.setLife w.procs i life)[j]? = _
      rw [ProcessTable.getElem?_setLife, if_neg hij, hj]
  refine
    { h with
      distinct := h.distinct.setLife hp hold life
      held := fun id j hj => ?_
      known := fun dir m hm => ?_
      owned := fun j q dir hj howner => ?_
      single := fun j k q r dir hj hk hq hr => ?_
      logged := fun dir b hb => ?_ }
  · obtain ⟨q, hq, howner⟩ := h.held id j hj
    obtain ⟨q', hq', howner', -⟩ := hforth hq
    exact ⟨q', hq', howner'.trans howner⟩
  · obtain ⟨j, q, hq, howner, hpid, hagrees⟩ := h.known dir m hm
    obtain ⟨q', hq', howner', hpid', hsame, hother⟩ := hforth hq
    refine ⟨j, q', hq', howner'.trans howner, hpid.trans (congrArg some hpid'.symm), ?_⟩
    by_cases hij : i = j
    · rw [hsame hij]
      rw [← hij, hp] at hq
      obtain rfl := Option.some.inj hq
      cases hstate : m.state with
      | running => exact trivial
      | killed => exact trivial
      | interrupted => exact hlife
      | exited code =>
        rw [hstate] at hagrees
        rw [show p.life = .reaped code from hagrees] at hold
        cases hold
    · rw [hother hij]
      exact hagrees
  · obtain ⟨q', hq', howner'⟩ := hback hj
    exact h.owned j q' dir hq' (howner'.trans howner)
  · obtain ⟨q', hq', hqo⟩ := hback hj
    obtain ⟨r', hr', hro⟩ := hback hk
    exact h.single j k q' r' dir hq' hr' (hqo.trans hq) (hro.trans hr)
  · obtain ⟨q, hq, howner⟩ := h.logged dir b hb
    obtain ⟨q', hq', howner', -⟩ := hforth hq
    exact ⟨q', hq', howner'.trans howner⟩

variable {p : Process (Option String)}

/-- **The run's own process may be signalled while it runs.** -/
theorem Inv.signal (h : w.Inv dirOf)
    (hi : w.procs[i]? = some p) (howner : p.owner = some dir) (hlife : p.life = .running) :
    (w.signal dir i).Inv dirOf := by
  rw [World.signal, hi]
  refine { h with signalled := fun s hs => ?_ }
  rcases mem_append.mp hs with hs | hs
  · exact h.signalled s hs
  · rw [mem_singleton.mp hs]
    exact ⟨howner, hlife⟩

theorem Inv.forgets (h : w.Inv dirOf) {children : OrdMap String Nat}
    (hsub : ∀ id i, children.find? id = some i → w.children.find? id = some i) :
    ({ w with children := children } : World).Inv dirOf :=
  { h with held := fun id i hi => h.held id i (hsub id i hi) }

theorem Inv.erased (h : w.Inv dirOf) (id : String) :
    ({ w with children := w.children.erase id } : World).Inv dirOf :=
  h.forgets (fun id' i hi => by
    rw [OrdMap.find?_erase] at hi
    split_ifs at hi
    exact hi)

/-! ### Operations -/

theorem Inv.opened (h : w.Inv dirOf) (dir : String) :
    ({ w with dirs := w.dirs.insert dir ((w.dirs.find? dir).getD ⟨[], none⟩) } : World).Inv dirOf ∧
      (∀ dir', ({ w with dirs := w.dirs.insert dir ((w.dirs.find? dir).getD ⟨[], none⟩) } :
        World).metaAt dir' = w.metaAt dir') := by
  have hmeta : ∀ dir', ({ w with dirs := w.dirs.insert dir ((w.dirs.find? dir).getD ⟨[], none⟩) } :
      World).metaAt dir' = w.metaAt dir' := by
    intro dir'
    rw [metaAt_insert]
    split_ifs with hdir
    · rw [hdir, metaAt]
      cases w.dirs.find? dir with
      | none => rfl
      | some d => rfl
    · rfl
  have hlog : ∀ dir', ({ w with dirs := w.dirs.insert dir ((w.dirs.find? dir).getD ⟨[], none⟩) } :
      World).logAt dir' = w.logAt dir' := by
    intro dir'
    rw [logAt_insert]
    split_ifs with hdir
    · rw [hdir, logAt]
      cases w.dirs.find? dir with
      | none => rfl
      | some d => rfl
    · rfl
  refine ⟨{ h with
    known := fun dir' m hm => h.known dir' m (hmeta dir' ▸ hm)
    owned := fun i p dir' hi howner => ?_
    last := fun e he hfin => ?_
    begun := fun dir' hdir' => ?_
    logged := fun dir' b hb => h.logged dir' b (hlog dir' ▸ hb) }, hmeta⟩
  · rw [hmeta]
    exact h.owned i p dir' hi howner
  · rw [hmeta]
    exact h.last e he hfin
  · rw [hmeta]
    exact h.begun dir' hdir'

theorem Inv.born (h : w.Inv dirOf) {pid : Nat} (hfree : ProcessTable.byPid w.procs pid = none) :
    ({ w with procs := w.procs ++ [⟨pid, none, .running⟩] } : World).Inv dirOf := by
  have hkeep : ∀ {j : Nat} {q : Process (Option String)}, w.procs[j]? = some q →
      (w.procs ++ [(⟨pid, none, .running⟩ : Process (Option String))])[j]? = some q := fun hj =>
    (getElem?_append_left (List.getElem?_eq_some_iff.mp hj).1).trans hj
  have hback : ∀ {j : Nat} {q : Process (Option String)} {dir : String},
      (w.procs ++ [(⟨pid, none, .running⟩ : Process (Option String))])[j]? = some q →
        q.owner = some dir → w.procs[j]? = some q := by
    intro j q dir hj howner
    rcases getElem?_concat_cases hj with hj | ⟨-, rfl⟩
    · exact hj
    · cases howner
  exact { h with
    distinct := h.distinct.start hfree none
    held := fun id i hi => by
      obtain ⟨q, hq, howner⟩ := h.held id i hi
      exact ⟨q, hkeep hq, howner⟩
    known := fun dir m hm => by
      obtain ⟨i, q, hq, hrest⟩ := h.known dir m hm
      exact ⟨i, q, hkeep hq, hrest⟩
    owned := fun i q dir hi howner => h.owned i q dir (hback hi howner) howner
    single := fun i j q r dir hi hj hq hr => h.single i j q r dir (hback hi hq) (hback hj hr) hq hr
    logged := fun dir b hb => by
      obtain ⟨q, hq, howner⟩ := h.logged dir b hb
      exact ⟨q, hkeep hq, howner⟩ }

theorem Inv.begins (h : w.Inv dirOf) {id : String} {pid : Nat}
    (hfree : ProcessTable.byPid w.procs pid = none) (hnone : w.metaAt (dirOf id) = none)
    (hpid : m.pid = some pid) (hstate : m.state = .running) :
    (({ w with
      procs := w.procs ++ [⟨pid, some (dirOf id), .running⟩]
      children := w.children.insert id w.procs.length
      started := w.started ++ [dirOf id] } : World).persistMeta (dirOf id) m).Inv dirOf := by
  have hkeep : ∀ {j : Nat} {q : Process (Option String)}, w.procs[j]? = some q →
      (w.procs ++ [(⟨pid, some (dirOf id), .running⟩ : Process (Option String))])[j]? = some q :=
    fun hj => (getElem?_append_left (List.getElem?_eq_some_iff.mp hj).1).trans hj
  have hself : (w.procs ++ [(⟨pid, some (dirOf id), .running⟩ : Process (Option String))])[
      w.procs.length]? = some ⟨pid, some (dirOf id), .running⟩ := getElem?_concat_length
  have hnobody : ∀ {j : Nat} {q : Process (Option String)}, w.procs[j]? = some q →
      q.owner ≠ some (dirOf id) := by
    intro j q hj howner
    obtain ⟨m', hm'⟩ := h.owned j q (dirOf id) hj howner
    rw [hnone] at hm'
    cases hm'
  have hold : ∀ {dir : String} {m' : RunMeta}, w.metaAt dir = some m' → dir ≠ dirOf id := by
    intro dir m' hm' hdir
    rw [hdir, hnone] at hm'
    cases hm'
  have hmeta : ∀ dir, (({ w with
      procs := w.procs ++ [⟨pid, some (dirOf id), .running⟩]
      children := w.children.insert id w.procs.length
      started := w.started ++ [dirOf id] } : World).persistMeta (dirOf id) m).metaAt dir
        = if dir = dirOf id then some m else w.metaAt dir := fun dir => metaAt_persistMeta _ _ _ _
  refine
    { distinct := h.distinct.start hfree (some (dirOf id))
      held := fun id' i hi => ?_
      known := fun dir m' hm => ?_
      owned := fun i q dir hi howner => ?_
      single := fun i j q r dir hi hj hq hr => ?_
      last := fun e he hfin => ?_
      begun := fun dir hdir => ?_
      logged := fun dir b hb => ?_
      final := ?_
      signalled := h.signalled
      once := ?_ }
  · have hi' : (w.children.insert id w.procs.length).find? id' = some i := hi
    rw [OrdMap.find?_insert] at hi'
    split_ifs at hi' with hid
    · rw [hid, ← Option.some.inj hi']
      exact ⟨_, hself, rfl⟩
    · obtain ⟨q, hq, howner⟩ := h.held id' i hi'
      exact ⟨q, hkeep hq, howner⟩
  · rw [hmeta] at hm
    split_ifs at hm with hdir
    · rw [← Option.some.inj hm, hdir]
      refine ⟨w.procs.length, _, hself, rfl, hpid, ?_⟩
      rw [hstate]
      trivial
    · obtain ⟨i, q, hq, hrest⟩ := h.known dir m' hm
      exact ⟨i, q, hkeep hq, hrest⟩
  · rw [hmeta]
    split_ifs with hdir
    · exact ⟨m, rfl⟩
    · rcases getElem?_concat_cases hi with hi | ⟨-, rfl⟩
      · exact h.owned i q dir hi howner
      · exact absurd (Option.some.inj howner).symm hdir
  · rcases getElem?_concat_cases hi with hi | ⟨hi, rfl⟩
    · rcases getElem?_concat_cases hj with hj | ⟨-, rfl⟩
      · exact h.single i j q r dir hi hj hq hr
      · exact absurd (hq.trans hr.symm) (hnobody hi)
    · rcases getElem?_concat_cases hj with hj | ⟨hlast, -⟩
      · exact absurd (hr.trans hq.symm) (hnobody hj)
      · exact (by assumption : i = w.procs.length).trans hlast.symm
  · rw [hmeta]
    rcases mem_append.mp he with he | he
    · obtain ⟨m', hm', hsame⟩ := h.last e he hfin
      rw [if_neg (hold hm')]
      exact ⟨m', hm', hsame⟩
    · rw [mem_singleton.mp he] at hfin
      exact absurd hstate hfin
  · rw [hmeta]
    rcases mem_append.mp hdir with hdir | hdir
    · obtain ⟨m', hm'⟩ := h.begun dir hdir
      rw [if_neg (hold hm')]
      exact ⟨m', hm'⟩
    · rw [if_pos (mem_singleton.mp hdir)]
      exact ⟨m, rfl⟩
  · rw [logAt_persistMeta] at hb
    obtain ⟨q, hq, howner⟩ := h.logged dir b hb
    exact ⟨q, hkeep hq, howner⟩
  · refine pairwise_append.mpr ⟨h.final, pairwise_singleton _ _, fun e he e' he' hdir hfin => ?_⟩
    rw [mem_singleton.mp he'] at hdir
    obtain ⟨m', hm', -⟩ := h.last e he hfin
    exact absurd hdir (hold hm')
  · refine nodup_append.mpr ⟨h.once, nodup_singleton _, fun dir hdir dir' hdir' heq => ?_⟩
    rw [mem_singleton.mp hdir'] at heq
    obtain ⟨m', hm'⟩ := h.begun dir hdir
    exact hold hm' heq

variable {now : Nat}

/-- **A run is started in a directory that has none.** -/
theorem Inv.spawnFull (h : w.Inv dirOf) {id : String} {argv : List String} {process : Option Nat}
    (hfree : ∀ pid, process = some pid → ProcessTable.byPid w.procs pid = none)
    (hnew : argv ≠ [] → process ≠ none → w.metaAt (dirOf id) = none) :
    (w.spawnFull dirOf id argv process now).1.Inv dirOf := by
  rw [World.spawnFull]
  split_ifs with hargv
  · exact h
  · cases process with
    | none => exact (h.opened (dirOf id)).1
    | some pid =>
      obtain ⟨hopened, hmeta⟩ := h.opened (dirOf id)
      have hnone := hnew hargv (Option.some_ne_none pid)
      rw [← hmeta] at hnone
      exact hopened.begins (hfree pid rfl) hnone rfl rfl

theorem Inv.agrees (h : w.Inv dirOf) (hm : w.metaAt dir = some m) (hi : w.procs[i]? = some p)
    (howner : p.owner = some dir) : m.pid = some p.pid ∧ Agrees m.state p.life := by
  obtain ⟨j, q, hj, hq, hpid, hagrees⟩ := h.known dir m hm
  obtain rfl := h.single i j p q dir hi hj howner hq
  obtain rfl := Option.some.inj (hi.symm.trans hj)
  exact ⟨hpid, hagrees⟩

theorem Inv.handle (h : w.Inv dirOf) {id : String} (hi : w.children.find? id = some i) :
    ∃ p, w.procs[i]? = some p ∧ p.owner = some (dirOf id) ∧ w.lifeOf i = some p.life := by
  obtain ⟨p, hp, howner⟩ := h.held id i hi
  exact ⟨p, hp, howner, by rw [lifeOf, hp]; rfl⟩

/-- **The end of a held process is written when it is seen.** -/
theorem Inv.ends (h : w.Inv dirOf) {code : Int} (hm : w.metaAt dir = some m) (hrunning : m.state = .running)
    (hi : w.procs[i]? = some p) (howner : p.owner = some dir)
    (hlife : p.life = .ended code ∨ p.life = .reaped code) :
    ((w.setLife i (.reaped code)).persistMeta dir { m with state := .exited code }).Inv dirOf := by
  have hlifeOf : w.lifeOf i = some p.life := by rw [lifeOf, hi]; rfl
  have hset : (w.setLife i (.reaped code)).Inv dirOf := by
    rcases hlife with hended | hreaped
    · exact h.setLife hlifeOf (by rw [hended]; rfl) (fun heq => by cases heq)
    · rw [setLife_self (by rw [hlifeOf, hreaped])]
      exact h
  refine hset.persistMeta ⟨i, { p with life := .reaped code }, ?_, howner,
    (h.agrees hm hi howner).1, rfl⟩ (fun m' hm' hfin => ?_)
  · show (ProcessTable.setLife w.procs i (.reaped code))[i]? = _
    rw [ProcessTable.getElem?_setLife, if_pos rfl, hi]
    rfl
  · obtain rfl := Option.some.inj (hm.symm.trans hm')
    exact absurd hrunning hfin

theorem Inv.status (h : w.Inv dirOf) (id : String) (now : Nat) : (w.status dirOf id now).1.Inv dirOf := by
  rw [World.status]
  split
  · exact h
  next d hd =>
  split
  · exact h
  next m hm =>
  have hmeta : w.metaAt (dirOf id) = some m := by rw [metaAt, hd]; exact hm
  split_ifs with hrunning
  · split
    · next i hi =>
      obtain ⟨p, hp, howner, hlife⟩ := h.handle hi
      split
      · next code hcode =>
        exact h.ends hmeta hrunning hp howner (Or.inl (Option.some.inj (hlife.symm.trans hcode)))
      · next code hcode =>
        exact h.ends hmeta hrunning hp howner (Or.inr (Option.some.inj (hlife.symm.trans hcode)))
      · exact h
    · split
      · next pid hpid =>
        split_ifs with halive
        · exact h
        · obtain ⟨i, p, hp, howner, hppid, -⟩ := h.known _ m hmeta
          refine h.persistMeta ⟨i, p, hp, howner, hppid, ?_⟩ (fun m' hm' hfin => ?_)
          · intro hlife
            refine halive ?_
            rw [hpid] at hppid
            rw [Option.some.inj hppid, pidAlive,
              ProcessTable.byPid_eq h.distinct hp (by rw [hlife]; rfl), Option.bind_some, lifeOf, hp]
            exact decide_eq_true (congrArg some hlife)
          · obtain rfl := Option.some.inj (hmeta.symm.trans hm')
            exact absurd hrunning hfin
      · exact h
  · exact h

theorem Inv.markKilled (h : w.Inv dirOf) (now : Nat)
    (hgoing : ∀ m, w.metaAt dir = some m → m.state.Final → m.state = .killed) :
    (w.markKilled dir now).1.Inv dirOf := by
  rw [World.markKilled]
  split
  · exact h
  · next m hm =>
    obtain ⟨i, p, hp, howner, hpid, -⟩ := h.known dir m hm
    refine h.persistMeta ⟨i, p, hp, howner, hpid, trivial⟩ (fun m' hm' hfin => ?_)
    exact (hgoing m' hm' hfin).symm

theorem Inv.going (h : w.Inv dirOf)
    (hi : w.procs[i]? = some p) (howner : p.owner = some dir) (hlife : p.life = .running) :
    ∀ m, w.metaAt dir = some m → m.state.Final → m.state = .killed := by
  intro m hm hfin
  have hagrees := (h.agrees hm hi howner).2
  rw [hlife] at hagrees
  cases hstate : m.state with
  | running => exact absurd hstate hfin
  | killed => rfl
  | interrupted =>
    rw [hstate] at hagrees
    exact absurd rfl hagrees
  | exited code =>
    rw [hstate] at hagrees
    cases (hagrees : Life.running = .reaped code)

/-- **A run is stopped while its process runs.** -/
theorem Inv.stop (h : w.Inv dirOf) {id : String} (hcareful : w.Careful dirOf (.stop id now)) :
    (w.stop dirOf id now).1.Inv dirOf := by
  rw [World.stop]
  dsimp only
  split
  · next i hheld =>
    obtain ⟨p, hp, howner, hlife⟩ := h.handle hheld
    rcases hcareful with ⟨q, hq, hqo, hqrun⟩ | ⟨hnone, -⟩
    · obtain ⟨j, hj⟩ := mem_iff_getElem?.mp hq
      obtain rfl := h.single i j p q _ hp hj howner hqo
      obtain rfl := Option.some.inj (hp.symm.trans hj)
      have herased := h.erased id
      have hsignalled := herased.signal hp howner hqrun
      have hlife' : ({ w with children := w.children.erase id } : World).lifeOf i = some .running := by
        rw [lifeOf, hp, ← hqrun]
        rfl
      rw [hlife']
      have hsig : (({ w with children := w.children.erase id } : World).signal (dirOf id) i).lifeOf i
          = some .running := by
        rw [World.signal, hp]
        exact hlife'
      refine (hsignalled.setLife hsig rfl (fun heq => by cases heq)).markKilled now (fun m hm hfin => ?_)
      refine h.going hp howner hqrun m ?_ hfin
      rw [World.signal, hp] at hm
      exact hm
    · rw [hheld] at hnone
      cases hnone
  · split
    · exact h
    next m hm =>
    split
    · exact h
    next pid hpid =>
    rw [killPid]
    rcases hcareful with ⟨q, hq, hqo, hqrun⟩ | ⟨-, hgone⟩
    · obtain ⟨j, hj⟩ := mem_iff_getElem?.mp hq
      have hppid := (h.agrees hm hj hqo).1
      rw [hpid] at hppid
      rw [Option.some.inj hppid, ProcessTable.byPid_eq h.distinct hj (by rw [hqrun]; rfl)]
      refine (h.signal hj hqo hqrun).markKilled now (fun m' hm' hfin => ?_)
      refine h.going hj hqo hqrun m' ?_ hfin
      rw [World.signal, hj] at hm'
      exact hm'
    · rw [hgone m pid hm hpid]
      exact h

/-- **A run is waited for after its end was seen.** -/
theorem Inv.waitAndRecord (h : w.Inv dirOf) {id : String}
    (hcareful : w.Careful dirOf (.waitAndRecord id now)) :
    (w.waitAndRecord dirOf id now).1.Inv dirOf := by
  rw [World.waitAndRecord]
  split
  · exact h
  next i hheld =>
  obtain ⟨p, hp, howner, hlife⟩ := h.handle hheld
  obtain ⟨m, hm⟩ := h.owned i p _ hp howner
  obtain ⟨code, hexited⟩ := hcareful (by rw [hheld]; exact Option.some_ne_none i) m hm
  have hreaped : p.life = .reaped code := by
    have hagrees := (h.agrees hm hp howner).2
    rw [hexited] at hagrees
    exact hagrees
  rw [hreaped] at hlife
  rw [hlife]
  dsimp only
  rw [setLife_self hlife]
  have herased := h.erased id
  -- the end has been recorded, so that `status` reads it and nothing else
  have hstatus : ({ w with children := w.children.erase id } : World).status dirOf id now
      = ({ w with children := w.children.erase id }, .ok m) := by
    obtain ⟨d, hd, hdm⟩ := Option.bind_eq_some_iff.mp hm
    have hd' : ({ w with children := w.children.erase id } : World).dirs.find? (dirOf id) = some d := hd
    rw [World.status]
    rw [hd]
    dsimp only
    rw [hdm]
    dsimp only
    rw [if_neg (by rw [hexited]; exact fun heq => by cases heq)]
  rw [hstatus]
  refine herased.persistMeta ⟨i, p, hp, howner, (h.agrees hm hp howner).1, hreaped⟩
    (fun m' hm' _ => ?_)
  obtain rfl := Option.some.inj (hm.symm.trans hm')
  exact hexited.symm

theorem Inv.output (h : w.Inv dirOf) (i : Nat) (bytes : List UInt8) : (w.output i bytes).Inv dirOf := by
  rw [World.output]
  split
  · next pid dir hi =>
    split
    · next d hd =>
      let d' : RunDir := { d with log := d.log ++ bytes.map (fun b => (b, i)) }
      have hmeta : ∀ dir', ({ w with dirs := w.dirs.insert dir d' } : World).metaAt dir'
          = w.metaAt dir' := by
        intro dir'
        rw [metaAt_insert]
        split_ifs with hdir
        · rw [hdir, metaAt, hd]
          rfl
        · rfl
      exact { h with
        known := fun dir' m hm => h.known dir' m (hmeta dir' ▸ hm)
        owned := fun j q dir' hj howner => by
          rw [hmeta]
          exact h.owned j q dir' hj howner
        last := fun e he hfin => by
          rw [hmeta]
          exact h.last e he hfin
        begun := fun dir' hdir' => by
          rw [hmeta]
          exact h.begun dir' hdir'
        logged := fun dir' b hb => by
          rw [logAt_insert] at hb
          split_ifs at hb with hdir
          · rcases mem_append.mp hb with hb | hb
            · refine h.logged dir' b ?_
              rw [hdir, logAt, hd]
              exact hb
            · obtain ⟨byte, -, rfl⟩ := mem_map.mp hb
              exact ⟨_, hi, congrArg some hdir.symm⟩
          · exact h.logged dir' b hb }
    · exact h
  · exact h

/-! ### Runs -/

theorem Inv.step (h : w.Inv dirOf) {e : Event} (hcareful : w.Careful dirOf e) :
    (w.step dirOf e).1.Inv dirOf := by
  cases e with
  | spawnFull id argv process now =>
    rw [World.step]
    split_ifs with hused
    · exact h
    · refine h.spawnFull (fun pid hpid => ?_) hcareful
      rw [hpid, Option.any_some] at hused
      exact Option.not_isSome_iff_eq_none.mp hused
  | status id now => exact h.status id now
  | stop id now => exact h.stop hcareful
  | waitAndRecord id now => exact h.waitAndRecord hcareful
  | readOutput id offset max => exact h
  | restart => exact h.forgets (fun id i hi => by cases hi)
  | exit i code =>
    rw [World.step]
    split
    · next hi => exact h.setLife hi rfl (fun heq => by cases heq)
    · exact h
  | output i bytes => exact h.output i bytes
  | reap i =>
    rw [World.step]
    split
    · next code hi =>
      split_ifs
      · exact h
      · exact h.setLife hi rfl (fun heq => by cases heq)
    · exact h
  | foreign pid =>
    rw [World.step]
    split_ifs with hused
    · exact h
    · exact h.born (Option.not_isSome_iff_eq_none.mp hused)

/-- **Where every operation is careful, everything that is promised of the runs holds.** -/
theorem exec_broker_run (dirOf : String → String) (events : List Event)
    (h : Admits (step dirOf) (Careful dirOf) fresh events) : (run (step dirOf) fresh events).Kept := by
  have hinv := (path_of_admits events h).invariant (I := Inv dirOf) (inv_fresh dirOf)
    (fun w e hw he => hw.step he)
  exact hinv.kept

/-- A run that ends and is waited for, and one that goes on over a restart and is stopped. -/
def twoRuns : List Event :=
  [.spawnFull "a" ["make"] (some 7) 0, .output 0 [1], .exit 0 0, .status "a" 1, .waitAndRecord "a" 2,
    .spawnFull "b" ["serve"] (some 8) 3, .restart]

theorem exec_broker_twoRuns : (run (step id) fresh (twoRuns ++ [.stop "b" 4])).Kept := by
  refine exec_broker_run id (twoRuns ++ [.stop "b" 4]) (admits_append.mpr ⟨?_, ?_, trivial⟩)
  · refine ⟨fun _ _ => rfl, trivial, trivial, trivial, fun _ m hm => ⟨0, ?_⟩, fun _ _ => ?_, trivial, trivial⟩
    · have hmeta : (run (step id) fresh [.spawnFull "a" ["make"] (some 7) 0, .output 0 [1], .exit 0 0,
          .status "a" 1]).metaAt "a" = some ⟨"a", ["make"], .exited 0, 0, none, some 7⟩ := by
        decide +kernel
      rw [← Option.some.inj (hmeta.symm.trans hm)]
    · decide +kernel
  · exact Or.inl (by decide +kernel)

/-- A run that has ended is stopped; its id is used again; its number has gone to another process when it is
stopped; and a run is waited for that nobody has asked about. -/
theorem exec_broker_breaks :
    ¬ (run (step id) fresh [.spawnFull "a" ["make"] (some 7) 0, .exit 0 0, .status "a" 1,
      .stop "a" 2]).Kept ∧
    ¬ (run (step id) fresh [.spawnFull "a" ["make"] (some 7) 0, .output 0 [1],
      .spawnFull "a" ["make"] (some 8) 1]).Kept ∧
    ¬ (run (step id) fresh [.spawnFull "a" ["make"] (some 7) 0, .restart, .exit 0 0, .reap 0, .foreign 7,
      .stop "a" 1]).Kept ∧
    ¬ (run (step id) fresh [.spawnFull "a" ["make"] (some 7) 0, .exit 0 0, .waitAndRecord "a" 1]).Kept := by
  refine ⟨fun h => absurd h.final ?_, fun h => absurd h.once ?_, fun h => absurd h.signals ?_,
    fun h => absurd h.final ?_⟩
  · decide +kernel
  · decide +kernel
  · decide +kernel
  · decide +kernel

end World

end ExecBroker

end Modbit
