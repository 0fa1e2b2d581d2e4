import Modbit.Agent.EditJournal
import Modbit.Lib.Turns
import Modbit.Workspace.Transactions

/-!
# What the journal writer persists

`journal` is the journal after some calls in turn.  It has the first content and the last one of every
path (`baseline_journal`, `restore_journal`), and the last cursor of every surface
(`surfaces_journal`).

In every run the epochs of the persisted events go up (`Fenced`).  Whether the last of them has what
the calls noted depends on the order in which they come to the lock: `Tidy` is what holds where it is
that of their epochs, and `journal_run` is the result.  A call that is overtaken after it has taken
its epoch is fenced, and what it noted is not in the last event (`journal_overtaken`).
-/

namespace Modbit

open Lib Workspace WorktreeTools Checkpoint List

namespace EditJournal

/-! ### The journal after some calls -/

def Job.edit? : Job → Option AppliedEdit
  | .edit _ e => some e
  | .surface _ => none

def Job.editAt? (path : String) : Job → Option AppliedEdit
  | .edit _ e => if e.path = path then some e else none
  | .surface _ => none

def Job.editOf? (file : FilePath) : Job → Option AppliedEdit
  | .edit f e => if f = file then some e else none
  | .surface _ => none

def Job.cursorAt? (key : SurfaceKind × String) : Job → Option CursorMeta
  | .edit _ _ => none
  | .surface m => if m.key = key then some m else none

def editsAt (path : String) (js : List Job) : List AppliedEdit := js.filterMap (Job.editAt? path)

def cursorsAt (key : SurfaceKind × String) (js : List Job) : List CursorMeta :=
  js.filterMap (Job.cursorAt? key)

theorem filterMap_concat {α β : Type} (f : α → Option β) (l : List α) (a : α) :
    (l ++ [a]).filterMap f = l.filterMap f ++ (f a).toList := by
  rw [filterMap_append, filterMap_cons]
  cases f a with
  | none => rfl
  | some b => rfl

def journal (js : List Job) : DeltaJournal := js.foldl note .default

theorem journal_concat (js : List Job) (job : Job) : journal (js ++ [job]) = note (journal js) job := by
  rw [journal, foldl_append]
  rfl

theorem baseline_journal (path : String) (js : List Job) :
    (journal js).baseline.find? path = (editsAt path js).head?.map AppliedEdit.before := by
  induction js using List.reverseRecOn with
  | nil => rfl
  | append_singleton js job ih =>
    rw [journal_concat, editsAt, filterMap_concat, ← editsAt, head?_append]
    cases job with
    | surface m =>
      show (journal js).baseline.find? path = ((editsAt path js).head?.or none).map _
      rw [ih, Option.or_none]
    | edit file e =>
      have hbase : (note (journal js) (.edit file e)).baseline
          = if ((journal js).baseline.find? e.path).isSome then (journal js).baseline
            else (journal js).baseline.insert e.path e.before := rfl
      rw [hbase, Job.editAt?]
      by_cases hpath : e.path = path
      · rw [if_pos hpath, hpath]
        cases hhead : (editsAt path js).head? with
        | some first =>
          rw [hhead] at ih
          rw [if_pos (by rw [ih]; rfl), ih]
          rfl
        | none =>
          rw [hhead] at ih
          rw [if_neg (by rw [ih]; exact Bool.false_ne_true), OrdMap.find?_insert, if_pos rfl]
          rfl
      · rw [if_neg hpath]
        show _ = ((editsAt path js).head?.or none).map _
        rw [Option.or_none, ← ih]
        split_ifs
        · rfl
        · rw [OrdMap.find?_insert, if_neg (Ne.symm hpath)]

theorem deltas_journal (js : List Job) :
    (journal js).deltas = (js.filterMap Job.edit?).map (fun e => ⟨e.path, some e.after⟩) := by
  induction js using List.reverseRecOn with
  | nil => rfl
  | append_singleton js job ih =>
    rw [journal_concat, filterMap_concat, map_append, ← ih]
    cases job with
    | surface m => exact (append_nil _).symm
    | edit file e => rfl

theorem lookup_reverse_edits (path : String) (js : List Job) :
    ((js.filterMap Job.edit?).map (fun e => (e.path, e.after))).reverse.lookup path
      = (editsAt path js).getLast?.map AppliedEdit.after := by
  induction js using List.reverseRecOn with
  | nil => rfl
  | append_singleton js job ih =>
    rw [filterMap_concat, editsAt, filterMap_concat, ← editsAt]
    cases job with
    | surface m =>
      show (((js.filterMap Job.edit?) ++ []).map _).reverse.lookup path
        = (editsAt path js ++ []).getLast?.map _
      rw [append_nil, append_nil, ih]
    | edit file e =>
      show (((js.filterMap Job.edit?) ++ [e]).map _).reverse.lookup path = _
      rw [map_append, reverse_append, map_singleton, reverse_singleton,
        singleton_append, OrdMap.lookup_cons, Job.editAt?]
      by_cases hpath : e.path = path
      · rw [if_pos hpath.symm, if_pos hpath]
        show _ = (editsAt path js ++ [e]).getLast?.map _
        rw [getLast?_concat]
        rfl
      · rw [if_neg (Ne.symm hpath), if_neg hpath, ih]
        show _ = (editsAt path js ++ []).getLast?.map _
        rw [append_nil]

theorem restore_journal (js : List Job) :
    ∃ state, (journal js).restore = .ok state ∧
      ∀ path, state.files.find? path = (editsAt path js).getLast?.map AppliedEdit.after := by
  have hdeltas : (journal js).deltas
      = ((js.filterMap Job.edit?).map (fun e => (e.path, e.after))).map (fun e => ⟨e.1, some e.2⟩) := by
    rw [deltas_journal, map_map]
    rfl
  refine ⟨_, DeltaJournal.restore_of_edits _ _ hdeltas, fun path => ?_⟩
  rw [OrdMap.find?_insertAll, baseline_journal, lookup_reverse_edits]
  cases editsAt path js with
  | nil => rfl
  | cons e es =>
    rw [getLast?_cons]
    rfl

theorem surfaces_journal (key : SurfaceKind × String) (js : List Job) :
    (journal js).surfaces.filter (fun m => m.key = key) = (cursorsAt key js).getLast?.toList := by
  induction js using List.reverseRecOn with
  | nil => rfl
  | append_singleton js job ih =>
    rw [journal_concat, cursorsAt, filterMap_concat, ← cursorsAt]
    cases job with
    | edit file e =>
      show (journal js).surfaces.filter _ = ((cursorsAt key js) ++ []).getLast?.toList
      rw [ih, append_nil]
    | surface m =>
      show ((journal js).surfaces.filter (fun other => other.key ≠ m.key) ++ [m]).filter _ = _
      rw [filter_append, filter_filter, Job.cursorAt?]
      by_cases hkey : m.key = key
      · have hnone : (journal js).surfaces.filter
            (fun other => decide (other.key = key) && decide (other.key ≠ m.key)) = [] := by
          refine filter_eq_nil_iff.mpr (fun other _ => ?_)
          rw [hkey]
          simp
        have hself : [m].filter (fun m => m.key = key) = [m] := by simp [hkey]
        rw [hnone, if_pos hkey, hself]
        show _ = (cursorsAt key js ++ [m]).getLast?.toList
        rw [getLast?_concat]
        rfl
      · have hother : [m].filter (fun m => m.key = key) = [] := by simp [hkey]
        rw [if_neg hkey, hother]
        show _ = (cursorsAt key js ++ []).getLast?.toList
        rw [append_nil, append_nil, ← ih]
        refine filter_congr (fun other _ => ?_)
        by_cases hother : other.key = key
        · simp [hother, Ne.symm hkey]
        · simp [hother]

/-! ### Epochs in every run -/

def Phase.Inside : Phase → Prop
  | .updated _ _ | .written _ _ => True
  | _ => False

def Phase.Past : Phase → Prop
  | .called | .reserved _ => False
  | _ => True

namespace World

variable {w : World} {i : Nat}

theorem phases_set {phases : List Phase} {old new phase : Phase} {j : Nat}
    (hi : phases[i]? = some old) (h : (phases.set i new)[j]? = some phase) :
    j = i ∧ phase = new ∨ j ≠ i ∧ phases[j]? = some phase := by
  by_cases hj : j = i
  · rw [hj, getElem?_set_self (List.getElem?_eq_some_iff.mp hi).1] at h
    exact Or.inl ⟨hj, (Option.some.inj h).symm⟩
  · rw [getElem?_set_ne (Ne.symm hj)] at h
    exact Or.inr ⟨hj, h⟩

theorem phases_kept {phases : List Phase} {old new phase : Phase} {j : Nat}
    (hi : phases[i]? = some old) (h : (phases.set i new)[j]? = some phase) (hne : phase ≠ new) :
    phases[j]? = some phase :=
  (phases_set hi h).elim (fun h => absurd h.2 hne) And.right

/-- What the lock and the checkpoint store give: the events are not above the store's epoch, and below
that of a call that is to append its event. -/
structure Fenced (w : World) : Prop where
  increase : w.EpochsIncrease
  bounded : ∀ ev ∈ w.events, ev.1 ≤ w.checkpoints.currentEpoch
  locked : ∀ (i : Nat) phase, w.phases[i]? = some phase → phase.Inside → w.holder = some i
  ahead : ∀ (i epoch : Nat) text, w.phases[i]? = some (.written epoch text) →
    epoch = w.checkpoints.currentEpoch ∧ ∀ ev ∈ w.events, ev.1 < epoch

theorem fenced_start (tools : Tools) : (start tools).Fenced where
  increase := .nil
  bounded ev hev := by cases hev
  locked i phase h := by cases h
  ahead i epoch text h := by cases h

theorem Fenced.call (h : w.Fenced) (job : Job) : (w.call job).Fenced where
  increase := h.increase
  bounded := h.bounded
  locked j phase hj hin := by
    rcases getElem?_concat_cases hj with hj | ⟨-, rfl⟩
    · exact h.locked j phase hj hin
    · exact hin.elim
  ahead j epoch text hj := by
    rcases getElem?_concat_cases hj with hj | ⟨-, hphase⟩
    · exact h.ahead j epoch text hj
    · cases hphase

variable {old new : Phase}

theorem Fenced.moved (h : w.Fenced) {w' : World} (hi : w.phases[i]? = some old)
    (hphases : w'.phases = w.phases.set i new) (hevents : w'.events = w.events)
    (hstore : w'.checkpoints = w.checkpoints)
    (hheld : ∀ j, j ≠ i → w.holder = some j → w'.holder = some j)
    (hin : Phase.Inside new → w'.holder = some i) (hnew : ∀ epoch text, new ≠ .written epoch text) :
    w'.Fenced where
  increase := by
    rw [EpochsIncrease, hevents]
    exact h.increase
  bounded := by rw [hevents, hstore]; exact h.bounded
  locked j phase hj hinside := by
    rw [hphases] at hj
    rcases phases_set hi hj with ⟨rfl, rfl⟩ | ⟨hne, hj⟩
    · exact hin hinside
    · exact hheld j hne (h.locked j phase hj hinside)
  ahead j epoch text hj := by
    rw [hphases] at hj
    rcases phases_set hi hj with ⟨rfl, hnew'⟩ | ⟨-, hj⟩
    · exact absurd hnew'.symm (hnew epoch text)
    · rw [hevents, hstore]
      exact h.ahead j epoch text hj

theorem Fenced.alone (h : w.Fenced) {phase phase' : Phase} {j : Nat} (hi : w.phases[i]? = some phase)
    (hin : Phase.Inside phase) (hj : w.phases[j]? = some phase') (hin' : Phase.Inside phase') : j = i :=
  Option.some.inj ((h.locked j phase' hj hin').symm.trans (h.locked i phase hi hin))

/-- Of the calls only the one that holds the lock is inside. -/
theorem Fenced.only (h : w.Fenced) {old new phase : Phase} {j : Nat} (hi : w.phases[i]? = some old)
    (hin : Phase.Inside old) (hj : (w.phases.set i new)[j]? = some phase)
    (hin' : Phase.Inside phase) : phase = new := by
  rcases phases_set hi hj with ⟨-, hphase⟩ | ⟨hne, hj⟩
  · exact hphase
  · exact absurd (h.alone hi hin hj hin') hne

variable {epoch : Nat} {text : String}

theorem Fenced.written (h : w.Fenced) (hi : w.phases[i]? = some (.updated epoch text)) :
    (w.step (.write i)).1.Fenced := by
  rw [World.step, hi]
  dsimp only
  rw [CheckpointStore.write]
  split_ifs with hstale htaken
  · cases htaken
  · refine ⟨h.increase, h.bounded, fun j phase hj hin => ?_, fun j epoch' text' hj => ?_⟩
    · obtain rfl := h.only hi trivial hj hin
      exact hin.elim
    · cases h.only hi trivial hj trivial
  · have hlt := Nat.lt_of_not_le hstale
    refine ⟨h.increase, fun ev hev => le_trans (h.bounded ev hev) (Nat.le_of_lt hlt),
      fun j phase hj hin => ?_, fun j epoch' text' hj => ?_⟩
    · rcases phases_set hi hj with ⟨rfl, -⟩ | ⟨-, hj⟩
      · exact h.locked j _ hi trivial
      · exact h.locked j phase hj hin
    · obtain ⟨rfl, -⟩ := Phase.written.inj (h.only hi trivial hj trivial)
      exact ⟨rfl, fun ev hev => lt_of_le_of_lt (h.bounded ev hev) hlt⟩
  · rename_i htrue
    exact absurd rfl htrue

theorem Fenced.appended (h : w.Fenced)
    (hi : w.phases[i]? = some (.written epoch text)) : (w.step (.append i)).1.Fenced := by
  obtain ⟨hepoch, hbefore⟩ := h.ahead i epoch text hi
  rw [World.step, hi]
  refine ⟨?_, fun ev hev => ?_, fun j phase hj hin => ?_, fun j epoch' text' hj => ?_⟩
  · rw [EpochsIncrease, map_append]
    refine pairwise_append.mpr ⟨h.increase, pairwise_singleton _ _, fun a ha b hb => ?_⟩
    obtain ⟨ev, hev, rfl⟩ := mem_map.mp ha
    rw [mem_singleton.mp hb]
    exact hbefore ev hev
  · rcases mem_append.mp hev with hev | hev
    · exact h.bounded ev hev
    · rw [mem_singleton.mp hev]
      exact le_of_eq hepoch
  · obtain rfl := h.only hi trivial hj hin
    exact hin.elim
  · cases h.only hi trivial hj trivial

/-- **Every step keeps the fence.** -/
theorem Fenced.step (h : w.Fenced) (e : Event) : (w.step e).1.Fenced := by
  cases e with
  | apply args =>
    have htools : ({ w with tools := (w.tools.changeApply args).1 } : World).Fenced :=
      ⟨h.increase, h.bounded, h.locked, h.ahead⟩
    rw [World.step]
    split
    · exact htools.call _
    · exact htools
  | worktree ws => exact ⟨h.increase, h.bounded, h.locked, h.ahead⟩
  | surface m => exact h.call _
  | reserve i =>
    rw [World.step]
    split
    · next hi =>
      exact h.moved hi rfl rfl rfl (fun _ _ hheld => hheld) (fun hin => hin.elim)
        (fun _ _ hphase => by cases hphase)
    · exact h
  | update i =>
    rw [World.step]
    split
    · next hfree hjob hi =>
      split_ifs with hbig
      · exact h.moved hi rfl rfl rfl (fun _ _ hheld => hheld) (fun hin => hin.elim)
          (fun _ _ hphase => by cases hphase)
      · refine h.moved hi rfl rfl rfl (fun j _ hheld => ?_) (fun _ => rfl)
          (fun _ _ hphase => by cases hphase)
        rw [hfree] at hheld
        cases hheld
    · exact h
  | write i =>
    cases hi : w.phases[i]? with
    | none =>
      rw [World.step, hi]
      exact h
    | some phase =>
      cases phase with
      | updated epoch text => exact h.written hi
      | _ =>
        rw [World.step, hi]
        exact h
  | append i =>
    cases hi : w.phases[i]? with
    | none =>
      rw [World.step, hi]
      exact h
    | some phase =>
      cases phase with
      | written epoch text => exact h.appended hi
      | _ =>
        rw [World.step, hi]
        exact h

/-! ### Where the calls keep their order -/

/-- What holds as long as the calls come to the lock in order: the journal is that of the calls taken
so far, an epoch that is still to be used is above the store's, and the last event has the journal
whenever the lock is free. -/
structure Tidy (w : World) : Prop where
  fenced : w.Fenced
  lengths : w.phases.length = w.jobs.length
  took : ∀ i : Nat, i ∈ w.taken ↔ ∃ phase, w.phases[i]? = some phase ∧ phase.Past
  inner : w.inner = journal (takenAt w.jobs w.taken)
  room : w.checkpoints.currentEpoch < w.nextEpoch
  waiting : ∀ (i epoch : Nat), w.phases[i]? = some (.reserved epoch) →
    w.checkpoints.currentEpoch < epoch ∧ epoch < w.nextEpoch
  apart : ∀ (i j epoch : Nat), w.phases[i]? = some (.reserved epoch) →
    w.phases[j]? = some (.reserved epoch) → i = j
  ready : ∀ (i epoch : Nat) text, w.phases[i]? = some (.updated epoch text) →
    text = w.inner.text ∧ w.checkpoints.currentEpoch < epoch ∧ epoch < w.nextEpoch ∧
      ∀ (j epoch' : Nat), w.phases[j]? = some (.reserved epoch') → epoch < epoch'
  stored : ∀ (i epoch : Nat) text, w.phases[i]? = some (.written epoch text) → text = w.inner.text
  held : ∀ i, w.holder = some i → ∃ phase, w.phases[i]? = some phase ∧ phase.Inside
  idle : w.holder = none → w.taken ≠ [] →
    ∃ epoch, w.events.getLast? = some (epoch, w.inner.text)
  turns : InTurn Job.subject w.jobs w.taken
  lower : ∀ k ∈ w.taken, ∀ j < k,
    w.jobs[j]?.map Job.subject = w.jobs[k]?.map Job.subject → j ∈ w.taken
  spelled : ∀ file e file' e', Job.edit file e ∈ w.jobs → Job.edit file' e' ∈ w.jobs →
    (file' = file ↔ e'.path = e.path)

theorem Tidy.within (h : w.Tidy) : ∀ i ∈ w.taken, i < w.jobs.length := by
  intro i hi
  obtain ⟨phase, hphase, -⟩ := (h.took i).mp hi
  rw [← h.lengths]
  exact (List.getElem?_eq_some_iff.mp hphase).1

theorem tidy_start (tools : Tools) : (start tools).Tidy where
  fenced := fenced_start tools
  lengths := rfl
  took i := by
    refine ⟨fun h => ?_, fun h => ?_⟩
    · cases h
    · obtain ⟨phase, hphase, -⟩ := h
      cases hphase
  inner := rfl
  room := Nat.one_pos
  waiting i epoch h := by cases h
  apart i j epoch h := by cases h
  ready i epoch text h := by cases h
  stored i epoch text h := by cases h
  held i h := by cases h
  idle _ h := absurd rfl h
  turns := .nil
  lower k hk := by cases hk
  spelled file e file' e' h := by cases h

theorem Tidy.call (h : w.Tidy) {job : Job}
    (hspelled : ∀ file e, job = .edit file e → ∀ file' e', Job.edit file' e' ∈ w.jobs →
      (file' = file ↔ e'.path = e.path)) : (w.call job).Tidy := by
  have hnew : ∀ {i : Nat} {phase : Phase}, (w.phases ++ [Phase.called])[i]? = some phase →
      phase ≠ .called → w.phases[i]? = some phase := by
    intro i phase hi hne
    rcases getElem?_concat_cases hi with hi | ⟨-, hphase⟩
    · exact hi
    · exact absurd hphase hne
  have hold : ∀ {i : Nat} {phase : Phase}, w.phases[i]? = some phase →
      (w.phases ++ [Phase.called])[i]? = some phase := by
    intro i phase hi
    rw [getElem?_append_left (List.getElem?_eq_some_iff.mp hi).1, hi]
  refine
    { fenced := h.fenced.call job
      lengths := by
        show (w.phases ++ [Phase.called]).length = (w.jobs ++ [job]).length
        rw [length_append, length_append, h.lengths]
        rfl
      took := fun i => ?_
      inner := by
        show w.inner = journal (takenAt (w.jobs ++ [job]) w.taken)
        rw [takenAt_append h.within]
        exact h.inner
      room := h.room
      waiting := fun i epoch hi => h.waiting i epoch (hnew hi (fun heq => by cases heq))
      apart := fun i j epoch hi hj => h.apart i j epoch (hnew hi (fun heq => by cases heq))
        (hnew hj (fun heq => by cases heq))
      ready := fun i epoch text hi => ?_
      stored := fun i epoch text hi => h.stored i epoch text (hnew hi (fun heq => by cases heq))
      held := fun i hi => ?_
      idle := h.idle
      turns := h.turns.append h.within [job]
      lower := fun k hk j hj hsame => ?_
      spelled := fun file e file' e' hmem hmem' => ?_ }
  · refine (h.took i).trans ⟨fun ⟨phase, hi, hpast⟩ => ⟨phase, hold hi, hpast⟩,
      fun ⟨phase, hi, hpast⟩ => ⟨phase, hnew hi (fun heq => ?_), hpast⟩⟩
    rw [heq] at hpast
    exact hpast
  · obtain ⟨htext, hgt, hlt, hlow⟩ := h.ready i epoch text (hnew hi (fun heq => by cases heq))
    exact ⟨htext, hgt, hlt, fun j epoch' hj => hlow j epoch' (hnew hj (fun heq => by cases heq))⟩
  · obtain ⟨phase, hphase, hin⟩ := h.held i hi
    exact ⟨phase, hold hphase, hin⟩
  · have hk' := h.within k hk
    refine h.lower k hk j hj ?_
    have hsame' : (w.jobs ++ [job])[j]?.map Job.subject = (w.jobs ++ [job])[k]?.map Job.subject := hsame
    rwa [getElem?_append_left (lt_trans hj hk'), getElem?_append_left hk'] at hsame'
  · rcases mem_append.mp hmem with hmem | hmem
    · rcases mem_append.mp hmem' with hmem' | hmem'
      · exact h.spelled file e file' e' hmem hmem'
      · have hjob := (mem_singleton.mp hmem').symm
        have := hspelled file' e' hjob file e hmem
        exact ⟨fun heq => (this.mp heq.symm).symm, fun heq => (this.mpr heq.symm).symm⟩
    · have hjob := (mem_singleton.mp hmem).symm
      rcases mem_append.mp hmem' with hmem' | hmem'
      · exact hspelled file e hjob file' e' hmem'
      · obtain ⟨rfl, rfl⟩ := Job.edit.inj ((mem_singleton.mp hmem').trans hjob)
        exact ⟨fun _ => rfl, fun _ => rfl⟩

theorem past_set {phases : List Phase} (hi : phases[i]? = some old) (k : Nat) :
    (∃ phase, (phases.set i new)[k]? = some phase ∧ phase.Past) ↔
      (k = i ∧ new.Past ∨ k ≠ i ∧ ∃ phase, phases[k]? = some phase ∧ phase.Past) := by
  constructor
  · intro ⟨phase, hphase, hpast⟩
    rcases phases_set hi hphase with ⟨hk, rfl⟩ | ⟨hk, hold⟩
    · exact Or.inl ⟨hk, hpast⟩
    · exact Or.inr ⟨hk, phase, hold, hpast⟩
  · rintro (⟨rfl, hpast⟩ | ⟨hk, phase, hold, hpast⟩)
    · exact ⟨new, getElem?_set_self (List.getElem?_eq_some_iff.mp hi).1, hpast⟩
    · exact ⟨phase, (getElem?_set_ne (Ne.symm hk)).trans hold, hpast⟩

theorem took_kept (h : w.Tidy) (hi : w.phases[i]? = some old)
    (hold : old.Past) (hnew : new.Past) (k : Nat) :
    k ∈ w.taken ↔ ∃ phase, (w.phases.set i new)[k]? = some phase ∧ phase.Past := by
  rw [past_set hi]
  constructor
  · intro hk
    by_cases heq : k = i
    · exact Or.inl ⟨heq, hnew⟩
    · exact Or.inr ⟨heq, (h.took k).mp hk⟩
  · rintro (⟨rfl, -⟩ | ⟨-, hk⟩)
    · exact (h.took k).mpr ⟨old, hi, hold⟩
    · exact (h.took k).mpr hk

theorem Tidy.reserved (h : w.Tidy) (hi : w.phases[i]? = some .called) :
    (w.step (.reserve i)).1.Tidy := by
  have hfenced := h.fenced.step (.reserve i)
  rw [World.step, hi] at hfenced ⊢
  refine
    { fenced := hfenced
      lengths := (length_set).trans h.lengths
      took := fun k => ?_
      inner := h.inner
      room := Nat.lt_succ_of_lt h.room
      waiting := fun j epoch hj => ?_
      apart := fun j k epoch hj hk => ?_
      ready := fun j epoch text hj => ?_
      stored := fun j epoch text hj => ?_
      held := fun j hj => ?_
      idle := h.idle
      turns := h.turns
      lower := h.lower
      spelled := h.spelled }
  · refine Iff.trans ?_ (past_set hi k).symm
    constructor
    · intro hk
      refine Or.inr ⟨fun heq => ?_, (h.took k).mp hk⟩
      obtain ⟨phase, hphase, hpast⟩ := (h.took k).mp hk
      rw [heq, hi] at hphase
      obtain rfl := Option.some.inj hphase
      exact hpast
    · rintro (⟨-, hpast⟩ | ⟨-, hk⟩)
      · exact hpast.elim
      · exact (h.took k).mpr hk
  · rcases phases_set hi hj with ⟨-, hphase⟩ | ⟨-, hj⟩
    · obtain rfl := Phase.reserved.inj hphase
      exact ⟨h.room, Nat.lt_succ_self _⟩
    · obtain ⟨hgt, hlt⟩ := h.waiting j epoch hj
      exact ⟨hgt, Nat.lt_succ_of_lt hlt⟩
  · rcases phases_set hi hj with ⟨hji, hphase⟩ | ⟨-, hj'⟩
    · rcases phases_set hi hk with ⟨hki, -⟩ | ⟨-, hk'⟩
      · rw [hji, hki]
      · obtain rfl := Phase.reserved.inj hphase
        exact absurd (h.waiting k _ hk').2 (Nat.lt_irrefl _)
    · rcases phases_set hi hk with ⟨-, hphase⟩ | ⟨-, hk'⟩
      · obtain rfl := Phase.reserved.inj hphase
        exact absurd (h.waiting j _ hj').2 (Nat.lt_irrefl _)
      · exact h.apart j k epoch hj' hk'
  · rcases phases_set hi hj with ⟨-, hphase⟩ | ⟨-, hj⟩
    · cases hphase
    · obtain ⟨htext, hgt, hlt, hlow⟩ := h.ready j epoch text hj
      refine ⟨htext, hgt, Nat.lt_succ_of_lt hlt, fun k epoch' hk => ?_⟩
      rcases phases_set hi hk with ⟨-, hphase⟩ | ⟨-, hk⟩
      · obtain rfl := Phase.reserved.inj hphase
        exact hlt
      · exact hlow k epoch' hk
  · exact h.stored j epoch text (phases_kept hi hj (by simp))
  · obtain ⟨phase, hphase, hin⟩ := h.held j hj
    refine ⟨phase, (getElem?_set_ne (fun heq => ?_)).trans hphase, hin⟩
    rw [← heq, hi] at hphase
    obtain rfl := Option.some.inj hphase
    exact hin

/-- **A call that takes the lock in order notes its edit after those taken before.** -/
theorem Tidy.updated (h : w.Tidy) {job : Job} (hfree : w.holder = none)
    (hjob : w.jobs[i]? = some job) (hi : w.phases[i]? = some (.reserved epoch))
    (hfits : w.Fits (.update i)) (hord : w.Orderly (.update i)) :
    (w.step (.update i)).1.Tidy := by
  obtain ⟨hfirst, hlow⟩ := hord epoch hi
  have hfenced := h.fenced.step (.update i)
  have hbig : ¬ MAX_JOURNAL_BYTES < (w.noted job).utf8ByteSize := Nat.not_lt.mpr (hfits job hjob)
  have hnew : i ∉ w.taken := by
    intro hmem
    obtain ⟨phase, hphase, hpast⟩ := (h.took i).mp hmem
    rw [hi] at hphase
    obtain rfl := Option.some.inj hphase
    exact hpast
  have houtside : ∀ {j : Nat} {phase : Phase}, w.phases[j]? = some phase → ¬ phase.Inside := by
    intro j phase hj hin
    have := h.fenced.locked j phase hj hin
    rw [hfree] at this
    cases this
  rw [World.step, hfree, hjob, hi] at hfenced ⊢
  dsimp only at hfenced ⊢
  rw [if_neg hbig] at hfenced ⊢
  refine
    { fenced := hfenced
      lengths := (length_set).trans h.lengths
      took := fun k => ?_
      inner := ?_
      room := h.room
      waiting := fun j epoch' hj => ?_
      apart := fun j k epoch' hj hk => ?_
      ready := fun j epoch' text hj => ?_
      stored := fun j epoch' text hj => ?_
      held := fun j hj => ?_
      idle := fun hidle => by cases hidle
      turns := h.turns.concat (fun k hk hlt hsame => h.lower k hk i hlt hsame) hnew
      lower := fun k hk j hj hsame => ?_
      spelled := h.spelled }
  · refine mem_append.trans (Iff.trans ?_ (past_set hi k).symm)
    constructor
    · rintro (hk | hk)
      · exact Or.inr ⟨fun heq => hnew (heq ▸ hk), (h.took k).mp hk⟩
      · exact Or.inl ⟨mem_singleton.mp hk, trivial⟩
    · rintro (⟨hk, -⟩ | ⟨-, hk⟩)
      · exact Or.inr (mem_singleton.mpr hk)
      · exact Or.inl ((h.took k).mpr hk)
  · have hone : takenAt w.jobs [i] = [job] := by
      rw [takenAt, filterMap_cons, hjob]
      rfl
    rw [takenAt, filterMap_append, ← takenAt, ← takenAt, hone, journal_concat, h.inner]
  · exact h.waiting j epoch' (phases_kept hi hj (by simp))
  · exact h.apart j k epoch' (phases_kept hi hj (by simp)) (phases_kept hi hk (by simp))
  · rcases phases_set hi hj with ⟨-, hphase⟩ | ⟨-, hj⟩
    · obtain ⟨rfl, rfl⟩ := Phase.updated.inj hphase
      obtain ⟨hgt, hlt⟩ := h.waiting i _ hi
      refine ⟨rfl, hgt, hlt, fun k epoch'' hk => ?_⟩
      rcases phases_set hi hk with ⟨-, hphase'⟩ | ⟨hne, hk⟩
      · cases hphase'
      · refine lt_of_le_of_ne (hfirst k epoch'' hk) (fun heq => hne ?_)
        exact h.apart k i _ (heq ▸ hk) hi
    · exact absurd trivial (houtside hj)
  · rcases phases_set hi hj with ⟨-, hphase⟩ | ⟨-, hj⟩
    · cases hphase
    · exact absurd trivial (houtside hj)
  · obtain rfl := Option.some.inj hj
    exact ⟨_, getElem?_set_self (List.getElem?_eq_some_iff.mp hi).1, trivial⟩
  · rcases mem_append.mp hk with hk | hk
    · exact mem_append_left _ (h.lower k hk j hj hsame)
    · rw [mem_singleton.mp hk] at hj hsame
      exact mem_append_left _ (hlow j hj hsame)

theorem Tidy.written (h : w.Tidy)
    (hi : w.phases[i]? = some (.updated epoch text)) : (w.step (.write i)).1.Tidy := by
  obtain ⟨htext, hgt, hlt, hlow⟩ := h.ready i epoch text hi
  have hheld := h.fenced.locked i _ hi trivial
  have hfenced := h.fenced.step (.write i)
  have hout : (w.checkpoints.write epoch text)
      = ({ w.checkpoints with currentEpoch := epoch, latest := some (epoch, text) }, true) := by
    rw [CheckpointStore.write, if_neg (Nat.not_le.mpr hgt)]
  rw [World.step, hi] at hfenced ⊢
  dsimp only at hfenced ⊢
  rw [hout] at hfenced ⊢
  refine
    { fenced := hfenced
      lengths := (length_set).trans h.lengths
      took := took_kept h hi trivial trivial
      inner := h.inner
      room := hlt
      waiting := fun j epoch' hj => ?_
      apart := fun j k epoch' hj hk => ?_
      ready := fun j epoch' text' hj => ?_
      stored := fun j epoch' text' hj => ?_
      held := fun j hj => ?_
      idle := fun hidle => ?_
      turns := h.turns
      lower := h.lower
      spelled := h.spelled }
  · have hold := phases_kept hi hj (by simp)
    exact ⟨hlow j epoch' hold, (h.waiting j epoch' hold).2⟩
  · exact h.apart j k epoch' (phases_kept hi hj (by simp)) (phases_kept hi hk (by simp))
  · cases h.fenced.only hi trivial hj trivial
  · obtain ⟨-, rfl⟩ := Phase.written.inj (h.fenced.only hi trivial hj trivial)
    exact htext
  · have hj' : w.holder = some j := hj
    rw [hheld] at hj'
    obtain rfl := Option.some.inj hj'
    exact ⟨_, getElem?_set_self (List.getElem?_eq_some_iff.mp hi).1, trivial⟩
  · have hidle' : w.holder = none := hidle
    rw [hheld] at hidle'
    cases hidle'

theorem Tidy.appended (h : w.Tidy)
    (hi : w.phases[i]? = some (.written epoch text)) : (w.step (.append i)).1.Tidy := by
  have hfenced := h.fenced.step (.append i)
  rw [World.step, hi] at hfenced ⊢
  refine
    { fenced := hfenced
      lengths := (length_set).trans h.lengths
      took := took_kept h hi trivial trivial
      inner := h.inner
      room := h.room
      waiting := fun j epoch' hj => ?_
      apart := fun j k epoch' hj hk => ?_
      ready := fun j epoch' text' hj => ?_
      stored := fun j epoch' text' hj => ?_
      held := fun j hj => by cases hj
      idle := fun _ _ => ⟨epoch, ?_⟩
      turns := h.turns
      lower := h.lower
      spelled := h.spelled }
  · exact h.waiting j epoch' (phases_kept hi hj (by simp))
  · exact h.apart j k epoch' (phases_kept hi hj (by simp)) (phases_kept hi hk (by simp))
  · cases h.fenced.only hi trivial hj trivial
  · cases h.fenced.only hi trivial hj trivial
  · rw [getLast?_concat, h.stored i epoch text hi]

/-- **A step in order keeps all of it.** -/
theorem Tidy.step (h : w.Tidy) {e : Event} (hfits : w.Fits e) (hord : w.Orderly e) :
    (w.step e).1.Tidy := by
  cases e with
  | apply args =>
    have htools : ({ w with tools := (w.tools.changeApply args).1 } : World).Tidy :=
      { h with fenced := ⟨h.fenced.increase, h.fenced.bounded, h.fenced.locked, h.fenced.ahead⟩ }
    cases hedited : w.edited args with
    | none =>
      rw [World.step, hedited]
      exact htools
    | some edit =>
      obtain ⟨file, e⟩ := edit
      rw [World.step, hedited]
      refine htools.call (fun file' e' hjob => ?_)
      obtain ⟨rfl, rfl⟩ := Job.edit.inj hjob
      exact hord _ _ hedited
  | worktree ws =>
    exact { h with fenced := ⟨h.fenced.increase, h.fenced.bounded, h.fenced.locked, h.fenced.ahead⟩ }
  | surface m => exact h.call (fun file e hjob => by cases hjob)
  | reserve i =>
    by_cases hi : w.phases[i]? = some .called
    · exact h.reserved hi
    · have hstay : (w.step (.reserve i)).1 = w := by
        rw [World.step]
        split
        · next hcalled => exact absurd hcalled hi
        · rfl
      rw [hstay]
      exact h
  | update i =>
    have hcases : (∃ job epoch, w.holder = none ∧ w.jobs[i]? = some job ∧
        w.phases[i]? = some (.reserved epoch)) ∨ (w.step (.update i)).1 = w := by
      rw [World.step]
      split
      · next hfree hjob hi => exact Or.inl ⟨_, _, hfree, hjob, hi⟩
      · exact Or.inr rfl
    rcases hcases with ⟨job, epoch, hfree, hjob, hi⟩ | hstay
    · exact h.updated hfree hjob hi hfits hord
    · rw [hstay]
      exact h
  | write i =>
    have hcases : (∃ epoch text, w.phases[i]? = some (.updated epoch text)) ∨
        (w.step (.write i)).1 = w := by
      rw [World.step]
      split
      · next hi => exact Or.inl ⟨_, _, hi⟩
      · exact Or.inr rfl
    rcases hcases with ⟨epoch, text, hi⟩ | hstay
    · exact h.written hi
    · rw [hstay]
      exact h
  | append i =>
    have hcases : (∃ epoch text, w.phases[i]? = some (.written epoch text)) ∨
        (w.step (.append i)).1 = w := by
      rw [World.step]
      split
      · next hi => exact Or.inl ⟨_, _, hi⟩
      · exact Or.inr rfl
    rcases hcases with ⟨epoch, text, hi⟩ | hstay
    · exact h.appended hi
    · rw [hstay]
      exact h

/-! ### What the last event restores -/

theorem editsOf_eq (file : FilePath) : w.editsOf file = w.jobs.filterMap (Job.editOf? file) :=
  filterMap_congr (fun job _ => by cases job with | edit f e => rfl | surface m => rfl)

theorem cursorsOf_eq (key : SurfaceKind × String) :
    w.cursorsOf key = w.jobs.filterMap (Job.cursorAt? key) :=
  filterMap_congr (fun job _ => by cases job with | edit f e => rfl | surface m => rfl)

variable {file : FilePath} {e : AppliedEdit}

theorem mem_editsOf : e ∈ w.editsOf file ↔ Job.edit file e ∈ w.jobs := by
  rw [editsOf_eq, mem_filterMap]
  constructor
  · rintro ⟨job, hjob, hsome⟩
    cases job with
    | surface m => cases hsome
    | edit f e' =>
      rw [Job.editOf?] at hsome
      split_ifs at hsome with hf
      rw [← hf, ← Option.some.inj hsome]
      exact hjob
  · exact fun hmem => ⟨_, hmem, if_pos rfl⟩

theorem Tidy.editsAt_eq (h : w.Tidy) (hall : ∀ i, i ∈ w.taken ↔ i < w.jobs.length)
    (hmem : Job.edit file e ∈ w.jobs) :
    editsAt e.path (takenAt w.jobs w.taken) = w.editsOf file := by
  have hsubject : ∀ job : Job, (job.editOf? file).isSome → job.subject = .inl file := by
    intro job hjob
    cases job with
    | surface m => cases hjob
    | edit f e' =>
      rw [Job.editOf?] at hjob
      split_ifs at hjob with hf
      · exact congrArg Sum.inl hf
      · cases hjob
  rw [editsOf_eq, ← filterMap_taken hall h.turns hsubject, editsAt]
  refine filterMap_congr (fun job hjob => ?_)
  cases job with
  | surface m => rfl
  | edit f e' =>
    have hiff := h.spelled file e f e' hmem (mem_of_mem_takenAt hjob)
    show (if e'.path = e.path then some e' else none) = if f = file then some e' else none
    rw [if_congr hiff.symm rfl rfl]

theorem Tidy.cursorsAt_eq (h : w.Tidy) (hall : ∀ i, i ∈ w.taken ↔ i < w.jobs.length)
    (key : SurfaceKind × String) : cursorsAt key (takenAt w.jobs w.taken) = w.cursorsOf key := by
  have hsubject : ∀ job : Job, (job.cursorAt? key).isSome → job.subject = .inr key := by
    intro job hjob
    cases job with
    | edit f e => cases hjob
    | surface m =>
      rw [Job.cursorAt?] at hjob
      split_ifs at hjob with hm
      · exact congrArg Sum.inr hm
      · cases hjob
  rw [cursorsAt, filterMap_taken hall h.turns hsubject, cursorsOf_eq]

theorem Tidy.spells (h : w.Tidy) (hmem : Job.edit file e ∈ w.jobs) : w.Spells e.path file ∧
      (∀ path, w.Spells path file → path = e.path) ∧ ∀ file', w.Spells e.path file' → file' = file := by
  refine ⟨⟨e, mem_editsOf.mpr hmem, rfl⟩, ?_, ?_⟩
  · rintro path ⟨e', he', rfl⟩
    exact (h.spelled file e file e' hmem (mem_editsOf.mp he')).mp rfl
  · rintro file' ⟨e', he', hpath⟩
    exact (h.spelled file e file' e' hmem (mem_editsOf.mp he')).mpr hpath

theorem edit_of_editsAt {path : String} {places : List Nat}
    (h : editsAt path (takenAt w.jobs places) ≠ []) :
    ∃ file e, Job.edit file e ∈ w.jobs ∧ e.path = path := by
  obtain ⟨e, he⟩ := exists_mem_of_ne_nil _ h
  obtain ⟨job, hjob, hsome⟩ := mem_filterMap.mp he
  cases job with
  | surface m => cases hsome
  | edit file e' =>
    rw [Job.editAt?] at hsome
    split_ifs at hsome with hpath
    exact ⟨file, e', mem_of_mem_takenAt hjob, hpath⟩

/-- **Once all calls have returned, the journal has all of them.** -/
theorem Tidy.exact (h : w.Tidy) (hall : ∀ i, i ∈ w.taken ↔ i < w.jobs.length)
    {files : OrdMap String (List UInt8)}
    (hfiles : ∀ path, files.find? path
      = (editsAt path (takenAt w.jobs w.taken)).getLast?.map AppliedEdit.after) :
    w.Exact w.inner files where
  last file e hlast := by
    have hmem := mem_editsOf.mp (mem_of_getLast? hlast)
    obtain ⟨hspells, honly, -⟩ := h.spells hmem
    refine ⟨e.path, hspells, ?_, fun path' _ hpath' => honly path' hpath'⟩
    rw [hfiles, h.editsAt_eq hall hmem, hlast]
    rfl
  first file e hfirst := by
    have hmem := mem_editsOf.mp (mem_of_head? hfirst)
    obtain ⟨hspells, honly, -⟩ := h.spells hmem
    refine ⟨e.path, hspells, ?_, fun path' _ hpath' => honly path' hpath'⟩
    rw [h.inner, baseline_journal, h.editsAt_eq hall hmem, hfirst]
    rfl
  known path hknown := by
    have hsome : editsAt path (takenAt w.jobs w.taken) ≠ [] := by
      intro hnil
      rcases hknown with hkey | hkey
      · obtain ⟨bytes, hfind⟩ := OrdMap.mem_keys.mp hkey
        rw [hfiles, hnil] at hfind
        cases hfind
      · obtain ⟨bytes, hfind⟩ := OrdMap.mem_keys.mp hkey
        rw [h.inner, baseline_journal, hnil] at hfind
        cases hfind
    obtain ⟨file, e, hmem, rfl⟩ := edit_of_editsAt hsome
    obtain ⟨hspells, -, honly⟩ := h.spells hmem
    exact ⟨file, hspells, honly⟩
  surfaces key := by
    rw [h.inner, surfaces_journal, h.cursorsAt_eq hall]

theorem Tidy.restorable (h : w.Tidy) : w.Restorable := by
  intro hjobs hreturned
  have hall : ∀ i, i ∈ w.taken ↔ i < w.jobs.length := by
    intro i
    refine ⟨h.within i, fun hi => (h.took i).mpr ?_⟩
    rw [← h.lengths] at hi
    refine ⟨_, getElem?_eq_getElem hi, ?_⟩
    rw [hreturned _ (getElem_mem hi)]
    trivial
  have hfree : w.holder = none := by
    cases hholder : w.holder with
    | none => rfl
    | some i =>
      obtain ⟨phase, hphase, hin⟩ := h.held i hholder
      rw [hreturned phase (mem_of_getElem? hphase)] at hin
      exact hin.elim
  have htaken : w.taken ≠ [] := by
    intro hnil
    have hzero := (hall 0).mpr (length_pos_of_ne_nil hjobs)
    rw [hnil] at hzero
    cases hzero
  obtain ⟨epoch, hlast⟩ := h.idle hfree htaken
  obtain ⟨state, hrestore, hfiles⟩ := restore_journal (takenAt w.jobs w.taken)
  rw [← h.inner] at hrestore
  exact ⟨epoch, w.inner, state, hlast, hrestore, h.exact hall hfiles⟩

/-- **The epochs of the persisted journals go up, and where the calls come to the lock in order, the
last journal restores what was edited.** -/
theorem journal_run (tools : Tools) (events : List Event) :
    (run World.step (start tools) events).EpochsIncrease ∧
      (Admits World.step (fun w e => w.Fits e ∧ w.Orderly e) (start tools) events →
        (run World.step (start tools) events).Restorable) := by
  constructor
  · have hpath := @path_run _ _ _ World.step (start tools) events
    have hfenced := hpath.invariant (I := Fenced) (fenced_start tools) (fun w e hw _ => hw.step e)
    exact hfenced.increase
  · intro h
    have htidy := (path_of_admits events h).invariant (I := Tidy) (tidy_start tools)
      (fun w e hw he => hw.step he.1 he.2)
    exact htidy.restorable

/-! ### A call that is overtaken -/

def twoFiles : Tools :=
  ⟨((WorkspaceFileService.vacant.create "a" [97]).1.create "b" [98]).1, false, none⟩

def changeOf (path : String) : ApplyArgs := ⟨some path, some path, some "c", none⟩

/-- Both files are edited, and both calls have their epochs. -/
def twoEdits : List Event := [.apply (changeOf "a"), .apply (changeOf "b"), .reserve 0, .reserve 1]

def turn (i : Nat) : List Event := [.update i, .write i, .append i]

instance decidableFits (w : World) : ∀ e, Decidable (w.Fits e)
  | .update i =>
    match h : w.jobs[i]? with
    | none => .isTrue (fun job hjob => by rw [h] at hjob; cases hjob)
    | some job => decidable_of_iff ((w.noted job).utf8ByteSize ≤ MAX_JOURNAL_BYTES)
        ⟨fun hle job' hjob => by rw [h] at hjob; cases hjob; exact hle, fun hfits => hfits job h⟩
  | .apply _ | .worktree _ | .surface _ | .reserve _ | .write _ | .append _ => .isTrue trivial

theorem journal_inOrder : (run World.step (start twoFiles) (twoEdits ++ turn 0 ++ turn 1)).Restorable := by
  refine (journal_run twoFiles (twoEdits ++ turn 0 ++ turn 1)).2
    (admits_append.mpr ⟨admits_append.mpr ⟨?_, ?_⟩, ?_⟩)
  · have hjobs : (run World.step (start twoFiles) [.apply (changeOf "a")]).jobs
        = [.edit ["ws", "a"] ⟨"a", [97], [99]⟩] := by decide +kernel
    have hedited : (run World.step (start twoFiles) [.apply (changeOf "a")]).edited (changeOf "b")
        = some (["ws", "b"], ⟨"b", [98], [99]⟩) := by decide +kernel
    refine ⟨⟨trivial, fun _ _ _ _ _ hmem => by cases hmem⟩, ⟨trivial, ?_⟩, ⟨trivial, trivial⟩,
      ⟨trivial, trivial⟩, trivial⟩
    intro file e he file' e' hmem
    obtain ⟨rfl, rfl⟩ := Prod.mk.inj (Option.some.inj (hedited.symm.trans he))
    obtain ⟨rfl, rfl⟩ := Job.edit.inj (mem_singleton.mp (hjobs ▸ hmem))
    decide
  · have hphases : (run World.step (start twoFiles) twoEdits).phases = [.reserved 1, .reserved 2] := by
      decide +kernel
    refine ⟨⟨of_decide_eq_true (by decide +kernel), fun epoch hi => ⟨fun j epoch' hj => ?_,
      fun j hj => (Nat.not_lt_zero j hj).elim⟩⟩, ⟨trivial, trivial⟩, ⟨trivial, trivial⟩, trivial⟩
    rw [hphases] at hi hj
    obtain rfl := Phase.reserved.inj (Option.some.inj hi)
    rcases mem_cons.mp (mem_of_getElem? hj) with hphase | hmem
    · exact le_of_eq (Phase.reserved.inj hphase).symm
    · rw [Phase.reserved.inj (mem_singleton.mp hmem)]
      decide
  · have hphases : (run World.step (start twoFiles) (twoEdits ++ turn 0)).phases
        = [.returned, .reserved 2] := by decide +kernel
    refine ⟨⟨of_decide_eq_true (by decide +kernel), fun epoch hi => ⟨fun j epoch' hj => ?_,
      fun j hj _ => ?_⟩⟩, ⟨trivial, trivial⟩, ⟨trivial, trivial⟩, trivial⟩
    · rw [hphases] at hi hj
      obtain rfl := Phase.reserved.inj (Option.some.inj hi)
      rcases mem_cons.mp (mem_of_getElem? hj) with hphase | hmem
      · cases hphase
      · exact le_of_eq (Phase.reserved.inj (mem_singleton.mp hmem)).symm
    · obtain rfl := Nat.lt_one_iff.mp hj
      decide +kernel

/-- The edit of the call that is overtaken is in no event. -/
theorem journal_overtaken : ¬ ∀ (tools : Tools) (events : List Event),
    Admits World.step Fits (start tools) events →
      (run World.step (start tools) events).Restorable := by
  intro h
  obtain ⟨epoch, j, state, hlast, -, hexact⟩ := h twoFiles (twoEdits ++ turn 1 ++ turn 0)
    (by decide +kernel) (by decide +kernel) (by decide +kernel)
  have hfirst : j.baseline.entries.head?.map Prod.fst = some "b" := by
    have htext : (run World.step (start twoFiles) (twoEdits ++ turn 1 ++ turn 0)).events.getLast?.map
        (fun ev => DeltaJournal.readFirst ev.2) = some (some "b") := by decide +kernel
    rw [hlast] at htext
    rw [← DeltaJournal.readFirst_text]
    exact Option.some.inj htext
  obtain ⟨path, ⟨e, he, hpath⟩, hfind, -⟩ :=
    hexact.first ["ws", "a"] ⟨"a", [97], [99]⟩ (by decide +kernel)
  have hedits : (run World.step (start twoFiles) (twoEdits ++ turn 1 ++ turn 0)).editsOf ["ws", "a"]
      = [⟨"a", [97], [99]⟩] := by decide +kernel
  rw [hedits, mem_singleton] at he
  rw [← hpath, he] at hfind
  have hmem := OrdMap.mem_entries.mpr hfind
  have hsorted := j.baseline.sorted
  cases hentries : j.baseline.entries with
  | nil =>
    rw [hentries] at hmem
    cases hmem
  | cons e' es =>
    rw [hentries] at hfirst hmem hsorted
    have hkey : e'.1 = "b" := Option.some.inj hfirst
    rcases mem_cons.mp hmem with heq | hrest
    · rw [← heq] at hkey
      exact absurd hkey (by decide)
    · have hlt := (pairwise_cons.mp hsorted).1 _ hrest
      rw [hkey] at hlt
      exact absurd hlt (by decide)

end World

end EditJournal

end Modbit
