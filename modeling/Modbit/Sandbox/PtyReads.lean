import Modbit.Lib.Run
import Modbit.Sandbox.GuestExecutor

/-!
# Reading a terminal

`PtyBroker::read` adds the two numbers of a request before it compares them with the length of the
output.  `readsExactly_iff`: the answer is the requested part of the output, and the broker as it was,
exactly when the sum is a machine word; otherwise the thread panics and no session answers any more.

A reader goes on at the offset it was answered with.  `Sees` is what holds of it throughout a run in
which the output grows and others use the broker (`pty_reads_iff`).
-/

namespace Modbit.Sandbox

open Lib List

namespace PtyBroker

/-- The bytes from the offset on, as far as they are asked for and there. -/
def ReadsExactly (b : PtyBroker) (id : String) (offset max : Nat) : Prop :=
  ∃ session, b.sessions.find? id = some session ∧
    b.read id offset max = (b, some (.ok
      ((session.output.take (min (offset + max) session.output.length)).drop offset,
        min (offset + max) session.output.length, session.alive)))

variable {b : PtyBroker} {id : String} {session : PtySession} {offset max : Nat}

theorem read_of_fits (hcalm : b.poisoned = false) (hsession : b.sessions.find? id = some session)
    (hfits : offset + max < 2 ^ 64) :
    b.read id offset max = (b, some (.ok
      ((session.output.take (min (offset + max) session.output.length)).drop offset,
        min (offset + max) session.output.length, session.alive))) := by
  rw [read, locked, hcalm, if_neg Bool.false_ne_true, hsession]
  exact if_pos hfits

theorem read_of_overflow (hcalm : b.poisoned = false)
    (hsession : b.sessions.find? id = some session) (hover : ¬ offset + max < 2 ^ 64) :
    b.read id offset max = ({ b with poisoned := true }, none) := by
  rw [read, locked, hcalm, if_neg Bool.false_ne_true, hsession]
  exact if_neg hover

/-- **A read is exact exactly when its end is a machine word.** -/
theorem readsExactly_iff (hcalm : b.poisoned = false) (hsession : b.sessions.find? id = some session)
    (offset max : Nat) : b.ReadsExactly id offset max ↔ offset + max < 2 ^ 64 := by
  constructor
  · rintro ⟨s, -, hread⟩
    by_contra hover
    rw [read_of_overflow hcalm hsession hover] at hread
    exact absurd (congrArg Prod.snd hread) (Option.some_ne_none _).symm
  · exact fun hfits => ⟨session, hsession, read_of_fits hcalm hsession hfits⟩

theorem read_fst (hcalm : b.poisoned = false) (id' : String) (hfits : offset + max < 2 ^ 64) :
    (b.read id' offset max).1 = b ∧ (b.read id' offset max).2 ≠ none := by
  rw [read, locked, hcalm, if_neg Bool.false_ne_true]
  cases b.sessions.find? id' with
  | none => exact ⟨rfl, Option.some_ne_none _⟩
  | some s =>
    dsimp only
    rw [if_pos hfits]
    exact ⟨rfl, Option.some_ne_none _⟩

theorem write_fst (hcalm : b.poisoned = false) (id' : String) (written : Except String Unit) :
    (b.write id' written).1 = b ∧ (b.write id' written).2 ≠ none := by
  unfold write locked
  rw [hcalm, if_neg Bool.false_ne_true]
  split
  all_goals exact ⟨rfl, Option.some_ne_none _⟩

theorem spawn_fst (hcalm : b.poisoned = false) (hsession : b.sessions.find? id = some session)
    (id' : String) (generation : Nat) (started : Except String Unit) :
    (b.spawn id' generation started).1.poisoned = false ∧
      (b.spawn id' generation started).2 ≠ none ∧
      (b.spawn id' generation started).1.sessions.find? id = some session := by
  unfold spawn locked
  rw [hcalm, if_neg Bool.false_ne_true]
  split_ifs with hthere
  · exact ⟨hcalm, Option.some_ne_none _, hsession⟩
  · split
    · exact ⟨hcalm, Option.some_ne_none _, hsession⟩
    · refine ⟨rfl, Option.some_ne_none _, ?_⟩
      rw [OrdMap.find?_insert, if_neg, hsession]
      rintro rfl
      exact hthere (by rw [hsession]; rfl)

theorem kill_fst (hcalm : b.poisoned = false) {id' : String} (hne : id ≠ id') :
    (b.kill id').1.poisoned = false ∧ (b.kill id').2 ≠ none ∧
      (b.kill id').1.sessions.find? id = b.sessions.find? id := by
  unfold kill locked
  rw [hcalm, if_neg Bool.false_ne_true]
  refine ⟨rfl, Option.some_ne_none _, ?_⟩
  rw [OrdMap.find?_erase, if_neg hne]

end PtyBroker

/-! ### A reader -/

/-- A reader of one session: its offset, where it began to read, what it has read, and whether a
request to the broker has panicked. -/
structure PtyReader where
  broker : PtyBroker
  offset : Nat
  began : Option Nat
  seen : List UInt8
  panicked : Bool

inductive PtyEvent where
  /-- The terminal writes; a session that has ended does not come back. -/
  | output (id : String) (bytes : List UInt8) (alive : Bool)
  /-- The reader asks for more. -/
  | read (max : Nat)
  | spawn (id : String) (generation : Nat) (started : Except String Unit)
  | write (id : String) (written : Except String Unit)
  | readOther (id : String) (offset max : Nat)
  | kill (id : String)

namespace PtyReader

variable (id : String)

def request {α : Type} (r : PtyReader) (done : PtyBroker × Option α) : PtyReader :=
  { r with broker := done.1, panicked := r.panicked || done.2.isNone }

def readMore (r : PtyReader) (max : Nat) : PtyReader :=
  let done := r.broker.read id r.offset max
  match done.2 with
  | some (.ok (bytes, next, _)) =>
    { r.request done with
      offset := next
      began := r.began.or (some (min r.offset next))
      seen := r.seen ++ bytes }
  | _ => r.request done

def append (b : PtyBroker) (id : String) (bytes : List UInt8) (alive : Bool) : PtyBroker :=
  { b with sessions := b.sessions.filterMap (fun id' session =>
      some (if id' = id then
        { session with output := session.output ++ bytes, alive := session.alive && alive }
      else session)) }

def step (r : PtyReader) : PtyEvent → PtyReader × Unit
  | .output id' bytes alive => ({ r with broker := append r.broker id' bytes alive }, ())
  | .read max => (r.readMore id max, ())
  | .spawn id' generation started => (r.request (r.broker.spawn id' generation started), ())
  | .write id' written => (r.request (r.broker.write id' written), ())
  | .readOther id' offset max => (r.request (r.broker.read id' offset max), ())
  | .kill id' => (r.request (r.broker.kill id'), ())

/-- Every read ends at a machine word, and the session is not killed. -/
def Fits (r : PtyReader) : PtyEvent → Prop
  | .read max => r.offset + max < 2 ^ 64
  | .readOther _ offset max => offset + max < 2 ^ 64
  | .kill id' => id' ≠ id
  | _ => True

def start (b : PtyBroker) (offset : Nat) : PtyReader := ⟨b, offset, none, [], false⟩

/-- No request has panicked, and the reader has seen its part of the output once. -/
structure Sees (offset : Nat) (r : PtyReader) : Prop where
  calm : r.broker.poisoned = false ∧ r.panicked = false
  seen : ∃ session, r.broker.sessions.find? id = some session ∧
    match r.began with
    | none => r.seen = [] ∧ r.offset = offset
    | some k => k ≤ offset ∧ k ≤ r.offset ∧ r.offset ≤ session.output.length ∧
        r.seen = (session.output.take r.offset).drop k

variable {id : String} {offset : Nat} {r : PtyReader}

theorem sees_start {b : PtyBroker} {session : PtySession} (hcalm : b.poisoned = false)
    (hsession : b.sessions.find? id = some session) : Sees id offset (start b offset) :=
  ⟨⟨hcalm, rfl⟩, session, hsession, rfl, rfl⟩

theorem Sees.request (h : r.Sees id offset) {α : Type} {done : PtyBroker × Option α}
    (hcalm : done.1.poisoned = false) (hanswer : done.2 ≠ none)
    (hsame : done.1.sessions.find? id = r.broker.sessions.find? id) :
    (r.request done).Sees id offset := by
  obtain ⟨a, ha⟩ := Option.ne_none_iff_exists'.mp hanswer
  obtain ⟨session, hsession, hseen⟩ := h.seen
  exact ⟨⟨hcalm, by rw [PtyReader.request, h.calm.2, ha]; rfl⟩, session, hsame.trans hsession, hseen⟩

theorem Sees.output (h : r.Sees id offset) (id' : String) (bytes : List UInt8) (alive : Bool) :
    Sees id offset { r with broker := append r.broker id' bytes alive } := by
  obtain ⟨session, hsession, hseen⟩ := h.seen
  refine ⟨h.calm, if id = id' then
      { session with output := session.output ++ bytes, alive := session.alive && alive }
    else session, ?_, ?_⟩
  · exact (OrdMap.find?_filterMap _ _ _).trans (by rw [hsession]; rfl)
  · split_ifs with hid
    · cases hbegan : r.began with
      | none =>
        rw [hbegan] at hseen
        exact hseen
      | some k =>
        rw [hbegan] at hseen
        obtain ⟨hk, hle, hend, heq⟩ := hseen
        refine ⟨hk, hle, ?_, ?_⟩
        · rw [length_append]
          exact Nat.le_trans hend (Nat.le_add_right _ _)
        · rw [take_append_of_le_length hend]
          exact heq
    · exact hseen

theorem take_drop_append {l : List UInt8} {k c next : Nat} (hk : k ≤ c) (hc : c ≤ next) :
    (l.take c).drop k ++ (l.take next).drop c = (l.take next).drop k := by
  have hsplit : l.take next = l.take c ++ (l.take next).drop c := by
    conv_lhs => rw [← take_append_drop c (l.take next)]
    rw [take_take, Nat.min_eq_left hc]
  by_cases hlen : k ≤ (l.take c).length
  · conv_rhs => rw [hsplit]
    rw [drop_append_of_le_length hlen]
  · -- the list ends before the first of the two
    have hshort : l.length ≤ k := by
      rw [length_take] at hlen
      omega
    rw [drop_eq_nil_of_le (by rw [length_take]; omega),
      drop_eq_nil_of_le (by rw [length_take]; omega),
      drop_eq_nil_of_le (by rw [length_take]; omega)]
    rfl

theorem Sees.readMore (h : r.Sees id offset) {max : Nat} (hfits : r.offset + max < 2 ^ 64) :
    (r.readMore id max).Sees id offset := by
  obtain ⟨session, hsession, hseen⟩ := h.seen
  have hread := PtyBroker.read_of_fits h.calm.1 hsession hfits
  rw [PtyReader.readMore, hread]
  refine ⟨⟨h.calm.1, by rw [PtyReader.request, h.calm.2]; rfl⟩, session, hsession, ?_⟩
  dsimp only
  cases hbegan : r.began with
  | none =>
    rw [hbegan] at hseen
    obtain ⟨hnil, hoffset⟩ := hseen
    rw [Option.none_or]
    refine ⟨hoffset ▸ Nat.min_le_left _ _, Nat.min_le_right _ _, Nat.min_le_right _ _, ?_⟩
    rw [hnil, nil_append]
    by_cases hin : r.offset ≤ session.output.length
    · rw [Nat.min_eq_left (Nat.le_min.mpr ⟨Nat.le_add_right _ _, hin⟩)]
    · -- beyond the end there is nothing to read
      rw [drop_eq_nil_of_le (by rw [length_take]; omega),
        drop_eq_nil_of_le (by rw [length_take]; omega)]
  | some k =>
    rw [hbegan] at hseen
    obtain ⟨hk, hle, hend, heq⟩ := hseen
    have hnext : r.offset ≤ min (r.offset + max) session.output.length :=
      Nat.le_min.mpr ⟨Nat.le_add_right _ _, hend⟩
    rw [Option.some_or]
    exact ⟨hk, Nat.le_trans hle hnext, Nat.min_le_right _ _, by
      rw [heq, take_drop_append hle hnext]⟩

theorem Sees.step (h : r.Sees id offset) {e : PtyEvent} (hfits : Fits id r e) :
    (PtyReader.step id r e).1.Sees id offset := by
  obtain ⟨session, hsession, -⟩ := h.seen
  cases e with
  | output id' bytes alive => exact h.output id' bytes alive
  | read max => exact h.readMore hfits
  | readOther id' offset' max =>
    obtain ⟨hsame, hanswer⟩ := PtyBroker.read_fst h.calm.1 id' hfits
    exact h.request (by rw [hsame]; exact h.calm.1) hanswer (by rw [hsame])
  | write id' written =>
    obtain ⟨hsame, hanswer⟩ := PtyBroker.write_fst h.calm.1 id' written
    exact h.request (by rw [hsame]; exact h.calm.1) hanswer (by rw [hsame])
  | spawn id' generation started =>
    obtain ⟨hcalm, hanswer, hfind⟩ := PtyBroker.spawn_fst h.calm.1 hsession id' generation started
    exact h.request hcalm hanswer (hfind.trans hsession.symm)
  | kill id' =>
    obtain ⟨hcalm, hanswer, hfind⟩ := PtyBroker.kill_fst h.calm.1 (Ne.symm hfits)
    exact h.request hcalm hanswer hfind

/-- **Terminals are read exactly when no request asks beyond the machine word**: one read is, and a
run of reads is, among everything else that the broker is asked for. -/
theorem pty_reads_iff {b : PtyBroker} {session : PtySession} (hcalm : b.poisoned = false)
    (hsession : b.sessions.find? id = some session) :
    (∀ offset max, b.ReadsExactly id offset max ↔ offset + max < 2 ^ 64) ∧
      (∀ e : GuestExecutor, e.machine.pty = b → ∀ offset max,
        e.ptyRead id offset max = (e, some (.ok (.pty id (Base64.encode
          ((session.output.take (min (offset + max) session.output.length)).drop offset))
          (min (offset + max) session.output.length) session.alive))) ↔ offset + max < 2 ^ 64) ∧
      ∀ offset r, Path (step id) (Fits id) (start b offset) r → r.Sees id offset := by
  refine ⟨PtyBroker.readsExactly_iff hcalm hsession, fun e he offset max => ⟨fun hread => ?_,
    fun hfits => ?_⟩, fun offset r hpath => ?_⟩
  · by_contra hover
    rw [GuestExecutor.ptyRead, he, PtyBroker.read_of_overflow hcalm hsession hover] at hread
    exact absurd (congrArg Prod.snd hread) (Option.some_ne_none _).symm
  · rw [GuestExecutor.ptyRead, he, PtyBroker.read_of_fits hcalm hsession hfits,
      GuestExecutor.ptyAnswer, ← he]
    rfl
  · exact hpath.invariant (sees_start hcalm hsession) (fun _ _ hsees hfits => hsees.step hfits)

def twoSessions : PtyBroker :=
  ⟨.ofList [("s1", ⟨1, [104, 105], true⟩), ("s2", ⟨1, [], true⟩)], false⟩

theorem pty_reads_two : twoSessions.ReadsExactly "s1" 1 5 :=
  ((pty_reads_iff rfl rfl : _ ∧ _ ∧ _).1 1 5).mpr (by decide)

/-- A read to the end of the word panics, and the other session is not answered any more. -/
theorem pty_read_poisons :
    ¬ twoSessions.ReadsExactly "s1" 1 (2 ^ 64 - 1) ∧
      (twoSessions.read "s1" 1 (2 ^ 64 - 1)).2 = none ∧
      ((twoSessions.read "s1" 1 (2 ^ 64 - 1)).1.read "s2" 0 1).2 = none := by
  have hsession : twoSessions.sessions.find? "s1" = some ⟨1, [104, 105], true⟩ := rfl
  have hpoisons : twoSessions.read "s1" 1 (2 ^ 64 - 1) = ({ twoSessions with poisoned := true }, none) :=
    PtyBroker.read_of_overflow rfl hsession (by decide)
  rw [hpoisons]
  exact ⟨fun h => absurd ((PtyBroker.readsExactly_iff rfl rfl _ _).mp h) (by decide), rfl, rfl⟩

end PtyReader

end Modbit.Sandbox
