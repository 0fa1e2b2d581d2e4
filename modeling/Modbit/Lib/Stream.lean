import Mathlib.Data.List.Sort

/-!
# Streams in an append-only log

Each entry of a log belongs to the stream named by its `key` and carries a sequence number `seq`.
`Gapless` says that every stream counts `1, 2, …, n` in log order.

`nextSeq` computes the next number by a maximum; on a gapless log it is one more than the number
of entries (`Gapless.nextSeq_eq`).  `Gapless.concat` is the write rule.  `Joins` is a batch whose
entries join the log one by one, with its invariant rule `Joins.invariant`; `Continues` is the
case of sequence numbers.  `Tracks` says that the map of the numbers handed out in a batch is
right.  `inOrder` is the stream sorted by sequence number, on a gapless log the stream as it lies
there (`Gapless.inOrder_eq`).
-/

namespace Modbit.Lib

open List

variable {α κ : Type*} [DecidableEq κ] (key : α → κ) (seq : α → Nat)

def stream (k : κ) (log : List α) : List α := log.filter (fun x => key x = k)

def inOrder (k : κ) (log : List α) : List α :=
  (stream key k log).insertionSort (fun x y => seq x ≤ seq y)

/-- One more than the largest sequence number of the stream, `1` when the stream
is empty. -/
def nextSeq (k : κ) (log : List α) : Nat :=
  match ((stream key k log).map seq).max? with
  | none => 1
  | some m => m + 1

/-- Every stream counts `1, 2, …, n`. -/
def Gapless (log : List α) : Prop :=
  ∀ k, (stream key k log).map seq = List.range' 1 (stream key k log).length

variable {key seq} {k : κ} {log : List α} {x : α}

@[simp] theorem mem_stream : x ∈ stream key k log ↔ x ∈ log ∧ key x = k := by
  simp [stream]

theorem stream_append (log more : List α) :
    stream key k (log ++ more) = stream key k log ++ stream key k more :=
  filter_append ..

theorem stream_concat_self : stream key (key x) (log ++ [x]) = stream key (key x) log ++ [x] := by
  simp [stream]

theorem stream_concat_other (h : key x ≠ k) : stream key k (log ++ [x]) = stream key k log := by
  simp [stream, h]

theorem gapless_nil : Gapless key seq ([] : List α) := fun _ => rfl

theorem max?_range' : ∀ n : Nat, (List.range' 1 (n + 1)).max? = some (n + 1) := by
  intro n
  rw [max?_eq_some_iff]
  simp only [mem_range'_1]
  exact ⟨by omega, fun b hb => by omega⟩

/-- **On a gapless log the maximum counts the stream.** -/
theorem Gapless.nextSeq_eq (h : Gapless key seq log) (k : κ) :
    nextSeq key seq k log = (stream key k log).length + 1 := by
  rw [nextSeq, h k]
  cases hn : (stream key k log).length with
  | zero => rfl
  | succ n => rw [max?_range']

/-- **The write rule.**  An entry numbered by the next sequence number keeps the
log gapless. -/
theorem Gapless.concat (h : Gapless key seq log) (hx : seq x = nextSeq key seq (key x) log) :
    Gapless key seq (log ++ [x]) := by
  intro k
  by_cases hk : key x = k
  · subst hk
    rw [h.nextSeq_eq] at hx
    rw [stream_concat_self, map_append, h (key x), length_append, length_singleton, range'_concat]
    simp [hx, Nat.add_comm]
  · rw [stream_concat_other hk]
    exact h k

theorem Gapless.nextSeq_concat_self (h : Gapless key seq log)
    (hx : seq x = nextSeq key seq (key x) log) :
    nextSeq key seq (key x) (log ++ [x]) = seq x + 1 := by
  rw [(h.concat hx).nextSeq_eq, stream_concat_self, length_append, length_singleton, hx,
    h.nextSeq_eq]

theorem nextSeq_concat_other (hk : key x ≠ k) :
    nextSeq key seq k (log ++ [x]) = nextSeq key seq k log := by
  rw [nextSeq, stream_concat_other hk, nextSeq]

/-! ### Batches -/

/-- Each entry of a batch may join the log the entries before it have made. -/
def Joins (ok : List α → α → Prop) (log : List α) : List α → Prop
  | [] => True
  | x :: xs => ok log x ∧ Joins ok (log ++ [x]) xs

variable {ok : List α → α → Prop}

theorem Joins.take : ∀ {batch log : List α} (n : Nat),
    Joins ok log batch → Joins ok log (batch.take n) := by
  intro batch
  induction batch with
  | nil => intro log n _; rw [take_nil]; exact trivial
  | cons x batch ih =>
    intro log n h
    cases n with
    | zero => exact trivial
    | succ n => exact ⟨h.1, ih n h.2⟩

theorem Joins.append : ∀ {batch more log : List α},
    Joins ok log batch → Joins ok (log ++ batch) more → Joins ok log (batch ++ more) := by
  intro batch
  induction batch with
  | nil => intro more log _ h; rwa [append_nil] at h
  | cons x batch ih =>
    intro more log h hmore
    rw [← singleton_append, ← append_assoc] at hmore
    exact ⟨h.1, ih h.2 hmore⟩

theorem Joins.singleton_take (h : ok log x) (n : Nat) : Joins ok log ([x].take n) :=
  Joins.take n ⟨h, trivial⟩

theorem Joins.imp {ok ok' : List α → α → Prop} : ∀ {batch log : List α},
    (∀ more, ∀ x ∈ batch, ok (log ++ more) x → ok' (log ++ more) x) →
    Joins ok log batch → Joins ok' log batch := by
  intro batch
  induction batch with
  | nil => intro log _ _; exact trivial
  | cons x batch ih =>
    intro log himp h
    have hfirst : ok' log x := by
      have := himp [] x mem_cons_self
      rw [append_nil] at this
      exact this h.1
    refine ⟨hfirst, ih (fun more y hy => ?_) h.2⟩
    rw [append_assoc]
    exact himp ([x] ++ more) y (mem_cons_of_mem x hy)

/-- **The rule for batches.**  What every entry that may join keeps, a batch keeps. -/
theorem Joins.invariant {I : List α → Prop}
    (hstep : ∀ log x, I log → ok log x → I (log ++ [x])) : ∀ {batch log : List α},
    I log → Joins ok log batch → I (log ++ batch) := by
  intro batch
  induction batch with
  | nil => intro log h _; rwa [append_nil]
  | cons x batch ih =>
    intro log h hj
    rw [← singleton_append, ← append_assoc]
    exact ih (hstep log x h hj.1) hj.2

variable (key seq) in
/-- Each entry of a batch carries the number that is next when the entries before
it are in the log. -/
abbrev Continues (log batch : List α) : Prop :=
  Joins (fun log x => seq x = nextSeq key seq (key x) log) log batch

variable (key seq) in
/-- The numbers kept in a map during a batch, over those read from `base`, are
the next numbers of `log`. -/
def Tracks (map : List (κ × Nat)) (base log : List α) : Prop :=
  ∀ k, (map.lookup k).getD (nextSeq key seq k base) = nextSeq key seq k log

theorem tracks_nil : Tracks key seq [] log log := fun _ => rfl

/-- Writing an entry and noting its successor in the map, when the map stands over
the log as it was before the batch. -/
theorem Tracks.concat {map : List (κ × Nat)} {base : List α} (h : Tracks key seq map base log)
    (hg : Gapless key seq log) (hx : seq x = nextSeq key seq (key x) log) :
    Tracks key seq ((key x, seq x + 1) :: map) base (log ++ [x]) := by
  intro k
  by_cases hk : key x = k
  · subst hk
    rw [lookup_cons_self, Option.getD_some, hg.nextSeq_concat_self hx]
  · have hne : (k == key x) = false := by simpa using fun he : k = key x => hk he.symm
    rw [lookup_cons, hne, nextSeq_concat_other hk]
    exact h k

theorem Tracks.concat_self {map : List (κ × Nat)} (h : Tracks key seq map log log)
    (hg : Gapless key seq log) (hx : seq x = nextSeq key seq (key x) log) :
    Tracks key seq ((key x, seq x + 1) :: map) (log ++ [x]) (log ++ [x]) := by
  intro k
  have h' := h.concat hg hx k
  by_cases hk : key x = k
  · subst hk
    simpa using h'
  · rw [nextSeq_concat_other hk] at h' ⊢
    exact h'

theorem Gapless.append {batch : List α} (h : Gapless key seq log)
    (hc : Continues key seq log batch) : Gapless key seq (log ++ batch) :=
  Joins.invariant (fun _ _ hg hx => hg.concat hx) h hc

/-! ### Order -/

theorem Gapless.pairwise_lt (h : Gapless key seq log) (k : κ) :
    (stream key k log).Pairwise (fun x y => seq x < seq y) := by
  rw [← pairwise_map (f := seq) (R := (· < ·)), h k]
  exact pairwise_lt_range'

/-- **Sorting a stream by sequence number changes nothing.** -/
theorem Gapless.inOrder_eq (h : Gapless key seq log) (k : κ) :
    inOrder key seq k log = stream key k log :=
  ((h.pairwise_lt k).imp fun h => Nat.le_of_lt h).insertionSort_eq

/-- A sequence number lies between `1` and the length of its stream. -/
theorem Gapless.seq_mem (h : Gapless key seq log) (hx : x ∈ log) :
    1 ≤ seq x ∧ seq x ≤ (stream key (key x) log).length := by
  have hmem : seq x ∈ (stream key (key x) log).map seq :=
    mem_map_of_mem (mem_stream.mpr ⟨hx, rfl⟩)
  rw [h (key x), mem_range'_1] at hmem
  omega

theorem Gapless.seq_ne_nextSeq (h : Gapless key seq log) (hx : x ∈ log) (hk : key x = k) :
    seq x ≠ nextSeq key seq k log := by
  have := (h.seq_mem hx).2
  rw [h.nextSeq_eq, ← hk]
  omega

end Modbit.Lib
