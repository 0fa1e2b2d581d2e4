import Modbit.EventStore.Runtime

/-!
# Reading an output back

A database file is opened again and again, with one of some object stores attached or
with none, and written in between.  The bytes of a reference may then lie in its row, in
an object store that is not attached, or twice.

`Faithful` is what a reader may expect: the payload of the last write or an error, whole
or cut into ranges.  `readOutput_faithful_iff` says when it holds, by which writes went
to which store: with none attached, the last write was made so or was empty; with one
attached that ever had the reference, what it was given last is the last payload.
-/

namespace Modbit

open Lib List

variable {β : Type} [DecidableEq β]

/-! ### Runs of writes and reopenings -/

inductive OutputOp (β : Type) where
  | write (outputRefId contentType : String) (payload : Payload)
  | reopen (backend : Option β)

def outputStep (s : RuntimeStore β) :
    OutputOp β → RuntimeStore β × Option (Except RuntimeError OutputRef)
  | .write outputRefId contentType payload =>
    (s.writeOutputRef outputRefId contentType payload).map id some
  | .reopen backend => (s.reopen backend, none)

/-- A write that succeeded, and the object store attached then. -/
structure OutputWrite (β : Type) where
  id : String
  backend : Option β
  payload : Payload

def performed (s : RuntimeStore β) : OutputOp β → List (OutputWrite β)
  | .write outputRefId contentType payload =>
    match (s.writeOutputRef outputRefId contentType payload).2 with
    | .ok _ => [⟨outputRefId, s.backend, payload⟩]
    | .error _ => []
  | .reopen _ => []

/-- The writes of a list of calls that succeed, in order. -/
def outputWrites (s : RuntimeStore β) : List (OutputOp β) → List (OutputWrite β)
  | [] => []
  | op :: ops => performed s op ++ outputWrites (outputStep s op).1 ops

def attached : List (OutputOp β) → Option β → Option β
  | [], b => b
  | .write _ _ _ :: ops, b => attached ops b
  | .reopen b :: ops, _ => attached ops b

def lastWrite (ws : List (OutputWrite β)) (outputRefId : String) : Option (OutputWrite β) :=
  (ws.filter (fun w => w.id = outputRefId)).getLast?

/-- The last write of a reference to one object store. -/
def lastUnder (ws : List (OutputWrite β)) (b : β) (outputRefId : String) :
    Option (OutputWrite β) :=
  (ws.filter (fun w => w.id = outputRefId ∧ w.backend = some b)).getLast?

/-! ### What a reader may expect -/

/-- Consecutive ranges from an offset on, end to end. -/
def readCuts (s : RuntimeStore β) (outputRefId : String) (offset : UInt64) :
    List UInt64 → Except RuntimeError (List UInt8)
  | [] => .ok []
  | max :: rest => do
    let (part, _) ← s.readOutputRange outputRefId offset max
    let parts ← readCuts s outputRefId (offset + max) rest
    return part ++ parts

/-- A read gives the payload or fails, and every way to cut it up gives the payload. -/
def Faithful (s : RuntimeStore β) (outputRefId : String) (payload : Option (List UInt8)) : Prop :=
  ∀ bytes, s.readOutput outputRefId = .ok bytes → payload = some bytes ∧
    ∀ offset max part total, s.readOutputRange outputRefId offset max = .ok (part, total) →
    ∀ cuts : List UInt64, (cuts.map UInt64.toNat).sum = total →
      readCuts s outputRefId 0 cuts = .ok bytes

/-- What is attached holds the last write of a reference, or nothing of it. -/
def UpToDate (ws : List (OutputWrite β)) (backend : Option β) (outputRefId : String) : Prop :=
  ∀ w ∈ lastWrite ws outputRefId,
    match backend with
    | none => w.backend = none ∨ w.payload.1 = []
    | some b => ∀ u ∈ lastUnder ws b outputRefId, u.payload.1 = w.payload.1

/-! ### The state of a run -/

theorem getLast_filter_concat {α : Type} (p : α → Bool) (l : List α) (a : α) :
    ((l ++ [a]).filter p).getLast? = if p a then some a else (l.filter p).getLast? := by
  by_cases h : p a
  · rw [filter_append, filter_cons_of_pos h, filter_nil, getLast?_concat, if_pos h]
  · rw [filter_append, filter_cons_of_neg h, filter_nil, append_nil, if_neg h]

omit [DecidableEq β] in
theorem lastWrite_concat (ws : List (OutputWrite β)) (w : OutputWrite β) (outputRefId : String) :
    lastWrite (ws ++ [w]) outputRefId
      = if w.id = outputRefId then some w else lastWrite ws outputRefId := by
  rw [lastWrite, getLast_filter_concat]
  simp only [decide_eq_true_eq]
  rfl

theorem lastUnder_concat (ws : List (OutputWrite β)) (w : OutputWrite β) (b : β)
    (outputRefId : String) :
    lastUnder (ws ++ [w]) b outputRefId
      = if w.id = outputRefId ∧ w.backend = some b then some w
        else lastUnder ws b outputRefId := by
  rw [lastUnder, getLast_filter_concat]
  simp only [decide_eq_true_eq]
  rfl

def rowOf (w : OutputWrite β) (r : OutputRefRow) : Prop :=
  r.byteLength = w.payload.1.length ∧
    r.payload = if w.backend = none then w.payload.1 else []

structure Remembers (s : RuntimeStore β) (ws : List (OutputWrite β)) : Prop where
  rows : ∀ id, Option.Rel rowOf (lastWrite ws id) (s.outputRefs id)
  objects : ∀ b id key, RuntimeStore.objectKeyFor id = .ok key →
    (s.objects b key).map Prod.fst = (lastUnder ws b id).map (fun w => w.payload.1)
  keys : ∀ w ∈ ws, w.backend ≠ none → ∃ key, RuntimeStore.objectKeyFor w.id = .ok key

variable {id : String}

theorem objectKeyFor_name {key : ObjectKey}
    (h : RuntimeStore.objectKeyFor id = .ok key) : key.name = id := by
  have hnew := ok_of_mapError _ h
  rw [ObjectKey.new] at hnew
  split_ifs at hnew
  rw [← Except.ok.inj hnew]

variable {s : RuntimeStore β} {ws : List (OutputWrite β)}

theorem Remembers.write (h : Remembers s ws) {id contentType : String} {payload : Payload}
    {objects : β → Holdings} {stored : List UInt8}
    (hstored : s.storedBytes id contentType payload = .ok (objects, stored)) :
    Remembers (s.writeOutputRef id contentType payload).1 (ws ++ [⟨id, s.backend, payload⟩]) := by
  have hstate : (s.writeOutputRef id contentType payload).1 =
      { s with objects := objects, outputRefs := Function.update s.outputRefs id (some
        ⟨Sha256.hex payload.1, contentType, payload.1.length, Sha256.hex payload.1,
          sqlitePreview payload, stored⟩) } := by
    rw [RuntimeStore.writeOutputRef, hstored]
  rw [hstate]
  rw [RuntimeStore.storedBytes] at hstored
  refine ⟨fun id' => ?_, fun b id' key hkey => ?_, fun w hw hback => ?_⟩
  · rw [lastWrite_concat]
    by_cases hid : id = id'
    · subst hid
      rw [if_pos rfl]
      dsimp only
      rw [Function.update_self]
      refine .some ⟨rfl, ?_⟩
      cases hb : s.backend with
      | none =>
        rw [hb] at hstored
        exact (Prod.mk.inj (Except.ok.inj hstored)).2.symm
      | some b =>
        rw [hb] at hstored
        obtain ⟨key, -, hret⟩ := bind_eq_ok.mp hstored
        exact (Prod.mk.inj (Except.ok.inj hret)).2.symm
    · rw [if_neg hid]
      dsimp only
      rw [Function.update_of_ne (Ne.symm hid)]
      exact h.rows id'
  · rw [lastUnder_concat]
    cases hb : s.backend with
    | none =>
      rw [hb] at hstored
      have hobj := (Prod.mk.inj (Except.ok.inj hstored)).1
      rw [if_neg (fun hc => absurd hc.2 (by simp)), ← h.objects b id' key hkey, ← hobj]
    | some b' =>
      rw [hb] at hstored
      obtain ⟨key', hkey', hret⟩ := bind_eq_ok.mp hstored
      have hobj := (Prod.mk.inj (Except.ok.inj hret)).1
      show (objects b key).map Prod.fst = _
      rw [← hobj]
      by_cases hbb : b' = b
      · subst hbb
        rw [Function.update_self]
        by_cases hid : id = id'
        · subst hid
          rw [if_pos ⟨rfl, rfl⟩]
          have hsame : key' = key := Except.ok.inj (hkey'.symm.trans hkey)
          rw [hsame, Holdings.after, Function.update_self]
          rfl
        · have hne : (ObjectOp.put key' contentType payload.1 none).key ≠ key := by
            intro he
            have hname := objectKeyFor_name hkey'
            rw [show key' = key from he, objectKeyFor_name hkey] at hname
            exact hid hname.symm
          rw [if_neg (fun hc => hid hc.1), after_other hne]
          exact h.objects b' id' key hkey
      · have hne : some b' ≠ some b := fun he => hbb (Option.some.inj he)
        rw [Function.update_of_ne (Ne.symm hbb), if_neg (fun hc => hne hc.2)]
        exact h.objects b id' key hkey
  · rcases mem_append.mp hw with hw | hw
    · exact h.keys w hw hback
    · rw [mem_singleton.mp hw] at hback ⊢
      cases hb : s.backend with
      | none => exact absurd hb hback
      | some b =>
        rw [hb] at hstored
        obtain ⟨key, hkey, -⟩ := bind_eq_ok.mp hstored
        exact ⟨key, hkey⟩

theorem Remembers.step (h : Remembers s ws) (op : OutputOp β) :
    Remembers (outputStep s op).1 (ws ++ performed s op) := by
  cases op with
  | reopen backend =>
    show Remembers (s.reopen backend) (ws ++ [])
    rw [append_nil]
    exact ⟨h.rows, h.objects, h.keys⟩
  | write id contentType payload =>
    show Remembers (s.writeOutputRef id contentType payload).1 _
    cases hstored : s.storedBytes id contentType payload with
    | error x =>
      have hfail : s.writeOutputRef id contentType payload = (s, .error x) := by
        rw [RuntimeStore.writeOutputRef, hstored]
      rw [performed, hfail, append_nil]
      exact h
    | ok stored =>
      have hok : performed s (.write id contentType payload) = [⟨id, s.backend, payload⟩] := by
        rw [performed, RuntimeStore.writeOutputRef, hstored]
      rw [hok]
      exact h.write hstored

/-- **A run leaves the state its writes say.** -/
theorem remembers_run (ops : List (OutputOp β)) : ∀ {s : RuntimeStore β} {ws},
    Remembers s ws → Remembers (run outputStep s ops) (ws ++ outputWrites s ops) := by
  induction ops with
  | nil => intro s ws h; rw [outputWrites, append_nil]; exact h
  | cons op ops ih =>
    intro s ws h
    rw [outputWrites, ← append_assoc, run_cons]
    exact ih (h.step op)

theorem remembers_fresh : Remembers (RuntimeStore.fresh β) [] :=
  ⟨fun _ => .none, fun _ _ _ _ => rfl, fun _ hw => absurd hw not_mem_nil⟩

theorem attached_run (ops : List (OutputOp β)) : ∀ s : RuntimeStore β,
    (run outputStep s ops).backend = attached ops s.backend := by
  induction ops with
  | nil => intro s; rfl
  | cons op ops ih =>
    intro s
    rw [run_cons, ih]
    cases op with
    | reopen b => rfl
    | write id c p =>
      have hsame : (s.writeOutputRef id c p).1.backend = s.backend := by
        rw [RuntimeStore.writeOutputRef]
        split <;> rfl
      show attached ops (s.writeOutputRef id c p).1.backend = attached ops s.backend
      rw [hsame]

/-! ### Ranges -/

variable {payload : List UInt8}

theorem clampedRange_eq (hlen : payload.length < 2 ^ 63) (offset max : UInt64) :
    clampedRange payload offset max = (payload.drop offset.toNat).take max.toNat := by
  have hstop : min (min (offset.toNat + max.toNat) (2 ^ 64 - 1)) payload.length
      = min (offset.toNat + max.toNat) payload.length := by omega
  rw [clampedRange, hstop, ← take_eq_take_min, drop_take]
  by_cases hle : offset.toNat ≤ payload.length
  · rw [Nat.min_eq_left hle, Nat.add_sub_cancel_left]
  · have hge : payload.length ≤ offset.toNat := by omega
    rw [Nat.min_eq_right hge, drop_length, drop_of_length_le hge, take_nil, take_nil]

omit [DecidableEq β] in
theorem readCuts_eq {total : Nat}
    (hload : s.loadOutputPayload id = .ok (payload, total)) (hlen : payload.length < 2 ^ 63)
    (cuts : List UInt64) : ∀ offset : UInt64,
    offset.toNat + (cuts.map UInt64.toNat).sum < 2 ^ 64 →
    readCuts s id offset cuts
      = .ok ((payload.drop offset.toNat).take (cuts.map UInt64.toNat).sum) := by
  induction cuts with
  | nil => intro offset _; rfl
  | cons max cuts ih =>
    intro offset hfit
    rw [map_cons, sum_cons] at hfit
    have hadd : (offset + max).toNat = offset.toNat + max.toNat := by
      rw [UInt64.toNat_add]
      exact Nat.mod_eq_of_lt (by omega)
    have hrange : s.readOutputRange id offset max
        = .ok ((payload.drop offset.toNat).take max.toNat, total) := by
      rw [RuntimeStore.readOutputRange, hload, ok_bind]
      dsimp only
      rw [clampedRange_eq hlen]
      rfl
    have hrest := ih (offset + max) (by omega)
    rw [readCuts, hrange, ok_bind]
    dsimp only
    rw [hrest, ok_bind, hadd, map_cons, sum_cons, take_add, drop_drop]
    rfl

omit [DecidableEq β] in
theorem faithful_of_load {w : Payload}
    (hload : s.loadOutputPayload id = .ok (w.1, w.1.length)) : Faithful s id (some w.1) := by
  intro bytes hread
  rw [RuntimeStore.readOutput, hload] at hread
  have hbytes : w.1 = bytes := Except.ok.inj hread
  refine ⟨congrArg some hbytes, fun offset max part total hrange cuts hsum => ?_⟩
  rw [RuntimeStore.readOutputRange, hload, ok_bind] at hrange
  have htotal : w.1.length = total := (Prod.mk.inj (Except.ok.inj hrange)).2
  have hlen := w.2
  rw [readCuts_eq hload hlen cuts 0 (by rw [hsum, ← htotal]; simp; omega), hsum, ← htotal]
  show Except.ok ((w.1.drop 0).take w.1.length) = _
  rw [drop_zero, take_length, hbytes]

omit [DecidableEq β] in
theorem faithful_of_error {x : RuntimeError} {payload : Option (List UInt8)}
    (hload : s.loadOutputPayload id = .error x) : Faithful s id payload := by
  intro bytes hread
  rw [RuntimeStore.readOutput, hload] at hread
  cases hread

omit [DecidableEq β] in
theorem eq_of_faithful {payload bytes : List UInt8} {total : Nat}
    (h : Faithful s id (some payload)) (hload : s.loadOutputPayload id = .ok (bytes, total)) :
    bytes = payload := by
  have hread : s.readOutput id = .ok bytes := by
    rw [RuntimeStore.readOutput, hload]
    rfl
  exact (Option.some.inj (h bytes hread).1).symm

/-! ### When a read is faithful -/

variable {w : OutputWrite β}

theorem Remembers.row (h : Remembers s ws)
    (hw : lastWrite ws id = some w) : ∃ row, s.outputRefs id = some row ∧ rowOf w row := by
  have hrow := h.rows id
  rw [hw] at hrow
  cases hr : s.outputRefs id with
  | none =>
    rw [hr] at hrow
    cases hrow
  | some row =>
    rw [hr] at hrow
    cases hrow with
    | some hrow => exact ⟨row, rfl, hrow⟩

theorem faithful_none_iff (h : Remembers s ws) (hb : s.backend = none) (hw : lastWrite ws id = some w) :
    Faithful s id (some w.payload.1) ↔ w.backend = none ∨ w.payload.1 = [] := by
  obtain ⟨row, hrow, hlen, hbytes⟩ := h.row hw
  have hload : s.loadOutputPayload id = .ok (row.payload, row.byteLength) := by
    rw [RuntimeStore.loadOutputPayload, hrow, okOr_some, ok_bind, hb]
    rfl
  rw [hlen, hbytes] at hload
  constructor
  · intro hf
    by_cases hnone : w.backend = none
    · exact Or.inl hnone
    · rw [if_neg hnone] at hload
      exact Or.inr (eq_of_faithful hf hload).symm
  · rintro (hnone | hempty)
    · rw [if_pos hnone] at hload
      exact faithful_of_load hload
    · rw [hempty, ite_self] at hload
      refine faithful_of_load ?_
      rw [hempty]
      exact hload

theorem faithful_of_untouched (h : Remembers s ws) {b : β} (hb : s.backend = some b)
    (hw : lastWrite ws id = some w) (hu : lastUnder ws b id = none) :
    Faithful s id (some w.payload.1) := by
  obtain ⟨row, hrow, hlen, hbytes⟩ := h.row hw
  cases hkey : RuntimeStore.objectKeyFor id with
  | error x =>
    refine faithful_of_error (x := x) ?_
    rw [RuntimeStore.loadOutputPayload, hrow, okOr_some, ok_bind, hb]
    dsimp only
    rw [hkey, error_bind]
  | ok key =>
    have hobj := h.objects b id key hkey
    rw [hu, Option.map_none, Option.map_eq_none_iff] at hobj
    have hload : s.loadOutputPayload id
        = if row.payload ≠ [] then .ok (row.payload, row.byteLength) else .error (.notFound id) := by
      rw [RuntimeStore.loadOutputPayload, hrow, okOr_some, ok_bind, hb]
      dsimp only
      rw [hkey, ok_bind, expected, hobj]
      rfl
    by_cases hne : row.payload = []
    · rw [if_neg (not_not.mpr hne)] at hload
      exact faithful_of_error hload
    · rw [if_pos hne, hlen, hbytes] at hload
      by_cases hnone : w.backend = none
      · rw [if_pos hnone] at hload
        exact faithful_of_load hload
      · rw [hbytes, if_neg hnone] at hne
        exact absurd rfl hne

theorem faithful_some_iff (h : Remembers s ws) {b : β} (hb : s.backend = some b)
    (hw : lastWrite ws id = some w) :
    Faithful s id (some w.payload.1) ↔
      ∀ u ∈ lastUnder ws b id, u.payload.1 = w.payload.1 := by
  cases hu : lastUnder ws b id with
  | none => simpa using faithful_of_untouched h hb hw hu
  | some u =>
    obtain ⟨row, hrow, hlen, -⟩ := h.row hw
    have hmem := mem_filter.mp (mem_of_getLast? hu)
    have hunder := of_decide_eq_true hmem.2
    obtain ⟨key, hkey⟩ := h.keys u hmem.1 (by rw [hunder.2]; simp)
    rw [hunder.1] at hkey
    have hobj := h.objects b id key hkey
    rw [hu, Option.map_some] at hobj
    obtain ⟨x, hx, hbytes⟩ := Option.map_eq_some_iff.mp hobj
    have hload : s.loadOutputPayload id = .ok (u.payload.1, w.payload.1.length) := by
      rw [RuntimeStore.loadOutputPayload, hrow, okOr_some, ok_bind, hb]
      dsimp only
      rw [hkey, ok_bind, expected, hx, okOr_some, ← hbytes, ← hlen]
      rfl
    simp only [Option.mem_def, Option.some.injEq, forall_eq']
    constructor
    · intro hf
      exact eq_of_faithful hf hload
    · intro heq
      rw [heq] at hload
      exact faithful_of_load hload

/-- **When an output reads back.**  After every run of writes and reopenings, a read of a
reference gives the payload of its last write or an error, whole and in ranges, exactly
when what is attached is up to date on it. -/
theorem readOutput_faithful_iff (ops : List (OutputOp β)) (outputRefId : String) :
    let s := run outputStep (RuntimeStore.fresh β) ops
    let ws := outputWrites (RuntimeStore.fresh β) ops
    Faithful s outputRefId ((lastWrite ws outputRefId).map (fun w => w.payload.1)) ↔
      UpToDate ws (attached ops none) outputRefId := by
  intro s ws
  have h : Remembers s ws := remembers_run ops remembers_fresh
  have hb : s.backend = attached ops none := attached_run ops (RuntimeStore.fresh β)
  cases hw : lastWrite ws outputRefId with
  | none =>
    have hrow := h.rows outputRefId
    rw [hw] at hrow
    have hnone : s.outputRefs outputRefId = none := by
      cases hr : s.outputRefs outputRefId with
      | none => rfl
      | some row => rw [hr] at hrow; cases hrow
    have hload : s.loadOutputPayload outputRefId = .error (.notFound outputRefId) := by
      rw [RuntimeStore.loadOutputPayload, hnone]
      rfl
    refine iff_of_true (faithful_of_error hload) ?_
    intro w hmem
    rw [hw] at hmem
    cases hmem
  | some w =>
    rw [UpToDate, hw, Option.map_some]
    simp only [Option.mem_def, Option.some.injEq, forall_eq']
    cases ha : attached ops none with
    | none => exact faithful_none_iff h (hb.trans ha) hw
    | some b => exact faithful_some_iff h (hb.trans ha) hw

/-! ### A payload that is gone -/

theorem length_one_byte : [(65 : UInt8)].length < 2 ^ 63 := by decide

/-- One byte, written under an object store and read without it. -/
def detachedWrite : List (OutputOp Unit) :=
  [.reopen (some ()), .write "out-1" "text/plain" ⟨[65], length_one_byte⟩, .reopen none]

/-- The read succeeds with no bytes. -/
theorem detached_reads_empty :
    let s := run outputStep (RuntimeStore.fresh Unit) detachedWrite
    let ws := outputWrites (RuntimeStore.fresh Unit) detachedWrite
    (lastWrite ws "out-1").map (fun w => w.payload.1) = some [65] ∧
      s.readOutput "out-1" = .ok [] ∧
      ¬ Faithful s "out-1" ((lastWrite ws "out-1").map (fun w => w.payload.1)) := by
  intro s ws
  have hlast : (lastWrite ws "out-1").map (fun w => w.payload.1) = some [65] := by
    decide +kernel
  have hread : s.readOutput "out-1" = .ok [] := by decide +kernel
  refine ⟨hlast, hread, fun hf => ?_⟩
  rw [hlast] at hf
  have := (hf [] hread).1
  cases this

end Modbit
