import Mathlib.Data.List.Induction
import Modbit.Lib.Labels
import Modbit.Lib.OrdMap
import Modbit.Lib.Run
import Modbit.Lib.Text

/-!
# Procedural mode

`ProceduralRuntime` of `crates/procedural-runtime`: commands are started and waited for, and the user
is asked.  Every call that gets as far as the policy leaves a record, under a label with the number of
the record; a command that is allowed has the same number for its handle.

The records are read in the order of their labels, which are texts.  `journal_iff` says how long that
is the order of the calls.  The counter is far below `2 ^ 64`.
-/

namespace Modbit

open Lib List

namespace Procedural

inductive Primitive where
  | exec (argv : List String)
  | wait (execId : String)
  | requestUserInput (questionId question : String)
  deriving DecidableEq

inductive PrimitiveOutcome where
  | execStarted (execId : String)
  | execFinished (execId : String) (exitCode : Int)
  | inputAnswered (questionId answer : String)
  deriving DecidableEq

inductive PrimitiveError where
  | policyDenied (reason : String)
  | unknownExec (execId : String)
  | needsInput (questionId : String)
  deriving DecidableEq

structure EffectRecord where
  primitive : Primitive
  policyChecked : Bool
  policyAllowed : Bool
  evidenceNote : String
  deriving DecidableEq

structure Runtime where
  policy : List String → Bool
  journal : OrdMap String EffectRecord
  execIds : OrdMap String Int
  counter : Nat

def Runtime.new (policy : List String → Bool) : Runtime := ⟨policy, .empty, .empty, 0⟩

namespace Runtime

variable (s : Runtime)

def record (primitive : Primitive) (allowed : Bool) (note : String) : Runtime :=
  { s with
    counter := s.counter + 1
    journal := s.journal.insert (label "effect-" (s.counter + 1)) ⟨primitive, true, allowed, note⟩ }

def exec (argv : List String) : Runtime × Except PrimitiveError PrimitiveOutcome :=
  let allowed := s.policy argv
  let s := s.record (.exec argv) allowed ("exec " ++ Text.debugStr (" ".intercalate argv))
  if allowed = false then
    (s, .error (.policyDenied ("no grant covers " ++ Text.debugStr (argv.headD ""))))
  else
    let execId := label "exec-" s.counter
    ({ s with execIds := s.execIds.insert execId 0 }, .ok (.execStarted execId))

def wait (execId : String) (exitCode : Int) : Runtime × Except PrimitiveError PrimitiveOutcome :=
  if (s.execIds.find? execId).isNone then (s, .error (.unknownExec execId))
  else
    ({ s with execIds := s.execIds.insert execId exitCode }.record (.wait execId) true
      ("exec " ++ execId ++ " finished with " ++ toString exitCode),
      .ok (.execFinished execId exitCode))

def requestUserInput (questionId question : String) (answer : Option String) :
    Runtime × Except PrimitiveError PrimitiveOutcome :=
  match answer with
  | some answer =>
    (s.record (.requestUserInput questionId question) true "user answered",
      .ok (.inputAnswered questionId answer))
  | none =>
    (s.record (.requestUserInput questionId question) true "headless: surfaced NEEDS_INPUT",
      .error (.needsInput questionId))

def entries : List (String × EffectRecord) := s.journal.entries

def evidence : List EffectRecord := s.entries.map Prod.snd

end Runtime

inductive Call where
  | exec (argv : List String)
  | wait (execId : String) (exitCode : Int)
  | requestUserInput (questionId question : String) (answer : Option String)

abbrev Answer := Except PrimitiveError PrimitiveOutcome

def step (s : Runtime) : Call → Runtime × Answer
  | .exec argv => s.exec argv
  | .wait execId exitCode => s.wait execId exitCode
  | .requestUserInput questionId question answer => s.requestUserInput questionId question answer

/-! ### What the calls are to leave -/

/-- The record of a call that was answered so; a wait for a handle that there is not is not checked. -/
def recordOf (policy : List String → Bool) : Call × Answer → Option EffectRecord
  | (.exec argv, _) =>
    some ⟨.exec argv, true, policy argv, "exec " ++ Text.debugStr (" ".intercalate argv)⟩
  | (.wait _ _, .error _) => none
  | (.wait execId exitCode, .ok _) =>
    some ⟨.wait execId, true, true,
      "exec " ++ execId ++ " finished with " ++ toString exitCode⟩
  | (.requestUserInput questionId question (some _), _) =>
    some ⟨.requestUserInput questionId question, true, true, "user answered"⟩
  | (.requestUserInput questionId question none, _) =>
    some ⟨.requestUserInput questionId question, true, true, "headless: surfaced NEEDS_INPUT"⟩

def startedOf : Call × Answer → Option (List String × String)
  | (.exec argv, .ok (.execStarted execId)) => some (argv, execId)
  | _ => none

section Runs

variable (policy : List String → Bool) (calls : List Call)

def trace : List (Call × Answer) := calls.zip (replies step (.new policy) calls)

/-- The records of the calls that were checked, in order. -/
def checked : List EffectRecord := (trace policy calls).filterMap (recordOf policy)

def started : List (List String × String) := (trace policy calls).filterMap startedOf

def numbered (records : List EffectRecord) : List (String × EffectRecord) :=
  records.zipIdx.map (fun r => (label "effect-" (r.2 + 1), r.1))

/-- One record of every checked call, in order; the handles are distinct, and those of commands that
were allowed. -/
structure Journal : Prop where
  inOrder : (run step (.new policy) calls).entries = numbered (checked policy calls)
  distinct : ((started policy calls).map Prod.snd).Nodup
  allowed : ∀ p ∈ started policy calls, policy p.1 = true
  handles : ∀ id, ((run step (.new policy) calls).execIds.find? id).isSome = true →
    id ∈ (started policy calls).map Prod.snd

end Runs

/-! ### What one call does -/

/-- A call leaves no record and changes nothing, or leaves the next one; a command that is started has
the number of its record. -/
theorem step_cases (s : Runtime) (call : Call) :
    (recordOf s.policy (call, (step s call).2) = none ∧ startedOf (call, (step s call).2) = none ∧
      (step s call).1 = s) ∨
    ∃ r, recordOf s.policy (call, (step s call).2) = some r ∧
      (step s call).1.policy = s.policy ∧ (step s call).1.counter = s.counter + 1 ∧
      (step s call).1.journal = s.journal.insert (label "effect-" (s.counter + 1)) r ∧
      ((startedOf (call, (step s call).2) = none ∧
          ∀ id, ((step s call).1.execIds.find? id).isSome = true →
            (s.execIds.find? id).isSome = true) ∨
        ∃ argv, startedOf (call, (step s call).2) = some (argv, label "exec-" (s.counter + 1)) ∧
          s.policy argv = true ∧
          ∀ id, ((step s call).1.execIds.find? id).isSome = true →
            (s.execIds.find? id).isSome = true ∨ id = label "exec-" (s.counter + 1)) := by
  cases call with
  | exec argv =>
    refine .inr ⟨_, rfl, ?_⟩
    rw [step, Runtime.exec]
    by_cases hallowed : s.policy argv = false
    · rw [if_pos hallowed]
      exact ⟨rfl, rfl, rfl, .inl ⟨rfl, fun _ h => h⟩⟩
    · rw [if_neg hallowed]
      refine ⟨rfl, rfl, rfl, .inr ⟨argv, rfl, Bool.of_not_eq_false hallowed, fun id h => ?_⟩⟩
      dsimp only [Runtime.record] at h
      rw [OrdMap.find?_insert] at h
      split_ifs at h with hid
      · exact .inr hid
      · exact .inl h
  | wait execId exitCode =>
    rw [step, Runtime.wait]
    by_cases hthere : (s.execIds.find? execId).isNone = true
    · rw [if_pos hthere]
      exact .inl ⟨rfl, rfl, rfl⟩
    · rw [if_neg hthere]
      refine .inr ⟨_, rfl, rfl, rfl, rfl, .inl ⟨rfl, fun id h => ?_⟩⟩
      dsimp only [Runtime.record] at h
      rw [OrdMap.find?_insert] at h
      split_ifs at h with hid
      · rw [hid, ← Option.not_isNone]
        exact Bool.not_eq_true' _ ▸ Bool.of_not_eq_true hthere
      · exact h
  | requestUserInput questionId question answer =>
    cases answer with
    | none => exact .inr ⟨_, rfl, rfl, rfl, rfl, .inl ⟨rfl, fun _ h => h⟩⟩
    | some answer => exact .inr ⟨_, rfl, rfl, rfl, rfl, .inl ⟨rfl, fun _ h => h⟩⟩

/-! ### What every run keeps -/

section Runs

variable (policy : List String → Bool) (calls : List Call) (call : Call)

theorem trace_concat : trace policy (calls ++ [call])
    = trace policy calls ++ [(call, (step (run step (.new policy) calls) call).2)] := by
  rw [trace, replies_concat, zip_append (replies_length _ _).symm]
  rfl

theorem numbered_concat (l : List EffectRecord) (r : EffectRecord) :
    numbered (l ++ [r]) = numbered l ++ [(label "effect-" (l.length + 1), r)] := by
  rw [numbered, zipIdx_append, map_append, numbered, Nat.zero_add]
  rfl

variable {l : List EffectRecord}

theorem mem_numbered {e : String × EffectRecord} (h : e ∈ numbered l) :
    ∃ i < l.length, e.1 = label "effect-" (i + 1) := by
  obtain ⟨⟨r, i⟩, hmem, rfl⟩ := mem_map.mp h
  exact ⟨i, (mem_zipIdx' hmem).1, rfl⟩

/-- A runtime that has left these records and started these commands: a record is under its number, and
a handle has the number of its command. -/
structure Kept (s : Runtime) (records : List EffectRecord) (begun : List (List String × String)) :
    Prop where
  policy : s.policy = policy
  counter : s.counter = records.length
  entries : ∀ e, e ∈ s.entries ↔ e ∈ numbered records
  numbers : ∃ ks : List Nat, begun.map Prod.snd = ks.map (label "exec-") ∧ ks.Nodup ∧
    ∀ k ∈ ks, k ≤ records.length
  allowed : ∀ p ∈ begun, s.policy p.1 = true
  handles : ∀ id, (s.execIds.find? id).isSome = true → id ∈ begun.map Prod.snd

variable {policy} {s s' : Runtime} {records : List EffectRecord}
  {begun : List (List String × String)} {r : EffectRecord}

theorem Kept.mem_insert (h : Kept policy s records begun) (e : String × EffectRecord) :
    e ∈ (s.journal.insert (label "effect-" (records.length + 1)) r).entries ↔
      e ∈ numbered (records ++ [r]) := by
  rw [numbered_concat, mem_append, mem_singleton, ← h.entries, ← Prod.eta e,
    OrdMap.mem_entries, OrdMap.find?_insert, Runtime.entries, OrdMap.mem_entries]
  by_cases hlabel : e.1 = label "effect-" (records.length + 1)
  · have hfresh : s.journal.find? e.1 ≠ some e.2 := by
      intro hfind
      obtain ⟨i, hi, heq⟩ := mem_numbered ((h.entries e).mp (OrdMap.mem_entries.mpr hfind))
      have hsame := label_inj (heq.symm.trans hlabel)
      omega
    rw [if_pos hlabel, Option.some.injEq, Prod.mk.injEq]
    constructor
    · exact fun hr => .inr ⟨hlabel, hr.symm⟩
    · rintro (hfind | ⟨-, hr⟩)
      · exact absurd hfind hfresh
      · exact hr.symm
  · rw [if_neg hlabel, Prod.mk.injEq]
    exact (or_iff_left (fun hr => hlabel hr.1)).symm

theorem Kept.recorded (h : Kept policy s records begun) (hpolicy : s'.policy = s.policy)
    (hcounter : s'.counter = s.counter + 1)
    (hjournal : s'.journal = s.journal.insert (label "effect-" (s.counter + 1)) r)
    (hids : ∀ id, (s'.execIds.find? id).isSome = true → (s.execIds.find? id).isSome = true) :
    Kept policy s' (records ++ [r]) begun where
  policy := hpolicy.trans h.policy
  counter := by rw [hcounter, h.counter, length_append, length_singleton]
  entries := by
    intro e
    rw [Runtime.entries, hjournal, h.counter]
    exact h.mem_insert e
  numbers := by
    obtain ⟨ks, hks, hnodup, hle⟩ := h.numbers
    refine ⟨ks, hks, hnodup, fun k hk => (hle k hk).trans ?_⟩
    rw [length_append]
    exact Nat.le_add_right _ _
  allowed := fun p hp => hpolicy ▸ h.allowed p hp
  handles := fun id hid => h.handles id (hids id hid)

theorem Kept.launched (h : Kept policy s records begun) (hpolicy : s'.policy = s.policy)
    (hcounter : s'.counter = s.counter + 1)
    (hjournal : s'.journal = s.journal.insert (label "effect-" (s.counter + 1)) r)
    {argv : List String} (hargv : s.policy argv = true)
    (hids : ∀ id, (s'.execIds.find? id).isSome = true →
      (s.execIds.find? id).isSome = true ∨ id = label "exec-" (s.counter + 1)) :
    Kept policy s' (records ++ [r]) (begun ++ [(argv, label "exec-" (s.counter + 1))]) where
  policy := hpolicy.trans h.policy
  counter := by rw [hcounter, h.counter, length_append, length_singleton]
  entries := by
    intro e
    rw [Runtime.entries, hjournal, h.counter]
    exact h.mem_insert e
  numbers := by
    obtain ⟨ks, hks, hnodup, hle⟩ := h.numbers
    refine ⟨ks ++ [s.counter + 1], ?_, ?_, ?_⟩
    · rw [map_append, map_append, hks]
      rfl
    · refine nodup_append.mpr ⟨hnodup, nodup_singleton _, fun a ha b hb heq => ?_⟩
      rw [mem_singleton.mp hb, h.counter] at heq
      have hbound := hle a ha
      omega
    · intro k hk
      rw [length_append, length_singleton]
      rcases mem_append.mp hk with hk | hk
      · exact (hle k hk).trans (Nat.le_succ _)
      · rw [mem_singleton.mp hk, h.counter]
  allowed := by
    intro p hp
    rw [hpolicy]
    rcases mem_append.mp hp with hp | hp
    · exact h.allowed p hp
    · rw [mem_singleton.mp hp]
      exact hargv
  handles := by
    intro id hid
    rw [map_append, mem_append]
    rcases hids id hid with hold | hnew
    · exact .inl (h.handles id hold)
    · exact .inr (mem_singleton.mpr hnew)

variable (policy)

/-- **Every run keeps its records and its handles.** -/
theorem kept : Kept policy (run step (.new policy) calls) (checked policy calls)
    (started policy calls) := by
  induction calls using List.reverseRecOn with
  | nil =>
    exact ⟨rfl, rfl, fun _ => Iff.rfl, ⟨[], rfl, .nil, fun _ h => absurd h not_mem_nil⟩,
      fun _ h => absurd h not_mem_nil, fun _ h => (by cases h)⟩
  | append_singleton calls call ih =>
    rw [run_append, checked, started, trace_concat, filterMap_append, filterMap_append]
    rw [← checked, ← started, run_cons, run_nil]
    have hcases := step_cases (run step (.new policy) calls) call
    rw [ih.policy] at hcases
    rcases hcases with ⟨hr, hs, hsame⟩ | ⟨r, hr, hpolicy, hcounter, hjournal, hhandle⟩
    · rw [filterMap_cons_none hr, filterMap_cons_none hs, filterMap_nil,
        filterMap_nil, append_nil, append_nil, hsame]
      exact ih
    · have hpolicy' := hpolicy.trans ih.policy.symm
      rw [filterMap_cons_some hr, filterMap_nil]
      rcases hhandle with ⟨hs, hids⟩ | ⟨argv, hs, hargv, hids⟩
      · rw [filterMap_cons_none hs, filterMap_nil, append_nil]
        exact ih.recorded hpolicy' hcounter hjournal hids
      · rw [filterMap_cons_some hs, filterMap_nil]
        exact ih.launched hpolicy' hcounter hjournal (ih.policy.symm ▸ hargv) hids

/-! ### The order of the records -/

theorem numbered_sorted (h : l.length ≤ 9) : (numbered l).Pairwise (fun a b => a.1 < b.1) := by
  rw [numbered, pairwise_map, pairwise_iff_getElem]
  intro i j hi hj hij
  rw [length_zipIdx] at hi hj
  rw [getElem_zipIdx, getElem_zipIdx]
  exact (label_lt_iff "effect-" (by omega) (by omega)).mpr (by omega)

theorem length_le_of_sorted (h : (numbered l).Pairwise (fun a b => a.1 < b.1)) : l.length ≤ 9 := by
  by_contra hlong
  rw [numbered, pairwise_map, pairwise_iff_getElem] at h
  have hlt := h 1 9 (by rw [length_zipIdx]; omega) (by rw [length_zipIdx]; omega)
    (by decide)
  rw [getElem_zipIdx, getElem_zipIdx] at hlt
  exact lt_irrefl _ (lt_trans hlt (label_ten_lt "effect-"))

/-- **The journal is in order for nine checked calls and no more.** -/
theorem journal_iff : Journal policy calls ↔ (checked policy calls).length ≤ 9 := by
  have h := kept policy calls
  constructor
  · intro hjournal
    refine length_le_of_sorted ?_
    rw [← hjournal.inOrder]
    exact (run step (.new policy) calls).journal.sorted
  · intro hfew
    obtain ⟨ks, hks, hnodup, -⟩ := h.numbers
    refine ⟨?_, ?_, fun p hp => h.policy ▸ h.allowed p hp, h.handles⟩
    · exact OrdMap.eq_of_mem_iff (run step (.new policy) calls).journal.sorted
        (numbered_sorted hfew) h.entries
    · rw [hks]
      exact hnodup.map (fun _ _ hlabel => label_inj hlabel)

end Runs

def tenCalls : List Call :=
  List.replicate 9 (.exec ["ls"]) ++ [.requestUserInput "q" "which branch?" none]

/-- The question was asked last and is read second. -/
theorem question_read_second : ¬ Journal (fun _ => true) tenCalls ∧
    (run step (.new fun _ => true) tenCalls).evidence ≠ checked (fun _ => true) tenCalls := by
  have hread : (run step (.new fun _ => true) tenCalls).evidence[1]?
      ≠ (checked (fun _ => true) tenCalls)[1]? := by
    decide
  have hevidence : (run step (.new fun _ => true) tenCalls).evidence
      ≠ checked (fun _ => true) tenCalls := fun heq => hread (congrArg (fun l => l[1]?) heq)
  refine ⟨fun h => hevidence ?_, hevidence⟩
  rw [Runtime.evidence, h.inOrder]
  decide

end Procedural

end Modbit
