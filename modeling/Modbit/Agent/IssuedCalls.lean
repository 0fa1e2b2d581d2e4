import Modbit.Agent.Conversation

/-!
# Each call with its own arguments

The calls of an answer are read one after another, and those whose arguments are objects
are kept in a map by their ids.  A second loop goes through the calls again and takes the
arguments of each from the map.  Of calls with one id only the last arguments are there,
so that the first loop's refusals and arguments are those of the second one if and only
if calls with one id agree (`answersOwn_iff`).
-/

namespace Modbit

open Lib List

namespace Agent

open Compaction (ChatMessage)

variable {W : Type}

/-! ### The calls of an answer -/

def requestOf : StreamEvent → Option ToolCallData
  | .toolRequest callId name arguments => some ⟨callId, name, arguments⟩
  | _ => none

/-- What the arguments of a call parse to, if it is an object. -/
def OneAgentRuntime.own (rt : OneAgentRuntime W) (call : ToolCallData) : Option Json :=
  match rt.parse call.arguments with
  | some (.obj fields) => some (.obj fields)
  | _ => none

/-- The calls in order, each with the arguments that some rule has for it: put to the policy and,
if that allows it, to its tool; or refused, if it has none. -/
def OneAgentRuntime.handOver (rt : OneAgentRuntime W) (rule : ToolCallData → Option Json) :
    List ToolCallData → W → W × List (Event W) × List ChatMessage
  | [], w => (w, [], [])
  | call :: rest, w =>
    match rule call with
    | none =>
      let out := rt.handOver rule rest w
      (out.1, out.2.1, toolResult call.callId invalidToolPayload true :: out.2.2)
    | some arguments =>
      match rt.callTool w call arguments with
      | (w, outcome, events) =>
        let out := rt.handOver rule rest w
        (out.1, events ++ out.2.1,
          toolResult call.callId outcome.content outcome.refusal.isSome :: out.2.2)

/-- Each call of a turn is handed over with its own arguments, in order and once. -/
structure Loop.AnswersOwn (l : Loop W) (s : Progress W) (t : Talk) (w : W)
    (events : List StreamEvent) : Prop where
  world : (l.invoke s t).1.world = (l.rt.handOver l.rt.own (events.filterMap requestOf) w).1
  log : (l.invoke s t).1.log
    = s.log ++ (l.rt.handOver l.rt.own (events.filterMap requestOf) w).2.1
  conversation : events.filterMap requestOf ≠ [] → (l.invoke s t).2.1.conversation
    = t.conversation ++ assistantWithToolCalls (turnText events) (events.filterMap requestOf)
        :: (l.rt.handOver l.rt.own (events.filterMap requestOf) w).2.2

/-! ### The assembler -/

namespace ToolCallAssembler

def isFragment : StreamEvent → Bool
  | .toolCallDelta _ _ _ _ => true
  | _ => false

theorem isFragment_flush (partials : List PartialToolCall) : ∀ emitted : List String,
    ∀ e ∈ (flush partials emitted).1, isFragment e = false := by
  induction partials with
  | nil => exact fun _ e he => absurd he not_mem_nil
  | cons p rest ih =>
    intro emitted
    rw [flush]
    cases p.callId with
    | none => exact ih emitted
    | some id =>
      dsimp only
      split_ifs
      · exact ih emitted
      · exact forall_mem_cons.mpr ⟨rfl, ih _⟩

/-- **No fragment gets through the assembler.** -/
theorem isFragment_feedAll (events : List StreamEvent) : ∀ a : ToolCallAssembler,
    ∀ e ∈ a.feedAll events, isFragment e = false := by
  induction events with
  | nil => exact fun _ e he => absurd he not_mem_nil
  | cons event rest ih =>
    intro a e he
    rw [feedAll] at he
    rcases mem_append.mp he with he | he
    · cases event with
      | delta text => rw [mem_singleton.mp he]; rfl
      | usage usage => rw [mem_singleton.mp he]; rfl
      | toolRequest callId name arguments => rw [mem_singleton.mp he]; rfl
      | completed reason =>
        rcases mem_append.mp he with he | he
        · exact isFragment_flush _ _ e he
        · rw [mem_singleton.mp he]
          rfl
      | toolCallDelta callId index name argumentsDelta =>
        rw [feed] at he
        split_ifs at he
        · cases he
        · cases he
    · exact ih _ e he

end ToolCallAssembler

/-! ### Reading an answer -/

section Reading

variable (rt : OneAgentRuntime W)

def OneAgentRuntime.entry (call : ToolCallData) : Option (String × Json) :=
  (rt.own call).map (fun arguments => (call.callId, arguments))

/-- **The calls of an answer are all issued**, and those with objects for arguments are kept. -/
theorem readEvents_spec (events : List StreamEvent)
    (hwhole : ∀ e ∈ events, ToolCallAssembler.isFragment e = false) :
    ∀ (s : Progress W) (r : OneAgentRuntime.Reading), ∃ s',
      rt.readEvents events s r = (s', .ok ⟨r.issuedCalls ++ events.filterMap requestOf,
        r.requestedTools ++ (events.filterMap requestOf).filterMap rt.entry⟩) ∧
      s'.world = s.world ∧ s'.log = s.log ∧ s'.state = s.state := by
  induction events with
  | nil =>
    intro s r
    refine ⟨s, ?_, rfl, rfl, rfl⟩
    rw [OneAgentRuntime.readEvents, filterMap_nil, filterMap_nil, append_nil, append_nil]
  | cons event rest ih =>
    intro s r
    obtain ⟨hevent, hrest⟩ := forall_mem_cons.mp hwhole
    cases event with
    | delta text => exact ih hrest _ r
    | usage usage => exact ih hrest _ r
    | completed reason => exact ih hrest _ r
    | toolCallDelta callId index name argumentsDelta => cases hevent
    | toolRequest callId name arguments =>
      have hcalls : (StreamEvent.toolRequest callId name arguments :: rest).filterMap requestOf
          = ⟨callId, name, arguments⟩ :: rest.filterMap requestOf := rfl
      rw [OneAgentRuntime.readEvents, hcalls]
      split
      · next fields hparse =>
        have hentry : rt.entry ⟨callId, name, arguments⟩ = some (callId, .obj fields) := by
          rw [OneAgentRuntime.entry, OneAgentRuntime.own, hparse]
          rfl
        obtain ⟨s', hread, hkept⟩ := ih hrest s
          ⟨r.issuedCalls ++ [⟨callId, name, arguments⟩], r.requestedTools ++ [(callId, .obj fields)]⟩
        refine ⟨s', ?_, hkept⟩
        rw [hread, filterMap_cons_some hentry, append_assoc, append_assoc,
          singleton_append, singleton_append]
      · next hparse =>
        have hentry : rt.entry ⟨callId, name, arguments⟩ = none := by
          rw [OneAgentRuntime.entry, OneAgentRuntime.own]
          split
          · next fields hobject => exact absurd hobject (hparse fields)
          · rfl
        obtain ⟨s', hread, hkept⟩ := ih hrest { s with toolOutcomes := s.toolOutcomes
            ++ [⟨callId, name, none, some invalidToolPayload⟩] }
          ⟨r.issuedCalls ++ [⟨callId, name, arguments⟩], r.requestedTools⟩
        refine ⟨s', ?_, hkept⟩
        rw [hread, filterMap_cons_none hentry, append_assoc, singleton_append]

end Reading

/-! ### Handing the calls over -/

section HandOver

variable {rt : OneAgentRuntime W} {rule rule' : ToolCallData → Option Json} {w : W}

def handedArguments : Event W → Option Json
  | .checked _ request => some request.arguments
  | _ => none

theorem callTool_arguments (call : ToolCallData) (arguments : Json) :
    (rt.callTool w call arguments).2.2.filterMap handedArguments = [arguments] := by
  have hcalled := OneAgentRuntime.callTool_events rt w call arguments
  have hrequest : (rt.request call.name arguments).arguments = arguments := rfl
  generalize (rt.callTool w call arguments).2.2 = events at *
  generalize rt.request call.name arguments = request at *
  rw [← hrequest]
  cases hcalled with
  | allowed _ => rfl
  | approved _ _ _ _ _ => rfl
  | refused _ => rfl

theorem handOver_cons_none {call : ToolCallData} {rest : List ToolCallData}
    (h : rule call = none) : rt.handOver rule (call :: rest) w
      = ((rt.handOver rule rest w).1, (rt.handOver rule rest w).2.1,
        toolResult call.callId invalidToolPayload true :: (rt.handOver rule rest w).2.2) := by
  rw [OneAgentRuntime.handOver, h]

theorem handOver_cons_some {call : ToolCallData} {rest : List ToolCallData} {arguments : Json}
    (h : rule call = some arguments) : rt.handOver rule (call :: rest) w
      = ((rt.handOver rule rest (rt.callTool w call arguments).1).1,
        (rt.callTool w call arguments).2.2
          ++ (rt.handOver rule rest (rt.callTool w call arguments).1).2.1,
        toolResult call.callId (rt.callTool w call arguments).2.1.content
            (rt.callTool w call arguments).2.1.refusal.isSome
          :: (rt.handOver rule rest (rt.callTool w call arguments).1).2.2) := by
  rw [OneAgentRuntime.handOver, h]

theorem handOver_arguments (calls : List ToolCallData) : ∀ w : W,
    (rt.handOver rule calls w).2.1.filterMap handedArguments = calls.filterMap rule := by
  induction calls with
  | nil => exact fun _ => rfl
  | cons call rest ih =>
    intro w
    cases h : rule call with
    | none => rw [handOver_cons_none h, filterMap_cons_none h, ih]
    | some arguments =>
      rw [handOver_cons_some h, filterMap_cons_some h, filterMap_append,
        callTool_arguments, ih, singleton_append]

variable (rt) in
theorem handOver_congr {calls : List ToolCallData} (h : ∀ call ∈ calls, rule call = rule' call) :
    ∀ w : W, rt.handOver rule calls w = rt.handOver rule' calls w := by
  induction calls with
  | nil => exact fun _ => rfl
  | cons call rest ih =>
    obtain ⟨hcall, hrest⟩ := forall_mem_cons.mp h
    intro w
    cases hrule : rule call with
    | none => rw [handOver_cons_none hrule, handOver_cons_none (hcall ▸ hrule), ih hrest]
    | some arguments =>
      rw [handOver_cons_some hrule, handOver_cons_some (hcall ▸ hrule), ih hrest]

theorem answerAll_handOver (l : Loop W) (parsed : List (String × Json)) (calls : List ToolCallData) :
    ∀ s : Progress W,
    (l.answerAll parsed calls s).1.world
        = (l.rt.handOver (fun call => parsed.reverse.lookup call.callId) calls s.world).1 ∧
    (l.answerAll parsed calls s).1.log = s.log
        ++ (l.rt.handOver (fun call => parsed.reverse.lookup call.callId) calls s.world).2.1 ∧
    (l.answerAll parsed calls s).2
        = (l.rt.handOver (fun call => parsed.reverse.lookup call.callId) calls s.world).2.2 := by
  induction calls with
  | nil => exact fun s => ⟨rfl, (append_nil _).symm, rfl⟩
  | cons call rest ih =>
    intro s
    rw [Loop.answerAll]
    cases h : parsed.reverse.lookup call.callId with
    | none =>
      rw [handOver_cons_none h]
      obtain ⟨hworld, hlog, hmessages⟩ := ih s
      exact ⟨hworld, hlog, congrArg _ hmessages⟩
    | some arguments =>
      rw [handOver_cons_some h]
      have hid := Loop.callTool_callId l.rt s.world call arguments
      dsimp only
      generalize l.rt.callTool s.world call arguments = out at *
      obtain ⟨w', outcome, events⟩ := out
      obtain ⟨hworld, hlog, hmessages⟩ := ih { s with
        world := w', toolOutcomes := s.toolOutcomes ++ [outcome], log := s.log ++ events }
      refine ⟨hworld, hlog.trans (append_assoc _ _ _), ?_⟩
      rw [hmessages, hid]

/-- Of two rules one of which has arguments wherever the other has, equal lists of arguments mean
equal rules. -/
theorem eq_of_filterMap_eq {α β : Type} {f g : α → Option β} {l : List α}
    (hsome : ∀ a ∈ l, (g a).isSome → (f a).isSome) (h : l.filterMap f = l.filterMap g) :
    ∀ a ∈ l, f a = g a := by
  induction l with
  | nil => exact fun _ ha => absurd ha not_mem_nil
  | cons a l ih =>
    obtain ⟨ha, hl⟩ := forall_mem_cons.mp hsome
    have hle : (l.filterMap g).length ≤ (l.filterMap f).length := by
      rw [length_filterMap_eq_countP, length_filterMap_eq_countP]
      exact countP_mono_left hl
    cases hf : f a with
    | none =>
      have hg : g a = none := by
        by_contra hsome'
        have := ha (Option.isSome_iff_ne_none.mpr hsome')
        rw [hf] at this
        cases this
      rw [filterMap_cons_none hf, filterMap_cons_none hg] at h
      exact forall_mem_cons.mpr ⟨hf.trans hg.symm, ih hl h⟩
    | some b =>
      cases hg : g a with
      | none =>
        rw [filterMap_cons_some hf, filterMap_cons_none hg] at h
        have hlen := congrArg List.length h
        rw [length_cons] at hlen
        omega
      | some b' =>
        rw [filterMap_cons_some hf, filterMap_cons_some hg] at h
        obtain ⟨hb, hrest⟩ := List.cons.inj h
        exact forall_mem_cons.mpr ⟨by rw [hf, hg, hb], ih hl hrest⟩

end HandOver

/-! ### The turn -/

/-- Calls with one id have the same arguments, or none of them has an object for arguments. -/
def OneAgentRuntime.OneParseAnId (rt : OneAgentRuntime W) (calls : List ToolCallData) : Prop :=
  ∀ c ∈ calls, ∀ d ∈ calls, c.callId = d.callId → rt.own c = rt.own d

section Turn

variable {rt : OneAgentRuntime W} {calls : List ToolCallData}

theorem lookup_entry {id : String} {arguments : Json}
    (h : (calls.filterMap rt.entry).reverse.lookup id = some arguments) :
    ∃ c ∈ calls, c.callId = id ∧ rt.own c = some arguments := by
  have hmem := mem_reverse.mp (OrdMap.mem_of_lookup h)
  obtain ⟨c, hc, hentry⟩ := mem_filterMap.mp hmem
  obtain ⟨arguments', hown, heq⟩ := Option.map_eq_some_iff.mp hentry
  obtain ⟨rfl, rfl⟩ := Prod.mk.inj heq
  exact ⟨c, hc, rfl, hown⟩

theorem lookup_entry_isSome {c : ToolCallData} (hc : c ∈ calls)
    (h : (rt.own c).isSome) : ((calls.filterMap rt.entry).reverse.lookup c.callId).isSome := by
  obtain ⟨arguments, hown⟩ := Option.isSome_iff_exists.mp h
  rw [Option.isSome_iff_ne_none, ne_eq, lookup_eq_none_iff]
  intro hnone
  have hentry : rt.entry c = some (c.callId, arguments) := by
    rw [OneAgentRuntime.entry, hown]
    rfl
  have hdiffers := hnone _ (mem_reverse.mpr (mem_filterMap.mpr ⟨c, hc, hentry⟩))
  rw [bne_iff_ne] at hdiffers
  exact hdiffers rfl

/-- **The map has the own arguments of every call if and only if calls with one id agree.** -/
theorem lookup_own_iff :
    (∀ c ∈ calls, (calls.filterMap rt.entry).reverse.lookup c.callId = rt.own c)
      ↔ rt.OneParseAnId calls := by
  constructor
  · intro h c hc d hd hid
    rw [← h c hc, ← h d hd, hid]
  · intro h c hc
    cases hlookup : (calls.filterMap rt.entry).reverse.lookup c.callId with
    | some arguments =>
      obtain ⟨d, hd, hid, hown⟩ := lookup_entry hlookup
      rw [h c hc d hd hid.symm, hown]
    | none =>
      cases hown : rt.own c with
      | none => rfl
      | some arguments =>
        have hsome := lookup_entry_isSome hc (by rw [hown]; rfl)
        rw [hlookup] at hsome
        cases hsome

theorem invoke_handOver (l : Loop W) {s : Progress W} (t : Talk) {w : W} {events : List StreamEvent}
    (hstate : s.state = .streaming)
    (hmodel : l.rt.transport (l.send t.conversation s.world) = (w, .ok events)) :
    let calls := ((ToolCallAssembler.new.feedAll events).filterMap requestOf)
    let handed := l.rt.handOver
      (fun call => (calls.filterMap l.rt.entry).reverse.lookup call.callId) calls w
    (l.invoke s t).1.world = handed.1 ∧ (l.invoke s t).1.log = s.log ++ handed.2.1 ∧
      (calls ≠ [] → (l.invoke s t).2.1.conversation = t.conversation
        ++ assistantWithToolCalls (turnText (ToolCallAssembler.new.feedAll events)) calls
          :: handed.2.2) := by
  intro calls handed
  obtain ⟨s', hread, hworld, hlog, hstate'⟩ := readEvents_spec l.rt
    (ToolCallAssembler.new.feedAll events) (ToolCallAssembler.isFragment_feedAll events _)
    { s with world := w } ⟨[], []⟩
  rw [nil_append, nil_append] at hread
  rw [Loop.invoke, hmodel]
  dsimp only
  rw [hread]
  dsimp only
  by_cases hnone : calls = []
  · have hempty : calls.isEmpty = true := isEmpty_iff.mpr hnone
    have hcomplete : (OneAgentRuntime.complete s').1.world = w := by
      rw [OneAgentRuntime.complete, hstate', hstate]
      exact hworld
    rw [if_pos hempty]
    refine ⟨hcomplete.trans ?_, ?_, fun h => absurd hnone h⟩
    · rw [show handed = l.rt.handOver _ calls w from rfl, hnone]
      rfl
    · rw [OneAgentRuntime.complete_log, hlog, show handed = l.rt.handOver _ calls w from rfl, hnone]
      exact (append_nil _).symm
  · have hempty : ¬ calls.isEmpty = true := fun h => hnone (isEmpty_iff.mp h)
    have hexecuting : transition s'.state .executing = .ok .executing := by
      rw [hstate', hstate]
      rfl
    rw [if_neg hempty, Loop.answer, hexecuting]
    dsimp only
    obtain ⟨hworld', hlog', hmessages⟩ := answerAll_handOver l (calls.filterMap l.rt.entry) calls
      { s' with state := .executing }
    generalize l.answerAll (calls.filterMap l.rt.entry) calls { s' with state := .executing } = out
      at *
    obtain ⟨s'', results⟩ := out
    rw [hworld] at hworld' hlog' hmessages
    rw [hlog] at hlog'
    cases transition s''.state .streaming with
    | error e => exact ⟨hworld', hlog', fun _ => by rw [hmessages]; exact append_assoc _ _ _⟩
    | ok state => exact ⟨hworld', hlog', fun _ => by rw [hmessages]; exact append_assoc _ _ _⟩

/-- **A turn hands every call its own arguments if and only if calls with one id agree.**  Then each
is put to the policy with the parse of its own arguments and executed if that allows it, or answered
by an error if they are no object, all in the order of the answer and once. -/
theorem answersOwn_iff (l : Loop W) (s : Progress W) (t : Talk) (w : W) (events : List StreamEvent)
    (hstate : s.state = .streaming)
    (hmodel : l.rt.transport (l.send t.conversation s.world) = (w, .ok events)) :
    l.AnswersOwn s t w (ToolCallAssembler.new.feedAll events)
      ↔ l.rt.OneParseAnId ((ToolCallAssembler.new.feedAll events).filterMap requestOf) := by
  obtain ⟨hworld, hlog, hconversation⟩ := invoke_handOver l t hstate hmodel
  rw [← lookup_own_iff]
  constructor
  · intro h
    have harguments := congrArg (List.filterMap handedArguments)
      (append_cancel_left (hlog.symm.trans h.log))
    rw [handOver_arguments, handOver_arguments] at harguments
    exact eq_of_filterMap_eq (fun c hc hsome => lookup_entry_isSome hc hsome) harguments
  · intro h
    have hhanded := handOver_congr l.rt h w
    exact ⟨hworld.trans (by rw [hhanded]), hlog.trans (by rw [hhanded]),
      fun hne => (hconversation hne).trans (by rw [hhanded])⟩

theorem answersOwn_scripted : Loop.AnswersOwn Loop.scripted
    { OneAgentRuntime.start 0 with state := .streaming } (Loop.startTalk "fix it" none) 1
    (ToolCallAssembler.new.feedAll [.toolRequest "a" "fs.read" "\x7b\x7d",
      .toolRequest "b" "fs.read" "", .completed none]) := by
  refine (answersOwn_iff Loop.scripted _ _ 1 _ rfl rfl).mpr (fun c hc d hd hid => ?_)
  rcases mem_cons.mp hc with rfl | hc
  · rcases mem_cons.mp hd with rfl | hd
    · rfl
    · rw [mem_singleton.mp hd] at hid
      exact absurd hid (by decide)
  · rcases mem_cons.mp hd with rfl | hd
    · rw [mem_singleton.mp hc] at hid
      exact absurd hid (by decide)
    · rw [mem_singleton.mp hc, mem_singleton.mp hd]

/-- Two calls with one id, the arguments of the second of which are no object. -/
def repeatedId : List StreamEvent :=
  [.toolRequest "a" "fs.read" "\x7b\x7d", .toolRequest "a" "fs.read" "", .completed none]

def counting : Loop Nat :=
  { Loop.scripted with rt := { Loop.scripted.rt with
      transport := fun w => (w, .ok repeatedId)
      grants := fun _ => [⟨"g", "fs.read", .readOnly⟩]
      registry := ⟨.ofList [("fs.read", ⟨"1", .readOnly, fun w _ => (w + 1, .ok .null)⟩)]⟩ } }

/-- The tool runs for both calls. -/
theorem invalid_call_executed :
    (counting.invoke { OneAgentRuntime.start 0 with state := .streaming }
      (Loop.startTalk "fix it" none)).1.world = 2 ∧
    ¬ counting.AnswersOwn { OneAgentRuntime.start 0 with state := .streaming }
      (Loop.startTalk "fix it" none) 0 (ToolCallAssembler.new.feedAll repeatedId) := by
  have htwice : (counting.invoke { OneAgentRuntime.start 0 with state := .streaming }
      (Loop.startTalk "fix it" none)).1.world = 2 := by
    decide +kernel
  refine ⟨htwice, fun h => ?_⟩
  have honce := h.world
  rw [htwice] at honce
  revert honce
  decide +kernel

end Turn

end Agent

end Modbit
