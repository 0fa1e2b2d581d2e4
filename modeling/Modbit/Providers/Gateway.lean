import Modbit.Agent.Runtime
import Modbit.Lib.Demux

/-!
# The gateway's readers

`crates/providers/src/gateway.rs`.  The two providers stream an answer as JSON payloads, and
each payload becomes at most one event.  The calls come in fragments that name their call by
an index; only the first one has its id and its name.  The assembler puts them together and
gives them out when the answer is complete.

`feedAll_entries` says what it makes of fragments that are numbered consistently: the calls
that were opened, in the order they were, each with all its fragments.
-/

namespace Modbit

open Lib List

namespace Providers

open Agent (StreamEvent TokenUsage ToolCallAssembler PartialToolCall)

/-! ### Payloads -/

inductive Provider where
  | openAi
  | anthropic
  deriving DecidableEq

structure UsageFrame where
  inputTokens : Option UInt64
  outputTokens : Option UInt64

def asArray : Json → Option (List Json)
  | .arr items => some items
  | _ => none

def textField (name : String) (value : Json) : Option String := (value.field name).bind Json.asStr

def u64Field (name : String) (value : Json) : Option UInt64 :=
  ((value.field name).bind Json.asNat).map UInt64.ofNat

/-- An `index`, as the `u32` it is cast to. -/
def indexOf (value : Json) : Option UInt32 :=
  ((value.field "index").bind Json.asNat).map UInt32.ofNat

section Read

-- `serde_json::from_str`
variable (parse : String → Option Json)

def extractUsageFrame (provider : Provider) (payload : String) : Option UsageFrame :=
  (parse payload).bind (fun value =>
    match provider with
    | .openAi => (value.field "usage").map (fun usage =>
        ⟨u64Field "prompt_tokens" usage, u64Field "completion_tokens" usage⟩)
    | .anthropic =>
      let usage := match textField "type" value with
        | some "message_start" => (value.field "message").bind (Json.field "usage")
        | some "message_delta" => value.field "usage"
        | _ => none
      usage.map (fun usage => ⟨u64Field "input_tokens" usage, u64Field "output_tokens" usage⟩))

def usageEvent (payload : String) : Option StreamEvent :=
  match extractUsageFrame parse .openAi payload with
  | some frame =>
    if frame.inputTokens.isSome || frame.outputTokens.isSome then
      some (.usage ⟨frame.inputTokens.getD 0, frame.outputTokens.getD 0⟩)
    else none
  | none => none

/-- An entry of `tool_calls`. -/
def toolCallEvent (call : Json) : StreamEvent :=
  .toolCallDelta (textField "id" call) (indexOf call)
    ((call.field "function").bind (textField "name"))
    (((call.field "function").bind (textField "arguments")).getD "")

def deltaEvent (text : String) : Option StreamEvent := if text = "" then none else some (.delta text)

/-- The event of a choice: its `finish_reason` goes before its tool calls, and they before its
content. -/
def choiceEvent (choice : Json) : Option StreamEvent :=
  match textField "finish_reason" choice with
  | some reason => some (.completed (some reason))
  | none =>
    match ((choice.field "delta").bind (Json.field "tool_calls")).bind asArray with
    | some toolCalls => toolCalls.head?.map toolCallEvent
    | none => ((choice.field "delta").bind (textField "content")).bind deltaEvent

def parseOpenaiSsePayload (payload : String) : Option StreamEvent :=
  if Text.trim payload = "[DONE]" then some (.completed (some "stop"))
  else
    (parse (Text.trim payload)).bind (fun value =>
      ((value.field "choices").bind asArray).bind (fun choices =>
        match choices with
        | [] => usageEvent parse (Text.trim payload)
        | choice :: _ => choiceEvent choice))

/-- The arguments a `tool_use` block opens with. -/
def openingArguments : Json → String
  | .null => ""
  | .obj [] => ""
  | input => input.render

def contentBlockDelta (value : Json) : Option StreamEvent :=
  (value.field "delta").bind (fun delta =>
    if textField "type" delta = some "input_json_delta" then
      some (.toolCallDelta none (indexOf value) none ((textField "partial_json" delta).getD ""))
    else (textField "text" delta).bind deltaEvent)

def contentBlockStart (value : Json) : Option StreamEvent :=
  (value.field "content_block").bind (fun block =>
    if textField "type" block = some "tool_use" then
      (textField "id" block).bind (fun id =>
        (textField "name" block).map (fun name =>
          .toolCallDelta (some id) (indexOf value) (some name)
            (openingArguments ((block.field "input").getD .null))))
    else none)

def parseAnthropicSsePayload (payload : String) : Option StreamEvent :=
  (parse payload).bind (fun value =>
    match textField "type" value with
    | some "content_block_delta" => contentBlockDelta value
    | some "content_block_start" => contentBlockStart value
    | some "message_delta" =>
      some (.completed ((value.field "delta").bind (textField "stop_reason")))
    | some "message_stop" => some (.completed (some "end_turn"))
    | _ => none)

end Read

/-! ### Fragments -/

/-- A fragment of a call: the index, the id and the name if it is the first, and a part of the
arguments. -/
structure Entry where
  index : UInt32
  opening : Option (String × String)
  fragment : String

def Entry.event (e : Entry) : StreamEvent :=
  .toolCallDelta (e.opening.map Prod.fst) (some e.index) (e.opening.map Prod.snd) e.fragment

def fragments (es : List Entry) (index : UInt32) : String :=
  String.join ((es.filter (fun e => e.index = index)).map Entry.fragment)

/-- The calls with their arguments, in the order they are opened. -/
def opened (es : List Entry) : List (String × String × String) :=
  es.filterMap (fun e => e.opening.map (fun o => (o.1, o.2, fragments es e.index)))

/-- A call is opened before its other fragments, and once; calls have names, and ids of their
own. -/
structure Numbered (es : List Entry) : Prop where
  first : es.Pairwise (fun a b => b.opening.isSome → a.index ≠ b.index)
  ids : ((es.filterMap Entry.opening).map Prod.fst).Nodup
  names : ∀ o ∈ es.filterMap Entry.opening, o.2 ≠ ""

theorem Numbered.sublist {es es' : List Entry} (h : Numbered es) (hs : es'.Sublist es) :
    Numbered es' where
  first := h.first.sublist hs
  ids := h.ids.sublist ((hs.filterMap _).map _)
  names o ho := h.names o ((hs.filterMap _).subset ho)

def partialOf (es : List Entry) (index : UInt32) : PartialToolCall :=
  let opening := (Demux.first Entry.index es index).bind Entry.opening
  ⟨opening.map Prod.fst, some index, (opening.map Prod.snd).getD "", fragments es index⟩

variable {es : List Entry} {e : Entry} {index : UInt32}

theorem fragments_concat : fragments (es ++ [e]) index
    = fragments es index ++ if e.index = index then e.fragment else "" := by
  rw [fragments, filter_append, map_append, String.join_append]
  by_cases h : e.index = index
  · rw [filter_cons_of_pos (by simpa using h), if_pos h]
    simp [fragments]
  · rw [filter_cons_of_neg (by simpa using h), if_neg h]
    simp [fragments]

theorem fragments_of_not_mem (h : index ∉ Demux.keys Entry.index es) : fragments es index = "" := by
  have hnil : es.filter (fun e => e.index = index) = [] := by
    rw [filter_eq_nil_iff]
    exact fun e he hi => h (Demux.mem_keys.mpr ⟨e, he, of_decide_eq_true hi⟩)
  rw [fragments, hnil]
  rfl

theorem partialOf_concat_of_mem (hk : index ∈ Demux.keys Entry.index es) :
    partialOf (es ++ [e]) index
      = if index = e.index then
          ToolCallAssembler.extend none (some e.index) none e.fragment (partialOf es index)
        else partialOf es index := by
  have hfirst : Demux.first Entry.index (es ++ [e]) index = Demux.first Entry.index es index :=
    Demux.first_concat_of_mem hk
  by_cases hi : index = e.index
  · rw [if_pos hi, partialOf, hfirst, fragments_concat, if_pos hi.symm, partialOf,
      ToolCallAssembler.extend]
    simp
  · rw [if_neg hi, partialOf, hfirst, fragments_concat, if_neg (fun hs => hi hs.symm), partialOf]
    simp

theorem partialOf_concat_self (h : e.index ∉ Demux.keys Entry.index es) :
    partialOf (es ++ [e]) e.index
      = ToolCallAssembler.extend (e.opening.map Prod.fst) (some e.index) (e.opening.map Prod.snd)
          e.fragment ⟨e.opening.map Prod.fst, some e.index, "", ""⟩ := by
  rw [partialOf, Demux.first_concat_self h, Option.bind_some, fragments_concat, if_pos rfl,
    fragments_of_not_mem h, ToolCallAssembler.extend]
  cases e.opening with
  | none => simp
  | some o => simp

theorem isFor_index (j : UInt32) :
    ToolCallAssembler.isFor none (some index) (partialOf es j) = decide (j = index) := by
  simp [ToolCallAssembler.isFor, partialOf]

theorem isFor_opening {o : String × String} (h : Numbered (es ++ [e])) (ho : e.opening = some o)
    (index : Option UInt32) (j : UInt32) :
    ToolCallAssembler.isFor (some o.1) index (partialOf es j) = false := by
  rw [ToolCallAssembler.isFor, partialOf]
  refine decide_eq_false (fun heq => ?_)
  obtain ⟨o', ho', hid⟩ := Option.map_eq_some_iff.mp heq
  obtain ⟨e', he', hopening⟩ := Option.bind_eq_some_iff.mp ho'
  have hids := h.ids
  rw [filterMap_append, map_append, nodup_append] at hids
  refine hids.2.2 o'.1 (mem_map_of_mem (mem_filterMap.mpr
    ⟨e', mem_of_find?_eq_some he', hopening⟩)) o.1 ?_ hid
  rw [filterMap_cons_some ho]
  exact mem_cons_self

/-- **The fragments put together.** -/
theorem feed_entries (h : Numbered es) :
    es.foldl (fun a e => (ToolCallAssembler.feed a e.event).1) ToolCallAssembler.new
      = ⟨(Demux.keys Entry.index es).map (partialOf es), []⟩ := by
  induction es using List.reverseRecOn with
  | nil => rfl
  | append_singleton es e ih =>
    rw [foldl_append, ih (h.sublist (sublist_append_left _ _)), foldl_cons,
      foldl_nil, Demux.keys_concat, Entry.event, ToolCallAssembler.feed]
    by_cases hmem : e.index ∈ Demux.keys Entry.index es
    · -- a later fragment, with its index only
      obtain ⟨e', he', hindex⟩ := Demux.mem_keys.mp hmem
      have hnone : e.opening = none := by
        by_contra hsome
        exact (pairwise_append.mp h.first).2.2 e' he' e mem_cons_self
          (Option.isSome_iff_ne_none.mpr hsome) hindex
      have hany : ((Demux.keys Entry.index es).map (partialOf es)).any
          (ToolCallAssembler.isFor none (some e.index)) = true := by
        rw [any_eq_true]
        exact ⟨partialOf es e.index, mem_map_of_mem hmem, by rw [isFor_index]; simp⟩
      rw [hnone, Option.map_none, Option.map_none, if_pos hany, if_pos hmem,
        Demux.modify_findIdx (Demux.nodup_keys es) hmem (fun j _ => isFor_index j)]
      refine congrArg (fun ps => (⟨ps, []⟩ : ToolCallAssembler)) (map_congr_left (fun j hj => ?_))
      rw [partialOf_concat_of_mem hj]
    · have hany : ((Demux.keys Entry.index es).map (partialOf es)).any
          (ToolCallAssembler.isFor (e.opening.map Prod.fst) (some e.index)) = false := by
        rw [any_eq_false]
        intro p hp
        obtain ⟨j, hj, rfl⟩ := mem_map.mp hp
        cases ho : e.opening with
        | none =>
          rw [Option.map_none, isFor_index]
          exact fun heq => hmem (of_decide_eq_true heq ▸ hj)
        | some o =>
          rw [Option.map_some, isFor_opening h ho]
          exact Bool.false_ne_true
      have hsame : (Demux.keys Entry.index es).map (partialOf (es ++ [e]))
          = (Demux.keys Entry.index es).map (partialOf es) := by
        refine map_congr_left (fun j hj => ?_)
        rw [partialOf_concat_of_mem hj, if_neg (fun heq : j = e.index => hmem (heq ▸ hj))]
      rw [hany, if_neg Bool.false_ne_true, if_neg hmem, map_append, hsame, map_singleton,
        partialOf_concat_self hmem]

/-! ### Flushing -/

def request (call : String × String × String) : StreamEvent := .toolRequest call.1 call.2.1 call.2.2

theorem flush_eq {ps : List PartialToolCall} : ∀ {emitted : List String},
    (ps.filterMap PartialToolCall.callId).Nodup →
    (∀ id ∈ ps.filterMap PartialToolCall.callId, id ∉ emitted) →
    (∀ p ∈ ps, p.callId.isSome → p.name ≠ "") →
    (ToolCallAssembler.flush ps emitted).1
      = ps.filterMap (fun p => p.callId.map (fun id => request (id, p.name, p.arguments))) := by
  induction ps with
  | nil => intro emitted _ _ _; rfl
  | cons p ps ih =>
    intro emitted hnodup hnew hnames
    obtain ⟨hname, hnames'⟩ := forall_mem_cons.mp hnames
    rw [ToolCallAssembler.flush]
    cases hid : p.callId with
    | none =>
      rw [filterMap_cons_none hid] at hnodup hnew
      rw [filterMap_cons_none (by rw [hid]; rfl)]
      exact ih hnodup hnew hnames'
    | some id =>
      rw [filterMap_cons_some hid] at hnodup hnew
      obtain ⟨hfree, hnodup'⟩ := nodup_cons.mp hnodup
      obtain ⟨hid', hnew'⟩ := forall_mem_cons.mp hnew
      have hgo : ¬ (p.name = "" ∨ id ∈ emitted) :=
        not_or.mpr ⟨hname (by rw [hid]; rfl), hid'⟩
      rw [filterMap_cons_some (by rw [hid]; rfl)]
      dsimp only
      rw [if_neg hgo]
      refine congrArg (request (id, p.name, p.arguments) :: ·) (ih hnodup' (fun id' h' => ?_) hnames')
      rw [mem_append, mem_singleton, not_or]
      exact ⟨hnew' id' h', fun heq => hfree (heq ▸ h')⟩

theorem callIds_entries (h : Numbered es) :
    ((Demux.keys Entry.index es).map (partialOf es)).filterMap PartialToolCall.callId
      = (es.filterMap Entry.opening).map Prod.fst := by
  have hkeys := Demux.filterMap_keys Entry.index (f := fun e => e.opening.map Prod.fst)
    (h.first.imp (fun hab hb => hab (by simpa using hb)))
  rw [filterMap_map, map_filterMap, ← hkeys]
  refine filterMap_congr (fun k _ => ?_)
  show ((Demux.first Entry.index es k).bind Entry.opening).map Prod.fst = _
  cases Demux.first Entry.index es k with
  | none => rfl
  | some e => rfl

/-- **What is given out of the fragments**: the calls that were opened, with all their fragments. -/
theorem flush_entries (h : Numbered es) :
    (ToolCallAssembler.flush ((Demux.keys Entry.index es).map (partialOf es)) []).1
      = (opened es).map request := by
  have hfirst : es.Pairwise (fun a b => ((b.opening.map
      (fun o => request (o.1, o.2, fragments es b.index))).isSome → a.index ≠ b.index)) :=
    h.first.imp (fun hab hb => hab (by simpa using hb))
  rw [flush_eq]
  · rw [filterMap_map, opened, map_filterMap]
    have hkeys := Demux.filterMap_keys Entry.index hfirst
    have hrequests : es.filterMap (fun e => (e.opening.map
        (fun o => (o.1, o.2, fragments es e.index))).map request)
        = es.filterMap (fun e => e.opening.map (fun o => request (o.1, o.2, fragments es e.index))) := by
      refine filterMap_congr (fun e _ => ?_)
      rw [Option.map_map]
      rfl
    rw [hrequests, ← hkeys]
    refine filterMap_congr (fun k _ => ?_)
    show (((Demux.first Entry.index es k).bind Entry.opening).map Prod.fst).map _ = _
    cases hk : Demux.first Entry.index es k with
    | none => rfl
    | some e =>
      have hindex : e.index = k := of_decide_eq_true
        (find?_some (p := fun e : Entry => decide (e.index = k)) hk)
      rw [Option.bind_some, Option.bind_some, hindex]
      cases ho : e.opening with
      | none => rfl
      | some o => simp [partialOf, hk, ho]
  · rw [callIds_entries h]
    exact h.ids
  · exact fun _ _ => not_mem_nil
  · intro p hp hsome
    obtain ⟨k, -, rfl⟩ := mem_map.mp hp
    rw [partialOf, Option.isSome_map] at hsome
    obtain ⟨o, ho⟩ := Option.isSome_iff_exists.mp hsome
    obtain ⟨e, he, hopening⟩ := Option.bind_eq_some_iff.mp ho
    rw [partialOf, ho]
    exact h.names o (mem_filterMap.mpr ⟨e, mem_of_find?_eq_some he, hopening⟩)

/-! ### Text and fragments -/

inductive Piece where
  | text (s : String)
  | entry (e : Entry)

def Piece.event : Piece → Option StreamEvent
  | .text s => deltaEvent s
  | .entry e => some e.event

def Piece.text? : Piece → Option String
  | .text s => some s
  | .entry _ => none

def Piece.entry? : Piece → Option Entry
  | .text _ => none
  | .entry e => some e

def textOf (ps : List Piece) : String := String.join (ps.filterMap Piece.text?)

def entriesOf (ps : List Piece) : List Entry := ps.filterMap Piece.entry?

def deltasOf (ps : List Piece) : List StreamEvent := (ps.filterMap Piece.text?).filterMap deltaEvent

theorem feedAll_pieces (ps : List Piece) : ∀ (a : ToolCallAssembler) (rest : List StreamEvent),
    a.feedAll (ps.filterMap Piece.event ++ rest)
      = deltasOf ps
        ++ ((entriesOf ps).foldl (fun a e => (ToolCallAssembler.feed a e.event).1) a).feedAll rest := by
  induction ps with
  | nil => exact fun a rest => rfl
  | cons p ps ih =>
    intro a rest
    cases p with
    | text s =>
      have hnext : entriesOf (.text s :: ps) = entriesOf ps := rfl
      have hdeltas : deltasOf (.text s :: ps) = (deltaEvent s).toList ++ deltasOf ps := by
        simp only [deltasOf, Piece.text?, filterMap_cons]
        cases deltaEvent s with
        | none => rfl
        | some event => rfl
      rw [hnext, hdeltas, append_assoc, ← ih, filterMap_cons, Piece.event, deltaEvent]
      split_ifs
      · rfl
      · rfl
    | entry e =>
      have hfeed : (a.feed e.event).2 = [] := by
        rw [Entry.event, ToolCallAssembler.feed]
        split_ifs
        · rfl
        · rfl
      show (a.feed e.event).2 ++ (a.feed e.event).1.feedAll (ps.filterMap Piece.event ++ rest) = _
      rw [hfeed, nil_append, ih]
      rfl

/-- **What the assembler makes of an answer.** -/
theorem feedAll_answer {ps : List Piece} (h : Numbered (entriesOf ps)) (reason : Option String)
    (rest : List StreamEvent) : ∃ more : List StreamEvent,
      ToolCallAssembler.new.feedAll (ps.filterMap Piece.event ++ .completed reason :: rest)
        = (deltasOf ps ++ (opened (entriesOf ps)).map request) ++ .completed reason :: more := by
  rw [feedAll_pieces, feed_entries h]
  refine ⟨(ToolCallAssembler.feed ⟨(Demux.keys Entry.index (entriesOf ps)).map
    (partialOf (entriesOf ps)), []⟩ (.completed reason)).1.feedAll rest, ?_⟩
  rw [ToolCallAssembler.feedAll, ToolCallAssembler.feed]
  rw [flush_entries h]
  simp only [append_assoc, cons_append, nil_append]

end Providers

end Modbit
