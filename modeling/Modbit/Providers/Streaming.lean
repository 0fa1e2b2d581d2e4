import Modbit.Providers.Gateway
import Mathlib.Data.List.Forall2
import Mathlib.Data.List.Perm.Basic

/-!
# Streamed answers

An answer of the model is a text and some calls.  Both providers cut it into pieces, of the
text and of the arguments; an OpenAI chunk may hold several of them, an Anthropic event holds
at most one.  What comes out of the readers and the assembler before the first `Completed` is
to be the answer again (`Yields`).

An OpenAI chunk becomes one event, so only one of its pieces is read (`carried`) and the
others are left out.  An Anthropic call without arguments comes without fragments, and is
given out with an empty text for its arguments.  `answers_yield_iff` says when the answer
comes through nevertheless.
-/

namespace Modbit

open Lib List

namespace Providers

open Agent (StreamEvent ToolCallAssembler)

/-! ### Answers -/

structure IssuedCall where
  id : String
  name : String
  arguments : List (String × Json)

structure AssistantTurn where
  text : String
  calls : List IssuedCall
  ids : (calls.map IssuedCall.id).Nodup
  named : ∀ c ∈ calls, c.id ≠ "" ∧ c.name ≠ ""

def isCompleted : StreamEvent → Bool
  | .completed _ => true
  | _ => false

def deltaText : StreamEvent → Option String
  | .delta text => some text
  | _ => none

def requestOf : StreamEvent → Option (String × String × String)
  | .toolRequest id name arguments => some (id, name, arguments)
  | _ => none

/-- What comes before the first `Completed`. -/
def beforeCompleted (out : List StreamEvent) : List StreamEvent :=
  out.takeWhile (fun event => !isCompleted event)

section Yields

variable (parse : String → Option Json)

/-- The call, with arguments that are the same JSON. -/
structure Matches (r : String × String × String) (c : IssuedCall) : Prop where
  id : r.1 = c.id
  name : r.2.1 = c.name
  arguments : parse r.2.2 = some (.obj c.arguments)

/-- The events hold the answer, before the first `Completed`. -/
structure Yields (turn : AssistantTurn) (out : List StreamEvent) : Prop where
  completes : out.any isCompleted = true
  text : String.join ((beforeCompleted out).filterMap deltaText) = turn.text
  calls : List.Forall₂ (Matches parse) ((beforeCompleted out).filterMap requestOf) turn.calls

end Yields

variable {parse : String → Option Json} {turn : AssistantTurn} {ps : List Piece}

theorem join_deltasOf (ps : List Piece) :
    String.join ((deltasOf ps).filterMap deltaText) = textOf ps := by
  rw [deltasOf, textOf]
  induction ps.filterMap Piece.text? with
  | nil => rfl
  | cons s ss ih =>
    by_cases hs : s = ""
    · have hnone : deltaEvent s = none := if_pos hs
      rw [filterMap_cons_none hnone, ih, String.join_cons, hs, String.empty_append]
    · have hsome : deltaEvent s = some (.delta s) := if_neg hs
      have htext : deltaText (.delta s) = some s := rfl
      rw [filterMap_cons_some hsome, filterMap_cons_some htext, String.join_cons, ih,
        String.join_cons]

theorem requests_deltasOf (ps : List Piece) : (deltasOf ps).filterMap requestOf = [] := by
  rw [filterMap_eq_nil_iff]
  intro event hmem
  obtain ⟨s, -, hs⟩ := mem_filterMap.mp hmem
  rw [deltaEvent] at hs
  split_ifs at hs
  rw [← Option.some.inj hs]
  rfl

theorem deltas_requests (calls : List (String × String × String)) :
    (calls.map request).filterMap deltaText = [] := by
  rw [filterMap_eq_nil_iff]
  intro event hmem
  obtain ⟨call, -, rfl⟩ := mem_map.mp hmem
  rfl

theorem requests_requests (calls : List (String × String × String)) :
    (calls.map request).filterMap requestOf = calls := by
  rw [filterMap_map]
  exact filterMap_some

theorem not_completed_answer (ps : List Piece) (calls : List (String × String × String)) :
    ∀ event ∈ deltasOf ps ++ calls.map request, (!isCompleted event) = true := by
  refine forall_mem_append.mpr ⟨fun event hmem => ?_, fun event hmem => ?_⟩
  · obtain ⟨s, -, hs⟩ := mem_filterMap.mp hmem
    rw [deltaEvent] at hs
    split_ifs at hs
    rw [← Option.some.inj hs]
    rfl
  · obtain ⟨call, -, rfl⟩ := mem_map.mp hmem
    rfl

/-- **What comes out is the answer exactly if the pieces that were read hold it.** -/
theorem yields_iff (h : Numbered (entriesOf ps)) (reason : Option String) (rest : List StreamEvent) :
    Yields parse turn
        (ToolCallAssembler.new.feedAll (ps.filterMap Piece.event ++ .completed reason :: rest)) ↔
      textOf ps = turn.text ∧ List.Forall₂ (Matches parse) (opened (entriesOf ps)) turn.calls := by
  obtain ⟨more, hmore⟩ := feedAll_answer h reason rest
  have hbefore : beforeCompleted
      ((deltasOf ps ++ (opened (entriesOf ps)).map request) ++ .completed reason :: more)
        = deltasOf ps ++ (opened (entriesOf ps)).map request := by
    rw [beforeCompleted, takeWhile_append_of_pos (not_completed_answer _ _),
      takeWhile_cons_of_neg (by simp [isCompleted]), append_nil]
  rw [hmore]
  constructor
  · rintro ⟨-, htext, hcalls⟩
    rw [hbefore, filterMap_append, deltas_requests, append_nil, join_deltasOf] at htext
    rw [hbefore, filterMap_append, requests_deltasOf, requests_requests, nil_append]
      at hcalls
    exact ⟨htext, hcalls⟩
  · rintro ⟨htext, hcalls⟩
    refine ⟨?_, ?_, ?_⟩
    · simp [isCompleted]
    · rw [hbefore, filterMap_append, deltas_requests, append_nil, join_deltasOf, htext]
    · rw [hbefore, filterMap_append, requests_deltasOf, requests_requests, nil_append]
      exact hcalls

/-! ### Pieces of an answer -/

/-- The pieces hold the answer: its text, and its calls in the order they are opened.  `Args` says
when some fragments are the arguments of a call. -/
structure Streamed (Args : String → IssuedCall → Prop) (turn : AssistantTurn) (ps : List Piece) :
    Prop where
  text : textOf ps = turn.text
  first : (entriesOf ps).Pairwise (fun a b => b.opening.isSome → a.index ≠ b.index)
  calls : List.Forall₂ (fun r c => r.1 = c.id ∧ r.2.1 = c.name ∧ Args r.2.2 c)
    (opened (entriesOf ps)) turn.calls

theorem openings_of_opened (es : List Entry) :
    (opened es).map (fun r => (r.1, r.2.1)) = es.filterMap Entry.opening := by
  rw [opened, map_filterMap]
  refine filterMap_congr (fun e _ => ?_)
  cases e.opening with
  | none => rfl
  | some o => rfl

theorem map_eq_of_forall₂ {α β γ : Type} {R : α → β → Prop} {f : α → γ} {g : β → γ} {l : List α}
    {m : List β} (h : List.Forall₂ R l m) (hR : ∀ a b, R a b → f a = g b) : l.map f = m.map g := by
  induction h with
  | nil => rfl
  | cons hab _ ih => rw [map_cons, map_cons, hR _ _ hab, ih]

theorem Streamed.openings {Args : String → IssuedCall → Prop} (h : Streamed Args turn ps) :
    (entriesOf ps).filterMap Entry.opening = turn.calls.map (fun c => (c.id, c.name)) := by
  rw [← openings_of_opened]
  exact map_eq_of_forall₂ h.calls (fun r c hrc => Prod.ext hrc.1 hrc.2.1)

theorem Streamed.numbered {Args : String → IssuedCall → Prop} (h : Streamed Args turn ps) :
    Numbered (entriesOf ps) where
  first := h.first
  ids := by
    rw [h.openings, map_map]
    exact turn.ids
  names o ho := by
    rw [h.openings] at ho
    obtain ⟨c, hc, rfl⟩ := mem_map.mp ho
    exact (turn.named c hc).2

/-! ### OpenAI chunks -/

structure OpenAiChunk where
  content : Option String
  toolCalls : Option (List Entry)
  finishReason : Option String

namespace OpenAiChunk

def pieces (c : OpenAiChunk) : List Piece :=
  (c.content.map Piece.text).toList ++ (c.toolCalls.getD []).map Piece.entry

def carried (c : OpenAiChunk) : Option Piece :=
  match c.finishReason, c.toolCalls with
  | some _, _ => none
  | none, some es => es.head?.map Piece.entry
  | none, none => c.content.map Piece.text

def leftOut (c : OpenAiChunk) : List Piece :=
  match c.finishReason, c.toolCalls with
  | some _, _ => c.pieces
  | none, some es => (c.content.map Piece.text).toList ++ es.tail.map Piece.entry
  | none, none => []

end OpenAiChunk

structure ShowsEntry (call : Json) (e : Entry) : Prop where
  index : call.field "index" = some (.num e.index.toNat)
  id : textField "id" call = e.opening.map Prod.fst
  name : (call.field "function").bind (textField "name") = e.opening.map Prod.snd
  arguments : ((call.field "function").bind (textField "arguments")).getD "" = e.fragment

def ShowsToolCalls (delta : Json) : Option (List Entry) → Prop
  | none => (delta.field "tool_calls").bind asArray = none
  | some es => ∃ items, delta.field "tool_calls" = some (.arr items) ∧ List.Forall₂ ShowsEntry items es

/-- The chunk, as JSON: it may have other fields, and its choice and delta too. -/
structure ShowsChunk (value : Json) (c : OpenAiChunk) : Prop where
  shows : ∃ choice rest delta, value.field "choices" = some (.arr (choice :: rest))
    ∧ choice.field "delta" = some delta ∧ textField "finish_reason" choice = c.finishReason
    ∧ textField "content" delta = c.content ∧ ShowsToolCalls delta c.toolCalls

section OpenAi

variable (parse : String → Option Json)

def IsChunk (payload : String) (c : OpenAiChunk) : Prop :=
  Text.trim payload ≠ "[DONE]" ∧ ∃ value, parse (Text.trim payload) = some value ∧ ShowsChunk value c

/-- The fragments are a text of the arguments. -/
def IsText (text : String) (c : IssuedCall) : Prop := parse text = some (.obj c.arguments)

/-- The answer as OpenAI streams it: the last of its chunks has the `finish_reason`, and anything
may come after it. -/
structure OpenAiStream (turn : AssistantTurn) (chunks : List OpenAiChunk) (last : OpenAiChunk)
    (payloads : List String) : Prop where
  payloads : ∃ texts trailing, payloads = texts ++ trailing
    ∧ List.Forall₂ (IsChunk parse) texts (chunks ++ [last])
  goesOn : ∀ c ∈ chunks, c.finishReason = none
  ends : last.finishReason.isSome
  streamed : Streamed (IsText parse) turn ((chunks ++ [last]).flatMap OpenAiChunk.pieces)

def receiveOpenai (payloads : List String) : List StreamEvent :=
  ToolCallAssembler.new.feedAll (payloads.filterMap (parseOpenaiSsePayload parse))

def carriedPieces (chunks : List OpenAiChunk) : List Piece := chunks.filterMap OpenAiChunk.carried

structure Whole (chunks : List OpenAiChunk) : Prop where
  text : ∀ c ∈ chunks, ∀ s, .text s ∈ c.leftOut → s = ""
  openings : ∀ c ∈ chunks, ∀ e, .entry e ∈ c.leftOut → e.opening = none
  arguments : ∀ e ∈ entriesOf (chunks.flatMap OpenAiChunk.pieces), e.opening.isSome →
    parse (fragments (entriesOf (carriedPieces chunks)) e.index)
      = parse (fragments (entriesOf (chunks.flatMap OpenAiChunk.pieces)) e.index)

end OpenAi

theorem toolCallEvent_entry {call : Json} {e : Entry} (h : ShowsEntry call e) :
    toolCallEvent call = e.event := by
  rw [toolCallEvent, indexOf, h.index, h.id, h.name, h.arguments, Entry.event, Option.bind_some,
    Json.asNat_num, Option.map_some, UInt32.ofNat_toNat]

variable {c : OpenAiChunk}

theorem parseOpenai_chunk {payload : String} (h : IsChunk parse payload c) :
    parseOpenaiSsePayload parse payload
      = match c.finishReason with
        | some reason => some (.completed (some reason))
        | none => c.carried.bind Piece.event := by
  obtain ⟨hdone, value, hvalue, ⟨choice, rest, delta, hchoices, hdelta, hfinish, hcontent, hcalls⟩⟩ := h
  rw [parseOpenaiSsePayload, if_neg hdone, hvalue, Option.bind_some, hchoices, Option.bind_some, asArray,
    Option.bind_some]
  dsimp only
  rw [choiceEvent, hfinish]
  cases hf : c.finishReason with
  | some reason => rfl
  | none =>
    rw [hdelta, Option.bind_some, Option.bind_some, OpenAiChunk.carried, hf]
    cases ht : c.toolCalls with
    | none =>
      rw [ht] at hcalls
      have hnone : (delta.field "tool_calls").bind asArray = none := hcalls
      rw [hnone, hcontent]
      cases c.content with
      | none => rfl
      | some s => rfl
    | some es =>
      rw [ht] at hcalls
      obtain ⟨items, hitems, hshows⟩ := hcalls
      rw [hitems, Option.bind_some, asArray]
      cases hshows with
      | nil => rfl
      | cons hentry _ => exact congrArg some (toolCallEvent_entry hentry)

/-! ### What is left out of the chunks -/

theorem pieces_perm (c : OpenAiChunk) : c.pieces.Perm (c.carried.toList ++ c.leftOut) := by
  rw [OpenAiChunk.pieces, OpenAiChunk.carried, OpenAiChunk.leftOut]
  cases c.finishReason with
  | some reason => exact .refl _
  | none =>
    cases c.toolCalls with
    | none =>
      simp only [Option.getD_none, map_nil, append_nil]
      exact .refl _
    | some es =>
      cases es with
      | nil => exact .refl _
      | cons e es => exact perm_middle

theorem carriedPieces_cons (c : OpenAiChunk) (chunks : List OpenAiChunk) :
    carriedPieces (c :: chunks) = c.carried.toList ++ carriedPieces chunks := by
  rw [carriedPieces, filterMap_cons]
  cases c.carried with
  | none => rfl
  | some p => rfl

theorem flatMap_pieces_perm (chunks : List OpenAiChunk) :
    (chunks.flatMap OpenAiChunk.pieces).Perm
      (carriedPieces chunks ++ chunks.flatMap OpenAiChunk.leftOut) := by
  induction chunks with
  | nil => exact .refl _
  | cons c chunks ih =>
    rw [flatMap_cons, flatMap_cons, carriedPieces_cons]
    refine ((pieces_perm c).append ih).trans ?_
    rw [append_assoc, append_assoc]
    refine List.Perm.append_left _ ?_
    rw [← append_assoc, ← append_assoc]
    exact List.Perm.append_right _ perm_append_comm

theorem carried_sublist (c : OpenAiChunk) : c.carried.toList.Sublist c.pieces := by
  rw [OpenAiChunk.carried, OpenAiChunk.pieces]
  cases c.finishReason with
  | some reason => exact nil_sublist _
  | none =>
    cases c.toolCalls with
    | none => exact sublist_append_left _ _
    | some es =>
      cases es with
      | nil => exact nil_sublist _
      | cons e es =>
        have hmem : Piece.entry e ∈ (c.content.map Piece.text).toList ++ (e :: es).map Piece.entry :=
          mem_append_right _ mem_cons_self
        exact singleton_sublist.mpr hmem

theorem entries_sublist (chunks : List OpenAiChunk) :
    (entriesOf (carriedPieces chunks)).Sublist
      (entriesOf (chunks.flatMap OpenAiChunk.pieces)) := by
  refine List.Sublist.filterMap _ ?_
  induction chunks with
  | nil => exact List.Sublist.refl _
  | cons c chunks ih =>
    rw [carriedPieces_cons, flatMap_cons]
    exact (carried_sublist c).append ih

def marks (es : List Entry) : List Entry := es.filter (fun e => e.opening.isSome)

/-- The calls, with the arguments that `F` has for their index. -/
def callsWith (F : UInt32 → String) (es : List Entry) : List (String × String × String) :=
  es.filterMap (fun e => e.opening.map (fun o => (o.1, o.2, F e.index)))

theorem callsWith_marks (F : UInt32 → String) (es : List Entry) :
    callsWith F (marks es) = callsWith F es := by
  rw [callsWith, marks, filterMap_filter]
  refine filterMap_congr (fun e _ => ?_)
  cases e.opening with
  | none => rfl
  | some o => rfl

theorem length_callsWith (F : UInt32 → String) (es : List Entry) :
    (callsWith F es).length = (marks es).length := by
  induction es with
  | nil => rfl
  | cons e es ih =>
    rw [callsWith, marks] at *
    cases ho : e.opening with
    | none =>
      rw [filterMap_cons_none (by rw [ho]; rfl), filter_cons_of_neg (by rw [ho]; simp), ih]
    | some o =>
      rw [filterMap_cons_some (by rw [ho]; rfl), filter_cons_of_pos (by rw [ho]; simp),
        length_cons, length_cons, ih]

theorem parse_eq_of_matches {F G : UInt32 → String} {es : List Entry} : ∀ {cs : List IssuedCall},
    List.Forall₂ (Matches parse) (callsWith F es) cs →
    List.Forall₂ (Matches parse) (callsWith G es) cs →
    ∀ e ∈ es, e.opening.isSome → parse (F e.index) = parse (G e.index) := by
  induction es with
  | nil => intro cs _ _ e he; cases he
  | cons e es ih =>
    intro cs hF hG
    rw [callsWith] at hF hG
    cases ho : e.opening with
    | none =>
      rw [filterMap_cons_none (by rw [ho]; rfl)] at hF hG
      refine forall_mem_cons.mpr ⟨fun hsome => ?_, ih hF hG⟩
      rw [ho] at hsome
      cases hsome
    | some o =>
      rw [filterMap_cons_some (by rw [ho]; rfl)] at hF hG
      cases hF with
      | cons hF hFs =>
        cases hG with
        | cons hG hGs =>
          exact forall_mem_cons.mpr ⟨fun _ => hF.arguments.trans hG.arguments.symm, ih hFs hGs⟩

theorem matches_congr {F G : UInt32 → String} {es : List Entry} : ∀ {cs : List IssuedCall},
    List.Forall₂ (Matches parse) (callsWith G es) cs →
    (∀ e ∈ es, e.opening.isSome → parse (F e.index) = parse (G e.index)) →
    List.Forall₂ (Matches parse) (callsWith F es) cs := by
  induction es with
  | nil => exact fun h _ => h
  | cons e es ih =>
    intro cs hG hsame
    obtain ⟨hhead, htail⟩ := forall_mem_cons.mp hsame
    rw [callsWith] at hG ⊢
    cases ho : e.opening with
    | none =>
      rw [filterMap_cons_none (by rw [ho]; rfl)] at hG ⊢
      exact ih hG htail
    | some o =>
      rw [filterMap_cons_some (by rw [ho]; rfl)] at hG ⊢
      cases hG with
      | cons hG hGs =>
        exact .cons ⟨hG.id, hG.name, (hhead (by rw [ho]; rfl)).trans hG.arguments⟩ (ih hGs htail)

/-! ### OpenAI answers -/

theorem length_textOf (ps : List Piece) :
    (textOf ps).length = ((ps.filterMap Piece.text?).map String.length).sum := by
  rw [textOf, String.length_join]

theorem length_text_eq (chunks : List OpenAiChunk) :
    (textOf (chunks.flatMap OpenAiChunk.pieces)).length
      = (textOf (carriedPieces chunks)).length
        + (textOf (chunks.flatMap OpenAiChunk.leftOut)).length := by
  have hperm := ((flatMap_pieces_perm chunks).filterMap Piece.text?).map String.length
  rw [length_textOf, length_textOf, length_textOf, hperm.sum_nat, filterMap_append,
    map_append, sum_append]

theorem length_marks_eq (chunks : List OpenAiChunk) :
    (marks (entriesOf (chunks.flatMap OpenAiChunk.pieces))).length
      = (marks (entriesOf (carriedPieces chunks))).length
        + (marks (entriesOf (chunks.flatMap OpenAiChunk.leftOut))).length := by
  have hperm := ((flatMap_pieces_perm chunks).filterMap Piece.entry?).filter
    (fun e => e.opening.isSome)
  rw [marks, entriesOf, hperm.length_eq, filterMap_append, filter_append, length_append]
  rfl

theorem textOf_append (ps qs : List Piece) : textOf (ps ++ qs) = textOf ps ++ textOf qs := by
  rw [textOf, filterMap_append, String.join_append]
  rfl

theorem textOf_pieces (content : Option String) (es : List Entry) :
    textOf ((content.map Piece.text).toList ++ es.map Piece.entry) = content.getD "" := by
  have hentries : (es.map Piece.entry).filterMap Piece.text? = [] := by
    rw [filterMap_map]
    exact filterMap_eq_nil_iff.mpr (fun _ _ => rfl)
  rw [textOf, filterMap_append, hentries, append_nil]
  cases content with
  | none => rfl
  | some s => exact String.join_cons.trans (String.append_empty)

theorem text_of_leftOut (h : ∀ s, .text s ∈ c.leftOut → s = "") :
    textOf c.carried.toList = textOf c.pieces := by
  have hcontent : (∀ s, c.content = some s → .text s ∈ c.leftOut) → c.content.getD "" = "" := by
    intro hmem
    cases hs : c.content with
    | none => rfl
    | some s => exact h s (hmem s hs)
  rw [OpenAiChunk.pieces, textOf_pieces, OpenAiChunk.carried]
  cases hf : c.finishReason with
  | some reason =>
    refine (hcontent (fun s hs => ?_)).symm
    rw [OpenAiChunk.leftOut, hf, OpenAiChunk.pieces, hs]
    exact mem_append_left _ mem_cons_self
  | none =>
    cases ht : c.toolCalls with
    | none =>
      have hpieces := textOf_pieces c.content []
      rw [map_nil, append_nil] at hpieces
      exact hpieces
    | some es =>
      have hempty := hcontent (fun s hs => by
        rw [OpenAiChunk.leftOut, hf, ht, hs]
        exact mem_append_left _ mem_cons_self)
      rw [hempty]
      cases es with
      | nil => rfl
      | cons e es => rfl

variable {chunks : List OpenAiChunk}

theorem text_of_whole (h : ∀ c ∈ chunks, ∀ s, .text s ∈ c.leftOut → s = "") :
    textOf (carriedPieces chunks) = textOf (chunks.flatMap OpenAiChunk.pieces) := by
  induction chunks with
  | nil => rfl
  | cons c chunks ih =>
    obtain ⟨hc, hchunks⟩ := forall_mem_cons.mp h
    rw [carriedPieces_cons, flatMap_cons, textOf_append, textOf_append, text_of_leftOut hc,
      ih hchunks]

theorem leftOut_text
    (h : textOf (carriedPieces chunks) = textOf (chunks.flatMap OpenAiChunk.pieces)) :
    ∀ c ∈ chunks, ∀ s, .text s ∈ c.leftOut → s = "" := by
  intro c hc s hs
  have hlength := length_text_eq chunks
  rw [h, length_textOf (chunks.flatMap OpenAiChunk.leftOut)] at hlength
  have hzero := List.sum_eq_zero_iff_forall_eq_nat.mp (Nat.left_eq_add.mp hlength)
  have hlen := hzero s.length (mem_map_of_mem (mem_filterMap.mpr
    ⟨.text s, mem_flatMap.mpr ⟨c, hc, hs⟩, rfl⟩))
  exact String.length_eq_zero_iff.mp hlen

theorem marks_of_length (h : marks (entriesOf (chunks.flatMap OpenAiChunk.leftOut)) = []) :
    marks (entriesOf (carriedPieces chunks))
      = marks (entriesOf (chunks.flatMap OpenAiChunk.pieces)) := by
  refine ((entries_sublist chunks).filter _).eq_of_length ?_
  have hlength := length_marks_eq chunks
  rw [h] at hlength
  exact hlength.symm

theorem leftOut_openings : marks (entriesOf (chunks.flatMap OpenAiChunk.leftOut)) = []
      ↔ ∀ c ∈ chunks, ∀ e, .entry e ∈ c.leftOut → e.opening = none := by
  rw [marks, filter_eq_nil_iff]
  constructor
  · intro h c hc e he
    have hnot := h e (mem_filterMap.mpr ⟨.entry e, mem_flatMap.mpr ⟨c, hc, he⟩, rfl⟩)
    exact Option.not_isSome_iff_eq_none.mp hnot
  · intro h e he
    obtain ⟨p, hp, hpe⟩ := mem_filterMap.mp he
    obtain ⟨c, hc, hmem⟩ := mem_flatMap.mp hp
    cases p with
    | text s => cases hpe
    | entry e' =>
      rw [Option.some.inj hpe] at hmem
      rw [h c hc e hmem]
      exact Bool.false_ne_true

theorem matches_of_streamed (h : Streamed (IsText parse) turn ps) :
    List.Forall₂ (Matches parse) (opened (entriesOf ps)) turn.calls :=
  h.calls.imp (fun _ _ hrc => ⟨hrc.1, hrc.2.1, hrc.2.2⟩)

theorem carried_iff_whole (h : Streamed (IsText parse) turn (chunks.flatMap OpenAiChunk.pieces)) :
    (textOf (carriedPieces chunks) = turn.text
      ∧ List.Forall₂ (Matches parse) (opened (entriesOf (carriedPieces chunks))) turn.calls)
      ↔ Whole parse chunks := by
  have hall := matches_of_streamed h
  rw [← h.text]
  constructor
  · rintro ⟨htext, hcalls⟩
    have hmarks : marks (entriesOf (chunks.flatMap OpenAiChunk.leftOut)) = [] := by
      have hread := hcalls.length_eq
      have hwhole := hall.length_eq
      rw [opened, ← callsWith, length_callsWith] at hread hwhole
      have hlength := length_marks_eq chunks
      exact eq_nil_of_length_eq_zero (by omega)
    refine ⟨leftOut_text htext, leftOut_openings.mp hmarks, ?_⟩
    rw [opened, ← callsWith, ← callsWith_marks, marks_of_length hmarks, callsWith_marks] at hcalls
    exact parse_eq_of_matches hcalls hall
  · intro hwhole
    refine ⟨text_of_whole hwhole.text, ?_⟩
    have hmarks := leftOut_openings.mpr hwhole.openings
    rw [opened, ← callsWith, ← callsWith_marks, marks_of_length hmarks, callsWith_marks]
    exact matches_congr hall hwhole.arguments

/-- The events of the chunks, up to the first `Completed`. -/
theorem events_of_chunks {texts : List String}
    (h : List.Forall₂ (IsChunk parse) texts chunks) (hopen : ∀ c ∈ chunks, c.finishReason = none) :
    texts.filterMap (parseOpenaiSsePayload parse) = (carriedPieces chunks).filterMap Piece.event := by
  rw [carriedPieces, filterMap_filterMap]
  induction h with
  | nil => rfl
  | @cons text c texts chunks hc _ ih =>
    obtain ⟨hnone, hrest⟩ := forall_mem_cons.mp hopen
    rw [filterMap_cons, filterMap_cons, ih hrest, parseOpenai_chunk hc, hnone]

/-- **An answer that OpenAI streams comes through exactly if what its chunks leave out makes no
difference.** -/
theorem openai_yields_iff {last : OpenAiChunk} {payloads : List String}
    (h : OpenAiStream parse turn chunks last payloads) :
    Yields parse turn (receiveOpenai parse payloads) ↔ Whole parse (chunks ++ [last]) := by
  obtain ⟨texts, trailing, rfl, htexts⟩ := h.payloads
  have hinit := List.forall₂_take_append texts chunks [last] htexts
  have hdrop := List.forall₂_drop_append texts chunks [last] htexts
  obtain ⟨reason, hreason⟩ := Option.isSome_iff_exists.mp h.ends
  have hlast : (texts.drop chunks.length).filterMap (parseOpenaiSsePayload parse)
      = [StreamEvent.completed (some reason)] := by
    generalize texts.drop chunks.length = dropped at hdrop
    cases hdrop with
    | @cons text _ _ _ hc hnil =>
      cases hnil
      have hevent : parseOpenaiSsePayload parse text = some (.completed (some reason)) := by
        rw [parseOpenai_chunk hc, hreason]
      rw [filterMap_cons_some hevent, filterMap_nil]
  have hcarried : carriedPieces (chunks ++ [last]) = carriedPieces chunks := by
    have hnone : last.carried = none := by
      rw [OpenAiChunk.carried, hreason]
    rw [carriedPieces, filterMap_append, filterMap_cons_none hnone, filterMap_nil, append_nil]
    rfl
  have hnumbered := h.streamed.numbered.sublist (entries_sublist _)
  rw [← carried_iff_whole h.streamed, receiveOpenai, filterMap_append,
    ← take_append_drop chunks.length texts, filterMap_append,
    events_of_chunks hinit h.goesOn, hlast, append_assoc, ← hcarried]
  exact yields_iff hnumbered _ _

/-! ### Anthropic events -/

/-- An event before the end of the message: most hold nothing of the answer. -/
inductive AnthropicEvent where
  | silent
  | text (s : String)
  | toolUse (index : UInt32) (id name : String)
  | inputJson (index : UInt32) (fragment : String)

def AnthropicEvent.piece : AnthropicEvent → Option Piece
  | .silent => none
  | .text s => some (.text s)
  | .toolUse index id name => some (.entry ⟨index, some (id, name), ""⟩)
  | .inputJson index fragment => some (.entry ⟨index, none, fragment⟩)

/-- The kinds of events that hold something of an answer, or end it. -/
def spokenKinds : List String :=
  ["content_block_delta", "content_block_start", "message_delta", "message_stop"]

/-- The event, as JSON.  A `tool_use` block starts with an empty input. -/
def ShowsEvent (value : Json) : AnthropicEvent → Prop
  | .silent => (∃ kind, textField "type" value = some kind ∧ kind ∉ spokenKinds)
      ∨ textField "type" value = some "content_block_start" ∧ ∃ block,
        value.field "content_block" = some block ∧ textField "type" block = some "text"
  | .text s => textField "type" value = some "content_block_delta" ∧ ∃ delta,
      value.field "delta" = some delta ∧ textField "type" delta = some "text_delta"
        ∧ textField "text" delta = some s
  | .toolUse index id name => textField "type" value = some "content_block_start"
      ∧ value.field "index" = some (.num index.toNat) ∧ ∃ block,
        value.field "content_block" = some block ∧ textField "type" block = some "tool_use"
          ∧ textField "id" block = some id ∧ textField "name" block = some name
          ∧ block.field "input" = some (.obj [])
  | .inputJson index fragment => textField "type" value = some "content_block_delta"
      ∧ value.field "index" = some (.num index.toNat) ∧ ∃ delta,
        value.field "delta" = some delta ∧ textField "type" delta = some "input_json_delta"
          ∧ textField "partial_json" delta = some fragment

section Anthropic

variable (parse : String → Option Json)

def IsEvent (payload : String) (e : AnthropicEvent) : Prop :=
  ∃ value, parse payload = some value ∧ ShowsEvent value e

/-- The fragments are a text of the arguments; for empty arguments there may be none. -/
def IsInput (text : String) (c : IssuedCall) : Prop :=
  parse text = some (.obj c.arguments) ∨ text = "" ∧ c.arguments = []

/-- The answer as Anthropic streams it: `message_delta` ends it, and anything may come after. -/
structure AnthropicStream (turn : AssistantTurn) (events : List AnthropicEvent)
    (payloads : List String) : Prop where
  payloads : ∃ texts last trailing value, payloads = texts ++ last :: trailing
    ∧ List.Forall₂ (IsEvent parse) texts events ∧ parse last = some value
    ∧ textField "type" value = some "message_delta"
  streamed : Streamed (IsInput parse) turn (events.filterMap AnthropicEvent.piece)

def receiveAnthropic (payloads : List String) : List StreamEvent :=
  ToolCallAssembler.new.feedAll (payloads.filterMap (parseAnthropicSsePayload parse))

end Anthropic

/-- Every call comes with some text of its arguments. -/
def Spelled (events : List AnthropicEvent) : Prop :=
  ∀ r ∈ opened (entriesOf (events.filterMap AnthropicEvent.piece)), r.2.2 ≠ ""

theorem parseAnthropic_event {payload : String} {e : AnthropicEvent} (h : IsEvent parse payload e) :
    parseAnthropicSsePayload parse payload = e.piece.bind Piece.event := by
  obtain ⟨value, hvalue, hshows⟩ := h
  rw [parseAnthropicSsePayload, hvalue, Option.bind_some]
  cases e with
  | silent =>
    rcases hshows with ⟨kind, hkind, hother⟩ | ⟨hkind, block, hblock, htype⟩
    · rw [hkind]
      simp only [spokenKinds, mem_cons, not_mem_nil, or_false, not_or] at hother
      obtain ⟨h1, h2, h3, h4⟩ := hother
      split
      · simp_all
      · simp_all
      · simp_all
      · simp_all
      · rfl
    · rw [hkind]
      show contentBlockStart value = none
      rw [contentBlockStart, hblock, Option.bind_some, htype, if_neg (by decide)]
  | text s =>
    obtain ⟨hkind, delta, hdelta, htype, htext⟩ := hshows
    rw [hkind]
    rw [contentBlockDelta, hdelta, Option.bind_some, htype, if_neg (by decide), htext]
    rfl
  | toolUse index id name =>
    obtain ⟨hkind, hindex, block, hblock, htype, hid, hname, hinput⟩ := hshows
    rw [hkind]
    rw [contentBlockStart, hblock, Option.bind_some, htype, if_pos rfl, hid, Option.bind_some, hname,
      hinput, indexOf, hindex, Option.bind_some, Json.asNat_num, Option.map_some, Option.map_some,
      UInt32.ofNat_toNat]
    rfl
  | inputJson index fragment =>
    obtain ⟨hkind, hindex, delta, hdelta, htype, htext⟩ := hshows
    rw [hkind]
    rw [contentBlockDelta, hdelta, Option.bind_some, htype, if_pos rfl, htext, indexOf, hindex,
      Option.bind_some, Json.asNat_num, Option.map_some, UInt32.ofNat_toNat]
    rfl

theorem events_of_events {texts : List String} {events : List AnthropicEvent}
    (h : List.Forall₂ (IsEvent parse) texts events) :
    texts.filterMap (parseAnthropicSsePayload parse)
      = (events.filterMap AnthropicEvent.piece).filterMap Piece.event := by
  rw [filterMap_filterMap]
  induction h with
  | nil => rfl
  | cons he _ ih => rw [filterMap_cons, filterMap_cons, ih, parseAnthropic_event he]

theorem matches_iff_spelled (hempty : parse "" = none) {rs : List (String × String × String)}
    {cs : List IssuedCall}
    (h : List.Forall₂ (fun r c => r.1 = c.id ∧ r.2.1 = c.name ∧ IsInput parse r.2.2 c) rs cs) :
    List.Forall₂ (Matches parse) rs cs ↔ ∀ r ∈ rs, r.2.2 ≠ "" := by
  induction h with
  | nil => exact ⟨fun _ r hr => (by cases hr), fun _ => .nil⟩
  | @cons r c rs cs hrc _ ih =>
    obtain ⟨hid, hname, hinput⟩ := hrc
    rw [List.forall₂_cons, forall_mem_cons, ih]
    refine and_congr_left (fun _ => ⟨fun hm hnil => ?_, fun hne => ⟨hid, hname, ?_⟩⟩)
    · have hargs := hm.arguments
      rw [hnil, hempty] at hargs
      cases hargs
    · exact hinput.resolve_right (fun hnone => hne hnone.1)

/-- **An answer that Anthropic streams comes through exactly if all its arguments are spelled
out.** -/
theorem anthropic_yields_iff (hempty : parse "" = none) {events : List AnthropicEvent}
    {payloads : List String} (h : AnthropicStream parse turn events payloads) :
    Yields parse turn (receiveAnthropic parse payloads) ↔ Spelled events := by
  obtain ⟨texts, last, trailing, value, rfl, htexts, hvalue, hkind⟩ := h.payloads
  have hlast : parseAnthropicSsePayload parse last
      = some (.completed ((value.field "delta").bind (textField "stop_reason"))) := by
    rw [parseAnthropicSsePayload, hvalue, Option.bind_some, hkind]
    rfl
  rw [receiveAnthropic, filterMap_append, events_of_events htexts,
    filterMap_cons_some hlast, yields_iff h.streamed.numbered]
  rw [and_iff_right h.streamed.text]
  exact matches_iff_spelled hempty h.streamed.calls

/-! ### Both -/

/-- **When an answer comes through.**  Of OpenAI's chunks, what is left out makes no difference; of
Anthropic's calls, none comes without a text of its arguments. -/
theorem answers_yield_iff (parse : String → Option Json) (hempty : parse "" = none)
    (turn : AssistantTurn) :
    (∀ chunks last payloads, OpenAiStream parse turn chunks last payloads →
      (Yields parse turn (receiveOpenai parse payloads) ↔ Whole parse (chunks ++ [last])))
    ∧ (∀ events payloads, AnthropicStream parse turn events payloads →
      (Yields parse turn (receiveAnthropic parse payloads) ↔ Spelled events)) :=
  ⟨fun _ _ _ h => openai_yields_iff h, fun _ _ h => anthropic_yields_iff hempty h⟩

/-! ### Samples -/

def readerOf (values : List Json) (s : String) : Option Json := values.find? (fun j => j.render = s)

theorem readerOf_render (before : List Json) (j : Json) (after : List Json)
    (h : ∀ v ∈ before, v.render ≠ j.render) : readerOf (before ++ j :: after) j.render = some j := by
  have hnone : before.find? (fun v => decide (v.render = j.render)) = none :=
    find?_eq_none.mpr (fun v hv => by simpa using h v hv)
  rw [readerOf, find?_append, hnone, Option.none_or]
  simp

def chunkJson (delta : List (String × Json)) (finishReason : Json) : Json :=
  .obj [("choices", .arr [.obj [("delta", .obj delta), ("finish_reason", finishReason)]])]

def callTurn : AssistantTurn := ⟨"hi", [⟨"a", "ls", []⟩], by decide, by decide⟩

def entryJson (opening : List (String × Json)) (functionFields : List (String × Json)) : Json :=
  .obj ([("index", .num 0)] ++ opening ++ [("function", .obj functionFields)])

/-- The text, the call in two fragments, and the end. -/
def cutChunks : List OpenAiChunk :=
  [⟨some "hi", none, none⟩, ⟨none, some [⟨0, some ("a", "ls"), "\x7b"⟩], none⟩,
    ⟨none, some [⟨0, none, "\x7d"⟩], none⟩]

def endChunk : OpenAiChunk := ⟨none, none, some "tool_calls"⟩

def textJson : Json := chunkJson [("content", .str "hi")] .null

def openJson : Json :=
  chunkJson [("tool_calls", .arr [entryJson [("id", .str "a")]
    [("name", .str "ls"), ("arguments", .str "\x7b")]])] .null

def closeJson : Json :=
  chunkJson [("tool_calls", .arr [entryJson [] [("arguments", .str "\x7d")]])] .null

def endJson : Json := chunkJson [] (.str "tool_calls")

def cutJson : List Json := [textJson, openJson, closeJson, endJson]

def cutParse : String → Option Json := readerOf (.obj [] :: cutJson)

theorem cut_streamed : Streamed (IsText cutParse) callTurn
    ((cutChunks ++ [endChunk]).flatMap OpenAiChunk.pieces) := by
  refine ⟨by decide, by decide, ?_⟩
  have hopened : opened (entriesOf ((cutChunks ++ [endChunk]).flatMap OpenAiChunk.pieces))
      = [("a", "ls", "\x7b\x7d")] := by decide +kernel
  rw [hopened]
  exact .cons ⟨rfl, rfl, by rfl⟩ .nil

theorem shows_chunkJson {delta : List (String × Json)} {finishReason : Json}
    (hfinish : finishReason.asStr = c.finishReason)
    (hcontent : textField "content" (.obj delta) = c.content)
    (hcalls : ShowsToolCalls (.obj delta) c.toolCalls) : ShowsChunk (chunkJson delta finishReason) c :=
  ⟨_, _, _, rfl, rfl, hfinish, hcontent, hcalls⟩

theorem isChunk_of_json (before : List Json) (j : Json) (after : List Json)
    (h : ∀ v ∈ before, v.render ≠ j.render) (htrim : Text.trim j.render = j.render)
    (hdone : j.render ≠ "[DONE]") (hshows : ShowsChunk j c) :
    IsChunk (readerOf (before ++ j :: after)) j.render c := by
  rw [IsChunk, htrim]
  exact ⟨hdone, j, readerOf_render before j after h, hshows⟩

theorem cut_chunks : List.Forall₂ (IsChunk cutParse)
    [textJson.render, openJson.render, closeJson.render, endJson.render] (cutChunks ++ [endChunk]) := by
  have htext : IsChunk cutParse textJson.render ⟨some "hi", none, none⟩ :=
    isChunk_of_json [.obj []] textJson [openJson, closeJson, endJson] (by decide +kernel)
      (by decide +kernel) (by decide +kernel) (shows_chunkJson rfl rfl rfl)
  have hopen : IsChunk cutParse openJson.render ⟨none, some [⟨0, some ("a", "ls"), "\x7b"⟩], none⟩ :=
    isChunk_of_json [.obj [], textJson] openJson [closeJson, endJson] (by decide +kernel)
      (by decide +kernel) (by decide +kernel)
      (shows_chunkJson rfl rfl ⟨_, rfl, .cons ⟨rfl, rfl, rfl, rfl⟩ .nil⟩)
  have hclose : IsChunk cutParse closeJson.render ⟨none, some [⟨0, none, "\x7d"⟩], none⟩ :=
    isChunk_of_json [.obj [], textJson, openJson] closeJson [endJson] (by decide +kernel)
      (by decide +kernel) (by decide +kernel)
      (shows_chunkJson rfl rfl ⟨_, rfl, .cons ⟨rfl, rfl, rfl, rfl⟩ .nil⟩)
  have hend : IsChunk cutParse endJson.render endChunk :=
    isChunk_of_json [.obj [], textJson, openJson, closeJson] endJson [] (by decide +kernel)
      (by decide +kernel) (by decide +kernel) (shows_chunkJson rfl rfl rfl)
  exact .cons htext (.cons hopen (.cons hclose (.cons hend .nil)))

theorem cut_stream : OpenAiStream cutParse callTurn cutChunks endChunk (cutJson.map Json.render) :=
  ⟨⟨_, [], (append_nil _).symm, cut_chunks⟩, by decide, rfl, cut_streamed⟩

theorem answers_yield_iff_cut : OpenAiStream cutParse callTurn cutChunks endChunk (cutJson.map Json.render)
    ∧ Yields cutParse callTurn (receiveOpenai cutParse (cutJson.map Json.render)) := by
  refine ⟨cut_stream, ((answers_yield_iff cutParse (by rfl) callTurn).1 _ _ _ cut_stream).mpr ?_⟩
  refine ⟨?_, ?_, ?_⟩
  · intro c hc s hs
    simp only [cutChunks, endChunk, cons_append, nil_append, mem_cons, not_mem_nil, or_false] at hc
    rcases hc with rfl | rfl | rfl | rfl <;> cases hs
  · intro c hc e he
    simp only [cutChunks, endChunk, cons_append, nil_append, mem_cons, not_mem_nil, or_false] at hc
    rcases hc with rfl | rfl | rfl | rfl <;> cases he
  · exact fun e _ _ => rfl

/-- The text stands beside the `finish_reason`. -/
def lateChunk : OpenAiChunk := ⟨some "hi", none, some "stop"⟩

def lateJson : Json := chunkJson [("content", .str "hi")] (.str "stop")

def textTurn : AssistantTurn := ⟨"hi", [], by decide, by decide⟩

def bareTurn : AssistantTurn := ⟨"", [⟨"a", "ls", []⟩], by decide, by decide⟩

def bareJson : List Json :=
  [.obj [("type", .str "content_block_start"), ("index", .num 0), ("content_block",
      .obj [("type", .str "tool_use"), ("id", .str "a"), ("name", .str "ls"), ("input", .obj [])])],
    .obj [("type", .str "message_delta"), ("delta", .obj [("stop_reason", .str "tool_use")])]]

/-- **An answer may not come through**: a text beside a `finish_reason` is lost, and a call without
arguments is given out without any. -/
theorem answers_lost :
    (OpenAiStream (readerOf [lateJson]) textTurn [] lateChunk [lateJson.render]
      ∧ ¬ Yields (readerOf [lateJson]) textTurn (receiveOpenai (readerOf [lateJson]) [lateJson.render]))
    ∧ (AnthropicStream (readerOf bareJson) bareTurn [.toolUse 0 "a" "ls"] (bareJson.map Json.render)
      ∧ ¬ Yields (readerOf bareJson) bareTurn
        (receiveAnthropic (readerOf bareJson) (bareJson.map Json.render))) := by
  have hlate : OpenAiStream (readerOf [lateJson]) textTurn [] lateChunk [lateJson.render] := by
    refine ⟨⟨_, [], (append_nil _).symm, .cons ?_ .nil⟩, by decide, rfl, by decide, by decide, .nil⟩
    have hshows : ShowsChunk lateJson lateChunk := shows_chunkJson rfl rfl rfl
    exact isChunk_of_json [] lateJson [] (by decide) (by decide +kernel) (by decide +kernel) hshows
  have hbare : AnthropicStream (readerOf bareJson) bareTurn [.toolUse 0 "a" "ls"]
      (bareJson.map Json.render) := by
    refine ⟨⟨[_], _, [], _, rfl, .cons ?_ .nil, by rfl, rfl⟩, by decide, by decide, ?_⟩
    · exact ⟨_, by rfl, rfl, rfl, _, rfl, rfl, rfl, rfl, rfl⟩
    · exact .cons ⟨rfl, rfl, .inr ⟨rfl, rfl⟩⟩ .nil
  refine ⟨⟨hlate, fun h => ?_⟩, hbare, fun h => ?_⟩
  · have hwhole := (openai_yields_iff hlate).mp h
    exact absurd (hwhole.text lateChunk mem_cons_self "hi" mem_cons_self) (by decide)
  · have hspelled := (anthropic_yields_iff (by rfl) hbare).mp h
    exact hspelled ("a", "ls", "") mem_cons_self rfl

end Providers

end Modbit
