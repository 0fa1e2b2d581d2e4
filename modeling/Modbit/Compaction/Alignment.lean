import Modbit.Compaction.Stages
import Modbit.Lib.Splice
import Mathlib.Data.List.Nodup

/-!
# What a plan comes to

`expected` is the conversation a list of actions asks for, every index read in the
conversation planned for.  The runtime applies the actions from the last to the first.
That keeps the indices of the blocks good, but the truncations of the first stage come
last, when the summaries have already moved what is behind them.

`applied_meets_iff` says for which conversations and budgets the runtime still gets what
the plan asks for: those that are `Aligned`.
-/

namespace Modbit

open Lib List

namespace Compaction

/-! ### What the actions ask for -/

def CompactionAction.truncationOf (i : Nat) : CompactionAction → Option Chars
  | .truncateToolResult index replacement => if index = i then some replacement else none
  | .summarizeBlock .. => none

def CompactionAction.summaryAt (i : Nat) : CompactionAction → Option Chars
  | .truncateToolResult .. => none
  | .summarizeBlock start _ replacement => if start = i then some replacement else none

def CompactionAction.inside (i : Nat) : CompactionAction → Bool
  | .truncateToolResult .. => false
  | .summarizeBlock start stop _ => start < i && i < stop

/-- A message with the truncation planned for its index. -/
def truncatedBy (actions : List CompactionAction) (i : Nat) (m : ChatMessage) : ChatMessage :=
  match actions.findSome? (CompactionAction.truncationOf i) with
  | some replacement => { m with content := replacement }
  | none => m

/-- The conversation the actions ask for: of a summarised range only the summary is left,
in the place of its first message, and every other message has its own truncation or is
as it was. -/
def expected (conversation : List ChatMessage) (actions : List CompactionAction) :
    List ChatMessage :=
  (conversation.zipIdx.filter (fun e => ¬ actions.any (CompactionAction.inside e.2))).map
    (fun e => match actions.findSome? (CompactionAction.summaryAt e.2) with
      | some summary => ChatMessage.user summary
      | none => truncatedBy actions e.2 e.1)

def tokensOf (conversation : List ChatMessage) : Nat :=
  (conversation.map (fun m => estimateTokens m.content)).sum

/-- What a plan promises of the conversation it is applied to. -/
structure Meets (conversation : List ChatMessage) (plan : CompactionPlan) : Prop where
  applied : applyActions conversation plan.actions = expected conversation plan.actions
  projected : tokensOf (applyActions conversation plan.actions) = plan.projectedTokens
  smaller : plan.projectedTokens < tokensOf conversation

/-! ### The condition -/

section Condition

variable (items : List ConversationItem) (budget : Nat)

/-- The items that are in no summary, or are the first of one, with their indices. -/
def survivors : List (ConversationItem × Nat) :=
  items.zipIdx.filter
    (fun e => ¬ Inside (blockEnd items) (summarisedBlocks items budget) e.2)

/-- The text of an item before the old truncations are applied. -/
def lateText (e : ConversationItem × Nat) : Chars :=
  if e.2 ∈ truncatedRecent items budget then shrunk items e.2 else e.1.text

/-- Its text once they are, where the truncation of index `i` is the one that falls on it. -/
def carried (i : Nat) (e : ConversationItem × Nat) : Chars :=
  if i ∈ truncatedOld items budget then shrunk items i else lateText items budget e

/-- Every tool result that survives the summaries is moved by them to an index whose
truncation, if it has one, leaves it the text of its own. -/
def Aligned : Prop :=
  ∀ e ∈ (survivors items budget).zipIdx, e.1.1.kind = .toolResult →
    carried items budget e.2 e.1 = carried items budget e.1.2 e.1

instance : Decidable (Aligned items budget) :=
  inferInstanceAs (Decidable (∀ e ∈ (survivors items budget).zipIdx, _))

end Condition

/-! ### The actions of a plan -/

section Planned

variable {items : List ConversationItem} {budget i : Nat}

def planned (items : List ConversationItem) (budget : Nat) : List CompactionAction :=
  (truncatedOld items budget).map (truncation items)
    ++ (summarisedBlocks items budget).map (summarisation items budget)
    ++ (truncatedRecent items budget).map (truncation items)

theorem findSome?_map_at {β : Type} {f : Nat → CompactionAction}
    {pick : CompactionAction → Option β} {v : β}
    (h : ∀ j, pick (f j) = if j = i then some v else none) (l : List Nat) :
    (l.map f).findSome? pick = if i ∈ l then some v else none := by
  induction l with
  | nil => rfl
  | cons j l ih =>
    rw [map_cons, findSome?_cons, h]
    by_cases hj : j = i
    · rw [if_pos hj, if_pos (hj ▸ mem_cons_self)]
    · rw [if_neg hj, ih]
      simp [Ne.symm hj]

theorem truncationOf_truncations (l : List Nat) :
    (l.map (truncation items)).findSome? (CompactionAction.truncationOf i)
      = if i ∈ l then some (shrunk items i) else none := by
  refine findSome?_map_at (fun j => ?_) l
  rw [truncation, CompactionAction.truncationOf]
  split_ifs with hj
  · rw [hj]
  · rfl

theorem truncationOf_summaries (l : List Nat) :
    (l.map (summarisation items budget)).findSome? (CompactionAction.truncationOf i) = none := by
  rw [findSome?_eq_none_iff]
  intro a ha
  obtain ⟨s, -, rfl⟩ := mem_map.mp ha
  rfl

theorem summaryAt_truncations (l : List Nat) :
    (l.map (truncation items)).findSome? (CompactionAction.summaryAt i) = none := by
  rw [findSome?_eq_none_iff]
  intro a ha
  obtain ⟨s, -, rfl⟩ := mem_map.mp ha
  rfl

theorem summaryAt_summaries (l : List Nat) :
    (l.map (summarisation items budget)).findSome? (CompactionAction.summaryAt i)
      = if i ∈ l then some (summaryOf items budget i) else none := by
  refine findSome?_map_at (fun j => ?_) l
  rw [summarisation, CompactionAction.summaryAt]
  split_ifs with hj
  · rw [hj]
  · rfl

theorem truncationOf_planned :
    (planned items budget).findSome? (CompactionAction.truncationOf i)
      = if i ∈ truncatedOld items budget ∨ i ∈ truncatedRecent items budget
        then some (shrunk items i) else none := by
  rw [planned, findSome?_append, findSome?_append, truncationOf_truncations,
    truncationOf_summaries, truncationOf_truncations]
  by_cases hold : i ∈ truncatedOld items budget
  · simp [hold]
  · simp [hold]

theorem summaryAt_planned :
    (planned items budget).findSome? (CompactionAction.summaryAt i)
      = if i ∈ summarisedBlocks items budget then some (summaryOf items budget i) else none := by
  rw [planned, findSome?_append, findSome?_append, summaryAt_truncations,
    summaryAt_summaries, summaryAt_truncations, Option.none_or, Option.or_none]

theorem inside_planned :
    (planned items budget).any (CompactionAction.inside i) = true
      ↔ Inside (blockEnd items) (summarisedBlocks items budget) i := by
  rw [planned, any_append, any_append]
  have htruncations : ∀ l : List Nat,
      (l.map (truncation items)).any (CompactionAction.inside i) = false := by
    intro l
    rw [any_eq_false]
    intro a ha
    obtain ⟨j, -, rfl⟩ := mem_map.mp ha
    exact Bool.false_ne_true
  rw [htruncations, htruncations, Bool.false_or, Bool.or_false, any_map, any_eq_true, Inside]
  refine exists_congr (fun s => and_congr_right (fun _ => ?_))
  show (decide (s < i) && decide (i < blockEnd items s)) = true ↔ _
  rw [Bool.and_eq_true, decide_eq_true_eq, decide_eq_true_eq]

end Planned

/-! ### What is left of a conversation -/

section Applied

variable (conversation : List ChatMessage) (budget : Nat)

def ChatMessage.withText (m : ChatMessage) (text : Chars) : ChatMessage := { m with content := text }

/-- The messages in no summary, or first in one, with their indices. -/
def remaining : List (ChatMessage × Nat) :=
  conversation.zipIdx.filter (fun e => ¬ Inside (blockEnd (conversation.map itemOf))
    (summarisedBlocks (conversation.map itemOf) budget) e.2)

def finished (e : ChatMessage × Nat) : ChatMessage :=
  if e.2 ∈ summarisedBlocks (conversation.map itemOf) budget then
    ChatMessage.user (summaryOf (conversation.map itemOf) budget e.2)
  else if e.2 ∈ truncatedOld (conversation.map itemOf) budget
      ∨ e.2 ∈ truncatedRecent (conversation.map itemOf) budget then
    e.1.withText (shrunk (conversation.map itemOf) e.2)
  else e.1

def shrinkMessage (i : Nat) (m : ChatMessage) : ChatMessage :=
  if m.role = .tool then m.withText (shrunk (conversation.map itemOf) i) else m

/-- What the summaries and the late truncations leave of a remaining message. -/
def late (e : ChatMessage × Nat) : ChatMessage :=
  if e.2 ∈ summarisedBlocks (conversation.map itemOf) budget then
    ChatMessage.user (summaryOf (conversation.map itemOf) budget e.2)
  else if e.2 ∈ truncatedRecent (conversation.map itemOf) budget then
    shrinkMessage conversation e.2 e.1
  else e.1

variable {conversation budget}

theorem expected_planned :
    expected conversation (planned (conversation.map itemOf) budget)
      = (remaining conversation budget).map (finished conversation budget) := by
  have hfilter : conversation.zipIdx.filter (fun e => ¬ (planned (conversation.map itemOf)
      budget).any (CompactionAction.inside e.2)) = remaining conversation budget :=
    filter_congr (fun e _ => decide_eq_decide.mpr (not_congr inside_planned))
  rw [expected, hfilter]
  refine map_congr_left (fun e _ => ?_)
  rw [summaryAt_planned, truncatedBy, truncationOf_planned, finished]
  split_ifs
  · rfl
  · rfl
  · rfl
  · rfl

theorem shrinkMessage_idem (i : Nat) (m : ChatMessage) :
    shrinkMessage conversation i (shrinkMessage conversation i m)
      = shrinkMessage conversation i m := by
  by_cases hrole : m.role = .tool
  · simp [shrinkMessage, ChatMessage.withText, hrole]
  · simp [shrinkMessage, hrole]

theorem foldr_truncations (l : List Nat) (messages : List ChatMessage) :
    (l.map (truncation (conversation.map itemOf))).foldr (fun a c => applyAction c a) messages
      = messages.mapIdx (fun i m => if i ∈ l then shrinkMessage conversation i m else m) := by
  rw [foldr_map]
  exact foldr_modify (shrinkMessage conversation) shrinkMessage_idem l messages

theorem foldr_summaries {messages : List ChatMessage}
    (hlen : messages.length = conversation.length) :
    ((summarisedBlocks (conversation.map itemOf) budget).map
        (summarisation (conversation.map itemOf) budget)).foldr
        (fun a c => applyAction c a) messages
      = collapse (blockEnd (conversation.map itemOf))
          (summarisedBlocks (conversation.map itemOf) budget)
          (fun s => ChatMessage.user (summaryOf (conversation.map itemOf) budget s))
          messages.zipIdx := by
  rw [foldr_map]
  refine foldr_splice _ _ messages _ summarisedBlocks_apart (fun s hs => ⟨lt_blockEnd, ?_⟩)
  have hlt := lt_length_of_kindAt (mem_summarisedBlocks hs).1
  have hle := blockEnd_le_length hlt
  rw [length_map] at hle
  rw [hlen]
  exact hle

theorem zipIdx_mapIdx {α β : Type} (f : Nat → α → β) (l : List α) :
    (l.mapIdx f).zipIdx = l.zipIdx.map (fun e => (f e.2 e.1, e.2)) := by
  refine ext_getElem? (fun j => ?_)
  rw [getElem?_zipIdx, getElem?_mapIdx, getElem?_map, getElem?_zipIdx]
  cases l[j]? with
  | none => rfl
  | some a => simp

/-- **What the runtime makes of a plan.** -/
theorem applyActions_planned :
    applyActions conversation (planned (conversation.map itemOf) budget)
      = ((remaining conversation budget).map (late conversation budget)).mapIdx
        (fun i m => if i ∈ truncatedOld (conversation.map itemOf) budget
          then shrinkMessage conversation i m else m) := by
  rw [applyActions, foldl_reverse, planned, foldr_append, foldr_append,
    foldr_truncations, foldr_truncations, foldr_summaries (length_mapIdx)]
  congr 1
  rw [collapse, zipIdx_mapIdx, filter_map, map_map]
  refine map_congr_left (fun e _ => ?_)
  show (if e.2 ∈ _ then _ else _) = _
  rw [late]

theorem mapIdx_eq_map_iff {α β : Type} (g : Nat → β → β) (c x : α → β) (l : List α) :
    (l.map c).mapIdx g = l.map x ↔ ∀ e ∈ l.zipIdx, g e.2 (c e.1) = x e.1 := by
  constructor
  · rintro h ⟨a, i⟩ he
    have hget := mem_zipIdx_iff_getElem?.mp he
    have heq := congrArg (fun l => l[i]?) h
    rw [getElem?_mapIdx, getElem?_map, getElem?_map, hget] at heq
    exact Option.some.inj heq
  · intro h
    refine ext_getElem? (fun i => ?_)
    rw [getElem?_mapIdx, getElem?_map, getElem?_map]
    cases hget : l[i]? with
    | none => rfl
    | some a =>
      exact congrArg some (h (a, i) (mem_zipIdx_iff_getElem?.mpr hget))

theorem kindAt_of_mem {e : ChatMessage × Nat} (h : e ∈ conversation.zipIdx) :
    kindAt (conversation.map itemOf) e.2 = some (itemOf e.1).kind := by
  rw [kindAt, getElem?_map, mem_zipIdx_iff_getElem?.mp h]
  rfl

theorem itemOf_toolResult {m : ChatMessage} : (itemOf m).kind = .toolResult ↔ m.role = .tool := by
  rw [itemOf]
  cases m.role with
  | user => simp
  | tool => simp
  | assistant =>
    simp only [reduceCtorEq, iff_false]
    split_ifs <;> simp

theorem finished_iff {e : ChatMessage × Nat} (he : e ∈ conversation.zipIdx) (i : Nat) :
    (if i ∈ truncatedOld (conversation.map itemOf) budget
      then shrinkMessage conversation i (late conversation budget e)
      else late conversation budget e) = finished conversation budget e ↔
    ((itemOf e.1).kind = .toolResult →
      carried (conversation.map itemOf) budget i (itemOf e.1, e.2)
        = carried (conversation.map itemOf) budget e.2 (itemOf e.1, e.2)) := by
  have hkind := kindAt_of_mem he
  by_cases hrole : e.1.role = .tool
  · -- a tool result: the texts decide
    have htool : (itemOf e.1).kind = .toolResult := itemOf_toolResult.mpr hrole
    have hblock : e.2 ∉ summarisedBlocks (conversation.map itemOf) budget := fun hs => by
      have hcalls := (mem_summarisedBlocks hs).1
      rw [hkind, htool] at hcalls
      cases hcalls
    have hlate : late conversation budget e
        = e.1.withText (lateText (conversation.map itemOf) budget (itemOf e.1, e.2)) := by
      rw [late, if_neg hblock, lateText, shrinkMessage, if_pos hrole]
      split_ifs
      · rfl
      · rfl
    have hleft : (if i ∈ truncatedOld (conversation.map itemOf) budget
        then shrinkMessage conversation i (late conversation budget e)
        else late conversation budget e)
        = e.1.withText (carried (conversation.map itemOf) budget i (itemOf e.1, e.2)) := by
      rw [hlate, carried, shrinkMessage]
      split_ifs with hold hno
      · rfl
      · exact absurd hrole hno
      · rfl
    have hright : finished conversation budget e
        = e.1.withText (carried (conversation.map itemOf) budget e.2 (itemOf e.1, e.2)) := by
      rw [finished, if_neg hblock, carried, lateText]
      by_cases hold : e.2 ∈ truncatedOld (conversation.map itemOf) budget
      · rw [if_pos (Or.inl hold), if_pos hold]
      · rw [if_neg hold]
        by_cases hrecent : e.2 ∈ truncatedRecent (conversation.map itemOf) budget
        · rw [if_pos (Or.inr hrecent), if_pos hrecent]
        · rw [if_neg (fun h => h.elim hold hrecent), if_neg hrecent]
          rfl
    rw [hleft, hright]
    constructor
    · intro h _
      exact congrArg ChatMessage.content h
    · intro h
      rw [h htool]
  · -- anything else is touched by no truncation
    have htool : (itemOf e.1).kind ≠ .toolResult := fun h => hrole (itemOf_toolResult.mp h)
    have hold : e.2 ∉ truncatedOld (conversation.map itemOf) budget := fun h => by
      have hres := (mem_oldResults h).1
      rw [hkind] at hres
      exact htool (Option.some.inj hres)
    have hrecent : e.2 ∉ truncatedRecent (conversation.map itemOf) budget := fun h => by
      have hres := (mem_recentResults h).1
      rw [hkind] at hres
      exact htool (Option.some.inj hres)
    have hneither : ¬ (e.2 ∈ truncatedOld (conversation.map itemOf) budget
        ∨ e.2 ∈ truncatedRecent (conversation.map itemOf) budget) := not_or.mpr ⟨hold, hrecent⟩
    have hlate : late conversation budget e = finished conversation budget e := by
      rw [late, finished, if_neg hrecent, if_neg hneither]
    have hsame : shrinkMessage conversation i (late conversation budget e)
        = late conversation budget e := by
      rw [shrinkMessage, if_neg]
      rw [late, if_neg hrecent]
      split_ifs
      · exact fun h => by cases h
      · exact hrole
    refine iff_of_true ?_ (fun h => absurd h htool)
    rw [hsame, ite_self, hlate]

theorem applied_eq_expected_iff :
    applyActions conversation (planned (conversation.map itemOf) budget)
        = expected conversation (planned (conversation.map itemOf) budget)
      ↔ Aligned (conversation.map itemOf) budget := by
  rw [applyActions_planned, expected_planned, mapIdx_eq_map_iff, Aligned]
  have hsurvivors : survivors (conversation.map itemOf) budget
      = (remaining conversation budget).map (fun e => (itemOf e.1, e.2)) := by
    rw [survivors, zipIdx_map, filter_map]
    rfl
  rw [hsurvivors, zipIdx_map]
  constructor
  · intro h q hq
    obtain ⟨e, he, rfl⟩ := mem_map.mp hq
    have hmem : e.1 ∈ conversation.zipIdx :=
      (mem_filter.mp (fst_mem_of_mem_zipIdx he)).1
    exact (finished_iff hmem e.2).mp (h e he)
  · intro h e he
    have hmem : e.1 ∈ conversation.zipIdx :=
      (mem_filter.mp (fst_mem_of_mem_zipIdx he)).1
    exact (finished_iff hmem e.2).mpr
      (h _ (mem_map.mpr ⟨e, he, rfl⟩))

/-! ### Tokens -/

theorem sum_filter {α : Type} (p : α → Prop) [DecidablePred p] (w : α → Nat) (l : List α) :
    ((l.filter p).map w).sum = (l.map (fun a => if p a then w a else 0)).sum := by
  induction l with
  | nil => rfl
  | cons a l ih =>
    by_cases ha : p a
    · rw [filter_cons_of_pos (by simpa using ha)]
      simp [ha, ih]
    · rw [filter_cons_of_neg (by simpa using ha)]
      simp [ha, ih]

theorem getD_finalResidual {e : ChatMessage × Nat} (he : e ∈ conversation.zipIdx) :
    (finalResidual (conversation.map itemOf) budget).getD e.2 0
      = if ¬ Inside (blockEnd (conversation.map itemOf))
          (summarisedBlocks (conversation.map itemOf) budget) e.2
        then estimateTokens (finished conversation budget e).content else 0 := by
  have hkind := kindAt_of_mem he
  have hshrink : ∀ i ∈ truncatedRecent (conversation.map itemOf) budget,
      i < (blockResidual (conversation.map itemOf) budget).length := fun i hi => by
    rw [length_blockResidual]
    exact lt_length_of_kindAt (mem_recentResults hi).1
  rw [finalResidual, getD_shrinkAll _ hshrink, getD_blockResidual, getD_oldResidual]
  have hblock : e.2 ∈ summarisedBlocks (conversation.map itemOf) budget →
      e.2 ∉ truncatedRecent (conversation.map itemOf) budget := fun hs hr =>
    Nat.not_lt_of_le (mem_recentResults hr).2 (mem_summarisedBlocks hs).2
  by_cases hin : Inside (blockEnd (conversation.map itemOf))
      (summarisedBlocks (conversation.map itemOf) budget) e.2
  · obtain ⟨s, hs, hlt, hend⟩ := hin
    have hrecent : e.2 ∉ truncatedRecent (conversation.map itemOf) budget := fun hr => by
      have := blockEnd_le_recent (mem_summarisedBlocks hs).2
      have := (mem_recentResults hr).2
      omega
    have hstart : e.2 ∉ summarisedBlocks (conversation.map itemOf) budget := fun hs' => by
      have hcalls := (mem_summarisedBlocks hs').1
      rw [kindAt_of_block hlt hend] at hcalls
      cases hcalls
    rw [if_neg hrecent, if_neg hstart, if_pos ⟨s, hs, hlt, hend⟩, if_neg]
    exact not_not.mpr ⟨s, hs, hlt, hend⟩
  · rw [if_pos hin, finished]
    by_cases hs : e.2 ∈ summarisedBlocks (conversation.map itemOf) budget
    · rw [if_neg (hblock hs), if_pos hs, if_pos hs]
      rfl
    · have hout : ¬ ∃ s ∈ summarisedBlocks (conversation.map itemOf) budget,
          s < e.2 ∧ e.2 < blockEnd (conversation.map itemOf) s := hin
      rw [if_neg hs, if_neg hs, if_neg hout]
      have htokens : tokensAt (conversation.map itemOf) e.2 = estimateTokens e.1.content := by
        rw [tokensAt, textAt, getElem?_map, mem_zipIdx_iff_getElem?.mp he]
        rfl
      by_cases hr : e.2 ∈ truncatedRecent (conversation.map itemOf) budget
      · rw [if_pos hr, if_pos (Or.inr hr)]
        rfl
      · rw [if_neg hr]
        by_cases ho : e.2 ∈ truncatedOld (conversation.map itemOf) budget
        · rw [if_pos ho, if_pos (Or.inl ho)]
          rfl
        · rw [if_neg ho, if_neg (fun h => h.elim ho hr), htokens]

theorem tokensOf_expected :
    tokensOf (expected conversation (planned (conversation.map itemOf) budget))
      = (finalResidual (conversation.map itemOf) budget).sum := by
  have hlen : (finalResidual (conversation.map itemOf) budget).length = conversation.length := by
    rw [finalResidual, length_shrinkAll, length_blockResidual, length_map]
  have hresidual : finalResidual (conversation.map itemOf) budget
      = conversation.zipIdx.map (fun e => if ¬ Inside (blockEnd (conversation.map itemOf))
          (summarisedBlocks (conversation.map itemOf) budget) e.2
        then estimateTokens (finished conversation budget e).content else 0) := by
    refine ext_getElem (by rw [hlen, length_map, length_zipIdx]) (fun i hi hi' => ?_)
    have hi'' : i < conversation.length := hlen ▸ hi
    have hmem : (conversation[i], i) ∈ conversation.zipIdx :=
      mem_zipIdx_iff_getElem?.mpr (getElem?_eq_getElem hi'')
    have hget := @getD_finalResidual _ budget _ hmem
    rw [getD_eq_getElem?_getD, getElem?_eq_getElem hi] at hget
    rw [getElem_map, getElem_zipIdx, Nat.zero_add]
    exact hget
  rw [expected_planned, tokensOf, map_map, remaining, hresidual]
  exact sum_filter _ _ _

theorem tokensOf_eq_total : tokensOf conversation = total (conversation.map itemOf) := by
  rw [tokensOf, total, map_map]
  rfl

end Applied

/-! ### Plans that are aligned -/

theorem getElem?_filter_of_all {α : Type} {p : α → Bool} {l : List α} {k : Nat}
    (h : ∀ a ∈ l.take (k + 1), p a = true) : (l.filter p)[k]? = l[k]? := by
  induction l generalizing k with
  | nil => rfl
  | cons a l ih =>
    rw [take_succ_cons] at h
    rw [filter_cons_of_pos (h a mem_cons_self)]
    cases k with
    | zero => rfl
    | succ k => exact ih (fun b hb => h b (mem_cons_of_mem a hb))

/-- An item with no summary before its index is at its index when the summaries are made. -/
theorem getElem?_survivors {items : List ConversationItem} {budget k : Nat}
    (h : ∀ s ∈ summarisedBlocks items budget, s < k → blockEnd items s ≤ s + 1) :
    (survivors items budget)[k]? = items.zipIdx[k]? := by
  refine getElem?_filter_of_all (fun e he => decide_eq_true ?_)
  rintro ⟨s, hs, hlt, hend⟩
  obtain ⟨j, hj, hget⟩ := mem_take_iff_getElem.mp he
  have hindex : e.2 = j := by
    rw [← hget, getElem_zipIdx, Nat.zero_add]
  have := h s hs (by omega)
  omega

/-- **A plan is aligned** where no old result that is truncated has a summary of more than
one message before it. -/
theorem aligned_of_before {items : List ConversationItem} {budget : Nat}
    (h : ∀ i ∈ truncatedOld items budget, ∀ s ∈ summarisedBlocks items budget, s < i →
      blockEnd items s ≤ s + 1) : Aligned items budget := by
  intro e he _
  have hplace := mem_zipIdx_iff_getElem?.mp he
  have hsame : e.2 ∈ truncatedOld items budget ∨ e.1.2 ∈ truncatedOld items budget →
      e.2 = e.1.2 := by
    rintro (hold | hold)
    · rw [getElem?_survivors (h _ hold)] at hplace
      obtain ⟨hlt, hget⟩ := List.getElem?_eq_some_iff.mp hplace
      rw [← hget, getElem_zipIdx, Nat.zero_add]
    · have hmem : e.1 ∈ items.zipIdx := (mem_filter.mp (mem_of_getElem? hplace)).1
      have hown : items.zipIdx[e.1.2]? = some e.1 := by
        rw [getElem?_zipIdx, mem_zipIdx_iff_getElem?.mp hmem, Nat.zero_add]
        rfl
      rw [← getElem?_survivors (h _ hold), ← hplace] at hown
      have hnodup : (survivors items budget).Nodup := by
        refine List.Pairwise.filter _ (List.Nodup.of_map Prod.snd ?_)
        rw [zipIdx_map_snd]
        exact nodup_range'
      exact (getElem?_inj (List.getElem?_eq_some_iff.mp hplace).1 hnodup).mp hown.symm
  rw [carried, carried]
  by_cases hold : e.2 ∈ truncatedOld items budget ∨ e.1.2 ∈ truncatedOld items budget
  · rw [hsame hold]
  · rw [if_neg (fun h => hold (.inl h)), if_neg (fun h => hold (.inr h))]

theorem aligned_of_unsummarised {items : List ConversationItem} {budget : Nat}
    (h : summarisedBlocks items budget = []) : Aligned items budget :=
  aligned_of_before (fun _ _ s hs => by rw [h] at hs; cases hs)

/-- **When a plan comes to what it says.**  The runtime turns the conversation into what the
plan asks for, with the tokens it projects, exactly when the truncations of old results
are aligned with the tool results that the summaries leave. -/
theorem applied_meets_iff (conversation : List ChatMessage) (budget : Nat) (plan : CompactionPlan)
    (h : planCompaction (conversation.map itemOf) budget = some plan) :
    Meets conversation plan ↔ Aligned (conversation.map itemOf) budget := by
  obtain ⟨hactions, hprojected, hsmaller⟩ := planCompaction_spec h
  have hplanned : plan.actions = planned (conversation.map itemOf) budget := hactions
  rw [← applied_eq_expected_iff]
  constructor
  · intro hmeets
    rw [← hplanned]
    exact hmeets.applied
  · intro happlied
    refine ⟨hplanned ▸ happlied, ?_, ?_⟩
    · rw [hplanned, happlied, tokensOf_expected, hprojected]
    · rw [tokensOf_eq_total]
      exact hsmaller

def callMessage (name : Char) : ChatMessage :=
  ⟨.assistant, [name], [⟨['1'], [name], []⟩], none, false⟩

def resultMessage (text : Chars) : ChatMessage := ⟨.tool, text, [], some ['1'], false⟩

def twoReads : List ChatMessage :=
  [.user ['p'], callMessage 'a', resultMessage (List.replicate 201 'x'), callMessage 'b',
    resultMessage ['y']]

/-- The first read is truncated and then summarised; its truncation falls on the second
call, which is no tool result. -/
theorem applied_meets_twoReads : ∃ plan,
    planCompaction (twoReads.map itemOf) 45 = some plan ∧ Meets twoReads plan := by
  obtain ⟨plan, hplan⟩ : ∃ plan, planCompaction (twoReads.map itemOf) 45 = some plan :=
    Option.isSome_iff_exists.mp (by decide +kernel)
  exact ⟨plan, hplan, (applied_meets_iff twoReads 45 plan hplan).mpr (by decide +kernel)⟩

def threeReads : List ChatMessage :=
  [.user ['p'], callMessage 'a', resultMessage (List.replicate 201 'x'), callMessage 'b',
    resultMessage (List.replicate 201 'y'), callMessage 'c', resultMessage (List.replicate 201 'z')]

/-- Two blocks are summarised, and the truncation of the second read then falls on the
third, the recent one: its result is overwritten with the second's. -/
theorem recent_result_overwritten : ∃ plan,
    planCompaction (threeReads.map itemOf) 123 = some plan ∧ ¬ Meets threeReads plan ∧
    (expected threeReads plan.actions)[4]? = threeReads[6]? ∧
    (applyActions threeReads plan.actions)[4]?
      = some (resultMessage (truncatedReplacement (List.replicate 201 'y'))) := by
  obtain ⟨plan, hplan⟩ : ∃ plan, planCompaction (threeReads.map itemOf) 123 = some plan :=
    Option.isSome_iff_exists.mp (by decide +kernel)
  have hrest : ∀ p ∈ planCompaction (threeReads.map itemOf) 123,
      (expected threeReads p.actions)[4]? = threeReads[6]? ∧
      (applyActions threeReads p.actions)[4]?
        = some (resultMessage (truncatedReplacement (List.replicate 201 'y'))) := by
    decide +kernel
  obtain ⟨hexpected, happlied⟩ := hrest plan hplan
  refine ⟨plan, hplan, fun hmeets => ?_, hexpected, happlied⟩
  rw [hmeets.applied, hexpected] at happlied
  revert happlied
  decide +kernel

end Compaction

end Modbit
