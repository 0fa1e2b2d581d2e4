import Modbit.Compaction.Alignment
import Modbit.Compaction.Pairing
import Mathlib.Data.Nat.Find

/-!
# The shape of a plan

Whatever the items are, a plan keeps to a shape: it summarises whole blocks, one behind
the other and before the recent block, it truncates tool results only, and of the recent
block only when nothing before it would still save tokens (`WellShaped`).  A conversation
whose tool results stand directly behind the message that issued their call therefore
still has them there when the plan is applied (`planCompaction_wellShaped`).

The first item is in no summary.  It is truncated when it is a tool result itself.
-/

namespace Modbit

open Lib List

namespace Compaction

/-! ### Blocks and what is left to reclaim -/

/-- An assistant message with tool calls and exactly the tool results that follow it. -/
structure IsBlock (items : List ConversationItem) (start stop : Nat) : Prop where
  opens : kindAt items start = some .assistantToolCalls
  lt : start < stop
  results : ∀ i, start < i → i < stop → kindAt items i = some .toolResult
  stops : kindAt items stop ≠ some .toolResult

/-- The last assistant message with tool calls. -/
def IsRecent (items : List ConversationItem) (recent : Nat) : Prop :=
  kindAt items recent = some .assistantToolCalls ∧
    ∀ i, recent < i → kindAt items i ≠ some .assistantToolCalls

/-- The item is in the range that the action summarises. -/
def CompactionAction.Summarises (i : Nat) : CompactionAction → Prop
  | .truncateToolResult .. => False
  | .summarizeBlock start stop _ => start ≤ i ∧ i < stop

def CompactionAction.Touches (i : Nat) : CompactionAction → Prop
  | .truncateToolResult index _ => index = i
  | .summarizeBlock start stop _ => start ≤ i ∧ i < stop

/-- The tokens of an item once some actions have truncated it. -/
def tokensAfter (items : List ConversationItem) (done : List CompactionAction) (i : Nat) : Nat :=
  estimateTokens ((done.findSome? (CompactionAction.truncationOf i)).getD (textAt items i))

/-- The tokens of a range once some actions have truncated it. -/
def rangeAfter (items : List ConversationItem) (done : List CompactionAction)
    (start stop : Nat) : Nat :=
  ((List.range' start (stop - start)).map (tokensAfter items done)).sum

/-- Some action on what is before the recent block would still save tokens. -/
inductive Spare (items : List ConversationItem) (recent : Nat) (done : List CompactionAction) : Prop
  | truncation (i : Nat) (hkind : kindAt items i = some .toolResult) (hlt : i < recent)
      (hsaves : estimateTokens (shrunk items i) < tokensAfter items done i)
  | summary (start stop : Nat) (hblock : IsBlock items start stop) (hfirst : 0 < start)
      (hlt : start < recent) (hleft : ∀ a ∈ done, ¬ a.Summarises start)
      (hsaves : estimateTokens (blockSummary items start (rangeAfter items done start stop))
        < rangeAfter items done start stop)

structure WellShaped (items : List ConversationItem) (actions : List CompactionAction) : Prop where
  first : ∀ a ∈ actions, a.Touches 0 →
    kindAt items 0 = some .toolResult ∧ ∃ text, a = .truncateToolResult 0 text
  truncates : ∀ i text, .truncateToolResult i text ∈ actions → kindAt items i = some .toolResult
  summarises : ∀ start stop text, .summarizeBlock start stop text ∈ actions →
    IsBlock items start stop ∧ ∃ recent, IsRecent items recent ∧ stop ≤ recent
  apart : actions.Pairwise (fun a b => ∀ i, ¬ (a.Summarises i ∧ b.Summarises i))
  lastResort : ∀ recent i text before after, IsRecent items recent → recent ≤ i →
    actions = before ++ .truncateToolResult i text :: after → ¬ Spare items recent before

/-- The message is an assistant message with the call that the result answers. -/
def ChatMessage.Issues (c m : ChatMessage) : Prop :=
  c.role = .assistant ∧ ∃ call ∈ c.toolCalls, m.toolCallId = some call.callId

instance (c m : ChatMessage) : Decidable (c.Issues m) := inferInstanceAs (Decidable (_ ∧ _))

/-- Every tool result stands directly behind the message that issued its call, with only tool
results between them.  The first argument is the last message before the list that is no tool
result. -/
def IssuedFrom : Option ChatMessage → List ChatMessage → Prop
  | _, [] => True
  | turn, m :: rest =>
    if m.role = .tool then (∃ c ∈ turn, c.Issues m) ∧ IssuedFrom turn rest
    else IssuedFrom (some m) rest

def Issued (conversation : List ChatMessage) : Prop := IssuedFrom none conversation

/-! ### The recent block -/

section Recent

variable {items : List ConversationItem} {i s : Nat}

theorem kindAt_blockEnd : kindAt items (blockEnd items s) ≠ some .toolResult := by
  intro hkind
  obtain ⟨item, hitem, hres⟩ := Option.map_eq_some_iff.mp hkind
  have hsplit := takeWhile_append_dropWhile (p := fun i => decide (i.kind = .toolResult))
    (l := items.drop (s + 1))
  have hdrop : items[blockEnd items s]? = (items.drop (s + 1))[((items.drop (s + 1)).takeWhile
      (fun i => decide (i.kind = .toolResult))).length]? := by
    rw [getElem?_drop, blockEnd]
  have hhead : ((items.drop (s + 1)).dropWhile
      (fun i => decide (i.kind = .toolResult))).head? = some item := by
    rw [← hitem, hdrop, head?_eq_getElem?]
    conv_rhs => rw [← hsplit]
    rw [getElem?_append_right (by rw [hsplit]), hsplit, Nat.sub_self]
  have hnot := head?_dropWhile_not (fun i => decide (i.kind = .toolResult)) (items.drop (s + 1))
  rw [hhead] at hnot
  simp [hres] at hnot

theorem isBlock_blockEnd (h : kindAt items s = some .assistantToolCalls) :
    IsBlock items s (blockEnd items s) :=
  ⟨h, lt_blockEnd, fun _ hlt hend => kindAt_of_block hlt hend, kindAt_blockEnd⟩

theorem IsBlock.stop_eq {stop : Nat} (h : IsBlock items s stop) : stop = blockEnd items s := by
  rcases Nat.lt_trichotomy stop (blockEnd items s) with hlt | heq | hlt
  · exact absurd (kindAt_of_block h.lt hlt) h.stops
  · exact heq
  · exact absurd (h.results _ lt_blockEnd hlt) kindAt_blockEnd

theorem recentFrom_find (len : Nat) (l : List (ConversationItem × Nat)) :
    recentFrom len l len
      = ((l.find? (fun e => e.1.kind = .assistantToolCalls)).map (·.2)).getD len := by
  induction l with
  | nil => rfl
  | cons e l ih =>
    obtain ⟨item, index⟩ := e
    rw [recentFrom, find?_cons]
    cases hkind : item.kind with
    | toolResult => exact ih
    | assistantToolCalls => rfl
    | userTurn => exact (if_neg (Nat.lt_irrefl len)).trans ih
    | assistantText => exact (if_neg (Nat.lt_irrefl len)).trans ih

theorem mem_zipIdx_reverse {item : ConversationItem} :
    (item, i) ∈ items.zipIdx.reverse ↔ items[i]? = some item := by
  rw [mem_reverse, mem_zipIdx_iff_getElem?]

theorem zipIdx_reverse_falls : items.zipIdx.reverse.Pairwise (fun a b => b.2 < a.2) := by
  rw [pairwise_reverse, ← pairwise_map, zipIdx_map_snd]
  exact pairwise_lt_range'

/-- **The recent block starts at the last tool calls.** -/
theorem IsRecent.recentBlockStart_eq {recent : Nat} (h : IsRecent items recent) :
    recentBlockStart items = recent := by
  obtain ⟨item, hitem, hkind⟩ := Option.map_eq_some_iff.mp h.1
  have hmem : (item, recent) ∈ items.zipIdx.reverse := mem_zipIdx_reverse.mpr hitem
  rw [recentBlockStart, recentFrom_find]
  cases hfind : items.zipIdx.reverse.find? (fun e => e.1.kind = .assistantToolCalls) with
  | none =>
    have hnone := find?_eq_none.mp hfind _ hmem
    exact absurd (decide_eq_true hkind) hnone
  | some e =>
    obtain ⟨hcalls, later, earlier, hsplit, hlater⟩ := find?_eq_some_iff_append.mp hfind
    have hcalls := of_decide_eq_true hcalls
    have he : items[e.2]? = some e.1 := by
      rw [← mem_zipIdx_reverse, hsplit]
      exact mem_append_right _ mem_cons_self
    show e.2 = recent
    have hfalls := @zipIdx_reverse_falls items
    rw [hsplit] at hmem hfalls
    rcases mem_append.mp hmem with hin | hin
    · have hno := hlater _ hin
      simp [hkind] at hno
    · rcases mem_cons.mp hin with heq | hin
      · rw [← heq]
      · -- then the one found is behind the last one
        have hlt := (pairwise_cons.mp (pairwise_append.mp hfalls).2.1).1 _ hin
        refine absurd ?_ (h.2 e.2 hlt)
        rw [kindAt, he, Option.map_some, hcalls]

theorem exists_isRecent (h : kindAt items s = some .assistantToolCalls) :
    ∃ recent, IsRecent items recent := by
  have hs := lt_length_of_kindAt h
  refine ⟨Nat.findGreatest (fun i => kindAt items i = some .assistantToolCalls) items.length,
    Nat.findGreatest_spec (P := fun i => kindAt items i = some .assistantToolCalls)
      (Nat.le_of_lt hs) h, fun i hi hkind => ?_⟩
  exact Nat.findGreatest_is_greatest hi (Nat.le_of_lt (lt_length_of_kindAt hkind)) hkind

end Recent

/-! ### What the stages leave -/

section Left

variable {items : List ConversationItem} {budget : Nat} {r : List Nat} {s : Nat}

theorem slice_eq_map {stop : Nat} (hend : stop ≤ r.length) :
    slice r s stop = (List.range' s (stop - s)).map (fun i => r.getD i 0) := by
  refine ext_getElem? (fun j => ?_)
  rw [slice, getElem?_drop, getElem?_take, getElem?_map]
  by_cases hj : s + j < stop
  · have hlt : s + j < r.length := Nat.lt_of_lt_of_le hj hend
    rw [if_pos hj, getElem?_range' (by omega), Option.map_some, Nat.one_mul,
      getD_eq_getElem?_getD, getElem?_eq_getElem hlt, Option.getD_some]
  · rw [if_neg hj, getElem?_eq_none (by rw [length_range']; omega), Option.map_none]

theorem sum_shrinkAll {l : List Nat} (hnodup : l.Nodup)
    (htaken : ∀ i ∈ l, i < r.length ∧ r.getD i 0 = tokensAt items i ∧ 0 < truncationSaving items i) :
    (shrinkAll items r l).sum + (l.map (truncationSaving items)).sum = r.sum := by
  induction l generalizing r with
  | nil => rfl
  | cons i l ih =>
    obtain ⟨hi, hnodup⟩ := nodup_cons.mp hnodup
    obtain ⟨⟨hlt, htokens, hpos⟩, htaken⟩ := forall_mem_cons.mp htaken
    have hset := sum_set (v := estimateTokens (shrunk items i)) hlt
    have hrest := @ih (r.set i (estimateTokens (shrunk items i))) hnodup (fun k hk => by
      have hki : k ≠ i := fun he => hi (he ▸ hk)
      rw [length_set, getD_set _ _ hlt, if_neg hki]
      exact htaken k hk)
    rw [htokens] at hset
    rw [truncationSaving] at hpos
    have hcons : shrinkAll items r (i :: l)
        = shrinkAll items (r.set i (estimateTokens (shrunk items i))) l := rfl
    rw [hcons, map_cons, sum_cons, truncationSaving]
    omega

theorem sum_foldl_foldBlock {l : List Nat} (hlen : r.length = items.length)
    (hapart : l.Pairwise (fun s t => blockEnd items s ≤ t))
    (htaken : ∀ s ∈ l, s < items.length ∧ 0 < blockSaving items budget s ∧
      ∀ i, s ≤ i → r.getD i 0 = (oldResidual items budget).getD i 0) :
    (l.foldl (foldBlock items budget) r).sum + (l.map (blockSaving items budget)).sum = r.sum := by
  induction l generalizing r with
  | nil => rfl
  | cons s l ih =>
    obtain ⟨hafter, hapart⟩ := pairwise_cons.mp hapart
    obtain ⟨⟨hlt, hpos, hsame⟩, htaken⟩ := forall_mem_cons.mp htaken
    have hblock : s < blockEnd items s := lt_blockEnd
    have hfold := sum_foldRange (v := estimateTokens (summaryOf items budget s)) hblock
      (hlen.symm ▸ blockEnd_le_length hlt)
    have htokens : (slice r s (blockEnd items s)).sum = blockTokens items budget s := by
      rw [blockTokens, slice_congr (hlen.trans length_oldResidual.symm) hsame]
    have hrest := @ih (foldBlock items budget r s) (length_foldRange.trans hlen) hapart
      (fun t ht => by
        obtain ⟨htlt, htpos, htsame⟩ := htaken t ht
        refine ⟨htlt, htpos, fun i hi => ?_⟩
        have hst := hafter t ht
        rw [getD_foldBlock (hlen.symm ▸ hlt), if_neg (by omega), if_neg (by omega), htsame i hi])
    rw [htokens] at hfold
    rw [blockSaving] at hpos
    rw [foldl_cons, map_cons, sum_cons, blockSaving]
    rw [foldBlock] at hrest ⊢
    omega

theorem sum_oldResidual : (oldResidual items budget).sum
    + ((truncatedOld items budget).map (truncationSaving items)).sum = total items := by
  refine sum_shrinkAll ?_ (fun i hi => ?_)
  · exact (nodup_range.filter _).sublist (reclaim_sublist _ _)
  · rw [length_map]
    exact ⟨lt_length_of_kindAt (mem_oldResults hi).1, getD_tokens i, pos_of_mem_reclaim _ _ hi⟩

theorem sum_blockResidual : (blockResidual items budget).sum
    + ((summarisedBlocks items budget).map (blockSaving items budget)).sum
      = (oldResidual items budget).sum :=
  sum_foldl_foldBlock length_oldResidual summarisedBlocks_apart (fun _ hs =>
    ⟨lt_length_of_kindAt (mem_summarisedBlocks hs).1, pos_of_mem_reclaim _ _ hs, fun _ _ => rfl⟩)

theorem truncatedOld_all (hlast : truncatedRecent items budget ≠ []) {i : Nat}
    (hkind : kindAt items i = some .toolResult) (hlt : i < recentBlockStart items)
    (hpos : 0 < truncationSaving items i) : i ∈ truncatedOld items budget := by
  have hover : budget < (blockResidual items budget).sum := by
    by_contra hle
    exact hlast (reclaim_of_le (Nat.le_of_not_lt hle) _)
  refine mem_reclaim_of_lt _ ?_ hpos _ ?_
  · refine mem_filter.mpr ⟨mem_range.mpr (lt_length_of_kindAt hkind), ?_⟩
    exact decide_eq_true ⟨hkind, hlt⟩
  · have hold := @sum_oldResidual items budget
    have hblock := @sum_blockResidual items budget
    rw [truncatedOld] at hold
    omega

theorem summarisedBlocks_all (hlast : truncatedRecent items budget ≠ [])
    (hkind : kindAt items s = some .assistantToolCalls) (hlt : s < recentBlockStart items)
    (hfirst : 0 < s) (hpos : 0 < blockSaving items budget s) : s ∈ summarisedBlocks items budget := by
  have hover : budget < (blockResidual items budget).sum := by
    by_contra hle
    exact hlast (reclaim_of_le (Nat.le_of_not_lt hle) _)
  refine mem_reclaim_of_lt _ ?_ hpos _ ?_
  · have hlen := lt_length_of_kindAt hkind
    refine mem_filter.mpr ⟨mem_range'_1.mpr ⟨hfirst, by omega⟩, ?_⟩
    exact decide_eq_true ⟨hkind, hlt⟩
  · have hblock := @sum_blockResidual items budget
    rw [summarisedBlocks] at hblock
    omega

end Left

/-! ### The shape -/

section Shape

variable {items : List ConversationItem} {budget i : Nat}

theorem mem_planned {a : CompactionAction} : a ∈ planned items budget ↔
    (∃ i ∈ truncatedOld items budget, a = truncation items i) ∨
    (∃ s ∈ summarisedBlocks items budget, a = summarisation items budget s) ∨
    ∃ i ∈ truncatedRecent items budget, a = truncation items i := by
  rw [planned, mem_append, mem_append, mem_map, mem_map, mem_map, or_assoc]
  refine or_congr ?_ (or_congr ?_ ?_) <;>
    exact exists_congr (fun _ => and_congr_right (fun _ => eq_comm))

variable {text : Chars}

theorem truncation_planned (h : CompactionAction.truncateToolResult i text ∈ planned items budget) :
    kindAt items i = some .toolResult := by
  rcases mem_planned.mp h with ⟨j, hj, heq⟩ | ⟨s, -, heq⟩ | ⟨j, hj, heq⟩
  · obtain ⟨rfl, -⟩ := CompactionAction.truncateToolResult.inj heq
    exact (mem_oldResults hj).1
  · cases heq
  · obtain ⟨rfl, -⟩ := CompactionAction.truncateToolResult.inj heq
    exact (mem_recentResults hj).1

theorem summary_planned {start stop : Nat}
    (h : CompactionAction.summarizeBlock start stop text ∈ planned items budget) :
    start ∈ summarisedBlocks items budget ∧ stop = blockEnd items start := by
  rcases mem_planned.mp h with ⟨j, -, heq⟩ | ⟨s, hs, heq⟩ | ⟨j, -, heq⟩
  · cases heq
  · obtain ⟨rfl, rfl, -⟩ := CompactionAction.summarizeBlock.inj heq
    exact ⟨hs, rfl⟩
  · cases heq

theorem pos_of_summarised {s : Nat} (h : s ∈ summarisedBlocks items budget) : 0 < s :=
  (mem_blocksFrom (mem_of_mem_reclaim h)).1

theorem touches_zero {a : CompactionAction} (ha : a ∈ planned items budget) (h : a.Touches 0) :
    kindAt items 0 = some .toolResult ∧ ∃ text, a = .truncateToolResult 0 text := by
  cases a with
  | truncateToolResult index text =>
    obtain rfl : index = 0 := h
    exact ⟨truncation_planned ha, text, rfl⟩
  | summarizeBlock start stop text =>
    have hpos := pos_of_summarised (summary_planned ha).1
    exact absurd h.1 (Nat.not_le_of_lt hpos)

theorem planned_apart :
    (planned items budget).Pairwise (fun a b => ∀ i, ¬ (a.Summarises i ∧ b.Summarises i)) := by
  have htruncations : ∀ l : List Nat, ∀ a ∈ l.map (truncation items), ∀ i, ¬ a.Summarises i := by
    intro l a ha i
    obtain ⟨j, -, rfl⟩ := mem_map.mp ha
    exact id
  have halone : ∀ l : List Nat, (l.map (truncation items)).Pairwise
      (fun a b => ∀ i, ¬ (a.Summarises i ∧ b.Summarises i)) := fun l =>
    pairwise_of_forall_mem_list (fun a ha _ _ i h => htruncations l a ha i h.1)
  rw [planned, pairwise_append, pairwise_append]
  refine ⟨⟨halone _, ?_, ?_⟩, halone _, ?_⟩
  · rw [pairwise_map]
    refine summarisedBlocks_apart.imp (fun hst i h => ?_)
    exact Nat.lt_irrefl _ (Nat.lt_of_lt_of_le h.1.2 (Nat.le_trans hst h.2.1))
  · exact fun a ha _ _ i h => htruncations _ a ha i h.1
  · exact fun _ _ b hb i h => htruncations _ b hb i h.2

/-- The actions before a truncation in the recent block: all of the first two stages and some of
the last. -/
theorem before_lastResort {before after : List CompactionAction}
    (hrecent : recentBlockStart items ≤ i)
    (h : planned items budget = before ++ .truncateToolResult i text :: after) :
    truncatedRecent items budget ≠ [] ∧ ∃ l : List Nat, (∀ k ∈ l, recentBlockStart items ≤ k) ∧
      before = (truncatedOld items budget).map (truncation items)
        ++ (summarisedBlocks items budget).map (summarisation items budget)
        ++ l.map (truncation items) := by
  have hearly : CompactionAction.truncateToolResult i text
      ∉ (truncatedOld items budget).map (truncation items)
        ++ (summarisedBlocks items budget).map (summarisation items budget) := by
    intro hmem
    rcases mem_append.mp hmem with hmem | hmem
    · obtain ⟨j, hj, heq⟩ := mem_map.mp hmem
      obtain ⟨rfl, -⟩ := CompactionAction.truncateToolResult.inj heq
      exact Nat.not_lt_of_le hrecent (mem_oldResults hj).2
    · obtain ⟨s, -, heq⟩ := mem_map.mp hmem
      cases heq
  -- so the truncation is among those of the last stage, and what is before it in the list is too
  obtain ⟨early, hbefore, hlast⟩ : ∃ early, before
        = (truncatedOld items budget).map (truncation items)
          ++ (summarisedBlocks items budget).map (summarisation items budget) ++ early ∧
      (truncatedRecent items budget).map (truncation items)
        = early ++ .truncateToolResult i text :: after := by
    rcases append_eq_append_iff.mp h with ⟨early, hbefore, hlast⟩ | ⟨rest, hrest, hlast⟩
    · exact ⟨early, hbefore, hlast⟩
    · cases rest with
      | nil =>
        rw [append_nil] at hrest
        exact ⟨[], by rw [hrest, append_nil], hlast.symm⟩
      | cons a rest =>
        obtain ⟨rfl, -⟩ := List.cons.inj hlast
        refine absurd ?_ hearly
        rw [hrest]
        exact mem_append_right _ mem_cons_self
  obtain ⟨l, l', hsplit, rfl, hrest⟩ := map_eq_append_iff.mp hlast
  refine ⟨?_, l, fun k hk => ?_, hbefore⟩
  · rw [hsplit]
    intro hnil
    rw [(append_eq_nil_iff.mp hnil).2] at hrest
    cases hrest
  · have hmem : k ∈ truncatedRecent items budget := by
      rw [hsplit]
      exact mem_append_left _ hk
    exact (mem_recentResults hmem).2

theorem tokensAfter_before {l : List Nat} (hl : ∀ k ∈ l, recentBlockStart items ≤ k)
    (hi : i < recentBlockStart items) :
    tokensAfter items ((truncatedOld items budget).map (truncation items)
        ++ (summarisedBlocks items budget).map (summarisation items budget)
        ++ l.map (truncation items)) i
      = (oldResidual items budget).getD i 0 := by
  have hno : i ∉ l := fun h => Nat.not_lt_of_le (hl i h) hi
  rw [tokensAfter, findSome?_append, findSome?_append, truncationOf_truncations,
    truncationOf_summaries, truncationOf_truncations, if_neg hno, Option.or_none, Option.or_none,
    getD_oldResidual]
  split_ifs
  · rfl
  · rfl

theorem rangeAfter_before {s : Nat} {l : List Nat} (hl : ∀ k ∈ l, recentBlockStart items ≤ k)
    (hs : s < recentBlockStart items) :
    rangeAfter items ((truncatedOld items budget).map (truncation items)
        ++ (summarisedBlocks items budget).map (summarisation items budget)
        ++ l.map (truncation items)) s (blockEnd items s)
      = blockTokens items budget s := by
  have hrecent : recentBlockStart items ≤ items.length := by
    rcases recentBlockStart_spec items with h | h
    · exact Nat.le_of_eq h
    · exact Nat.le_of_lt (lt_length_of_kindAt h)
  have hend := blockEnd_le_recent hs
  rw [rangeAfter, blockTokens,
    slice_eq_map (Nat.le_trans hend (Nat.le_trans hrecent (Nat.le_of_eq length_oldResidual.symm)))]
  refine congrArg List.sum (map_congr_left (fun k hk => tokensAfter_before hl ?_))
  have hk := (mem_range'_1.mp hk).2
  have hlt : s < blockEnd items s := lt_blockEnd
  omega

/-- **The recent block comes last.** -/
theorem not_spare {recent : Nat} {before after : List CompactionAction}
    (hrecent : IsRecent items recent) (hi : recent ≤ i)
    (h : planned items budget = before ++ .truncateToolResult i text :: after) :
    ¬ Spare items recent before := by
  rw [← hrecent.recentBlockStart_eq] at hi ⊢
  obtain ⟨hlast, l, hl, rfl⟩ := before_lastResort hi h
  rintro (⟨k, hkind, hlt, hsaves⟩ | ⟨start, stop, hblock, hfirst, hlt, hleft, hsaves⟩)
  · rw [tokensAfter_before hl hlt, getD_oldResidual] at hsaves
    split_ifs at hsaves with hold
    · exact Nat.lt_irrefl _ hsaves
    · refine hold (truncatedOld_all hlast hkind hlt ?_)
      rw [truncationSaving]
      omega
  · rw [hblock.stop_eq, rangeAfter_before hl hlt] at hsaves
    have hin : start ∈ summarisedBlocks items budget := by
      refine summarisedBlocks_all hlast hblock.opens hlt hfirst ?_
      rw [blockSaving, summaryOf]
      omega
    refine hleft (summarisation items budget start) ?_ ⟨Nat.le_refl start, lt_blockEnd⟩
    exact mem_append_left _ (mem_append_right _ (mem_map_of_mem hin))

theorem planned_wellShaped : WellShaped items (planned items budget) where
  first := fun _ ha h => touches_zero ha h
  truncates := fun _ _ h => truncation_planned h
  summarises := fun start stop text h => by
    obtain ⟨hs, rfl⟩ := summary_planned h
    obtain ⟨hkind, hlt⟩ := mem_summarisedBlocks hs
    obtain ⟨recent, hrecent⟩ := exists_isRecent hkind
    refine ⟨isBlock_blockEnd hkind, recent, hrecent, ?_⟩
    rw [← hrecent.recentBlockStart_eq]
    exact blockEnd_le_recent hlt
  apart := planned_apart
  lastResort := fun _ _ _ _ _ hrecent hi h => not_spare hrecent hi h

end Shape

/-! ### Results behind their calls -/

section Issue

variable {u v : List ChatMessage} {m : ChatMessage} {turn : Option ChatMessage}

def lastTurn (turn : Option ChatMessage) (u : List ChatMessage) : Option ChatMessage :=
  u.foldl (fun t m => if m.role = .tool then t else some m) turn

theorem issuedFrom_append : IssuedFrom turn (u ++ v)
    ↔ IssuedFrom turn u ∧ IssuedFrom (lastTurn turn u) v := by
  induction u generalizing turn with
  | nil => exact (and_iff_right trivial).symm
  | cons m u ih =>
    rw [cons_append, IssuedFrom, IssuedFrom, lastTurn, foldl_cons, ← lastTurn]
    by_cases h : m.role = .tool
    · rw [if_pos h, if_pos h, if_pos h, ih, and_assoc]
    · rw [if_neg h, if_neg h, if_neg h, ih]

theorem issuedFrom_of_head (h : ∀ m ∈ u.head?, m.role ≠ .tool) (turn' : Option ChatMessage) :
    IssuedFrom turn u ↔ IssuedFrom turn' u := by
  cases u with
  | nil => exact Iff.rfl
  | cons m u =>
    have hm := h m rfl
    rw [IssuedFrom, IssuedFrom, if_neg hm, if_neg hm]

theorem issues_congr {c c' m' : ChatMessage} (hc : c'.frame = c.frame) (hm : m'.frame = m.frame)
    (h : c.Issues m) : c'.Issues m' := by
  obtain ⟨hrole, call, hcall, hid⟩ := h
  have hrole' : c'.role = c.role := congrArg Prod.fst hc
  have hcalls' : c'.toolCalls = c.toolCalls := congrArg (fun f => f.2.1) hc
  have hid' : m'.toolCallId = m.toolCallId := congrArg (fun f => f.2.2) hm
  exact ⟨hrole'.trans hrole, call, hcalls' ▸ hcall, hid'.trans hid⟩

theorem IssuedFrom.congr {turn' : Option ChatMessage} {u' : List ChatMessage}
    (hturn : turn'.map ChatMessage.frame = turn.map ChatMessage.frame)
    (hframe : u'.map ChatMessage.frame = u.map ChatMessage.frame) (h : IssuedFrom turn u) :
    IssuedFrom turn' u' := by
  induction u generalizing turn turn' u' with
  | nil =>
    rw [map_nil, map_eq_nil_iff] at hframe
    rw [hframe]
    exact trivial
  | cons m u ih =>
    obtain ⟨m', rest, rfl, hm, hrest⟩ := map_eq_cons_iff.mp hframe
    have hrole : m'.role = m.role := congrArg Prod.fst hm
    rw [IssuedFrom] at h ⊢
    rw [hrole]
    split_ifs at h ⊢ with htool
    · obtain ⟨⟨c, hc, hissues⟩, h⟩ := h
      rw [Option.mem_def.mp hc, Option.map_some] at hturn
      obtain ⟨c', hc', heq⟩ := Option.map_eq_some_iff.mp hturn
      exact ⟨⟨c', hc', issues_congr heq hm hissues⟩,
        ih (by rw [Option.mem_def.mp hc, Option.map_some, hturn]) hrest h⟩
    · exact ih (by rw [Option.map_some, Option.map_some, hm]) hrest h

theorem issuedFrom_splice {before block after : List ChatMessage} {text : Chars}
    (hafter : ∀ m ∈ after.head?, m.role ≠ .tool)
    (h : IssuedFrom turn (before ++ block ++ after)) :
    IssuedFrom turn (before ++ ChatMessage.user text :: after) := by
  rw [issuedFrom_append, issuedFrom_append] at h
  refine issuedFrom_append.mpr ⟨h.1.1, ?_⟩
  rw [IssuedFrom, if_neg (by exact nofun)]
  exact (issuedFrom_of_head hafter _).mp h.2

theorem role_summaries (items : List ConversationItem) (budget : Nat) {l : List Nat} {k : Nat}
    (hl : l.Pairwise (· < ·)) (hk : ∀ s ∈ l, k ≤ s)
    (h : ∀ m ∈ u[k]?, m.role ≠ .tool) :
    ∀ m ∈ ((l.map (summarisation items budget)).foldr (fun a u => applyAction u a) u)[k]?,
      m.role ≠ .tool := by
  cases l with
  | nil => exact h
  | cons s l =>
    obtain ⟨hs, hl⟩ := pairwise_cons.mp hl
    have hks := hk s mem_cons_self
    rcases Nat.lt_or_eq_of_le hks with hlt | rfl
    · rw [getElem?_summaries items budget]
      · exact h
      · intro t ht
        exact Nat.lt_of_lt_of_le hlt (by
          rcases mem_cons.mp ht with rfl | ht
          · exact Nat.le_refl _
          · exact Nat.le_of_lt (hs t ht))
    · have hkept := getElem?_summaries items budget (u := u) hs
      rw [map_cons, foldr_cons, summarisation, applyAction]
      generalize (l.map (summarisation items budget)).foldr (fun a u => applyAction u a) u = u' at *
      split_ifs with hfit
      · have hlen : (u'.take k).length = k := by
          rw [length_take]
          omega
        rw [getElem?_append_right (Nat.le_of_eq hlen), hlen, Nat.sub_self]
        rintro m hm
        obtain rfl := Option.some.inj hm
        exact fun h => (by cases h)
      · rw [hkept]
        exact h

/-- **Summaries of whole blocks leave every result its call.** -/
theorem issued_summaries (items : List ConversationItem) (budget : Nat) {l : List Nat}
    (hu : Issued u) (hl : l.Pairwise (fun s t => blockEnd items s ≤ t))
    (hstops : ∀ s ∈ l, ∀ m ∈ u[blockEnd items s]?, m.role ≠ .tool) :
    Issued ((l.map (summarisation items budget)).foldr (fun a u => applyAction u a) u) := by
  induction l with
  | nil => exact hu
  | cons s l ih =>
    obtain ⟨hs, hl⟩ := pairwise_cons.mp hl
    obtain ⟨hstop, hstops⟩ := forall_mem_cons.mp hstops
    have hissued := ih hl hstops
    have hlt : l.Pairwise (· < ·) := hl.imp (fun hst => Nat.lt_of_lt_of_le lt_blockEnd hst)
    have hbehind := role_summaries items budget hlt hs hstop
    rw [map_cons, foldr_cons, summarisation, applyAction]
    generalize (l.map (summarisation items budget)).foldr (fun a u => applyAction u a) u = u' at *
    split_ifs with hfit
    · have hsplit : u'.take s ++ (u'.take (blockEnd items s)).drop s ++ u'.drop (blockEnd items s)
          = u' := by
        have htake : u'.take s = (u'.take (blockEnd items s)).take s := by
          rw [take_take, Nat.min_eq_left (Nat.le_of_lt hfit.1)]
        rw [htake, take_append_drop, take_append_drop]
      rw [Issued, ← hsplit] at hissued
      refine issuedFrom_splice ?_ hissued
      rw [head?_drop]
      exact hbehind
    · exact hissued

theorem issued_applyActions {budget : Nat} (hu : Issued u) :
    Issued (applyActions u (planned (u.map itemOf) budget)) := by
  rw [applyActions, foldl_reverse, planned, foldr_append, foldr_append]
  refine IssuedFrom.congr rfl (map_frame_truncations _ _) ?_
  have hframe := map_frame_truncations (u := u) (u.map itemOf) (truncatedRecent (u.map itemOf) budget)
  have hissued : Issued (((truncatedRecent (u.map itemOf) budget).map
      (truncation (u.map itemOf))).foldr (fun a u => applyAction u a) u) :=
    IssuedFrom.congr rfl hframe hu
  generalize ((truncatedRecent (u.map itemOf) budget).map (truncation (u.map itemOf))).foldr
    (fun a u => applyAction u a) u = u' at *
  refine issued_summaries _ budget hissued summarisedBlocks_apart (fun s _ m' hm' hrole' => ?_)
  have hsame : (u[blockEnd (u.map itemOf) s]?).map ChatMessage.frame = some m'.frame := by
    rw [← getElem?_map, ← hframe, getElem?_map, Option.mem_def.mp hm']
    rfl
  obtain ⟨m, hm, heq⟩ := Option.map_eq_some_iff.mp hsame
  have hrole : m.role = m'.role := congrArg Prod.fst heq
  refine @kindAt_blockEnd (u.map itemOf) s ?_
  rw [kindAt, getElem?_map, hm]
  exact congrArg some (kind_toolResult.mpr (hrole.trans hrole'))

end Issue

/-- **Every plan is well shaped, and results keep their calls.**  Of the first item a plan takes at
most the text, if it is a tool result; the ranges it summarises are whole blocks, apart from each
other and before the recent block; the recent block's results are truncated when nothing else is
left to reclaim.  A conversation whose results stand behind their calls stays one. -/
theorem planCompaction_wellShaped (items : List ConversationItem) (budget : Nat)
    (plan : CompactionPlan) (hplan : planCompaction items budget = some plan) :
    WellShaped items plan.actions ∧ ∀ conversation : List ChatMessage,
      conversation.map itemOf = items → Issued conversation →
      Issued (applyActions conversation plan.actions) := by
  have hactions : plan.actions = planned items budget := (planCompaction_spec hplan).1
  rw [hactions]
  refine ⟨planned_wellShaped, ?_⟩
  rintro conversation rfl hissued
  exact issued_applyActions hissued

/-- Three long reads and a budget that nothing meets. -/
theorem threeReads_wellShaped : ∃ plan,
    planCompaction (threeReads.map itemOf) 1 = some plan ∧
    WellShaped (threeReads.map itemOf) plan.actions ∧
    Issued (applyActions threeReads plan.actions) := by
  obtain ⟨plan, hplan⟩ : ∃ plan, planCompaction (threeReads.map itemOf) 1 = some plan :=
    Option.isSome_iff_exists.mp (by decide +kernel)
  obtain ⟨hshape, hissued⟩ := planCompaction_wellShaped _ 1 plan hplan
  exact ⟨plan, hplan, hshape, hissued threeReads rfl (by simp [threeReads, Issued, IssuedFrom,
    ChatMessage.user, callMessage, resultMessage, ChatMessage.Issues])⟩

/-- Every tool result has its issuing message somewhere before it. -/
def Preceded (conversation : List ChatMessage) : Prop :=
  ∀ j < conversation.length, ∀ m ∈ conversation[j]?, m.role = .tool →
    ∃ c ∈ conversation.take j, c.Issues m

instance (conversation : List ChatMessage) : Decidable (Preceded conversation) :=
  inferInstanceAs (Decidable (∀ j < conversation.length, _))

/-- A call, its result, a note, and a second result for the call. -/
def lateResult : List ChatMessage :=
  [.user ['p'], ⟨.assistant, List.replicate 400 'a', [⟨['1'], ['a'], []⟩], none, false⟩,
    resultMessage ['x'], .user ['n'], resultMessage ['y'], callMessage 'b', resultMessage ['z']]

/-- A tool result in the first place is truncated, and a summary takes the call from a result that a
note parts from it. -/
theorem first_result_truncated :
    (∃ plan, planCompaction [⟨.toolResult, List.replicate 400 'x'⟩] 1 = some plan ∧
      ∃ a ∈ plan.actions, a.Touches 0) ∧
    Preceded lateResult ∧
    ∃ plan, planCompaction (lateResult.map itemOf) 1 = some plan ∧
      ¬ Preceded (applyActions lateResult plan.actions) := by
  have hfirst : ∃ plan ∈ planCompaction [⟨.toolResult, List.replicate 400 'x'⟩] 1,
      ∃ a ∈ plan.actions, a = truncation [⟨.toolResult, List.replicate 400 'x'⟩] 0 := by
    decide +kernel
  have hlate : ∃ plan ∈ planCompaction (lateResult.map itemOf) 1,
      ¬ Preceded (applyActions lateResult plan.actions) := by
    decide +kernel
  obtain ⟨plan, hplan, a, ha, rfl⟩ := hfirst
  obtain ⟨plan', hplan', hnot⟩ := hlate
  exact ⟨⟨plan, hplan, _, ha, rfl⟩, by decide +kernel, plan', hplan', hnot⟩

end Compaction

end Modbit
