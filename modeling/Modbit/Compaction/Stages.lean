import Modbit.Compaction.HotPath
import Modbit.Lib.Reclaim
import Mathlib.Data.List.TakeWhile

/-!
# The stages of a plan

The three stages of the planner are instances of `reclaim`: `truncatedOld`,
`summarisedBlocks` and `truncatedRecent` are what they truncate and summarise, said of the
items and the budget alone, and `planCompaction_spec` that the plan's actions are these, in
this order, and its projection the tokens they leave.
-/

namespace Modbit

open Lib List

namespace Compaction

/-! ### What is truncated and summarised -/

section Targets

variable (items : List ConversationItem) (budget : Nat)

def tokensAt (i : Nat) : Nat := estimateTokens (textAt items i)

def shrunk (i : Nat) : Chars := truncatedReplacement (textAt items i)

def truncationSaving (i : Nat) : Nat := tokensAt items i - estimateTokens (shrunk items i)

def oldResults : List Nat :=
  (List.range items.length).filter
    (fun i => kindAt items i = some .toolResult ∧ i < recentBlockStart items)

def recentResults : List Nat :=
  (List.range' (recentBlockStart items) (items.length - recentBlockStart items)).filter
    (fun i => kindAt items i = some .toolResult)

/-- Where the blocks before the recent one start, from an index on. -/
def blocksFrom (index : Nat) : List Nat :=
  (List.range' index (items.length - index)).filter
    (fun i => kindAt items i = some .assistantToolCalls ∧ i < recentBlockStart items)

def total : Nat := (items.map ConversationItem.tokens).sum

/-- The old tool results truncated to come within the budget. -/
def truncatedOld : List Nat :=
  reclaim budget (truncationSaving items) (total items) (oldResults items)

/-- The tokens left at each index, some results truncated. -/
def shrinkAll (residual : List Nat) (indices : List Nat) : List Nat :=
  indices.foldl (fun r i => r.set i (estimateTokens (shrunk items i))) residual

def oldResidual : List Nat :=
  shrinkAll items (items.map ConversationItem.tokens) (truncatedOld items budget)

def blockTokens (start : Nat) : Nat :=
  (slice (oldResidual items budget) start (blockEnd items start)).sum

def summaryOf (start : Nat) : Chars := blockSummary items start (blockTokens items budget start)

def blockSaving (start : Nat) : Nat :=
  blockTokens items budget start - estimateTokens (summaryOf items budget start)

/-- The blocks summarised when the truncations are not enough. -/
def summarisedBlocks : List Nat :=
  reclaim budget (blockSaving items budget) (oldResidual items budget).sum (blocksFrom items 1)

/-- The tokens left where a range is replaced by one entry. -/
def foldRange (residual : List Nat) (start stop tokens : Nat) : List Nat :=
  (residual.mapIdx (fun i r => if start ≤ i ∧ i < stop then 0 else r)).set start tokens

/-- The tokens left where one more block is summarised. -/
def foldBlock (residual : List Nat) (start : Nat) : List Nat :=
  foldRange residual start (blockEnd items start) (estimateTokens (summaryOf items budget start))

def blockResidual : List Nat :=
  (summarisedBlocks items budget).foldl (foldBlock items budget) (oldResidual items budget)

/-- The results of the recent block truncated as a last resort. -/
def truncatedRecent : List Nat :=
  reclaim budget (truncationSaving items) (blockResidual items budget).sum (recentResults items)

def finalResidual : List Nat :=
  shrinkAll items (blockResidual items budget) (truncatedRecent items budget)

end Targets

/-! ### Blocks -/

section Blocks

variable {items : List ConversationItem} {i s : Nat}

theorem lt_length_of_kindAt {kind : ItemKind} (h : kindAt items i = some kind) :
    i < items.length := by
  obtain ⟨item, hitem, -⟩ := Option.map_eq_some_iff.mp h
  exact (List.getElem?_eq_some_iff.mp hitem).1

theorem recentFrom_spec (len : Nat) (l : List (ConversationItem × Nat)) :
    recentFrom len l len = len ∨
      ∃ e ∈ l, e.1.kind = .assistantToolCalls ∧ recentFrom len l len = e.2 := by
  induction l with
  | nil => exact Or.inl rfl
  | cons e l ih =>
    obtain ⟨item, index⟩ := e
    have hlater : recentFrom len l len = len ∨
        ∃ e ∈ (item, index) :: l, e.1.kind = .assistantToolCalls ∧ recentFrom len l len = e.2 := by
      rcases ih with h | ⟨e, he, hkind, h⟩
      · exact Or.inl h
      · exact Or.inr ⟨e, mem_cons_of_mem _ he, hkind, h⟩
    rw [recentFrom]
    cases hkind : item.kind with
    | toolResult => exact hlater
    | assistantToolCalls => exact Or.inr ⟨(item, index), mem_cons_self, hkind, rfl⟩
    | userTurn =>
      rw [if_neg (Nat.lt_irrefl len)]
      exact hlater
    | assistantText =>
      rw [if_neg (Nat.lt_irrefl len)]
      exact hlater

theorem recentBlockStart_spec (items : List ConversationItem) :
    recentBlockStart items = items.length ∨
      kindAt items (recentBlockStart items) = some .assistantToolCalls := by
  rcases recentFrom_spec items.length items.zipIdx.reverse with h | ⟨e, he, hkind, h⟩
  · exact Or.inl h
  · refine Or.inr ?_
    have hget := mem_zipIdx_iff_getElem?.mp (mem_reverse.mp he)
    rw [recentBlockStart, h, kindAt, hget, Option.map_some, hkind]

theorem lt_blockEnd : s < blockEnd items s := by
  rw [blockEnd]
  omega

theorem blockEnd_le_length (h : s < items.length) : blockEnd items s ≤ items.length := by
  have hle := (takeWhile_sublist (fun i => decide (i.kind = .toolResult))
    (l := items.drop (s + 1))).length_le
  rw [length_drop] at hle
  rw [blockEnd]
  omega

theorem kindAt_of_block (hlt : s < i) (hend : i < blockEnd items s) :
    kindAt items i = some .toolResult := by
  obtain ⟨k, rfl⟩ : ∃ k, i = s + 1 + k := ⟨i - (s + 1), by omega⟩
  rw [blockEnd] at hend
  have hk : k < ((items.drop (s + 1)).takeWhile (fun i => i.kind = .toolResult)).length := by omega
  have hmem := getElem_mem hk
  have hkind := mem_takeWhile_imp hmem
  rw [decide_eq_true_eq] at hkind
  have hpre := takeWhile_prefix (fun i => decide (i.kind = .toolResult))
    (l := items.drop (s + 1))
  have hget : (items.drop (s + 1))[k]? = some
      ((items.drop (s + 1)).takeWhile (fun i => i.kind = .toolResult))[k] :=
    prefix_iff_getElem?.mp hpre k hk
  rw [getElem?_drop] at hget
  rw [kindAt, hget, Option.map_some, hkind]

theorem blockEnd_le_recent (h : s < recentBlockStart items) :
    blockEnd items s ≤ recentBlockStart items := by
  rcases recentBlockStart_spec items with hlen | hkind
  · rw [hlen] at h ⊢
    exact blockEnd_le_length h
  · by_contra hlt
    have hres := kindAt_of_block h (Nat.lt_of_not_le hlt)
    rw [hkind] at hres
    cases hres

theorem range'_eq_cons {n : Nat} (h : i < n) :
    List.range' i (n - i) = i :: List.range' (i + 1) (n - (i + 1)) := by
  obtain ⟨k, hk⟩ : ∃ k, n - i = k + 1 := ⟨n - i - 1, by omega⟩
  rw [hk, range'_succ]
  congr 2
  omega

theorem blocksFrom_skip (h : i < items.length)
    (hkind : ¬ (kindAt items i = some .assistantToolCalls ∧ i < recentBlockStart items)) :
    blocksFrom items i = blocksFrom items (i + 1) := by
  rw [blocksFrom, range'_eq_cons h, filter_cons_of_neg (by simpa using hkind), blocksFrom]

theorem blocksFrom_skip_to (stop : Nat) (hle : i ≤ stop) (hstop : stop ≤ items.length)
    (hkind : ∀ k, i ≤ k → k < stop → kindAt items k = some .toolResult) :
    blocksFrom items i = blocksFrom items stop := by
  induction hn : stop - i generalizing i with
  | zero =>
    have : i = stop := by omega
    rw [this]
  | succ n ih =>
    have hskip : ¬ (kindAt items i = some .assistantToolCalls ∧ i < recentBlockStart items) := by
      rintro ⟨hcalls, -⟩
      rw [hkind i (Nat.le_refl i) (by omega)] at hcalls
      cases hcalls
    rw [blocksFrom_skip (by omega) hskip]
    exact ih (by omega) (fun k hk hlt => hkind k (by omega) hlt) (by omega)

theorem blocksFrom_cons (hkind : kindAt items i = some .assistantToolCalls)
    (hrecent : i < recentBlockStart items) :
    blocksFrom items i = i :: blocksFrom items (blockEnd items i) := by
  have hi := lt_length_of_kindAt hkind
  have hrest : blocksFrom items (i + 1) = blocksFrom items (blockEnd items i) :=
    blocksFrom_skip_to _ lt_blockEnd (blockEnd_le_length hi)
      (fun k hk hlt => kindAt_of_block hk hlt)
  rw [← hrest, blocksFrom, range'_eq_cons hi,
    filter_cons_of_pos (by simpa using ⟨hkind, hrecent⟩), blocksFrom]

theorem mem_blocksFrom {index : Nat} (h : s ∈ blocksFrom items index) :
    index ≤ s ∧ kindAt items s = some .assistantToolCalls ∧ s < recentBlockStart items := by
  obtain ⟨hmem, hkind⟩ := mem_filter.mp h
  exact ⟨(mem_range'_1.mp hmem).1, of_decide_eq_true hkind⟩

theorem blocks_apart (hi : kindAt items i = some .assistantToolCalls) (hlt : s < i) :
    blockEnd items s ≤ i := by
  by_contra hle
  have hres := kindAt_of_block hlt (Nat.lt_of_not_le hle)
  rw [hi] at hres
  cases hres

end Blocks

/-! ### Residuals -/

section Residuals

variable {items : List ConversationItem} {budget : Nat} {r r' : List Nat} {i s : Nat} {v : Nat}

theorem sum_set (h : i < r.length) : (r.set i v).sum + r.getD i 0 = r.sum + v := by
  induction r generalizing i with
  | nil => cases h
  | cons a r ih =>
    cases i with
    | zero =>
      simp only [set_cons_zero, sum_cons, getD_cons_zero]
      omega
    | succ i =>
      have hrest := ih (Nat.lt_of_succ_lt_succ h)
      simp only [set_cons_succ, sum_cons, getD_cons_succ]
      omega

theorem getD_set (v : Nat) (j : Nat) (h : i < r.length) :
    (r.set i v).getD j 0 = if j = i then v else r.getD j 0 := by
  by_cases hj : i = j
  · subst hj
    simp [h]
  · simp [hj, Ne.symm hj]

theorem length_shrinkAll (l : List Nat) : (shrinkAll items r l).length = r.length := by
  induction l generalizing r with
  | nil => rfl
  | cons i l ih =>
    show (shrinkAll items (r.set i _) l).length = _
    rw [ih, length_set]

theorem getD_shrinkAll (l : List Nat) (h : ∀ i ∈ l, i < r.length) (j : Nat) :
    (shrinkAll items r l).getD j 0
      = if j ∈ l then estimateTokens (shrunk items j) else r.getD j 0 := by
  induction l generalizing r with
  | nil => rw [if_neg not_mem_nil]; rfl
  | cons i l ih =>
    have hi := h i mem_cons_self
    show (shrinkAll items (r.set i _) l).getD j 0 = _
    rw [ih (fun k hk => by rw [length_set]; exact h k (mem_cons_of_mem i hk)), getD_set _ _ hi]
    by_cases hl : j ∈ l
    · rw [if_pos hl, if_pos (mem_cons_of_mem i hl)]
    · by_cases hj : j = i
      · subst hj
        rw [if_neg hl, if_pos rfl, if_pos mem_cons_self]
      · rw [if_neg hl, if_neg hj, if_neg (by simp [hj, hl])]

variable {stop : Nat}

theorem foldRange_eq (hlt : s < stop) (hend : stop ≤ r.length) : foldRange r s stop v
      = r.take s ++ v :: (List.replicate (stop - (s + 1)) 0 ++ r.drop stop) := by
  have htake : (r.take s).length = s := by
    rw [length_take]
    omega
  refine ext_getElem? (fun j => ?_)
  rw [foldRange, getElem?_set, length_mapIdx, getElem?_mapIdx]
  by_cases hj : s = j
  · subst hj
    rw [if_pos rfl, if_pos (by omega), getElem?_append_right (by omega), htake,
      Nat.sub_self, getElem?_cons_zero]
  rw [if_neg hj]
  by_cases hbefore : j < s
  · rw [getElem?_append_left (by omega), getElem?_take, if_pos hbefore]
    have hno : ¬ (s ≤ j ∧ j < stop) := by omega
    simp [hno]
  · rw [getElem?_append_right (by omega), htake]
    obtain ⟨k, rfl⟩ : ∃ k, j = s + 1 + k := ⟨j - (s + 1), by omega⟩
    rw [show s + 1 + k - s = k + 1 by omega, getElem?_cons_succ]
    by_cases hin : s + 1 + k < stop
    · rw [getElem?_append_left (by rw [length_replicate]; omega),
        getElem?_replicate, if_pos (by omega), getElem?_eq_getElem (by omega)]
      have hyes : s ≤ s + 1 + k ∧ s + 1 + k < stop := ⟨by omega, hin⟩
      simp [hyes]
    · rw [getElem?_append_right (by rw [length_replicate]; omega), length_replicate, getElem?_drop]
      have hno : ¬ (s ≤ s + 1 + k ∧ s + 1 + k < stop) := by omega
      have hidx : stop + (k - (stop - (s + 1))) = s + 1 + k := by omega
      rw [hidx]
      simp [hno]

theorem length_foldRange : (foldRange r s stop v).length = r.length := by
  rw [foldRange, length_set, length_mapIdx]

theorem sum_foldRange (hlt : s < stop) (hend : stop ≤ r.length) :
    (foldRange r s stop v).sum + (slice r s stop).sum = r.sum + v := by
  have hsum : r.sum = (r.take s).sum + (slice r s stop).sum + (r.drop stop).sum := by
    have htake : r.take s = (r.take stop).take s := by
      rw [take_take, Nat.min_eq_left (by omega)]
    rw [slice, htake, ← sum_append, take_append_drop, ← sum_append, take_append_drop]
  rw [foldRange_eq hlt hend, hsum]
  simp only [sum_append, sum_cons, sum_replicate_nat, Nat.mul_zero]
  omega

theorem getD_foldBlock (hs : s < r.length) (j : Nat) :
    (foldBlock items budget r s).getD j 0
      = if j = s then estimateTokens (summaryOf items budget s)
        else if s < j ∧ j < blockEnd items s then 0 else r.getD j 0 := by
  rw [foldBlock, foldRange, getD_set _ _ (by rw [length_mapIdx]; exact hs)]
  by_cases hj : j = s
  · rw [if_pos hj, if_pos hj]
  · rw [if_neg hj, if_neg hj, getD_eq_getElem?_getD, getElem?_mapIdx]
    have hiff : (s ≤ j ∧ j < blockEnd items s) ↔ (s < j ∧ j < blockEnd items s) := by omega
    by_cases hin : s < j ∧ j < blockEnd items s
    · rw [if_pos hin]
      cases r[j]? with
      | none => rfl
      | some v => simp [hiff.mpr hin]
    · rw [if_neg hin, getD_eq_getElem?_getD]
      cases r[j]? with
      | none => rfl
      | some v => simp [mt hiff.mp hin]

theorem slice_congr (hlen : r.length = r'.length)
    (h : ∀ i, s ≤ i → r.getD i 0 = r'.getD i 0) : slice r s stop = slice r' s stop := by
  refine ext_getElem? (fun j => ?_)
  rw [slice, slice, getElem?_drop, getElem?_drop, getElem?_take, getElem?_take]
  by_cases hj : s + j < stop
  · rw [if_pos hj, if_pos hj]
    have hget := h (s + j) (by omega)
    rw [getD_eq_getElem?_getD, getD_eq_getElem?_getD] at hget
    by_cases hlt : s + j < r.length
    · rw [getElem?_eq_getElem hlt, getElem?_eq_getElem (hlen ▸ hlt)] at hget ⊢
      exact congrArg some hget
    · rw [getElem?_eq_none (by omega), getElem?_eq_none (by omega)]
  · rw [if_neg hj, if_neg hj]

end Residuals

/-! ### The stages -/

section Stages

variable {items : List ConversationItem} {budget : Nat}

def truncation (items : List ConversationItem) (i : Nat) : CompactionAction :=
  .truncateToolResult i (shrunk items i)

def summarisation (items : List ConversationItem) (budget start : Nat) : CompactionAction :=
  .summarizeBlock start (blockEnd items start) (summaryOf items budget start)

variable {i : Nat}

theorem inRemoved_eq_false {removed : List (Nat × Nat)} (h : ∀ r ∈ removed, r.2 ≤ i) :
    inRemoved removed i = false := by
  rw [inRemoved, any_eq_false]
  intro r hr
  have := h r hr
  simp
  omega

def Draft.shrink (items : List ConversationItem) (d : Draft) (i : Nat) : Draft :=
  { d with
    residual := d.residual.set i (estimateTokens (shrunk items i))
    actions := d.actions ++ [truncation items i]
    summarized := d.summarized ++
      [(none, "tool result truncated: ".toList ++ headLine (textAt items i))] }

theorem truncateTurn_spared {spared : Nat → Bool}
    (h : ¬ (kindAt items i = some .toolResult ∧ spared i = false)) (d : Draft) :
    truncateTurn items spared d i = d := by
  rw [truncateTurn, if_pos]
  by_cases hkind : kindAt items i = some .toolResult
  · have hspared : spared i = true := by
      cases hs : spared i with
      | true => rfl
      | false => exact absurd ⟨hkind, hs⟩ h
    exact Or.inr (Or.inl hspared)
  · exact Or.inl hkind

variable {d : Draft}

theorem truncateTurn_eq {spared : Nat → Bool}
    (hkind : kindAt items i = some .toolResult) (hspared : spared i = false)
    (hremoved : inRemoved d.removed i = false) (htokens : d.residual.getD i 0 = tokensAt items i) :
    truncateTurn items spared d i = if 0 < truncationSaving items i then d.shrink items i else d := by
  have hnot : ¬ (kindAt items i ≠ some .toolResult ∨ spared i = true
      ∨ inRemoved d.removed i = true) := by
    simp [hkind, hspared, hremoved]
  rw [truncateTurn, if_neg hnot, htokens]
  by_cases hsaves : tokensAt items i ≤ estimateTokens (shrunk items i)
  · have hzero : ¬ 0 < truncationSaving items i := by
      rw [truncationSaving]
      omega
    rw [if_neg hzero]
    exact if_pos hsaves
  · have hpos : 0 < truncationSaving items i := by
      rw [truncationSaving]
      omega
    rw [if_pos hpos]
    exact if_neg hsaves

/-- **A truncating stage reclaims from its candidates.** -/
theorem truncateStage_spec (spared : Nat → Bool) (indices : List Nat) : ∀ d : Draft,
    indices.Nodup → d.residual.length = items.length →
    (∀ i ∈ indices, kindAt items i = some .toolResult → spared i = false →
      inRemoved d.removed i = false ∧ d.residual.getD i 0 = tokensAt items i) →
    let taken := reclaim budget (truncationSaving items) d.current
      (indices.filter (fun i => kindAt items i = some .toolResult ∧ spared i = false))
    (truncateStage items budget spared indices d).actions
        = d.actions ++ taken.map (truncation items) ∧
    (truncateStage items budget spared indices d).residual = shrinkAll items d.residual taken ∧
    (truncateStage items budget spared indices d).removed = d.removed := by
  induction indices with
  | nil =>
    intro d _ _ _
    exact ⟨(append_nil _).symm, rfl, rfl⟩
  | cons i indices ih =>
    intro d hnodup hlen hres
    obtain ⟨hi, hnodup⟩ := nodup_cons.mp hnodup
    have hres' := fun k hk => hres k (mem_cons_of_mem i hk)
    rw [truncateStage]
    by_cases hcost : d.current ≤ budget
    · rw [if_pos hcost, reclaim_of_le hcost]
      exact ⟨(append_nil _).symm, rfl, rfl⟩
    rw [if_neg hcost]
    by_cases hcand : kindAt items i = some .toolResult ∧ spared i = false
    · obtain ⟨hremoved, htokens⟩ := hres i mem_cons_self hcand.1 hcand.2
      rw [filter_cons_of_pos (by simpa using hcand), reclaim, if_neg hcost,
        truncateTurn_eq hcand.1 hcand.2 hremoved htokens]
      by_cases hpos : 0 < truncationSaving items i
      · have hin : i < d.residual.length := hlen ▸ lt_length_of_kindAt hcand.1
        have hcurrent : d.current - truncationSaving items i = (d.shrink items i).current := by
          have hset := sum_set (v := estimateTokens (shrunk items i)) hin
          rw [truncationSaving] at hpos ⊢
          show d.residual.sum - _ = (d.residual.set i (estimateTokens (shrunk items i))).sum
          omega
        rw [if_pos hpos, if_pos hpos, hcurrent]
        obtain ⟨hactions, hresidual, hrem⟩ := ih (d.shrink items i) hnodup
          ((length_set).trans hlen) (fun k hk hkind hspared => by
            refine ⟨(hres' k hk hkind hspared).1, ?_⟩
            have hki : k ≠ i := fun he => hi (he ▸ hk)
            rw [Draft.shrink, getD_set _ _ hin, if_neg hki, (hres' k hk hkind hspared).2])
        refine ⟨hactions.trans ?_, hresidual, hrem⟩
        rw [Draft.shrink, append_assoc]
        rfl
      · rw [if_neg hpos, if_neg hpos]
        exact ih d hnodup hlen hres'
    · rw [truncateTurn_spared hcand, filter_cons_of_neg (by simpa using hcand)]
      exact ih d hnodup hlen hres'

variable {index : Nat}

theorem blocksFrom_of_le (h : items.length ≤ index) : blocksFrom items index = [] := by
  rw [blocksFrom, Nat.sub_eq_zero_of_le h]
  rfl

def Draft.fold (items : List ConversationItem) (budget : Nat) (d : Draft) (index : Nat) : Draft where
  residual := foldBlock items budget d.residual index
  actions := d.actions ++ [summarisation items budget index]
  summarized := d.summarized ++
    (slice items index (blockEnd items index)).map (fun i => (none, headLine i.text))
  removed := d.removed ++ [(index, blockEnd items index)]

theorem summarizeTurn_eq
    (htokens : (slice d.residual index (blockEnd items index)).sum = blockTokens items budget index) :
    summarizeTurn items d index
      = if 0 < blockSaving items budget index then d.fold items budget index else d := by
  rw [summarizeTurn, htokens]
  by_cases hsaves : blockTokens items budget index ≤ estimateTokens (summaryOf items budget index)
  · have hzero : ¬ 0 < blockSaving items budget index := by
      rw [blockSaving]
      omega
    rw [if_neg hzero]
    exact if_pos hsaves
  · have hpos : 0 < blockSaving items budget index := by
      rw [blockSaving]
      omega
    rw [if_pos hpos]
    exact if_neg hsaves

/-- **The summarising stage reclaims from the blocks.** -/
theorem summarizeStage_spec (fuel : Nat) : ∀ (index : Nat) (d : Draft),
    items.length ≤ index + fuel → d.residual.length = items.length →
    (oldResidual items budget).length = items.length →
    (∀ i, index ≤ i → d.residual.getD i 0 = (oldResidual items budget).getD i 0) →
    (∀ r ∈ d.removed, r.2 ≤ index) →
    let taken := reclaim budget (blockSaving items budget) d.current (blocksFrom items index)
    let stage := summarizeStage items budget (recentBlockStart items) fuel index d
    stage.actions = d.actions ++ taken.map (summarisation items budget) ∧
    stage.residual = taken.foldl (foldBlock items budget) d.residual ∧
    stage.removed = d.removed ++ taken.map (fun s => (s, blockEnd items s)) := by
  induction fuel with
  | zero =>
    intro index d hfuel _ _ _ _
    rw [blocksFrom_of_le (Nat.add_zero index ▸ hfuel), summarizeStage]
    exact ⟨(append_nil _).symm, rfl, (append_nil _).symm⟩
  | succ fuel ih =>
    intro index d hfuel hlen hold hres hremoved
    rw [summarizeStage]
    by_cases hgo : budget < d.current ∧ index < items.length
    · rw [if_pos hgo]
      have hcost : ¬ d.current ≤ budget := Nat.not_le_of_lt hgo.1
      have hout : inRemoved d.removed index = false := inRemoved_eq_false hremoved
      by_cases hblock : kindAt items index = some .assistantToolCalls ∧
          index < recentBlockStart items
      · have hlt : index < blockEnd items index := lt_blockEnd
        have hend := blockEnd_le_length hgo.2
        have hrecent := blockEnd_le_recent hblock.2
        have htokens : (slice d.residual index (blockEnd items index)).sum
            = blockTokens items budget index := by
          rw [blockTokens, slice_congr (hlen.trans hold.symm) hres]
        have hremoved' : ∀ r ∈ d.removed, r.2 ≤ blockEnd items index :=
          fun r hr => Nat.le_trans (hremoved r hr) (Nat.le_of_lt hlt)
        rw [if_neg (by simp [hblock.1, hout, hblock.2]), if_neg (Nat.not_lt_of_le hrecent),
          blocksFrom_cons hblock.1 hblock.2, reclaim, if_neg hcost, summarizeTurn_eq htokens]
        by_cases hpos : 0 < blockSaving items budget index
        · have hcurrent : d.current - blockSaving items budget index
              = (d.fold items budget index).current := by
            have hfold := sum_foldRange (v := estimateTokens (summaryOf items budget index))
              hlt (hlen.symm ▸ hend)
            rw [blockSaving] at hpos ⊢
            show d.residual.sum - _ = (foldRange d.residual index (blockEnd items index)
              (estimateTokens (summaryOf items budget index))).sum
            omega
          rw [if_pos hpos, if_pos hpos, hcurrent]
          obtain ⟨hactions, hresidual, hrem⟩ := ih (blockEnd items index)
            (d.fold items budget index) (by omega) (length_foldRange.trans hlen) hold
            (fun i hi => by
              rw [Draft.fold, getD_foldBlock (by omega), if_neg (by omega), if_neg (by omega),
                hres i (by omega)])
            (fun r hr => by
              rcases mem_append.mp hr with hr | hr
              · exact hremoved' r hr
              · rw [mem_singleton.mp hr])
          refine ⟨hactions.trans ?_, hresidual, hrem.trans ?_⟩
          · rw [Draft.fold, append_assoc]
            rfl
          · rw [Draft.fold, append_assoc]
            rfl
        · rw [if_neg hpos, if_neg hpos]
          exact ih _ d (by omega) hlen hold (fun i hi => hres i (by omega)) hremoved'
      · have hskip : kindAt items index ≠ some .assistantToolCalls
            ∨ inRemoved d.removed index ∨ recentBlockStart items ≤ index := by
          by_cases hkind : kindAt items index = some .assistantToolCalls
          · exact Or.inr (Or.inr (Nat.le_of_not_lt (fun hlt => hblock ⟨hkind, hlt⟩)))
          · exact Or.inl hkind
        rw [if_pos hskip, blocksFrom_skip hgo.2 hblock]
        exact ih _ d (by omega) hlen hold (fun i hi => hres i (by omega))
          (fun r hr => Nat.le_succ_of_le (hremoved r hr))
    · rw [if_neg hgo]
      have hnone : reclaim budget (blockSaving items budget) d.current (blocksFrom items index)
          = [] := by
        by_cases hcost : d.current ≤ budget
        · exact reclaim_of_le hcost _
        · rw [blocksFrom_of_le (by omega)]
          rfl
      rw [hnone]
      exact ⟨(append_nil _).symm, rfl, (append_nil _).symm⟩

/-! ### Every action pays -/

def Draft.weight (d : Draft) : Nat := d.current + d.actions.length

theorem truncateTurn_weight (spared : Nat → Bool) (i : Nat)
    (hlen : d.residual.length = items.length) :
    (truncateTurn items spared d i).weight ≤ d.weight ∧
    (truncateTurn items spared d i).residual.length = items.length := by
  rw [truncateTurn]
  by_cases hskip : kindAt items i ≠ some .toolResult ∨ spared i ∨ inRemoved d.removed i
  · rw [if_pos hskip]
    exact ⟨Nat.le_refl _, hlen⟩
  rw [if_neg hskip]
  by_cases hsaves : d.residual.getD i 0 ≤ estimateTokens (truncatedReplacement (textAt items i))
  · rw [if_pos hsaves]
    exact ⟨Nat.le_refl _, hlen⟩
  · rw [if_neg hsaves]
    refine ⟨?_, length_set.trans hlen⟩
    have hkind : kindAt items i = some .toolResult := by
      by_contra hno
      exact hskip (Or.inl hno)
    have hset := sum_set (v := estimateTokens (truncatedReplacement (textAt items i)))
      (hlen ▸ lt_length_of_kindAt hkind : i < d.residual.length)
    simp only [Draft.weight, Draft.current, length_append, length_singleton]
    omega

theorem truncateStage_weight (spared : Nat → Bool) (indices : List Nat) : ∀ d : Draft,
    d.residual.length = items.length →
    (truncateStage items budget spared indices d).weight ≤ d.weight ∧
    (truncateStage items budget spared indices d).residual.length = items.length := by
  induction indices with
  | nil => intro d hlen; exact ⟨Nat.le_refl _, hlen⟩
  | cons i indices ih =>
    intro d hlen
    rw [truncateStage]
    split_ifs
    · exact ⟨Nat.le_refl _, hlen⟩
    · obtain ⟨hweight, hlen'⟩ := truncateTurn_weight spared i hlen
      obtain ⟨hrest, hlen''⟩ := ih _ hlen'
      exact ⟨Nat.le_trans hrest hweight, hlen''⟩

theorem summarizeTurn_weight (hindex : index < items.length)
    (hlen : d.residual.length = items.length) :
    (summarizeTurn items d index).weight ≤ d.weight ∧
    (summarizeTurn items d index).residual.length = items.length := by
  have hend := blockEnd_le_length hindex
  rw [summarizeTurn]
  generalize htokens : (slice d.residual index (blockEnd items index)).sum = tokens
  by_cases hsaves : tokens ≤ estimateTokens (blockSummary items index tokens)
  · rw [if_pos hsaves]
    exact ⟨Nat.le_refl _, hlen⟩
  · rw [if_neg hsaves]
    refine ⟨?_, length_foldRange.trans hlen⟩
    have hfold := sum_foldRange (v := estimateTokens (blockSummary items index tokens))
      lt_blockEnd (hlen.symm ▸ hend)
    show (foldRange d.residual index (blockEnd items index)
      (estimateTokens (blockSummary items index tokens))).sum + (d.actions ++ [_]).length
        ≤ d.residual.sum + d.actions.length
    rw [length_append, length_singleton]
    omega

theorem summarizeStage_weight (recent fuel : Nat) : ∀ (index : Nat) (d : Draft),
    d.residual.length = items.length →
    (summarizeStage items budget recent fuel index d).weight ≤ d.weight ∧
    (summarizeStage items budget recent fuel index d).residual.length = items.length := by
  induction fuel with
  | zero => intro index d hlen; exact ⟨Nat.le_refl _, hlen⟩
  | succ fuel ih =>
    intro index d hlen
    rw [summarizeStage]
    split_ifs with hgo
    · exact ih _ d hlen
    · exact ⟨Nat.le_refl _, hlen⟩
    · obtain ⟨hweight, hlen'⟩ := summarizeTurn_weight hgo.2 hlen
      obtain ⟨hrest, hlen''⟩ := ih _ _ hlen'
      exact ⟨Nat.le_trans hrest hweight, hlen''⟩
    · exact ⟨Nat.le_refl _, hlen⟩

end Stages

/-! ### The plan -/

section Plan

variable {items : List ConversationItem} {budget : Nat}

theorem mem_oldResults {i : Nat} (h : i ∈ truncatedOld items budget) :
    kindAt items i = some .toolResult ∧ i < recentBlockStart items :=
  of_decide_eq_true (mem_filter.mp (mem_of_mem_reclaim h)).2

theorem mem_recentResults {i : Nat} (h : i ∈ truncatedRecent items budget) :
    kindAt items i = some .toolResult ∧ recentBlockStart items ≤ i := by
  obtain ⟨hmem, hkind⟩ := mem_filter.mp (mem_of_mem_reclaim h)
  exact ⟨of_decide_eq_true hkind, (mem_range'_1.mp hmem).1⟩

theorem mem_summarisedBlocks {s : Nat} (h : s ∈ summarisedBlocks items budget) :
    kindAt items s = some .assistantToolCalls ∧ s < recentBlockStart items :=
  (mem_blocksFrom (mem_of_mem_reclaim h)).2

theorem summarisedBlocks_apart :
    (summarisedBlocks items budget).Pairwise (fun s t => blockEnd items s ≤ t) := by
  have hlt : (blocksFrom items 1).Pairwise (· < ·) := (pairwise_lt_range').filter _
  have hsub : (summarisedBlocks items budget).Sublist (blocksFrom items 1) := reclaim_sublist _ _
  refine (hlt.sublist hsub).imp_of_mem (fun _ ht hst => ?_)
  exact blocks_apart (mem_summarisedBlocks ht).1 hst

theorem length_oldResidual : (oldResidual items budget).length = items.length := by
  rw [oldResidual, length_shrinkAll, length_map]

theorem length_foldl_foldBlock (l : List Nat) : ∀ r : List Nat,
    (l.foldl (foldBlock items budget) r).length = r.length := by
  induction l with
  | nil => intro r; rfl
  | cons s l ih =>
    intro r
    rw [foldl_cons, ih]
    exact length_foldRange

theorem length_blockResidual : (blockResidual items budget).length = items.length := by
  rw [blockResidual, length_foldl_foldBlock, length_oldResidual]

theorem getD_tokens (i : Nat) :
    (items.map ConversationItem.tokens).getD i 0 = tokensAt items i := by
  rw [getD_eq_getElem?_getD, getElem?_map, tokensAt, textAt]
  cases items[i]? with
  | none => rfl
  | some item => rfl

theorem getD_oldResidual (i : Nat) : (oldResidual items budget).getD i 0
    = if i ∈ truncatedOld items budget then estimateTokens (shrunk items i)
      else tokensAt items i := by
  rw [oldResidual, getD_shrinkAll, getD_tokens]
  intro k hk
  rw [length_map]
  exact lt_length_of_kindAt (mem_oldResults hk).1

theorem getD_foldl_foldBlock (l : List Nat) : ∀ r : List Nat,
    (∀ s ∈ l, s < r.length) → l.Pairwise (fun s t => blockEnd items s ≤ t) → ∀ i,
    (l.foldl (foldBlock items budget) r).getD i 0
      = if i ∈ l then estimateTokens (summaryOf items budget i)
        else if ∃ s ∈ l, s < i ∧ i < blockEnd items s then 0 else r.getD i 0 := by
  induction l with
  | nil =>
    intro r _ _ i
    simp
  | cons s l ih =>
    intro r hlt hpair i
    obtain ⟨hhead, htail⟩ := pairwise_cons.mp hpair
    have hs := hlt s mem_cons_self
    have hlt' : ∀ t ∈ l, t < (foldBlock items budget r s).length := fun t ht => by
      rw [foldBlock, length_foldRange]
      exact hlt t (mem_cons_of_mem s ht)
    rw [foldl_cons, ih _ hlt' htail, getD_foldBlock hs]
    have hend : s < blockEnd items s := lt_blockEnd
    by_cases hl : i ∈ l
    · rw [if_pos hl, if_pos (mem_cons_of_mem s hl)]
    rw [if_neg hl]
    by_cases his : i = s
    · subst his
      have hno : ¬ ∃ t ∈ l, t < i ∧ i < blockEnd items t := by
        rintro ⟨t, ht, hti, -⟩
        have := hhead t ht
        omega
      rw [if_neg hno, if_pos rfl, if_pos mem_cons_self]
    rw [if_neg his, if_neg (by simp [his, hl] : i ∉ s :: l)]
    by_cases hin : ∃ t ∈ l, t < i ∧ i < blockEnd items t
    · obtain ⟨t, ht, hti⟩ := hin
      rw [if_pos ⟨t, ht, hti⟩, if_pos ⟨t, mem_cons_of_mem s ht, hti⟩]
    · rw [if_neg hin]
      by_cases hself : s < i ∧ i < blockEnd items s
      · rw [if_pos hself, if_pos ⟨s, mem_cons_self, hself⟩]
      · rw [if_neg hself, if_neg]
        rintro ⟨t, ht, hti⟩
        rcases mem_cons.mp ht with rfl | ht
        · exact hself hti
        · exact hin ⟨t, ht, hti⟩

theorem getD_blockResidual (i : Nat) : (blockResidual items budget).getD i 0
    = if i ∈ summarisedBlocks items budget then estimateTokens (summaryOf items budget i)
      else if ∃ s ∈ summarisedBlocks items budget, s < i ∧ i < blockEnd items s then 0
      else (oldResidual items budget).getD i 0 := by
  refine getD_foldl_foldBlock _ _ (fun s hs => ?_) summarisedBlocks_apart i
  rw [length_oldResidual]
  exact lt_length_of_kindAt (mem_summarisedBlocks hs).1

def Draft.start (items : List ConversationItem) : Draft :=
  ⟨items.map ConversationItem.tokens, [], [], []⟩

def Draft.first (items : List ConversationItem) (budget : Nat) : Draft :=
  truncateStage items budget (fun i => recentBlockStart items ≤ i) (List.range items.length)
    (Draft.start items)

def Draft.second (items : List ConversationItem) (budget : Nat) : Draft :=
  summarizeStage items budget (recentBlockStart items) items.length 1 (Draft.first items budget)

def Draft.third (items : List ConversationItem) (budget : Nat) : Draft :=
  truncateStage items budget (fun _ => false)
    (List.range' (recentBlockStart items) (items.length - recentBlockStart items))
    (Draft.second items budget)

theorem first_spec :
    (Draft.first items budget).actions = (truncatedOld items budget).map (truncation items) ∧
    (Draft.first items budget).residual = oldResidual items budget ∧
    (Draft.first items budget).removed = [] := by
  have hspec := @truncateStage_spec items budget
    (fun i => recentBlockStart items ≤ i) (List.range items.length) (Draft.start items)
    nodup_range (length_map _) (fun i _ _ _ => ⟨rfl, getD_tokens i⟩)
  have hfilter : (List.range items.length).filter (fun i => kindAt items i = some .toolResult
      ∧ decide (recentBlockStart items ≤ i) = false) = oldResults items := by
    refine filter_congr (fun i _ => decide_eq_decide.mpr (and_congr_right (fun _ => ?_)))
    rw [decide_eq_false_iff_not, Nat.not_le]
  rw [hfilter] at hspec
  exact hspec

theorem second_spec :
    (Draft.second items budget).actions = (truncatedOld items budget).map (truncation items)
      ++ (summarisedBlocks items budget).map (summarisation items budget) ∧
    (Draft.second items budget).residual = blockResidual items budget ∧
    (Draft.second items budget).removed
      = (summarisedBlocks items budget).map (fun s => (s, blockEnd items s)) := by
  obtain ⟨hactions, hresidual, hremoved⟩ := @first_spec items budget
  have hspec := @summarizeStage_spec items budget items.length 1
    (Draft.first items budget) (by omega) (by rw [hresidual, length_oldResidual])
    length_oldResidual (fun i _ => by rw [hresidual]) (by rw [hremoved]; exact fun r hr => by cases hr)
  rw [hactions, hremoved, Draft.current, hresidual] at hspec
  exact hspec

theorem third_spec :
    (Draft.third items budget).actions = (truncatedOld items budget).map (truncation items)
      ++ (summarisedBlocks items budget).map (summarisation items budget)
      ++ (truncatedRecent items budget).map (truncation items) ∧
    (Draft.third items budget).residual = finalResidual items budget := by
  obtain ⟨hactions, hresidual, hremoved⟩ := @second_spec items budget
  have hres : ∀ i ∈ List.range' (recentBlockStart items) (items.length - recentBlockStart items),
      kindAt items i = some .toolResult → false = false →
      inRemoved (Draft.second items budget).removed i = false ∧
        (Draft.second items budget).residual.getD i 0 = tokensAt items i := by
    intro i hi hkind _
    have hrecent := (mem_range'_1.mp hi).1
    have hend : ∀ s ∈ summarisedBlocks items budget, blockEnd items s ≤ i := fun s hs =>
      Nat.le_trans (blockEnd_le_recent (mem_summarisedBlocks hs).2) hrecent
    refine ⟨inRemoved_eq_false ?_, ?_⟩
    · rw [hremoved]
      intro r hr
      obtain ⟨s, hs, rfl⟩ := mem_map.mp hr
      exact hend s hs
    · have hblock : i ∉ summarisedBlocks items budget := fun hs => by
        have := hend i hs
        have : i < blockEnd items i := lt_blockEnd
        omega
      have hin : ¬ ∃ s ∈ summarisedBlocks items budget, s < i ∧ i < blockEnd items s := by
        rintro ⟨s, hs, -, hlt⟩
        exact Nat.not_lt_of_le (hend s hs) hlt
      have hold : i ∉ truncatedOld items budget := fun h =>
        Nat.not_lt_of_le hrecent (mem_oldResults h).2
      rw [hresidual, getD_blockResidual, if_neg hblock, if_neg hin, getD_oldResidual, if_neg hold]
  have hspec := @truncateStage_spec items budget (fun _ => false) _
    (Draft.second items budget) (nodup_range') (by rw [hresidual, length_blockResidual]) hres
  have hfilter : ∀ l : List Nat, l.filter (fun i => kindAt items i = some .toolResult
      ∧ false = false) = l.filter (fun i => kindAt items i = some .toolResult) := by
    intro l
    exact filter_congr (fun i _ => decide_eq_decide.mpr (and_iff_left rfl))
  rw [hfilter, hactions, Draft.current, hresidual] at hspec
  exact ⟨hspec.1, hspec.2.1⟩

theorem third_weight : (Draft.third items budget).weight ≤ total items := by
  obtain ⟨hfirst, hlen⟩ := @truncateStage_weight items budget
    (fun i => recentBlockStart items ≤ i) (List.range items.length) (Draft.start items)
    (length_map _)
  obtain ⟨hsecond, hlen'⟩ := @summarizeStage_weight items budget
    (recentBlockStart items) items.length 1 _ hlen
  obtain ⟨hthird, -⟩ := @truncateStage_weight items budget (fun _ => false)
    (List.range' (recentBlockStart items) (items.length - recentBlockStart items)) _ hlen'
  have hstart : (Draft.start items).weight = total items := rfl
  exact Nat.le_trans hthird (Nat.le_trans hsecond (hstart ▸ hfirst))

theorem planCompaction_eq : planCompaction items budget =
    if total items ≤ budget then none
    else if (Draft.third items budget).actions = [] then none
    else some
      { actions := (Draft.third items budget).actions
        projectedTokens := (Draft.third items budget).current
        manifest := CompactionManifest.build (total items) (Draft.third items budget).summarized } :=
  rfl

/-- **What the planner plans.**  Its actions are the truncations of old results, the
summaries and the truncations of recent results, it projects the tokens these leave, and
these are fewer than before. -/
theorem planCompaction_spec {plan : CompactionPlan} (h : planCompaction items budget = some plan) :
    plan.actions = (truncatedOld items budget).map (truncation items)
      ++ (summarisedBlocks items budget).map (summarisation items budget)
      ++ (truncatedRecent items budget).map (truncation items) ∧
    plan.projectedTokens = (finalResidual items budget).sum ∧
    plan.projectedTokens < total items := by
  obtain ⟨hactions, hresidual⟩ := @third_spec items budget
  rw [planCompaction_eq] at h
  split_ifs at h with hfits hnone
  obtain rfl := Option.some.inj h
  refine ⟨hactions, congrArg List.sum hresidual, ?_⟩
  have hweight := @third_weight items budget
  have hpos : 0 < (Draft.third items budget).actions.length := length_pos_of_ne_nil hnone
  show (Draft.third items budget).current < _
  rw [Draft.weight] at hweight
  omega

end Plan

end Compaction

end Modbit
