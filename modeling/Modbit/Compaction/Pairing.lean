import Modbit.Compaction.Stages
import Mathlib.Data.List.Forall2

/-!
# Calls and their results

Providers take a conversation only if every assistant message with tool calls is answered
by one tool result per call, in the order of the calls, and there are no other results:
`Paired`.  Such a conversation is a list of blocks, and a plan that was made for a first
part of it that ends between two blocks keeps it so (`paired_applyActions`): a truncation
changes a text, and a summary takes the place of a whole block.
-/

namespace Modbit

open Lib List

namespace Compaction

def ChatMessage.Answers (r : ChatMessage) (call : ToolCallData) : Prop :=
  r.role = .tool ∧ r.toolCallId = some call.callId

/-- Each assistant message with calls is followed by exactly one result per call, in their order and
with their ids, and each result is one of these. -/
inductive Paired : List ChatMessage → Prop
  | nil : Paired []
  | plain {m : ChatMessage} {rest : List ChatMessage} (hrole : m.role ≠ .tool)
      (hcalls : m.role = .assistant → m.toolCalls = []) (hrest : Paired rest) : Paired (m :: rest)
  | block {m : ChatMessage} {results rest : List ChatMessage} (hrole : m.role = .assistant)
      (hcalls : m.toolCalls ≠ [])
      (hresults : List.Forall₂ ChatMessage.Answers results m.toolCalls) (hrest : Paired rest) :
      Paired (m :: (results ++ rest))

variable {u d : List ChatMessage} {m : ChatMessage} {s i : Nat}

theorem Paired.append (hc : Paired u) (hd : Paired d) : Paired (u ++ d) := by
  induction hc with
  | nil => exact hd
  | plain hrole hcalls _ ih => exact .plain hrole hcalls ih
  | block hrole hcalls hresults _ ih =>
    rw [cons_append, append_assoc]
    exact .block hrole hcalls hresults ih

theorem paired_user (text : Chars) : Paired [ChatMessage.user text] :=
  .plain (fun h => by cases h) (fun h => by cases h) .nil

theorem paired_users (texts : List Chars) : Paired (texts.map ChatMessage.user) := by
  induction texts with
  | nil => exact .nil
  | cons text texts ih => exact (paired_user text).append ih

/-! ### Messages with other texts -/

def ChatMessage.frame (m : ChatMessage) : Role × List ToolCallData × Option Chars :=
  (m.role, m.toolCalls, m.toolCallId)

theorem forall₂_answers_congr {rs rs' : List ChatMessage} {calls : List ToolCallData}
    (h : List.Forall₂ ChatMessage.Answers rs calls)
    (hframe : rs'.map ChatMessage.frame = rs.map ChatMessage.frame) :
    List.Forall₂ ChatMessage.Answers rs' calls := by
  induction h generalizing rs' with
  | nil =>
    rw [map_nil, map_eq_nil_iff] at hframe
    rw [hframe]
    exact .nil
  | @cons r call rs calls hr _ ih =>
    obtain ⟨r', rest, rfl, hr', hrest⟩ := map_eq_cons_iff.mp hframe
    have hrole : r'.role = r.role := congrArg Prod.fst hr'
    have hid : r'.toolCallId = r.toolCallId := congrArg (fun f => f.2.2) hr'
    exact .cons ⟨hrole.trans hr.1, hid.trans hr.2⟩ (ih hrest)

theorem Paired.congr (h : Paired u) :
    ∀ {u' : List ChatMessage}, u'.map ChatMessage.frame = u.map ChatMessage.frame → Paired u' := by
  induction h with
  | nil =>
    intro u' hframe
    rw [map_nil, map_eq_nil_iff] at hframe
    rw [hframe]
    exact .nil
  | @plain m rest hrole hcalls _ ih =>
    intro u' hframe
    obtain ⟨m', rest', rfl, hm, hrest⟩ := map_eq_cons_iff.mp hframe
    have hrole' : m'.role = m.role := congrArg Prod.fst hm
    have hcalls' : m'.toolCalls = m.toolCalls := congrArg (fun f => f.2.1) hm
    exact .plain (hrole' ▸ hrole) (hrole' ▸ hcalls' ▸ hcalls) (ih hrest)
  | @block m results rest hrole hcalls hresults _ ih =>
    intro u' hframe
    obtain ⟨m', rest', rfl, hm, hrest⟩ := map_eq_cons_iff.mp hframe
    rw [map_append] at hrest
    obtain ⟨results', tail, rfl, hres, htail⟩ := map_eq_append_iff.mp hrest
    have hrole' : m'.role = m.role := congrArg Prod.fst hm
    have hcalls' : m'.toolCalls = m.toolCalls := congrArg (fun f => f.2.1) hm
    exact .block (hrole'.trans hrole) (hcalls' ▸ hcalls)
      (hcalls' ▸ forall₂_answers_congr hresults hres) (ih htail)

/-! ### Blocks -/

def ChatMessage.Opens (m : ChatMessage) : Prop := m.role = .assistant ∧ m.toolCalls ≠ []

/-- The end of the block that a message at an index opens. -/
def ChatMessage.closes (m : ChatMessage) (s : Nat) : Nat := s + 1 + m.toolCalls.length

theorem opens_iff_kind : m.Opens ↔ (itemOf m).kind = .assistantToolCalls := by
  rw [ChatMessage.Opens, itemOf]
  cases m.role with
  | user => simp
  | tool => simp
  | assistant =>
    by_cases h : m.toolCalls = []
    · simp [h]
    · simp [h]

theorem Paired.head_role (h : Paired u) : ∀ m ∈ u.head?, m.role ≠ .tool := by
  cases h with
  | nil => intro m hm; cases hm
  | plain hrole hcalls hrest =>
    intro m hm
    rw [← Option.some.inj hm]
    exact hrole
  | block hrole hcalls hresults hrest =>
    intro m hm
    rw [← Option.some.inj hm, hrole]
    decide

theorem role_of_answers {rs : List ChatMessage} {calls : List ToolCallData}
    (h : List.Forall₂ ChatMessage.Answers rs calls) : ∀ r ∈ rs, r.role = .tool := by
  induction h with
  | nil => intro r hr; cases hr
  | cons hr _ ih => exact forall_mem_cons.mpr ⟨hr.1, ih⟩

theorem kind_toolResult : (itemOf m).kind = .toolResult ↔ m.role = .tool := by
  rw [itemOf]
  cases m.role with
  | user => simp
  | tool => simp
  | assistant => by_cases h : m.toolCalls = [] <;> simp [h]

theorem blockEnd_append (items more : List ConversationItem) (k : Nat) :
    blockEnd (items ++ more) (items.length + k) = items.length + blockEnd more k := by
  have hdrop : (items ++ more).drop (items.length + k + 1) = more.drop (k + 1) := by
    rw [Nat.add_assoc, drop_length_add_append]
  rw [blockEnd, blockEnd, hdrop]
  omega

theorem blockEnd_results {results rest : List ChatMessage} (m : ChatMessage)
    (hresults : ∀ r ∈ results, r.role = .tool) (hrest : Paired rest) :
    blockEnd ((m :: (results ++ rest)).map itemOf) 0 = results.length + 1 := by
  have hall : ∀ a ∈ results.map itemOf, decide (a.kind = ItemKind.toolResult) = true := by
    intro a ha
    obtain ⟨r, hr, rfl⟩ := mem_map.mp ha
    exact decide_eq_true (kind_toolResult.mpr (hresults r hr))
  have hnone : (rest.map itemOf).takeWhile (fun i => decide (i.kind = ItemKind.toolResult)) = [] := by
    cases rest with
    | nil => rfl
    | cons r rest =>
      have hrole := hrest.head_role r rfl
      rw [map_cons, takeWhile_cons_of_neg]
      exact fun hkind => hrole (kind_toolResult.mp (of_decide_eq_true hkind))
  rw [blockEnd, map_cons, drop_succ_cons, drop_zero, map_append,
    takeWhile_append_of_pos hall, hnone, append_nil, length_map]
  omega

/-- **A block of a paired conversation is followed and preceded by paired ones**, and the planner
finds its end. -/
theorem Paired.cut (h : Paired u) : ∀ {s : Nat}, u[s]? = some m → m.Opens →
    Paired (u.take s) ∧ Paired (u.drop (m.closes s)) ∧ m.closes s ≤ u.length
      ∧ blockEnd (u.map itemOf) s = m.closes s := by
  induction h with
  | nil => intro s hs; cases hs
  | @plain m' rest hrole hcalls hrest ih =>
    intro s hs hopens
    cases s with
    | zero =>
      obtain rfl : m' = m := Option.some.inj hs
      exact absurd (hcalls hopens.1) hopens.2
    | succ s =>
      obtain ⟨htake, hdrop, hle, hend⟩ := ih hs hopens
      have hcloses : m.closes (s + 1) = m.closes s + 1 := by
        simp only [ChatMessage.closes]
        omega
      rw [hcloses]
      refine ⟨.plain hrole hcalls htake, hdrop, Nat.succ_le_succ hle, ?_⟩
      have hshift := blockEnd_append [itemOf m'] (rest.map itemOf) s
      rw [length_singleton, Nat.add_comm 1 s, hend] at hshift
      rw [map_cons]
      exact hshift.trans (Nat.add_comm _ _)
  | @block m' results rest hrole hcalls hresults hrest ih =>
    intro s hs hopens
    have hlen : results.length = m'.toolCalls.length := hresults.length_eq
    have htool := role_of_answers hresults
    cases s with
    | zero =>
      obtain rfl : m' = m := Option.some.inj hs
      have hcloses : m'.closes 0 = results.length + 1 := by
        rw [ChatMessage.closes, hlen]
        omega
      rw [hcloses]
      refine ⟨.nil, ?_, ?_, blockEnd_results m' htool hrest⟩
      · rw [drop_succ_cons, drop_left]
        exact hrest
      · rw [length_cons, length_append]
        omega
    | succ s =>
      rw [getElem?_cons_succ] at hs
      -- the message is not one of the results
      have hout : results.length ≤ s := by
        by_contra hlt
        rw [getElem?_append_left (Nat.lt_of_not_le hlt)] at hs
        have hrole' := htool m (mem_of_getElem? hs)
        rw [hopens.1] at hrole'
        cases hrole'
      obtain ⟨k, rfl⟩ := Nat.exists_eq_add_of_le hout
      rw [getElem?_append_right (Nat.le_add_right _ _), Nat.add_sub_cancel_left] at hs
      obtain ⟨htake, hdrop, hle, hend⟩ := ih hs hopens
      have hcloses : m.closes (results.length + k + 1) = results.length + m.closes k + 1 := by
        simp only [ChatMessage.closes]
        omega
      rw [hcloses]
      refine ⟨?_, ?_, ?_, ?_⟩
      · rw [take_succ_cons, take_length_add_append]
        exact .block hrole hcalls hresults htake
      · rw [drop_succ_cons, drop_length_add_append]
        exact hdrop
      · rw [length_cons, length_append]
        omega
      · have hshift := blockEnd_append ((m' :: results).map itemOf) (rest.map itemOf) k
        rw [length_map, length_cons, hend, ← map_append] at hshift
        rw [show results.length + k + 1 = results.length + 1 + k by omega, ← cons_append, hshift]
        omega

/-! ### Plans -/

theorem map_modify_eq {α β : Type} {f : α → β} {g : α → α} (h : ∀ a, f (g a) = f a) (l : List α)
    (i : Nat) : (l.modify i g).map f = l.map f := by
  refine ext_getElem? (fun j => ?_)
  rw [getElem?_map, getElem?_map, getElem?_modify]
  cases l[j]? with
  | none => rfl
  | some a =>
    by_cases hij : i = j
    · simp [hij, h]
    · simp [hij]

theorem map_frame_truncations (items : List ConversationItem) (l : List Nat) :
    ((l.map (truncation items)).foldr (fun a u => applyAction u a) u).map ChatMessage.frame
      = u.map ChatMessage.frame := by
  induction l with
  | nil => rfl
  | cons i l ih =>
    rw [map_cons, foldr_cons, truncation, applyAction, map_modify_eq, ih]
    intro m
    by_cases h : m.role = .tool
    · rw [if_pos h]
      rfl
    · rw [if_neg h]

section Summaries

variable (items : List ConversationItem) (budget : Nat)

theorem getElem?_summaries {l : List Nat} (h : ∀ s ∈ l, i < s) :
    ((l.map (summarisation items budget)).foldr (fun a u => applyAction u a) u)[i]? = u[i]? := by
  induction l with
  | nil => rfl
  | cons s l ih =>
    obtain ⟨his, hl⟩ := forall_mem_cons.mp h
    rw [map_cons, foldr_cons, ← ih hl, summarisation, applyAction]
    generalize (l.map (summarisation items budget)).foldr (fun a u => applyAction u a) u = u'
    split_ifs with hfit
    · rw [getElem?_append_left, getElem?_take_of_lt his]
      rw [length_take]
      omega
    · rfl

/-- **Summaries of whole blocks keep a conversation paired.**  They are applied from the last one
on, so that those still to come find their block where it was planned. -/
theorem paired_summaries {l : List Nat} (hc : Paired u)
    (hblocks : ∀ s ∈ l, ∃ m, u[s]? = some m ∧ m.Opens ∧ blockEnd items s = m.closes s)
    (hapart : l.Pairwise (fun s t => blockEnd items s ≤ t)) :
    Paired ((l.map (summarisation items budget)).foldr (fun a u => applyAction u a) u) := by
  induction l with
  | nil => exact hc
  | cons s l ih =>
    obtain ⟨⟨m, hm, hopens, hend⟩, hl⟩ := forall_mem_cons.mp hblocks
    obtain ⟨hafter, hapart'⟩ := pairwise_cons.mp hapart
    have hpaired := ih hl hapart'
    have hkept := getElem?_summaries items budget (u := u) (i := s)
      (fun t ht => Nat.lt_of_lt_of_le lt_blockEnd (hafter t ht))
    rw [map_cons, foldr_cons, summarisation, applyAction]
    generalize (l.map (summarisation items budget)).foldr (fun a u => applyAction u a) u = u' at *
    obtain ⟨htake, hdrop, -, -⟩ := hpaired.cut (hkept.trans hm) hopens
    split_ifs with hfit
    · rw [hend]
      exact htake.append ((paired_user _).append hdrop)
    · exact hpaired

end Summaries

/-- **A plan keeps a conversation paired**, also one that has grown since the plan was made. -/
theorem paired_applyActions {budget : Nat} {plan : CompactionPlan} (hc : Paired u) (hd : Paired d)
    (hplan : planCompaction (u.map itemOf) budget = some plan) :
    Paired (applyActions (u ++ d) plan.actions) := by
  rw [applyActions, foldl_reverse, (planCompaction_spec hplan).1, foldr_append,
    foldr_append]
  refine Paired.congr ?_ (map_frame_truncations _ _)
  have hframe := map_frame_truncations (u := u ++ d) (u.map itemOf)
    (truncatedRecent (u.map itemOf) budget)
  have hpaired := (hc.append hd).congr hframe
  generalize ((truncatedRecent (u.map itemOf) budget).map (truncation (u.map itemOf))).foldr
    (fun a u => applyAction u a) (u ++ d) = u' at *
  refine paired_summaries _ budget hpaired (fun s hs => ?_) summarisedBlocks_apart
  have hkind := (mem_summarisedBlocks hs).1
  rw [kindAt, getElem?_map] at hkind
  cases hm : u[s]? with
  | none =>
    rw [hm] at hkind
    cases hkind
  | some m =>
    rw [hm] at hkind
    have hopens := opens_iff_kind.mpr (Option.some.inj hkind)
    obtain ⟨hlt, -⟩ := List.getElem?_eq_some_iff.mp hm
    have hsame : (u'[s]?).map ChatMessage.frame = some m.frame := by
      rw [← getElem?_map, hframe, getElem?_map, getElem?_append_left hlt, hm]
      rfl
    obtain ⟨m', hm', heq⟩ := Option.map_eq_some_iff.mp hsame
    have hrole : m'.role = m.role := congrArg Prod.fst heq
    have hcalls : m'.toolCalls = m.toolCalls := congrArg (fun f => f.2.1) heq
    refine ⟨m', hm', ⟨hrole.trans hopens.1, hcalls ▸ hopens.2⟩, ?_⟩
    rw [(hc.cut hm hopens).2.2.2, ChatMessage.closes, ChatMessage.closes, hcalls]

end Compaction

end Modbit
