import Modbit.Agent.Assembling

/-!
# Streams of events, assembled

What comes out of the assembler is what came in, without the fragments, and the calls of a message
with its end (`requests_feedAll`).  All that was received comes out, once and whole, exactly when no
id or index is in two messages, every message is straight, ids do not repeat among calls that came
whole and in fragments, and a call in fragments is followed by the end of its message and has not
had its name taken away (`assembles_iff`).
-/

namespace Modbit

open Lib List

namespace Agent

namespace ToolCallAssembler

/-! ### Messages -/

/-- The fragments of each message, those after the last end included. -/
def messagesFrom (sofar : List Fragment) : List StreamEvent → List (List Fragment)
  | [] => [sofar]
  | .completed _ :: rest => sofar :: messagesFrom [] rest
  | .toolCallDelta callId index name argumentsDelta :: rest =>
    messagesFrom (sofar ++ [⟨callId, index, name, argumentsDelta⟩]) rest
  | .delta _ :: rest => messagesFrom sofar rest
  | .usage _ :: rest => messagesFrom sofar rest
  | .toolRequest _ _ _ :: rest => messagesFrom sofar rest

def messages (events : List StreamEvent) : List (List Fragment) := messagesFrom [] events

def unfinished (events : List StreamEvent) : List Fragment := ((messages events).getLast?).getD []

def fragments (events : List StreamEvent) : List Fragment := events.filterMap fragmentOf

def allCalls (events : List StreamEvent) : List Call := (messages events).flatMap calls

theorem messagesFrom_ne_nil (events : List StreamEvent) : ∀ sofar, messagesFrom sofar events ≠ [] := by
  induction events with
  | nil => exact fun sofar => cons_ne_nil _ _
  | cons e rest ih =>
    intro sofar
    cases e with
    | completed => exact cons_ne_nil _ _
    | toolCallDelta => exact ih _
    | delta => exact ih _
    | usage => exact ih _
    | toolRequest => exact ih _

theorem flatten_messagesFrom (events : List StreamEvent) : ∀ sofar,
    (messagesFrom sofar events).flatten = sofar ++ fragments events := by
  induction events with
  | nil =>
    intro sofar
    rw [messagesFrom, flatten_singleton]
    exact (append_nil _).symm
  | cons e rest ih =>
    intro sofar
    cases e with
    | completed =>
      rw [messagesFrom, flatten_cons, ih]
      rfl
    | toolCallDelta =>
      rw [messagesFrom, ih, append_assoc]
      rfl
    | delta => exact ih sofar
    | usage => exact ih sofar
    | toolRequest => exact ih sofar

theorem flatten_messages (events : List StreamEvent) :
    (messages events).flatten = fragments events := flatten_messagesFrom events []

theorem dropLast_unfinished (events : List StreamEvent) :
    (messages events).dropLast ++ [unfinished events] = messages events := by
  have hne := messagesFrom_ne_nil events []
  rw [unfinished, messages, getLast?_eq_some_getLast hne, Option.getD_some, dropLast_append_getLast]

/-! ### What comes out -/

def isPlain : StreamEvent → Bool
  | .delta _ => true
  | .usage _ => true
  | _ => false

/-- A call, if it is emitted at the end of its message. -/
def requested (c : Call) : Option ToolCallData :=
  (idOf c).bind (fun x => if nameOf c = "" then none else some ⟨x, nameOf c, textOf c⟩)

theorem isPlain_flush (partials : List PartialToolCall) : ∀ emitted : List String,
    (flush partials emitted).1.filter isPlain = [] := by
  induction partials with
  | nil => exact fun _ => rfl
  | cons p rest ih =>
    intro emitted
    rw [flush]
    cases p.callId with
    | none => exact ih emitted
    | some id =>
      dsimp only
      split_ifs
      · exact ih emitted
      · exact ih _

/-- **Text and usage come out unchanged and in order.** -/
theorem isPlain_feedAll (events : List StreamEvent) : ∀ a : ToolCallAssembler,
    (a.feedAll events).filter isPlain = events.filter isPlain := by
  induction events with
  | nil => exact fun _ => rfl
  | cons e rest ih =>
    intro a
    rw [feedAll, filter_append, ih]
    cases e with
    | delta => rfl
    | usage => rfl
    | toolRequest => rfl
    | completed =>
      rw [feed, filter_append, isPlain_flush]
      rfl
    | toolCallDelta =>
      rw [feed]
      split_ifs
      · rfl
      · rfl

theorem flush_append (partials more : List PartialToolCall) : ∀ emitted : List String,
    flush (partials ++ more) emitted
      = ((flush partials emitted).1 ++ (flush more (flush partials emitted).2).1,
        (flush more (flush partials emitted).2).2) := by
  induction partials with
  | nil => exact fun _ => rfl
  | cons p rest ih =>
    intro emitted
    rw [cons_append, flush, flush]
    cases p.callId with
    | none => exact ih emitted
    | some id =>
      dsimp only
      split_ifs
      · exact ih emitted
      · rw [ih]
        rfl

/-- **The requests that come out** are those that came in, and those of the calls of the messages
that have ended. -/
theorem requests_feedAll (events : List StreamEvent) : ∀ sofar emitted,
    ((feedAll ⟨(calls sofar).map partialOf, emitted⟩ events).filterMap requestOf).Perm
      (events.filterMap requestOf ++
        (flush (((messagesFrom sofar events).dropLast.flatMap calls).map partialOf)
          emitted).1.filterMap requestOf) := by
  induction events with
  | nil =>
    intro sofar emitted
    rw [feedAll, messagesFrom]
    exact List.Perm.refl _
  | cons e rest ih =>
    intro sofar emitted
    cases e with
    | delta => exact ih sofar emitted
    | usage => exact ih sofar emitted
    | toolRequest => exact (ih sofar emitted).cons _
    | toolCallDelta callId index name argumentsDelta =>
      rw [feedAll, feed_fragment (calls sofar) emitted ⟨callId, index, name, argumentsDelta⟩,
        ← calls_concat, messagesFrom]
      exact ih _ emitted
    | completed reason =>
      rw [feedAll, messagesFrom, dropLast_cons_of_ne_nil (messagesFrom_ne_nil rest []),
        flatMap_cons, map_append, flush_append, feed]
      rw [filterMap_append, filterMap_append, filterMap_append]
      have hrest := ih [] (flush ((calls sofar).map partialOf) emitted).2
      refine (List.Perm.append_left _ hrest).trans ?_
      have hend : [StreamEvent.completed reason].filterMap requestOf = [] := rfl
      have hhead : (StreamEvent.completed reason :: rest).filterMap requestOf
          = rest.filterMap requestOf := rfl
      rw [hend, append_nil, hhead, ← append_assoc, ← append_assoc]
      exact perm_append_comm.append_right _

theorem flush_calls {cs : List Call}
    (hunique : cs.Pairwise (fun c d => ∀ x, idOf c = some x → idOf d ≠ some x)) :
    ∀ emitted : List String, (∀ c ∈ cs, ∀ x, idOf c = some x → x ∉ emitted) →
      (flush (cs.map partialOf) emitted).1.filterMap requestOf = cs.filterMap requested := by
  induction cs with
  | nil => exact fun _ _ => rfl
  | cons c cs ih =>
    intro emitted hnew
    obtain ⟨hc, hcs⟩ := pairwise_cons.mp hunique
    obtain ⟨hnewc, hnewcs⟩ := forall_mem_cons.mp hnew
    rw [map_cons, flush, partialOf_eq]
    cases hid : idOf c with
    | none =>
      have hno : requested c = none := by rw [requested, hid, Option.bind_none]
      rw [filterMap_cons_none hno]
      exact ih hcs emitted hnewcs
    | some x =>
      dsimp only
      by_cases hname : nameOf c = ""
      · have hno : requested c = none := by rw [requested, hid, Option.bind_some, if_pos hname]
        rw [if_pos (Or.inl hname), filterMap_cons_none hno]
        exact ih hcs emitted hnewcs
      · have hyes : requested c = some ⟨x, nameOf c, textOf c⟩ := by
          rw [requested, hid, Option.bind_some, if_neg hname]
        rw [if_neg (fun h => h.elim hname (hnewc x hid)), filterMap_cons_some hyes]
        refine congrArg (ToolCallData.mk x (nameOf c) (textOf c) :: ·) (ih hcs _ ?_)
        intro d hd y hy hmem
        rcases mem_append.mp hmem with hmem | hmem
        · exact hnewcs d hd y hy hmem
        · rw [mem_singleton.mp hmem] at hy
          exact hc d hd x hid hy

/-! ### What was received -/

def given (c : Call) : Option String := ((c.filterMap Fragment.name).filter (· ≠ "")).getLast?

def identified (fs : List Fragment) : List String := (fs.filterMap Fragment.callId).dedup

theorem nodup_identified (fs : List Fragment) : (identified fs).Nodup := nodup_dedup _

theorem mem_identified {fs : List Fragment} {x : String} :
    x ∈ identified fs ↔ ∃ f ∈ fs, f.callId = some x := by
  unfold identified
  rw [mem_dedup, mem_filterMap]

/-- The fragments with an id, and those with an index that came with the id. -/
def groupOf (fs : List Fragment) (x : String) : Call :=
  fs.filter (fun f => f.callId = some x ∨
    ∃ g ∈ fs, g.callId = some x ∧ g.index.isSome ∧ g.index = f.index)

/-- The calls of which an id and a name came with fragments. -/
def received (fs : List Fragment) : List ToolCallData :=
  (identified fs).filterMap (fun x =>
    (given (groupOf fs x)).map (fun name => ⟨x, name, textOf (groupOf fs x)⟩))

/-- **The promise of the assembler**, for a stream of events. -/
structure Assembles (events : List StreamEvent) : Prop where
  plain : (new.feedAll events).filter isPlain = events.filter isPlain
  whole : ∀ e ∈ new.feedAll events, isFragment e = false
  once : (((new.feedAll events).filterMap requestOf).map ToolCallData.callId).Nodup
  /-- Every fragment is put to one call, at its end. -/
  arrived : (allCalls events).flatten.Perm (fragments events) ∧
    ∀ c ∈ allCalls events, c.Sublist (fragments events)
  together : (allCalls events).Pairwise Apart
  complete : ((new.feedAll events).filterMap requestOf).Perm
    (events.filterMap requestOf ++ received (fragments events))

structure Orderly (events : List StreamEvent) : Prop where
  /-- No id and no index is in two messages. -/
  apart : (messages events).Pairwise (fun m n => ∀ f ∈ m, ∀ g ∈ n, ¬ Shares f g)
  straight : ∀ m ∈ messages events, Straight m
  /-- The calls, received whole or in fragments, have ids of their own. -/
  ids : ((events.filterMap requestOf ++ received (fragments events)).map ToolCallData.callId).Nodup
  /-- A call is followed by the end of its message, and its last name is one. -/
  ended : ∀ x ∈ identified (fragments events), given (groupOf (fragments events) x) ≠ none →
    (∀ f ∈ unfinished events, f.callId ≠ some x) ∧ nameOf (groupOf (fragments events) x) ≠ ""

section Stream

variable {events : List StreamEvent} {c : Call}

theorem exists_message (h : c ∈ allCalls events) :
    ∃ m ∈ messages events, c ∈ calls m := mem_flatMap.mp h

theorem sublist_of_message {m : List Fragment} (h : m ∈ messages events) :
    m.Sublist (fragments events) := by
  rw [← flatten_messages]
  exact sublist_flatten_of_mem h

theorem arrived (events : List StreamEvent) :
    (allCalls events).flatten.Perm (fragments events) ∧
      ∀ c ∈ allCalls events, c.Sublist (fragments events) := by
  constructor
  · rw [← flatten_messages, allCalls]
    induction messages events with
    | nil => exact List.Perm.refl _
    | cons m rest ih =>
      rw [flatMap_cons, flatten_append, flatten_cons]
      exact (kept_calls m).perm.append ih
  · intro c hc
    obtain ⟨m, hm, hcm⟩ := exists_message hc
    exact ((kept_calls m).sublist c hcm).trans (sublist_of_message hm)

theorem mem_fragments {f : Fragment} : f ∈ fragments events ↔ ∃ c ∈ allCalls events, f ∈ c := by
  rw [← (arrived events).1.mem_iff, mem_flatten]

/-- **The fragments that share an id or an index are in one call**, over the whole stream. -/
theorem together_all : (allCalls events).Pairwise Apart ↔
    (messages events).Pairwise (fun m n => ∀ f ∈ m, ∀ g ∈ n, ¬ Shares f g) ∧
      ∀ m ∈ messages events, Straight m := by
  have hcross : ∀ m n : List Fragment, (∀ c ∈ calls m, ∀ d ∈ calls n, Apart c d) ↔
      ∀ f ∈ m, ∀ g ∈ n, ¬ Shares f g := by
    intro m n
    constructor
    · intro h f hf g hg
      obtain ⟨c, hc, hfc⟩ := (kept_calls m).mem.mp hf
      obtain ⟨d, hd, hgd⟩ := (kept_calls n).mem.mp hg
      exact h c hc d hd f hfc g hgd
    · intro h c hc d hd f hf g hg
      exact h f ((kept_calls m).mem.mpr ⟨c, hc, hf⟩) g ((kept_calls n).mem.mpr ⟨d, hd, hg⟩)
  rw [allCalls, pairwise_flatMap, and_comm]
  refine and_congr ?_ (forall₂_congr (fun m _ => together_iff m))
  constructor
  · exact fun h => h.imp (fun hmn => (hcross _ _).mp hmn)
  · exact fun h => h.imp (fun hmn => (hcross _ _).mpr hmn)

theorem mem_call (h : c ∈ allCalls events) {f : Fragment} (hf : f ∈ c) :
    (∀ x, f.callId = some x → idOf c = some x) ∧
      (f.callId = none → ∀ x, idOf c = some x → ∃ g ∈ fragments events, g.callId = some x ∧
        g.index.isSome ∧ g.index = f.index) := by
  obtain ⟨m, hm, hcm⟩ := exists_message h
  have hkept := kept_calls m
  refine ⟨hkept.ids c hcm f hf, fun hnone x hx => ?_⟩
  obtain ⟨hindex, hsome⟩ := hkept.plain c hcm f hf hnone
  obtain ⟨k, hk⟩ := Option.ne_none_iff_exists'.mp (hsome (by rw [hx]; exact Option.some_ne_none x))
  have hfirst := hkept.index c hcm x hx
  rw [← hindex, hk, firstIndex] at hfirst
  obtain ⟨g, hg, hgk⟩ := exists_of_findSome?_eq_some hfirst.symm
  obtain ⟨hgm, hgx⟩ := mem_filter.mp hg
  refine ⟨g, (sublist_of_message hm).subset hgm, of_decide_eq_true hgx, ?_, ?_⟩
  · rw [hgk]
    rfl
  · rw [hgk, hk]

/-- **The fragments of an id are its call.** -/
theorem groupOf_eq (h : (allCalls events).Pairwise Apart) (hc : c ∈ allCalls events)
    {x : String} (hx : idOf c = some x) : groupOf (fragments events) x = c := by
  obtain ⟨g₀, hg₀, hg₀x⟩ := exists_of_idOf hx
  have hown : ∀ f ∈ fragments events, (f.callId = some x ∨
      ∃ g ∈ fragments events, g.callId = some x ∧ g.index.isSome ∧ g.index = f.index) ↔ f ∈ c := by
    intro f hf
    obtain ⟨d, hd, hfd⟩ := mem_fragments.mp hf
    constructor
    · rintro (hfx | ⟨g, hg, hgx, hsome, hindex⟩)
      · obtain rfl := eq_of_shares h hc hd hg₀ hfd (shares_of_callId hg₀x hfx)
        exact hfd
      · obtain ⟨e, he, hge⟩ := mem_fragments.mp hg
        obtain rfl := eq_of_shares h hc he hg₀ hge (shares_of_callId hg₀x hgx)
        obtain rfl := eq_of_shares h hc hd hge hfd (Or.inr ⟨hsome, hindex⟩)
        exact hfd
    · intro hfc
      cases hid : f.callId with
      | none => exact Or.inr ((mem_call hc hfc).2 hid x hx)
      | some y => exact Or.inl (((mem_call hc hfc).1 y hid).symm.trans hx)
  have hsub : c.Sublist (groupOf (fragments events) x) := by
    have hall : c.filter (fun f => f.callId = some x ∨
        ∃ g ∈ fragments events, g.callId = some x ∧ g.index.isSome ∧ g.index = f.index) = c := by
      rw [filter_eq_self]
      exact fun f hf => decide_eq_true ((hown f (mem_fragments.mpr ⟨c, hc, hf⟩)).mpr hf)
    rw [groupOf]
    conv_lhs => rw [← hall]
    exact ((arrived events).2 c hc).filter _
  refine (hsub.eq_of_length ?_).symm
  obtain ⟨l, r, hcs⟩ := append_of_mem hc
  -- the other calls have none of them
  have hself : ∀ f ∈ fragments events, (f.callId = some x ∨
      ∃ g ∈ fragments events, g.callId = some x ∧ g.index.isSome ∧ g.index = f.index) →
        Shares f f := by
    rintro f - (hfx | ⟨g, -, -, hsome, hindex⟩)
    · exact shares_of_callId hfx hfx
    · exact Or.inr ⟨hindex ▸ hsome, rfl⟩
  have hothers : ∀ ds : List Call, (∀ d ∈ ds, d ∈ allCalls events ∧ Apart c d) →
      ds.flatten.filter (fun f => f.callId = some x ∨
        ∃ g ∈ fragments events, g.callId = some x ∧ g.index.isSome ∧ g.index = f.index) = [] := by
    intro ds hds
    rw [filter_eq_nil_iff]
    intro f hf hp
    obtain ⟨d, hd, hfd⟩ := mem_flatten.mp hf
    have hfs := mem_fragments.mpr ⟨d, (hds d hd).1, hfd⟩
    have hp := of_decide_eq_true hp
    exact (hds d hd).2 f ((hown f hfs).mp hp) f hfd (hself f hfs hp)
  rw [hcs, pairwise_append, pairwise_cons] at h
  obtain ⟨-, ⟨hcr, -⟩, hcross⟩ := h
  have hl := hothers l (fun d hd => ⟨hcs ▸ mem_append_left _ hd,
    (hcross d hd c mem_cons_self).symm⟩)
  have hr := hothers r (fun d hd => ⟨hcs ▸ mem_append_right _ (mem_cons_of_mem _ hd),
    hcr d hd⟩)
  have hperm := ((arrived events).1.filter (fun f => f.callId = some x ∨
    ∃ g ∈ fragments events, g.callId = some x ∧ g.index.isSome ∧ g.index = f.index)).length_eq
  rw [hcs, flatten_append, flatten_cons, filter_append, filter_append, hl, hr,
    nil_append, append_nil] at hperm
  refine Nat.le_antisymm hsub.length_le ?_
  rw [groupOf, ← hperm]
  exact length_filter_le _ _

def receivedCall (c : Call) : Option ToolCallData :=
  (idOf c).bind (fun x => (given c).map (fun name => ⟨x, name, textOf c⟩))

theorem unique_of_apart {cs : List Call} (h : cs.Pairwise Apart) :
    cs.Pairwise (fun c d => ∀ x, idOf c = some x → idOf d ≠ some x) := by
  refine h.imp (fun hcd x hc hd => ?_)
  obtain ⟨f, hf, hfx⟩ := exists_of_idOf hc
  obtain ⟨g, hg, hgx⟩ := exists_of_idOf hd
  exact hcd f hf g hg (shares_of_callId hfx hgx)

/-- **What was received are the calls with an id and a name.** -/
theorem received_perm (h : (allCalls events).Pairwise Apart) :
    (received (fragments events)).Perm ((allCalls events).filterMap receivedCall) := by
  have hids : (identified (fragments events)).Perm ((allCalls events).filterMap idOf) := by
    refine (perm_ext_iff_of_nodup (nodup_identified _) ?_).mpr (fun x => ?_)
    · rw [List.Nodup, pairwise_filterMap]
      refine (unique_of_apart h).imp (fun hcd x hx y hy => ?_)
      rintro rfl
      exact hcd x hx hy
    · rw [mem_identified, mem_filterMap]
      constructor
      · rintro ⟨f, hf, hfx⟩
        obtain ⟨c, hc, hfc⟩ := mem_fragments.mp hf
        exact ⟨c, hc, (mem_call hc hfc).1 x hfx⟩
      · rintro ⟨c, hc, hcx⟩
        obtain ⟨f, hf, hfx⟩ := exists_of_idOf hcx
        exact ⟨f, mem_fragments.mpr ⟨c, hc, hf⟩, hfx⟩
  refine (hids.filterMap _).trans (List.Perm.of_eq ?_)
  rw [filterMap_filterMap]
  refine filterMap_congr (fun c hc => ?_)
  rw [receivedCall]
  cases hx : idOf c with
  | none => rfl
  | some x => rw [Option.bind_some, Option.bind_some, groupOf_eq h hc hx]

theorem receivedCall_of_requested {call : ToolCallData} (h : requested c = some call) :
    receivedCall c = some call := by
  obtain ⟨x, hx, hcall⟩ := Option.bind_eq_some_iff.mp h
  split_ifs at hcall with hname
  rw [receivedCall, hx, Option.bind_some, ← hcall, given]
  have hlast : ((c.filterMap Fragment.name).filter (· ≠ "")).getLast? = some (nameOf c) := by
    rw [nameOf] at hname ⊢
    generalize c.filterMap Fragment.name = names at hname ⊢
    cases names using List.reverseRecOn with
    | nil => exact absurd rfl hname
    | append_singleton names n =>
      rw [getLast?_concat, Option.getD_some] at hname ⊢
      rw [filter_append, filter_cons_of_pos (by simpa using hname), filter_nil, getLast?_concat]
  rw [hlast]
  rfl

theorem eq_of_filterMap_length {α β : Type} {f g : α → Option β} {l : List α}
    (hle : ∀ a ∈ l, ∀ b, f a = some b → g a = some b)
    (h : (l.filterMap g).length ≤ (l.filterMap f).length) : ∀ a ∈ l, g a = f a := by
  have hsub : ∀ l : List α, (∀ a ∈ l, ∀ b, f a = some b → g a = some b) →
      (l.filterMap f).length ≤ (l.filterMap g).length := by
    intro l hl
    rw [length_filterMap_eq_countP, length_filterMap_eq_countP]
    refine countP_mono_left (fun a ha hsome => ?_)
    obtain ⟨b, hb⟩ := Option.isSome_iff_exists.mp hsome
    rw [hl a ha b hb]
    rfl
  induction l with
  | nil => exact fun a ha => absurd ha not_mem_nil
  | cons a l ih =>
    obtain ⟨ha, hl⟩ := forall_mem_cons.mp hle
    have hrest := hsub l hl
    cases hf : f a with
    | some b =>
      rw [filterMap_cons_some (ha b hf), filterMap_cons_some hf] at h
      exact forall_mem_cons.mpr ⟨(ha b hf).trans hf.symm, ih hl (Nat.le_of_succ_le_succ h)⟩
    | none =>
      cases hg : g a with
      | some b =>
        rw [filterMap_cons_some hg, filterMap_cons_none hf, length_cons] at h
        omega
      | none =>
        rw [filterMap_cons_none hg, filterMap_cons_none hf] at h
        exact forall_mem_cons.mpr ⟨hg.trans hf.symm, ih hl h⟩

def endedCalls (events : List StreamEvent) : List Call := (messages events).dropLast.flatMap calls

theorem allCalls_eq (events : List StreamEvent) :
    allCalls events = endedCalls events ++ calls (unfinished events) := by
  rw [allCalls, ← dropLast_unfinished, flatMap_append, flatMap_singleton]
  rfl

/-- **The requests that come out, if the calls are apart.** -/
theorem requests_of_apart (h : (allCalls events).Pairwise Apart) :
    ((new.feedAll events).filterMap requestOf).Perm
      (events.filterMap requestOf ++ (endedCalls events).filterMap requested) := by
  have hended : (endedCalls events).Pairwise Apart := by
    rw [allCalls_eq, pairwise_append] at h
    exact h.1
  rw [← flush_calls (unique_of_apart hended) [] (fun _ _ _ _ => not_mem_nil)]
  exact requests_feedAll events [] []

theorem complete_iff (h : (allCalls events).Pairwise Apart) :
    ((new.feedAll events).filterMap requestOf).Perm
        (events.filterMap requestOf ++ received (fragments events)) ↔
      (∀ c ∈ endedCalls events, receivedCall c = requested c) ∧
        ∀ c ∈ calls (unfinished events), receivedCall c = none := by
  have hreceived := received_perm h
  rw [allCalls_eq, filterMap_append] at hreceived
  have hrequests := requests_of_apart h
  have hle : ∀ c ∈ endedCalls events, ∀ call, requested c = some call → receivedCall c = some call :=
    fun c _ call => receivedCall_of_requested
  constructor
  · intro hperm
    have hsame := (perm_append_left_iff _).mp ((hrequests.symm.trans hperm).trans
      (hreceived.append_left _))
    have hlength := hsame.length_eq
    rw [length_append] at hlength
    refine ⟨eq_of_filterMap_length hle (by omega), ?_⟩
    have hno : ((calls (unfinished events)).filterMap receivedCall).length = 0 := by
      have := (eq_of_filterMap_length hle (by omega))
      rw [filterMap_congr this] at hlength
      omega
    exact filterMap_eq_nil_iff.mp (length_eq_zero_iff.mp hno)
  · rintro ⟨hended, hno⟩
    rw [filterMap_congr hended, filterMap_eq_nil_iff.mpr hno, append_nil] at hreceived
    exact hrequests.trans (hreceived.symm.append_left _)

theorem ended_iff (h : (allCalls events).Pairwise Apart) :
    ((∀ c ∈ endedCalls events, receivedCall c = requested c) ∧
        ∀ c ∈ calls (unfinished events), receivedCall c = none) ↔
      ∀ x ∈ identified (fragments events), given (groupOf (fragments events) x) ≠ none →
        (∀ f ∈ unfinished events, f.callId ≠ some x) ∧
          nameOf (groupOf (fragments events) x) ≠ "" := by
  have hkept := kept_calls (unfinished events)
  constructor
  · rintro ⟨hended, hno⟩ x hx hgiven
    obtain ⟨f, hf, hfx⟩ := mem_identified.mp hx
    obtain ⟨c, hc, hfc⟩ := mem_fragments.mp hf
    have hid := (mem_call hc hfc).1 x hfx
    rw [groupOf_eq h hc hid] at hgiven ⊢
    have hsome : receivedCall c ≠ none := by
      rw [receivedCall, hid, Option.bind_some]
      exact fun hnone => hgiven (Option.map_eq_none_iff.mp hnone)
    have hend : c ∈ endedCalls events := by
      rw [allCalls_eq] at hc
      rcases mem_append.mp hc with hc | hc
      · exact hc
      · exact absurd (hno c hc) hsome
    refine ⟨fun g hg hgx => ?_, fun hname => ?_⟩
    · obtain ⟨d, hd, hgd⟩ := hkept.mem.mp hg
      have hdall : d ∈ allCalls events := allCalls_eq events ▸ mem_append_right _ hd
      obtain rfl := eq_of_shares h hc hdall hfc hgd (shares_of_callId hfx hgx)
      exact hsome (hno c hd)
    · rw [hended c hend, requested, hid, Option.bind_some, if_pos hname] at hsome
      exact hsome rfl
  · intro hids
    have hof : ∀ c ∈ allCalls events, ∀ x, idOf c = some x → given c ≠ none →
        (∀ f ∈ unfinished events, f.callId ≠ some x) ∧ nameOf c ≠ "" := by
      intro c hc x hx hgiven
      obtain ⟨f, hf, hfx⟩ := exists_of_idOf hx
      have hmem := mem_identified.mpr ⟨f, mem_fragments.mpr ⟨c, hc, hf⟩, hfx⟩
      have := hids x hmem
      rw [groupOf_eq h hc hx] at this
      exact this hgiven
    constructor
    · intro c hc
      have hall : c ∈ allCalls events := allCalls_eq events ▸ mem_append_left _ hc
      cases hcall : receivedCall c with
      | none =>
        cases hreq : requested c with
        | none => rfl
        | some call =>
          rw [receivedCall_of_requested hreq] at hcall
          cases hcall
      | some call =>
        obtain ⟨x, hx, hname⟩ := Option.bind_eq_some_iff.mp hcall
        obtain ⟨name, hgiven, rfl⟩ := Option.map_eq_some_iff.mp hname
        have hlast := (hof c hall x hx (by rw [hgiven]; exact Option.some_ne_none name)).2
        have hreq : requested c = some ⟨x, nameOf c, textOf c⟩ := by
          rw [requested, hx, Option.bind_some, if_neg hlast]
        rw [receivedCall_of_requested hreq] at hcall
        rw [hreq, ← hcall]
    · intro c hc
      have hall : c ∈ allCalls events := allCalls_eq events ▸ mem_append_right _ hc
      by_contra hsome
      obtain ⟨call, hcall⟩ := Option.ne_none_iff_exists'.mp hsome
      obtain ⟨x, hx, hname⟩ := Option.bind_eq_some_iff.mp hcall
      obtain ⟨name, hgiven, -⟩ := Option.map_eq_some_iff.mp hname
      obtain ⟨f, hf, hfx⟩ := exists_of_idOf hx
      exact (hof c hall x hx (by rw [hgiven]; exact Option.some_ne_none name)).1 f
        (hkept.mem.mpr ⟨c, hc, hf⟩) hfx

end Stream

/-- **A stream is assembled as promised exactly when it is orderly.** -/
theorem assembles_iff (events : List StreamEvent) : Assembles events ↔ Orderly events := by
  constructor
  · intro h
    obtain ⟨hapart, hstraight⟩ := together_all.mp h.together
    refine ⟨hapart, hstraight, ?_, ?_⟩
    · exact (h.complete.map ToolCallData.callId).nodup_iff.mp h.once
    · exact (ended_iff h.together).mp ((complete_iff h.together).mp h.complete)
  · intro h
    have htogether := together_all.mpr ⟨h.apart, h.straight⟩
    have hcomplete := (complete_iff htogether).mpr ((ended_iff htogether).mpr h.ended)
    refine ⟨isPlain_feedAll events new, isFragment_feedAll events new, ?_, arrived events, htogether,
      hcomplete⟩
    exact (hcomplete.map ToolCallData.callId).nodup_iff.mpr h.ids

/-- The second fragment of an index brings the id, and the text of the first one is lost. -/
theorem late_id_splits : ¬ ∀ events, Assembles events := by
  intro h
  have htogether := (h [.toolCallDelta none (some 0) none "\x7b", .toolCallDelta (some "call-1") (some 0)
    (some "fs.list") "\x7d", .completed none]).together
  exact absurd htogether (by decide)

end ToolCallAssembler

end Agent

end Modbit
