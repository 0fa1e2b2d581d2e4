import Mathlib.Data.List.Forall2
import Mathlib.Data.List.Induction
import Mathlib.Data.List.Nodup
import Mathlib.Data.List.Perm.Basic
import Mathlib.Data.String.Basic
import Modbit.Agent.Policy
import Modbit.Lib.Run
import Modbit.Lib.JsonPlain
import Modbit.Lib.OrdMap

/-!
# The approval store

`ApprovalStore` of `crates/policy/src/approvals.rs`: approvals are requested for calls, resolved, and
asked for by the hash of a call.  Only a question finds out that an approval has expired.

An approval names its call by the hash of the call's canonical text, and the text says which call it is
but for the order in which the keys of its arguments were written (`same_of_intentHash`).  What the
questions are answered is `live_iff`; `approvals_lawful_iff` says when no approval comes after its expiry.
-/

namespace Modbit

open Lib List

namespace ApprovalStore

/-! ### Calls -/

mutual

def value : Json → Json
  | .obj fields => .obj (OrdMap.ofList (valueFields fields)).entries
  | .arr items => .arr (valueItems items)
  | other => other

def valueItems : List Json → List Json
  | [] => []
  | j :: items => value j :: valueItems items

def valueFields : List (String × Json) → List (String × Json)
  | [] => []
  | (name, j) :: fields => (name, value j) :: valueFields fields

end

structure IntendedCall where
  tool : String
  effectClass : Policy.EffectClass
  arguments : Json
  plain : arguments.Plain

namespace IntendedCall

variable (c d : IntendedCall)

def request : Policy.ToolCallRequest := ⟨c.tool, c.effectClass, value c.arguments⟩

def intentHash : String := Policy.intentHash c.request

/-- The same call: its arguments may have their keys in another order, at every depth. -/
def Same : Prop :=
  c.tool = d.tool ∧ c.effectClass = d.effectClass ∧ value c.arguments = value d.arguments

end IntendedCall

theorem plainFields_iff {fields : List (String × Json)} :
    Json.PlainFields fields ↔ ∀ f ∈ fields, f.2.Plain := by
  induction fields with
  | nil => exact ⟨fun _ f hf => absurd hf not_mem_nil, fun _ => trivial⟩
  | cons f fields ih => rw [Json.PlainFields, ih, forall_mem_cons]

theorem mem_of_ofList {l : List (String × Json)} {f : String × Json}
    (h : f ∈ (OrdMap.ofList l).entries) : f ∈ l := by
  rw [← Prod.eta f, OrdMap.mem_entries, OrdMap.find?_ofList] at h
  exact mem_reverse.mp (OrdMap.mem_of_lookup h)

mutual

theorem plain_value : ∀ {j : Json}, j.Plain → (value j).Plain
  | .obj fields, h => by
    have hfields := plainFields_iff.mp (plain_valueFields h)
    exact plainFields_iff.mpr (fun f hf => hfields f (mem_of_ofList hf))
  | .arr items, h => plain_valueItems h
  | .null, h | .bool _, h | .num _, h | .float _, h | .str _, h => h

theorem plain_valueItems : ∀ {items : List Json}, Json.PlainItems items →
    Json.PlainItems (valueItems items)
  | [], h => h
  | _ :: _, h => ⟨plain_value h.1, plain_valueItems h.2⟩

theorem plain_valueFields : ∀ {fields : List (String × Json)}, Json.PlainFields fields →
    Json.PlainFields (valueFields fields)
  | [], h => h
  | (_, _) :: _, h => ⟨plain_value h.1, plain_valueFields h.2⟩

end

mutual

theorem sortValue_eq : ∀ j : Json, Policy.sortValue j = j
  | .obj fields => by rw [Policy.sortValue, sortFields_eq]
  | .arr items => by rw [Policy.sortValue, sortItems_eq]
  | .null | .bool _ | .num _ | .float _ | .str _ => rfl

theorem sortItems_eq : ∀ items : List Json, Policy.sortItems items = items
  | [] => rfl
  | j :: items => by rw [Policy.sortItems, sortValue_eq, sortItems_eq]

theorem sortFields_eq : ∀ fields : List (String × Json), Policy.sortFields fields = fields
  | [] => rfl
  | (name, j) :: fields => by rw [Policy.sortFields, sortValue_eq, sortFields_eq]

end

def canonical (c : IntendedCall) : List UInt8 :=
  Utf8.encode (Json.render (.obj [("arguments", value c.arguments),
    ("effect_class", .str c.effectClass.text), ("tool", .str c.tool)])).toList

theorem intentHash_eq (c : IntendedCall) : c.intentHash = Sha256.hex (canonical c) := by
  rw [IntendedCall.intentHash, Policy.intentHash, sortValue_eq]
  rfl

/-- **The canonical text says which call it is.** -/
theorem canonical_inj {c d : IntendedCall} : canonical c = canonical d ↔ c.Same d := by
  constructor
  · intro h
    have hplain : ∀ c : IntendedCall, (Json.obj [("arguments", value c.arguments),
        ("effect_class", .str c.effectClass.text), ("tool", .str c.tool)]).Plain :=
      fun c => ⟨plain_value c.plain, trivial, trivial, trivial⟩
    have hdecode := congrArg Utf8.decode h
    rw [canonical, canonical, Utf8.decode_encode, Utf8.decode_encode, Option.some.injEq,
      String.toList_inj] at hdecode
    have hfields := Json.obj.inj (Json.render_inj (hplain c) (hplain d) hdecode)
    simp only [List.cons.injEq, Prod.mk.injEq, true_and, and_true, Json.str.injEq] at hfields
    obtain ⟨hargs, hclass, htool⟩ := hfields
    refine ⟨htool, ?_, hargs⟩
    revert hclass
    cases c.effectClass <;> cases d.effectClass <;> decide
  · rintro ⟨htool, hclass, hargs⟩
    rw [canonical, canonical, htool, hclass, hargs]

/-! ### The store -/

inductive ApprovalState where
  | pending
  | approved
  | denied
  | expired
  | superseded
  deriving DecidableEq

structure Approval where
  approvalId : String
  intentHash : String
  tool : String
  scope : String
  state : ApprovalState
  createdAtMs : Nat
  expiresAtMs : Option Nat
  resolvedBy : Option String
  deriving DecidableEq

inductive ApprovalError where
  | unknown (approvalId : String)
  | notPending (approvalId : String)
  deriving DecidableEq

def ApprovalError.text : ApprovalError → String
  | unknown id => "unknown approval " ++ id
  | notPending id => "approval " ++ id ++ " is not pending"

structure Store where
  approvals : List Approval

/-- The loop over the approvals, up to the first live one. -/
def look (intentHash : String) (nowMs : Nat) : List Approval → List Approval × Bool
  | [] => ([], false)
  | a :: rest =>
    if a.intentHash = intentHash ∧ a.state = .approved then
      if a.expiresAtMs.any (fun expires => decide (expires < nowMs)) = true then
        ({ a with state := .expired } :: (look intentHash nowMs rest).1,
          (look intentHash nowMs rest).2)
      else (a :: rest, true)
    else (a :: (look intentHash nowMs rest).1, (look intentHash nowMs rest).2)

namespace Store

def new : Store := ⟨[]⟩

variable (s : Store)

def request (approvalId : String) (call : IntendedCall) (scope : String) (expiresAtMs : Option Nat)
    (nowMs : Nat) : Store × Approval :=
  let approval : Approval :=
    { approvalId := approvalId, intentHash := call.intentHash, tool := call.tool, scope := scope,
      state := .pending, createdAtMs := nowMs, expiresAtMs := expiresAtMs, resolvedBy := none }
  (⟨s.approvals ++ [approval]⟩, approval)

def find (approvalId : String) : Option Nat :=
  s.approvals.findIdx? (fun a => decide (a.approvalId = approvalId))

def resolve (approvalId : String) (state : ApprovalState) (resolvedBy : String) (_nowMs : Nat) :
    Store × Except ApprovalError Approval :=
  match s.find approvalId with
  | none => (s, .error (.unknown approvalId))
  | some i =>
    match s.approvals[i]? with
    | none => (s, .error (.unknown approvalId))
    | some approval =>
      if approval.state ≠ .pending ∧ ¬ (approval.state = .approved ∧ state = .superseded) then
        (s, .error (.notPending approvalId))
      else if state = .approved ∨ state = .denied ∨ state = .superseded then
        let approval := { approval with state := state, resolvedBy := some resolvedBy }
        (⟨s.approvals.set i approval⟩, .ok approval)
      else (s, .error (.notPending approvalId))

def hasLiveApproval (intentHash : String) (nowMs : Nat) : Store × Bool :=
  (⟨(look intentHash nowMs s.approvals).1⟩, (look intentHash nowMs s.approvals).2)

end Store

inductive Call where
  | request (approvalId : String) (call : IntendedCall) (scope : String) (expiresAtMs : Option Nat)
      (nowMs : Nat)
  | resolve (approvalId : String) (state : ApprovalState) (resolvedBy : String) (nowMs : Nat)
  | hasLiveApproval (intentHash : String) (nowMs : Nat)

inductive Answer where
  | requested (approval : Approval)
  | resolved (result : Except ApprovalError Approval)
  | live (live : Bool)

def step (s : Store) : Call → Store × Answer
  | .request approvalId call scope expiresAtMs nowMs =>
    ((s.request approvalId call scope expiresAtMs nowMs).1,
      .requested (s.request approvalId call scope expiresAtMs nowMs).2)
  | .resolve approvalId state resolvedBy nowMs =>
    ((s.resolve approvalId state resolvedBy nowMs).1,
      .resolved (s.resolve approvalId state resolvedBy nowMs).2)
  | .hasLiveApproval intentHash nowMs =>
    ((s.hasLiveApproval intentHash nowMs).1, .live (s.hasLiveApproval intentHash nowMs).2)

/-! ### What has happened to an approval -/

/-- The call resolves the approval at a place. -/
def Sets (s : Store) (call : Call) (i : Nat) (state : ApprovalState) : Prop :=
  ∃ id resolvedBy nowMs approval, call = .resolve id state resolvedBy nowMs ∧ s.find id = some i ∧
    (s.resolve id state resolvedBy nowMs).2 = .ok approval

section Histories

variable (calls : List Call)

/-- What approvals were requested for, with their expiries. -/
def requested : List (IntendedCall × Option Nat) := calls.filterMap (fun call =>
  match call with
  | .request _ call _ expiresAtMs _ => some (call, expiresAtMs)
  | _ => none)

def clocks : List Nat := calls.filterMap (fun call =>
  match call with
  | .hasLiveApproval _ nowMs => some nowMs
  | _ => none)

/-- The approval has been resolved as approved and not as superseded since. -/
def Standing (i : Nat) : Prop := ∃ before decision after, calls = before ++ decision :: after ∧
  Sets (run step .new before) decision i .approved ∧
    ∀ mid later rest, after = mid ++ later :: rest →
      ¬ Sets (run step .new (before ++ decision :: mid)) later i .superseded

/-- An approval for the call that stands and has not expired. -/
def Live (call : IntendedCall) (nowMs : Nat) : Prop := ∃ i c expiresAtMs,
  (requested calls)[i]? = some (c, expiresAtMs) ∧ c.Same call ∧ Standing calls i ∧
    ∀ expires ∈ expiresAtMs, nowMs ≤ expires

/-- No two of the texts hashed for the calls have the same hash. -/
def CollisionFree (call : IntendedCall) : Prop := ∀ p ∈ requested calls,
  Sha256.hex (canonical p.1) = Sha256.hex (canonical call) → canonical p.1 = canonical call

end Histories

def ApprovalState.Final (state : ApprovalState) : Prop :=
  state = .denied ∨ state = .expired ∨ state = .superseded

/-- What is expected of the calls, at every moment: a question is answered by what stands, what is final
stays so, and nothing is approved after its expiry. -/
structure Lawful (calls : List Call) : Prop where
  live : ∀ done, done <+: calls → ∀ call nowMs, (clocks done ++ [nowMs]).Pairwise (· ≤ ·) →
    CollisionFree done call →
      (((run step .new done).hasLiveApproval call.intentHash nowMs).2 = true ↔ Live done call nowMs)
  final : ∀ done call, done ++ [call] <+: calls → ∀ (i : Nat) a,
    (run step .new done).approvals[i]? = some a → a.state.Final →
      ∃ a', (step (run step .new done) call).1.approvals[i]? = some a' ∧ a'.state = a.state
  timely : ∀ done id resolvedBy nowMs, done ++ [.resolve id .approved resolvedBy nowMs] <+: calls →
    ∀ i a, Sets (run step .new done) (.resolve id .approved resolvedBy nowMs) i .approved →
      (run step .new done).approvals[i]? = some a → ∀ expires ∈ a.expiresAtMs, nowMs ≤ expires

/-- A pending approval is not resolved as approved after its expiry. -/
def Timely (s : Store) : Call → Prop
  | .resolve id .approved _ nowMs => ∀ i a, s.find id = some i → s.approvals[i]? = some a →
      a.state = .pending → ∀ expires ∈ a.expiresAtMs, nowMs ≤ expires
  | _ => True

/-! ### What a call does -/

variable {s : Store} {call : Call} {i : Nat} {a : Approval} {state : ApprovalState}
  {id resolvedBy intentHash : String} {nowMs : Nat}

/-- **A question is answered by the approvals that are approved and not expired.** -/
theorem look_live (intentHash : String) (nowMs : Nat) (l : List Approval) :
    (look intentHash nowMs l).2 = true ↔ ∃ a ∈ l, a.intentHash = intentHash ∧ a.state = .approved ∧
      ∀ expires ∈ a.expiresAtMs, nowMs ≤ expires := by
  induction l with
  | nil => exact ⟨fun h => (by cases h), fun ⟨a, ha, _⟩ => absurd ha not_mem_nil⟩
  | cons a l ih =>
    rw [look]
    by_cases hmine : a.intentHash = intentHash ∧ a.state = .approved
    · rw [if_pos hmine]
      by_cases hpassed : a.expiresAtMs.any (fun expires => decide (expires < nowMs)) = true
      · rw [if_pos hpassed]
        rw [ih]
        refine ⟨fun ⟨b, hb, h⟩ => ⟨b, mem_cons_of_mem a hb, h⟩, fun ⟨b, hb, h⟩ => ?_⟩
        rcases mem_cons.mp hb with rfl | hb
        · obtain ⟨expires, hexpires, hlt⟩ := (Option.any_eq_true _ _).mp hpassed
          exact absurd (h.2.2 expires hexpires) (Nat.not_le_of_lt (of_decide_eq_true hlt))
        · exact ⟨b, hb, h⟩
      · rw [if_neg hpassed]
        refine iff_of_true rfl ⟨a, mem_cons_self, hmine.1, hmine.2, fun expires hexpires => ?_⟩
        by_contra hlt
        exact hpassed ((Option.any_eq_true _ _).mpr
          ⟨expires, hexpires, decide_eq_true (Nat.lt_of_not_le hlt)⟩)
    · rw [if_neg hmine]
      rw [ih]
      refine ⟨fun ⟨b, hb, h⟩ => ⟨b, mem_cons_of_mem a hb, h⟩, fun ⟨b, hb, h⟩ => ?_⟩
      rcases mem_cons.mp hb with rfl | hb
      · exact absurd ⟨h.1, h.2.1⟩ hmine
      · exact ⟨b, hb, h⟩

/-- An approval that a question has looked at. -/
def Seen (nowMs : Nat) (a a' : Approval) : Prop :=
  a' = a ∨ (a.state = .approved ∧ (∃ expires ∈ a.expiresAtMs, expires < nowMs) ∧
    a' = { a with state := .expired })

theorem look_seen (intentHash : String) (nowMs : Nat) (l : List Approval) :
    List.Forall₂ (Seen nowMs) l (look intentHash nowMs l).1 := by
  induction l with
  | nil => exact .nil
  | cons a l ih =>
    rw [look]
    by_cases hmine : a.intentHash = intentHash ∧ a.state = .approved
    · rw [if_pos hmine]
      by_cases hpassed : a.expiresAtMs.any (fun expires => decide (expires < nowMs)) = true
      · rw [if_pos hpassed]
        obtain ⟨expires, hexpires, hlt⟩ := (Option.any_eq_true _ _).mp hpassed
        exact .cons (.inr ⟨hmine.2, ⟨expires, hexpires, of_decide_eq_true hlt⟩, rfl⟩) ih
      · rw [if_neg hpassed]
        exact List.forall₂_same.mpr (fun _ _ => .inl rfl)
    · rw [if_neg hmine]
      exact .cons (.inl rfl) ih

theorem resolve_cases (s : Store) (id : String) (state : ApprovalState) (resolvedBy : String)
    (nowMs : Nat) : (∃ e, s.resolve id state resolvedBy nowMs = (s, .error e)) ∨
      ∃ i a, s.find id = some i ∧ s.approvals[i]? = some a ∧
        (a.state = .pending ∨ (a.state = .approved ∧ state = .superseded)) ∧
        s.resolve id state resolvedBy nowMs =
          (⟨s.approvals.set i { a with state := state, resolvedBy := some resolvedBy }⟩,
            .ok { a with state := state, resolvedBy := some resolvedBy }) := by
  rw [Store.resolve]
  cases hfind : s.find id with
  | none => exact .inl ⟨_, rfl⟩
  | some i =>
    dsimp only
    cases hi : s.approvals[i]? with
    | none => exact .inl ⟨_, rfl⟩
    | some a =>
      dsimp only
      by_cases hclosed : a.state ≠ .pending ∧ ¬ (a.state = .approved ∧ state = .superseded)
      · exact .inl ⟨_, if_pos hclosed⟩
      · rw [if_neg hclosed]
        by_cases hstate : state = .approved ∨ state = .denied ∨ state = .superseded
        · rw [if_pos hstate]
          refine .inr ⟨i, a, rfl, hi, ?_, rfl⟩
          by_contra hnot
          rw [not_or] at hnot
          exact hclosed hnot
        · exact .inl ⟨_, if_neg hstate⟩

theorem not_sets (h : ∀ id state resolvedBy nowMs, call ≠ .resolve id state resolvedBy nowMs)
    (i : Nat) (state : ApprovalState) : ¬ Sets s call i state := by
  rintro ⟨id, resolvedBy, nowMs, approval, rfl, -⟩
  exact h _ _ _ _ rfl

theorem sets_iff {approval : Approval} {j : Nat} (hfind : s.find id = some j)
    (hok : (s.resolve id state resolvedBy nowMs).2 = .ok approval) (state' : ApprovalState) :
    Sets s (.resolve id state resolvedBy nowMs) i state' ↔ i = j ∧ state' = state := by
  constructor
  · rintro ⟨id', by', now', approval', hcall, hi, -⟩
    obtain ⟨rfl, rfl, -, -⟩ := Call.resolve.inj hcall
    exact ⟨Option.some.inj (hi.symm.trans hfind), rfl⟩
  · rintro ⟨rfl, rfl⟩
    exact ⟨id, resolvedBy, nowMs, approval, rfl, hfind, hok⟩

/-- An approval after a call: it is set by it, or it stays as it is unless a question finds that it has
expired. -/
structure After (s : Store) (call : Call) (i : Nat) (a a' : Approval) : Prop where
  intentHash : a'.intentHash = a.intentHash
  expiresAtMs : a'.expiresAtMs = a.expiresAtMs
  state : (∃ state, Sets s call i state ∧ a'.state = state ∧ (∀ state', Sets s call i state' →
        state' = state) ∧ (a.state = .pending ∨ (a.state = .approved ∧ state = .superseded))) ∨
    ((∀ state, ¬ Sets s call i state) ∧ (a'.state = a.state ∨ (a.state = .approved ∧
      a'.state = .expired ∧ ∃ expires ∈ a.expiresAtMs, ∃ nowMs ∈ clocks [call], expires < nowMs)))

/-- **What a call does to an approval.** -/
theorem step_after (hi : s.approvals[i]? = some a) (call : Call) :
    ∃ a', (step s call).1.approvals[i]? = some a' ∧ After s call i a a' := by
  cases call with
  | request id call scope expiresAtMs nowMs =>
    refine ⟨a, ?_, rfl, rfl, .inr ⟨fun state => not_sets (fun _ _ _ _ h => (by cases h)) i state,
      .inl rfl⟩⟩
    exact (getElem?_append_left (List.getElem?_eq_some_iff.mp hi).1).trans hi
  | resolve id state resolvedBy nowMs =>
    rw [step]
    rcases resolve_cases s id state resolvedBy nowMs with
      ⟨e, hfails⟩ | ⟨j, b, hfind, hj, hlegal, hset⟩
    · rw [hfails]
      refine ⟨a, hi, rfl, rfl, .inr ⟨?_, .inl rfl⟩⟩
      rintro state' ⟨id', by', now', approval, hcall, -, hok⟩
      obtain ⟨rfl, rfl, rfl, rfl⟩ := Call.resolve.inj hcall
      rw [hfails] at hok
      cases hok
    · have hsets : ∀ state', Sets s (.resolve id state resolvedBy nowMs) i state' ↔
          i = j ∧ state' = state := sets_iff hfind (congrArg Prod.snd hset)
      rw [hset]
      by_cases hij : j = i
      · subst hij
        obtain rfl := Option.some.inj (hi.symm.trans hj)
        refine ⟨_, getElem?_set_self (List.getElem?_eq_some_iff.mp hi).1, rfl, rfl,
          .inl ⟨state, (hsets state).mpr ⟨rfl, rfl⟩, rfl, fun state' h => ((hsets state').mp h).2, hlegal⟩⟩
      · refine ⟨a, (getElem?_set_ne hij).trans hi, rfl, rfl, .inr ⟨fun state' h => ?_, .inl rfl⟩⟩
        exact hij ((hsets state').mp h).1.symm
  | hasLiveApproval intentHash nowMs =>
    have hseen := look_seen intentHash nowMs s.approvals
    obtain ⟨hlt, hget⟩ := List.getElem?_eq_some_iff.mp hi
    have hlen := hseen.length_eq
    have hat := List.Forall₂.get hseen hlt (hlen ▸ hlt)
    refine ⟨(look intentHash nowMs s.approvals).1[i], getElem?_eq_getElem _, ?_⟩
    rw [get_eq_getElem, get_eq_getElem, hget] at hat
    have hnot : ∀ state, ¬ Sets s (.hasLiveApproval intentHash nowMs) i state :=
      fun state => not_sets (fun _ _ _ _ h => (by cases h)) i state
    rcases hat with hsame | ⟨happroved, ⟨expires, hexpires, hpassed⟩, hexpired⟩
    · rw [hsame]
      exact ⟨rfl, rfl, .inr ⟨hnot, .inl rfl⟩⟩
    · rw [hexpired]
      exact ⟨rfl, rfl, .inr ⟨hnot, .inr ⟨happroved, rfl, expires, hexpires, nowMs,
        mem_singleton.mpr rfl, hpassed⟩⟩⟩

/-! ### What every run keeps -/

theorem standing_concat (calls : List Call) (call : Call) (i : Nat) :
    Standing (calls ++ [call]) i ↔ Sets (run step .new calls) call i .approved ∨
      (Standing calls i ∧ ¬ Sets (run step .new calls) call i .superseded) := by
  constructor
  · rintro ⟨before, decision, after, hcalls, happroved, hnone⟩
    rcases eq_nil_or_concat after with rfl | ⟨after, last, rfl⟩
    · obtain ⟨rfl, hlast⟩ := append_inj' hcalls rfl
      obtain rfl := (List.cons.inj hlast).1
      exact .inl happroved
    · rw [concat_eq_append] at hcalls hnone
      rw [← cons_append, ← append_assoc] at hcalls
      obtain ⟨rfl, hlast⟩ := append_inj' hcalls rfl
      obtain rfl := (List.cons.inj hlast).1
      refine .inr ⟨⟨before, decision, after, rfl, happroved, fun mid later rest hafter => ?_⟩,
        hnone after call [] rfl⟩
      exact hnone mid later (rest ++ [call]) (by rw [hafter, append_assoc, cons_append])
  · rintro (happroved | ⟨⟨before, decision, after, rfl, happroved, hnone⟩, hnot⟩)
    · refine ⟨calls, call, [], rfl, happroved, fun mid later rest h => ?_⟩
      exact absurd h.symm (append_ne_nil_of_right_ne_nil _ (cons_ne_nil _ _))
    · refine ⟨before, decision, after ++ [call], by rw [append_assoc, cons_append],
        happroved, fun mid later rest h => ?_⟩
      rcases eq_nil_or_concat rest with rfl | ⟨rest, last, rfl⟩
      · obtain ⟨rfl, hlast⟩ := append_inj' h rfl
        obtain rfl := (List.cons.inj hlast).1
        exact hnot
      · rw [concat_eq_append, ← cons_append, ← append_assoc] at h
        exact hnone mid later rest (append_inj' h rfl).1

theorem requested_append (calls calls' : List Call) :
    requested (calls ++ calls') = requested calls ++ requested calls' := filterMap_append

theorem clocks_append (calls calls' : List Call) :
    clocks (calls ++ calls') = clocks calls ++ clocks calls' := filterMap_append

theorem step_length (s : Store) (call : Call) : (step s call).1.approvals.length
    = s.approvals.length + (requested [call]).length := by
  cases call with
  | request id call scope expiresAtMs nowMs => exact length_append
  | resolve id state resolvedBy nowMs =>
    rw [step]
    rcases resolve_cases s id state resolvedBy nowMs with ⟨e, hfails⟩ | ⟨j, b, -, -, -, hset⟩
    · rw [hfails]
      rfl
    · rw [hset]
      exact length_set
  | hasLiveApproval intentHash nowMs => exact (look_seen intentHash nowMs s.approvals).length_eq.symm

/-- The approvals of a run: each is for what was requested at its place, is approved only if its approval
stands, and is approved or has expired if it does. -/
structure Kept (calls : List Call) : Prop where
  length : (run step .new calls).approvals.length = (requested calls).length
  paired : ∀ (i : Nat) a, (run step .new calls).approvals[i]? = some a →
    ∃ c, (requested calls)[i]? = some (c, a.expiresAtMs) ∧ a.intentHash = c.intentHash
  approved : ∀ (i : Nat) a, (run step .new calls).approvals[i]? = some a → a.state = .approved →
    Standing calls i
  standing : ∀ i, Standing calls i → ∃ a : Approval, (run step .new calls).approvals[i]? = some a ∧
    (a.state = .approved ∨ (a.state = .expired ∧
      ∃ expires ∈ a.expiresAtMs, ∃ nowMs ∈ clocks calls, expires < nowMs))

theorem before_step {s : Store} {call : Call} {i : Nat} {a' : Approval}
    (hi : (step s call).1.approvals[i]? = some a') :
    (∃ a, s.approvals[i]? = some a ∧ After s call i a a') ∨
      ∃ c expiresAtMs, requested [call] = [(c, expiresAtMs)] ∧ i = s.approvals.length ∧
        a'.state = .pending ∧ a'.intentHash = c.intentHash ∧ a'.expiresAtMs = expiresAtMs := by
  by_cases hlt : i < s.approvals.length
  · obtain ⟨a'', hi', hafter⟩ := step_after (getElem?_eq_getElem hlt) call
    obtain rfl := Option.some.inj (hi.symm.trans hi')
    exact .inl ⟨_, getElem?_eq_getElem hlt, hafter⟩
  · have hlen := (List.getElem?_eq_some_iff.mp hi).1
    rw [step_length] at hlen
    cases call with
    | request id call scope expiresAtMs nowMs =>
      have hi_eq : i = s.approvals.length := by
        have hone : (requested [Call.request id call scope expiresAtMs nowMs]).length = 1 := rfl
        omega
      refine .inr ⟨call, expiresAtMs, rfl, hi_eq, ?_⟩
      have hlast : (step s (.request id call scope expiresAtMs nowMs)).1.approvals[i]?
          = some (s.request id call scope expiresAtMs nowMs).2 := by
        rw [hi_eq]
        exact getElem?_concat_length
      obtain rfl := Option.some.inj (hi.symm.trans hlast)
      exact ⟨rfl, rfl, rfl⟩
    | resolve id state resolvedBy nowMs => exact absurd hlen hlt
    | hasLiveApproval intentHash nowMs => exact absurd hlen hlt

theorem kept (calls : List Call) : Kept calls := by
  induction calls using List.reverseRecOn with
  | nil =>
    refine ⟨rfl, fun i a h => (by cases h), fun i a h => (by cases h), ?_⟩
    rintro i ⟨before, decision, after, h, -⟩
    exact absurd h.symm (append_ne_nil_of_right_ne_nil _ (cons_ne_nil _ _))
  | append_singleton calls call ih =>
    have hrun : run step .new (calls ++ [call]) = (step (run step .new calls) call).1 :=
      run_append _ calls [call]
    have hstep := step_length (run step .new calls) call
    constructor
    · rw [hrun, hstep, ih.length, requested_append, length_append]
    · intro i a' hi
      rw [hrun] at hi
      rw [requested_append]
      rcases before_step hi with ⟨a, ha, hafter⟩ | ⟨c, expiresAtMs, hnew, hlast, -, hhash, hexpires⟩
      · obtain ⟨c, hc, hhash⟩ := ih.paired i a ha
        refine ⟨c, ?_, hafter.intentHash.trans hhash⟩
        rw [getElem?_append_left (List.getElem?_eq_some_iff.mp hc).1, hc, hafter.expiresAtMs]
      · refine ⟨c, ?_, hhash⟩
        rw [hlast, ih.length, hnew, getElem?_concat_length, hexpires]
    · intro i a' hi happroved
      rw [hrun] at hi
      rw [standing_concat]
      rcases before_step hi with ⟨a, ha, hafter⟩ | ⟨c, expiresAtMs, -, -, hpending, -⟩
      · rcases hafter.state with ⟨state, hset, hstate, -, -⟩ | ⟨hnone, hstate | ⟨-, hexpired, -⟩⟩
        · rw [hstate] at happroved
          exact .inl (happroved ▸ hset)
        · exact .inr ⟨ih.approved i a ha (hstate.symm.trans happroved), hnone _⟩
        · cases hexpired.symm.trans happroved
      · cases hpending.symm.trans happroved
    · intro i hstanding
      rw [hrun]
      rw [standing_concat] at hstanding
      rcases hstanding with hset | ⟨hstanding, hnot⟩
      · obtain ⟨id, resolvedBy, nowMs, approval, rfl, hfind, hok⟩ := hset
        rcases resolve_cases (run step .new calls) id .approved resolvedBy nowMs with
          ⟨e, hfails⟩ | ⟨j, b, hj, hb, -, hresolve⟩
        · rw [hfails] at hok
          cases hok
        · obtain rfl := Option.some.inj (hfind.symm.trans hj)
          rw [step, hresolve]
          exact ⟨_, getElem?_set_self (List.getElem?_eq_some_iff.mp hb).1, .inl rfl⟩
      · obtain ⟨a, ha, hstate⟩ := ih.standing i hstanding
        obtain ⟨a', ha', hafter⟩ := step_after ha call
        refine ⟨a', ha', ?_⟩
        rw [clocks_append, hafter.expiresAtMs]
        have hpassed : (∃ expires ∈ a.expiresAtMs, ∃ nowMs ∈ clocks calls, expires < nowMs) →
            ∃ expires ∈ a.expiresAtMs, ∃ nowMs ∈ clocks calls ++ clocks [call], expires < nowMs := by
          rintro ⟨expires, hexpires, nowMs, hnow, hlt⟩
          exact ⟨expires, hexpires, nowMs, mem_append_left _ hnow, hlt⟩
        rcases hafter.state with ⟨state, hset, -, -, hlegal⟩ |
          ⟨-, hkept | ⟨-, hexpired, expires, hexpires, nowMs, hnow, hlt⟩⟩
        · exfalso
          rcases hstate with happroved | ⟨hexpired, -⟩
          · rcases hlegal with hpending | ⟨-, rfl⟩
            · cases happroved.symm.trans hpending
            · exact hnot hset
          · rcases hlegal with hpending | ⟨happroved, -⟩
            · cases hexpired.symm.trans hpending
            · cases hexpired.symm.trans happroved
        · rw [hkept]
          exact hstate.imp_right (fun h => ⟨h.1, hpassed h.2⟩)
        · exact .inr ⟨hexpired, expires, hexpires, nowMs, mem_append_right _ hnow, hlt⟩

/-! ### What is expected -/

theorem live_iff (done : List Call) (call : IntendedCall) (nowMs : Nat)
    (hclocks : (clocks done ++ [nowMs]).Pairwise (· ≤ ·)) (hfree : CollisionFree done call) :
    ((run step .new done).hasLiveApproval call.intentHash nowMs).2 = true ↔
      Live done call nowMs := by
  have hkept := kept done
  rw [Store.hasLiveApproval]
  rw [look_live]
  constructor
  · rintro ⟨a, ha, hhash, happroved, hnow⟩
    obtain ⟨i, hi⟩ := getElem?_of_mem ha
    obtain ⟨c, hc, hmine⟩ := hkept.paired i a hi
    have hequal : Sha256.hex (canonical c) = Sha256.hex (canonical call) := by
      rw [← intentHash_eq, ← intentHash_eq, ← hmine, hhash]
    have hsame : canonical c = canonical call :=
      hfree (c, a.expiresAtMs) (mem_of_getElem? hc) hequal
    exact ⟨i, c, a.expiresAtMs, hc, canonical_inj.mp hsame, hkept.approved i a hi happroved, hnow⟩
  · rintro ⟨i, c, expiresAtMs, hc, hsame, hstanding, hnow⟩
    obtain ⟨a, hi, hstate⟩ := hkept.standing i hstanding
    obtain ⟨c', hc', hmine⟩ := hkept.paired i a hi
    obtain ⟨rfl, rfl⟩ := Prod.mk.inj (Option.some.inj (hc.symm.trans hc'))
    refine ⟨a, mem_of_getElem? hi, ?_, ?_, hnow⟩
    · rw [hmine, intentHash_eq, intentHash_eq, canonical_inj.mpr hsame]
    · rcases hstate with happroved | ⟨-, expires, hexpires, clock, hclock, hlt⟩
      · exact happroved
      · -- The question that found the approval expired was asked at no later clock.
        have hlater : clock ≤ nowMs :=
          (pairwise_append.mp hclocks).2.2 clock hclock nowMs (mem_singleton.mpr rfl)
        have hpassed := hnow expires hexpires
        omega

theorem final_kept (hi : s.approvals[i]? = some a) (hfinal : a.state.Final) (call : Call) :
    ∃ a', (step s call).1.approvals[i]? = some a' ∧ a'.state = a.state := by
  obtain ⟨a', hi', hafter⟩ := step_after hi call
  have hopen : a.state ≠ .pending ∧ a.state ≠ .approved := by
    rcases hfinal with h | h | h <;> rw [h] <;> decide
  refine ⟨a', hi', ?_⟩
  rcases hafter.state with ⟨_, _, _, _, hpending | ⟨happroved, _⟩⟩ | ⟨-, hkept | ⟨happroved, -⟩⟩
  · exact absurd hpending hopen.1
  · exact absurd happroved hopen.2
  · exact hkept
  · exact absurd happroved hopen.2

theorem sets_approved (hfind : s.find id = some i) (hi : s.approvals[i]? = some a)
    (hpending : a.state = .pending) (resolvedBy : String) (nowMs : Nat) :
    Sets s (.resolve id .approved resolvedBy nowMs) i .approved := by
  refine ⟨id, resolvedBy, nowMs, { a with state := .approved, resolvedBy := some resolvedBy }, rfl,
    hfind, ?_⟩
  have hlegal : ¬ (a.state ≠ .pending ∧
      ¬ (a.state = .approved ∧ ApprovalState.approved = .superseded)) := fun h => h.1 hpending
  rw [Store.resolve, hfind]
  dsimp only
  rw [hi]
  dsimp only
  rw [if_neg hlegal, if_pos (.inl rfl)]

/-- **When the approvals are as expected**, in every run. -/
theorem approvals_lawful_iff (calls : List Call) : Lawful calls ↔ Admits step Timely .new calls := by
  rw [admits_iff]
  constructor
  · intro h done call hdone
    cases call with
    | request id call scope expiresAtMs nowMs => trivial
    | hasLiveApproval intentHash nowMs => trivial
    | resolve id state resolvedBy nowMs =>
      cases state with
      | approved =>
        intro i a hfind hi hpending
        exact h.timely done id resolvedBy nowMs hdone i a
          (sets_approved hfind hi hpending resolvedBy nowMs) hi
      | pending | denied | expired | superseded => trivial
  · intro h
    refine ⟨fun done _ call nowMs => live_iff done call nowMs,
      fun done call _ i a hi hfinal => final_kept hi hfinal call, ?_⟩
    rintro done id resolvedBy nowMs hdone i a ⟨id', by', now', approval, hcall, hfind, hok⟩ hi
    obtain ⟨rfl, -, rfl, rfl⟩ := Call.resolve.inj hcall
    refine h done _ hdone i a hfind hi ?_
    rcases resolve_cases (run step .new done) id .approved resolvedBy nowMs with
      ⟨e, hfails⟩ | ⟨j, b, hj, hb, hpending | ⟨-, hnot⟩, -⟩
    · rw [hfails] at hok
      cases hok
    · obtain rfl := Option.some.inj (hfind.symm.trans hj)
      obtain rfl := Option.some.inj (hi.symm.trans hb)
      exact hpending
    · cases hnot

/-- An approval that is pending until after its expiry. -/
def late : List Call := [
  .request "a" ⟨"shell", .external, .null, trivial⟩ "once" (some 100) 0,
  .resolve "a" .approved "user" 200]

theorem approved_late : ¬ Lawful late := by
  intro h
  have htimely := h.timely (late.take 1) "a" "user" 200 (prefix_refl _) 0 _
    ⟨"a", "user", 200, _, rfl, rfl, rfl⟩ rfl 100 rfl
  exact absurd htimely (by decide)

end ApprovalStore

end Modbit
