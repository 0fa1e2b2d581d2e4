import Mathlib.Data.List.Basic
import Mathlib.Data.List.Infix

/-!
# The evidence index

`EvidenceIndex` of `crates/verification`: items of all tenants in one list, searched for one tenant.
`searchByStep` and `detailOf` refuse a run that is another tenant's, and take the first item with the id
of the run for its owner's.

Run ids are not unique across tenants, so that the owner of a run is whoever has put it in first:
`isolated_iff` says when a tenant is alone with its items all the same.
-/

namespace Modbit

namespace Evidence

open List

inductive EvidenceKind where
  | message
  | toolCall
  | command
  | fileTouch
  | error
  | checkpoint
  deriving DecidableEq

def EvidenceKind.text : EvidenceKind → String
  | message => "message"
  | toolCall => "tool_call"
  | command => "command"
  | fileTouch => "file_touch"
  | error => "error"
  | checkpoint => "checkpoint"

structure EvidenceItem where
  tenantId : String
  runId : String
  stepId : String
  kind : EvidenceKind
  summary : String
  detail : String
  tsMs : Int
  deriving DecidableEq

inductive EvidenceError where
  | tenantMismatch (requested owned : String)
  deriving DecidableEq

structure EvidenceIndex where
  items : List EvidenceItem

def contains (s q : String) : Bool := decide (q.toList <:+: s.toList)

namespace EvidenceIndex

def new : EvidenceIndex := ⟨[]⟩

variable (idx : EvidenceIndex)

def index (item : EvidenceItem) : EvidenceIndex := ⟨idx.items ++ [item]⟩

/-- `lower` is the lower case of a text. -/
def search (lower : String → String) (tenantId query : String) : List EvidenceItem :=
  let q := lower query
  (idx.items.filter (fun i => decide (i.tenantId = tenantId))).filter (fun i =>
    contains (lower i.summary) q || contains (lower i.detail) q || contains (lower i.runId) q ||
      contains (lower i.stepId) q || contains i.kind.text q)

def searchByRun (tenantId runId : String) : List EvidenceItem :=
  idx.items.filter (fun i => decide (i.tenantId = tenantId ∧ i.runId = runId))

def first (runId : String) : Option EvidenceItem :=
  idx.items.find? (fun i => decide (i.runId = runId))

/-- The refusal of a run whose first item is another tenant's. -/
def checkScope (tenantId runId : String) : Except EvidenceError Unit :=
  match idx.first runId with
  | some item =>
    if item.tenantId ≠ tenantId then .error (.tenantMismatch tenantId item.tenantId) else .ok ()
  | none => .ok ()

def searchByStep (tenantId runId stepId : String) : Except EvidenceError (List EvidenceItem) :=
  let hits := idx.items.filter
    (fun i => decide (i.tenantId = tenantId ∧ i.runId = runId ∧ i.stepId = stepId))
  (idx.checkScope tenantId runId).map (fun _ => hits)

def detailOf (tenantId runId stepId : String) (kind : EvidenceKind) :
    Except EvidenceError (Option EvidenceItem) :=
  (idx.checkScope tenantId runId).map (fun _ => idx.items.find? (fun i =>
    decide (i.tenantId = tenantId ∧ i.runId = runId ∧ i.stepId = stepId ∧ i.kind = kind)))

end EvidenceIndex

/-! ### What a tenant is to get -/

section Tenants

variable (lower : String → String) (idx idx' : EvidenceIndex) (tenantId : String)

/-- The tenant gets its own items only, and each of them by its run, step and kind. -/
structure Scoped : Prop where
  search : ∀ query, ∀ i ∈ idx.search lower tenantId query, i ∈ idx.items ∧ i.tenantId = tenantId
  run : ∀ runId, ∀ i ∈ idx.searchByRun tenantId runId, i ∈ idx.items ∧ i.tenantId = tenantId
  step : ∀ runId stepId items, idx.searchByStep tenantId runId stepId = .ok items →
    ∀ i ∈ items, i ∈ idx.items ∧ i.tenantId = tenantId
  detail : ∀ runId stepId kind i, idx.detailOf tenantId runId stepId kind = .ok (some i) →
    i ∈ idx.items ∧ i.tenantId = tenantId
  returned : ∀ i ∈ idx.items, i.tenantId = tenantId →
    idx.detailOf tenantId i.runId i.stepId i.kind = .ok (some i)

/-- The tenant's own items are the same ones in the same order; those of the others may be any. -/
def SameItems : Prop := idx.items.filter (fun i => decide (i.tenantId = tenantId))
  = idx'.items.filter (fun i => decide (i.tenantId = tenantId))

def HasRun (runId : String) : Prop := ∃ i ∈ idx.items, i.tenantId = tenantId ∧ i.runId = runId

/-- The same answers, where a run is asked for in which the tenant has items. -/
structure SameAnswers : Prop where
  search : ∀ query, idx.search lower tenantId query = idx'.search lower tenantId query
  run : ∀ runId, HasRun idx tenantId runId →
    idx.searchByRun tenantId runId = idx'.searchByRun tenantId runId
  step : ∀ runId stepId, HasRun idx tenantId runId →
    idx.searchByStep tenantId runId stepId = idx'.searchByStep tenantId runId stepId
  detail : ∀ runId stepId kind, HasRun idx tenantId runId →
    idx.detailOf tenantId runId stepId kind = idx'.detailOf tenantId runId stepId kind

/-- In two indexes, of which each may have come from the other by putting in and taking out items of
other tenants. -/
def Isolated : Prop := Scoped lower idx tenantId ∧ Scoped lower idx' tenantId ∧
  (SameItems idx idx' tenantId → SameAnswers lower idx idx' tenantId)

/-- The tenant has the first item of each of its runs, and no two items of one run, step and kind. -/
structure Apart : Prop where
  owned : ∀ i ∈ idx.items, i.tenantId = tenantId →
    ∀ f, idx.first i.runId = some f → f.tenantId = tenantId
  single : ∀ i ∈ idx.items, ∀ j ∈ idx.items, i.tenantId = tenantId → j.tenantId = tenantId →
    i.runId = j.runId → i.stepId = j.stepId → i.kind = j.kind → i = j

end Tenants

variable {lower : String → String} {idx idx' : EvidenceIndex} {tenantId runId stepId : String}
  {kind : EvidenceKind} {i : EvidenceItem}

theorem first_isSome (hi : i ∈ idx.items) : ∃ f, idx.first i.runId = some f := by
  have hsome : (idx.first i.runId).isSome = true :=
    find?_isSome.mpr ⟨i, hi, decide_eq_true rfl⟩
  exact Option.isSome_iff_exists.mp hsome

theorem checkScope_iff (hi : i ∈ idx.items) : idx.checkScope tenantId i.runId = .ok () ↔
    ∀ f, idx.first i.runId = some f → f.tenantId = tenantId := by
  obtain ⟨f, hf⟩ := first_isSome hi
  rw [EvidenceIndex.checkScope, hf]
  dsimp only
  constructor
  · intro h g hg
    obtain rfl := Option.some.inj hg
    split_ifs at h with hne
    exact not_not.mp hne
  · intro h
    exact if_neg (not_not.mpr (h f rfl))

theorem of_searchByStep {items : List EvidenceItem}
    (h : idx.searchByStep tenantId runId stepId = .ok items) : items = idx.items.filter
      (fun i => decide (i.tenantId = tenantId ∧ i.runId = runId ∧ i.stepId = stepId)) := by
  rw [EvidenceIndex.searchByStep] at h
  cases hscope : idx.checkScope tenantId runId with
  | error e =>
    rw [hscope] at h
    cases h
  | ok _ =>
    rw [hscope] at h
    exact (Except.ok.inj h).symm

theorem of_detailOf {found : Option EvidenceItem}
    (h : idx.detailOf tenantId runId stepId kind = .ok found) :
    idx.checkScope tenantId runId = .ok () ∧ found = idx.items.find? (fun i =>
      decide (i.tenantId = tenantId ∧ i.runId = runId ∧ i.stepId = stepId ∧ i.kind = kind)) := by
  rw [EvidenceIndex.detailOf] at h
  cases hscope : idx.checkScope tenantId runId with
  | error e =>
    rw [hscope] at h
    cases h
  | ok _ =>
    rw [hscope] at h
    exact ⟨rfl, (Except.ok.inj h).symm⟩

/-- **Whoever asks gets items of its own only, and gets them all exactly if it is apart.** -/
theorem scoped_iff : Scoped lower idx tenantId ↔ Apart idx tenantId := by
  constructor
  · intro h
    constructor
    · intro i hi htenant
      exact (checkScope_iff hi).mp (of_detailOf (h.returned i hi htenant)).1
    · intro i hi j hj hti htj hrun hstep hkind
      have hfound := (of_detailOf (h.returned i hi hti)).2
      rw [hrun, hstep, hkind, ← (of_detailOf (h.returned j hj htj)).2] at hfound
      exact Option.some.inj hfound
  · intro h
    constructor
    · intro query i hi
      have hown := (mem_filter.mp hi).1
      exact ⟨(mem_filter.mp hown).1, of_decide_eq_true (mem_filter.mp hown).2⟩
    · intro runId i hi
      exact ⟨(mem_filter.mp hi).1, (of_decide_eq_true (mem_filter.mp hi).2).1⟩
    · intro runId stepId items hitems i hi
      rw [of_searchByStep hitems] at hi
      exact ⟨(mem_filter.mp hi).1, (of_decide_eq_true (mem_filter.mp hi).2).1⟩
    · intro runId stepId kind i hdetail
      have hfound := (of_detailOf hdetail).2.symm
      have hkey := find?_some hfound
      rw [decide_eq_true_eq] at hkey
      exact ⟨mem_of_find?_eq_some hfound, hkey.1⟩
    · intro i hi htenant
      have hmem : (idx.items.find? (fun j => decide (j.tenantId = tenantId ∧ j.runId = i.runId ∧
          j.stepId = i.stepId ∧ j.kind = i.kind))).isSome = true :=
        find?_isSome.mpr ⟨i, hi, decide_eq_true ⟨htenant, rfl, rfl, rfl⟩⟩
      obtain ⟨j, hj⟩ := Option.isSome_iff_exists.mp hmem
      have hkey := find?_some hj
      rw [decide_eq_true_eq] at hkey
      obtain ⟨htj, hrun, hstep, hkind⟩ := hkey
      have hij := h.single j (mem_of_find?_eq_some hj) i hi htj htenant hrun hstep hkind
      rw [EvidenceIndex.detailOf, (checkScope_iff hi).mpr (h.owned i hi htenant), hj, hij]
      rfl

/-! ### Two indexes -/

theorem filter_congr_tenant (h : SameItems idx idx' tenantId) (p : EvidenceItem → Prop)
    [DecidablePred p] : idx.items.filter (fun i => decide (i.tenantId = tenantId ∧ p i))
      = idx'.items.filter (fun i => decide (i.tenantId = tenantId ∧ p i)) := by
  have hfilter := congrArg (List.filter (fun i => decide (p i))) h
  rw [filter_filter, filter_filter] at hfilter
  simpa only [Bool.decide_and, Bool.and_comm] using hfilter

theorem find_congr_tenant (h : SameItems idx idx' tenantId) (p : EvidenceItem → Prop)
    [DecidablePred p] : idx.items.find? (fun i => decide (i.tenantId = tenantId ∧ p i))
      = idx'.items.find? (fun i => decide (i.tenantId = tenantId ∧ p i)) := by
  rw [← head?_filter, ← head?_filter, filter_congr_tenant h p]

theorem SameItems.mem (h : SameItems idx idx' tenantId) (hi : i ∈ idx.items)
    (htenant : i.tenantId = tenantId) : i ∈ idx'.items := by
  have hmem : i ∈ idx.items.filter (fun i => decide (i.tenantId = tenantId)) :=
    mem_filter.mpr ⟨hi, decide_eq_true htenant⟩
  rw [h] at hmem
  exact (mem_filter.mp hmem).1

theorem sameAnswers (h : SameItems idx idx' tenantId) (hidx : Apart idx tenantId)
    (hidx' : Apart idx' tenantId) : SameAnswers lower idx idx' tenantId := by
  have hscope : ∀ runId, HasRun idx tenantId runId →
      idx.checkScope tenantId runId = idx'.checkScope tenantId runId := by
    rintro runId ⟨i, hi, htenant, rfl⟩
    have hi' := h.mem hi htenant
    rw [(checkScope_iff hi).mpr (hidx.owned i hi htenant),
      (checkScope_iff hi').mpr (hidx'.owned i hi' htenant)]
  constructor
  · intro query
    rw [EvidenceIndex.search, h]
    rfl
  · intro runId _
    exact filter_congr_tenant h (fun i => i.runId = runId)
  · intro runId stepId hrun
    rw [EvidenceIndex.searchByStep, hscope runId hrun,
      filter_congr_tenant h (fun i => i.runId = runId ∧ i.stepId = stepId)]
    rfl
  · intro runId stepId kind hrun
    rw [EvidenceIndex.detailOf, hscope runId hrun,
      find_congr_tenant h (fun i => i.runId = runId ∧ i.stepId = stepId ∧ i.kind = kind)]
    rfl

/-- **When a tenant is alone with its items.** -/
theorem isolated_iff (lower : String → String) (idx idx' : EvidenceIndex) (tenantId : String) :
    Isolated lower idx idx' tenantId ↔ Apart idx tenantId ∧ Apart idx' tenantId := by
  constructor
  · rintro ⟨h, h', -⟩
    exact ⟨scoped_iff.mp h, scoped_iff.mp h'⟩
  · rintro ⟨h, h'⟩
    exact ⟨scoped_iff.mpr h, scoped_iff.mpr h', fun hsame => sameAnswers hsame h h'⟩

def shared : EvidenceIndex :=
  ⟨[⟨"alpha", "run-1", "step-1", .toolCall, "fs.read", "", 0⟩,
    ⟨"beta", "run-1", "step-1", .toolCall, "fs.read", "plan", 0⟩]⟩

/-- The second tenant is refused its own item, which it gets where the first has none. -/
theorem shared_refused :
    ¬ Isolated String.toLower shared ⟨shared.items.tail⟩ "beta" ∧
    shared.detailOf "beta" "run-1" "step-1" .toolCall = .error (.tenantMismatch "beta" "alpha") ∧
    (⟨shared.items.tail⟩ : EvidenceIndex).detailOf "beta" "run-1" "step-1" .toolCall
      = .ok (some ⟨"beta", "run-1", "step-1", .toolCall, "fs.read", "plan", 0⟩) := by
  have hrefused : shared.detailOf "beta" "run-1" "step-1" .toolCall
      = .error (.tenantMismatch "beta" "alpha") := by rfl
  refine ⟨fun h => ?_, hrefused, rfl⟩
  have hreturned := h.1.returned ⟨"beta", "run-1", "step-1", .toolCall, "fs.read", "plan", 0⟩
    (by decide) rfl
  cases hrefused.symm.trans hreturned

end Evidence

end Modbit
