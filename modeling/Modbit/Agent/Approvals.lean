import Modbit.Agent.Runtime

/-!
# Approvals

A refused call is written to a table as a pending approval under the hash of its intent, and the
gate waits until the table says that this intent is approved or denied, or until its time is up.
When a call is approved, the gate leaves two live grants for its tool.

These grants name the tool only, so the kernel allows the tool's next call whatever its arguments:
`approved_runs` says which runs execute nothing that was not approved.  And the decision of the gate
stands for the kernel's, also where a path rule refuses the call: `kernel_runs` says which runs
execute nothing the kernel would refuse.
-/

namespace Modbit

open Lib List

namespace Agent

open Policy

/-! ### The table -/

inductive ApprovalState where
  | pending
  | approved
  | denied
  deriving DecidableEq

def ApprovalState.text : ApprovalState → String
  | .pending => "pending"
  | .approved => "approved"
  | .denied => "denied"

structure Approval where
  approvalId : String
  taskId : String
  intentHash : String
  tool : String
  scope : String
  state : ApprovalState
  createdAt : String
  resolvedAt : String
  resolvedBy : String

namespace Approvals

/-- `INSERT OR IGNORE`: an id that is there already is left alone. -/
def insert (table : List Approval) (a : Approval) : List Approval :=
  if table.any (fun b => b.approvalId = a.approvalId) then table else table ++ [a]

/-- The row of an id, where it is pending, and whether there was one. -/
def resolve (table : List Approval) (approvalId : String) (state : ApprovalState)
    (resolvedBy now : String) : List Approval × Bool :=
  let hit := fun a : Approval => a.approvalId = approvalId && a.state = .pending
  (table.map (fun a => if hit a then
    { a with state := state, resolvedAt := now, resolvedBy := resolvedBy } else a), table.any hit)

def rank : ApprovalState → Nat
  | .approved => 0
  | .pending => 1
  | .denied => 2

def first : List Approval → Option Approval
  | [] => none
  | a :: rest =>
    match first rest with
    | none => some a
    | some b =>
      if rank a.state < rank b.state ∨ (rank a.state = rank b.state ∧ a.createdAt ≤ b.createdAt) then
        some a
      else some b

def decisionFor (table : List Approval) (taskId intentHash : String) : Option ApprovalState :=
  (first (table.filter (fun a => a.taskId = taskId && a.intentHash = intentHash))).map
    (fun a => a.state)

end Approvals

/-! ### The gate -/

inductive TableOp where
  | request (approvalId taskId intentHash tool scope createdAt : String)
  | resolve (approvalId : String) (approve : Bool) (resolvedBy now : String)

def TableOp.apply (table : List Approval) : TableOp → List Approval
  | .request approvalId taskId intentHash tool scope createdAt =>
    Approvals.insert table ⟨approvalId, taskId, intentHash, tool, scope, .pending, createdAt, "", ""⟩
  | .resolve approvalId approve resolvedBy now =>
    (Approvals.resolve table approvalId (if approve then .approved else .denied) resolvedBy now).1

/-- One look of the gate at the clock and at the table. -/
structure Look where
  /-- What others did before it. -/
  ops : List TableOp
  expired : Bool
  /-- The query fails. -/
  fails : Bool

/-- What the gate meets on one call: the id and the time of its request, whether the request is
written, and its looks at the table. -/
structure Wait where
  uuid : String
  now : String
  written : Bool
  looks : List Look

structure World where
  table : List Approval
  grants : List CapabilityGrant
  /-- One for each call that the gate is still to be asked about. -/
  waits : List Wait

namespace DurableApprovalGate

/-- The loop of `await_decision`; looks that do not come are a time that is up. -/
def poll (taskId approvalId intentHash tool : String) : List Look → World → World × Option String
  | [], w => (w, none)
  | look :: rest, w =>
    let w := { w with table := look.ops.foldl TableOp.apply w.table }
    if look.expired then (w, none)
    else
      match (if look.fails then none else Approvals.decisionFor w.table taskId intentHash) with
      | some .approved =>
        ({ w with grants := w.grants
            ++ [⟨"g-approval-" ++ approvalId, tool, .write⟩,
              ⟨"g-approval-" ++ approvalId ++ "-ext", tool, .external⟩] }, some "approved")
      | some .denied => (w, some "denied")
      | _ => poll taskId approvalId intentHash tool rest w

def awaitDecision (taskId : String) (w : World) (intentHash tool : String) (arguments : Json) :
    World × Option String :=
  match w.waits with
  | [] => (w, none)
  | wait :: waits =>
    let approvalId := "appr-" ++ wait.uuid
    let scope := Json.render (.obj [("intent_hash", .str intentHash), ("arguments", arguments)])
    let row : Approval := ⟨approvalId, taskId, intentHash, tool, scope, .pending, wait.now, "", ""⟩
    let table := if wait.written then Approvals.insert w.table row else w.table
    poll taskId approvalId intentHash tool wait.looks { w with table := table, waits := waits }

end DurableApprovalGate

def World.Approved (w : World) (taskId intentHash : String) : Prop :=
  ∃ a ∈ w.table, a.taskId = taskId ∧ a.intentHash = intentHash ∧ a.state = .approved

instance (w : World) (taskId intent : String) : Decidable (w.Approved taskId intent) :=
  inferInstanceAs (Decidable (∃ a ∈ w.table, _))

/-- A run in approvals mode: everything but the grants and the gate. -/
structure Setup where
  parse : String → Option Json
  transport : World → World × Except String (List StreamEvent)
  registry : ToolRegistry World
  kernel : PolicyKernel
  maxTurns : Nat
  control : Option (World → World × Bool × Bool)
  taskId : String

def Setup.runtime (setup : Setup) : OneAgentRuntime World where
  parse := setup.parse
  transport := setup.transport
  registry := setup.registry
  kernel := setup.kernel
  grants := World.grants
  maxTurns := setup.maxTurns
  control := setup.control
  approvalGate := some (DurableApprovalGate.awaitDecision setup.taskId)

/-- The worktree's grants, of which approvals mode keeps those without an effect. -/
def baseGrants (grants : List CapabilityGrant) : List CapabilityGrant :=
  grants.filter (fun g => g.effectClass = .readOnly)

/-! ### What an approval means -/

namespace DurableApprovalGate

theorem mem_of_first : ∀ {table : List Approval} {a : Approval}, Approvals.first table = some a →
    a ∈ table := by
  intro table
  induction table with
  | nil => exact fun h => (nomatch h)
  | cons b rest ih =>
    intro a h
    rw [Approvals.first] at h
    cases hrest : Approvals.first rest with
    | none =>
      rw [hrest] at h
      rw [← Option.some.inj h]
      exact mem_cons_self
    | some c =>
      rw [hrest] at h
      dsimp only at h
      split_ifs at h
      · rw [← Option.some.inj h]
        exact mem_cons_self
      · rw [← Option.some.inj h]
        exact mem_cons_of_mem b (ih hrest)

variable {taskId approvalId intentHash tool : String} {w : World}

theorem approved_of_decisionFor
    (h : Approvals.decisionFor w.table taskId intentHash = some .approved) :
    w.Approved taskId intentHash := by
  obtain ⟨a, hfirst, hstate⟩ := Option.map_eq_some_iff.mp h
  obtain ⟨hmem, hkey⟩ := mem_filter.mp (mem_of_first hfirst)
  rw [Bool.and_eq_true, decide_eq_true_eq, decide_eq_true_eq] at hkey
  exact ⟨a, hmem, hkey.1, hkey.2, hstate⟩

/-- What the world is like when the gate has approved a call: the table says so, and the tool has a
live grant for every effect. -/
def Granted (w : World) (taskId intentHash tool : String) : Prop :=
  w.Approved taskId intentHash ∧
    ∀ c, c ≠ EffectClass.readOnly → ∃ g ∈ w.grants, g.tool = tool ∧ g.effectClass = c

theorem granted_of_decisionFor
    (h : Approvals.decisionFor w.table taskId intentHash = some .approved) :
    Granted { w with grants := w.grants
      ++ [⟨"g-approval-" ++ approvalId, tool, .write⟩,
        ⟨"g-approval-" ++ approvalId ++ "-ext", tool, .external⟩] } taskId intentHash tool := by
  refine ⟨approved_of_decisionFor h, fun c hc => ?_⟩
  cases c with
  | readOnly => exact absurd rfl hc
  | write => exact ⟨_, mem_append_right _ mem_cons_self, rfl, rfl⟩
  | external =>
    exact ⟨_, mem_append_right _ (mem_cons_of_mem _ mem_cons_self), rfl, rfl⟩

theorem granted_of_poll (looks : List Look) : ∀ w : World,
    (poll taskId approvalId intentHash tool looks w).2 = some "approved" →
      Granted (poll taskId approvalId intentHash tool looks w).1 taskId intentHash tool := by
  induction looks with
  | nil => exact fun w h => (nomatch h)
  | cons look rest ih =>
    intro w h
    rw [poll] at h ⊢
    split_ifs at h ⊢ with hexpired hfails
    · exact ih _ h
    · split at h
      · rename_i hdecision
        exact granted_of_decisionFor (w := { w with table := look.ops.foldl TableOp.apply w.table })
          hdecision
      · exact absurd (Option.some.inj h) (by decide)
      · exact ih _ h

theorem granted_of_awaitDecision {arguments : Json}
    (h : (awaitDecision taskId w intentHash tool arguments).2 = some "approved") :
    Granted (awaitDecision taskId w intentHash tool arguments).1 taskId intentHash tool := by
  rw [awaitDecision] at h ⊢
  cases hw : w.waits with
  | nil =>
    rw [hw] at h
    cases h
  | cons wait waits =>
    rw [hw] at h
    exact granted_of_poll wait.looks _ h

end DurableApprovalGate

/-! ### Runs with approvals -/

/-- A call that has an effect is executed with an approval of its own. -/
def Event.HasApproval (taskId : String) : Event World → Prop
  | .executed w r => r.effectClass ≠ .readOnly → w.Approved taskId (intentHash r)
  | _ => True

instance (taskId : String) : ∀ e : Event World, Decidable (e.HasApproval taskId)
  | .executed w r => inferInstanceAs (Decidable (_ → w.Approved taskId (intentHash r)))
  | .checked _ _ => .isTrue trivial
  | .approved _ _ => .isTrue trivial

/-- A call to a tool that has a live grant already is one that was approved itself, or that the
path rules refuse. -/
def Event.Renewed (kernel : PolicyKernel) (taskId : String) : Event World → Prop
  | .checked w r => r.effectClass ≠ .readOnly → PolicyKernel.covered w.grants r = true →
      ¬ kernel.PathRefused r → w.Approved taskId (intentHash r)
  | _ => True

theorem hasApproval_iff {setup : Setup} {w : World} {r : ToolCallRequest}
    {events : List (Event World)}
    (h : setup.runtime.Called w r events) :
    (∀ e ∈ events, e.HasApproval setup.taskId) ↔
      ∀ e ∈ events, e.Renewed setup.kernel setup.taskId := by
  cases h with
  | allowed hcheck =>
    obtain ⟨hpath, hcovered⟩ := PolicyKernel.check_eq_allow.mp hcheck
    have hnot : ¬ setup.kernel.PathRefused r := fun h => PolicyKernel.pathDenial_isSome.mp h hpath
    constructor
    · intro hall
      have hrow := hall _ (mem_cons_of_mem _ (mem_singleton.mpr rfl))
      simp only [forall_mem_cons]
      exact ⟨fun hclass _ _ => hrow hclass, trivial, fun e he => (nomatch he)⟩
    · intro hall
      have hrow := hall _ mem_cons_self
      simp only [forall_mem_cons]
      exact ⟨trivial, fun hclass => hrow hclass hcovered hnot, fun e he => (nomatch he)⟩
  | approved gate hgate hcheck hclass hanswer =>
    cases Option.some.inj hgate
    have hrow := (DurableApprovalGate.granted_of_awaitDecision hanswer).1
    have hnot := mt PolicyKernel.check_eq_allow.mpr hcheck
    simp only [forall_mem_cons]
    refine ⟨fun _ => ⟨fun _ hcovered hpath => ?_, trivial, trivial, fun e he => (nomatch he)⟩,
      fun _ => ⟨trivial, trivial, fun _ => hrow, fun e he => (nomatch he)⟩⟩
    exact absurd ⟨not_not.mp (mt PolicyKernel.pathDenial_isSome.mpr hpath), hcovered⟩ hnot
  | refused hcheck =>
    have hnot := mt PolicyKernel.check_eq_allow.mpr hcheck
    simp only [forall_mem_cons]
    refine ⟨fun _ => ⟨fun _ hcovered hpath => ?_, fun e he => (nomatch he)⟩,
      fun _ => ⟨trivial, fun e he => (nomatch he)⟩⟩
    exact absurd ⟨not_not.mp (mt PolicyKernel.pathDenial_isSome.mpr hpath), hcovered⟩ hnot

/-- **Which runs execute nothing that was not approved.**  Those in which a tool with a live grant
is called again only with what was approved. -/
theorem approved_runs (setup : Setup) (w : World) :
    (∀ e ∈ (setup.runtime.run w).1.log, e.HasApproval setup.taskId) ↔
      ∀ e ∈ (setup.runtime.run w).1.log, e.Renewed setup.kernel setup.taskId :=
  OneAgentRuntime.run_forall_iff (fun _ _ _ h => hasApproval_iff h) w

def onFile (path : String) : String := "\x7b\x22path\x22:\x22" ++ path ++ "\x22\x7d"

/-- One turn that calls `change.apply` on files. -/
def trial (paths : List String) : Setup where
  parse := fun text => (paths.find? (fun path => text = onFile path)).map
    (fun path => .obj [("path", .str path)])
  transport := fun w =>
    (w, .ok (paths.map (fun path => .toolRequest path "change.apply" (onFile path))))
  registry := ⟨.ofList [("change.apply", ⟨"1", .write, fun w _ => (w, .ok (.obj []))⟩)]⟩
  kernel := ⟨[]⟩
  maxTurns := 1
  control := none
  taskId := "t"

def trialWorld : World :=
  ⟨[], baseGrants [⟨"g-fs-read", "fs.read", .readOnly⟩, ⟨"g-change-apply", "change.apply", .write⟩],
    [⟨"0", "", true, [⟨[.resolve "appr-0" true "operator" ""], false, false⟩]⟩]⟩

/-- Once the change of one file is approved, that of another file is executed without. -/
theorem second_file_unapproved :
    ∃ e ∈ ((trial ["a", "b"]).runtime.run trialWorld).1.log, ¬ e.HasApproval "t" := by
  decide +kernel

/-! ### Runs and the kernel -/

section Kernel

variable {W : Type} {rt : OneAgentRuntime W}

/-- What is executed, the kernel allows under the grants of that moment. -/
def Event.Allowed (rt : OneAgentRuntime W) : Event W → Prop
  | .executed w r => rt.kernel.check r (rt.grants w) = .allow
  | _ => True

/-- What is executed is on no path that the rules refuse. -/
def Event.OnFreePath (rt : OneAgentRuntime W) : Event W → Prop
  | .executed _ r => ¬ rt.kernel.PathRefused r
  | _ => True

instance : ∀ e : Event W, Decidable (e.Allowed rt)
  | .executed w r => inferInstanceAs (Decidable (rt.kernel.check r (rt.grants w) = .allow))
  | .checked _ _ => .isTrue trivial
  | .approved _ _ => .isTrue trivial

instance : ∀ e : Event W, Decidable (e.OnFreePath rt)
  | .executed _ r => inferInstanceAs (Decidable (¬ rt.kernel.PathRefused r))
  | .checked _ _ => .isTrue trivial
  | .approved _ _ => .isTrue trivial

/-- What the gate approves is on no path that the rules refuse. -/
def Event.ApprovedFree (rt : OneAgentRuntime W) : Event W → Prop
  | .approved _ r => ¬ rt.kernel.PathRefused r
  | _ => True

/-- For what it approves the gate also leaves a grant. -/
def Event.ApprovedGranted (rt : OneAgentRuntime W) : Event W → Prop
  | .approved w r => PolicyKernel.covered (rt.grants w) r = true
  | _ => True

theorem allowed_iff {w : W} {r : ToolCallRequest} {events : List (Event W)}
    (h : rt.Called w r events) : (∀ e ∈ events, e.Allowed rt) ↔
      ∀ e ∈ events, e.ApprovedFree rt ∧ e.ApprovedGranted rt := by
  cases h with
  | allowed hcheck =>
    simp only [forall_mem_cons]
    exact ⟨fun _ => ⟨⟨trivial, trivial⟩, ⟨trivial, trivial⟩, fun e he => (nomatch he)⟩,
      fun _ => ⟨trivial, hcheck, fun e he => (nomatch he)⟩⟩
  | approved gate _ _ _ _ =>
    simp only [forall_mem_cons]
    constructor
    · rintro ⟨-, -, hcheck, -⟩
      obtain ⟨hpath, hcovered⟩ := PolicyKernel.check_eq_allow.mp hcheck
      exact ⟨⟨trivial, trivial⟩, ⟨fun h => PolicyKernel.pathDenial_isSome.mp h hpath, hcovered⟩,
        ⟨trivial, trivial⟩, fun e he => (nomatch he)⟩
    · rintro ⟨-, ⟨hpath, hcovered⟩, -⟩
      refine ⟨trivial, trivial, PolicyKernel.check_eq_allow.mpr ⟨?_, hcovered⟩,
        fun e he => (nomatch he)⟩
      exact not_not.mp (mt PolicyKernel.pathDenial_isSome.mpr hpath)
  | refused _ =>
    simp only [forall_mem_cons]
    exact ⟨fun _ => ⟨⟨trivial, trivial⟩, fun e he => (nomatch he)⟩,
      fun _ => ⟨trivial, fun e he => (nomatch he)⟩⟩

theorem onFreePath_iff {w : W} {r : ToolCallRequest} {events : List (Event W)}
    (h : rt.Called w r events) : (∀ e ∈ events, e.OnFreePath rt) ↔
      ∀ e ∈ events, e.ApprovedFree rt := by
  cases h with
  | allowed hcheck =>
    have hpath := (PolicyKernel.check_eq_allow.mp hcheck).1
    simp only [forall_mem_cons]
    exact ⟨fun _ => ⟨trivial, trivial, fun e he => (nomatch he)⟩,
      fun _ => ⟨trivial, fun h => PolicyKernel.pathDenial_isSome.mp h hpath, fun e he => (nomatch he)⟩⟩
  | approved gate _ _ _ _ =>
    simp only [forall_mem_cons]
    exact ⟨fun ⟨_, _, hpath, _⟩ => ⟨trivial, hpath, trivial, fun e he => (nomatch he)⟩,
      fun ⟨_, hpath, _⟩ => ⟨trivial, trivial, hpath, fun e he => (nomatch he)⟩⟩
  | refused _ =>
    simp only [forall_mem_cons]
    exact ⟨fun _ => ⟨trivial, fun e he => (nomatch he)⟩, fun _ => ⟨trivial, fun e he => (nomatch he)⟩⟩

/-- **Which runs execute nothing the kernel would refuse.**  Those in which the gate approves no
call on a refused path, and leaves a grant for what it approves; the first alone keeps every
executed call off the refused paths. -/
theorem kernel_runs (rt : OneAgentRuntime W) (w : W) :
    ((∀ e ∈ (rt.run w).1.log, e.Allowed rt) ↔
      ∀ e ∈ (rt.run w).1.log, e.ApprovedFree rt ∧ e.ApprovedGranted rt) ∧
    ((∀ e ∈ (rt.run w).1.log, e.OnFreePath rt) ↔ ∀ e ∈ (rt.run w).1.log, e.ApprovedFree rt) :=
  ⟨OneAgentRuntime.run_forall_iff (fun _ _ _ h => allowed_iff h) w,
    OneAgentRuntime.run_forall_iff (fun _ _ _ h => onFreePath_iff h) w⟩

end Kernel

/-- **The durable gate leaves a grant for all it approves**, so with it the path rules alone
decide. -/
theorem durable_kernel_runs (setup : Setup) (w : World) :
    (∀ (w' : World) (intentHash tool : String) (arguments : Json),
      (DurableApprovalGate.awaitDecision setup.taskId w' intentHash tool arguments).2
          = some "approved" →
        DurableApprovalGate.Granted
          (DurableApprovalGate.awaitDecision setup.taskId w' intentHash tool arguments).1
          setup.taskId intentHash tool) ∧
    ((∀ e ∈ (setup.runtime.run w).1.log, e.Allowed setup.runtime) ↔
      ∀ e ∈ (setup.runtime.run w).1.log, e.ApprovedFree setup.runtime) := by
  refine ⟨fun _ _ _ _ => DurableApprovalGate.granted_of_awaitDecision,
    OneAgentRuntime.run_forall_iff (fun w r events h => ?_) w⟩
  rw [allowed_iff h]
  refine ⟨fun hall e he => (hall e he).1, fun hall e he => ⟨hall e he, ?_⟩⟩
  cases h with
  | allowed _ =>
    simp only [mem_cons, not_mem_nil, or_false] at he
    rcases he with rfl | rfl
    · trivial
    · trivial
  | refused _ =>
    rw [mem_singleton.mp he]
    trivial
  | approved gate hgate _ hclass hanswer =>
    simp only [mem_cons, not_mem_nil, or_false] at he
    rcases he with rfl | rfl | rfl
    · trivial
    · cases Option.some.inj hgate
      exact PolicyKernel.covered_iff.mpr
        ((DurableApprovalGate.granted_of_awaitDecision hanswer).2 r.effectClass hclass)
    · trivial

/-- An approved change outside the workspace is executed, though the kernel refuses it even under
the grants that the approval left. -/
theorem approved_escape_executed :
    ∃ e ∈ ((trial ["../b"]).runtime.run trialWorld).1.log,
      ¬ e.Allowed (trial ["../b"]).runtime ∧ ¬ e.OnFreePath (trial ["../b"]).runtime := by
  decide +kernel

end Agent

end Modbit
