import Modbit.Agent.Runtime
import Modbit.Lib.Text

/-!
# Tool schemas and the arguments of calls

`crates/tools/src/schema.rs`: a schema repairs the arguments of a call to their normal form, or
rejects them (`normalize`), and is what the model is shown of a tool (`jsonSchema`).  An object is
looked at as the map of its fields (`argumentsOf`).

The loop hands the arguments to the kernel, the gate and the handler as they came from the model.
`normalized_calls` says which calls come out as if they had been normalized before: those whose
arguments are their own normal form and satisfy the schema the model was shown, and those that are
rejected and that the kernel refuses without asking.
-/

namespace Modbit

open Lib List

namespace Agent

open Policy

/-! ### Schemas -/

inductive ParamType where
  | str | int | bool
  deriving DecidableEq

structure ParamSpec where
  paramType : ParamType
  required : Bool
  default : Option Json
  description : String

structure ToolSchema where
  /-- Other names of parameters. -/
  aliases : OrdMap String String
  parameters : OrdMap String ParamSpec

structure SchemaError where
  param : String
  reason : String
  deriving DecidableEq

def SchemaError.display (e : SchemaError) : String :=
  "schema rejected " ++ Text.debugStr e.param ++ ": " ++ e.reason

/-- A number; a negative one is kept as it is printed. -/
def intJson : Int → Json
  | .ofNat n => .num n
  | .negSucc n => .float (toString (Int.negSucc n))

def coerce (param : String) (spec : ParamSpec) (raw : Json) : Except SchemaError Json :=
  match spec.paramType, raw with
  | .str, .str s => .ok (.str s)
  | .str, other => .error ⟨param, "expected string, got " ++ other.render⟩
  | .int, .num n => .ok (.num n)
  | .int, .float text => .ok (.float text)
  | .int, .str s =>
    -- stringified integers are common model output
    match Text.parseI64 (Text.trim s).toList with
    | some n => .ok (intJson n)
    | none => .error ⟨param, "expected integer, got " ++ Text.debugStr s⟩
  | .int, other => .error ⟨param, "expected integer, got " ++ other.render⟩
  | .bool, .bool b => .ok (.bool b)
  | .bool, .str s =>
    if Text.trim s ∈ ["true", "1", "yes"] then .ok (.bool true)
    else if Text.trim s ∈ ["false", "0", "no"] then .ok (.bool false)
    else .error ⟨param, "expected boolean, got " ++ Text.debugStr s⟩
  | .bool, other => .error ⟨param, "expected boolean, got " ++ other.render⟩

namespace ToolSchema

variable (s : ToolSchema)

def repair : List (String × Json) → OrdMap String Json → Except SchemaError (OrdMap String Json)
  | [], out => .ok out
  | (key, value) :: rest, out =>
    let canonical := (s.aliases.find? key).getD key
    match s.parameters.find? canonical with
    | none => .error ⟨key, "unknown parameter (no canonical form for " ++ Text.debugStr key ++ ")"⟩
    | some spec =>
      match coerce canonical spec value with
      | .error e => .error e
      | .ok coerced => repair rest (out.insert canonical coerced)

def fill : List (String × ParamSpec) → OrdMap String Json → Except SchemaError (OrdMap String Json)
  | [], out => .ok out
  | (name, spec) :: rest, out =>
    if (out.find? name).isSome then fill rest out
    else
      match spec.default with
      | some default => fill rest (out.insert name default)
      | none => if spec.required then .error ⟨name, "required parameter missing"⟩ else fill rest out

def normalize (raw : Json) : Except SchemaError (OrdMap String Json) :=
  let repaired := match raw with
    | .null => s.repair [] .empty
    | .obj fields => s.repair (OrdMap.ofList fields).entries .empty
    | other => .error ⟨"<arguments>", "arguments must be an object, got " ++ other.render⟩
  match repaired with
  | .error e => .error e
  | .ok out => fill s.parameters.entries out

def typeName : ParamType → String
  | .str => "string"
  | .int => "integer"
  | .bool => "boolean"

/-- What `tool_definitions` shows the model of the arguments. -/
def jsonSchema : Json :=
  .obj [("type", .str "object"), ("properties", .obj (s.parameters.entries.map (fun p =>
      (p.1, .obj [("type", .str (typeName p.2.paramType)), ("description", .str p.2.description)])))),
    ("required", .arr ((s.parameters.entries.filter (fun p => p.2.required)).map (fun p => .str p.1))),
    ("additionalProperties", .bool false)]

end ToolSchema

/-! ### What a schema accepts -/

/-- A value is of a type.  `integral` says of the text of a number whether it is an integer. -/
def ofType (integral : String → Bool) (type : Option String) : Json → Bool
  | .str _ => type = some "string"
  | .num _ => type = some "integer"
  | .float text => type = some "integer" && integral text
  | .bool _ => type = some "boolean"
  | _ => false

def accepts (integral : String → Bool) (schema : Json) (arguments : OrdMap String Json) : Bool :=
  let properties := match schema.field "properties" with
    | some (.obj properties) => properties
    | _ => []
  arguments.entries.all (fun e =>
    match properties.lookup e.1 with
    | some property => ofType integral ((property.field "type").bind Json.asStr) e.2
    | none => (schema.field "additionalProperties").bind Json.asBool ≠ some false) &&
  (((schema.field "required").bind Json.asStrList).getD []).all
    (fun name => (arguments.find? name).isSome)

/-! ### Calls -/

variable {W : Type}

/-- The fields of an object; of two with one name the later one counts. -/
def argumentsOf : Json → OrdMap String Json
  | .obj fields => .ofList fields
  | _ => .empty

def Event.request : Event W → ToolCallRequest
  | .checked _ r | .approved _ r | .executed _ r => r

def Event.IsExecuted : Event W → Prop
  | .executed _ _ => True
  | _ => False

namespace OneAgentRuntime

variable (rt : OneAgentRuntime W)

def Asks (w : W) (r : ToolCallRequest) : Prop :=
  rt.approvalGate.isSome = true ∧ rt.kernel.check r (rt.grants w) ≠ .allow ∧ r.effectClass ≠ .readOnly

def Runs (w : W) (r : ToolCallRequest) : Prop := (rt.decision w r).2.1 = .allow

/-- A call comes out as if its arguments had been normalized first: the kernel, the gate and the handler
see the normal form, a rejected call gets neither to the gate nor to the handler, and what the handler
gets satisfies the schema. -/
def Normalized (integral : String → Bool) (s : ToolSchema) (w : W) (call : ToolCallData)
    (fields : List (String × Json)) : Prop :=
  (match s.normalize (.obj fields) with
    | .ok v => (∀ e ∈ (rt.callTool w call (.obj fields)).2.2, argumentsOf e.request.arguments = v) ∧
        (rt.Asks w (rt.request call.name (.obj fields)) →
          argumentsOf (rt.request call.name (.obj fields)).arguments = v)
    | .error _ => ¬ rt.Asks w (rt.request call.name (.obj fields)) ∧
        ∀ e ∈ (rt.callTool w call (.obj fields)).2.2, ¬ e.IsExecuted) ∧
  ∀ e ∈ (rt.callTool w call (.obj fields)).2.2, e.IsExecuted →
    accepts integral s.jsonSchema (argumentsOf e.request.arguments) = true

/-- The arguments are their own normal form, and satisfy the schema if the call is allowed; or they are
rejected, and the call is refused without the gate being asked. -/
def Canonical (integral : String → Bool) (s : ToolSchema) (w : W) (call : ToolCallData)
    (fields : List (String × Json)) : Prop :=
  match s.normalize (.obj fields) with
  | .ok v => v = .ofList fields ∧ (rt.Runs w (rt.request call.name (.obj fields)) →
      accepts integral s.jsonSchema (.ofList fields) = true)
  | .error _ => ¬ rt.Asks w (rt.request call.name (.obj fields)) ∧
      ¬ rt.Runs w (rt.request call.name (.obj fields))

variable {rt} {w : W} {call : ToolCallData} {arguments : Json}

theorem callTool_log : (rt.callTool w call arguments).2.2
    = (rt.decision w (rt.request call.name arguments)).2.2 ++
      (match (rt.decision w (rt.request call.name arguments)).2.1 with
      | .allow => [.executed (rt.decision w (rt.request call.name arguments)).1
          (rt.request call.name arguments)]
      | .deny _ => []) := by
  rw [callTool]
  cases hd : rt.decision w (rt.request call.name arguments) with
  | mk w' rest =>
    obtain ⟨d, events⟩ := rest
    cases d with
    | deny reason => exact (append_nil _).symm
    | allow =>
      dsimp only
      cases rt.registry.execute w' call.name arguments .allow with
      | mk w'' result =>
        cases result with
        | ok execution => rfl
        | error e => rfl

theorem decision_log (r : ToolCallRequest) :
    .checked w r ∈ (rt.decision w r).2.2 ∧
      ∀ e ∈ (rt.decision w r).2.2, e.request = r ∧ ¬ e.IsExecuted := by
  have hone : Event.checked w r ∈ [Event.checked w r] ∧
      ∀ e ∈ [Event.checked w r], e.request = r ∧ ¬ e.IsExecuted := by
    refine ⟨mem_cons_self, fun e he => ?_⟩
    rw [mem_singleton.mp he]
    exact ⟨rfl, fun h => h⟩
  rw [decision]
  dsimp only
  split
  · split_ifs
    · refine ⟨mem_cons_self, fun e he => ?_⟩
      rcases mem_cons.mp he with rfl | he
      · exact ⟨rfl, fun h => h⟩
      · rw [mem_singleton.mp he]
        exact ⟨rfl, fun h => h⟩
    · exact hone
    · exact hone
  · exact hone

/-- **What a call leaves is about its request**, and it is executed exactly if it is allowed. -/
theorem callTool_request :
    (∀ e ∈ (rt.callTool w call arguments).2.2, e.request = rt.request call.name arguments) ∧
    (.checked w (rt.request call.name arguments) ∈ (rt.callTool w call arguments).2.2) ∧
    ((∃ e ∈ (rt.callTool w call arguments).2.2, e.IsExecuted) ↔
      rt.Runs w (rt.request call.name arguments)) := by
  obtain ⟨hchecked, hdecision⟩ := @decision_log _ rt w (rt.request call.name arguments)
  rw [callTool_log, Runs]
  cases (rt.decision w (rt.request call.name arguments)).2.1 with
  | deny reason =>
    rw [append_nil]
    refine ⟨fun e he => (hdecision e he).1, hchecked, ⟨fun ⟨e, he, hex⟩ => ?_, fun h => by cases h⟩⟩
    exact absurd hex (hdecision e he).2
  | allow =>
    refine ⟨fun e he => ?_, mem_append_left _ hchecked, ⟨fun _ => rfl, fun _ => ?_⟩⟩
    · rcases mem_append.mp he with he | he
      · exact (hdecision e he).1
      · rw [mem_singleton.mp he]
        rfl
    · exact ⟨_, mem_append_right _ mem_cons_self, trivial⟩

/-- **A call comes out as if it had been normalized exactly if there was nothing to normalize.** -/
theorem normalized_iff (rt : OneAgentRuntime W) (integral : String → Bool) (s : ToolSchema) (w : W)
    (call : ToolCallData) (fields : List (String × Json)) :
    rt.Normalized integral s w call fields ↔ rt.Canonical integral s w call fields := by
  obtain ⟨hrequest, hchecked, hruns⟩ :=
    @callTool_request _ rt w call (.obj fields)
  have hfields : argumentsOf (rt.request call.name (.obj fields)).arguments = .ofList fields := rfl
  rw [Normalized, Canonical]
  cases s.normalize (.obj fields) with
  | error e =>
    constructor
    · rintro ⟨⟨hasks, hnone⟩, -⟩
      exact ⟨hasks, fun h => by
        obtain ⟨e, he, hex⟩ := hruns.mpr h
        exact hnone e he hex⟩
    · rintro ⟨hasks, hnot⟩
      have hnone : ∀ e ∈ (rt.callTool w call (.obj fields)).2.2, ¬ e.IsExecuted :=
        fun e he hex => hnot (hruns.mp ⟨e, he, hex⟩)
      exact ⟨⟨hasks, hnone⟩, fun e he hex => absurd hex (hnone e he)⟩
  | ok v =>
    constructor
    · rintro ⟨⟨hsees, -⟩, hvalid⟩
      refine ⟨(hsees _ hchecked).symm.trans hfields, fun h => ?_⟩
      obtain ⟨e, he, hex⟩ := hruns.mpr h
      have haccepts := hvalid e he hex
      rw [hrequest e he] at haccepts
      exact haccepts
    · rintro ⟨rfl, hvalid⟩
      refine ⟨⟨fun e he => by rw [hrequest e he]; rfl, fun _ => rfl⟩, fun e he hex => ?_⟩
      rw [hrequest e he]
      exact hvalid (hruns.mp ⟨e, he, hex⟩)

/-- **Which calls come out as if their arguments had been normalized**, whatever the schema and the world
they are made in; and a run's log is that of such calls. -/
theorem normalized_calls (rt : OneAgentRuntime W) :
    (∀ (integral : String → Bool) (s : ToolSchema) (w : W) (call : ToolCallData)
      (fields : List (String × Json)),
      rt.Normalized integral s w call fields ↔ rt.Canonical integral s w call fields) ∧
    ∀ w, MadeCalls rt (rt.run w).1.log :=
  ⟨normalized_iff rt, OneAgentRuntime.run_madeCalls rt⟩

/-- The parameters of `change.apply`. -/
def changeApplySchema : ToolSchema where
  aliases := .empty
  parameters := .ofList [
    ("path", ⟨.str, true, none, "File to edit"⟩),
    ("old_text", ⟨.str, true, none, "Exact existing text to replace (must occur exactly once)"⟩),
    ("new_text", ⟨.str, true, none, "Replacement text"⟩), ("expected_revision", ⟨.int, false, none,
      "File revision from the read that produced old_text (optimistic concurrency guard)"⟩)]

/-- An edit whose expected revision is given as text. -/
def textRevision : List (String × Json) :=
  [("path", .str "a"), ("old_text", .str "x"), ("new_text", .str "y"), ("expected_revision", .str "7")]

def editor : OneAgentRuntime Unit where
  parse := fun _ => some (.obj textRevision)
  transport := fun w => (w, .ok [.toolRequest "0" "change.apply" "args"])
  registry := ⟨.ofList [("change.apply", ⟨"1.0.0", .write, fun w _ => (w, .ok .null)⟩)]⟩
  kernel := ⟨[]⟩
  grants := fun _ => [⟨"g-change-apply", "change.apply", .write⟩]
  maxTurns := 1
  control := none
  approvalGate := none

/-- The handler gets the text, and not the number it stands for. -/
theorem revision_unrepaired : ¬ ∀ (rt : OneAgentRuntime Unit) (integral : String → Bool)
    (s : ToolSchema) (w : Unit) (call : ToolCallData) (fields : List (String × Json)),
    rt.Normalized integral s w call fields := by
  intro h
  have hcanonical := (normalized_iff editor (fun _ => true) changeApplySchema () ⟨"0", "change.apply", "args"⟩
    textRevision).mp (h _ _ _ _ _ _)
  have hnormal : ∃ v, changeApplySchema.normalize (.obj textRevision) = .ok v ∧
      v.find? "expected_revision" = some (.num 7) := ⟨_, rfl, rfl⟩
  obtain ⟨v, hok, hseven⟩ := hnormal
  rw [Canonical, hok] at hcanonical
  rw [hcanonical.1] at hseven
  cases hseven

/-- An integer with a fraction is its own normal form, and not what the model was shown. -/
example : (∃ v, (ToolSchema.mk .empty (.ofList [("n", ⟨.int, true, none, ""⟩)])).normalize
      (.obj [("n", .float "1.5")]) = .ok v ∧ v = .ofList [("n", .float "1.5")]) ∧
    accepts (fun _ => false) (ToolSchema.mk .empty (.ofList [("n", ⟨.int, true, none, ""⟩)])).jsonSchema
      (.ofList [("n", .float "1.5")]) = false := ⟨⟨_, rfl, rfl⟩, rfl⟩

end OneAgentRuntime

end Agent

end Modbit
