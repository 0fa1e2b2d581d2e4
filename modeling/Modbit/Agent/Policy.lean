import Modbit.Lib.Json
import Modbit.Lib.Sha256
import Modbit.Lib.Text
import Modbit.Lib.Utf8

/-!
# The capability kernel

A tool call is allowed when a grant covers its tool and its class of effect, and no path
rule speaks against it.  The path rules come first: a call that writes or reaches outside
is refused a path with a parent component, and a protected path, whatever was granted.

`check_eq_allow` is the decision as one equivalence, and `pathDenial_isSome` says which
calls the path rules refuse.  `intentHash` names a call by its tool, class and arguments.
-/

namespace Modbit

open Lib

namespace Policy

inductive EffectClass where
  | readOnly
  | write
  | external
  deriving DecidableEq

/-- The derived `Debug` name. -/
def EffectClass.debug : EffectClass → String
  | .readOnly => "ReadOnly"
  | .write => "Write"
  | .external => "External"

def EffectClass.text : EffectClass → String
  | .readOnly => "read_only"
  | .write => "write"
  | .external => "external"

structure CapabilityGrant where
  grantId : String
  tool : String
  effectClass : EffectClass
  deriving DecidableEq

structure ToolCallRequest where
  tool : String
  effectClass : EffectClass
  arguments : Json

inductive PolicyDecision where
  | allow
  | deny (reason : String)
  deriving DecidableEq

def PolicyDecision.display : PolicyDecision → String
  | .allow => "allow"
  | .deny reason => "deny: " ++ reason

structure PolicyKernel where
  protectedPaths : List String

namespace PolicyKernel

def isProtected (kernel : PolicyKernel) (path : String) : Bool :=
  kernel.protectedPaths.any (fun p => Text.startsWith path p)

/-- A component between slashes, of either kind, is `..`. -/
def hasParent (path : String) : Bool :=
  (path.toList.splitOnP (fun c => c = '/' || c = '\\')).any (fun component => component = ['.', '.'])

def pathArgument (request : ToolCallRequest) : Option String :=
  (request.arguments.field "path").bind Json.asStr

def pathDenial (kernel : PolicyKernel) (request : ToolCallRequest) : Option String :=
  if request.effectClass = .readOnly then none
  else
    match pathArgument request with
    | none => none
    | some path =>
      if hasParent path then
        some ("path " ++ Text.debugStr path ++ " escapes the workspace (parent component)")
      else if kernel.isProtected path then some ("path " ++ Text.debugStr path ++ " is protected")
      else none

/-- Some grant is for the tool and the class of a call. -/
def covered (grants : List CapabilityGrant) (request : ToolCallRequest) : Bool :=
  grants.any (fun g => g.tool = request.tool && g.effectClass = request.effectClass)

def check (kernel : PolicyKernel) (request : ToolCallRequest) (callerGrants : List CapabilityGrant) :
    PolicyDecision :=
  match kernel.pathDenial request with
  | some reason => .deny reason
  | none =>
    if covered callerGrants request then .allow
    else .deny ("no capability grant covers tool " ++ Text.debugStr request.tool
      ++ " with effect class " ++ request.effectClass.debug)

variable {kernel : PolicyKernel} {request : ToolCallRequest} {grants : List CapabilityGrant}

/-- **A call is allowed when no path rule refuses it and a grant covers it.** -/
theorem check_eq_allow : kernel.check request grants = .allow ↔
    kernel.pathDenial request = none ∧ covered grants request = true := by
  rw [check]
  cases kernel.pathDenial request with
  | some reason => exact ⟨fun h => (nomatch h), fun h => (nomatch h.1)⟩
  | none =>
    constructor
    · intro h
      split_ifs at h with hc
      exact ⟨rfl, hc⟩
    · intro h
      exact if_pos h.2

/-- A call that has an effect, on a path with a parent component or a protected one. -/
def PathRefused (kernel : PolicyKernel) (request : ToolCallRequest) : Prop :=
  request.effectClass ≠ .readOnly ∧
    ∃ path, pathArgument request = some path ∧ (hasParent path = true ∨ kernel.isProtected path = true)

theorem pathDenial_isSome : kernel.PathRefused request ↔ kernel.pathDenial request ≠ none := by
  rw [PathRefused, pathDenial]
  by_cases hclass : request.effectClass = .readOnly
  · rw [if_pos hclass]
    exact ⟨fun h => absurd hclass h.1, fun h => absurd rfl h⟩
  · rw [if_neg hclass]
    cases pathArgument request with
    | none => exact ⟨fun ⟨_, path, h, _⟩ => (nomatch h), fun h => absurd rfl h⟩
    | some path =>
      dsimp only
      split_ifs with hparent hprotected
      · exact ⟨fun _ h => (nomatch h), fun _ => ⟨hclass, path, rfl, .inl hparent⟩⟩
      · exact ⟨fun _ h => (nomatch h), fun _ => ⟨hclass, path, rfl, .inr hprotected⟩⟩
      · refine ⟨fun ⟨_, path', hpath, hrule⟩ => ?_, fun h => absurd rfl h⟩
        cases hpath
        exact hrule.elim (fun h => absurd h hparent) (fun h => absurd h hprotected)

instance : Decidable (kernel.PathRefused request) := decidable_of_iff _ pathDenial_isSome.symm

theorem covered_iff : covered grants request = true ↔
    ∃ g ∈ grants, g.tool = request.tool ∧ g.effectClass = request.effectClass := by
  simp [covered]

end PolicyKernel

/-! ### Intents -/

mutual

def sortValue : Json → Json
  | .obj fields => .obj (sortFields fields)
  | .arr items => .arr (sortItems items)
  | other => other

def sortItems : List Json → List Json
  | [] => []
  | j :: rest => sortValue j :: sortItems rest

def sortFields : List (String × Json) → List (String × Json)
  | [] => []
  | (name, j) :: rest => (name, sortValue j) :: sortFields rest

end

def intentHash (request : ToolCallRequest) : String :=
  Sha256.hex (Utf8.encode (Json.render (.obj
    [("arguments", sortValue request.arguments), ("effect_class", .str request.effectClass.text),
      ("tool", .str request.tool)])).toList)

end Policy

end Modbit
