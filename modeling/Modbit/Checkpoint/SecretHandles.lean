import Modbit.Lib.OrdMap
import Modbit.Lib.Run
import Modbit.Lib.Sha256
import Modbit.Lib.Text
import Modbit.Lib.Utf8
import Mathlib.Data.List.Infix
import Mathlib.Data.String.Basic

/-!
# Credential handles

`SecretBroker` in `crates/checkpoint/src/security_hardening.rs`.  A handle stands for a secret in
the guest, and the broker resolves it for the scopes it covers.  Its id is made of the secret alone,
and an issue under an id that is there replaces what it stands for.

A handle should do what its own call has granted, whatever else is issued (`Independent`).
`handles_lawful_iff`: this and distinct ids are what one gets exactly if no two secrets have the
same short digest; the handles alone are independent exactly if those of one id agree (`Alike`).
-/

namespace Modbit.Secrets

open Lib List

structure CredentialHandle where
  handleId : String
  scope : String
  expiresMs : Int
  deriving DecidableEq

inductive BrokerError where
  | expired (handleId : String)
  | unknownHandle (id : String)
  | scopeMismatch (handleId requiredScope : String)
  deriving DecidableEq

def BrokerError.text : BrokerError → String
  | expired handleId => "handle " ++ handleId ++ " expired"
  | unknownHandle id => "unknown handle " ++ Text.debugStr id
  | scopeMismatch handleId requiredScope =>
    "handle " ++ handleId ++ " scope does not cover " ++ Text.debugStr requiredScope

/-- The broker: what each id stands for, with its secret. -/
structure SecretBroker where
  handles : OrdMap String (CredentialHandle × String)

/-- The arguments of `issue`. -/
structure Grant where
  scope : String
  secret : String
  expiresMs : Int
  deriving DecidableEq

def shortDigest (secret : String) : List Char :=
  (Sha256.hex (Utf8.encode secret.toList)).toList.take 16

def Grant.handle (g : Grant) : CredentialHandle where
  handleId := "handle-" ++ String.ofList (shortDigest g.secret)
  scope := g.scope
  expiresMs := g.expiresMs

namespace SecretBroker

def new : SecretBroker := ⟨.empty⟩

def issue (b : SecretBroker) (g : Grant) : SecretBroker × CredentialHandle :=
  (⟨b.handles.insert g.handle.handleId (g.handle, g.secret)⟩, g.handle)

def resolve (b : SecretBroker) (handle : CredentialHandle) (requiredScope : String) :
    Except BrokerError String :=
  match b.handles.find? handle.handleId with
  | none => .error (.unknownHandle handle.handleId)
  | some (storedHandle, secret) =>
    if storedHandle.expiresMs ≤ 0 then .error (.expired handle.handleId)
    else if ¬ requiredScope.toList <:+: storedHandle.scope.toList then
      .error (.scopeMismatch handle.handleId requiredScope)
    else .ok secret

end SecretBroker

open SecretBroker

def Grant.outcome (g : Grant) (requiredScope : String) : Except BrokerError String :=
  resolve (run issue .new [g]) g.handle requiredScope

/-- Every handle does what its own call has granted. -/
def Independent (grants : List Grant) : Prop :=
  ∀ g ∈ grants, ∀ requiredScope,
    resolve (run issue .new grants) g.handle requiredScope = g.outcome requiredScope

def DistinctIds (grants : List Grant) : Prop :=
  ((replies issue .new grants).map CredentialHandle.handleId).Nodup

/-- Two grants that nobody can tell apart by their handles, as far as these have one id. -/
def Alike (g g' : Grant) : Prop :=
  (g.expiresMs ≤ 0 ∧ g'.expiresMs ≤ 0)
    ∨ (0 < g.expiresMs ∧ 0 < g'.expiresMs ∧ g.scope = g'.scope ∧ g.secret = g'.secret)

/-! ### What a handle resolves to -/

variable {g g' : Grant}

theorem handleId_eq_iff :
    g.handle.handleId = g'.handle.handleId ↔ shortDigest g.secret = shortDigest g'.secret := by
  rw [Grant.handle, Grant.handle, ← String.toList_inj, String.toList_append, String.toList_append,
    append_cancel_left_eq, String.toList_ofList, String.toList_ofList]

theorem resolve_of_find {b : SecretBroker} {handle : CredentialHandle}
    (hid : g.handle.handleId = handle.handleId)
    (h : b.handles.find? handle.handleId = some (g.handle, g.secret)) (requiredScope : String) :
    resolve b handle requiredScope = g.outcome requiredScope := by
  have halone : (run issue .new [g]).handles.find? g.handle.handleId
      = some (g.handle, g.secret) := by
    rw [run_cons, run_nil, issue, OrdMap.find?_insert, if_pos rfl]
  rw [Grant.outcome, resolve, resolve, h, halone, hid]

/-- **A handle does what the last call with its id has granted.** -/
theorem exists_last (grants : List Grant) : ∀ g ∈ grants, ∃ last ∈ grants,
    last.handle.handleId = g.handle.handleId
      ∧ (run issue .new grants).handles.find? g.handle.handleId
          = some (last.handle, last.secret) := by
  induction grants using List.reverseRecOn with
  | nil => exact fun _ hg => nomatch hg
  | append_singleton grants g' ih =>
    intro g hg
    rw [run_append, run_cons, run_nil, issue, OrdMap.find?_insert]
    by_cases hid : g'.handle.handleId = g.handle.handleId
    · exact ⟨g', mem_append_right _ mem_cons_self, hid, if_pos hid.symm⟩
    · rcases mem_append.mp hg with hg | hg
      · obtain ⟨last, hlast, hsame, hfind⟩ := ih g hg
        refine ⟨last, mem_append_left _ hlast, hsame, ?_⟩
        rw [if_neg (Ne.symm hid), hfind]
      · exact absurd (by rw [mem_singleton.mp hg]) hid

theorem outcome_eq (g : Grant) (requiredScope : String) :
    g.outcome requiredScope =
      if g.expiresMs ≤ 0 then .error (.expired g.handle.handleId)
      else if ¬ requiredScope.toList <:+: g.scope.toList then
        .error (.scopeMismatch g.handle.handleId requiredScope)
      else .ok g.secret := by
  rw [Grant.outcome, resolve, run_cons, run_nil, issue, OrdMap.find?_insert, if_pos rfl]
  rfl

theorem covers_of_outcome (hlive : 0 < g.expiresMs) (h : g.outcome g.scope = g'.outcome g.scope) :
    0 < g'.expiresMs ∧ g.scope.toList <:+: g'.scope.toList ∧ g.secret = g'.secret := by
  rw [outcome_eq, outcome_eq, if_neg (by omega), if_neg (not_not.mpr infix_rfl)] at h
  split_ifs at h with hexpired hcovered
  · exact ⟨by omega, hcovered, Except.ok.inj h⟩

theorem alike_iff (hid : g.handle.handleId = g'.handle.handleId) :
    (∀ requiredScope, g.outcome requiredScope = g'.outcome requiredScope) ↔ Alike g g' := by
  constructor
  · intro h
    by_cases hlive : 0 < g.expiresMs
    · obtain ⟨hlive', hcovered, hsecret⟩ := covers_of_outcome hlive (h g.scope)
      obtain ⟨-, hcovered', -⟩ := covers_of_outcome hlive' (h g'.scope).symm
      have hscope := String.toList_inj.mp (infix_antisymm hcovered hcovered')
      exact .inr ⟨hlive, hlive', hscope, hsecret⟩
    · by_cases hlive' : 0 < g'.expiresMs
      · exact absurd (covers_of_outcome hlive' (h g'.scope).symm).1 hlive
      · exact .inl ⟨by omega, by omega⟩
  · rintro (⟨hexpired, hexpired'⟩ | ⟨hlive, hlive', hscope, hsecret⟩) requiredScope
    · rw [outcome_eq, outcome_eq, if_pos hexpired, if_pos hexpired', hid]
    · rw [outcome_eq, outcome_eq, if_neg (not_le.mpr hlive), if_neg (not_le.mpr hlive'), hid, hscope,
        hsecret]

/-! ### Runs -/

theorem independent_iff (grants : List Grant) :
    Independent grants ↔ ∀ g ∈ grants, ∀ g' ∈ grants,
      shortDigest g.secret = shortDigest g'.secret → Alike g g' := by
  constructor
  · intro h g hg g' hg' hdigest
    have hid := handleId_eq_iff.mpr hdigest
    refine (alike_iff hid).mp (fun requiredScope => ?_)
    rw [← h g hg, ← h g' hg', resolve, resolve, hid]
  · intro h g hg requiredScope
    obtain ⟨last, hlast, hid, hfind⟩ := exists_last grants g hg
    rw [resolve_of_find hid hfind]
    exact (alike_iff hid).mpr (h last hlast g hg (handleId_eq_iff.mp hid)) requiredScope

theorem replies_issue (grants : List Grant) :
    ∀ b, replies issue b grants = grants.map Grant.handle := by
  induction grants with
  | nil => exact fun _ => rfl
  | cons g grants ih => exact fun b => congrArg (g.handle :: ·) (ih _)

theorem distinctIds_iff (grants : List Grant) :
    DistinctIds grants ↔ (grants.map (fun g => shortDigest g.secret)).Nodup := by
  rw [DistinctIds, replies_issue, map_map]
  simp only [List.Nodup, pairwise_map, Function.comp_apply, ne_eq, handleId_eq_iff]

/-- **Every handle keeps to its own call, under an id of its own, exactly if the short digests of
the secrets are distinct.**  The handles keep to their calls if those with one digest are alike. -/
theorem handles_lawful_iff (grants : List Grant) :
    (Independent grants ∧ DistinctIds grants ↔ (grants.map (fun g => shortDigest g.secret)).Nodup)
      ∧ (Independent grants ↔ ∀ g ∈ grants, ∀ g' ∈ grants,
          shortDigest g.secret = shortDigest g'.secret → Alike g g') := by
  refine ⟨?_, independent_iff grants⟩
  rw [distinctIds_iff]
  refine and_iff_right_of_imp (fun hnodup => (independent_iff grants).mpr ?_)
  intro g hg g' hg' hdigest
  rw [inj_on_of_nodup_map hnodup hg hg' hdigest, Alike]
  by_cases hlive : 0 < g'.expiresMs
  · exact .inr ⟨hlive, hlive, rfl, rfl⟩
  · exact .inl ⟨by omega, by omega⟩

/-- Issued again for another scope, a secret is not resolved any more for the first one. -/
theorem reissue_narrows :
    ¬ Independent [⟨"stripe:charge", "key", 1000000⟩, ⟨"github", "key", 1000000⟩] := by
  intro h
  have halike := (independent_iff _).mp h _ mem_cons_self _
    (mem_cons_of_mem _ mem_cons_self) rfl
  revert halike
  rw [Alike]
  decide

end Modbit.Secrets
