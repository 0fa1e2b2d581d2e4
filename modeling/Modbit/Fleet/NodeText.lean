import Modbit.Fleet.AgentFleet
import Modbit.Lib.Format

/-!
# The text of agent nodes

The object that serde_json writes for a node, put together from the formats of its fields:
`nodeJson` is the codec this makes.
-/

namespace Modbit

open Lib

namespace Fleet

/-! ### Fields -/

def AgentStatus.text : AgentStatus → String
  | .foreground => "foreground"
  | .background => "background"
  | .parked => "parked"
  | .completed => "completed"
  | .cancelled => "cancelled"

def AgentStatus.ofText (s : String) : Option AgentStatus :=
  [AgentStatus.foreground, .background, .parked, .completed, .cancelled].find? (·.text = s)

theorem AgentStatus.ofText_text (a : AgentStatus) : ofText a.text = some a := by
  cases a <;> decide

def statusFormat : Format AgentStatus :=
  Format.str.via AgentStatus.text AgentStatus.ofText AgentStatus.ofText_text

/-- A set of strings is written as the list of them. -/
def strSetFormat : Format (OrdMap String Unit) :=
  Format.strList.via OrdMap.keys (fun l => some (OrdMap.ofList (l.map (fun k => (k, ()))))) (by
    intro m
    have hentries : m.keys.map (fun k => (k, ())) = m.entries := by
      rw [OrdMap.keys, List.map_map]
      exact List.map_id _
    have hsame : OrdMap.ofList m.entries = m := by
      refine OrdMap.ext (fun k => ?_)
      rw [OrdMap.ofList, OrdMap.find?_insertAll_entries]
      cases m.find? k with
      | none => rfl
      | some u => rfl
    rw [hentries, hsame])

def u64Before (c : Char) (hc : c.isDigit = false) (hp : 0x20 ≤ c.toNat) : Format UInt64 :=
  (Format.natBefore c hc hp).via UInt64.toNat (fun n => some (UInt64.ofNat n))
    (fun n => by rw [UInt64.ofNat_toNat])

/-! ### Records -/

def capsuleFormat : Format AgentExecutionCapsule :=
  ((strSetFormat.after "\x7b\x22allowed_tools\x22:" (by decide)).seq
    ((strSetFormat.after ",\x22context_refs\x22:" (by decide)).seq
    ((Format.str.after ",\x22model_policy\x22:" (by decide)).seq
    (((u64Before ',' rfl (by decide)).after ",\x22max_output_tokens\x22:" (by decide)).seq
    (((u64Before ',' rfl (by decide)).after "\x22max_tool_calls\x22:" (by decide)).seq
    ((Format.bool.after "\x22can_request_expansion\x22:" (by decide)).seq
    (Format.lit "\x7d" (by decide)))))))).via
    (fun c => (c.allowedTools, c.contextRefs, c.modelPolicy, c.maxOutputTokens, c.maxToolCalls,
      c.canRequestExpansion, ()))
    (fun v => some ⟨v.1, v.2.1, v.2.2.1, v.2.2.2.1, v.2.2.2.2.1, v.2.2.2.2.2.1⟩)
    (fun _ => rfl)

def nodeFormat : Format AgentNode :=
  ((Format.str.after "\x7b\x22agent_id\x22:" (by decide)).seq
    ((Format.optStr.after ",\x22parent\x22:" (by decide)).seq
    ((Format.str.after ",\x22root\x22:" (by decide)).seq
    ((Format.str.after ",\x22task\x22:" (by decide)).seq
    ((statusFormat.after ",\x22status\x22:" (by decide)).seq
    (((u64Before ',' rfl (by decide)).after ",\x22tool_cursor\x22:" (by decide)).seq
    ((Format.strList.after "\x22context_refs\x22:" (by decide)).seq
    ((capsuleFormat.after ",\x22capsule\x22:" (by decide)).seq
    ((Format.optStr.after ",\x22idempotency_key\x22:" (by decide)).seq
    ((Format.str.after ",\x22task_id\x22:" (by decide)).seq
    ((Format.strList.after ",\x22write_scope\x22:" (by decide)).seq
    (Format.lit "\x7d" (by decide))))))))))))).via
    (fun n => (n.agentId, n.parent, n.root, n.task, n.status, n.toolCursor, n.contextRefs, n.capsule,
      n.idempotencyKey, n.taskId, n.writeScope, ()))
    (fun v => some ⟨v.1, v.2.1, v.2.2.1, v.2.2.2.1, v.2.2.2.2.1, v.2.2.2.2.2.1, v.2.2.2.2.2.2.1,
      v.2.2.2.2.2.2.2.1, v.2.2.2.2.2.2.2.2.1, v.2.2.2.2.2.2.2.2.2.1, v.2.2.2.2.2.2.2.2.2.2.1⟩)
    (fun _ => rfl)

def nodeJson : Jsonl.Codec AgentNode :=
  nodeFormat.codec (fun _ => ⟨'\x7b', List.mem_cons_self, rfl⟩)

end Fleet

end Modbit
