import Modbit.Lib.Format
import Modbit.Protocol.StateStore

/-!
# The text of protocol records

The tagged objects that serde_json writes for the records, with a reader for them.
`readRecord_recordChars` says that a record is read back whatever follows it, so that no
record's text begins another's; `serdeRecord` is the codec this makes.
-/

namespace Modbit

open Lib List

namespace ProtocolState

/-! ### Writing -/

def ToolCallStatus.text : ToolCallStatus → String
  | .awaitingApproval => "awaiting_approval"
  | .approved => "approved"
  | .running => "running"
  | .completed => "completed"

def ApprovalStatus.text : ApprovalStatus → String
  | .pending => "pending"
  | .granted => "granted"
  | .denied => "denied"

def fieldLead (name : String) : List Char := (",\x22" ++ name ++ "\x22:").toList

def kindLead (kind : String) : List Char := ("\x7b\x22kind\x22:\x22" ++ kind ++ "\x22").toList

def strField (name value : String) (rest : List Char) : List Char :=
  fieldLead name ++ (JsonText.quoted value ++ rest)

def recordChars (r : ProtocolRecord) (rest : List Char) : List Char :=
  match r with
  | .toolCall callId name arguments status =>
    kindLead "tool_call" ++ (strField "call_id" callId <| strField "name" name <|
      strField "arguments" arguments <| strField "status" status.text <| '\x7d' :: rest)
  | .approvalRequest approvalId tool scope status =>
    kindLead "approval_request" ++ (strField "approval_id" approvalId <| strField "tool" tool <|
      strField "scope" scope <| strField "status" status.text <| '\x7d' :: rest)
  | .question questionId text answered =>
    kindLead "question" ++ (strField "question_id" questionId <| strField "text" text <|
      fieldLead "answered" ++ ((if answered then "true" else "false").toList ++ '\x7d' :: rest))
  | .terminalCursor runId offset =>
    kindLead "terminal_cursor" ++ (strField "run_id" runId <|
      fieldLead "offset" ++ (Nat.toDigits 10 offset.toNat ++ '\x7d' :: rest))
  | .subagent subagentId task state =>
    kindLead "subagent" ++ (strField "subagent_id" subagentId <| strField "task" task <|
      strField "state" state <| '\x7d' :: rest)

/-! ### Reading -/

def readStr {α : Type} (name : String) (next : String → List Char → Option α) (l : List Char) :
    Option α :=
  (JsonText.readLit (fieldLead name) l).bind (fun l =>
    (JsonText.readQuoted l).bind (fun v => next v.1 v.2))

def readEnd (r : ProtocolRecord) (l : List Char) : Option (ProtocolRecord × List Char) :=
  (JsonText.readLit ['\x7d'] l).map (fun l => (r, l))

def readToolStatus (s : String) : Option ToolCallStatus :=
  [ToolCallStatus.awaitingApproval, .approved, .running, .completed].find? (·.text = s)

def readApprovalStatus (s : String) : Option ApprovalStatus :=
  [ApprovalStatus.pending, .granted, .denied].find? (·.text = s)

def readBool (l : List Char) : Option (Bool × List Char) :=
  ((JsonText.readLit "true".toList l).map (fun l => (true, l))).or
    ((JsonText.readLit "false".toList l).map (fun l => (false, l)))

def readKinds : List (String × (List Char → Option (ProtocolRecord × List Char))) :=
  [("tool_call", readStr "call_id" fun c => readStr "name" fun n => readStr "arguments" fun a =>
      readStr "status" fun s l => (readToolStatus s).bind (fun s => readEnd (.toolCall c n a s) l)),
    ("approval_request", readStr "approval_id" fun i => readStr "tool" fun t => readStr "scope" fun c =>
      readStr "status" fun s l =>
        (readApprovalStatus s).bind (fun s => readEnd (.approvalRequest i t c s) l)),
    ("question", readStr "question_id" fun i => readStr "text" fun t l =>
      (JsonText.readLit (fieldLead "answered") l).bind (fun l =>
        (readBool l).bind (fun b => readEnd (.question i t b.1) b.2))),
    ("terminal_cursor", readStr "run_id" fun i l =>
      (JsonText.readLit (fieldLead "offset") l).bind (fun l =>
        (JsonText.readNat l).bind (fun n => readEnd (.terminalCursor i (UInt64.ofNat n.1)) n.2))),
    ("subagent", readStr "subagent_id" fun i => readStr "task" fun t => readStr "state" fun s =>
      readEnd (.subagent i t s))]

def readRecord (l : List Char) : Option (ProtocolRecord × List Char) :=
  readKinds.findSome? (fun k => (JsonText.readLit (kindLead k.1) l).bind k.2)

theorem readStr_strField {α : Type} (name value : String) (rest : List Char)
    (next : String → List Char → Option α) :
    readStr name next (strField name value rest) = next value rest := by
  rw [readStr, strField, JsonText.readLit_append, Option.bind_some, JsonText.readQuoted_append,
    Option.bind_some]

theorem readLit_kindLead {k k' : String} (hk : '\x22' ∉ k.toList) (hk' : '\x22' ∉ k'.toList)
    (hne : k ≠ k') (rest : List Char) :
    JsonText.readLit (kindLead k) (kindLead k' ++ rest) = none := by
  have hshape : ∀ k : String,
      kindLead k = "\x7b\x22kind\x22:\x22".toList ++ (k.toList ++ ['\x22']) := by
    intro k
    rw [kindLead, String.toList_append, String.toList_append, append_assoc]
    rfl
  rw [JsonText.readLit, if_neg]
  intro hpre
  rw [List.isPrefixOf_iff_prefix, hshape, hshape, append_assoc, prefix_append_right_inj] at hpre
  obtain ⟨s, hs⟩ := hpre
  rw [append_assoc, append_assoc, singleton_append, singleton_append] at hs
  refine hne (String.toList_inj.mp ?_)
  have h1 := Text.splitOnce_append k.toList s hk
  have h2 := Text.splitOnce_append k'.toList rest hk'
  rw [hs, h2] at h1
  exact (Prod.mk.inj (Option.some.inj h1)).1.symm

theorem readBool_append (b : Bool) (rest : List Char) :
    readBool ((if b then "true" else "false").toList ++ rest) = some (b, rest) := by
  have hfalse : "false".toList = ['f', 'a', 'l', 's', 'e'] := by decide
  have htrue : "true".toList = ['t', 'r', 'u', 'e'] := by decide
  cases b with
  | true =>
    rw [if_pos rfl, readBool, JsonText.readLit_append]
    rfl
  | false =>
    rw [if_neg (by decide), readBool, JsonText.readLit_append, hfalse, htrue]
    rfl

/-- **A record is read back, whatever follows it.** -/
theorem readRecord_recordChars (r : ProtocolRecord) (rest : List Char) :
    readRecord (recordChars r rest) = some (r, rest) := by
  have hskip : ∀ {k k' : String} {rest : List Char}
      {next : List Char → Option (ProtocolRecord × List Char)}, '\x22' ∉ k.toList →
      '\x22' ∉ k'.toList → k ≠ k' →
      (JsonText.readLit (kindLead k) (kindLead k' ++ rest)).bind next = none := by
    intro k k' rest next hk hk' hne
    rw [readLit_kindLead hk hk' hne]
    rfl
  cases r with
  | toolCall callId name arguments status =>
    rw [readRecord, recordChars, readKinds, findSome?_cons]
    dsimp only
    rw [JsonText.readLit_append, Option.bind_some, readStr_strField, readStr_strField,
      readStr_strField, readStr_strField]
    cases status with
    | awaitingApproval => rfl
    | approved => rfl
    | running => rfl
    | completed => rfl
  | approvalRequest approvalId tool scope status =>
    rw [readRecord, recordChars, readKinds, findSome?_cons, findSome?_cons]
    dsimp only
    rw [hskip (by decide) (by decide) (by decide), JsonText.readLit_append, Option.bind_some,
      readStr_strField, readStr_strField, readStr_strField, readStr_strField]
    cases status with
    | pending => rfl
    | granted => rfl
    | denied => rfl
  | question questionId text answered =>
    rw [readRecord, recordChars, readKinds, findSome?_cons, findSome?_cons, findSome?_cons]
    dsimp only
    rw [hskip (by decide) (by decide) (by decide), hskip (by decide) (by decide) (by decide),
      JsonText.readLit_append, Option.bind_some, readStr_strField, readStr_strField,
      JsonText.readLit_append, Option.bind_some, readBool_append]
    rfl
  | terminalCursor runId offset =>
    have hstops : JsonText.Stops ('\x7d' :: rest) := fun c hc => by
      rw [← Option.some.inj hc]
      rfl
    rw [readRecord, recordChars, readKinds, findSome?_cons, findSome?_cons,
      findSome?_cons, findSome?_cons]
    dsimp only
    rw [hskip (by decide) (by decide) (by decide), hskip (by decide) (by decide) (by decide),
      hskip (by decide) (by decide) (by decide), JsonText.readLit_append, Option.bind_some,
      readStr_strField, JsonText.readLit_append, Option.bind_some,
      JsonText.readNat_append _ hstops, Option.bind_some]
    rw [UInt64.ofNat_toNat]
    rfl
  | subagent subagentId task state =>
    rw [readRecord, recordChars, readKinds, findSome?_cons, findSome?_cons,
      findSome?_cons, findSome?_cons, findSome?_cons]
    dsimp only
    rw [hskip (by decide) (by decide) (by decide), hskip (by decide) (by decide) (by decide),
      hskip (by decide) (by decide) (by decide), hskip (by decide) (by decide) (by decide),
      JsonText.readLit_append, Option.bind_some, readStr_strField, readStr_strField,
      readStr_strField]
    rfl

theorem recordChars_append (r : ProtocolRecord) (rest : List Char) :
    recordChars r rest = recordChars r [] ++ rest := by
  cases r <;> simp [recordChars, strField, append_assoc]

/-! ### The codec -/

def Printable (l : List Char) : Prop := ∀ c ∈ l, 0x20 ≤ c.toNat

instance (l : List Char) : Decidable (Printable l) := List.decidableBAll _ l

theorem Printable.append {l m : List Char} (hl : Printable l) (hm : Printable m) :
    Printable (l ++ m) := by
  intro c hc
  rcases mem_append.mp hc with h | h
  · exact hl c h
  · exact hm c h

theorem printable_quoted (value : String) : Printable (JsonText.quoted value) :=
  Format.noControl_quoted value

theorem printable_strField {name value : String} {rest : List Char}
    (hname : Printable (fieldLead name)) (hrest : Printable rest) :
    Printable (strField name value rest) :=
  hname.append ((printable_quoted value).append hrest)

theorem printable_recordChars (r : ProtocolRecord) : Printable (recordChars r []) := by
  have hend : Printable ['\x7d'] := by decide
  cases r with
  | toolCall callId name arguments status =>
    exact Printable.append (by decide) (printable_strField (by decide)
      (printable_strField (by decide) (printable_strField (by decide)
        (printable_strField (by decide) hend))))
  | approvalRequest approvalId tool scope status =>
    exact Printable.append (by decide) (printable_strField (by decide)
      (printable_strField (by decide) (printable_strField (by decide)
        (printable_strField (by decide) hend))))
  | question questionId text answered =>
    have hanswer : Printable (if answered then "true" else "false").toList := by
      cases answered <;> decide
    exact Printable.append (by decide) (printable_strField (by decide)
      (printable_strField (by decide)
        (Printable.append (by decide) (hanswer.append hend))))
  | terminalCursor runId offset =>
    have hdigits : Printable (Nat.toDigits 10 offset.toNat) := by
      intro c hc
      have hdig := Nat.isDigit_of_mem_toDigits (by decide) (by decide) hc
      have hzero : '0'.toNat = 48 := rfl
      have := (Char.isDigit_iff_toNat.mp hdig).1
      omega
    exact Printable.append (by decide) (printable_strField (by decide)
      (Printable.append (by decide) (hdigits.append hend)))
  | subagent subagentId task state =>
    exact Printable.append (by decide) (printable_strField (by decide)
      (printable_strField (by decide) (printable_strField (by decide) hend)))

/-- serde_json on the records: the text above and nothing else. -/
def serdeRecord : RecordJson where
  toText r := recordChars r []
  fromText l := ((readRecord l).filter (fun a => a.2 = [] ∧ recordChars a.1 [] = l)).map Prod.fst
  fromText_toText r := by
    rw [readRecord_recordChars, Option.filter_some, if_pos (by simp), Option.map_some]
  fromText_cut r p hpre hne := by
    by_contra hsome
    obtain ⟨r', hr'⟩ := Option.ne_none_iff_exists'.mp hsome
    obtain ⟨a, ha, rfl⟩ := Option.map_eq_some_iff.mp hr'
    obtain ⟨-, -, htext⟩ := (Option.filter_eq_some_iff.mp ha).imp id of_decide_eq_true
    obtain ⟨s, hs⟩ := hpre
    -- two records are read from the text, and the second is the whole of it
    have hread := readRecord_recordChars r []
    rw [← hs, ← htext, ← recordChars_append, readRecord_recordChars] at hread
    obtain ⟨-, rfl⟩ := Prod.mk.inj (Option.some.inj hread)
    rw [List.append_nil] at hs
    exact hne hs
  plain r :=
    ⟨fun h => absurd (printable_recordChars r _ h) (by decide),
      fun h => absurd (printable_recordChars r _ h) (by decide)⟩
  toText_ne_nil r h := by
    have hread := readRecord_recordChars r []
    rw [h] at hread
    have hnone : readRecord [] = none := by decide
    rw [hnone] at hread
    cases hread

end ProtocolState

end Modbit
