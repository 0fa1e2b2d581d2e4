import Modbit.Desktop.RequestEncoding

/-!
# What is decoded of a response

The decoder reads varints of any length and the two wire types that the fields it knows
have; what it does not know it passes over.  `decodes_iff` says that it returns the values
of a response exactly if the payload of every event that has one is JSON: it is parsed on
the way.

`read_and_written_iff` is this and `encodes_iff` together: what the two ends of the wire
make of each other's bytes.
-/

namespace Modbit

open Lib List

namespace Desktop

open Protobuf Surface

/-! ### Fields -/

theorem decodeVarint_varint (v : Nat) (rest : List UInt8) :
    decodeVarint (varint v ++ rest) = .ok (v, rest) := by
  induction v using Nat.strong_induction_on with
  | _ v ih =>
    rw [varint_eq]
    split_ifs with hv
    · rw [cons_append, nil_append, decodeVarint, toNat_byte (by omega), if_pos hv]
    · rw [cons_append, decodeVarint, toNat_byte (by omega), if_neg (by omega),
        ih (v / 128) (by omega)]
      show Except.ok ((v % 128 + 128) % 128 + 128 * (v / 128), rest) = _
      have hsum : (v % 128 + 128) % 128 + 128 * (v / 128) = v := by omega
      rw [hsum]

/-- Fields of the wire types that the decoder reads. -/
def Plain (fs : List Field) : Prop :=
  ∀ f ∈ fs, (∃ v, f.value = .varint v) ∨ ∃ b, f.value = .len b

def raw (f : Field) : Nat × Value :=
  (f.number, match f.value with
    | .varint v => .bigint v
    | .len b | .fixed64 b | .fixed32 b => .buffer b)

theorem decodeFieldsLoop_cons {f : Field} (hf : (∃ v, f.value = .varint v) ∨ ∃ b, f.value = .len b)
    (fuel : Nat) (rest : List UInt8) :
    decodeFieldsLoop (fuel + 1) (renderField f ++ rest)
      = (decodeFieldsLoop fuel rest).map (raw f :: ·) := by
  obtain ⟨htype, -, -⟩ := type_cases f.value
  have hkey : decodeVarint (renderField f ++ rest)
      = .ok (8 * f.number + f.value.type, f.value.bytes ++ rest) := by
    rw [renderField, append_assoc, decodeVarint_varint]
  have hdiv : (8 * f.number + f.value.type) / 8 = f.number := by omega
  have hmod : (8 * f.number + f.value.type) % 8 = f.value.type := by omega
  obtain ⟨b, tail, hcons⟩ := exists_cons_renderField f rest
  rw [hcons] at hkey ⊢
  rw [decodeFieldsLoop, hkey, ok_bind]
  dsimp only
  rw [hdiv, hmod]
  rcases hf with ⟨v, hv⟩ | ⟨b, hv⟩
  · rw [hv]
    show (do
      let r ← decodeVarint (varint v ++ rest)
      return (f.number, Value.bigint r.1) :: (← decodeFieldsLoop fuel r.2)) = _
    rw [decodeVarint_varint, raw, hv]
    rfl
  · rw [hv]
    show (do
      let r ← decodeVarint (varint b.length ++ b ++ rest)
      if r.2.length < r.1 then throw ClientError.fieldTruncated
      else return (f.number, Value.buffer (r.2.take r.1)) :: (← decodeFieldsLoop fuel (r.2.drop r.1)))
        = _
    have hlen : ¬ (b ++ rest).length < b.length := by
      rw [length_append]
      omega
    rw [append_assoc, decodeVarint_varint, ok_bind]
    rw [if_neg hlen, take_left, drop_left, raw, hv]
    rfl

/-- **The decoder reads the fields of a message.** -/
theorem decodeFields_render {fs : List Field} (h : Plain fs) :
    decodeFields (render fs) = .ok (fs.map raw) := by
  have hfuel : ∀ fuel, fs.length ≤ fuel → decodeFieldsLoop fuel (render fs) = .ok (fs.map raw) := by
    induction fs with
    | nil =>
      intro fuel _
      cases fuel with
      | zero => rfl
      | succ fuel => rfl
    | cons f fs ih =>
      intro fuel hle
      rw [length_cons] at hle
      obtain ⟨fuel, rfl⟩ : ∃ k, fuel = k + 1 := ⟨fuel - 1, by omega⟩
      rw [render_cons, decodeFieldsLoop_cons (h f mem_cons_self),
        ih (fun g hg => h g (mem_cons_of_mem _ hg)) fuel (by omega)]
      rfl
  exact hfuel _ (length_le_render fs)

/-! ### Kinds of fields -/

theorem plain_append {a b : List Field} : Plain (a ++ b) ↔ Plain a ∧ Plain b := forall_mem_append

@[simp] theorem plain_nil : Plain [] := fun f hf => by cases hf

@[simp] theorem plain_strField (k : Nat) (s : List Char) : Plain (strField k s) := by
  intro f hf
  rw [strField] at hf
  split_ifs at hf
  · cases hf
  · rw [mem_singleton.mp hf]
    exact Or.inr ⟨_, rfl⟩

@[simp] theorem plain_bytesField (k : Nat) (b : List UInt8) : Plain (bytesField k b) := by
  intro f hf
  rw [bytesField] at hf
  split_ifs at hf
  · cases hf
  · rw [mem_singleton.mp hf]
    exact Or.inr ⟨_, rfl⟩

@[simp] theorem plain_uintField (k v : Nat) : Plain (uintField k v) := by
  intro f hf
  rw [uintField] at hf
  split_ifs at hf
  · cases hf
  · rw [mem_singleton.mp hf]
    exact Or.inl ⟨_, rfl⟩

@[simp] theorem plain_boolField (k : Nat) (b : Bool) : Plain (boolField k b) := by
  intro f hf
  rw [boolField] at hf
  split_ifs at hf
  · rw [mem_singleton.mp hf]
    exact Or.inl ⟨_, rfl⟩
  · cases hf

@[simp] theorem plain_messageField (k : Nat) (b : Option (List UInt8)) : Plain (messageField k b) := by
  intro f hf
  cases b with
  | none => cases hf
  | some b =>
    rw [mem_singleton.mp hf]
    exact Or.inr ⟨_, rfl⟩

@[simp] theorem plain_eachField (k : Nat) (bs : List (List UInt8)) : Plain (eachField k bs) := by
  intro f hf
  obtain ⟨b, -, rfl⟩ := mem_map.mp hf
  exact Or.inr ⟨_, rfl⟩

/-- The loop of a decoder over the fields of a message. -/
def into {α : Type} (setters : List (Nat × Setter α)) (acc : α) (fs : List Field) :
    Except ClientError α := (fs.map raw).foldlM (setField setters) acc

section Loop

variable {α β γ : Type} {setters : List (Nat × Setter α)} {acc : α} {k : Nat} {rest : List Field}
  {fs : List Field}

theorem decodeInto_render {init : α} (h : Plain fs) :
    decodeInto init setters (.buffer (render fs)) = into setters init fs := by
  show (do (← decodeFields (render fs)).foldlM (setField setters) init) = _
  rw [decodeFields_render h]
  rfl

theorem into_cons {f : Field} {g : Setter α} (hset : setters.lookup f.number = some g) :
    into setters acc (f :: rest) = g acc (raw f).2 >>= fun acc => into setters acc rest := by
  have hraw : setters.lookup (raw f).1 = some g := hset
  show (setField setters acc (raw f) >>= fun acc => into setters acc rest) = _
  rw [setField, hraw]

theorem into_skip (h : ∀ f ∈ fs, setters.lookup f.number = none) :
    into setters acc (fs ++ rest) = into setters acc rest := by
  induction fs with
  | nil => rfl
  | cons f fs ih =>
    show (setField setters acc (raw f) >>= fun acc => into setters acc (fs ++ rest)) = _
    have hnone : setField setters acc (raw f) = .ok acc := by
      have hraw : setters.lookup (raw f).1 = none := h f mem_cons_self
      rw [setField, hraw]
    rw [hnone, ok_bind]
    exact ih (fun g hg => h g (mem_cons_of_mem _ hg))

theorem into_str {g : α → List Char → α} {s : List Char}
    (hset : setters.lookup k = some (text g)) (hacc : g acc [] = acc) :
    into setters acc (strField k s ++ rest) = into setters (g acc s) rest := by
  rw [strField]
  split_ifs with hs
  · rw [hs, hacc]
    rfl
  · refine (into_cons hset).trans ?_
    show ((Except.ok (Utf8.lossy (Utf8.encode s)) : Except ClientError _).map (g acc) >>= _) = _
    rw [Utf8.lossy_encode]
    rfl

theorem into_skipped_str {s : List Char} (hset : setters.lookup k = none) :
    into setters acc (strField k s ++ rest) = into setters acc rest := by
  refine into_skip (fun f hf => ?_)
  rw [strField] at hf
  split_ifs at hf
  · cases hf
  · rw [mem_singleton.mp hf]
    exact hset

theorem into_skipped_message {b : Option (List UInt8)} (hset : setters.lookup k = none) :
    into setters acc (messageField k b ++ rest) = into setters acc rest := by
  refine into_skip (fun f hf => ?_)
  cases b with
  | none => cases hf
  | some b =>
    rw [mem_singleton.mp hf]
    exact hset

theorem into_digits {g : α → List Char → α} {v : Nat} (hset : setters.lookup k = some (digits g))
    (hacc : g acc ['0'] = acc) :
    into setters acc (uintField k v ++ rest) = into setters (g acc (Nat.toDigits 10 v)) rest := by
  rw [uintField]
  split_ifs with hv
  · have hzero : Nat.toDigits 10 0 = ['0'] := by decide
    rw [hv, hzero, hacc]
    rfl
  · refine (into_cons hset).trans ?_
    rfl

theorem into_num {g : α → Option Nat → α} {v : Nat} (hset : setters.lookup k = some (num g))
    (hacc : g acc (some 0) = acc) (hv : v < 2 ^ 53) :
    into setters acc (uintField k v ++ rest) = into setters (g acc (some v)) rest := by
  rw [uintField]
  split_ifs with h0
  · rw [h0, hacc]
    rfl
  · refine (into_cons hset).trans ?_
    show into setters (g acc (some (Value.nearest v))) rest = _
    rw [Value.nearest, if_pos hv]

theorem into_flag {g : α → Bool → α} {b : Bool} (hset : setters.lookup k = some (flag g))
    (hacc : g acc false = acc) :
    into setters acc (boolField k b ++ rest) = into setters (g acc b) rest := by
  rw [boolField]
  split_ifs with hb
  · rw [hb]
    refine (into_cons hset).trans ?_
    rfl
  · rw [Bool.eq_false_iff.mpr hb, hacc]
    rfl

theorem into_message {decode : Value → Except ClientError β} {enc : γ → List UInt8} {w : γ → β}
    {o : Option γ} (g : α → Option β → α)
    (hset : setters.lookup k = some (nested decode (fun a x => g a (some x))))
    (hacc : g acc none = acc) (hdecode : ∀ x, o = some x → decode (.buffer (enc x)) = .ok (w x)) :
    into setters acc (messageField k (o.map enc) ++ rest)
      = into setters (g acc (o.map w)) rest := by
  cases o with
  | none =>
    rw [Option.map_none, Option.map_none, hacc]
    rfl
  | some x =>
    refine (into_cons hset).trans ?_
    show ((decode (.buffer (enc x))).map (fun y => g acc (some y)) >>= _) = _
    rw [hdecode x rfl]
    rfl

theorem into_each {decode : Value → Except ClientError β} {enc : γ → List UInt8} {w : γ → β}
    {l : List γ} {push : α → β → α} (g : α → List β → α)
    (hset : setters.lookup k = some (nested decode push)) (hacc : g acc [] = acc)
    (hpush : ∀ ys y, push (g acc ys) y = g acc (ys ++ [y]))
    (hdecode : ∀ x ∈ l, decode (.buffer (enc x)) = .ok (w x)) :
    into setters acc (eachField k (l.map enc) ++ rest) = into setters (g acc (l.map w)) rest := by
  have hfrom : ∀ ys, into setters (g acc ys) (eachField k (l.map enc) ++ rest)
      = into setters (g acc (ys ++ l.map w)) rest := by
    induction l with
    | nil =>
      intro ys
      rw [map_nil, map_nil, append_nil]
      rfl
    | cons x l ih =>
      intro ys
      refine (into_cons hset).trans ?_
      show ((decode (.buffer (enc x))).map (push (g acc ys)) >>= fun acc' =>
        into setters acc' (eachField k (l.map enc) ++ rest)) = _
      rw [hdecode x mem_cons_self]
      show into setters (push (g acc ys) (w x)) _ = _
      rw [hpush, ih (fun y hy => hdecode y (mem_cons_of_mem _ hy)), append_assoc]
      rfl
  have := hfrom []
  rw [hacc, nil_append] at this
  exact this

theorem ok_of_into {f : Field} {g : Setter α} {a : α}
    (h : into setters acc fs = .ok a) (hf : f ∈ fs) (hset : setters.lookup f.number = some g) :
    ∃ before after, g before (raw f).2 = .ok after := by
  induction fs generalizing acc with
  | nil => cases hf
  | cons e fs ih =>
    obtain ⟨next, hnext, hrest⟩ := bind_eq_ok.mp (show (setField setters acc (raw e) >>= fun acc =>
      into setters acc fs) = .ok a from h)
    rcases mem_cons.mp hf with rfl | hf
    · refine ⟨acc, next, ?_⟩
      rw [setField] at hnext
      have hlookup : setters.lookup (raw f).1 = some g := hset
      rw [hlookup] at hnext
      exact hnext
    · exact ih hrest hf

end Loop

/-! ### Messages -/

theorem decodeRunStepView_eq (m : RunStepView) : decodeRunStepView (.buffer (render m.fields)) = .ok m := by
  refine (decodeInto_render (by simp [RunStepView.fields, plain_append])).trans ?_
  rw [← append_nil m.fields, RunStepView.fields]
  simp only [append_assoc]
  iterate 5 refine (into_str rfl rfl).trans ?_
  rfl

theorem decodeApprovalView_eq (m : ApprovalView) : decodeApprovalView
    (.buffer (render m.fields)) = .ok m := by
  refine (decodeInto_render (by simp [ApprovalView.fields, plain_append])).trans ?_
  rw [← append_nil m.fields, ApprovalView.fields]
  simp only [append_assoc]
  iterate 5 refine (into_str rfl rfl).trans ?_
  rfl

theorem decodeBrowserView_eq (m : BrowserViewView) : decodeBrowserView
    (.buffer (render m.fields)) = .ok m := by
  refine (decodeInto_render (by simp [BrowserViewView.fields, plain_append])).trans ?_
  rw [← append_nil m.fields, BrowserViewView.fields]
  simp only [append_assoc]
  iterate 5 refine (into_str rfl rfl).trans ?_
  rfl

theorem decodeRecentRepoView_eq (m : RecentRepoView) : decodeRecentRepoView
    (.buffer (render m.fields)) = .ok m := by
  refine (decodeInto_render (by simp [RecentRepoView.fields, plain_append])).trans ?_
  rw [← append_nil m.fields, RecentRepoView.fields]
  simp only [append_assoc]
  iterate 6 refine (into_str rfl rfl).trans ?_
  rfl

theorem decodeTurnView_eq (m : TurnView) : decodeTurnView (.buffer (render m.fields)) = .ok m := by
  refine (decodeInto_render (by simp [TurnView.fields, plain_append])).trans ?_
  rw [← append_nil m.fields, TurnView.fields]
  simp only [append_assoc]
  iterate 2 refine (into_str rfl rfl).trans ?_
  refine (into_each (w := id) (fun turn steps => { turn with steps := steps }) rfl rfl
    (fun _ _ => rfl) (fun x _ => decodeRunStepView_eq x)).trans ?_
  rw [map_id]
  rfl

theorem decodeRunDetailView_eq (m : RunDetailView) :
    decodeRunDetailView (.buffer (render m.fields)) = .ok m := by
  refine (decodeInto_render (by simp [RunDetailView.fields, plain_append])).trans ?_
  rw [← append_nil m.fields, RunDetailView.fields]
  simp only [append_assoc]
  refine (into_str rfl rfl).trans ?_
  refine (into_each (w := id) (fun detail turns => { detail with turns := turns }) rfl rfl
    (fun _ _ => rfl) (fun x _ => decodeTurnView_eq x)).trans ?_
  rw [map_id]
  iterate 2 refine (into_str rfl rfl).trans ?_
  rfl

theorem decodeRecentRepoList_eq (m : RecentRepoList) :
    decodeRecentRepoList (.buffer (render m.fields)) = .ok m.repos := by
  refine (decodeInto_render (by simp [RecentRepoList.fields])).trans ?_
  rw [← append_nil m.fields, RecentRepoList.fields]
  refine (into_each (w := id) (fun _ repos => repos) rfl rfl
    (fun _ _ => rfl) (fun x _ => decodeRecentRepoView_eq x)).trans ?_
  rw [map_id]
  rfl

theorem decodePendingApprovalList_eq (m : PendingApprovalList) :
    decodePendingApprovalList (.buffer (render m.fields)) = .ok m.approvals := by
  refine (decodeInto_render (by simp [PendingApprovalList.fields])).trans ?_
  rw [← append_nil m.fields, PendingApprovalList.fields]
  refine (into_each (w := id) (fun _ approvals => approvals) rfl rfl
    (fun _ _ => rfl) (fun x _ => decodeApprovalView_eq x)).trans ?_
  rw [map_id]
  rfl

def taskObject (m : TaskView) : TaskObject :=
  ⟨m.taskId, m.sessionId, m.title, some m.state.toNat, m.createdAt,
    Nat.toDigits 10 m.generation.toNat, m.parentTaskId⟩

theorem decodeTaskView_eq (m : TaskView) :
    decodeTaskView (.buffer (render m.fields)) = .ok (taskObject m) := by
  have hstate : m.state.toNat < 2 ^ 53 := by
    cases m.state <;> decide
  refine (decodeInto_render (by simp [TaskView.fields, plain_append])).trans ?_
  rw [← append_nil m.fields, TaskView.fields]
  simp only [append_assoc]
  iterate 3 refine (into_str rfl rfl).trans ?_
  refine (into_num rfl rfl hstate).trans ?_
  refine (into_str rfl rfl).trans ?_
  refine (into_digits rfl rfl).trans ?_
  refine (into_str rfl rfl).trans ?_
  rfl

def fleetObject (m : Fleet) : FleetObject := ⟨m.tasks.map taskObject, m.defaultSessionId⟩

theorem decodeFleet_eq (m : Fleet) : decodeFleet (.buffer (render m.fields)) = .ok (fleetObject m) := by
  refine (decodeInto_render (by simp [Fleet.fields, plain_append])).trans ?_
  rw [← append_nil m.fields, Fleet.fields]
  simp only [append_assoc]
  refine (into_each (w := taskObject) (fun fleet tasks => { fleet with tasks := tasks }) rfl rfl
    (fun _ _ => rfl) (fun x _ => decodeTaskView_eq x)).trans ?_
  refine (into_str rfl rfl).trans ?_
  rfl

def diffFileObject (m : DiffFileView) : DiffFileObject :=
  ⟨m.path, Nat.toDigits 10 m.additions.toNat, Nat.toDigits 10 m.deletions.toNat⟩

theorem decodeDiffFileView_eq (m : DiffFileView) :
    decodeDiffFileView (.buffer (render m.fields)) = .ok (diffFileObject m) := by
  refine (decodeInto_render (by simp [DiffFileView.fields, plain_append])).trans ?_
  rw [← append_nil m.fields, DiffFileView.fields]
  simp only [append_assoc]
  refine (into_str rfl rfl).trans ?_
  iterate 2 refine (into_digits rfl rfl).trans ?_
  rfl

def diffObject (m : DiffView) : DiffObject :=
  ⟨m.taskId, m.branch, m.baseRevision, m.files.map diffFileObject⟩

theorem decodeDiffView_eq (m : DiffView) :
    decodeDiffView (.buffer (render m.fields)) = .ok (diffObject m) := by
  refine (decodeInto_render (by simp [DiffView.fields, plain_append])).trans ?_
  rw [← append_nil m.fields, DiffView.fields]
  simp only [append_assoc]
  iterate 3 refine (into_str rfl rfl).trans ?_
  refine (into_each (w := diffFileObject) (fun diff files => { diff with files := files }) rfl rfl
    (fun _ _ => rfl) (fun x _ => decodeDiffFileView_eq x)).trans ?_
  rfl

def settingsObject (m : SettingsView) : SettingsObject :=
  ⟨m.provider, m.model, m.baseUrl, some m.maxTurns.toNat, m.executionMode, m.hasApiKey⟩

theorem decodeSettingsView_eq (m : SettingsView) :
    decodeSettingsView (.buffer (render m.fields)) = .ok (settingsObject m) := by
  have hturns : m.maxTurns.toNat < 2 ^ 53 := Nat.lt_trans m.maxTurns.toNat_lt (by decide)
  refine (decodeInto_render (by simp [SettingsView.fields, plain_append])).trans ?_
  rw [← append_nil m.fields, SettingsView.fields]
  simp only [append_assoc]
  iterate 3 refine (into_str rfl rfl).trans ?_
  refine (into_num rfl rfl hturns).trans ?_
  refine (into_str rfl rfl).trans ?_
  refine (into_flag rfl rfl).trans ?_
  rfl

/-! ### Events and responses -/

section Events

variable {J : Type} (jsonParse : List Char → Option J)

/-- The payload of an event, if it has one, is JSON. -/
def JsonPayload (m : EventEnvelope) : Prop :=
  m.payload ≠ [] → (jsonParse (Utf8.lossy m.payload)).isSome

def eventObject (m : EventEnvelope) : EventObject J :=
  ⟨m.eventId, m.aggregateId, Nat.toDigits 10 m.generation.toNat, m.eventType,
    if m.payload = [] then none else jsonParse (Utf8.lossy m.payload)⟩

def eventsObject (m : TaskEvents) : EventsObject J :=
  ⟨m.taskId, m.events.map (eventObject jsonParse)⟩

/-- The values of a response, as the decoder is to return them. -/
def responseObject (m : SurfaceResponse) : ResponseObject J where
  ok := m.ok
  error := m.error
  fleet := (m.fleet.map fleetObject).getD ⟨[], []⟩
  task := m.task.map taskObject
  sessionId := m.sessionId
  taskEvents := m.taskEvents.map (eventsObject jsonParse)
  runDetail := m.runDetail
  diff := m.diff.map diffObject
  recentRepos := m.recentRepos.map RecentRepoList.repos
  repo := m.repo
  settings := m.settings.map settingsObject
  pendingApprovals := m.pendingApprovals.map PendingApprovalList.approvals
  browserView := m.browserView

variable {jsonParse}

theorem decodeEvent_eq {m : EventEnvelope} (h : JsonPayload jsonParse m) :
    decodeEvent jsonParse (.buffer (render m.fields)) = .ok (eventObject jsonParse m) := by
  refine (decodeInto_render (by simp [EventEnvelope.fields, plain_append])).trans ?_
  rw [← append_nil m.fields, EventEnvelope.fields]
  simp only [append_assoc]
  refine (into_str rfl rfl).trans ?_
  refine (into_skipped_str rfl).trans ?_
  refine (into_str rfl rfl).trans ?_
  refine (into_digits rfl rfl).trans ?_
  refine (into_str rfl rfl).trans ?_
  refine (into_skipped_message rfl).trans ?_
  rw [eventObject, bytesField]
  split_ifs with hpayload
  · refine (into_skipped_message rfl).trans ?_
    rfl
  · obtain ⟨payload, hparse⟩ := Option.isSome_iff_exists.mp (h hpayload)
    refine (into_cons (g := setPayload jsonParse) rfl).trans ?_
    have hset : ∀ event : EventObject J, setPayload jsonParse event (.buffer m.payload)
        = .ok { event with payload := some payload } := by
      intro event
      simp only [setPayload, Value.utf8, ok_bind, hparse]
      rfl
    show (setPayload jsonParse _ (.buffer m.payload) >>= _) = _
    rw [hset, ok_bind, hparse]
    refine (into_skipped_message rfl).trans ?_
    rfl

theorem decodeTaskEvents_eq {m : TaskEvents} (h : ∀ e ∈ m.events, JsonPayload jsonParse e) :
    decodeTaskEvents jsonParse (.buffer (render m.fields)) = .ok (eventsObject jsonParse m) := by
  refine (decodeInto_render (by simp [TaskEvents.fields, plain_append])).trans ?_
  rw [← append_nil m.fields, TaskEvents.fields]
  simp only [append_assoc]
  refine (into_str rfl rfl).trans ?_
  refine (into_each (w := eventObject jsonParse) (fun result events => { result with events := events })
    rfl rfl (fun _ _ => rfl) (fun x hx => decodeEvent_eq (h x hx))).trans ?_
  rfl

theorem plain_response (m : SurfaceResponse) : Plain m.fields := by
  rw [SurfaceResponse.fields]
  simp [plain_append]

/-- **The decoder returns the values of a response whose events are JSON.** -/
theorem decodeSurfaceResponse_eq {m : SurfaceResponse}
    (h : ∀ events, m.taskEvents = some events → ∀ e ∈ events.events, JsonPayload jsonParse e) :
    decodeSurfaceResponse jsonParse (render m.fields) = .ok (responseObject jsonParse m) := by
  refine (decodeInto_render (plain_response m)).trans ?_
  rw [SurfaceResponse.fields]
  simp only [flatten_cons, flatten_nil]
  refine (into_flag rfl rfl).trans ?_
  refine (into_str rfl rfl).trans ?_
  refine (into_message (w := fleetObject)
    (fun response x => { response with fleet := x.getD ⟨[], []⟩ }) rfl rfl
    (fun x _ => decodeFleet_eq x)).trans ?_
  refine (into_message (w := taskObject) (fun response x => { response with task := x }) rfl rfl
    (fun x _ => decodeTaskView_eq x)).trans ?_
  refine (into_str rfl rfl).trans ?_
  refine (into_message (w := eventsObject jsonParse)
    (fun response x => { response with taskEvents := x }) rfl rfl
    (fun x hx => decodeTaskEvents_eq (h x hx))).trans ?_
  refine (into_skipped_message rfl).trans ?_
  refine (into_message (w := id) (fun response x => { response with runDetail := x }) rfl rfl
    (fun x _ => decodeRunDetailView_eq x)).trans ?_
  refine (into_message (w := diffObject) (fun response x => { response with diff := x }) rfl rfl
    (fun x _ => decodeDiffView_eq x)).trans ?_
  refine (into_skipped_message rfl).trans ?_
  refine (into_message (w := RecentRepoList.repos)
    (fun response x => { response with recentRepos := x }) rfl rfl
    (fun x _ => decodeRecentRepoList_eq x)).trans ?_
  refine (into_message (w := id) (fun response x => { response with repo := x }) rfl rfl
    (fun x _ => decodeRecentRepoView_eq x)).trans ?_
  refine (into_message (w := settingsObject)
    (fun response x => { response with settings := x }) rfl rfl
    (fun x _ => decodeSettingsView_eq x)).trans ?_
  iterate 4 refine (into_skipped_message rfl).trans ?_
  refine (into_message (w := PendingApprovalList.approvals)
    (fun response x => { response with pendingApprovals := x }) rfl rfl
    (fun x _ => decodePendingApprovalList_eq x)).trans ?_
  refine (into_message (w := id) (fun response x => { response with browserView := x }) rfl rfl
    (fun x _ => decodeBrowserView_eq x)).trans ?_
  iterate 2 refine (into_skipped_message rfl).trans ?_
  simp only [Option.map_id, id]
  rfl

theorem jsonPayload_of_ok {m : SurfaceResponse} {r : ResponseObject J}
    (h : decodeSurfaceResponse jsonParse (render m.fields) = .ok r) {events : TaskEvents}
    (hevents : m.taskEvents = some events) {e : EventEnvelope} (he : e ∈ events.events) :
    JsonPayload jsonParse e := by
  intro hpayload
  have hloop := (decodeInto_render (plain_response m)).symm.trans h
  have hmem : (⟨6, .len (render events.fields)⟩ : Field) ∈ m.fields := by
    simp [SurfaceResponse.fields, hevents, messageField]
  obtain ⟨_, _, hset⟩ := ok_of_into hloop hmem rfl
  obtain ⟨_, htask, -⟩ := map_eq_ok.mp hset
  have hloop₁ := (decodeInto_render (by simp [TaskEvents.fields, plain_append])).symm.trans htask
  have hmem₁ : (⟨2, .len (render e.fields)⟩ : Field) ∈ events.fields := by
    rw [TaskEvents.fields]
    refine mem_append_right _ (mem_map_of_mem (mem_map_of_mem he))
  obtain ⟨_, _, hset₁⟩ := ok_of_into hloop₁ hmem₁ rfl
  obtain ⟨_, hevent, -⟩ := map_eq_ok.mp hset₁
  have hloop₂ := (decodeInto_render (by simp [EventEnvelope.fields, plain_append])).symm.trans hevent
  have hmem₂ : (⟨7, .len e.payload⟩ : Field) ∈ e.fields := by
    simp [EventEnvelope.fields, bytesField, hpayload]
  obtain ⟨before, after, hset₂⟩ := ok_of_into hloop₂ hmem₂ rfl
  cases hjson : jsonParse (Utf8.lossy e.payload) with
  | none =>
    have hfail : setPayload jsonParse before (.buffer e.payload) = .ok after := hset₂
    simp only [setPayload, Value.utf8, ok_bind, hjson] at hfail
    cases hfail
  | some payload => rfl

variable (jsonParse) in
/-- The bytes of a response are decoded to its values. -/
def Decodes (m : SurfaceResponse) : Prop :=
  decodeSurfaceResponse jsonParse (render m.fields) = .ok (responseObject jsonParse m)

theorem decodes_iff (m : SurfaceResponse) :
    Decodes jsonParse m ↔ ∀ events, m.taskEvents = some events →
      ∀ e ∈ events.events, JsonPayload jsonParse e :=
  ⟨fun h _ hevents _ he => jsonPayload_of_ok h hevents he, decodeSurfaceResponse_eq⟩

/-- **A request is read as it was meant exactly if its case has a number below sixteen and its
strings have no surrogates by themselves; a response is decoded to its values exactly if the
payloads of its events are JSON.** -/
theorem read_and_written_iff {J : Type} (jsonParse : List Char → Option J) :
    (∀ r : Request, Encodes r ↔
      caseNumber r.message < 16 ∧ ∀ s ∈ r.message.strings, Utf16.WellFormed s) ∧
    ∀ m : SurfaceResponse, Decodes jsonParse m ↔ ∀ events, m.taskEvents = some events →
      ∀ e ∈ events.events, JsonPayload jsonParse e :=
  ⟨encodes_iff, decodes_iff⟩

end Events

/-- The list of pending approvals is asked for, and a session is created. -/
theorem listPendingApprovals_misread :
    encodeSurfaceRequest .listPendingApprovals = [0x0a, 0x00] ∧
      decodeRequest (encodeSurfaceRequest .listPendingApprovals) = some (.createSession []) ∧
      ¬ Encodes .listPendingApprovals := by
  have hread : decodeRequest (encodeSurfaceRequest .listPendingApprovals)
      = some (.createSession []) := by decide
  refine ⟨by decide, hread, fun h => ?_⟩
  rw [Encodes, hread] at h
  cases h

end Desktop

end Modbit
