import Modbit.Desktop.SurfaceClient

/-!
# What the encoded requests say

The encoder writes the key of a field as one byte, which is right for the field numbers below
sixteen and for no others: from sixteen on the byte says that the key goes on, and from
thirty-two on it is the key of another field.

`encodes_iff` says that a request is read as it was meant exactly if its case has a number
below sixteen and no string of it has a surrogate by itself.  For the cases from sixteen to
thirty-one the proof counts bytes: the length of the message is taken for the rest of the
key, and a field of the message for the length of another; what is left is too short for the
values to come again.
-/

namespace Modbit

open Lib List

namespace Desktop

open Protobuf Surface

/-! ### Keys and lengths -/

theorem encodeVarintLoop_eq {fuel v : Nat} (hle : v ≤ fuel) (hv : v ≠ 0) :
    encodeVarintLoop fuel v = varint v := by
  induction fuel generalizing v with
  | zero => omega
  | succ fuel ih =>
    rw [encodeVarintLoop, if_neg hv, varint_eq]
    by_cases hlt : v < 128
    · have hdiv : v / 128 = 0 := by omega
      have hnil : encodeVarintLoop fuel 0 = [] := by
        cases fuel with
        | zero => rfl
        | succ fuel => rfl
      rw [if_pos hlt, hdiv, if_neg (by omega), hnil, Nat.mod_eq_of_lt hlt]
    · have hor : ∀ x < 128, x ||| 0x80 = x + 128 := by decide
      rw [if_neg hlt, if_pos (by omega), hor _ (Nat.mod_lt _ (by decide)), ih (by omega) (by omega)]

theorem encodeVarint_eq (v : Nat) : encodeVarint v = varint v := by
  rw [encodeVarint]
  split_ifs with hv
  · rw [hv]
    rfl
  · exact encodeVarintLoop_eq (Nat.le_refl v) hv

theorem key_eq (fieldNo : Nat) : fieldNo <<< 3 ||| 2 = 8 * fieldNo + 2 := by
  rw [Nat.shiftLeft_eq, Nat.mul_comm, ← Nat.two_pow_add_eq_or_of_lt (by decide)]

variable {v : Nat}

theorem varint_key (h : v < 128) : varint v = [UInt8.ofNat v] := by
  rw [varint_eq, if_pos h]

variable {k : Nat}

/-- **Below sixteen a field is written as protobuf writes it.** -/
theorem encodeLenField_eq (h : k < 16) (b : List UInt8) :
    encodeLenField k b = renderField ⟨k, .len b⟩ := by
  have hkey : varint (8 * k + 2) = [UInt8.ofNat (8 * k + 2)] := varint_key (by omega)
  show _ = varint (8 * k + 2) ++ (varint b.length ++ b)
  rw [encodeLenField, key_eq, encodeVarint_eq, hkey]
  rfl

theorem encodeVarintField_eq (h : k < 16) (v : Nat) :
    encodeVarintField k v = renderField ⟨k, .varint v⟩ := by
  have hkey : varint (8 * k + 0) = [UInt8.ofNat (8 * k)] := varint_key (by omega)
  show _ = varint (8 * k + 0) ++ varint v
  rw [encodeVarintField, Nat.or_zero, Nat.shiftLeft_eq, Nat.mul_comm, encodeVarint_eq, hkey]
  rfl

theorem decode_utf8 (s : JsString) : Utf8.decode s.utf8 = some (Utf16.lossy s.units) :=
  Utf8.decode_encode _

theorem length_lossy_le (u : List UInt16) : (Utf16.lossy u).length ≤ u.length := by
  induction u using Utf16.lossy.induct with
  | case1 => exact Nat.le_refl 0
  | case2 u => exact Nat.le_refl 1
  | case3 u u' rest hpair ih =>
    rw [Utf16.lossy, if_pos hpair]
    simp only [length_cons]
    omega
  | case4 u u' rest hpair ih =>
    rw [Utf16.lossy, if_neg hpair]
    simp only [length_cons] at ih ⊢
    omega

theorem length_utf8_lt (s : JsString) : s.utf8.length < 2 ^ 55 := by
  have hfour : ∀ l : List Char, (Utf8.encode l).length ≤ 4 * l.length := by
    intro l
    induction l with
    | nil => exact Nat.le_refl 0
    | cons c l ih =>
      rw [Utf8.encode, flatMap_cons, length_append, String.length_utf8EncodeChar, length_cons]
      have := c.utf8Size_le_four
      rw [Utf8.encode] at ih
      omega
  have hchars := length_lossy_le s.units
  have := hfour (Utf16.lossy s.units)
  have := s.bound
  rw [JsString.utf8]
  omega

theorem render_singleton (f : Field) : render [f] = renderField f := append_nil _

theorem render_append (a b : List Field) : render (a ++ b) = render a ++ render b :=
  flatMap_append

/-! ### Parts of a request -/

/-- A part of a message: a string, or a string or a number that is left out when it is empty. -/
inductive Part where
  | str (k : Nat) (s : JsString)
  | strIf (k : Nat) (s : Option JsString)
  | varintIf (k : Nat) (v : Option Nat)

namespace Part

def number : Part → Nat
  | .str k _ | .strIf k _ | .varintIf k _ => k

def bytes : Part → List UInt8
  | .str k s => Desktop.str k s
  | .strIf k s => Desktop.strIf k s
  | .varintIf k v => Desktop.varintIf k v

def field : Part → Option Field
  | .str k s => some ⟨k, .len s.utf8⟩
  | .strIf k s => (s.filter (fun s => s.units ≠ [])).map (fun s => ⟨k, .len s.utf8⟩)
  | .varintIf k v => (v.filter (· ≠ 0)).map (fun v => ⟨k, .varint v⟩)

theorem number_of_field {p : Part} {f : Field} (h : p.field = some f) : f.number = p.number := by
  cases p with
  | str k s =>
    rw [← Option.some.inj h]
    rfl
  | strIf k s =>
    obtain ⟨_, -, rfl⟩ := Option.map_eq_some_iff.mp h
    rfl
  | varintIf k v =>
    obtain ⟨_, -, rfl⟩ := Option.map_eq_some_iff.mp h
    rfl

theorem bytes_eq {p : Part} (h : p.number < 16) : p.bytes = render p.field.toList := by
  cases p with
  | str k s =>
    have hk : k < 16 := h
    show Desktop.str k s = render [_]
    rw [Desktop.str, encodeLenField_eq hk, render_singleton]
  | strIf k s =>
    cases s with
    | none => rfl
    | some s =>
      have hk : k < 16 := h
      show Desktop.strIf k (some s) = _
      rw [Desktop.strIf, field, Option.filter_some]
      by_cases hs : s.units = []
      · rw [if_pos hs, if_neg (by simpa using hs)]
        rfl
      · rw [if_neg hs, if_pos (by simpa using hs), Desktop.str, encodeLenField_eq hk]
        exact (render_singleton _).symm
  | varintIf k v =>
    cases v with
    | none => rfl
    | some v =>
      have hk : k < 16 := h
      show Desktop.varintIf k (some v) = _
      rw [Desktop.varintIf, field, Option.filter_some]
      by_cases hv : v = 0
      · rw [if_pos hv, if_neg (by simpa using hv)]
        rfl
      · rw [if_neg hv, if_pos (by simpa using hv), encodeVarintField_eq hk]
        exact (render_singleton _).symm

end Part

def fieldsOf (ps : List Part) : List Field := ps.filterMap Part.field

/-- The numbers of parts, as messages have them. -/
structure Sound (ps : List Part) : Prop where
  small : ∀ p ∈ ps, 0 < p.number ∧ p.number < 16
  nodup : (ps.map Part.number).Nodup

variable {ps : List Part}

theorem flatMap_bytes (h : Sound ps) : ps.flatMap Part.bytes = render (fieldsOf ps) := by
  have hall : ∀ p ∈ ps, p.number < 16 := fun p hp => (h.small p hp).2
  clear h
  induction ps with
  | nil => rfl
  | cons p ps ih =>
    rw [flatMap_cons, Part.bytes_eq (hall p mem_cons_self),
      ih (fun q hq => hall q (mem_cons_of_mem _ hq)), ← render_append, fieldsOf, fieldsOf,
      filterMap_cons]
    cases p.field with
    | none => rfl
    | some f => rfl

variable {p : Part}

theorem filter_fieldsOf (h : Sound ps) (hp : p ∈ ps) :
    (fieldsOf ps).filter (·.number = p.number) = p.field.toList := by
  have hnodup := h.nodup
  clear h
  have hnone : ∀ {ps : List Part} {k : Nat}, k ∉ ps.map Part.number →
      (fieldsOf ps).filter (·.number = k) = [] := by
    intro ps k hk
    refine filter_eq_nil_iff.mpr (fun f hf => ?_)
    obtain ⟨q, hq, hfield⟩ := mem_filterMap.mp hf
    intro hnum
    have hq' := Part.number_of_field hfield
    rw [of_decide_eq_true hnum] at hq'
    exact hk (hq' ▸ mem_map_of_mem hq)
  induction ps with
  | nil => cases hp
  | cons q ps ih =>
    rw [map_cons, nodup_cons] at hnodup
    have hsplit : fieldsOf (q :: ps) = q.field.toList ++ fieldsOf ps := by
      rw [fieldsOf, fieldsOf, filterMap_cons]
      cases q.field with
      | none => rfl
      | some f => rfl
    rw [hsplit, filter_append]
    rcases mem_cons.mp hp with rfl | hp
    · rw [hnone hnodup.1, append_nil]
      refine filter_eq_self.mpr (fun f hf => ?_)
      exact decide_eq_true (Part.number_of_field (Option.mem_toList.mp hf))
    · have hother : q.field.toList.filter (·.number = p.number) = [] := by
        refine filter_eq_nil_iff.mpr (fun f hf => ?_)
        intro hnum
        have hq := Part.number_of_field (Option.mem_toList.mp hf)
        rw [of_decide_eq_true hnum] at hq
        exact hnodup.1 (hq ▸ mem_map_of_mem hp)
      rw [hother, ih hp hnodup.2]
      rfl

/-- The string of an optional property; without it there is none. -/
def unitsOf (s : Option JsString) : List UInt16 := (s.getD .empty).units

theorem stringField_str (h : Sound ps) {s : JsString}
    (hp : Part.str k s ∈ ps) : stringField (fieldsOf ps) k = some (Utf16.lossy s.units) := by
  have hfilter : (fieldsOf ps).filter (·.number = k) = _ := filter_fieldsOf h hp
  rw [stringField, hfilter]
  show (Utf8.decode s.utf8).bind some = _
  rw [decode_utf8]
  rfl

theorem stringField_strIf (h : Sound ps) {s : Option JsString} (hp : Part.strIf k s ∈ ps) :
    stringField (fieldsOf ps) k = some (Utf16.lossy (unitsOf s)) := by
  have hfilter : (fieldsOf ps).filter (·.number = k) = _ := filter_fieldsOf h hp
  rw [stringField, hfilter]
  cases s with
  | none => rfl
  | some s =>
    rw [Part.field, Option.filter_some]
    by_cases hs : s.units = []
    · rw [if_neg (by simpa using hs)]
      show some [] = some (Utf16.lossy s.units)
      rw [hs]
      rfl
    · rw [if_pos (by simpa using hs)]
      show (Utf8.decode s.utf8).bind some = _
      rw [decode_utf8]
      rfl

theorem stringField_absent (h : k ∉ ps.map Part.number) :
    stringField (fieldsOf ps) k = some [] := by
  have hnone : (fieldsOf ps).filter (·.number = k) = [] := by
    refine filter_eq_nil_iff.mpr (fun f hf => ?_)
    obtain ⟨q, hq, hfield⟩ := mem_filterMap.mp hf
    intro hnum
    have hq' := Part.number_of_field hfield
    rw [of_decide_eq_true hnum] at hq'
    exact h (hq' ▸ mem_map_of_mem hq)
  rw [stringField, hnone]
  rfl

/-! ### Requests and messages -/

def Request.message : Request → SurfaceRequest (List UInt16)
  | .createSession displayName => .createSession displayName.units
  | .createTask sessionId title prompt repoId baseBranch =>
    .createTask sessionId.units title.units prompt.units (unitsOf repoId) (unitsOf baseBranch) [] []
  | .registerRepo path cloneUrl => .registerRepo (unitsOf path) (unitsOf cloneUrl)
  | .approveEffect approvalId resolvedBy =>
    .approveEffect approvalId.units (resolvedBy.getD operator).units
  | .denyEffect approvalId reason resolvedBy =>
    .denyEffect approvalId.units reason.units (resolvedBy.getD operator).units
  | .listPendingApprovals => .listPendingApprovals
  | .getBrowserView taskId => .getBrowserView taskId.units
  | .setBrowserLease taskId owner => .setBrowserLease taskId.units owner.units
  | .runVariants objective count repoId baseBranch =>
    .runVariants objective.units (count.getD 0) (unitsOf repoId) (unitsOf baseBranch)
  | .listRecentRepos => .listRecentRepos
  | .getSettings => .getSettings
  | .updateSettings provider model baseUrl maxTurns executionMode apiKey =>
    .updateSettings (unitsOf provider) (unitsOf model) (unitsOf baseUrl) (maxTurns.getD 0)
      (unitsOf executionMode) (unitsOf apiKey)
  | .taskEvents taskId => .getTaskEvents taskId.units
  | .steerTask taskId note => .steerTask taskId.units note.units
  | .pauseTask taskId => .pauseTask taskId.units
  | .stopTask taskId reason => .stopTask taskId.units (unitsOf reason)
  | .getRunDetail taskId => .getRunDetail taskId.units
  | .getDiff taskId => .getDiff taskId.units
  | .getFleet => .getFleet

def caseNumber {S : Type} : SurfaceRequest S → Nat
  | .createSession _ => 1
  | .createTask _ _ _ _ _ _ _ => 2
  | .getFleet => 3
  | .getTaskEvents _ => 8
  | .steerTask _ _ => 10
  | .pauseTask _ => 11
  | .stopTask _ _ => 12
  | .getRunDetail _ => 13
  | .getDiff _ => 14
  | .registerRepo _ _ => 16
  | .listRecentRepos => 17
  | .getSettings => 18
  | .updateSettings _ _ _ _ _ _ => 19
  | .approveEffect _ _ => 20
  | .denyEffect _ _ _ => 21
  | .runVariants _ _ _ _ => 28
  | .listPendingApprovals => 33
  | .getBrowserView _ => 34
  | .setBrowserLease _ _ => 35
  | .other n => n
  | .unset => 0

def Request.parts : Request → List Part
  | .createSession displayName => [.str 1 displayName]
  | .createTask sessionId title prompt repoId baseBranch =>
    [.str 1 sessionId, .str 2 title, .str 3 prompt, .strIf 4 repoId, .strIf 5 baseBranch]
  | .registerRepo path cloneUrl => [.strIf 1 path, .strIf 2 cloneUrl]
  | .approveEffect approvalId resolvedBy =>
    [.str 1 approvalId, .str 2 (resolvedBy.getD operator)]
  | .denyEffect approvalId reason resolvedBy =>
    [.str 1 approvalId, .str 2 reason, .str 3 (resolvedBy.getD operator)]
  | .listPendingApprovals | .listRecentRepos | .getSettings | .getFleet => []
  | .getBrowserView taskId | .taskEvents taskId | .pauseTask taskId | .getRunDetail taskId
  | .getDiff taskId => [.str 1 taskId]
  | .setBrowserLease taskId owner => [.str 1 taskId, .str 2 owner]
  | .runVariants objective count repoId baseBranch =>
    [.str 1 objective, .varintIf 2 count, .strIf 3 repoId, .strIf 4 baseBranch]
  | .updateSettings provider model baseUrl maxTurns executionMode apiKey =>
    [.strIf 1 provider, .strIf 2 model, .strIf 3 baseUrl, .varintIf 4 maxTurns,
      .strIf 5 executionMode, .strIf 6 apiKey]
  | .steerTask taskId note => [.str 1 taskId, .str 2 note]
  | .stopTask taskId reason => [.str 1 taskId, .str 2 (reason.getD .empty)]

theorem encodeSurfaceRequest_eq (r : Request) :
    encodeSurfaceRequest r
      = encodeLenField (caseNumber r.message) (r.parts.flatMap Part.bytes) := by
  cases r <;>
    simp [encodeSurfaceRequest, Request.message, Request.parts, caseNumber, Part.bytes,
      encodeCreateSession, encodeCreateTask, encodeGetFleet, encodeGetTaskEvents, encodeSteerTask,
      encodePauseTask, encodeStopTask, encodeGetRunDetail, encodeGetDiff, encodeApproveEffect,
      encodeDenyEffect, encodeListPendingApprovals, encodeGetBrowserView, encodeSetBrowserLease,
      encodeRunVariants]

theorem sound_parts (r : Request) : Sound r.parts := by
  cases r <;> exact ⟨by simp [Request.parts, Part.number], by simp [Request.parts, Part.number]⟩

/-- The bytes of a request are read as what it means. -/
def Encodes (r : Request) : Prop :=
  (decodeRequest (encodeSurfaceRequest r)).map (SurfaceRequest.map Utf16.encode) = some r.message

/-! ### Below sixteen -/

variable {n : Nat} {fs : List Field}

theorem decodeRequest_eq (hpos : 0 < n) (hn : n < 16)
    (hfs : ∀ f ∈ fs, f.Valid) (hlen : (render fs).length < 2 ^ 64) :
    decodeRequest (encodeLenField n (render fs)) = message n fs := by
  have hone : encodeLenField n (render fs) = render [⟨n, .len (render fs)⟩] := by
    rw [encodeLenField_eq hn, render_singleton]
  have hvalid : ∀ f ∈ [(⟨n, .len (render fs)⟩ : Field)], f.Valid := by
    intro f hf
    rw [mem_singleton.mp hf]
    exact ⟨⟨hpos, Nat.lt_trans hn (by decide)⟩, hlen⟩
  have hstep : oneofStep none ⟨n, .len (render fs)⟩ = some (some (n, fs)) := by
    rw [oneofStep, if_pos (Nat.le_trans (Nat.le_of_lt hn) (by decide))]
    dsimp only
    rw [parse_render hfs]
    rfl
  rw [decodeRequest, hone, parse_render hvalid, Option.bind_some, foldlM_cons, hstep]
  rfl

/-- No numbers, as in all messages below sixteen. -/
def Texts (ps : List Part) : Prop := ∀ p ∈ ps, ∀ k v, p ≠ .varintIf k v

theorem length_bytes_lt (h : ∀ k v, p ≠ .varintIf k v) : p.bytes.length < 2 ^ 56 := by
  have hstr : ∀ (k : Nat) (s : JsString), (str k s).length < 2 ^ 56 := by
    intro k s
    have hlen := length_utf8_lt s
    have hvar : (varint s.utf8.length).length ≤ 10 := length_varint_le (k := 9) (by omega)
    rw [str, encodeLenField, encodeVarint_eq, length_cons, length_append]
    omega
  cases p with
  | str k s => exact hstr k s
  | strIf k s =>
    show (strIf k s).length < 2 ^ 56
    cases s with
    | none => exact Nat.two_pow_pos 56
    | some s =>
      rw [strIf]
      split_ifs
      · exact Nat.two_pow_pos 56
      · exact hstr k s
  | varintIf k v => exact absurd rfl (h k v)

theorem length_flatMap_bytes_le (h : Texts ps) :
    (ps.flatMap Part.bytes).length ≤ ps.length * 2 ^ 56 := by
  induction ps with
  | nil => exact Nat.zero_le _
  | cons p ps ih =>
    rw [flatMap_cons, length_append, length_cons, Nat.succ_mul]
    have hp := length_bytes_lt (h p mem_cons_self)
    have := ih (fun q hq => h q (mem_cons_of_mem _ hq))
    omega

theorem valid_fieldsOf (h : Sound ps) (htexts : Texts ps) : ∀ f ∈ fieldsOf ps, f.Valid := by
  intro f hf
  obtain ⟨p, hp, hfield⟩ := mem_filterMap.mp hf
  obtain ⟨hpos, hlt⟩ := h.small p hp
  rw [← Part.number_of_field hfield] at hpos hlt
  refine ⟨⟨hpos, Nat.lt_trans hlt (by decide)⟩, ?_⟩
  have hbound : ∀ s : JsString, s.utf8.length < 2 ^ 64 := by
    intro s
    have := length_utf8_lt s
    omega
  cases p with
  | str k s =>
    rw [← Option.some.inj hfield]
    exact hbound s
  | strIf k s =>
    obtain ⟨s', -, rfl⟩ := Option.map_eq_some_iff.mp hfield
    exact hbound s'
  | varintIf k v => exact absurd rfl (htexts _ hp k v)

variable {r : Request}

/-- **A request whose case has a number below sixteen is read back.** -/
theorem decodeRequest_low (h : caseNumber r.message < 16) :
    decodeRequest (encodeSurfaceRequest r) = some (r.message.map Utf16.lossy) := by
  have hsound := sound_parts r
  have htexts : Texts r.parts := by
    intro p hp k v hv
    subst hv
    cases r <;> simp_all [Request.parts, Request.message, caseNumber]
  have hpos : 0 < caseNumber r.message := by
    cases r <;> exact Nat.succ_pos _
  have hlen : (render (fieldsOf r.parts)).length < 2 ^ 64 := by
    have hparts : r.parts.length ≤ 6 := by cases r <;> simp [Request.parts]
    have := length_flatMap_bytes_le htexts
    rw [flatMap_bytes hsound] at this
    omega
  rw [encodeSurfaceRequest_eq, flatMap_bytes hsound,
    decodeRequest_eq hpos h (valid_fieldsOf hsound htexts) hlen]
  have hone : ∀ {k : Nat} {s : JsString}, Part.str k s ∈ r.parts →
      stringField (fieldsOf r.parts) k = some (Utf16.lossy s.units) := stringField_str hsound
  have hopt : ∀ {k : Nat} {s : Option JsString}, Part.strIf k s ∈ r.parts →
      stringField (fieldsOf r.parts) k = some (Utf16.lossy (unitsOf s)) := stringField_strIf hsound
  cases r with
  | createSession displayName =>
    show (stringField _ 1).bind _ = _
    rw [hone (k := 1) (s := displayName) mem_cons_self]
    rfl
  | createTask sessionId title prompt repoId baseBranch =>
    show (stringField _ 1).bind (fun a => (stringField _ 2).bind (fun b => (stringField _ 3).bind
      (fun c => (stringField _ 4).bind (fun d => (stringField _ 5).bind (fun e =>
        (stringField _ 6).bind (fun f => (stringField _ 7).bind (fun g => _))))))) = _
    rw [hone (k := 1) (s := sessionId) (by simp [Request.parts]),
      hone (k := 2) (s := title) (by simp [Request.parts]),
      hone (k := 3) (s := prompt) (by simp [Request.parts]),
      hopt (k := 4) (s := repoId) (by simp [Request.parts]),
      hopt (k := 5) (s := baseBranch) (by simp [Request.parts]),
      stringField_absent (by simp [Request.parts, Part.number]),
      stringField_absent (by simp [Request.parts, Part.number])]
    rfl
  | taskEvents taskId =>
    show (stringField _ 1).bind _ = _
    rw [hone (k := 1) (s := taskId) mem_cons_self]
    rfl
  | steerTask taskId note =>
    show (stringField _ 1).bind (fun a => (stringField _ 2).bind _) = _
    rw [hone (k := 1) (s := taskId) (by simp [Request.parts]),
      hone (k := 2) (s := note) (by simp [Request.parts])]
    rfl
  | pauseTask taskId =>
    show (stringField _ 1).bind _ = _
    rw [hone (k := 1) (s := taskId) mem_cons_self]
    rfl
  | stopTask taskId reason =>
    show (stringField _ 1).bind (fun a => (stringField _ 2).bind _) = _
    rw [hone (k := 1) (s := taskId) (by simp [Request.parts]),
      hone (k := 2) (s := reason.getD .empty) (by simp [Request.parts])]
    rfl
  | getRunDetail taskId =>
    show (stringField _ 1).bind _ = _
    rw [hone (k := 1) (s := taskId) mem_cons_self]
    rfl
  | getDiff taskId =>
    show (stringField _ 1).bind _ = _
    rw [hone (k := 1) (s := taskId) mem_cons_self]
    rfl
  | getFleet => rfl
  | _ => simp [Request.message, caseNumber] at h

/-! ### From sixteen on -/

variable {m : SurfaceRequest (List Char)}

theorem number_of_message (h : message k fs = some m) : caseNumber m = k := by
  unfold message at h
  split at h
  all_goals
    simp only [bind, pure, Option.bind_eq_some_iff, Option.some.injEq] at h
    first
      | (subst h; rfl)
      | (obtain ⟨_, _, rfl⟩ := h; rfl)
      | (obtain ⟨_, _, _, _, rfl⟩ := h; rfl)
      | (obtain ⟨_, _, _, _, _, _, rfl⟩ := h; rfl)
      | (obtain ⟨_, _, _, _, _, _, _, _, rfl⟩ := h; rfl)
      | (obtain ⟨_, _, _, _, _, _, _, _, _, _, _, _, rfl⟩ := h; rfl)
      | (obtain ⟨_, _, _, _, _, _, _, _, _, _, _, _, _, _, rfl⟩ := h; rfl)

theorem caseNumber_map {S T : Type} (f : S → T) (m : SurfaceRequest S) :
    caseNumber (m.map f) = caseNumber m := by
  cases m <;> rfl

variable {sub : List Field}

theorem length_of_oneof {current last : Option (Nat × List Field)}
    {w : Nat} (h : fs.foldlM oneofStep current = some last)
    (hw : ∀ sub, current = some (n, sub) → (render sub).length ≤ w)
    (hlast : last = some (n, sub)) : (render sub).length ≤ w + (render fs).length := by
  induction fs generalizing current w with
  | nil =>
    obtain rfl := Option.some.inj h
    exact (hw sub hlast).trans (Nat.le_add_right _ _)
  | cons f fs ih =>
    obtain ⟨next, hstep, hrest⟩ := Option.bind_eq_some_iff.mp h
    have hnext : ∀ sub, next = some (n, sub) →
        (render sub).length ≤ w + (renderField f).length := by
      intro sub hsub
      rw [oneofStep] at hstep
      split_ifs at hstep
      · split at hstep
        · next b hb =>
          obtain ⟨fs', hfs', rfl⟩ := Option.map_eq_some_iff.mp hstep
          have hlen := length_render_le hfs'
          have hfield : b.length ≤ (renderField f).length := by
            rw [renderField, hb, length_append]
            show _ ≤ _ + (varint b.length ++ b).length
            rw [length_append]
            omega
          cases current with
          | none =>
            obtain ⟨-, rfl⟩ := Prod.mk.inj (Option.some.inj hsub)
            omega
          | some c =>
            obtain ⟨k, before⟩ := c
            dsimp only at hsub
            split_ifs at hsub
            · obtain ⟨rfl, rfl⟩ := Prod.mk.inj (Option.some.inj hsub)
              have := hw before rfl
              rw [render_append, length_append]
              omega
            · obtain ⟨-, rfl⟩ := Prod.mk.inj (Option.some.inj hsub)
              omega
        · cases hstep
      · obtain rfl := Option.some.inj hstep
        exact (hw sub hsub).trans (Nat.le_add_right _ _)
    have := ih hrest hnext
    rw [render_cons, length_append]
    omega

/-- **From sixteen to thirty-one the key swallows the length, and a field of the message is the
length of something else: what is read after that is eleven bytes short.** -/
theorem length_of_misread {b : List UInt8}
    (hn : 16 ≤ n ∧ n < 32) (hfirst : ∀ byte rest, b = byte :: rest → 10 ≤ byte.toNat ∧ byte.toNat < 128)
    (h : decodeRequest (encodeLenField n b) = some m) (hm : caseNumber m = n) :
    ∃ sub, message n sub = some m ∧ (render sub).length + 11 ≤ b.length := by
  obtain ⟨fs, hfs, hcase⟩ := Option.bind_eq_some_iff.mp h
  obtain ⟨last, hlast, hmessage⟩ := Option.bind_eq_some_iff.mp hcase
  rw [encodeLenField, key_eq, encodeVarint_eq, parse, length_cons] at hfs
  obtain ⟨key, rest, hkey, hrest⟩ := parseIn_eq_some hfs
  have hbyte : (UInt8.ofNat (8 * n + 2)).toNat = 8 * n + 2 := toNat_byte (by omega)
  -- the key goes on with the length
  have htake := (Option.filter_eq_some_iff.mp hkey).1
  rw [takeVarint, hbyte, if_neg (by omega)] at htake
  obtain ⟨⟨v, r⟩, hv, heq⟩ := Option.map_eq_some_iff.mp htake
  obtain ⟨rfl, rfl⟩ := Prod.mk.inj heq
  obtain ⟨rfl, rfl⟩ := eq_of_takeVarint hv
  have hmod : (8 * n + 2 - 128 + 128 * r.length) % 8 = 2 := by omega
  have hdiv : (8 * n + 2 - 128 + 128 * r.length) / 8 = n - 16 + 16 * r.length := by omega
  rw [hmod, hdiv] at hrest
  rcases hrest with ⟨htype, -⟩ | ⟨value, rest', fs', hvalue, hfs', rfl⟩
  · omega
  -- the first byte of the message is the length of a field that is not there
  obtain ⟨⟨len, after⟩, hlen, hsplit⟩ := Option.bind_eq_some_iff.mp hvalue
  cases r with
  | nil =>
    cases hlen
  | cons byte tail =>
    obtain ⟨hlo, hhi⟩ := hfirst byte tail rfl
    have hread : readVarint (byte :: tail) = some (byte.toNat, tail) := by
      rw [readVarint, takeVarint, if_pos hhi, Option.filter_some, if_pos (decide_eq_true (by omega))]
    rw [hread] at hlen
    obtain ⟨rfl, rfl⟩ := Prod.mk.inj (Option.some.inj hlen)
    obtain ⟨⟨taken, left⟩, htaken, heq⟩ := Option.map_eq_some_iff.mp hsplit
    obtain ⟨rfl, rfl⟩ := Prod.mk.inj heq
    obtain ⟨hlenTaken, hsum⟩ := length_of_split htaken
    dsimp only at hlenTaken hsum hfs'
    have hshort := length_render_le_in hfs'
    obtain ⟨first, hstep, hmore⟩ := Option.bind_eq_some_iff.mp hlast
    have hother : ∀ sub, first = some (n, sub) → (render sub).length ≤ 0 := by
      intro sub hsub
      subst hsub
      rw [oneofStep] at hstep
      dsimp only at hstep
      split_ifs at hstep with hcase
      · obtain ⟨fs₁, -, heq⟩ := Option.map_eq_some_iff.mp hstep
        have hnum := (Prod.mk.inj (Option.some.inj heq)).1
        rw [length_cons] at hnum
        omega
      · cases hstep
    cases last with
    | none =>
      obtain rfl := Option.some.inj hmessage
      have : (0 : Nat) = n := hm
      omega
    | some c =>
      obtain ⟨k, sub⟩ := c
      have hmsg : message k sub = some m := hmessage
      obtain rfl : k = n := (number_of_message hmsg).symm.trans hm
      have := length_of_oneof hmore hother rfl
      refine ⟨sub, hmsg, ?_⟩
      rw [length_cons]
      omega

/-! ### Counting the bytes -/

theorem mem_of_foldlM {α : Type} {read : Field → Option α} {init a : α}
    (h : fs.foldlM (fun _ f => read f) init = some a) : a = init ∨ ∃ f ∈ fs, read f = some a := by
  induction fs generalizing init with
  | nil => exact Or.inl (Option.some.inj h).symm
  | cons f fs ih =>
    obtain ⟨b, hb, hrest⟩ := Option.bind_eq_some_iff.mp h
    rcases ih hrest with rfl | ⟨g, hg, hread⟩
    · exact Or.inr ⟨f, mem_cons_self, hb⟩
    · exact Or.inr ⟨g, mem_cons_of_mem _ hg, hread⟩

theorem le_weight_of_string {t : List Char} (h : stringField fs k = some t) (ht : t ≠ []) :
    (renderField ⟨k, .len (Utf8.encode t)⟩).length ≤ weight fs k := by
  rcases mem_of_foldlM h with rfl | ⟨f, hf, hread⟩
  · exact absurd rfl ht
  · obtain ⟨hmem, hnum⟩ := mem_filter.mp hf
    have hnum' : f.number = k := of_decide_eq_true hnum
    obtain ⟨number, value⟩ := f
    obtain rfl : number = k := hnum'
    cases value with
    | len b =>
      have hb : Utf8.encode t = b := Utf8.encode_of_decode hread
      rw [hb]
      exact le_weight hmem
    | varint v => cases hread
    | fixed64 b => cases hread
    | fixed32 b => cases hread

theorem le_weight_of_uint32 (h : uint32Field fs k = some v)
    (hv : v ≠ 0) : (renderField ⟨k, .varint v⟩).length ≤ weight fs k := by
  rcases mem_of_foldlM h with rfl | ⟨f, hf, hread⟩
  · exact absurd rfl hv
  · obtain ⟨hmem, hnum⟩ := mem_filter.mp hf
    have hnum' : f.number = k := of_decide_eq_true hnum
    obtain ⟨number, value⟩ := f
    obtain rfl : number = k := hnum'
    cases value with
    | varint w =>
      have hw : w % 2 ^ 32 = v := Option.some.inj hread
      refine Nat.le_trans ?_ (le_weight hmem)
      show (varint (8 * number + 0) ++ varint v).length ≤ (varint (8 * number + 0) ++ varint w).length
      rw [length_append, length_append, ← hw]
      exact Nat.add_le_add_left (length_varint_mono (Nat.mod_le _ _)) _
    | len b => cases hread
    | fixed64 b => cases hread
    | fixed32 b => cases hread

def Agrees (sub : List Field) : Part → Prop
  | .str k s => ∃ t, stringField sub k = some t ∧ Utf16.encode t = s.units
  | .strIf k s => ∃ t, stringField sub k = some t ∧ Utf16.encode t = unitsOf s
  | .varintIf k v => uint32Field sub k = some (v.getD 0)

def slack : Part → Nat
  | .str _ _ => 2
  | .strIf _ _ | .varintIf _ _ => 0

/-- **A part takes no more bytes than the message that has it.** -/
theorem length_of_agrees (hp : p.number < 16) (h : Agrees sub p) :
    p.bytes.length ≤ weight sub p.number + slack p := by
  have hstr : ∀ {k : Nat} {s : JsString} {t : List Char}, k < 16 → stringField sub k = some t →
      Utf16.encode t = s.units → s.units ≠ [] → (str k s).length ≤ weight sub k := by
    intro k s t hk ht hunits hs
    have hlossy : Utf16.lossy s.units = t := by rw [← hunits, Utf16.lossy_encode]
    rw [str, encodeLenField_eq hk, JsString.utf8, hlossy]
    refine le_weight_of_string ht ?_
    rintro rfl
    exact hs hunits.symm
  cases p with
  | str k s =>
    obtain ⟨t, ht, hunits⟩ := h
    show (str k s).length ≤ weight sub k + 2
    by_cases hs : s.units = []
    · have hutf8 : s.utf8 = [] := by rw [JsString.utf8, hs]; rfl
      rw [str, hutf8]
      exact Nat.le_add_left _ _
    · exact (hstr hp ht hunits hs).trans (Nat.le_add_right _ _)
  | strIf k s =>
    obtain ⟨t, ht, hunits⟩ := h
    show (strIf k s).length ≤ weight sub k
    cases s with
    | none => exact Nat.zero_le _
    | some s =>
      rw [strIf]
      split_ifs with hs
      · exact Nat.zero_le _
      · exact hstr hp ht hunits hs
  | varintIf k v =>
    show (varintIf k v).length ≤ weight sub k
    cases v with
    | none => exact Nat.zero_le _
    | some v =>
      rw [varintIf]
      split_ifs with hv
      · exact Nat.zero_le _
      · have hk : k < 16 := hp
        rw [encodeVarintField_eq hk]
        exact le_weight_of_uint32 h hv

theorem length_of_all_agree (h : Sound ps) (hagrees : ∀ p ∈ ps, Agrees sub p) :
    (ps.flatMap Part.bytes).length ≤ (render sub).length + (ps.map slack).sum := by
  have hsum : (ps.flatMap Part.bytes).length
      ≤ ((ps.map Part.number).map (weight sub)).sum + (ps.map slack).sum := by
    have hsmall := h.small
    clear h
    induction ps with
    | nil => exact Nat.zero_le _
    | cons p ps ih =>
      have hp := length_of_agrees (hsmall p mem_cons_self).2 (hagrees p mem_cons_self)
      have hps := ih (fun q hq => hagrees q (mem_cons_of_mem _ hq))
        (fun q hq => hsmall q (mem_cons_of_mem _ hq))
      rw [flatMap_cons, length_append]
      simp only [map_cons, sum_cons]
      omega
  exact hsum.trans (Nat.add_le_add_right (sum_weight_le h.nodup sub) _)

theorem first_of_parts (h : Sound ps)
    (hnum : ∀ p ∈ ps, ∀ k v, p = .varintIf k v → 2 ≤ k) {byte : UInt8} {rest : List UInt8}
    (hb : ps.flatMap Part.bytes = byte :: rest) : 10 ≤ byte.toNat ∧ byte.toNat < 128 := by
  rw [flatMap_bytes h] at hb
  cases hfields : fieldsOf ps with
  | nil =>
    rw [hfields] at hb
    cases hb
  | cons f fs =>
    have hmem : f ∈ fieldsOf ps := hfields ▸ mem_cons_self
    obtain ⟨p, hp, hfield⟩ := mem_filterMap.mp hmem
    obtain ⟨hpos, hlt⟩ := h.small p hp
    rw [← Part.number_of_field hfield] at hpos hlt
    have hkey : 10 ≤ 8 * f.number + f.value.type ∧ 8 * f.number + f.value.type < 128 := by
      have htype := (type_cases f.value).1
      refine ⟨?_, by omega⟩
      cases p with
      | str k s =>
        rw [← Option.some.inj hfield] at hpos ⊢
        show 10 ≤ 8 * k + 2
        have : 0 < k := hpos
        omega
      | strIf k s =>
        obtain ⟨s', -, rfl⟩ := Option.map_eq_some_iff.mp hfield
        show 10 ≤ 8 * k + 2
        have : 0 < k := hpos
        omega
      | varintIf k v =>
        obtain ⟨v', -, rfl⟩ := Option.map_eq_some_iff.mp hfield
        show 10 ≤ 8 * k + 0
        have := hnum _ hp k v rfl
        omega
    rw [hfields, render_cons, renderField, varint_key hkey.2] at hb
    have hbyte := (List.cons.inj hb).1
    rw [← hbyte, toNat_byte (by omega)]
    exact hkey

theorem caseNumber_of_wrapped {b : List UInt8}
    (hk : 0 < k ∧ k < 16) (hn : n = k + 32) (hb : b.length < 2 ^ 64)
    (h : decodeRequest (encodeLenField n b) = some m) : caseNumber m = k := by
  have hwrap : encodeLenField n b = encodeLenField k b := by
    have hbyte : UInt8.ofNat (8 * (k + 32) + 2) = UInt8.ofNat (8 * k + 2) := by
      refine UInt8.toNat_inj.mp ?_
      rw [UInt8.toNat_ofNat', UInt8.toNat_ofNat']
      omega
    rw [encodeLenField, encodeLenField, key_eq, key_eq, hn, hbyte]
  have hone : encodeLenField k b = render [⟨k, .len b⟩] := by
    rw [encodeLenField_eq hk.2, render_singleton]
  have hvalid : ∀ f ∈ [(⟨k, .len b⟩ : Field)], f.Valid := by
    intro f hf
    rw [mem_singleton.mp hf]
    exact ⟨⟨hk.1, Nat.lt_trans hk.2 (by decide)⟩, hb⟩
  rw [hwrap, hone, decodeRequest, parse_render hvalid, Option.bind_some] at h
  obtain ⟨last, hlast, hmessage⟩ := Option.bind_eq_some_iff.mp h
  obtain ⟨current, hstep, hend⟩ := Option.bind_eq_some_iff.mp hlast
  obtain rfl := Option.some.inj hend
  rw [oneofStep, if_pos (Nat.le_trans (Nat.le_of_lt hk.2) (by decide))] at hstep
  obtain ⟨fs, -, rfl⟩ := Option.map_eq_some_iff.mp hstep
  exact number_of_message hmessage

theorem agrees_of_message (hn : 16 ≤ caseNumber r.message ∧ caseNumber r.message < 32)
    (h : message (caseNumber r.message) sub = some m) (hm : m.map Utf16.encode = r.message) :
    ∀ p ∈ r.parts, Agrees sub p := by
  cases r with
  | registerRepo path cloneUrl =>
    obtain ⟨a, ha, h⟩ := Option.bind_eq_some_iff.mp h
    obtain ⟨b, hb, h⟩ := Option.bind_eq_some_iff.mp h
    obtain rfl := Option.some.inj h
    obtain ⟨hpath, hurl⟩ := SurfaceRequest.registerRepo.inj hm
    simp only [Request.parts, forall_mem_cons]
    exact ⟨⟨a, ha, hpath⟩, ⟨b, hb, hurl⟩, fun p hp => by cases hp⟩
  | approveEffect approvalId resolvedBy =>
    obtain ⟨a, ha, h⟩ := Option.bind_eq_some_iff.mp h
    obtain ⟨b, hb, h⟩ := Option.bind_eq_some_iff.mp h
    obtain rfl := Option.some.inj h
    obtain ⟨hid, hby⟩ := SurfaceRequest.approveEffect.inj hm
    simp only [Request.parts, forall_mem_cons]
    exact ⟨⟨a, ha, hid⟩, ⟨b, hb, hby⟩, fun p hp => by cases hp⟩
  | denyEffect approvalId reason resolvedBy =>
    obtain ⟨a, ha, h⟩ := Option.bind_eq_some_iff.mp h
    obtain ⟨b, hb, h⟩ := Option.bind_eq_some_iff.mp h
    obtain ⟨d, hd, h⟩ := Option.bind_eq_some_iff.mp h
    obtain rfl := Option.some.inj h
    obtain ⟨hid, hreason, hby⟩ := SurfaceRequest.denyEffect.inj hm
    simp only [Request.parts, forall_mem_cons]
    exact ⟨⟨a, ha, hid⟩, ⟨b, hb, hreason⟩, ⟨d, hd, hby⟩, fun p hp => by cases hp⟩
  | runVariants objective count repoId baseBranch =>
    obtain ⟨a, ha, h⟩ := Option.bind_eq_some_iff.mp h
    obtain ⟨b, hb, h⟩ := Option.bind_eq_some_iff.mp h
    obtain ⟨d, hd, h⟩ := Option.bind_eq_some_iff.mp h
    obtain ⟨e, he, h⟩ := Option.bind_eq_some_iff.mp h
    obtain rfl := Option.some.inj h
    obtain ⟨hobjective, hcount, hrepo, hbranch⟩ := SurfaceRequest.runVariants.inj hm
    simp only [Request.parts, forall_mem_cons]
    refine ⟨⟨a, ha, hobjective⟩, ?_, ⟨d, hd, hrepo⟩, ⟨e, he, hbranch⟩, fun p hp => by cases hp⟩
    show uint32Field sub 2 = some (count.getD 0)
    rw [← hcount]
    exact hb
  | updateSettings provider model baseUrl maxTurns executionMode apiKey =>
    obtain ⟨a, ha, h⟩ := Option.bind_eq_some_iff.mp h
    obtain ⟨b, hb, h⟩ := Option.bind_eq_some_iff.mp h
    obtain ⟨d, hd, h⟩ := Option.bind_eq_some_iff.mp h
    obtain ⟨e, he, h⟩ := Option.bind_eq_some_iff.mp h
    obtain ⟨f, hf, h⟩ := Option.bind_eq_some_iff.mp h
    obtain ⟨g, hg, h⟩ := Option.bind_eq_some_iff.mp h
    obtain rfl := Option.some.inj h
    obtain ⟨hprovider, hmodel, hurl, hturns, hmode, hapi⟩ := SurfaceRequest.updateSettings.inj hm
    simp only [Request.parts, forall_mem_cons]
    refine ⟨⟨a, ha, hprovider⟩, ⟨b, hb, hmodel⟩, ⟨d, hd, hurl⟩, ?_, ⟨f, hf, hmode⟩, ⟨g, hg, hapi⟩,
      fun p hp => by cases hp⟩
    show uint32Field sub 4 = some (maxTurns.getD 0)
    rw [← hturns]
    exact he
  | listRecentRepos => exact fun p hp => by cases hp
  | getSettings => exact fun p hp => by cases hp
  | _ => simp [Request.message, caseNumber] at hn

/-- **A case from sixteen on is never read as it was meant.** -/
theorem not_encodes_high (h : 16 ≤ caseNumber r.message) : ¬ Encodes r := by
  intro hencodes
  obtain ⟨m, hm, hmap⟩ := Option.map_eq_some_iff.mp hencodes
  have hsound := sound_parts r
  have hcase : caseNumber m = caseNumber r.message := by rw [← hmap, caseNumber_map]
  rw [encodeSurfaceRequest_eq] at hm
  by_cases hlt : caseNumber r.message < 32
  · have hnum : ∀ p ∈ r.parts, ∀ k v, p = .varintIf k v → 2 ≤ k := by
      rintro p hp k v rfl
      cases r <;> simp_all [Request.parts]
    have hslack : (r.parts.map slack).sum ≤ 6 := by
      cases r <;> simp [Request.parts, slack]
    obtain ⟨sub, hmessage, hshort⟩ :=
      length_of_misread ⟨h, hlt⟩ (fun byte rest hb => first_of_parts hsound hnum hb) hm hcase
    have := length_of_all_agree hsound (agrees_of_message ⟨h, hlt⟩ hmessage hmap)
    omega
  · have htexts : Texts r.parts := by
      intro p hp k v hv
      subst hv
      cases r <;> simp_all [Request.parts, Request.message, caseNumber]
    have hlen : (r.parts.flatMap Part.bytes).length < 2 ^ 64 := by
      have hparts : r.parts.length ≤ 6 := by cases r <;> simp [Request.parts]
      have := length_flatMap_bytes_le htexts
      omega
    have hwrapped : ∀ k, 0 < k ∧ k < 16 → caseNumber r.message = k + 32 → False := by
      intro k hk hn
      have := caseNumber_of_wrapped hk hn hlen hm
      omega
    cases r with
    | listPendingApprovals => exact hwrapped 1 (by decide) rfl
    | getBrowserView taskId => exact hwrapped 2 (by decide) rfl
    | setBrowserLease taskId owner => exact hwrapped 3 (by decide) rfl
    | _ => simp [Request.message, caseNumber] at hlt h

/-- **A request is read as it was meant exactly if its case has a number below sixteen and its
strings have no surrogates by themselves.** -/
theorem encodes_iff (r : Request) :
    Encodes r ↔ caseNumber r.message < 16 ∧ ∀ s ∈ r.message.strings, Utf16.WellFormed s := by
  by_cases h : caseNumber r.message < 16
  · rw [Encodes, decodeRequest_low h, Option.map_some, Option.some.injEq, SurfaceRequest.map_map,
      SurfaceRequest.map_eq_self]
    exact ⟨fun hs => ⟨h, hs⟩, fun hs => hs.2⟩
  · exact iff_of_false (not_encodes_high (Nat.not_lt.mp h)) (fun hs => h hs.1)

end Desktop

end Modbit
