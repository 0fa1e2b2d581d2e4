import Modbit.EventStore.RuntimePg
import Mathlib.Data.List.Nodup

/-!
# Two runtime stores, one behaviour

The SQLite store and the Postgres store are given the same calls.  `SameAnswer` compares
what they say, previews without their zero characters, and `Mirrors` is the relation
between their states that makes the answers agree.

`runtime_parity` follows a run whose calls are all `Portable`: texts without zero
characters, keys of new rows that the indexes of Postgres have room for, payloads that are
done or zero after the 256 bytes SQLite shows of them, handles registered once and with
outputs that exist, and no ties that a listing would have to break.
-/

namespace Modbit

open Lib List

/-! ### Answers -/

def withoutNul (text : String) : String := String.ofList (text.toList.filter (· ≠ Char.ofNat 0))

def RuntimeValue.withoutNul : RuntimeValue → RuntimeValue
  | .outputRef r => .outputRef { r with previewText := Modbit.withoutNul r.previewText }
  | v => v

def SameKind : RuntimeError → PgRuntimeError → Prop
  | .sqlite _, .postgres _ => True
  | .notFound id, .notFound id' => id = id'
  | _, _ => False

def SameAnswer : SqliteReply → PgReply → Prop
  | .ok v, .ok v' => v.withoutNul = v'.withoutNul
  | .error x, .error x' => SameKind x x'
  | _, _ => False

/-! ### The calls both stores answer alike -/

def RuntimeOp.texts : RuntimeOp → List String
  | .writeOutputRef id contentType _ => [id, contentType]
  | .readOutput id => [id]
  | .readOutputRange id _ _ => [id]
  | .registerBackground _ handleId kind outputRefId preview =>
    [handleId, kind, preview] ++ outputRefId.toList
  | .stopBackground _ handleId => [handleId]
  | .listBackground _ _ => []
  | .recordToolCall _ toolCallId stepId toolName effectClass argumentsHash =>
    [toolCallId, stepId, toolName, effectClass, argumentsHash]
  | .recordToolResult _ toolCallId _ => [toolCallId]
  | .toolPairs _ _ _ stepId => [stepId]

/-- The keys of the row that a call makes. -/
def RuntimeOp.newKeys (s : RuntimeStore Empty) : RuntimeOp → List String
  | .writeOutputRef id _ _ => if (s.outputRefs id).isSome then [] else [id]
  | .registerBackground _ handleId _ _ _ =>
    if ∃ r ∈ s.backgroundTasks, r.handleId = handleId then [] else [handleId]
  | .recordToolCall _ toolCallId stepId _ _ _ =>
    if ∃ r ∈ s.toolCalls, r.toolCallId = toolCallId then [] else [toolCallId, stepId]
  | _ => []

def PortableIn (s : RuntimeStore Empty) : RuntimeOp → Prop
  | .writeOutputRef _ _ payload => ∀ b ∈ (payload.1.take 512).drop 256, b = 0
  | .registerBackground _ handleId _ outputRefId _ =>
    (∀ r ∈ s.backgroundTasks, r.handleId ≠ handleId) ∧
      ∀ id ∈ outputRefId, (s.outputRefs id).isSome
  | .listBackground _ _ => (s.backgroundTasks.map BackgroundRow.createdAt).Nodup
  | .toolPairs _ _ collation stepId => ∀ r ∈ s.toolCalls, ∀ r' ∈ s.toolCalls,
      r.stepId = stepId → r'.stepId = stepId → r.dispatchedAt = r'.dispatchedAt →
      (collation.le r.toolCallId r'.toolCallId = true ↔ r.toolCallId ≤ r'.toolCallId)
  | _ => True

def Portable (indexRefusal : String → Option String) (s : RuntimeStore Empty) (op : RuntimeOp) :
    Prop :=
  (∀ text ∈ op.texts, ¬ HasNul text) ∧ (∀ key ∈ op.newKeys s, indexRefusal key = none) ∧
    PortableIn s op

instance (s : RuntimeStore Empty) : (op : RuntimeOp) → Decidable (PortableIn s op)
  | .writeOutputRef _ _ _ => inferInstanceAs (Decidable (∀ b ∈ _, _))
  | .registerBackground _ _ _ _ _ => inferInstanceAs (Decidable (_ ∧ _))
  | .listBackground _ _ => inferInstanceAs (Decidable (List.Nodup _))
  | .toolPairs _ _ _ _ => inferInstanceAs (Decidable (∀ r ∈ _, _))
  | .readOutput _ | .readOutputRange _ _ _ | .stopBackground _ _ | .recordToolCall _ _ _ _ _ _
  | .recordToolResult _ _ _ => .isTrue trivial

instance (indexRefusal : String → Option String) (s : RuntimeStore Empty) (op : RuntimeOp) :
    Decidable (Portable indexRefusal s op) := inferInstanceAs (Decidable (_ ∧ _))

/-! ### Previews -/

/-- **Zero bytes do not show**: cut at 256 bytes or at 512, the previews are the same. -/
theorem preview_eq {payload : Payload} (h : ∀ b ∈ (payload.1.take 512).drop 256, b = 0) :
    withoutNul (sqlitePreview payload) = withoutNul (pgPreview payload) := by
  have hzeros : (payload.1.take 512).drop 256
      = List.replicate ((payload.1.take 512).drop 256).length 0 := eq_replicate_of_mem h
  have hcut : payload.1.take 512
      = payload.1.take 256 ++ List.replicate ((payload.1.take 512).drop 256).length 0 := by
    rw [← hzeros]
    have hsplit := take_append_drop 256 (payload.1.take 512)
    rw [take_take] at hsplit
    exact hsplit.symm
  have hlossy : (Utf8.lossy (payload.1.take 512)).filter (· ≠ Char.ofNat 0)
      = (Utf8.lossy (payload.1.take 256)).filter (· ≠ Char.ofNat 0) := by
    rw [hcut, Utf8.lossy_append_zeros, filter_append, filter_replicate_of_neg (by simp), append_nil]
  have hsmall : (Utf8.lossy (payload.1.take 256)).take 256 = Utf8.lossy (payload.1.take 256) := by
    refine take_of_length_le ?_
    exact le_trans (Utf8.length_lossy_le _) (length_take_le _ _)
  have hlarge : ((Utf8.lossy (payload.1.take 512)).filter (· ≠ Char.ofNat 0)).take 512
      = (Utf8.lossy (payload.1.take 512)).filter (· ≠ Char.ofNat 0) := by
    refine take_of_length_le ?_
    exact le_trans (length_filter_le _ _)
      (le_trans (Utf8.length_lossy_le _) (length_take_le _ _))
  rw [withoutNul, sqlitePreview, previewBytes, hsmall, withoutNul, pgPreview, hlarge, hlossy,
    String.toList_ofList, String.toList_ofList, filter_filter]
  simp

/-! ### Sorted listings -/

theorem mergeSort_eq {α : Type} {le le' : α → α → Bool} {l l' : List α} (hp : l.Perm l')
    (htrans : ∀ a b c, le a b → le b c → le a c) (htotal : ∀ a b, le a b || le b a)
    (htrans' : ∀ a b c, le' a b → le' b c → le' a c) (htotal' : ∀ a b, le' a b || le' b a)
    (hsame : ∀ a ∈ l, ∀ b ∈ l, le a b = le' a b)
    (hanti : ∀ a ∈ l, ∀ b ∈ l, le a b → le b a → a = b) :
    l.mergeSort le = l'.mergeSort le' := by
  have hmem : ∀ {a}, a ∈ l.mergeSort le ↔ a ∈ l := (mergeSort_perm l le).mem_iff
  have hmem' : ∀ {a}, a ∈ l'.mergeSort le' ↔ a ∈ l :=
    (mergeSort_perm l' le').mem_iff.trans hp.mem_iff.symm
  have hsorted' : (l'.mergeSort le').Pairwise (fun a b => le a b = true) := by
    refine (pairwise_mergeSort htrans' htotal' l').imp_of_mem (fun ha hb h => ?_)
    rw [hsame _ (hmem'.mp ha) _ (hmem'.mp hb)]
    exact h
  have hanti' : ∀ a b, a ∈ l.mergeSort le → b ∈ l'.mergeSort le' → le a b = true →
      le b a = true → a = b :=
    fun a b ha hb => hanti a (hmem.mp ha) b (hmem'.mp hb)
  have hperm := (mergeSort_perm l le).trans (hp.trans (mergeSort_perm l' le').symm)
  exact List.Perm.eq_of_pairwise hanti' (pairwise_mergeSort htrans htotal l) hsorted' hperm

theorem listRows_eq {rows : List BackgroundRow} (scan scan' : ScanOrder BackgroundRow)
    (h : (rows.map BackgroundRow.createdAt).Nodup) : listRows scan rows = listRows scan' rows := by
  have hmem : ∀ {r}, r ∈ scan.order rows ↔ r ∈ rows := (scan.perm rows).mem_iff
  rw [listRows, listRows]
  refine congrArg (List.map _) (mergeSort_eq ((scan.perm rows).trans (scan'.perm rows).symm)
    ?_ ?_ ?_ ?_ (fun _ _ _ _ => rfl) ?_)
  · intro a b c
    simp only [decide_eq_true_eq]
    exact le_trans
  · intro a b
    simpa using le_total _ _
  · intro a b c
    simp only [decide_eq_true_eq]
    exact le_trans
  · intro a b
    simpa using le_total _ _
  · intro a ha b hb hab hba
    have htime : a.createdAt = b.createdAt :=
      le_antisymm (of_decide_eq_true hab) (of_decide_eq_true hba)
    exact inj_on_of_nodup_map h (hmem.mp ha) (hmem.mp hb) htime

variable {le : String → String → Bool}

theorem callOrder_iff {r r' : ToolCallRow} :
    callOrder le r r' = true ↔ r.dispatchedAt < r'.dispatchedAt ∨
      (r.dispatchedAt = r'.dispatchedAt ∧ le r.toolCallId r'.toolCallId = true) := by
  simp [callOrder]

theorem callOrder_trans (h : ∀ a b c, le a b → le b c → le a c)
    (a b c : ToolCallRow) (hab : callOrder le a b) (hbc : callOrder le b c) : callOrder le a c := by
  rw [callOrder_iff] at hab hbc ⊢
  rcases hab with hab | ⟨hab, hle⟩
  · rcases hbc with hbc | ⟨hbc, -⟩
    · exact Or.inl (lt_trans hab hbc)
    · exact Or.inl (hbc ▸ hab)
  · rcases hbc with hbc | ⟨hbc, hle'⟩
    · exact Or.inl (hab ▸ hbc)
    · exact Or.inr ⟨hab.trans hbc, h _ _ _ hle hle'⟩

theorem callOrder_total (h : ∀ a b, le a b || le b a)
    (a b : ToolCallRow) : callOrder le a b || callOrder le b a := by
  rw [Bool.or_eq_true, callOrder_iff, callOrder_iff]
  rcases lt_trichotomy a.dispatchedAt b.dispatchedAt with hlt | heq | hgt
  · exact Or.inl (Or.inl hlt)
  · rcases Bool.or_eq_true _ _ ▸ h a.toolCallId b.toolCallId with hle | hle
    · exact Or.inl (Or.inr ⟨heq, hle⟩)
    · exact Or.inr (Or.inr ⟨heq.symm, hle⟩)
  · exact Or.inr (Or.inl hgt)

theorem pairRows_eq {rows : List ToolCallRow} (scan scan' : ScanOrder ToolCallRow)
    (collation : Collation) {stepId : String} (hids : (rows.map ToolCallRow.toolCallId).Nodup)
    (h : ∀ r ∈ rows, ∀ r' ∈ rows, r.stepId = stepId → r'.stepId = stepId →
      r.dispatchedAt = r'.dispatchedAt →
      (collation.le r.toolCallId r'.toolCallId = true ↔ r.toolCallId ≤ r'.toolCallId)) :
    pairRows scan (fun a b => a ≤ b) stepId rows = pairRows scan' collation.le stepId rows := by
  have hmem : ∀ {r}, r ∈ scan.order (rows.filter (fun r => r.stepId = stepId)) ↔
      r ∈ rows ∧ r.stepId = stepId := by
    intro r
    rw [(scan.perm _).mem_iff, mem_filter, decide_eq_true_eq]
  rw [pairRows, pairRows]
  refine congrArg (List.map _) (mergeSort_eq ((scan.perm _).trans (scan'.perm _).symm)
    (callOrder_trans ?_) (callOrder_total ?_) (callOrder_trans collation.trans)
    (callOrder_total collation.total) ?_ ?_)
  · intro a b c
    simp only [decide_eq_true_eq]
    exact String.le_trans
  · intro a b
    simpa using String.le_total a b
  · intro a ha b hb
    obtain ⟨ha, hsa⟩ := hmem.mp ha
    obtain ⟨hb, hsb⟩ := hmem.mp hb
    rw [Bool.eq_iff_iff]
    refine callOrder_iff.trans (Iff.trans ?_ callOrder_iff.symm)
    refine or_congr_right (and_congr_right (fun htime => ?_))
    rw [decide_eq_true_eq]
    exact (h a ha b hb hsa hsb htime).symm
  · intro a ha b hb hab hba
    have hid : a.toolCallId = b.toolCallId := by
      rcases callOrder_iff.mp hab with hlt | ⟨htime, hle⟩
      · rcases callOrder_iff.mp hba with hgt | ⟨htime, -⟩
        · omega
        · omega
      · rcases callOrder_iff.mp hba with hgt | ⟨-, hge⟩
        · omega
        · exact String.le_antisymm (of_decide_eq_true hle) (of_decide_eq_true hge)
    exact inj_on_of_nodup_map hids (hmem.mp ha).1 (hmem.mp hb).1 hid

/-! ### The states of the two stores -/

structure Mirrors (s : RuntimeStore Empty) (p : PgRuntimeStore) : Prop where
  outputs : ∀ id, (s.outputRefs id).map (fun r => (r.payload, r.byteLength))
    = (p.outputRefs id).map (fun r => (r.payload, r.byteLength))
  background : s.backgroundTasks = p.backgroundTasks
  calls : s.toolCalls = p.toolCalls
  callIds : (s.toolCalls.map ToolCallRow.toolCallId).Nodup

variable {indexRefusal : String → Option String} {s : RuntimeStore Empty} {p : PgRuntimeStore}

theorem pgTexts_ok {texts : List String} (h : ∀ text ∈ texts, ¬ HasNul text) :
    pgTexts texts = .ok () := by
  rw [pgTexts, refuseIf, if_neg]
  rintro ⟨text, htext, hnul⟩
  exact h text htext hnul

theorem pgInsert_ok {texts keys : List String} (htexts : ∀ text ∈ texts, ¬ HasNul text)
    (hkeys : ∀ key ∈ keys, indexRefusal key = none) :
    pgInsert indexRefusal texts keys = .ok () := by
  rw [pgInsert, pgTexts_ok htexts, ok_bind, pgKeys, findSome?_eq_none_iff.mpr hkeys]

theorem sqliteLoad (s : RuntimeStore Empty) (id : String) : s.loadOutputPayload id =
    okOr ((s.outputRefs id).map (fun r => (r.payload, r.byteLength))) (.notFound id) := by
  have hnone : s.backend = none := by
    cases hb : s.backend with
    | none => rfl
    | some b => exact b.elim
  rw [RuntimeStore.loadOutputPayload, hnone]
  cases s.outputRefs id with
  | none => rfl
  | some row => rfl

theorem pgFetch {id : String} (h : ¬ HasNul id) : p.fetchPayloadRow id =
    okOr ((p.outputRefs id).map (fun r => (r.payload, r.byteLength))) (.notFound id) := by
  rw [PgRuntimeStore.fetchPayloadRow, pgTexts_ok (by simpa using h), ok_bind]
  cases p.outputRefs id with
  | none => rfl
  | some row => rfl

theorem sqliteWrite (s : RuntimeStore Empty) (id contentType : String) (payload : Payload) :
    s.writeOutputRef id contentType payload =
      ({ s with outputRefs := Function.update s.outputRefs id (some
          ⟨Sha256.hex payload.1, contentType, payload.1.length, Sha256.hex payload.1,
            sqlitePreview payload, payload.1⟩) },
        .ok ⟨id, Sha256.hex payload.1, contentType, payload.1.length, Sha256.hex payload.1,
          sqlitePreview payload, payload.1⟩) := by
  have hnone : s.backend = none := by
    cases hb : s.backend with
    | none => rfl
    | some b => exact b.elim
  rw [RuntimeStore.writeOutputRef, RuntimeStore.storedBytes, hnone]

theorem insertCall_ids {row : ToolCallRow} {rows : List ToolCallRow}
    (h : (rows.map ToolCallRow.toolCallId).Nodup) :
    ((insertCall row rows).map ToolCallRow.toolCallId).Nodup := by
  rw [insertCall]
  split
  · exact h
  · next hnew =>
    rw [map_append, nodup_append]
    refine ⟨h, nodup_singleton _, ?_⟩
    intro id hid id' hid' heq
    obtain ⟨r, hr, rfl⟩ := mem_map.mp hid
    obtain ⟨r', hr', rfl⟩ := mem_map.mp hid'
    rw [mem_singleton.mp hr'] at heq
    exact hnew ⟨r, hr, heq⟩

theorem completeRows_ids (now : Nat) (id : String) (result : List UInt8) (rows : List ToolCallRow) :
    (completeRows now id result rows).map ToolCallRow.toolCallId
      = rows.map ToolCallRow.toolCallId := by
  rw [completeRows, map_map]
  refine map_congr_left (fun r _ => ?_)
  show (if r.toolCallId = id then _ else r).toolCallId = _
  split <;> rfl

theorem Mirrors.write (h : Mirrors s p) (id contentType : String) (payload : Payload)
    (htexts : ∀ text ∈ [id, contentType], ¬ HasNul text)
    (hkeys : ∀ key ∈ RuntimeOp.newKeys s (.writeOutputRef id contentType payload),
      indexRefusal key = none)
    (hzero : ∀ b ∈ (payload.1.take 512).drop 256, b = 0) :
    Mirrors (s.writeOutputRef id contentType payload).1
        (p.writeOutputRef indexRefusal id contentType payload).1 ∧
      SameAnswer ((s.writeOutputRef id contentType payload).2.map .outputRef)
        ((p.writeOutputRef indexRefusal id contentType payload).2.map .outputRef) := by
  have hsome : (p.outputRefs id).isSome = (s.outputRefs id).isSome := by
    have hsame := congrArg Option.isSome (h.outputs id)
    rw [Option.isSome_map, Option.isSome_map] at hsame
    exact hsame.symm
  rw [RuntimeOp.newKeys] at hkeys
  rw [sqliteWrite, PgRuntimeStore.writeOutputRef, hsome, pgInsert_ok htexts hkeys]
  refine ⟨⟨fun id' => ?_, h.background, h.calls, h.callIds⟩, ?_⟩
  · dsimp only
    by_cases hid : id' = id
    · subst hid
      rw [Function.update_self, Function.update_self]
      rfl
    · rw [Function.update_of_ne hid, Function.update_of_ne hid]
      exact h.outputs id'
  · show RuntimeValue.outputRef _ = RuntimeValue.outputRef _
    rw [preview_eq hzero]

theorem Mirrors.register (h : Mirrors s p) (foreignKeys : Bool) (now : Nat)
    (handleId kind : String) (outputRefId : Option String) (preview : String)
    (htexts : ∀ text ∈ [handleId, kind, preview] ++ outputRefId.toList, ¬ HasNul text)
    (hkeys : ∀ key ∈ RuntimeOp.newKeys s (.registerBackground now handleId kind outputRefId preview),
      indexRefusal key = none)
    (hnew : ∀ r ∈ s.backgroundTasks, r.handleId ≠ handleId)
    (hrefs : ∀ id ∈ outputRefId, (s.outputRefs id).isSome) :
    Mirrors (s.registerBackground foreignKeys now handleId kind outputRefId preview).1
        (p.registerBackground indexRefusal now handleId kind outputRefId preview).1 ∧
      (s.registerBackground foreignKeys now handleId kind outputRefId preview).2 = .ok () ∧
      (p.registerBackground indexRefusal now handleId kind outputRefId preview).2 = .ok () := by
  have hkey : ¬ (foreignKeys = true ∧ ∃ id ∈ outputRefId, s.outputRefs id = none) := by
    rintro ⟨-, id, hid, hnone⟩
    have hsome := hrefs id hid
    rw [hnone] at hsome
    cases hsome
  have hfresh : ¬ ∃ r ∈ p.backgroundTasks, r.handleId = handleId := by
    rintro ⟨r, hr, heq⟩
    exact hnew r (h.background ▸ hr) heq
  have hkeep : s.backgroundTasks.filter (fun r => r.handleId ≠ handleId) = s.backgroundTasks :=
    filter_eq_self.mpr (fun r hr => decide_eq_true (hnew r hr))
  rw [RuntimeOp.newKeys, h.background] at hkeys
  rw [RuntimeStore.registerBackground, if_neg hkey, PgRuntimeStore.registerBackground,
    pgInsert_ok htexts hkeys]
  rw [if_neg hfresh, hkeep]
  refine ⟨⟨h.outputs, ?_, h.calls, h.callIds⟩, rfl, rfl⟩
  rw [h.background]

/-- **One portable call keeps the stores alike and is answered alike.** -/
theorem Mirrors.step (h : Mirrors s p) (foreignKeys : Bool) {op : RuntimeOp}
    (hop : Portable indexRefusal s op) :
    Mirrors (sqliteStep foreignKeys s op).1 (pgStep indexRefusal p op).1 ∧
      SameAnswer (sqliteStep foreignKeys s op).2 (pgStep indexRefusal p op).2 := by
  obtain ⟨htexts, hkeys, hin⟩ := hop
  cases op with
  | writeOutputRef id contentType payload => exact h.write id contentType payload htexts hkeys hin
  | readOutput id =>
    refine ⟨h, ?_⟩
    have hnul : ¬ HasNul id := htexts id (by simp [RuntimeOp.texts])
    show SameAnswer (((s.loadOutputPayload id).map Prod.fst).map .bytes)
      (((p.fetchPayloadRow id).map Prod.fst).map .bytes)
    rw [sqliteLoad, pgFetch hnul, h.outputs id]
    cases p.outputRefs id with
    | none => exact rfl
    | some row => exact rfl
  | readOutputRange id offset max =>
    refine ⟨h, ?_⟩
    have hnul : ¬ HasNul id := htexts id (by simp [RuntimeOp.texts])
    show SameAnswer ((s.readOutputRange id offset max).map _)
      ((p.readOutputRange id offset max).map _)
    rw [RuntimeStore.readOutputRange, sqliteLoad, PgRuntimeStore.readOutputRange, pgFetch hnul,
      h.outputs id]
    cases p.outputRefs id with
    | none => exact rfl
    | some row => exact rfl
  | registerBackground now handleId kind outputRefId preview =>
    obtain ⟨hm, hs, hp⟩ :=
      h.register foreignKeys now handleId kind outputRefId preview htexts hkeys hin.1 hin.2
    refine ⟨hm, ?_⟩
    show SameAnswer (Except.map _ _) (Except.map _ _)
    rw [hs, hp]
    exact rfl
  | stopBackground now handleId =>
    have hok : pgTexts [handleId] = .ok () := pgTexts_ok htexts
    rw [sqliteStep, pgStep, RuntimeStore.stopBackground, PgRuntimeStore.stopBackground, hok,
      h.background]
    split
    · exact ⟨⟨h.outputs, rfl, h.calls, h.callIds⟩, rfl⟩
    · exact ⟨h, rfl⟩
  | listBackground scan scan' =>
    refine ⟨h, ?_⟩
    show RuntimeValue.background (listRows scan s.backgroundTasks)
      = RuntimeValue.background (listRows scan' p.backgroundTasks)
    rw [← h.background, listRows_eq scan scan' hin]
  | recordToolCall now toolCallId stepId toolName effectClass argumentsHash =>
    rw [RuntimeOp.newKeys, h.calls] at hkeys
    have hok := pgInsert_ok htexts hkeys
    rw [RuntimeOp.texts] at hok
    rw [sqliteStep, pgStep, RuntimeStore.recordToolCall, PgRuntimeStore.recordToolCall, hok,
      h.calls]
    exact ⟨⟨h.outputs, h.background, rfl, insertCall_ids (h.calls ▸ h.callIds)⟩, rfl⟩
  | recordToolResult now toolCallId result =>
    have hok : pgTexts [toolCallId] = .ok () := pgTexts_ok htexts
    rw [sqliteStep, pgStep, RuntimeStore.recordToolResult, PgRuntimeStore.recordToolResult, hok,
      h.calls]
    split
    · refine ⟨⟨h.outputs, h.background, rfl, ?_⟩, rfl⟩
      show ((completeRows now toolCallId result p.toolCalls).map ToolCallRow.toolCallId).Nodup
      rw [completeRows_ids, ← h.calls]
      exact h.callIds
    · exact ⟨h, rfl⟩
  | toolPairs scan scan' collation stepId =>
    refine ⟨h, ?_⟩
    have hpairs : p.toolPairs scan' collation.le stepId
        = .ok (pairRows scan' collation.le stepId p.toolCalls) := by
      have hok : pgTexts [stepId] = .ok () := pgTexts_ok htexts
      rw [PgRuntimeStore.toolPairs, hok]
      rfl
    show SameAnswer (.ok (.pairs (pairRows scan (fun a b => a ≤ b) stepId s.toolCalls)))
      ((p.toolPairs scan' collation.le stepId).map .pairs)
    rw [hpairs, ← h.calls, ← pairRows_eq scan scan' collation h.callIds hin]
    exact rfl

/-! ### Every run -/

theorem parity_run (foreignKeys : Bool) (ops : List RuntimeOp) :
    ∀ {s : RuntimeStore Empty} {p : PgRuntimeStore}, Mirrors s p →
    Admits (sqliteStep foreignKeys) (Portable indexRefusal) s ops →
    List.Forall₂ SameAnswer (replies (sqliteStep foreignKeys) s ops)
      (replies (pgStep indexRefusal) p ops) := by
  induction ops with
  | nil => intro s p _ _; exact .nil
  | cons op ops ih =>
    intro s p h hok
    obtain ⟨hm, ha⟩ := h.step foreignKeys hok.1
    exact .cons ha (ih hm hok.2)

theorem mirrors_fresh : Mirrors (RuntimeStore.fresh Empty) .fresh :=
  ⟨fun _ => rfl, rfl, rfl, nodup_nil⟩

/-- **The two stores answer every run of portable calls alike**, call by call. -/
theorem runtime_parity (foreignKeys : Bool) (indexRefusal : String → Option String)
    (ops : List RuntimeOp)
    (h : Admits (sqliteStep foreignKeys) (Portable indexRefusal) (RuntimeStore.fresh Empty) ops) :
    List.Forall₂ SameAnswer (replies (sqliteStep foreignKeys) (RuntimeStore.fresh Empty) ops)
      (replies (pgStep indexRefusal) .fresh ops) :=
  parity_run foreignKeys ops mirrors_fresh h

/-- An output, an operation that refers to it, and a tool call with its result. -/
def portableCalls : List RuntimeOp :=
  [.writeOutputRef "out-1" "text/plain" ⟨[65], by decide⟩,
    .registerBackground 1 "bg-1" "shell" (some "out-1") "A",
    .recordToolCall 2 "call-1" "step-1" "read_file" "read" "hash",
    .recordToolResult 3 "call-1" [66], .stopBackground 4 "bg-1",
    .listBackground (.inserted _) (.inserted _), .readOutputRange "out-1" 0 10, .readOutput "out-2"]

/-- A server whose indexes take keys of up to 2,704 bytes. -/
def pageRefusal (key : String) : Option String :=
  if 2704 < key.utf8ByteSize then some "index row size exceeds btree version 4 maximum 2704"
  else none

theorem runtime_parity_portableCalls :
    Admits (sqliteStep true) (Portable pageRefusal) (RuntimeStore.fresh Empty) portableCalls ∧
      List.Forall₂ SameAnswer
        (replies (sqliteStep true) (RuntimeStore.fresh Empty) portableCalls)
        (replies (pgStep pageRefusal) .fresh portableCalls) := by
  have h : Admits (sqliteStep true) (Portable pageRefusal) (RuntimeStore.fresh Empty)
      portableCalls := by
    decide +kernel
  exact ⟨h, runtime_parity true pageRefusal portableCalls h⟩

/-- A payload one byte longer than SQLite shows of it. -/
def longPayload : Payload := ⟨List.replicate 257 65, by rw [List.length_replicate]; decide⟩

/-- Its previews differ. -/
theorem not_parity_longPayload :
    ¬ List.Forall₂ SameAnswer
      (replies (sqliteStep true) (RuntimeStore.fresh Empty)
        [.writeOutputRef "out-1" "text/plain" longPayload])
      (replies (pgStep pageRefusal) .fresh
        [.writeOutputRef "out-1" "text/plain" longPayload]) := by
  have hsqlite : (withoutNul (sqlitePreview longPayload)).toList.length = 256 := by
    rw [withoutNul, sqlitePreview, String.toList_ofList, String.toList_ofList]
    decide +kernel
  have hpg : (withoutNul (pgPreview longPayload)).toList.length = 257 := by
    rw [withoutNul, pgPreview, String.toList_ofList, String.toList_ofList]
    decide +kernel
  have hok : pgInsert pageRefusal ["out-1", "text/plain"]
      (if (PgRuntimeStore.fresh.outputRefs "out-1").isSome then [] else ["out-1"]) = .ok () := by
    decide +kernel
  intro h
  cases h with
  | cons hanswer _ =>
    rw [sqliteStep, pgStep, sqliteWrite, PgRuntimeStore.writeOutputRef, hok] at hanswer
    have heq := RuntimeValue.outputRef.inj hanswer
    have htext := congrArg (fun r => r.previewText.toList.length) heq
    rw [hsqlite, hpg] at htext
    exact absurd htext (by decide)

end Modbit
