import Modbit.EventStore.ObjectStore
import Modbit.Lib.JsonText
import Modbit.Lib.Run
import Mathlib.Data.List.Induction
import Mathlib.Data.Set.Basic

/-!
# What an object store holds

`held` is what a list of puts and deletes leaves under each key, and `Meets` is the
contract of a backend on the runs over some set of keys: `get` answers what is held, and
an operation on one key is not seen through another.

The table keeps the contract for all keys, because the path tells the keys apart.  The
files keep it on a set of keys exactly when the set is `Separate`
(`objectStores_meet_iff`): the path of the metadata forgets the extension, so two names
with one stem share it, and a name with the extension `meta` is its own.
-/

namespace Modbit

open Lib List

/-! ### The contract -/

inductive ObjectOp where
  | put (key : ObjectKey) (contentType : String) (bytes : List UInt8)
      (retentionUntilMs : Option Int)
  | delete (key : ObjectKey)

def ObjectOp.key : ObjectOp → ObjectKey
  | .put key _ _ _ => key
  | .delete key => key

inductive ObjectReply where
  | stored (r : Except ObjectStoreError ObjectMeta)
  | deleted (r : Except ObjectStoreError Unit)

def ObjectStore.step {σ : Type} (B : ObjectStore σ) (s : σ) : ObjectOp → σ × ObjectReply
  | .put key contentType bytes retentionUntilMs =>
    (B.put s key contentType bytes retentionUntilMs).map id .stored
  | .delete key => (B.delete s key).map id .deleted

abbrev Holdings := ObjectKey → Option (List UInt8 × ObjectMeta)

def Holdings.after (h : Holdings) : ObjectOp → Holdings
  | .put key contentType bytes retentionUntilMs =>
    Function.update h key (some (bytes, metaFor key contentType bytes retentionUntilMs))
  | .delete key => Function.update h key none

/-- The last put under each key, unless it was deleted since. -/
def held (ops : List ObjectOp) : Holdings := ops.foldl Holdings.after (fun _ => none)

/-- What `get` is to answer. -/
def expected (h : Holdings) (key : ObjectKey) : Except ObjectStoreError (List UInt8 × ObjectMeta) :=
  okOr (h key) (.notFound key.path)

/-- A backend keeps the contract on the runs over a set of keys. -/
structure Meets {σ : Type} (B : ObjectStore σ) (s : σ) (K : Set ObjectKey) : Prop where
  get : ∀ ops : List ObjectOp, (∀ op ∈ ops, op.key ∈ K) → ∀ key ∈ K,
    B.get (run B.step s ops) key = expected (held ops) key
  isolated : ∀ ops : List ObjectOp, (∀ op ∈ ops, op.key ∈ K) → ∀ op : ObjectOp, op.key ∈ K →
    ∀ key ∈ K, op.key ≠ key →
    let before := run B.step s ops
    let after := (B.step before op).1
    B.get after key = B.get before key ∧
      (∀ offset max, B.getRange after key offset max = B.getRange before key offset max) ∧
      B.contains after key = B.contains before key

variable {σ : Type} {B : ObjectStore σ} {s : σ} {K : Set ObjectKey} {h : Holdings}

theorem held_concat (ops : List ObjectOp) (op : ObjectOp) :
    held (ops ++ [op]) = (held ops).after op := by
  rw [held, foldl_append]
  rfl

theorem held_singleton (op : ObjectOp) : held [op] = Holdings.after (fun _ => none) op := rfl

variable {op : ObjectOp} {key : ObjectKey}

theorem after_other (hne : op.key ≠ key) : h.after op key = h key := by
  cases op with
  | put key' c b r => exact Function.update_of_ne (Ne.symm hne) _ _
  | delete key' => exact Function.update_of_ne (Ne.symm hne) _ _

/-- A state and what it holds, with the answers that follow. -/
structure Represents (B : ObjectStore σ) (K : Set ObjectKey)
    (range : ObjectKey → Option (List UInt8 × ObjectMeta) → Nat → Nat →
      Option (Except ObjectStoreError (List UInt8 × Nat)))
    (R : σ → Holdings → Prop) : Prop where
  step : ∀ s h op, R s h → op.key ∈ K → R (B.step s op).1 (h.after op)
  get : ∀ s h, R s h → ∀ key ∈ K, B.get s key = expected h key
  getRange : ∀ s h, R s h → ∀ key ∈ K, B.getRange s key = range key (h key)
  contains : ∀ s h, R s h → ∀ key ∈ K, B.contains s key = .ok (h key).isSome

/-- **A backend whose states represent what is held keeps the contract.** -/
theorem Represents.meets {range R} (hrep : Represents B K range R) (h0 : R s (fun _ => none)) :
    Meets B s K := by
  have hrun : ∀ ops : List ObjectOp, (∀ op ∈ ops, op.key ∈ K) →
      R (run B.step s ops) (held ops) := by
    intro ops
    induction ops using List.reverseRecOn with
    | nil => exact fun _ => h0
    | append_singleton ops op ih =>
      intro hK
      have hprev := ih (fun o ho => hK o (mem_append_left _ ho))
      rw [run_append, held_concat]
      exact hrep.step _ _ op hprev (hK op (by simp))
  refine ⟨fun ops hK => hrep.get _ _ (hrun ops hK), fun ops hK op hop key hkey hne => ?_⟩
  have hbefore := hrun ops hK
  have hafter := hrep.step _ _ op hbefore hop
  have hsame : (held ops).after op key = held ops key := after_other hne
  refine ⟨?_, fun offset max => ?_, ?_⟩
  · rw [hrep.get _ _ hafter key hkey, hrep.get _ _ hbefore key hkey, expected, hsame, expected]
  · rw [hrep.getRange _ _ hafter key hkey, hrep.getRange _ _ hbefore key hkey, hsame]
  · rw [hrep.contains _ _ hafter key hkey, hrep.contains _ _ hbefore key hkey, hsame]

section

variable (key : ObjectKey) (c : String) (bytes : List UInt8) (r : Option Int)

theorem metaFor_key : (metaFor key c bytes r).key = key := rfl

theorem metaFor_sha256 : (metaFor key c bytes r).sha256 = Sha256.hex bytes := rfl

theorem metaFor_contentType : (metaFor key c bytes r).contentType = c := rfl

end

/-- Everything held carries the digest of its bytes. -/
def Digested (h : Holdings) : Prop := ∀ key x, h key = some x → Sha256.hex x.1 = x.2.sha256

theorem Digested.after (hd : Digested h) (op : ObjectOp) : Digested (h.after op) := by
  intro key x hx
  by_cases hne : op.key = key
  · cases op with
    | put key' c b r =>
      subst hne
      rw [Holdings.after, ObjectOp.key, Function.update_self] at hx
      rw [← Option.some.inj hx]
      rfl
    | delete key' =>
      subst hne
      rw [Holdings.after, ObjectOp.key, Function.update_self] at hx
      cases hx
  · rw [after_other hne] at hx
    exact hd key x hx

theorem verified_digested {x : List UInt8 × ObjectMeta}
    (hx : Sha256.hex x.1 = x.2.sha256) : verified key x.1 x.2 = .ok x :=
  if_neg (not_not.mpr hx)

/-! ### The table -/

theorem mem_split {c : Char} {l₁ l₂ m₁ m₂ : List Char} (h₁ : c ∉ l₁) (h₂ : c ∉ l₂)
    (h : l₁ ++ c :: m₁ = l₂ ++ c :: m₂) : l₁ = l₂ ∧ m₁ = m₂ := by
  have hs := Text.splitOnce_append l₁ m₁ h₁
  rw [h, Text.splitOnce_append l₂ m₂ h₂] at hs
  exact ⟨(Prod.mk.inj (Option.some.inj hs)).1.symm, (Prod.mk.inj (Option.some.inj hs)).2.symm⟩

/-- **The path tells the keys apart**: no component holds a slash. -/
theorem path_injective : Function.Injective ObjectKey.path := by
  intro k k' he
  have hchars := congrArg String.toList he
  unfold ObjectKey.path at hchars
  simp only [String.toList_append, append_assoc] at hchars
  have hrest := append_cancel_left hchars
  obtain ⟨ht, hrest⟩ := mem_split k.tenant_clean.2.1 k'.tenant_clean.2.1 hrest
  have hrest := append_cancel_left hrest
  obtain ⟨hk, hn⟩ := mem_split k.task_clean.2.1 k'.task_clean.2.1 hrest
  cases k
  cases k'
  simp only at ht hk hn
  simp only [ObjectKey.mk.injEq]
  exact ⟨String.ext ht, String.ext hk, String.ext hn⟩

def TableHolds (t : ObjectTable) (h : Holdings) : Prop :=
  Digested h ∧ ∀ key, t.loadMeta key = (expected h key).map Prod.swap

variable {other : ObjectKey}

theorem loadMeta_filter {t : ObjectTable} (hne : other ≠ key) :
    ObjectTable.loadMeta (t.filter (fun r => r.path ≠ other.path)) key = t.loadMeta key := by
  have hpath : key.path ≠ other.path := fun he => hne (path_injective he).symm
  have hfind : (t.filter (fun r => r.path ≠ other.path)).find? (fun r => r.path = key.path)
      = t.find? (fun r => r.path = key.path) := by
    rw [find?_filter]
    congr 1
    funext r
    by_cases hr : r.path = key.path
    · simp [hr, hpath]
    · simp [hr]
  rw [ObjectTable.loadMeta, hfind]
  rfl

theorem loadMeta_filter_self (t : ObjectTable) (key : ObjectKey) :
    ObjectTable.loadMeta (t.filter (fun r => r.path ≠ key.path)) key
      = .error (.notFound key.path) := by
  have hfind : (t.filter (fun r => r.path ≠ key.path)).find? (fun r => r.path = key.path)
      = none := by
    rw [find?_eq_none]
    intro r hr
    simpa using (mem_filter.mp hr).2
  rw [ObjectTable.loadMeta, hfind]

theorem TableHolds.step {t : ObjectTable} (ht : TableHolds t h) (op : ObjectOp) :
    TableHolds (sqliteObjectStore.step t op).1 (h.after op) := by
  refine ⟨ht.1.after op, fun key => ?_⟩
  by_cases hne : op.key = key
  · subst hne
    cases op with
    | put key c b r =>
      have hfind : List.find? (fun row : ObjectRow => row.path = key.path)
          (sqliteObjectStore.step t (.put key c b r)).1 = some _ :=
        find?_cons_of_pos (by simp)
      rw [ObjectTable.loadMeta, ObjectOp.key, hfind, expected, Holdings.after, Function.update_self]
      rfl
    | delete key =>
      have hstate : (sqliteObjectStore.step t (.delete key)).1
          = t.filter (fun r => r.path ≠ key.path) := by
        show ((ObjectTable.delete t key).map id ObjectReply.deleted).1 = _
        rw [ObjectTable.delete]
        split <;> rfl
      rw [hstate, ObjectOp.key, loadMeta_filter_self, expected, Holdings.after,
        Function.update_self]
      rfl
  · have hsame : expected (h.after op) key = expected h key := by
      rw [expected, after_other hne, expected]
    rw [hsame, ← ht.2 key]
    cases op with
    | put other c b r =>
      have hpath : other.path ≠ key.path := fun he => hne (path_injective he)
      have hfind : List.find? (fun row : ObjectRow => row.path = key.path)
          (sqliteObjectStore.step t (.put other c b r)).1
          = List.find? (fun row : ObjectRow => row.path = key.path)
            (t.filter (fun row => row.path ≠ other.path)) :=
        find?_cons_of_neg (by simpa using hpath)
      rw [ObjectTable.loadMeta, hfind]
      exact loadMeta_filter hne
    | delete other =>
      have hstate : (sqliteObjectStore.step t (.delete other)).1
          = t.filter (fun r => r.path ≠ other.path) := by
        show ((ObjectTable.delete t other).map id ObjectReply.deleted).1 = _
        rw [ObjectTable.delete]
        split <;> rfl
      rw [hstate]
      exact loadMeta_filter hne

def tableRange (key : ObjectKey) (x : Option (List UInt8 × ObjectMeta)) (offset max : Nat) :
    Option (Except ObjectStoreError (List UInt8 × Nat)) :=
  match x with
  | none => some (.error (.notFound key.path))
  | some (bytes, m) =>
    let start := min offset bytes.length
    let stop := min ((offset + max) % 2 ^ 64) bytes.length
    if start ≤ stop then some (.ok ((bytes.take stop).drop start, m.byteLength)) else none

/-- **The table keeps the contract for all keys.** -/
theorem sqlite_meets : Meets sqliteObjectStore [] Set.univ := by
  have hrep : Represents sqliteObjectStore Set.univ tableRange TableHolds := by
    refine ⟨fun t h op ht _ => ht.step op, fun t h ht key _ => ?_, fun t h ht key _ => ?_,
      fun t h ht key _ => ?_⟩
    · show t.loadMeta key >>= (fun x => verified key x.2 x.1) = _
      rw [ht.2 key, expected]
      cases hx : h key with
      | none => rfl
      | some x =>
        rw [okOr_some, Except.map, ok_bind]
        exact verified_digested (ht.1 key x hx)
    · show ObjectTable.getRange t key = _
      funext offset max
      rw [ObjectTable.getRange, ht.2 key, expected]
      cases h key with
      | none => rfl
      | some x => rfl
    · show ObjectTable.contains t key = _
      rw [ObjectTable.contains, ht.2 key, expected]
      cases h key with
      | none => rfl
      | some x => rfl
  refine hrep.meets ⟨fun key x hx => ?_, fun key => rfl⟩
  cases hx

/-! ### The files -/

theorem filePath_injective : Function.Injective ObjectKey.filePath := by
  intro k k' he
  cases k
  cases k'
  simpa [ObjectKey.filePath] using he

theorem name_ne_dots (key : ObjectKey) : key.name ≠ ".." := by
  intro he
  have hclean := key.name_clean.2.2.2.1
  rw [he] at hclean
  exact hclean (infix_refl _)

theorem metaPath_eq (key : ObjectKey) : key.metaPath =
    ["tenants", key.tenant, "tasks", key.task, FilePath.withExtensionName "meta" key.name] := by
  simp [ObjectKey.metaPath, ObjectKey.filePath, FilePath.withExtension, name_ne_dots]

theorem metaPath_of_filePath (he : key.filePath = other.metaPath) :
    key.metaPath = key.filePath := by
  rw [metaPath_eq] at he
  simp only [ObjectKey.filePath, List.cons.injEq, true_and, and_true] at he
  obtain ⟨ht, hk, hn⟩ := he
  rw [metaPath_eq, ObjectKey.filePath, hn,
    FilePath.withExtensionName_idem (by decide) other.name_clean.1]

/-- No name of the keys has the extension `meta`, and two names of one task have
different stems. -/
def Separate (K : Set ObjectKey) : Prop :=
  (∀ key ∈ K, key.metaPath ≠ key.filePath) ∧
    ∀ key ∈ K, ∀ other ∈ K, key.metaPath = other.metaPath → key = other

theorem Separate.filePath_ne (hK : Separate K) (hkey : key ∈ K) : key.filePath ≠ other.metaPath :=
  fun he => hK.1 key hkey (metaPath_of_filePath he)

def FilesHold (json : MetaJson) (K : Set ObjectKey) (files : ObjectFiles) (h : Holdings) : Prop :=
  Digested h ∧ ∀ key ∈ K, files key.filePath = (h key).map Prod.fst ∧
    files key.metaPath = (h key).map (fun x => json.toVec x.2)

variable {json : MetaJson}

theorem FilesHold.write {files : ObjectFiles} (hf : FilesHold json K files h)
    (hK : Separate K) (hop : op.key ∈ K) {x : Option (List UInt8 × ObjectMeta)}
    (hx : h.after op = Function.update h op.key x) :
    FilesHold json K
      (Function.update (Function.update files op.key.filePath (x.map Prod.fst)) op.key.metaPath
        (x.map (fun x => json.toVec x.2))) (h.after op) := by
  refine ⟨hf.1.after op, fun key hkey => ?_⟩
  rw [hx]
  by_cases hne : op.key = key
  · subst hne
    rw [Function.update_of_ne (hK.filePath_ne hop), Function.update_self, Function.update_self,
      Function.update_self]
    exact ⟨rfl, rfl⟩
  · have hmeta : key.metaPath ≠ op.key.metaPath := fun he => hne (hK.2 key hkey _ hop he).symm
    have hfile : key.filePath ≠ op.key.filePath := fun he => hne (filePath_injective he).symm
    rw [Function.update_of_ne (hK.filePath_ne hkey), Function.update_of_ne hfile,
      Function.update_of_ne hmeta, Function.update_of_ne (Ne.symm (hK.filePath_ne hop)),
      Function.update_of_ne (Ne.symm hne)]
    exact hf.2 key hkey

theorem FilesHold.step {files : ObjectFiles} (hf : FilesHold json K files h)
    (hK : Separate K) (hop : op.key ∈ K) :
    FilesHold json K ((localFsObjectStore json).step files op).1 (h.after op) := by
  cases op with
  | put key c b r =>
    exact hf.write hK hop (x := some (b, metaFor key c b r)) rfl
  | delete key =>
    show FilesHold json K ((ObjectFiles.delete files key).map id ObjectReply.deleted).1 _
    rw [ObjectFiles.delete]
    split
    · next hnone =>
      -- nothing was there, so nothing is held to be removed
      have hheld : h key = none := Option.map_eq_none_iff.mp ((hf.2 key hop).1 ▸ hnone)
      have hsame : h.after (.delete key) = h := Function.update_eq_self_iff.mpr hheld.symm
      rw [hsame]
      exact hf
    · exact hf.write hK hop (x := none) rfl

def fileRange (key : ObjectKey) (x : Option (List UInt8 × ObjectMeta)) (offset max : Nat) :
    Option (Except ObjectStoreError (List UInt8 × Nat)) :=
  match x with
  | none => some (.error (.notFound key.path))
  | some (bytes, _) =>
    if max < 2 ^ 63 then
      some (.ok ((bytes.drop (min offset bytes.length)).take max, bytes.length))
    else none

theorem localFs_meets (json : MetaJson) (hK : Separate K) :
    Meets (localFsObjectStore json) (fun _ => none) K := by
  have hrep : Represents (localFsObjectStore json) K fileRange (FilesHold json K) := by
    refine ⟨fun files h op hf hop => hf.step hK hop, fun files h hf key hkey => ?_,
      fun files h hf key hkey => ?_, fun files h hf key hkey => ?_⟩
    · show ObjectFiles.get json files key = _
      rw [ObjectFiles.get, (hf.2 key hkey).1, (hf.2 key hkey).2, expected]
      cases hx : h key with
      | none => rfl
      | some x =>
        simp only [Option.map_some, okOr_some, ok_bind, json.fromSlice_toVec]
        exact verified_digested (hf.1 key x hx)
    · show ObjectFiles.getRange files key = _
      funext offset max
      rw [ObjectFiles.getRange, (hf.2 key hkey).1]
      cases h key with
      | none => rfl
      | some x => rfl
    · show ObjectFiles.contains files key = _
      rw [ObjectFiles.contains, (hf.2 key hkey).1, Option.isSome_map]
  refine hrep.meets ⟨fun key x hx => ?_, fun key _ => ⟨rfl, rfl⟩⟩
  cases hx

/-! ### Keys that share a file -/

theorem get_ownMeta (json : MetaJson) (he : key.metaPath = key.filePath)
    (c : String) {x : List UInt8 × ObjectMeta}
    (hget : (localFsObjectStore json).get
      (run (localFsObjectStore json).step (fun _ => none) [.put key c [] none]) key = .ok x) :
    x.1 = json.toVec (metaFor key c [] none) := by
  have hfile : run (localFsObjectStore json).step (fun _ => none) [.put key c [] none]
      key.filePath = some (json.toVec (metaFor key c [] none)) := by
    show Function.update _ key.metaPath _ key.filePath = _
    rw [he, Function.update_self]
    rfl
  rw [show (localFsObjectStore json).get = ObjectFiles.get json from rfl, ObjectFiles.get, he,
    hfile] at hget
  simp only [okOr_some, ok_bind, json.fromSlice_toVec, verified] at hget
  split at hget
  · cases hget
  · rw [← Except.ok.inj hget]

theorem get_sharedMeta (json : MetaJson) (hown : key.metaPath ≠ key.filePath) (hne : key ≠ other)
    (he : key.metaPath = other.metaPath) :
    (localFsObjectStore json).get (run (localFsObjectStore json).step (fun _ => none)
      [.put key "" [] none, .put other "" [] none]) key
        = .ok ([], metaFor other "" [] none) := by
  have hfile : key.filePath ≠ other.filePath := fun h => hne (filePath_injective h)
  have hmeta : key.filePath ≠ other.metaPath := fun h => hown (metaPath_of_filePath h)
  have hbytes : run (localFsObjectStore json).step (fun _ => none)
      [.put key "" [] none, .put other "" [] none] key.filePath = some [] := by
    show Function.update (Function.update (Function.update (Function.update _ key.filePath _)
      key.metaPath _) other.filePath _) other.metaPath _ key.filePath = _
    rw [Function.update_of_ne hmeta, Function.update_of_ne hfile,
      Function.update_of_ne (Ne.symm hown), Function.update_self]
  have htext : run (localFsObjectStore json).step (fun _ => none)
      [.put key "" [] none, .put other "" [] none] key.metaPath
        = some (json.toVec (metaFor other "" [] none)) := by
    show Function.update _ other.metaPath _ key.metaPath = _
    rw [he, Function.update_self]
    rfl
  rw [show (localFsObjectStore json).get = ObjectFiles.get json from rfl, ObjectFiles.get, hbytes,
    htext]
  simp only [okOr_some, ok_bind, json.fromSlice_toVec]
  exact verified_digested (x := ([], metaFor other "" [] none)) (metaFor_sha256 ..).symm

theorem separate_of_meets
    (hm : Meets (localFsObjectStore json) (fun _ => none) K) : Separate K := by
  have hown : ∀ key ∈ K, key.metaPath ≠ key.filePath := by
    intro key hkey he
    have hempty : ∀ c, json.toVec (metaFor key c [] none) = [] := by
      intro c
      have hget := hm.get [.put key c [] none] (by simpa [ObjectOp.key] using hkey) key hkey
      have hheld : expected (held [.put key c [] none]) key = .ok ([], metaFor key c [] none) := by
        rw [expected, held_singleton, Holdings.after, Function.update_self]
        rfl
      rw [hheld] at hget
      exact (get_ownMeta json he c hget).symm
    have hsame : metaFor key "a" [] none = metaFor key "b" [] none := by
      have hvec := (hempty "a").trans (hempty "b").symm
      have hread := json.fromSlice_toVec (metaFor key "a" [] none)
      rw [hvec, json.fromSlice_toVec] at hread
      exact (Option.some.inj hread).symm
    have htype := congrArg ObjectMeta.contentType hsame
    rw [metaFor_contentType, metaFor_contentType] at htype
    exact absurd htype (by decide)
  refine ⟨hown, fun key hkey other hother he => ?_⟩
  by_contra hne
  have hget := hm.get [.put key "" [] none, .put other "" [] none]
    (by simpa [ObjectOp.key] using ⟨hkey, hother⟩) key hkey
  have hheld : expected (held [.put key "" [] none, .put other "" [] none]) key
      = .ok ([], metaFor key "" [] none) := by
    rw [expected, ← singleton_append, held_concat, held_singleton, Holdings.after,
      Function.update_of_ne hne, Holdings.after, Function.update_self]
    rfl
  rw [get_sharedMeta json (hown key hkey) hne he, hheld] at hget
  have hkey := congrArg ObjectMeta.key (Prod.mk.inj (Except.ok.inj hget)).2
  rw [metaFor_key, metaFor_key] at hkey
  exact hne hkey.symm

/-- **The table keeps the contract for all keys, the files on separate keys only.**  On
a set of keys every run is answered as it should be exactly when no name has the
extension `meta` and no two names of one task have the same stem. -/
theorem objectStores_meet_iff (json : MetaJson) (K : Set ObjectKey) :
    Meets sqliteObjectStore [] Set.univ ∧
      (Meets (localFsObjectStore json) (fun _ => none) K ↔ Separate K) :=
  ⟨sqlite_meets, separate_of_meets, localFs_meets json⟩

/-! ### A run that loses an object -/

/-- What stands in front of a field's value: a bracket or a comma, and the name. -/
def fieldLead (mark name : String) : List Char := mark.toList ++ JsonText.quoted name ++ [':']

def metaChars (m : ObjectMeta) : List Char :=
  fieldLead "\x7b" "key" ++ (fieldLead "\x7b" "tenant" ++ (JsonText.quoted m.key.tenant ++
  (fieldLead "," "task" ++ (JsonText.quoted m.key.task ++
  (fieldLead "," "name" ++ (JsonText.quoted m.key.name ++
  (fieldLead "\x7d," "sha256" ++ (JsonText.quoted m.sha256 ++
  (fieldLead "," "content_type" ++ (JsonText.quoted m.contentType ++
  (fieldLead "," "byte_length" ++ (Nat.toDigits 10 m.byteLength ++
  (fieldLead "," "retention_until_ms" ++
  (m.retentionUntilMs.elim "null".toList JsonText.intChars ++ ['\x7d']))))))))))))))

def readRetention (l : List Char) : Option (Option Int × List Char) :=
  match JsonText.readInt l with
  | some (i, rest) => some (some i, rest)
  | none => (JsonText.readLit "null".toList l).map (fun rest => (none, rest))

def readMeta (l : List Char) : Option ObjectMeta := do
  let l ← JsonText.readLit (fieldLead "\x7b" "key") l
  let l ← JsonText.readLit (fieldLead "\x7b" "tenant") l
  let (tenant, l) ← JsonText.readQuoted l
  let l ← JsonText.readLit (fieldLead "," "task") l
  let (task, l) ← JsonText.readQuoted l
  let l ← JsonText.readLit (fieldLead "," "name") l
  let (name, l) ← JsonText.readQuoted l
  let l ← JsonText.readLit (fieldLead "\x7d," "sha256") l
  let (sha256, l) ← JsonText.readQuoted l
  let l ← JsonText.readLit (fieldLead "," "content_type") l
  let (contentType, l) ← JsonText.readQuoted l
  let l ← JsonText.readLit (fieldLead "," "byte_length") l
  let (byteLength, l) ← JsonText.readNat l
  let l ← JsonText.readLit (fieldLead "," "retention_until_ms") l
  let (retention, _) ← readRetention l
  if h : CleanComponent tenant ∧ CleanComponent task ∧ CleanComponent name then
    some ⟨⟨tenant, task, name, h.1, h.2.1, h.2.2⟩, sha256, contentType, byteLength, retention⟩
  else none

theorem readRetention_append (r : Option Int) {rest : List Char} (h : JsonText.Stops rest) :
    readRetention (r.elim "null".toList JsonText.intChars ++ rest) = some (r, rest) := by
  cases r with
  | none => rfl
  | some i =>
    show readRetention (JsonText.intChars i ++ rest) = _
    rw [readRetention, JsonText.readInt_append i h]

theorem stops_fieldLead (name : String) (rest : List Char) :
    JsonText.Stops (fieldLead "," name ++ rest) := by
  intro c hc
  rw [← Option.some.inj hc]
  rfl

theorem readLit_bind {α : Type} (lit rest : List Char) (next : List Char → Option α) :
    (JsonText.readLit lit (lit ++ rest) >>= next) = next rest := by
  rw [JsonText.readLit_append]
  rfl

theorem readQuoted_bind {α : Type} (text : String) (rest : List Char)
    (next : String × List Char → Option α) :
    (JsonText.readQuoted (JsonText.quoted text ++ rest) >>= next) = next (text, rest) := by
  rw [JsonText.readQuoted_append]
  rfl

theorem readMeta_metaChars (m : ObjectMeta) : readMeta (metaChars m) = some m := by
  have hclose : JsonText.Stops ['\x7d'] := fun c hc => by rw [← Option.some.inj hc]; rfl
  have hclean := And.intro m.key.tenant_clean (And.intro m.key.task_clean m.key.name_clean)
  rw [metaChars, readMeta, readLit_bind, readLit_bind, readQuoted_bind]
  dsimp only
  iterate 4 rw [readLit_bind, readQuoted_bind]
  rw [readLit_bind, JsonText.readNat_append _ (stops_fieldLead _ _), Option.bind_eq_bind,
    Option.bind_some]
  rw [readLit_bind, readRetention_append _ hclose, Option.bind_eq_bind, Option.bind_some]
  rw [dif_pos hclean]

theorem fromUTF8_bytes (s : String) :
    String.fromUTF8? ⟨s.toByteArray.data.toList.toArray⟩ = some s := by
  have hbytes : (⟨s.toByteArray.data.toList.toArray⟩ : ByteArray) = s.toByteArray := by
    rw [Array.toArray_toList]
  rw [hbytes]
  exact dif_pos s.isValidUTF8

/-- serde_json on the metadata: the text above, as UTF-8. -/
def serdeMeta : MetaJson where
  toVec m := (String.ofList (metaChars m)).toByteArray.data.toList
  fromSlice bytes := (String.fromUTF8? ⟨bytes.toArray⟩).bind (fun s => readMeta s.toList)
  fromSlice_toVec m := by
    rw [fromUTF8_bytes, Option.bind_some, String.toList_ofList, readMeta_metaChars]

def reportText : ObjectKey :=
  ⟨"t", "k", "report.txt", by decide +kernel, by decide +kernel, by decide +kernel⟩

def reportHtml : ObjectKey :=
  ⟨"t", "k", "report.html", by decide +kernel, by decide +kernel, by decide +kernel⟩

/-- Both keys are built by `ObjectKey::new`.  After an empty report as text and one as
HTML, the first is read with the metadata of the second. -/
theorem localFs_shares_metadata :
    ObjectKey.new "t" "k" "report.txt" = .ok reportText ∧
      ObjectKey.new "t" "k" "report.html" = .ok reportHtml ∧
      (localFsObjectStore serdeMeta).get (run (localFsObjectStore serdeMeta).step (fun _ => none)
        [.put reportText "" [] none, .put reportHtml "" [] none]) reportText
          = .ok ([], metaFor reportHtml "" [] none) ∧
      ¬ Meets (localFsObjectStore serdeMeta) (fun _ => none) Set.univ := by
  have hmeta : reportText.metaPath = reportHtml.metaPath := by decide +kernel
  have hown : reportText.metaPath ≠ reportText.filePath := by decide +kernel
  have hne : reportText ≠ reportHtml := by decide +kernel
  refine ⟨by decide +kernel, by decide +kernel, get_sharedMeta serdeMeta hown hne hmeta,
    fun hm => ?_⟩
  exact hne ((separate_of_meets hm).2 _ trivial _ trivial hmeta)

end Modbit
