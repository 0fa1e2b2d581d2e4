import Modbit.Lib.Fallible
import Modbit.Lib.Path
import Modbit.Lib.Sha256
import Modbit.Lib.Text
import Mathlib.Logic.Function.Basic

/-!
# Object stores

`ObjectStore` is the contract of a backend: `put`, `get`, `get_range`, `delete` and
`exists` over some state.  `sqliteObjectStore` keeps one row per object path in a table.
`localFsObjectStore` keeps files: the bytes under the path of the key, and the metadata
under the same path with its extension replaced by `meta`.

A key is what `ObjectKey::new` builds, so its three components are clean.  An answer of
`get_range` is `none` where the call panics.  The metadata goes to its file through
serde_json, of which `MetaJson` says that it reads back what it wrote.
-/

namespace Modbit

open Lib

/-! ### Keys -/

/-- The `Http` error is that of the S3 backend.  The text of `BadKey` is its first part
and the second, quoted. -/
inductive ObjectStoreError where
  | badKey (what v : String)
  | notFound (path : String)
  | digestMismatch (path expected : String)
  | io (detail : String)
  deriving DecidableEq

/-- What `ObjectKey::new` accepts as a component. -/
def CleanComponent (v : String) : Prop :=
  v ≠ "" ∧ '/' ∉ v.toList ∧ '\\' ∉ v.toList ∧ ¬ ['.', '.'] <:+: v.toList ∧
    v.toList.head? ≠ some '.'

instance (v : String) : Decidable (CleanComponent v) :=
  inferInstanceAs (Decidable (_ ∧ _))

structure ObjectKey where
  tenant : String
  task : String
  name : String
  tenant_clean : CleanComponent tenant
  task_clean : CleanComponent task
  name_clean : CleanComponent name
  deriving DecidableEq

namespace ObjectKey

def new (tenant task name : String) : Except ObjectStoreError ObjectKey :=
  if ht : CleanComponent tenant then
    if hk : CleanComponent task then
      if hn : CleanComponent name then .ok ⟨tenant, task, name, ht, hk, hn⟩
      else .error (.badKey "name" name)
    else .error (.badKey "task" task)
  else .error (.badKey "tenant" tenant)

/-- `tenants/<t>/tasks/<k>/<n>`. -/
def path (key : ObjectKey) : String :=
  "tenants/" ++ key.tenant ++ "/tasks/" ++ key.task ++ "/" ++ key.name

end ObjectKey

structure ObjectMeta where
  key : ObjectKey
  sha256 : String
  contentType : String
  byteLength : Nat
  retentionUntilMs : Option Int
  deriving DecidableEq

def metaFor (key : ObjectKey) (contentType : String) (bytes : List UInt8)
    (retentionUntilMs : Option Int) : ObjectMeta :=
  ⟨key, Sha256.hex bytes, contentType, bytes.length, retentionUntilMs⟩

/-! ### The contract -/

/-- A backend over the states `σ`. -/
structure ObjectStore (σ : Type) where
  put : σ → ObjectKey → String → List UInt8 → Option Int → σ × Except ObjectStoreError ObjectMeta
  get : σ → ObjectKey → Except ObjectStoreError (List UInt8 × ObjectMeta)
  getRange : σ → ObjectKey → Nat → Nat → Option (Except ObjectStoreError (List UInt8 × Nat))
  delete : σ → ObjectKey → σ × Except ObjectStoreError Unit
  contains : σ → ObjectKey → Except ObjectStoreError Bool

/-- A full read: the digest of the bytes must be the recorded one. -/
def verified (key : ObjectKey) (bytes : List UInt8) (m : ObjectMeta) :
    Except ObjectStoreError (List UInt8 × ObjectMeta) :=
  if Sha256.hex bytes ≠ m.sha256 then .error (.digestMismatch key.path m.sha256)
  else .ok (bytes, m)

/-! ### The SQLite backend -/

/-- A row of `objects`; nothing reads `created_at`. -/
structure ObjectRow where
  path : String
  tenant : String
  task : String
  name : String
  contentType : String
  byteLength : Nat
  sha256 : String
  retentionUntilMs : Option Int
  bytes : List UInt8

abbrev ObjectTable := List ObjectRow

namespace ObjectTable

def loadMeta (t : ObjectTable) (key : ObjectKey) :
    Except ObjectStoreError (ObjectMeta × List UInt8) :=
  match t.find? (fun r => r.path = key.path) with
  | none => .error (.notFound key.path)
  | some r => .ok (⟨key, r.sha256, r.contentType, r.byteLength, r.retentionUntilMs⟩, r.bytes)

/-- `INSERT OR REPLACE`: the path is the primary key. -/
def put (t : ObjectTable) (key : ObjectKey) (contentType : String) (bytes : List UInt8)
    (retentionUntilMs : Option Int) : ObjectTable × Except ObjectStoreError ObjectMeta :=
  let sha := Sha256.hex bytes
  (⟨key.path, key.tenant, key.task, key.name, contentType, bytes.length, sha, retentionUntilMs,
      bytes⟩ :: t.filter (fun r => r.path ≠ key.path),
    .ok ⟨key, sha, contentType, bytes.length, retentionUntilMs⟩)

def get (t : ObjectTable) (key : ObjectKey) :
    Except ObjectStoreError (List UInt8 × ObjectMeta) := do
  let (m, bytes) ← t.loadMeta key
  verified key bytes m

/-- `offset + max` is a `usize`, and a slice that ends before it starts panics. -/
def getRange (t : ObjectTable) (key : ObjectKey) (offset max : Nat) :
    Option (Except ObjectStoreError (List UInt8 × Nat)) :=
  match t.loadMeta key with
  | .error x => some (.error x)
  | .ok (m, bytes) =>
    let start := min offset bytes.length
    let stop := min ((offset + max) % 2 ^ 64) bytes.length
    if start ≤ stop then some (.ok ((bytes.take stop).drop start, m.byteLength)) else none

def delete (t : ObjectTable) (key : ObjectKey) : ObjectTable × Except ObjectStoreError Unit :=
  let rest : ObjectTable := t.filter (fun r => r.path ≠ key.path)
  if rest.length = t.length then (rest, .error (.notFound key.path)) else (rest, .ok ())

def contains (t : ObjectTable) (key : ObjectKey) : Except ObjectStoreError Bool :=
  match t.loadMeta key with
  | .ok _ => .ok true
  | .error (.notFound _) => .ok false
  | .error x => .error x

end ObjectTable

def sqliteObjectStore : ObjectStore ObjectTable where
  put := ObjectTable.put
  get := ObjectTable.get
  getRange := ObjectTable.getRange
  delete := ObjectTable.delete
  contains := ObjectTable.contains

/-! ### The filesystem backend -/

/-- serde_json on `ObjectMeta`. -/
structure MetaJson where
  toVec : ObjectMeta → List UInt8
  fromSlice : List UInt8 → Option ObjectMeta
  fromSlice_toVec : ∀ m, fromSlice (toVec m) = some m

abbrev ObjectFiles := FilePath → Option (List UInt8)

/-- The components of `root.join(key.path())` below the root: no component of a key
holds a slash or starts with a dot. -/
def ObjectKey.filePath (key : ObjectKey) : FilePath :=
  ["tenants", key.tenant, "tasks", key.task, key.name]

def ObjectKey.metaPath (key : ObjectKey) : FilePath := key.filePath.withExtension "meta"

namespace ObjectFiles

/-- The bytes go to a file with a new name first, and the rename moves them to their
place, so that no other file is touched. -/
def put (json : MetaJson) (files : ObjectFiles) (key : ObjectKey) (contentType : String)
    (bytes : List UInt8) (retentionUntilMs : Option Int) :
    ObjectFiles × Except ObjectStoreError ObjectMeta :=
  let sha := Sha256.hex bytes
  let m : ObjectMeta := ⟨key, sha, contentType, bytes.length, retentionUntilMs⟩
  let files := Function.update files key.filePath (some bytes)
  let files := Function.update files key.metaPath (some (json.toVec m))
  (files, .ok m)

def get (json : MetaJson) (files : ObjectFiles) (key : ObjectKey) :
    Except ObjectStoreError (List UInt8 × ObjectMeta) := do
  let bytes ← okOr (files key.filePath) (.notFound key.path)
  let text ← okOr (files key.metaPath) (.io "meta read")
  let m ← okOr (json.fromSlice text) (.io "meta parse")
  verified key bytes m

/-- A buffer of more than `isize::MAX` bytes cannot be asked for: the call panics. -/
def getRange (files : ObjectFiles) (key : ObjectKey) (offset max : Nat) :
    Option (Except ObjectStoreError (List UInt8 × Nat)) :=
  match files key.filePath with
  | none => some (.error (.notFound key.path))
  | some bytes =>
    if max < 2 ^ 63 then
      some (.ok ((bytes.drop (min offset bytes.length)).take max, bytes.length))
    else none

def delete (files : ObjectFiles) (key : ObjectKey) :
    ObjectFiles × Except ObjectStoreError Unit :=
  if files key.filePath = none then (files, .error (.notFound key.path))
  else
    let files := Function.update files key.filePath none
    (Function.update files key.metaPath none, .ok ())

def contains (files : ObjectFiles) (key : ObjectKey) : Except ObjectStoreError Bool :=
  .ok (files key.filePath).isSome

end ObjectFiles

def localFsObjectStore (json : MetaJson) : ObjectStore ObjectFiles where
  put := ObjectFiles.put json
  get := ObjectFiles.get json
  getRange := ObjectFiles.getRange
  delete := ObjectFiles.delete
  contains := ObjectFiles.contains

end Modbit
