import Mathlib.Data.List.Find
import Modbit.Retrieval.Walker

/-!
# Import edges

`resolve` takes an import of a file, as the parser found it, to a file of the corpus, by
trying a few candidates in order; what the parser finds in a file is any function.  The
`DependencyIndex` has the resolved imports of every file that has any.

`resolve` looks at the corpus only to see which candidates are in it, and answers with
one that is: `resolve_mem`.
-/

namespace Modbit

open Lib List

namespace Retrieval

/-! ### Languages -/

inductive Lang where
  | rust | typescript | tsx | javascript | python
  deriving DecidableEq

/-- `path.rsplit('.').next()`, in lower case: no character outside of ASCII becomes a
letter of these extensions. -/
def extensionOf (path : String) : String :=
  String.ofList (((path.toList.splitOn '.').getLast?.getD []).map Char.toLower)

def languageOf (path : String) : Option Lang :=
  match extensionOf path with
  | "rs" => some .rust
  | "ts" => some .typescript
  | "tsx" => some .tsx
  | "js" | "jsx" | "mjs" | "cjs" => some .javascript
  | "py" => some .python
  | _ => none

inductive DepKind where
  | rust | ts | python
  deriving DecidableEq

def DepKind.asStr : DepKind → String
  | .rust => "use"
  | .ts => "import"
  | .python => "import"

/-! ### Paths of imports -/

/-- `Path::parent`, as components. -/
def parentOf (path : String) : Option (List String) :=
  match (Text.split '/' path).filter (fun c => c ≠ "" ∧ c ≠ ".") with
  | [] => none
  | c :: cs => some (c :: cs).dropLast

def segments (spec : List Char) : List String :=
  (spec.splitOnP (fun c => c = '/' ∨ c = '\\')).map String.ofList

/-- `base.join(spec)`, as segments: an absolute path replaces the base. -/
def joined (base : List String) (spec : List Char) : List String :=
  if ['/'].isPrefixOf spec then segments spec else base ++ segments spec

/-- One turn of the loop of `normalize`. -/
def pushSegment (parts : List String) (seg : String) : Option (List String) :=
  if seg = "." ∨ seg = "" then some parts
  else if seg = ".." then if parts = [] then none else some parts.dropLast
  else some (parts ++ [seg])

def normalize (segs : List String) : Option String := (segs.foldlM pushSegment []).map relText

/-- `strip_prefix`. -/
def stripLead (lead spec : List Char) : Option (List Char) :=
  if lead.isPrefixOf spec then some (spec.drop lead.length) else none

/-- How often `super::` stands in front, and what follows. -/
def stripSupers : List Char → Nat × List Char
  | 's' :: 'u' :: 'p' :: 'e' :: 'r' :: ':' :: ':' :: rest =>
    ((stripSupers rest).1 + 1, (stripSupers rest).2)
  | spec => (0, spec)

/-- `spec.replace("::", "/")`. -/
def slashColons : List Char → List Char
  | ':' :: ':' :: rest => '/' :: slashColons rest
  | c :: rest => c :: slashColons rest
  | [] => []

def slashDots (spec : List Char) : List Char := spec.map (fun c => if c = '.' then '/' else c)

def trimQuotes (spec : List Char) : List Char :=
  Text.dropEndWhile (fun c => c == '\x27' || c == '\x22')
    (spec.dropWhile (fun c => c == '\x27' || c == '\x22'))

/-! ### Resolution -/

def firstKnown (known : List String) (candidates : List String) : Option String :=
  candidates.find? (fun cand => known.contains cand)

def resolveTs (fromPath : String) (raw : List Char) (known : List String) : Option String :=
  let spec := trimQuotes raw
  if !"./".toList.isPrefixOf spec && !"../".toList.isPrefixOf spec then none
  else do
    let dir ← parentOf fromPath
    let base ← normalize (joined dir spec)
    (firstKnown known (["ts", "tsx", "js", "tsx", "ts"].map (fun ext => base ++ "." ++ ext))).or
      (firstKnown known (["ts", "tsx", "js"].map (fun ext => base ++ "/index." ++ ext)))

/-- What a Python import asks for and where it starts.  Of leading dots one is stripped, so
that the loop over the others makes no turn. -/
def pythonSpec (fromPath : String) (raw : List Char) : Option (List Char × List String) :=
  match stripLead ['.'] raw with
  | some rest => (parentOf fromPath).map (fun base => (rest, base))
  | none => some (raw, [])

def pythonRel (spec : List Char) (base : List String) : Option String :=
  if spec = [] then some (relText base) else normalize (joined base (slashDots spec))

def resolvePython (fromPath : String) (raw : List Char) (known : List String) :
    Option String := do
  let (spec, base) ← pythonSpec fromPath raw
  let rel ← pythonRel spec base
  firstKnown known [rel ++ ".py", rel ++ "/__init__.py"]

/-- What a `use` asks for and where it starts: the root, so many directories up, or the
file's own. -/
def rustSpec (fromPath : String) (raw : List Char) : Option (List Char × List String) :=
  let dir := (parentOf fromPath).getD []
  match stripLead "crate::".toList raw with
  | some rest => some (rest, [])
  | none =>
    let (supers, cursor) := stripSupers raw
    if 0 < supers then some (cursor, dir.take (dir.length - supers))
    else (stripLead "self::".toList raw).map (fun rest => (rest, dir))

def resolveRust (fromPath : String) (raw : List Char) (known : List String) :
    Option String := do
  let (spec, base) ← rustSpec fromPath raw
  let rel ← normalize (joined base (slashColons spec))
  firstKnown known
    ["src/" ++ rel ++ ".rs", rel ++ ".rs", "src/" ++ rel ++ "/mod.rs", rel ++ "/mod.rs"]

def resolve (fromPath raw : String) (kind : DepKind) (known : List String) : Option String :=
  match kind with
  | .ts => resolveTs fromPath raw.toList known
  | .python => resolvePython fromPath raw.toList known
  | .rust => resolveRust fromPath raw.toList known

variable {found : String}

theorem firstKnown_mem {known candidates : List String}
    (h : firstKnown known candidates = some found) : found ∈ known := by
  have hfound := find?_some h
  exact contains_iff_mem.mp hfound

/-- The files that an import may resolve to, in the order in which they are tried. -/
def candidates (fromPath : String) (raw : List Char) : DepKind → List String
  | .ts =>
    if !"./".toList.isPrefixOf (trimQuotes raw) && !"../".toList.isPrefixOf (trimQuotes raw) then []
    else ((parentOf fromPath).bind (fun dir => normalize (joined dir (trimQuotes raw)))).elim [] (fun base =>
      ["ts", "tsx", "js", "tsx", "ts"].map (fun ext => base ++ "." ++ ext)
        ++ ["ts", "tsx", "js"].map (fun ext => base ++ "/index." ++ ext))
  | .python => ((pythonSpec fromPath raw).bind (fun p => pythonRel p.1 p.2)).elim [] (fun rel =>
      [rel ++ ".py", rel ++ "/__init__.py"])
  | .rust => ((rustSpec fromPath raw).bind (fun p => normalize (joined p.2 (slashColons p.1)))).elim []
      (fun rel =>
        ["src/" ++ rel ++ ".rs", rel ++ ".rs", "src/" ++ rel ++ "/mod.rs", rel ++ "/mod.rs"])

/-- **An import resolves to the first of its candidates that is in the corpus.** -/
theorem resolve_eq (fromPath raw : String) (kind : DepKind) (known : List String) :
    resolve fromPath raw kind known = firstKnown known (candidates fromPath raw.toList kind) := by
  cases kind with
  | ts =>
    rw [resolve, resolveTs, candidates]
    split_ifs
    · rfl
    · cases parentOf fromPath with
      | none => rfl
      | some dir =>
        show (normalize (joined dir _)).bind _ = firstKnown known ((normalize (joined dir _)).elim [] _)
        cases normalize (joined dir (trimQuotes raw.toList)) with
        | none => rfl
        | some base => exact find?_append.symm
  | python =>
    rw [resolve, resolvePython, candidates]
    cases pythonSpec fromPath raw.toList with
    | none => rfl
    | some p =>
      show (pythonRel p.1 p.2).bind _ = firstKnown known ((pythonRel p.1 p.2).elim [] _)
      cases pythonRel p.1 p.2 with
      | none => rfl
      | some rel => rfl
  | rust =>
    rw [resolve, resolveRust, candidates]
    cases rustSpec fromPath raw.toList with
    | none => rfl
    | some p =>
      show (normalize _).bind _ = firstKnown known ((normalize _).elim [] _)
      cases normalize (joined p.2 (slashColons p.1)) with
      | none => rfl
      | some rel => rfl

variable {fromPath raw : String} {kind : DepKind} {known : List String}

theorem resolve_mem (h : resolve fromPath raw kind known = some found) : found ∈ known :=
  firstKnown_mem ((resolve_eq fromPath raw kind known).symm.trans h)

theorem resolve_mem_candidates
    (h : resolve fromPath raw kind known = some found) : found ∈ candidates fromPath raw.toList kind :=
  mem_of_find?_eq_some ((resolve_eq fromPath raw kind known).symm.trans h)

theorem resolve_congr {known known' : List String}
    (h : ∀ cand ∈ candidates fromPath raw.toList kind, known'.contains cand = known.contains cand) :
    resolve fromPath raw kind known' = resolve fromPath raw kind known := by
  rw [resolve_eq, resolve_eq]
  exact find?_congr h

/-! ### The index -/

/-- Per-file import edges: from a file to the files it imports, with the kind. -/
structure DependencyIndex where
  edges : OrdMap String (OrdMap String String)

section Index

variable (parse : Lang → List UInt8 → List (String × DepKind))

def importsOf (fromPath : String) (bytes : List UInt8) : List (String × DepKind) :=
  match languageOf fromPath with
  | some lang => parse lang bytes
  | none => []

/-- What an import contributes: a file is not its own import. -/
def targetOf (fromPath : String) (known : List String) (dep : String × DepKind) :
    Option (String × String) :=
  match resolve fromPath dep.1 dep.2 known with
  | some found => if found ≠ fromPath then some (found, dep.2.asStr) else none
  | none => none

/-- The targets that `index_file` collects. -/
def targetsOf (fromPath : String) (bytes : List UInt8) (known : List String) :
    OrdMap String String :=
  .ofList ((importsOf parse fromPath bytes).filterMap (targetOf fromPath known))

def nonEmpty (targets : OrdMap String String) : Option (OrdMap String String) :=
  if targets.entries = [] then none else some targets

namespace DependencyIndex

def empty : DependencyIndex := ⟨.empty⟩

def indexFile (d : DependencyIndex) (fromPath : String) (bytes : List UInt8)
    (known : List String) : DependencyIndex :=
  ⟨d.edges.put (slashed fromPath)
    (nonEmpty (targetsOf parse (slashed fromPath) bytes known))⟩

def removeFile (d : DependencyIndex) (fromPath : String) : DependencyIndex :=
  ⟨d.edges.erase fromPath⟩

def pruned (known : List String) (targets : OrdMap String String) : OrdMap String String :=
  targets.filterMap (fun found kind => if known.contains found then some kind else none)

def prune (d : DependencyIndex) (known : List String) : DependencyIndex :=
  ⟨d.edges.filterMap (fun _ targets => nonEmpty (pruned known targets))⟩

end DependencyIndex

end Index

end Retrieval

end Modbit
