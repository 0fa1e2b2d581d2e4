import Modbit.Lib.OrdMap
import Modbit.Lib.Sha256
import Modbit.Lib.Text
import Modbit.Lib.TreeWalk
import Modbit.Lib.Utf8

/-!
# The registry of skills

`SkillRegistry::refresh` of `crates/skills/src/lib.rs`: the registry is emptied, a directory is walked,
through links too, for manifests, and each is read into an entry under its name.  The first thing that
fails ends the refresh where it stands.

Every walk comes to its end (`walk_isSome`) and finds each manifest once whatever the listings
(`walk_ok`).  `registry_lawful_iff` says when a refresh is all or nothing and the same for all listings.
-/

namespace Modbit

open Lib List

namespace Skills

abbrev Way := List LinkPart

/-- Where the skills are: some ways may not be read, and the error of one that cannot be is the system's. -/
structure Disk (ε : Type) where
  tree : FileTree
  denied : Way → Bool
  error : Way → ε

structure DiscoveredSkill where
  name : String
  version : String
  description : String
  manifestPath : Way
  contentSha256 : String

inductive SkillDiscoveryError (ε : Type) where
  | invalidMetadata (path : Way) (reason : String)
  | io (e : ε)

variable {ε : Type}

/-! ### Manifests -/

structure Header where
  name : Option String
  version : Option String
  description : Option String

def keyed (key : String) (line : List Char) : Option String :=
  (line.dropPrefix? key.toList).map (fun v => String.ofList (Text.trimChars v))

/-- The loop over the lines, up to the first blank one. -/
def header : List (List Char) → Header → Header
  | [], h => h
  | line :: lines, h =>
    if Text.trimChars line = [] then h
    else if let some v := keyed "name: " line then header lines { h with name := some v }
    else if let some v := keyed "version: " line then header lines { h with version := some v }
    else if let some v := keyed "description: " line then
      header lines { h with description := some v }
    else header lines h

def parseSkillManifest (path : Way) (bytes : List UInt8) :
    Except (SkillDiscoveryError ε) DiscoveredSkill :=
  let h := header (Text.lines (Utf8.lossy bytes)) ⟨none, none, none⟩
  match h.name, h.version, h.description with
  | none, _, _ => .error (.invalidMetadata path "missing name")
  | some _, none, _ => .error (.invalidMetadata path "missing version")
  | some _, some _, none => .error (.invalidMetadata path "missing description")
  | some name, some version, some description =>
    .ok ⟨name, version, description, path, Sha256.hex bytes⟩

/-! ### The walk -/

structure Manifest where
  path : Way
  bytes : List UInt8

namespace Disk

variable (disk : Disk ε)

/-- `Path::is_dir`. -/
def IsDir (way : Way) : Prop := disk.tree.metadata way = some .dir

instance (way : Way) : Decidable (disk.IsDir way) := inferInstanceAs (Decidable (_ = _))

/-- `fs::read_dir`. -/
def readDir (dir : Way) : Except ε (List String) :=
  match disk.tree.locate dir with
  | none => .error (disk.error dir)
  | some d =>
    if disk.tree.node d = some .dir ∧ disk.denied dir = false then .ok (disk.tree.children d)
    else .error (disk.error dir)

/-- `fs::read`. -/
def read (way : Way) : Except ε (List UInt8) :=
  match disk.tree.metadata way with
  | some (.file bytes) => if disk.denied way then .error (disk.error way) else .ok bytes
  | _ => .error (disk.error way)

end Disk

section Walk

variable (disk : Disk ε) (o : Listing)

/-- An entry of a directory: it is walked, read, or passed over. -/
def walkEntry (walk : Way → Option (Except ε (List Manifest))) (path : Way) (name : String) :
    Option (Except ε (List Manifest)) :=
  if disk.IsDir path then walk path
  else if name = "SKILL.md" then some ((disk.read path).map (fun bytes => [⟨path, bytes⟩]))
  else some (.ok [])

/-- The loop over the entries, up to the first that fails. -/
def walkEntries (walk : Way → Option (Except ε (List Manifest))) (dir : Way) :
    List String → Option (Except ε (List Manifest))
  | [] => some (.ok [])
  | name :: names =>
    match walkEntry disk walk (dir ++ [.name name]) name with
    | none => none
    | some (.error e) => some (.error e)
    | some (.ok found) => (walkEntries walk dir names).map (fun r => r.map (found ++ ·))

def walk : Nat → Way → Option (Except ε (List Manifest))
  | 0, _ => none
  | fuel + 1, dir =>
    match disk.readDir dir with
    | .error e => some (.error e)
    | .ok names => walkEntries disk (walk fuel) dir (o.order dir names)

end Walk

/-! ### The registry -/

structure SkillRegistry where
  skills : OrdMap String DiscoveredSkill

def fill : List Manifest → OrdMap String DiscoveredSkill → Nat →
    OrdMap String DiscoveredSkill × Except (SkillDiscoveryError ε) Nat
  | [], skills, count => (skills, .ok count)
  | m :: found, skills, count =>
    match parseSkillManifest m.path m.bytes with
    | .error e => (skills, .error e)
    | .ok skill => fill found (skills.insert skill.name skill) (count + 1)

def manifests (disk : Disk ε) (o : Listing) (fuel : Nat) (dir : Way) :
    Option (Except ε (List Manifest)) :=
  if (disk.tree.metadata dir).isSome then walk disk o fuel dir else some (.ok [])

/-- A refresh after its walk: the registry has been emptied. -/
def outcome : Except ε (List Manifest) → SkillRegistry × Except (SkillDiscoveryError ε) Nat
  | .error e => (⟨.empty⟩, .error (.io e))
  | .ok found => (⟨(fill (ε := ε) found .empty 0).1⟩, (fill found .empty 0).2)

/-- A refresh, with the listings and the fuel for the walk. -/
def SkillRegistry.refresh (_self : SkillRegistry) (disk : Disk ε) (o : Listing) (fuel : Nat)
    (dir : Way) : Option (SkillRegistry × Except (SkillDiscoveryError ε) Nat) :=
  (manifests disk o fuel dir).map outcome

/-! ### What a refresh is for -/

section Purpose

variable (disk : Disk ε)

/-- The manifests that a walk from a directory comes to. -/
inductive Found : Way → Way → List UInt8 → Prop
  | manifest {dir : Way} {names : List String} {bytes : List UInt8} :
      disk.readDir dir = .ok names → "SKILL.md" ∈ names →
      ¬ disk.IsDir (dir ++ [.name "SKILL.md"]) →
      disk.read (dir ++ [.name "SKILL.md"]) = .ok bytes →
      Found dir (dir ++ [.name "SKILL.md"]) bytes
  | enter {dir way : Way} {names : List String} {x : String} {bytes : List UInt8} :
      disk.readDir dir = .ok names → x ∈ names → disk.IsDir (dir ++ [.name x]) →
      Found (dir ++ [.name x]) way bytes → Found dir way bytes

/-- The directories and manifests that it comes to and that cannot be read. -/
inductive Fails : Way → Way → ε → Prop
  | listing {dir : Way} {e : ε} : disk.readDir dir = .error e → Fails dir dir e
  | manifest {dir : Way} {names : List String} {e : ε} :
      disk.readDir dir = .ok names → "SKILL.md" ∈ names →
      ¬ disk.IsDir (dir ++ [.name "SKILL.md"]) →
      disk.read (dir ++ [.name "SKILL.md"]) = .error e →
      Fails dir (dir ++ [.name "SKILL.md"]) e
  | enter {dir way : Way} {names : List String} {x : String} {e : ε} :
      disk.readDir dir = .ok names → x ∈ names → disk.IsDir (dir ++ [.name x]) →
      Fails (dir ++ [.name x]) way e → Fails dir way e

variable (dir : Way) (prior : SkillRegistry)

/-- A manifest in a directory that is there. -/
def Finds (way : Way) (bytes : List UInt8) : Prop :=
  (disk.tree.metadata dir).isSome ∧ Found disk dir way bytes

def Faults (way : Way) (e : ε) : Prop := (disk.tree.metadata dir).isSome ∧ Fails disk dir way e

def Offers (skill : DiscoveredSkill) : Prop :=
  ∃ bytes, Finds disk dir skill.manifestPath bytes ∧
    parseSkillManifest (ε := ε) skill.manifestPath bytes = .ok skill

def Returns (o : Listing) (r : SkillRegistry × Except (SkillDiscoveryError ε) Nat) : Prop :=
  ∃ fuel, ∀ more, fuel ≤ more → prior.refresh disk o more dir = some r

/-- A registry with one entry for each manifest that is found. -/
structure Holds (registry : SkillRegistry) (n : Nat) : Prop where
  length : registry.skills.entries.length = n
  entries : ∀ e, e ∈ registry.skills.entries ↔ e.1 = e.2.name ∧ Offers disk dir e.2
  found : ∀ way bytes, Finds disk dir way bytes →
    ∃ e ∈ registry.skills.entries, e.2.manifestPath = way
  one : (registry.skills.entries.map (fun e => e.2.manifestPath)).Nodup

/-- What is expected of a refresh: it ends, it is all or nothing, and the listings do not matter. -/
structure Lawful : Prop where
  ends : ∀ o, ∃ r, Returns disk dir prior o r
  whole : ∀ o registry n, Returns disk dir prior o (registry, .ok n) → Holds disk dir registry n
  kept : ∀ o registry e, Returns disk dir prior o (registry, .error e) → registry = prior
  same : ∀ o o' r r', Returns disk dir prior o r → Returns disk dir prior o' r' → r = r'

/-- Everything can be read and the skills have names of their own; or the registry was empty, and there
is one way only to fail. -/
inductive Settled : Prop
  | all : (∀ way e, ¬ Faults disk dir way e) →
      (∀ way bytes, Finds disk dir way bytes →
        ∃ skill, parseSkillManifest (ε := ε) way bytes = .ok skill) →
      (∀ skill skill', Offers disk dir skill → Offers disk dir skill' → skill.name = skill'.name →
        skill.manifestPath = skill'.manifestPath) → Settled
  | unread (way : Way) (e : ε) : prior.skills = .empty → Faults disk dir way e →
      (∀ way' e', Faults disk dir way' e' → e' = e) → Settled
  | invalid (way : Way) (bytes : List UInt8) (e : SkillDiscoveryError ε) : prior.skills = .empty →
      (∀ way e, ¬ Faults disk dir way e) → Finds disk dir way bytes →
      (∀ way' bytes', Finds disk dir way' bytes' → way' = way) →
      parseSkillManifest way bytes = .error e → Settled

end Purpose

/-! ### One directory -/

variable {disk : Disk ε} {o : Listing} {walk₀ walk₁ : Way → Option (Except ε (List Manifest))}
  {dir way : Way} {names : List String} {x : String} {l : List Manifest} {e : ε}

theorem readDir_ok (h : disk.readDir dir = .ok names) :
    ∃ d, disk.tree.locate dir = some d ∧ disk.tree.node d = some .dir ∧
      names = disk.tree.children d := by
  rw [Disk.readDir] at h
  split at h
  · cases h
  · next d hd =>
    split_ifs at h with hdir
    · exact ⟨d, hd, hdir.1, (Except.ok.inj h).symm⟩

theorem entry_cases (disk : Disk ε) (dir : Way) (x : String) :
    disk.IsDir (dir ++ [.name x]) ∨ (¬ disk.IsDir (dir ++ [.name x]) ∧ x = "SKILL.md") ∨
      (¬ disk.IsDir (dir ++ [.name x]) ∧ x ≠ "SKILL.md") := by
  by_cases hdir : disk.IsDir (dir ++ [.name x])
  · exact .inl hdir
  · by_cases hx : x = "SKILL.md"
    · exact .inr (.inl ⟨hdir, hx⟩)
    · exact .inr (.inr ⟨hdir, hx⟩)

theorem walkEntry_dir (h : disk.IsDir way) : walkEntry disk walk₀ way x = walk₀ way := if_pos h

theorem walkEntry_manifest (h : ¬ disk.IsDir way) : walkEntry disk walk₀ way "SKILL.md"
    = some ((disk.read way).map (fun bytes => [⟨way, bytes⟩])) := by
  rw [walkEntry, if_neg h, if_pos rfl]

theorem walkEntry_other (h : ¬ disk.IsDir way) (hx : x ≠ "SKILL.md") :
    walkEntry disk walk₀ way x = some (.ok []) := by
  rw [walkEntry, if_neg h, if_neg hx]

/-- **The loop succeeds if every entry does**, and has what each entry has. -/
theorem walkEntries_ok (h : walkEntries disk walk₀ dir names = some (.ok l)) :
    (∀ x ∈ names, ∃ part, walkEntry disk walk₀ (dir ++ [.name x]) x = some (.ok part)) ∧
    ∀ m, m ∈ l ↔ ∃ x ∈ names, ∃ part,
      walkEntry disk walk₀ (dir ++ [.name x]) x = some (.ok part) ∧ m ∈ part := by
  induction names generalizing l with
  | nil =>
    obtain rfl := Except.ok.inj (Option.some.inj h)
    refine ⟨fun x hx => absurd hx not_mem_nil, fun m => iff_of_false not_mem_nil ?_⟩
    exact fun ⟨x, hx, _⟩ => absurd hx not_mem_nil
  | cons x names ih =>
    rw [walkEntries] at h
    split at h
    · cases h
    · cases h
    · next part hpart =>
      obtain ⟨r, hr, hrest⟩ := Option.map_eq_some_iff.mp h
      cases r with
      | error e => cases hrest
      | ok l' =>
        obtain rfl := Except.ok.inj hrest
        obtain ⟨hall, hmem⟩ := ih hr
        refine ⟨forall_mem_cons.mpr ⟨⟨part, hpart⟩, hall⟩, fun m => ?_⟩
        rw [mem_append, hmem, exists_mem_cons_iff]
        refine or_congr_left ⟨fun hm => ⟨part, hpart, hm⟩, fun ⟨part', hpart', hm⟩ => ?_⟩
        rw [hpart] at hpart'
        rw [Except.ok.inj (Option.some.inj hpart')]
        exact hm

theorem walkEntries_error (h : walkEntries disk walk₀ dir names = some (.error e)) :
    ∃ x ∈ names, walkEntry disk walk₀ (dir ++ [.name x]) x = some (.error e) := by
  induction names with
  | nil => cases Option.some.inj h
  | cons x names ih =>
    rw [walkEntries] at h
    split at h
    · cases h
    · next e' he =>
      rw [Except.error.inj (Option.some.inj h)] at he
      exact ⟨x, mem_cons_self, he⟩
    · obtain ⟨r, hr, hrest⟩ := Option.map_eq_some_iff.mp h
      cases r with
      | error e' =>
        obtain rfl := Except.error.inj hrest
        obtain ⟨y, hy, he⟩ := ih hr
        exact ⟨y, mem_cons_of_mem x hy, he⟩
      | ok l' => cases hrest

theorem walkEntries_isSome
    (h : ∀ x ∈ names, (walkEntry disk walk₀ (dir ++ [.name x]) x).isSome) :
    (walkEntries disk walk₀ dir names).isSome := by
  induction names with
  | nil => rfl
  | cons x names ih =>
    obtain ⟨r, hr⟩ := Option.isSome_iff_exists.mp (h x mem_cons_self)
    rw [walkEntries, hr]
    cases r with
    | error e => rfl
    | ok part =>
      rw [Option.isSome_map]
      exact ih (fun y hy => h y (mem_cons_of_mem x hy))

variable {r : Except ε (List Manifest)}

theorem walkEntries_congr {names : List String} (h : ∀ x ∈ names, ∀ r,
      walkEntry disk walk₀ (dir ++ [.name x]) x = some r →
        walkEntry disk walk₁ (dir ++ [.name x]) x = some r) (hr : walkEntries disk walk₀ dir names = some r) :
    walkEntries disk walk₁ dir names = some r := by
  induction names generalizing r with
  | nil => exact hr
  | cons x names ih =>
    rw [walkEntries] at hr ⊢
    split at hr
    · cases hr
    · next e he =>
      rw [h x mem_cons_self _ he]
      exact hr
    · next part hpart =>
      obtain ⟨r', hr', rfl⟩ := Option.map_eq_some_iff.mp hr
      rw [h x mem_cons_self _ hpart]
      dsimp only
      rw [ih (fun y hy => h y (mem_cons_of_mem x hy)) hr', Option.map_some]

/-! ### The whole walk -/

variable {bytes : List UInt8}

theorem Found.read (h : Found disk dir way bytes) : disk.read way = .ok bytes := by
  induction h with
  | manifest _ _ _ hread => exact hread
  | enter _ _ _ _ ih => exact ih

theorem Found.through (h : Found disk dir way bytes) : ∃ x rest, way = dir ++ .name x :: rest := by
  induction h with
  | manifest => exact ⟨"SKILL.md", [], rfl⟩
  | @enter dir way names x bytes _ _ _ _ ih =>
    obtain ⟨y, rest, rfl⟩ := ih
    exact ⟨x, .name y :: rest, by rw [append_assoc, singleton_append]⟩

/-- What a walk has that comes to its end: every manifest once, and nothing that cannot be read. -/
structure Complete (disk : Disk ε) (dir : Way) (l : List Manifest) : Prop where
  mem : ∀ m, m ∈ l ↔ Found disk dir m.path m.bytes
  reads : ∀ way e, ¬ Fails disk dir way e
  nodup : (l.map Manifest.path).Nodup

variable {fuel : Nat}

theorem mem_part {part : List Manifest} {m : Manifest} (hdir : disk.readDir dir = .ok names)
    (hx : x ∈ names) (ih : ∀ {dir l}, walk disk o fuel dir = some (.ok l) → Complete disk dir l)
    (hpart : walkEntry disk (walk disk o fuel) (dir ++ [.name x]) x = some (.ok part)) (hm : m ∈ part) :
    Found disk dir m.path m.bytes ∧ ∃ rest, m.path = dir ++ .name x :: rest := by
  rcases entry_cases disk dir x with hsub | ⟨hfile, rfl⟩ | ⟨hfile, hother⟩
  · rw [walkEntry_dir hsub] at hpart
    have hfound := ((ih hpart).mem m).mp hm
    obtain ⟨y, rest, hpath⟩ := hfound.through
    exact ⟨.enter hdir hx hsub hfound, .name y :: rest,
      by rw [hpath, append_assoc, singleton_append]⟩
  · rw [walkEntry_manifest hfile] at hpart
    cases hread : disk.read (dir ++ [.name "SKILL.md"]) with
    | error e =>
      rw [hread] at hpart
      cases Option.some.inj hpart
    | ok bytes =>
      rw [hread] at hpart
      obtain rfl := Except.ok.inj (Option.some.inj hpart)
      obtain rfl := mem_singleton.mp hm
      exact ⟨.manifest hdir hx hfile hread, [], rfl⟩
  · rw [walkEntry_other hfile hother] at hpart
    rw [← Except.ok.inj (Option.some.inj hpart)] at hm
    cases hm

theorem nodup_entries {walk₀ : Way → Option (Except ε (List Manifest))} (hnames : names.Nodup)
    (hpart : ∀ x ∈ names, ∀ part, walkEntry disk walk₀ (dir ++ [.name x]) x = some (.ok part) →
      (part.map Manifest.path).Nodup ∧ ∀ m ∈ part, ∃ rest, m.path = dir ++ .name x :: rest)
    (h : walkEntries disk walk₀ dir names = some (.ok l)) : (l.map Manifest.path).Nodup := by
  induction names generalizing l with
  | nil =>
    obtain rfl := Except.ok.inj (Option.some.inj h)
    exact nodup_nil
  | cons x names ih =>
    obtain ⟨hx, hrest⟩ := nodup_cons.mp hnames
    rw [walkEntries] at h
    split at h
    · cases h
    · cases h
    · next part hthis =>
      obtain ⟨r, hr, heq⟩ := Option.map_eq_some_iff.mp h
      cases r with
      | error e => cases heq
      | ok l' =>
        obtain rfl := Except.ok.inj heq
        obtain ⟨hnodup, hbelow⟩ := hpart x mem_cons_self part hthis
        have hlater := fun y hy => hpart y (mem_cons_of_mem x hy)
        rw [map_append, nodup_append]
        refine ⟨hnodup, ih hrest hlater hr, fun p hp q hq hpq => ?_⟩
        obtain ⟨m, hm, rfl⟩ := mem_map.mp hp
        obtain ⟨m', hm', rfl⟩ := mem_map.mp hq
        obtain ⟨y, hy, part', hpart', hmem⟩ := ((walkEntries_ok hr).2 m').mp hm'
        obtain ⟨rest, hrest⟩ := hbelow m hm
        obtain ⟨rest', hrest'⟩ := (hlater y hy part' hpart').2 m' hmem
        rw [hrest, hrest'] at hpq
        obtain rfl := LinkPart.name.inj (List.cons.inj (append_cancel_left hpq)).1
        exact hx hy

/-- **A walk that succeeds has found every manifest once.** -/
theorem walk_ok (h : walk disk o fuel dir = some (.ok l)) : Complete disk dir l := by
  induction fuel generalizing dir l with
  | zero => cases h
  | succ fuel ih =>
    rw [walk] at h
    cases hdir : disk.readDir dir with
    | error e =>
      rw [hdir] at h
      cases Option.some.inj h
    | ok names =>
      rw [hdir] at h
      obtain ⟨hall, hmem⟩ := walkEntries_ok h
      have horder : ∀ {x}, x ∈ o.order dir names ↔ x ∈ names := o.mem_order
      refine ⟨fun m => ?_, fun way e hfails => ?_, ?_⟩
      · rw [hmem]
        constructor
        · rintro ⟨x, hx, part, hpart, hm⟩
          exact (mem_part hdir (horder.mp hx) ih hpart hm).1
        · obtain ⟨path, bytes⟩ := m
          intro (hfound : Found disk dir path bytes)
          cases hfound with
          | manifest hnames hx hfile hread =>
            obtain rfl := Except.ok.inj (hdir.symm.trans hnames)
            refine ⟨"SKILL.md", horder.mpr hx, _, ?_, mem_singleton_self _⟩
            rw [walkEntry_manifest hfile, hread]
            rfl
          | enter hnames hx hsub hbelow =>
            obtain rfl := Except.ok.inj (hdir.symm.trans hnames)
            obtain ⟨part, hpart⟩ := hall _ (horder.mpr hx)
            refine ⟨_, horder.mpr hx, part, hpart, ?_⟩
            rw [walkEntry_dir hsub] at hpart
            exact ((ih hpart).mem _).mpr hbelow
      · cases hfails with
        | listing herror => cases hdir.symm.trans herror
        | manifest hnames hx hfile hread =>
          obtain rfl := Except.ok.inj (hdir.symm.trans hnames)
          obtain ⟨part, hpart⟩ := hall _ (horder.mpr hx)
          rw [walkEntry_manifest hfile, hread] at hpart
          cases Option.some.inj hpart
        | enter hnames hx hsub hbelow =>
          obtain rfl := Except.ok.inj (hdir.symm.trans hnames)
          obtain ⟨part, hpart⟩ := hall _ (horder.mpr hx)
          rw [walkEntry_dir hsub] at hpart
          exact (ih hpart).reads way e hbelow
      · obtain ⟨d, -, -, rfl⟩ := readDir_ok hdir
        refine nodup_entries ((o.perm dir _).nodup_iff.mpr FileTree.nodup_children)
          (fun x hx part hpart => ?_) h
        refine ⟨?_, fun m hm => (mem_part hdir (horder.mp hx) ih hpart hm).2⟩
        rcases entry_cases disk dir x with hsub | ⟨hfile, rfl⟩ | ⟨hfile, hother⟩
        · rw [walkEntry_dir hsub] at hpart
          exact (ih hpart).nodup
        · rw [walkEntry_manifest hfile] at hpart
          cases hread : disk.read (dir ++ [.name "SKILL.md"]) with
          | error e =>
            rw [hread] at hpart
            cases Option.some.inj hpart
          | ok bytes =>
            rw [hread] at hpart
            rw [← Except.ok.inj (Option.some.inj hpart)]
            exact nodup_singleton _
        · rw [walkEntry_other hfile hother] at hpart
          rw [← Except.ok.inj (Option.some.inj hpart)]
          exact nodup_nil

theorem walk_error (h : walk disk o fuel dir = some (.error e)) : ∃ way, Fails disk dir way e := by
  induction fuel generalizing dir with
  | zero => cases h
  | succ fuel ih =>
    rw [walk] at h
    cases hdir : disk.readDir dir with
    | error e' =>
      rw [hdir] at h
      obtain rfl := Except.error.inj (Option.some.inj h)
      exact ⟨dir, .listing hdir⟩
    | ok names =>
      rw [hdir] at h
      obtain ⟨x, hx, hentry⟩ := walkEntries_error h
      have hx' := o.mem_order.mp hx
      rcases entry_cases disk dir x with hsub | ⟨hfile, rfl⟩ | ⟨hfile, hother⟩
      · rw [walkEntry_dir hsub] at hentry
        obtain ⟨way, hway⟩ := ih hentry
        exact ⟨way, .enter hdir hx' hsub hway⟩
      · rw [walkEntry_manifest hfile] at hentry
        refine ⟨_, .manifest hdir hx' hfile ?_⟩
        cases hread : disk.read (dir ++ [.name "SKILL.md"]) with
        | error e' =>
          rw [hread] at hentry
          rw [Except.error.inj (Option.some.inj hentry)]
        | ok bytes =>
          rw [hread] at hentry
          cases Option.some.inj hentry
      · rw [walkEntry_other hfile hother] at hentry
        cases Option.some.inj hentry

/-- **Every walk comes to its end.** -/
theorem walk_isSome (disk : Disk ε) (o : Listing) (dir : Way) :
    (walk disk o disk.tree.enough dir).isSome := by
  refine FileTree.walk_ends (fun fuel dir => (walk disk o fuel dir).isSome) (fun fuel dir ih => ?_) dir
  rw [walk]
  cases hdir : disk.readDir dir with
  | error e => rfl
  | ok names =>
    obtain ⟨d, hd, hnode, -⟩ := readDir_ok hdir
    refine walkEntries_isSome (fun x _ => ?_)
    rcases entry_cases disk dir x with hsub | ⟨hfile, rfl⟩ | ⟨hfile, hother⟩
    · rw [walkEntry_dir hsub]
      exact ih x (FileTree.metadata_eq_some.mpr ⟨d, hd, hnode⟩) hsub
    · rw [walkEntry_manifest hfile]
      rfl
    · rw [walkEntry_other hfile hother]
      rfl

theorem walk_mono {n m : Nat} (hle : n ≤ m)
    (h : walk disk o n dir = some r) : walk disk o m dir = some r := by
  induction n generalizing m dir r with
  | zero => cases h
  | succ n ih =>
    obtain ⟨m, rfl⟩ : ∃ m', m = m' + 1 := ⟨m - 1, by omega⟩
    rw [walk] at h ⊢
    cases hdir : disk.readDir dir with
    | error e =>
      rw [hdir] at h
      exact h
    | ok names =>
      rw [hdir] at h
      refine walkEntries_congr (fun x _ r hr => ?_) h
      rcases entry_cases disk dir x with hsub | ⟨hfile, rfl⟩ | ⟨hfile, hother⟩
      · rw [walkEntry_dir hsub] at hr ⊢
        exact ih (by omega) hr
      · rw [walkEntry_manifest hfile] at hr ⊢
        exact hr
      · rw [walkEntry_other hfile hother] at hr ⊢
        exact hr

/-! ### Which comes first -/

theorem Fails.through (h : Fails disk dir way e) : ∃ rest, way = dir ++ rest := by
  induction h with
  | listing => exact ⟨[], (append_nil _).symm⟩
  | manifest => exact ⟨_, rfl⟩
  | @enter dir way names x e _ _ _ _ ih =>
    obtain ⟨rest, rfl⟩ := ih
    exact ⟨.name x :: rest, by rw [append_assoc, singleton_append]⟩

theorem walk_along {rest : Way} (hdir : disk.readDir dir = .ok names) (hx : x ∈ names)
    (h : walk disk (.along (dir ++ .name x :: rest)) (fuel + 1) dir = some r) :
    ∃ first, walkEntry disk (walk disk (.along (dir ++ .name x :: rest)) fuel) (dir ++ [.name x]) x
        = some first ∧ (∀ e, first = .error e → r = .error e) ∧
      ∀ part l, first = .ok part → r = .ok l → ∃ later, l = part ++ later := by
  rw [walk, hdir] at h
  dsimp only at h
  rw [Listing.order_along hx, walkEntries] at h
  split at h
  · cases h
  · next e he =>
    obtain rfl := Option.some.inj h
    exact ⟨_, he, fun _ hfirst => hfirst, fun _ _ hfirst => (by cases hfirst)⟩
  · next part hpart =>
    obtain ⟨r', -, rfl⟩ := Option.map_eq_some_iff.mp h
    refine ⟨_, hpart, fun e hfirst => (by cases hfirst), fun part' l hfirst hl => ?_⟩
    obtain rfl := Except.ok.inj hfirst
    cases r' with
    | error e => cases hl
    | ok later => exact ⟨later, (Except.ok.inj hl).symm⟩

/-- **A walk may fail at any of the places where it can.** -/
theorem walk_fails_first (hfails : Fails disk dir way e)
    (h : walk disk (.along way) fuel dir = some r) : r = .error e := by
  induction hfails generalizing fuel r with
  | @listing dir e herror =>
    cases fuel with
    | zero => cases h
    | succ fuel =>
      rw [walk, herror] at h
      exact (Option.some.inj h).symm
  | manifest hnames hx hfile hread =>
    cases fuel with
    | zero => cases h
    | succ fuel =>
      obtain ⟨first, hfirst, hstops, -⟩ := walk_along hnames hx h
      rw [walkEntry_manifest hfile, hread] at hfirst
      exact hstops _ (Option.some.inj hfirst).symm
  | enter hnames hx hsub hfails ih =>
    cases fuel with
    | zero => cases h
    | succ fuel =>
      obtain ⟨rest, hway⟩ := hfails.through
      rw [append_assoc, singleton_append] at hway
      rw [hway] at h ih
      obtain ⟨first, hfirst, hstops, -⟩ := walk_along hnames hx h
      rw [walkEntry_dir hsub] at hfirst
      exact hstops _ (ih hfirst)

/-- **A walk may come to any manifest first.** -/
theorem walk_found_first (hfound : Found disk dir way bytes)
    (h : walk disk (.along way) fuel dir = some (.ok l)) : ∃ rest, l = ⟨way, bytes⟩ :: rest := by
  induction hfound generalizing fuel l with
  | manifest hnames hx hfile hread =>
    cases fuel with
    | zero => cases h
    | succ fuel =>
      obtain ⟨first, hfirst, -, hgoes⟩ := walk_along hnames hx h
      rw [walkEntry_manifest hfile, hread] at hfirst
      exact hgoes _ l (Option.some.inj hfirst).symm rfl
  | @enter dir way names x bytes hnames hx hsub hfound ih =>
    cases fuel with
    | zero => cases h
    | succ fuel =>
      obtain ⟨y, rest, hway⟩ := hfound.through
      rw [append_assoc, singleton_append] at hway
      rw [hway] at h ih
      obtain ⟨first, hfirst, hstops, hgoes⟩ := walk_along hnames hx h
      rw [walkEntry_dir hsub] at hfirst
      cases first with
      | error e => cases hstops e rfl
      | ok part =>
        obtain ⟨later, rfl⟩ := hgoes part l rfl rfl
        obtain ⟨rest', rfl⟩ := ih hfirst
        exact ⟨rest' ++ later, by rw [hway]; rfl⟩

/-! ### The loop over the manifests -/

variable {m : Manifest} {found : List Manifest} {skills : OrdMap String DiscoveredSkill} {count : Nat}

theorem parse_ok {skill : DiscoveredSkill}
    (h : parseSkillManifest (ε := ε) way bytes = .ok skill) : skill.manifestPath = way := by
  rw [parseSkillManifest] at h
  split at h
  · cases h
  · cases h
  · cases h
  · rw [← Except.ok.inj h]

variable {err : SkillDiscoveryError ε}

theorem parse_error (h : parseSkillManifest way bytes = .error err) :
    ∃ reason, err = .invalidMetadata way reason := by
  rw [parseSkillManifest] at h
  split at h
  · exact ⟨_, (Except.error.inj h).symm⟩
  · exact ⟨_, (Except.error.inj h).symm⟩
  · exact ⟨_, (Except.error.inj h).symm⟩
  · cases h

theorem fill_keeps {key : String} (found : List Manifest) (h : skills.find? key ≠ none) :
    (fill (ε := ε) found skills count).1.find? key ≠ none := by
  induction found generalizing skills count with
  | nil => exact h
  | cons m found ih =>
    rw [fill]
    split
    · exact h
    · refine ih ?_
      rw [OrdMap.find?_insert]
      split_ifs
      · exact Option.some_ne_none _
      · exact h

variable {n : Nat}

theorem fill_ok (h : (fill (ε := ε) found skills count).2 = .ok n) :
    n = count + found.length ∧
    (∀ m ∈ found, ∃ skill, parseSkillManifest (ε := ε) m.path m.bytes = .ok skill) ∧
    ∀ key skill, (fill (ε := ε) found skills count).1.find? key = some skill →
      skills.find? key = some skill ∨ (skill.name = key ∧
        ∃ m ∈ found, parseSkillManifest (ε := ε) m.path m.bytes = .ok skill) := by
  induction found generalizing skills count with
  | nil =>
    obtain rfl := Except.ok.inj h
    exact ⟨rfl, fun m hm => absurd hm not_mem_nil, fun key skill hskill => .inl hskill⟩
  | cons m found ih =>
    rw [fill] at h ⊢
    split at h
    · cases h
    · next skill hparse =>
      obtain ⟨hn, hall, hkeys⟩ := ih h
      refine ⟨?_, forall_mem_cons.mpr ⟨⟨skill, hparse⟩, hall⟩, fun key skill' hkey => ?_⟩
      · rw [hn, length_cons]
        omega
      · rcases hkeys key skill' hkey with hold | ⟨hname, m', hm', hparse'⟩
        · rw [OrdMap.find?_insert] at hold
          split_ifs at hold with heq
          · obtain rfl := Option.some.inj hold
            exact .inr ⟨heq.symm, m, mem_cons_self, hparse⟩
          · exact .inl hold
        · exact .inr ⟨hname, m', mem_cons_of_mem m hm', hparse'⟩

theorem fill_error (h : (fill found skills count).2 = .error err) :
    ∃ m ∈ found, parseSkillManifest m.path m.bytes = .error err := by
  induction found generalizing skills count with
  | nil => cases h
  | cons m found ih =>
    rw [fill] at h
    split at h
    · next e he =>
      rw [Except.error.inj h] at he
      exact ⟨m, mem_cons_self, he⟩
    · obtain ⟨m', hm', herr⟩ := ih h
      exact ⟨m', mem_cons_of_mem m hm', herr⟩

theorem fill_has {skill : DiscoveredSkill} (h : (fill (ε := ε) found skills count).2 = .ok n)
    (hm : m ∈ found) (hparse : parseSkillManifest (ε := ε) m.path m.bytes = .ok skill) :
    (fill (ε := ε) found skills count).1.find? skill.name ≠ none := by
  induction found generalizing skills count with
  | nil => cases hm
  | cons m' found ih =>
    rw [fill] at h ⊢
    split at h
    · cases h
    · next skill' hparse' =>
      rcases mem_cons.mp hm with rfl | hm
      · obtain rfl := Except.ok.inj (hparse.symm.trans hparse')
        refine fill_keeps found ?_
        rw [OrdMap.find?_insert, if_pos rfl]
        exact Option.some_ne_none _
      · exact ih h hm

/-! ### A refresh -/

variable {prior : SkillRegistry} {fuel : Nat}

theorem manifests_ok (h : manifests disk o fuel dir = some (.ok l)) :
    (∀ m, m ∈ l ↔ Finds disk dir m.path m.bytes) ∧ (∀ way e, ¬ Faults disk dir way e) ∧
      (l.map Manifest.path).Nodup := by
  rw [manifests] at h
  split_ifs at h with hthere
  · have hcomplete := walk_ok h
    exact ⟨fun m => (hcomplete.mem m).trans (and_iff_right hthere).symm,
      fun way e hfault => hcomplete.reads way e hfault.2, hcomplete.nodup⟩
  · obtain rfl := Except.ok.inj (Option.some.inj h)
    exact ⟨fun m => iff_of_false not_mem_nil (fun hfind => hthere hfind.1),
      fun way e hfault => hthere hfault.1, nodup_nil⟩

theorem manifests_error (h : manifests disk o fuel dir = some (.error e)) :
    ∃ way, Faults disk dir way e := by
  rw [manifests] at h
  split_ifs at h with hthere
  · obtain ⟨way, hway⟩ := walk_error h
    exact ⟨way, hthere, hway⟩
  · cases Option.some.inj h

/-- **Every refresh returns**, and what it returns is from what it finds. -/
theorem returns_iff (disk : Disk ε) (dir : Way) (prior : SkillRegistry) (o : Listing) :
    ∃ found, manifests disk o disk.tree.enough dir = some found ∧
      ∀ r, Returns disk dir prior o r ↔ r = outcome found := by
  obtain ⟨found, hfound⟩ : ∃ found, ∀ fuel, disk.tree.enough ≤ fuel →
      manifests disk o fuel dir = some found := by
    by_cases hthere : (disk.tree.metadata dir).isSome
    · obtain ⟨found, hfound⟩ := Option.isSome_iff_exists.mp (walk_isSome disk o dir)
      refine ⟨found, fun fuel hfuel => ?_⟩
      rw [manifests, if_pos hthere]
      exact walk_mono hfuel hfound
    · exact ⟨.ok [], fun fuel _ => if_neg hthere⟩
  have hrefresh : ∀ fuel, disk.tree.enough ≤ fuel →
      prior.refresh disk o fuel dir = some (outcome found) := by
    intro fuel hfuel
    rw [SkillRegistry.refresh, hfound fuel hfuel, Option.map_some]
  refine ⟨found, hfound _ (Nat.le_refl _), fun r => ⟨fun ⟨fuel, hfuel⟩ => ?_, ?_⟩⟩
  · have hr := hfuel (max fuel disk.tree.enough) (Nat.le_max_left _ _)
    rw [hrefresh _ (Nat.le_max_right _ _)] at hr
    exact (Option.some.inj hr).symm
  · rintro rfl
    exact ⟨_, hrefresh⟩

/-! ### All or nothing -/

variable {registry : SkillRegistry} {n : Nat} {skill skill' : DiscoveredSkill}

theorem Offers.ext (h : Offers disk dir skill) (h' : Offers disk dir skill')
    (hpath : skill.manifestPath = skill'.manifestPath) : skill = skill' := by
  obtain ⟨bytes, hfinds, hparse⟩ := h
  obtain ⟨bytes', hfinds', hparse'⟩ := h'
  rw [hpath] at hfinds hparse
  have hbytes := Except.ok.inj (hfinds.2.read.symm.trans hfinds'.2.read)
  rw [hbytes] at hparse
  exact Except.ok.inj (hparse.symm.trans hparse')

theorem Holds.ext {registry' : SkillRegistry} {n' : Nat} (h : Holds disk dir registry n)
    (h' : Holds disk dir registry' n') : registry = registry' ∧ n = n' := by
  have hskills : registry.skills = registry'.skills := by
    refine OrdMap.ext (fun key => Option.ext (fun skill => ?_))
    rw [← OrdMap.mem_entries, ← OrdMap.mem_entries, h.entries, h'.entries]
  refine ⟨congrArg SkillRegistry.mk hskills, ?_⟩
  rw [← h.length, ← h'.length, hskills]

/-- **A refresh that can read everything holds each skill**, if the skills have names of their own. -/
theorem holds_of_distinct (h : manifests disk o fuel dir = some (.ok l))
    (hparse : ∀ way bytes, Finds disk dir way bytes →
      ∃ skill, parseSkillManifest (ε := ε) way bytes = .ok skill)
    (hnames : ∀ skill skill', Offers disk dir skill → Offers disk dir skill' →
      skill.name = skill'.name → skill.manifestPath = skill'.manifestPath) :
    ∃ registry n, outcome (ε := ε) (.ok l) = (registry, .ok n) ∧ Holds disk dir registry n := by
  obtain ⟨hmem, -, hnodup⟩ := manifests_ok h
  have hoffer : ∀ m ∈ l, ∀ skill, parseSkillManifest (ε := ε) m.path m.bytes = .ok skill →
      Offers disk dir skill := by
    intro m hm skill hskill
    have hpath := parse_ok hskill
    exact ⟨m.bytes, hpath ▸ (hmem m).mp hm, hpath ▸ hskill⟩
  cases hfill : (fill (ε := ε) l .empty 0).2 with
  | error err =>
    obtain ⟨m, hm, herr⟩ := fill_error hfill
    obtain ⟨skill, hskill⟩ := hparse _ _ ((hmem m).mp hm)
    cases hskill.symm.trans herr
  | ok n =>
    obtain ⟨hn, -, hkeys⟩ := fill_ok hfill
    have hentries : ∀ e, e ∈ (fill (ε := ε) l .empty 0).1.entries ↔
        e.1 = e.2.name ∧ Offers disk dir e.2 := by
      intro e
      have hkey : ∀ key skill, (fill (ε := ε) l .empty 0).1.find? key = some skill →
          key = skill.name ∧ Offers disk dir skill := by
        intro key skill hskill
        rcases hkeys key skill hskill with hempty | ⟨hname, m, hm, hm'⟩
        · cases hempty
        · exact ⟨hname.symm, hoffer m hm skill hm'⟩
      rw [← Prod.eta e, OrdMap.mem_entries]
      refine ⟨hkey e.1 e.2, fun ⟨hname, hoffers⟩ => ?_⟩
      obtain ⟨bytes, hfinds, hskill⟩ := id hoffers
      have hthere := fill_has hfill ((hmem ⟨e.2.manifestPath, bytes⟩).mpr hfinds) hskill
      obtain ⟨skill', hskill'⟩ := Option.ne_none_iff_exists'.mp hthere
      obtain ⟨hname', hoffers'⟩ := hkey _ _ hskill'
      rw [hname, hskill', hoffers.ext hoffers' (hnames _ _ hoffers hoffers' hname')]
    have hone : ((fill (ε := ε) l .empty 0).1.entries.map (fun e => e.2.manifestPath)).Nodup := by
      have hsorted := (fill (ε := ε) l .empty 0).1.sorted
      refine List.Nodup.map_on (fun e he e' he' hpath => ?_)
        (hsorted.imp (fun hlt heq => absurd (congrArg Prod.fst heq) (ne_of_lt hlt)))
      obtain ⟨hname, hoffers⟩ := (hentries e).mp he
      obtain ⟨hname', hoffers'⟩ := (hentries e').mp he'
      have hskill := hoffers.ext hoffers' hpath
      exact Prod.ext (by rw [hname, hname', hskill]) hskill
    have hfound : ∀ way bytes, Finds disk dir way bytes →
        ∃ e ∈ (fill (ε := ε) l .empty 0).1.entries, e.2.manifestPath = way := by
      intro way bytes hfinds
      obtain ⟨skill, hskill⟩ := hparse way bytes hfinds
      have hpath := parse_ok hskill
      exact ⟨(skill.name, skill), (hentries _).mpr ⟨rfl, bytes, hpath ▸ hfinds, hpath ▸ hskill⟩, hpath⟩
    refine ⟨_, n, congrArg _ hfill, ?_, hentries, hfound, hone⟩
    -- the paths of the entries are those of the manifests
    have hperm : ((fill (ε := ε) l .empty 0).1.entries.map (fun e => e.2.manifestPath)).Perm
        (l.map Manifest.path) := by
      refine (perm_ext_iff_of_nodup hone hnodup).mpr (fun way => ?_)
      rw [mem_map, mem_map]
      constructor
      · rintro ⟨e, he, rfl⟩
        obtain ⟨-, bytes, hfinds, -⟩ := (hentries e).mp he
        exact ⟨⟨_, bytes⟩, (hmem _).mpr hfinds, rfl⟩
      · rintro ⟨m, hm, rfl⟩
        exact hfound _ _ ((hmem m).mp hm)
    have hlength := hperm.length_eq
    rw [length_map, length_map] at hlength
    show (fill (ε := ε) l .empty 0).1.entries.length = n
    omega

theorem Holds.distinct (h : Holds disk dir registry n) (hoffers : Offers disk dir skill)
    (hoffers' : Offers disk dir skill') (hname : skill.name = skill'.name) :
    skill.manifestPath = skill'.manifestPath := by
  have hfirst := OrdMap.mem_entries.mp ((h.entries (skill.name, skill)).mpr ⟨rfl, hoffers⟩)
  have hsecond := OrdMap.mem_entries.mp ((h.entries (skill'.name, skill')).mpr ⟨rfl, hoffers'⟩)
  rw [hname] at hfirst
  rw [Option.some.inj (hfirst.symm.trans hsecond)]

theorem outcome_invalid {rest : List Manifest} (h : parseSkillManifest way bytes = .error err) :
    outcome (.ok (⟨way, bytes⟩ :: rest)) = (⟨.empty⟩, .error err) := by
  rw [outcome, fill, h]

theorem manifests_of_reads (hreads : ∀ way e, ¬ Faults disk dir way e)
    (h : manifests disk o fuel dir = some r) : ∃ l, r = .ok l := by
  cases r with
  | error e =>
    obtain ⟨way, hway⟩ := manifests_error h
    exact absurd hway (hreads way e)
  | ok l => exact ⟨l, rfl⟩

theorem manifests_first (hfinds : Finds disk dir way bytes)
    (h : manifests disk (.along way) fuel dir = some (.ok l)) : ∃ rest, l = ⟨way, bytes⟩ :: rest := by
  rw [manifests, if_pos hfinds.1] at h
  exact walk_found_first hfinds.2 h

theorem returns_fault (prior : SkillRegistry) (hfault : Faults disk dir way e) :
    Returns disk dir prior (.along way) (⟨.empty⟩, .error (.io e)) := by
  obtain ⟨found, hfound, hreturns⟩ := returns_iff disk dir prior (.along way)
  rw [manifests, if_pos hfault.1] at hfound
  rw [hreturns, walk_fails_first hfault.2 hfound]
  rfl

theorem returns_first (prior : SkillRegistry)
    (hreads : ∀ way e, ¬ Faults disk dir way e) (hfinds : Finds disk dir way bytes) :
    ∃ rest, (∀ m ∈ rest, Finds disk dir m.path m.bytes) ∧
      Returns disk dir prior (.along way) (outcome (.ok (⟨way, bytes⟩ :: rest))) := by
  obtain ⟨found, hfound, hreturns⟩ := returns_iff disk dir prior (.along way)
  obtain ⟨l, rfl⟩ := manifests_of_reads hreads hfound
  obtain ⟨rest, rfl⟩ := manifests_first hfinds hfound
  obtain ⟨hmem, -, -⟩ := manifests_ok hfound
  exact ⟨rest, fun m hm => (hmem m).mp (mem_cons_of_mem _ hm), (hreturns _).mpr rfl⟩

theorem settled_of_lawful (h : Lawful disk dir prior) : Settled disk dir prior := by
  by_cases hreads : ∀ way e, ¬ Faults disk dir way e
  · by_cases hparse : ∀ way bytes, Finds disk dir way bytes →
        ∃ skill, parseSkillManifest (ε := ε) way bytes = .ok skill
    · refine .all hreads hparse (fun skill skill' hoffers hoffers' hname => ?_)
      obtain ⟨found, hfound, hreturns⟩ := returns_iff disk dir prior .plain
      obtain ⟨l, rfl⟩ := manifests_of_reads hreads hfound
      cases hfill : (fill (ε := ε) l .empty 0).2 with
      | error err =>
        obtain ⟨m, hm, herr⟩ := fill_error hfill
        obtain ⟨skill, hskill⟩ := hparse _ _ (((manifests_ok hfound).1 m).mp hm)
        cases hskill.symm.trans herr
      | ok n =>
        have hholds := h.whole .plain _ n ((hreturns _).mpr (congrArg (Prod.mk _) hfill.symm))
        exact hholds.distinct hoffers hoffers' hname
    · -- One manifest is not one of a skill: no other may be found before it.
      push Not at hparse
      obtain ⟨way, bytes, hfinds, hskill⟩ := hparse
      obtain ⟨err, herr⟩ : ∃ err, parseSkillManifest (ε := ε) way bytes = .error err := by
        cases hresult : parseSkillManifest (ε := ε) way bytes with
        | error err => exact ⟨err, rfl⟩
        | ok skill => exact absurd hresult (hskill skill)
      obtain ⟨rest, -, hreturns⟩ := returns_first prior hreads hfinds
      rw [outcome_invalid herr] at hreturns
      have hempty := congrArg SkillRegistry.skills (h.kept _ _ _ hreturns)
      refine .invalid way bytes err hempty.symm hreads hfinds (fun way' bytes' hfinds' => ?_) herr
      obtain ⟨rest', -, hreturns'⟩ := returns_first prior hreads hfinds'
      have hsame := h.same _ _ _ _ hreturns hreturns'
      cases hresult : parseSkillManifest (ε := ε) way' bytes' with
      | error err' =>
        rw [outcome_invalid hresult] at hsame
        obtain ⟨reason, rfl⟩ := parse_error herr
        obtain ⟨reason', rfl⟩ := parse_error hresult
        exact (SkillDiscoveryError.invalidMetadata.inj
          (Except.error.inj (Prod.mk.inj hsame).2)).1.symm
      | ok skill =>
        have hkeeps : (fill (ε := ε) rest' (OrdMap.empty.insert skill.name skill) 1).1.find? skill.name
            ≠ none := by
          refine fill_keeps rest' ?_
          rw [OrdMap.find?_insert, if_pos rfl]
          exact Option.some_ne_none _
        have hregistry := congrArg (fun r => r.1.skills.find? skill.name) hsame
        simp only [outcome, fill, hresult] at hregistry
        exact absurd hregistry.symm hkeeps
  · push Not at hreads
    obtain ⟨way, e, hfault⟩ := hreads
    have hreturns := returns_fault prior hfault
    refine .unread way e (congrArg SkillRegistry.skills (h.kept _ _ _ hreturns)).symm hfault
      (fun way' e' hfault' => ?_)
    have hsame := h.same _ _ _ _ hreturns (returns_fault prior hfault')
    exact (SkillDiscoveryError.io.inj (Except.error.inj (Prod.mk.inj hsame).2)).symm

theorem lawful_of_returns {r : SkillRegistry × Except (SkillDiscoveryError ε) Nat}
    (hreturns : ∀ o r', Returns disk dir prior o r' ↔ r' = r)
    (hwhole : ∀ registry n, r = (registry, .ok n) → Holds disk dir registry n)
    (hkept : ∀ registry err, r = (registry, .error err) → registry = prior) :
    Lawful disk dir prior where
  ends o := ⟨r, (hreturns o r).mpr rfl⟩
  whole o registry n h := hwhole registry n ((hreturns o _).mp h).symm
  kept o registry err h := hkept registry err ((hreturns o _).mp h).symm
  same o o' r₁ r₂ h h' := ((hreturns o r₁).mp h).trans ((hreturns o' r₂).mp h').symm

theorem lawful_of_settled (h : Settled disk dir prior) : Lawful disk dir prior := by
  cases h with
  | all hreads hparse hnames =>
    have hall : ∀ o, ∃ registry n, Holds disk dir registry n ∧
        ∀ r, Returns disk dir prior o r ↔ r = (registry, .ok n) := by
      intro o
      obtain ⟨found, hfound, hreturns⟩ := returns_iff disk dir prior o
      obtain ⟨l, rfl⟩ := manifests_of_reads hreads hfound
      obtain ⟨registry, n, houtcome, hholds⟩ := holds_of_distinct hfound hparse hnames
      exact ⟨registry, n, hholds, houtcome ▸ hreturns⟩
    obtain ⟨registry, n, hholds, -⟩ := hall .plain
    refine lawful_of_returns (r := (registry, .ok n)) (fun o r => ?_) (fun _ _ h => ?_)
      (fun _ _ h => (by cases h))
    · obtain ⟨registry', n', hholds', hreturns⟩ := hall o
      obtain ⟨rfl, rfl⟩ := hholds.ext hholds'
      exact hreturns r
    · obtain ⟨rfl, hn⟩ := Prod.mk.inj h
      exact Except.ok.inj hn ▸ hholds
  | unread way e hempty hfault hone =>
    refine lawful_of_returns (r := (⟨.empty⟩, .error (.io e))) (fun o r => ?_)
      (fun _ _ h => (by cases h)) (fun _ _ h => ?_)
    · obtain ⟨found, hfound, hreturns⟩ := returns_iff disk dir prior o
      cases found with
      | error e' =>
        obtain ⟨way', hfault'⟩ := manifests_error hfound
        obtain rfl := hone way' e' hfault'
        exact hreturns r
      | ok l => exact absurd hfault ((manifests_ok hfound).2.1 way e)
    · rw [← (Prod.mk.inj h).1, ← hempty]
  | invalid way bytes err hempty hreads hfinds hone herr =>
    refine lawful_of_returns (r := (⟨.empty⟩, .error err)) (fun o r => ?_)
      (fun _ _ h => (by cases h)) (fun _ _ h => ?_)
    · obtain ⟨found, hfound, hreturns⟩ := returns_iff disk dir prior o
      obtain ⟨l, rfl⟩ := manifests_of_reads hreads hfound
      obtain ⟨hmem, -, -⟩ := manifests_ok hfound
      rw [hreturns]
      cases l with
      | nil => exact absurd ((hmem ⟨way, bytes⟩).mpr hfinds) not_mem_nil
      | cons m rest =>
        have hm := (hmem m).mp mem_cons_self
        have hpath := hone _ _ hm
        obtain ⟨path, bytes'⟩ := m
        obtain rfl : path = way := hpath
        obtain rfl := Except.ok.inj (hfinds.2.read.symm.trans hm.2.read)
        rw [outcome_invalid herr]
    · rw [← (Prod.mk.inj h).1, ← hempty]

/-- **When a refresh is all or nothing, and the same whatever the listings.** -/
theorem registry_lawful_iff (disk : Disk ε) (dir : Way) (prior : SkillRegistry) :
    Lawful disk dir prior ↔ Settled disk dir prior := ⟨settled_of_lawful, lawful_of_settled⟩

def broken : Disk Unit :=
  ⟨(FileTree.empty.write ["SKILL.md"] []).getD .empty, fun _ => false, fun _ => ()⟩

def known : SkillRegistry := ⟨.ofList [("lint", ⟨"lint", "1", "", [], ""⟩)]⟩

def twin : List UInt8 := Utf8.encode "name: lint\nversion: 2\ndescription: d\n".toList

def twins : Disk Unit where
  tree := ((((FileTree.empty.mkdir ["a"]).bind (·.mkdir ["b"])).bind
    (·.write ["a", "SKILL.md"] twin)).bind (·.write ["b", "SKILL.md"] twin)).getD .empty
  denied _ := false
  error _ := ()

/-- A manifest that is none leaves the registry empty, and of two skills of one name only one is there. -/
theorem emptied_and_merged : ¬ Lawful broken [] known ∧ ¬ Lawful twins [] ⟨.empty⟩ := by
  constructor
  · intro h
    obtain ⟨found, hfound, hreturns⟩ := returns_iff broken [] known .plain
    have hwalk : manifests broken .plain broken.tree.enough []
        = some (.ok [⟨[.name "SKILL.md"], []⟩]) := by rfl
    obtain rfl := Option.some.inj (hwalk.symm.trans hfound)
    have hkept := h.kept .plain _ _ ((hreturns _).mpr rfl)
    exact absurd (congrArg (fun r => r.skills.entries.length) hkept) (by decide)
  · intro h
    obtain ⟨found, hfound, hreturns⟩ := returns_iff twins [] ⟨.empty⟩ .plain
    have hwalk : manifests twins .plain twins.tree.enough []
        = some (.ok [⟨[.name "a", .name "SKILL.md"], twin⟩, ⟨[.name "b", .name "SKILL.md"], twin⟩]) := by
      rfl
    obtain rfl := Option.some.inj (hwalk.symm.trans hfound)
    have hholds := h.whole .plain _ 2 ((hreturns _).mpr rfl)
    exact absurd hholds.length (by decide +kernel)

end Skills

end Modbit
