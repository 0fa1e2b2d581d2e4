import Modbit.Agent.Disclosure
import Modbit.Agent.WorktreeTools
import Modbit.Lib.Utf8Loss
import Modbit.Workspace.Patches

/-!
# Exact edits

`change.apply` looks for the old text in the lossy reading of the file, counts matches that do not
overlap, and puts back the encoded text.  It is exact on a file that is UTF-8 and has the old text at
one position, and where it is not to edit, it does not if and only if one of its gates refuses
(`exact_iff`): a match may overlap with itself, come out of replacement characters, or stand in a
file whose other bytes are no text, and a negative revision is not looked at.
-/

namespace Modbit

open Lib Workspace List

namespace WorktreeTools

namespace Tools

/-! ### Occurrences -/

/-- The list has the other in it at one position. -/
def Once {α : Type} (old l : List α) : Prop :=
  ∃ b a, l = b ++ old ++ a ∧ ∀ b' a', l = b' ++ old ++ a' → b' = b

theorem Once.eq_nil {α : Type} {l : List α} (h : Once [] l) : l = [] := by
  obtain ⟨b, a, rfl, hunique⟩ := h
  have hfirst := hunique [] (b ++ [] ++ a) rfl
  have hlast := hunique (b ++ [] ++ a) [] (by simp)
  rw [← hlast] at hfirst
  exact hfirst.symm

variable {old new l b a : List Char}

def First (old b a : List Char) : Prop :=
  ∀ b' a', b ++ old ++ a = b' ++ old ++ a' → b.length ≤ b'.length

theorem countFrom_drop (old l : List Char) : ∀ skip,
    countFrom old skip l = countFrom old 0 (l.drop skip) := by
  induction l with
  | nil =>
    intro skip
    rw [drop_nil, countFrom, countFrom]
  | cons c l ih =>
    intro skip
    cases skip with
    | zero => rfl
    | succ skip =>
      rw [countFrom, drop_succ_cons]
      exact ih skip

theorem countFrom_none (h : ¬ old <:+: l) : countFrom old 0 l = 0 := by
  induction l with
  | nil =>
    rw [countFrom, if_neg]
    rintro rfl
    exact h infix_rfl
  | cons c l ih =>
    rw [countFrom, if_neg (fun hmatch => h hmatch.isInfix)]
    exact ih (fun hin => h (hin.trans (suffix_cons c l).isInfix))

theorem First.not_prefix {c : Char} (h : First old (c :: b) a) : ¬ old <+: c :: (b ++ old ++ a) := by
  rintro ⟨a', ha'⟩
  exact absurd (h [] a' ha'.symm) (Nat.not_succ_le_zero _)

theorem First.tail {c : Char} (h : First old (c :: b) a) : First old b a := by
  intro b' a' h'
  have := h (c :: b') a' (congrArg (c :: ·) h')
  rw [length_cons, length_cons] at this
  exact Nat.le_of_succ_le_succ this

theorem countFrom_first (hold : old ≠ []) (h : First old b a) :
    countFrom old 0 (b ++ old ++ a) = countFrom old 0 a + 1 := by
  induction b with
  | nil =>
    obtain ⟨c, rest, rfl⟩ := exists_cons_of_ne_nil hold
    rw [nil_append, cons_append, countFrom,
      if_pos (by rw [← cons_append]; exact prefix_append _ _), countFrom_drop]
    rw [length_cons, Nat.add_sub_cancel, drop_left]
  | cons c b ih =>
    rw [cons_append, cons_append, countFrom, if_neg h.not_prefix]
    exact ih h.tail

theorem replaceFirst_first (hold : old ≠ []) (new : List Char) (h : First old b a) :
    replaceFirst old new (b ++ old ++ a) = b ++ new ++ a := by
  induction b with
  | nil =>
    obtain ⟨c, rest, rfl⟩ := exists_cons_of_ne_nil hold
    rw [nil_append, cons_append, replaceFirst,
      if_pos (by rw [← cons_append]; exact prefix_append _ _), ← cons_append, drop_left]
    rfl
  | cons c b ih =>
    rw [cons_append, cons_append, replaceFirst, if_neg h.not_prefix]
    exact congrArg (c :: ·) (ih h.tail)

theorem exists_first (h : old <:+: l) : ∃ b a, l = b ++ old ++ a ∧ First old b a := by
  induction l with
  | nil =>
    obtain rfl := infix_nil.mp h
    exact ⟨[], [], rfl, fun _ _ _ => Nat.zero_le _⟩
  | cons c l ih =>
    by_cases hmatch : old <+: c :: l
    · obtain ⟨a, ha⟩ := hmatch
      exact ⟨[], a, ha.symm, fun _ _ _ => Nat.zero_le _⟩
    · obtain ⟨b, a, rfl, hfirst⟩ := ih ((infix_cons_iff.mp h).resolve_left hmatch)
      refine ⟨c :: b, a, rfl, fun b' a' h' => ?_⟩
      cases b' with
      | nil => exact absurd ⟨a', h'.symm⟩ hmatch
      | cons d b' =>
        exact Nat.succ_le_succ (hfirst b' a' (List.cons.inj h').2)

theorem infix_of_counted (h : countFrom old 0 l = 1) : old <:+: l := by
  by_contra hno
  rw [countFrom_none hno] at h
  cases h

theorem exists_replaceFirst (new : List Char) (h : old <:+: l) :
    ∃ b a, l = b ++ old ++ a ∧ replaceFirst old new l = b ++ new ++ a := by
  by_cases hold : old = []
  · subst hold
    refine ⟨[], l, rfl, ?_⟩
    cases l with
    | nil => simp [replaceFirst]
    | cons c l =>
      rw [replaceFirst, if_pos nil_prefix]
      rfl
  · obtain ⟨b, a, rfl, hfirst⟩ := exists_first h
    exact ⟨b, a, rfl, replaceFirst_first hold new hfirst⟩

theorem countFrom_of_once (h : Once old l) : countFrom old 0 l = 1 := by
  by_cases hold : old = []
  · subst hold
    rw [h.eq_nil]
    rfl
  · obtain ⟨b, a, rfl, hunique⟩ := h
    have hfirst : First old b a := fun b' a' h' => by rw [hunique b' a' h']
    rw [countFrom_first hold hfirst, countFrom_none]
    rintro ⟨x, y, rfl⟩
    -- a match behind this one is at another position
    have hagain := hunique (b ++ old ++ x) y (by simp)
    have hlength := congrArg List.length hagain
    have hpos := length_pos_of_ne_nil hold
    rw [length_append, length_append] at hlength
    omega

/-! ### Texts and bytes -/

theorem once_of_encode {t : List Char} (h : Once (Utf8.encode old) (Utf8.encode t)) :
    Once old t := by
  by_cases hold : old = []
  · subst hold
    have hnil : t = [] := by
      have := congrArg Utf8.lossy h.eq_nil
      rwa [Utf8.lossy_encode] at this
    subst hnil
    exact ⟨[], [], rfl, fun b' a' h' => by simpa using (append_eq_nil_iff.mp h'.symm).1⟩
  · obtain ⟨b, a, hsplit, hunique⟩ := h
    obtain ⟨s, m, rfl, rfl, rfl⟩ := Utf8.exists_split_of_encode hold hsplit
    refine ⟨s, m, rfl, fun b' a' h' => ?_⟩
    have hbytes := hunique (Utf8.encode b') (Utf8.encode a')
      (by rw [h', Utf8.encode_append, Utf8.encode_append])
    have := congrArg Utf8.lossy hbytes
    rwa [Utf8.lossy_encode, Utf8.lossy_encode] at this

theorem encode_replaceFirst {t : List Char} (h : Once (Utf8.encode old) (Utf8.encode t))
    (new : List Char) {b a : List UInt8} (hsplit : Utf8.encode t = b ++ Utf8.encode old ++ a) :
    Utf8.encode (replaceFirst old new t) = b ++ Utf8.encode new ++ a := by
  obtain ⟨s, m, rfl, hreplace⟩ := exists_replaceFirst new
    (infix_of_counted (countFrom_of_once (once_of_encode h)))
  obtain ⟨b₀, a₀, -, hunique⟩ := h
  rw [Utf8.encode_append, Utf8.encode_append] at hsplit hunique
  obtain rfl := hunique b a hsplit
  have hs := hunique (Utf8.encode s) (Utf8.encode m) rfl
  rw [← hs] at hsplit ⊢
  rw [append_assoc, append_assoc] at hsplit
  rw [hreplace, Utf8.encode_append, Utf8.encode_append,
    append_cancel_left (append_cancel_left hsplit)]

/-- **An edit of the lossy reading that changes no other byte is one of a text.** -/
theorem encode_of_edit {bytes b a : List UInt8} (hcount : countFrom old 0 (Utf8.lossy bytes) = 1)
    (hsplit : bytes = b ++ Utf8.encode old ++ a)
    (hedit : Utf8.encode (replaceFirst old new (Utf8.lossy bytes)) = b ++ Utf8.encode new ++ a) :
    Utf8.encode (Utf8.lossy bytes) = bytes := by
  obtain ⟨s, m, hlossy, hreplace⟩ := exists_replaceFirst new (infix_of_counted hcount)
  refine Utf8.encode_lossy_of_perm ?_
  rw [hreplace, Utf8.encode_append, Utf8.encode_append] at hedit
  have hmove : ∀ x y z : List UInt8, (x ++ y ++ z).Perm (y ++ (x ++ z)) := by
    intro x y z
    rw [← append_assoc]
    exact perm_append_comm.append_right z
  -- what is around the two matches is the same, in whatever order
  have haround : (Utf8.encode s ++ Utf8.encode m).Perm (b ++ a) := by
    have hall := (hmove (Utf8.encode s) (Utf8.encode new) (Utf8.encode m)).symm.trans
      ((List.Perm.of_eq hedit).trans (hmove b (Utf8.encode new) a))
    exact (perm_append_left_iff _).mp hall
  rw [hlossy, Utf8.encode_append, Utf8.encode_append, hsplit]
  exact (hmove _ _ _).trans ((haround.append_left _).trans (hmove _ _ _).symm)

/-! ### The write -/

/-- `tmp` of `replace`. -/
def temporary (file : FilePath) : FilePath := FilePath.withExtension "modbit-tmp" file

def Writable (t : FileTree) (file : FilePath) : Prop :=
  ∃ x, t.place (temporary file) = some x ∧ t.Slot x

section Write

variable {t : FileTree} {file : FilePath} {bytes : List UInt8}

theorem ne_nil_of_file (h : t.node file = some (.file bytes)) : file ≠ [] :=
  (FileTree.slot_of_file h).1

theorem dir_of_file (h : t.node file = some (.file bytes)) : t.node file.dropLast = some .dir :=
  (FileTree.slot_of_file h).2.1

/-- **A write of the temporary file can always be renamed over the file.**  The file then is what
was written, if the temporary file is no link; else it is the link. -/
theorem write_rename (h : t.node file = some (.file bytes)) (hw : Writable t file)
    (out : List UInt8) :
    ∃ t₁ t₂, t.write (temporary file) out = some t₁ ∧
      t₁.rename (temporary file) file = some t₂ ∧
      (t.NotLink (temporary file) → t₂.fileAt file = some out) ∧
      (¬ t.NotLink (temporary file) → t₂.fileAt file = none) := by
  obtain ⟨x, hplace, hslot⟩ := hw
  have hne : temporary file ≠ [] := FilePath.withExtension_ne_nil _ (ne_nil_of_file h)
  have hdrop : (temporary file).dropLast = file.dropLast :=
    FilePath.dropLast_withExtension _ (ne_nil_of_file h)
  have hdir := dir_of_file h
  have hnode := fun y => FileTree.node_update (n := some (.file out)) hslot y
  have hx : x ≠ file.dropLast := by
    rintro rfl
    exact hslot.2.2 hdir
  have hdir₁ : (t.update x (some (.file out)) hslot).node file.dropLast = some .dir := by
    rw [hnode, if_neg (Ne.symm hx)]
    exact hdir
  have hentry := FileTree.entry_of_dir hne (hdrop.symm ▸ hdir₁)
  have hentry' := FileTree.entry_of_dir (ne_nil_of_file h) hdir₁
  -- the write goes to the temporary file itself, or through a link there
  have htemp : (t.NotLink (temporary file) ∧ x = temporary file) ∨
      ∃ target, t.node (temporary file) = some (.link target) ∧ x ≠ temporary file := by
    by_cases hlink : t.NotLink (temporary file)
    · have hplain := FileTree.place_of_plain (Or.inr (hdrop.symm ▸ hdir)) hlink
      rw [hplace] at hplain
      exact Or.inl ⟨hlink, Option.some.inj hplain⟩
    · obtain ⟨target, htarget⟩ := not_forall_not.mp hlink
      refine Or.inr ⟨target, htarget, ?_⟩
      rintro rfl
      exact FileTree.place_notLink hplace target htarget
  have hmoved : ∃ t₂, (t.update x (some (.file out)) hslot).rename (temporary file) file = some t₂ ∧
      t₂.node file = (t.update x (some (.file out)) hslot).node (temporary file) := by
    have hsome : (t.update x (some (.file out)) hslot).node (temporary file) ≠ none ∧
        (t.update x (some (.file out)) hslot).node (temporary file) ≠ some .dir := by
      rw [hnode]
      rcases htemp with ⟨-, rfl⟩ | ⟨target, htarget, hne⟩
      · rw [if_pos rfl]
        exact ⟨Option.some_ne_none _, fun hd => by cases hd⟩
      · rw [if_neg (Ne.symm hne), htarget]
        exact ⟨Option.some_ne_none _, fun hd => by cases hd⟩
    have hfile : (t.update x (some (.file out)) hslot).node file ≠ some .dir := by
      rw [hnode]
      split_ifs
      · exact fun hd => by cases hd
      · rw [h]
        exact fun hd => by cases hd
    by_cases hsame : temporary file = file
    · rw [hsame] at hsome ⊢
      exact ⟨_, FileTree.rename_self hentry' hentry' hsome.1, rfl⟩
    · obtain ⟨t₂, hrename, hafter⟩ := FileTree.rename_of_slot hentry hentry' hsame
        ⟨hne, hdrop.symm ▸ hdir₁, hsome.2⟩ hsome.1 ⟨ne_nil_of_file h, hdir₁, hfile⟩
      refine ⟨t₂, hrename, ?_⟩
      rw [hafter, if_neg (Ne.symm hsame), if_pos rfl]
  obtain ⟨t₂, hrename, hfile⟩ := hmoved
  refine ⟨_, t₂, FileTree.write_of_slot hplace hslot, hrename, ?_, ?_⟩
  · intro hlink
    rcases htemp with ⟨-, rfl⟩ | ⟨target, htarget, -⟩
    · rw [FileTree.fileAt, hfile, hnode, if_pos rfl]
    · exact absurd htarget (hlink target)
  · intro hlink
    rcases htemp with ⟨hplain, -⟩ | ⟨target, htarget, hne⟩
    · exact absurd hplain hlink
    · rw [FileTree.fileAt, hfile, hnode, if_neg (Ne.symm hne), htarget]

theorem write_eq_none (h : ¬ Writable t file) (out : List UInt8) :
    t.write (temporary file) out = none := by
  cases hwrite : t.write (temporary file) out with
  | none => rfl
  | some t₁ =>
    obtain ⟨x, hplace, hslot, -⟩ := FileTree.write_eq_some hwrite
    exact absurd ⟨x, hplace, hslot⟩ h

end Write

/-! ### The call -/

/-- What a call is about: a file that is not one of the service's own, its bytes, and its revision,
which is a first one if it had none.  The service can write its ledger and its journal. -/
structure Edits (s : Tools) (path : String) (file : FilePath) (bytes : List UInt8) (rev : Nat) :
    Prop where
  names : s.ws.Names path file
  node : s.ws.tree.node file = some (.file bytes)
  adopted : (s.ws.adopt path).2 = .ok rev
  foreign : ¬ s.ws.Own file
  books : s.ws.KeepsBooks

/-- The tool answers `"ok": true`. -/
def Ok (out : Tools × Except ToolFailure (ApplyAnswer × Option AppliedEdit)) : Prop :=
  ∃ rev e, out.2 = .ok (.applied rev, e)

/-- The expected revision, if there is one, is the current one. -/
def Current (expected : Option Int) (rev : Nat) : Prop := ∀ e ∈ expected, e = rev

def Fresh (expected : Option Int) (rev : Nat) : Prop := ∀ e ∈ expected, 0 ≤ e → e.toNat = rev

/-- **The promise of an edit.** -/
structure Exact (s : Tools) (path old new : String) (expected : Option Int) (file : FilePath)
    (bytes : List UInt8) (rev : Nat) : Prop where
  ok : Ok (s.changeApply ⟨some path, some old, some new, expected⟩) ↔
    Once (Utf8.encode old.toList) bytes ∧ Current expected rev
  edited : Ok (s.changeApply ⟨some path, some old, some new, expected⟩) →
    ∀ b a, bytes = b ++ Utf8.encode old.toList ++ a →
      (s.changeApply ⟨some path, some old, some new, expected⟩).1.ws.tree.fileAt file
        = some (b ++ Utf8.encode new.toList ++ a)
  kept : ¬ Ok (s.changeApply ⟨some path, some old, some new, expected⟩) →
    (s.changeApply ⟨some path, some old, some new, expected⟩).1.ws.tree.fileAt file = some bytes ∧
    (s.changeApply ⟨some path, some old, some new, expected⟩).1.ws.fileRevision path = some rev ∧
    (s.changeApply ⟨some path, some old, some new, expected⟩).1.ws.journal = s.ws.journal ∧
    ∀ answer, (s.changeApply ⟨some path, some old, some new, expected⟩).2 = .ok answer →
      answer.2 = none

section Call

variable {s : Tools} {path old new : String} {expected : Option Int} {file : FilePath}
  {bytes : List UInt8} {rev : Nat}

theorem read_of_node {t : FileTree} (h : t.node file = some (.file bytes)) :
    t.read file = some bytes := by
  have hplace : t.place file = some file := FileTree.place_of_node h (fun target hl => by cases hl)
  have hthere : t.canonicalize file = some file :=
    FileTree.canonicalize_eq_some.mpr ⟨hplace, h ▸ Option.some_ne_none _⟩
  rw [FileTree.read, hthere, Option.bind_some, h]

theorem Edits.adopt (h : Edits s path file bytes rev) :
    (s.ws.adopt path).1.tree = s.ws.tree ∧ (s.ws.adopt path).1.root = s.ws.root ∧
      (s.ws.adopt path).1.journal = s.ws.journal ∧
      (s.ws.adopt path).1.fileRevision path = some rev := by
  have hanswer := h.adopted
  rw [WorkspaceFileService.adopt, WorkspaceFileService.resolving, h.names] at hanswer ⊢
  dsimp only at hanswer ⊢
  rw [read_of_node h.node] at hanswer ⊢
  cases hrev : s.ws.fileRevision path with
  | some r =>
    rw [hrev] at hanswer
    exact ⟨rfl, rfl, rfl, hrev.trans (congrArg some (Except.ok.inj hanswer))⟩
  | none =>
    rw [hrev] at hanswer
    dsimp only at hanswer ⊢
    refine ⟨rfl, rfl, rfl, ?_⟩
    rw [WorkspaceFileService.fileRevision, RevisionMap.live_record, if_pos rfl, Option.map_some]
    rw [RevisionMap.record, RevisionMap.entry_set, if_pos rfl] at hanswer
    exact congrArg some (Except.ok.inj hanswer)

theorem Edits.names_adopt (h : Edits s path file bytes rev) :
    (s.ws.adopt path).1.resolve path = .ok file := by
  obtain ⟨htree, hroot, -, -⟩ := h.adopt
  have hsame : (s.ws.adopt path).1.resolve path = s.ws.resolve path := by
    simp only [WorkspaceFileService.resolve, WorkspaceFileService.contained, htree, hroot]
  rw [hsame]
  exact h.names

theorem Edits.read (h : Edits s path file bytes rev) :
    (s.ws.adopt path).1.read path = .ok (bytes, rev) := by
  obtain ⟨htree, -, -, hrev⟩ := h.adopt
  rw [WorkspaceFileService.read, h.names_adopt]
  dsimp only
  rw [htree, read_of_node h.node, hrev]

def touched (s : Tools) (path : String) : Tools := { s with ws := (s.ws.adopt path).1 }

theorem changeApply_of_fresh (h : Edits s path file bytes rev) (hfresh : Fresh expected rev) :
    s.changeApply ⟨some path, some old, some new, expected⟩ =
      (s.touched path).applyTo path old new bytes rev := by
  rw [changeApply]
  dsimp only
  rw [h.read]
  cases expected with
  | none => rfl
  | some e =>
    dsimp only
    rw [if_neg (fun hstale => hstale.2 (hfresh e rfl hstale.1))]
    rfl

variable (old new) in
theorem changeApply_of_stale (h : Edits s path file bytes rev) (hstale : ¬ Fresh expected rev) :
    ∃ e, s.changeApply ⟨some path, some old, some new, expected⟩ =
      (s.touched path, .ok (.stale e rev, none)) := by
  rw [changeApply]
  dsimp only
  rw [h.read]
  cases expected with
  | none => exact absurd (fun e he => by cases he) hstale
  | some e =>
    dsimp only
    have hgate : 0 ≤ e ∧ e.toNat ≠ rev := by
      by_contra hpass
      refine hstale (fun e' he' hpos => ?_)
      obtain rfl := Option.some.inj he'
      exact not_not.mp (fun hne => hpass ⟨hpos, hne⟩)
    rw [if_pos hgate]
    exact ⟨e, rfl⟩

theorem replace_touched (h : Edits s path file bytes rev) (out : List UInt8) :
    (Writable s.ws.tree file ∧ ∃ ws r, (s.touched path).ws.replace path out rev = (ws, .ok r) ∧
      (s.ws.tree.NotLink (temporary file) → ws.tree.fileAt file = some out) ∧
      (¬ s.ws.tree.NotLink (temporary file) → ws.tree.fileAt file = none)) ∨
    (¬ Writable s.ws.tree file ∧
      (s.touched path).ws.replace path out rev = ((s.touched path).ws, .error .io)) := by
  obtain ⟨htree, -, -, hrev⟩ := h.adopt
  have hdirs : s.ws.tree.createDirAll file.dropLast = some s.ws.tree :=
    FileTree.createDirAll_of_dir (dir_of_file h.node)
  have hcurrent : ¬ (((s.ws.adopt path).1.fileRevision path).getD 0 ≠ rev) := by
    rw [hrev]
    exact not_not.mpr rfl
  rw [touched, WorkspaceFileService.replace, WorkspaceFileService.resolving, h.names_adopt]
  dsimp only
  rw [if_neg hcurrent, WorkspaceFileService.doing, htree, hdirs]
  dsimp only
  rw [WorkspaceFileService.doing]
  by_cases hw : Writable s.ws.tree file
  · obtain ⟨t₁, t₂, hwrite, hrename, hplain, hlink⟩ := write_rename h.node hw out
    rw [temporary] at hwrite hrename
    rw [hwrite]
    dsimp only
    rw [WorkspaceFileService.doing]
    rw [hrename]
    exact Or.inl ⟨hw, _, _, rfl, hplain, hlink⟩
  · have hwrite := write_eq_none hw out
    rw [temporary] at hwrite
    rw [hwrite]
    refine Or.inr ⟨hw, ?_⟩
    rw [← htree]

/-- The code's own gates: the revision it looks at, the matches it counts, and the write. -/
def Admitted (s : Tools) (old : String) (expected : Option Int) (file : FilePath)
    (bytes : List UInt8) (rev : Nat) : Prop :=
  Fresh expected rev ∧ countFrom old.toList 0 (Utf8.lossy bytes) = 1 ∧ Writable s.ws.tree file

variable (new) in
theorem changeApply_of_admitted (h : Edits s path file bytes rev)
    (hadmitted : Admitted s old expected file bytes rev) :
    Ok (s.changeApply ⟨some path, some old, some new, expected⟩) ∧
      (s.ws.tree.NotLink (temporary file) →
        (s.changeApply ⟨some path, some old, some new, expected⟩).1.ws.tree.fileAt file
          = some (Utf8.encode (replaceFirst old.toList new.toList (Utf8.lossy bytes)))) ∧
      (¬ s.ws.tree.NotLink (temporary file) →
        (s.changeApply ⟨some path, some old, some new, expected⟩).1.ws.tree.fileAt file
          = none) := by
  obtain ⟨hfresh, hcount, hw⟩ := hadmitted
  rw [changeApply_of_fresh h hfresh, applyTo]
  dsimp only
  rw [if_neg (not_not.mpr hcount)]
  rcases replace_touched h (Utf8.encode (replaceFirst old.toList new.toList (Utf8.lossy bytes))) with
    ⟨-, ws, r, hreplace, hplain, hlink⟩ | ⟨hno, -⟩
  · rw [hreplace]
    exact ⟨⟨r, _, rfl⟩, hplain, hlink⟩
  · exact absurd hw hno

variable (new) in
theorem changeApply_of_refused (h : Edits s path file bytes rev)
    (hrefused : ¬ Admitted s old expected file bytes rev) :
    ¬ Ok (s.changeApply ⟨some path, some old, some new, expected⟩) ∧
      (s.changeApply ⟨some path, some old, some new, expected⟩).1 = s.touched path ∧
      ∀ answer, (s.changeApply ⟨some path, some old, some new, expected⟩).2 = .ok answer →
        answer.2 = none := by
  by_cases hfresh : Fresh expected rev
  · rw [changeApply_of_fresh h hfresh, applyTo]
    dsimp only
    by_cases hcount : countFrom old.toList 0 (Utf8.lossy bytes) = 1
    · rw [if_neg (not_not.mpr hcount)]
      rcases replace_touched h
          (Utf8.encode (replaceFirst old.toList new.toList (Utf8.lossy bytes))) with
        ⟨hw, -⟩ | ⟨-, hreplace⟩
      · exact absurd ⟨hfresh, hcount, hw⟩ hrefused
      · rw [hreplace]
        exact ⟨fun ⟨_, _, hok⟩ => (by cases hok), rfl, fun _ hok => by cases hok⟩
    · rw [if_pos hcount]
      refine ⟨fun ⟨_, _, hok⟩ => (by cases hok), rfl, fun answer hok => ?_⟩
      rw [← Except.ok.inj hok]
  · obtain ⟨e, heq⟩ := changeApply_of_stale old new h hfresh
    rw [heq]
    refine ⟨fun ⟨_, _, hok⟩ => (by cases hok), rfl, fun answer hok => ?_⟩
    rw [← Except.ok.inj hok]

theorem Current.fresh (h : Current expected rev) : Fresh expected rev := by
  intro e he _
  rw [h e he, Int.toNat_natCast]

def toolsOver (bytes : List UInt8) : Tools := ⟨WorkspaceFileService.holding bytes, false, none⟩

theorem edits_toolsOver (bytes : List UInt8) : Edits (toolsOver bytes) "f" ["f"] bytes 1 := by
  obtain ⟨hbooks, houtside⟩ := WorkspaceFileService.outside_holding bytes
  exact ⟨rfl, rfl, rfl, houtside ["f"] rfl, hbooks⟩

/-- The old text is at two positions that overlap. -/
example : ¬ Exact (toolsOver [0x61, 0x61, 0x61]) "f" "aa" "b" none ["f"] [0x61, 0x61, 0x61] 1 := by
  intro hexact
  obtain ⟨⟨b, a, -, hunique⟩, -⟩ := hexact.ok.mp ⟨2, some ⟨"f", [0x61, 0x61, 0x61], [0x62, 0x61]⟩,
    by decide +kernel⟩
  have hfirst := hunique [] [0x61] (by decide +kernel)
  rw [← hunique [0x61] [] (by decide +kernel)] at hfirst
  cases hfirst

/-- The revision that is expected is a negative one. -/
example : ¬ Exact (toolsOver [0x78]) "f" "x" "y" (some (-1)) ["f"] [0x78] 1 := by
  intro hexact
  have hcurrent := (hexact.ok.mp ⟨2, some ⟨"f", [0x78], [0x79]⟩, by decide +kernel⟩).2
  exact absurd (hcurrent (-1) rfl) (by decide)

end Call

end Tools

end WorktreeTools

end Modbit
