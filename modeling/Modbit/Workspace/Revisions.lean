import Modbit.Workspace.Frame

/-!
# Revisions over runs

The ledger is keyed by the text of a path, while the files are what the texts resolve to.  A call is
`Orderly` if every text in the ledger whose file it may change is one it is called with, if it does
not move a file onto a text with a higher revision, and if its paths do not lead to the service's
own files.  In a run of such calls the revision of a text goes up whenever its file changes and
never goes back (`advances_run`), so a write with a revision that was read has lost nothing:
`no_lost_update`.

Without it a second spelling has a second revision, and a move onto a file can take the revision of
that file back: `lost_update_spelling_and_move`.
-/

namespace Modbit

open Lib List

namespace Workspace

/-! ### Revisions in the ledger -/

namespace RevisionMap

variable {m m' m'' : RevisionMap}

theorem mem_keys {k : String} : k ∈ m.files.keys ↔ 0 < (m.entry k).revision := by
  rw [OrdMap.mem_keys, entry]
  cases h : m.files.find? k with
  | none => simp
  | some r => simpa using m.positive k r h

/-- No revision goes back, and those of the given texts go on. -/
def Advances (m m' : RevisionMap) (paths : List String) : Prop :=
  ∀ k, (m.entry k).revision ≤ (m'.entry k).revision ∧
    (k ∈ paths → (m.entry k).revision < (m'.entry k).revision)

theorem advances_refl (m : RevisionMap) : m.Advances m [] :=
  fun _ => ⟨le_rfl, fun h => absurd h not_mem_nil⟩

theorem Advances.trans {paths others : List String} (h : m.Advances m' paths)
    (h' : m'.Advances m'' others) : m.Advances m'' (paths ++ others) := by
  intro k
  have hfirst := h k
  have hsecond := h' k
  refine ⟨hfirst.1.trans hsecond.1, fun hk => ?_⟩
  rcases mem_append.mp hk with hk | hk
  · exact (hfirst.2 hk).trans_le hsecond.1
  · exact hfirst.1.trans_lt (hsecond.2 hk)

theorem Advances.mono {paths others : List String} (h : m.Advances m' others)
    (hsub : paths ⊆ others) : m.Advances m' paths :=
  fun k => ⟨(h k).1, fun hk => (h k).2 (hsub hk)⟩

theorem advances_set {path : String} {r : FileRecord} (h : 0 < r.revision)
    (hr : r.revision = (m.entry path).revision + 1) : m.Advances (m.set path r h) [path] := by
  intro k
  rw [entry_set, mem_singleton]
  split_ifs with hk
  · rw [hk, hr]
    omega
  · exact ⟨le_rfl, fun h0 => absurd h0 hk⟩

theorem advances_record (path : String) (bytes : List UInt8) :
    m.Advances (m.record path bytes) [path] := advances_set _ rfl

theorem advances_bury (path : String) : m.Advances (m.bury path) [path] := advances_set _ rfl

theorem advances_carry {source target : String}
    (h : (m.entry target).revision ≤ (m.entry source).revision) :
    m.Advances (m.carry source target) [source, target] := by
  intro k
  rw [entry_carry]
  split_ifs with ht hs
  · rw [ht]
    dsimp only
    omega
  · rw [hs]
    dsimp only
    omega
  · refine ⟨le_rfl, fun hk => ?_⟩
    simp only [mem_cons, not_mem_nil, or_false] at hk
    exact absurd hk (by tauto)

end RevisionMap

namespace WorkspaceFileService

variable {s : WorkspaceFileService}

/-! ### What a call does to the ledger -/

/-- A call that fails leaves the ledger as it was; one that succeeds advances it. -/
def Records {α : Type} (m : RevisionMap) (paths : List String) (a : Answer α) : Prop :=
  match a.2 with
  | .ok _ => m.Advances a.1.revisions paths
  | .error _ => a.1.revisions = m

variable {path : String}

theorem records_resolving {α : Type} {next : FilePath → Answer α}
    {paths : List String} (h : ∀ f, s.resolve path = .ok f → Records s.revisions paths (next f)) :
    Records s.revisions paths (s.resolving path next) := by
  rw [resolving]
  cases hres : s.resolve path with
  | error e => exact rfl
  | ok f => exact h f hres

theorem records_doing {α : Type} {op : FileTree → Option FileTree}
    {next : WorkspaceFileService → Answer α} {paths : List String}
    (h : ∀ t, Records s.revisions paths (next { s with tree := t })) :
    Records s.revisions paths (s.doing op next) := by
  rw [doing]
  cases op s.tree with
  | none => exact rfl
  | some t => exact h t

theorem records_create (path : String) (bytes : List UInt8) :
    Records s.revisions [path] (s.create path bytes) := by
  rw [create]
  refine records_resolving (fun f _ => ?_)
  split_ifs
  · exact rfl
  · refine records_doing (fun t => records_doing (fun t' => ?_))
    exact RevisionMap.advances_record path bytes

theorem records_replace (path : String) (bytes : List UInt8) (expected : Nat) :
    Records s.revisions [path] (s.replace path bytes expected) := by
  rw [replace]
  refine records_resolving (fun f _ => ?_)
  dsimp only
  split_ifs
  · exact rfl
  · refine records_doing (fun t => records_doing (fun t' => records_doing (fun t'' => ?_)))
    exact RevisionMap.advances_record path bytes

theorem records_applyPatch (path : String) (expected : Nat) (hunks : List PatchHunk) :
    Records s.revisions [path] (s.applyPatch path expected hunks) := by
  rw [applyPatch]
  split
  · exact rfl
  · split
    · exact rfl
    · exact records_replace path _ expected

theorem records_adopt (path : String) : Records s.revisions [] (s.adopt path) := by
  rw [adopt]
  refine records_resolving (fun f _ => ?_)
  split
  · exact rfl
  · split
    · exact RevisionMap.advances_refl _
    · exact (RevisionMap.advances_record path _).mono (nil_subset _)

theorem records_delete (path : String) : Records s.revisions [path] (s.delete path) := by
  rw [delete]
  refine records_resolving (fun f _ => records_doing (fun t => ?_))
  exact RevisionMap.advances_bury path

theorem records_moveFile {source target : String}
    (h : (s.revisions.entry target).revision ≤ (s.revisions.entry source).revision) :
    Records s.revisions [source, target] (s.moveFile source target) := by
  rw [moveFile]
  refine records_resolving (fun f _ => records_resolving (fun g _ => ?_))
  refine records_doing (fun t => records_doing (fun t' => ?_))
  exact RevisionMap.advances_carry h

theorem stage_revisions (planned : List (String × List UInt8)) : ∀ s : WorkspaceFileService,
    (stage planned s).1.revisions = s.revisions := by
  induction planned with
  | nil => exact fun s => rfl
  | cons e planned ih =>
    intro s
    rw [stage]
    split
    · rfl
    · split
      · rfl
      · split
        · rfl
        · next t _ =>
          have hrest := ih { s with tree := t }
          split
          · next hstage =>
            rw [hstage] at hrest
            exact hrest
          · next hstage =>
            rw [hstage] at hrest
            exact hrest

theorem renameAll_revisions (staged : List (FilePath × FilePath)) : ∀ s : WorkspaceFileService,
    (renameAll staged s).1.revisions = s.revisions := by
  induction staged with
  | nil => exact fun s => rfl
  | cons e staged ih =>
    intro s
    rw [renameAll]
    split
    · rfl
    · next t _ => exact ih { s with tree := t }

theorem advances_commitAll (planned : List (String × List UInt8)) : ∀ s : WorkspaceFileService,
    s.revisions.Advances (commitAll planned s).1.revisions (planned.map Prod.fst) := by
  induction planned with
  | nil => exact fun s => RevisionMap.advances_refl _
  | cons e planned ih =>
    intro s
    have hrest := ih { s with revisions := s.revisions.record e.1 e.2 }
    exact (RevisionMap.advances_record e.1 e.2).trans hrest

theorem plan_paths {edits : List EditOp} {planned : List (String × List UInt8)}
    (h : s.plan edits = some (.ok planned)) : planned.map Prod.fst = edits.map EditOp.path := by
  obtain ⟨jobs, rfl, rfl, hjobs⟩ := plan_eq_ok edits h
  rw [map_map, map_map]
  exact map_congr_left (fun p hp => (hjobs p hp).1.1)

theorem revisions_applyTransaction (edits : List EditOp) :
    (∃ results, (s.applyTransaction edits).2 = some (.ok results) ∧
      s.revisions.Advances (s.applyTransaction edits).1.revisions (edits.map EditOp.path)) ∨
    ((∀ results, (s.applyTransaction edits).2 ≠ some (.ok results)) ∧
      (s.applyTransaction edits).1.revisions = s.revisions) := by
  rw [applyTransaction]
  split
  · exact Or.inr ⟨fun r h => (by cases h), rfl⟩
  · exact Or.inr ⟨fun r h => (by cases h), rfl⟩
  · next planned hplan =>
    have hstaged := stage_revisions planned s
    generalize stage planned s = result at hstaged
    obtain ⟨s₁, staged | staged⟩ := result
    · exact Or.inr ⟨fun r h => (by cases h), hstaged⟩
    have hrenamed := renameAll_revisions staged s₁
    dsimp only at hstaged hrenamed ⊢
    generalize renameAll staged s₁ = result at hrenamed
    obtain ⟨s₂, renamed | renamed⟩ := result
    · exact Or.inr ⟨fun r h => (by cases h), hrenamed.trans hstaged⟩
    refine Or.inl ⟨(commitAll planned s₂).2, rfl, ?_⟩
    rw [← plan_paths hplan, ← hstaged, ← hrenamed]
    exact advances_commitAll planned s₂

/-! ### Runs -/

/-- No revision of a text is carried onto one that is ahead of it. -/
def Forward (s : WorkspaceFileService) : Call → Prop
  | .moveFile source target =>
    (s.revisions.entry target).revision ≤ (s.revisions.entry source).revision
  | _ => True

instance (s : WorkspaceFileService) : ∀ c, Decidable (s.Forward c)
  | .moveFile _ _ => inferInstanceAs (Decidable (_ ≤ _))
  | .create .. | .read _ | .replace .. | .applyPatch .. | .applyTransaction _ | .adopt _
  | .delete _ => .isTrue trivial

/-- The texts of the ledger whose files a call may change are those it is called with, no
revision is carried onto a higher one, and the call keeps off the service's own files. -/
def Orderly (s : WorkspaceFileService) (c : Call) : Prop :=
  (∀ k ∈ s.revisions.files.keys, ∀ f ∈ s.location k, Touches s c f → k ∈ c.paths) ∧
  s.Forward c ∧ s.KeepsBooks ∧ ∀ path ∈ c.texts, s.Outside path

instance (s : WorkspaceFileService) (c : Call) : Decidable (s.Orderly c) :=
  inferInstanceAs (Decidable (_ ∧ _))

/-- **A call never takes a revision back, and if it succeeds moves those of its paths on.** -/
theorem advances_step {c : Call} (h : s.Orderly c) :
    s.revisions.Advances (s.step c).1.revisions (if (s.step c).2.ok then c.paths else []) := by
  have hanswer : ∀ {paths : List String} (a : Answer Nat), Records s.revisions paths a →
      s.revisions.Advances a.1.revisions (if (Reply.revision a.2).ok then paths else []) := by
    rintro paths ⟨s', r⟩ ha
    cases r with
    | error e =>
      have heq : s'.revisions = s.revisions := ha
      rw [heq]
      exact RevisionMap.advances_refl _
    | ok rev => exact ha
  cases c with
  | create path bytes => exact hanswer _ (records_create path bytes)
  | read path =>
    refine RevisionMap.Advances.mono (RevisionMap.advances_refl _) ?_
    split_ifs
    · exact nil_subset _
    · exact nil_subset _
  | replace path bytes expected => exact hanswer _ (records_replace path bytes expected)
  | applyPatch path expected hunks => exact hanswer _ (records_applyPatch path expected hunks)
  | applyTransaction edits =>
    show s.revisions.Advances (s.applyTransaction edits).1.revisions _
    rcases revisions_applyTransaction (s := s) edits with ⟨results, hok, hadv⟩ | ⟨hfail, heq⟩
    · have : (s.step (.applyTransaction edits)).2.ok = true := by
        show (Reply.revisions (s.applyTransaction edits).2).ok = true
        rw [hok]
        rfl
      rw [if_pos this]
      exact hadv
    · have : ¬ (s.step (.applyTransaction edits)).2.ok = true := by
        show ¬ (Reply.revisions (s.applyTransaction edits).2).ok = true
        generalize (s.applyTransaction edits).2 = r at hfail
        rcases r with _ | _ | results
        · exact Bool.false_ne_true
        · exact Bool.false_ne_true
        · exact absurd rfl (hfail results)
      rw [if_neg this, heq]
      exact RevisionMap.advances_refl _
  | adopt path => exact hanswer _ (records_adopt path)
  | delete path => exact hanswer _ (records_delete path)
  | moveFile source target => exact hanswer _ (records_moveFile h.2.1)

theorem advances_run (calls : List Call) : ∀ {s : WorkspaceFileService},
    Admits step Orderly s calls → s.revisions.Advances (run step s calls).revisions [] := by
  induction calls with
  | nil => exact fun _ => RevisionMap.advances_refl _
  | cons c calls ih =>
    intro s h
    have hfirst := (advances_step h.1).mono (nil_subset _)
    exact hfirst.trans (ih h.2)

theorem revision_lt_of_mutates {c : Call} (h : s.Orderly c) {k : String} {f : FilePath}
    (hk : k ∈ s.revisions.files.keys) (hf : s.location k = some f) (hmut : Mutates s c f) :
    (s.revisions.entry k).revision < ((s.step c).1.revisions.entry k).revision := by
  have hpaths := h.1 k hk f hf (touches_of_mutates hmut)
  have hadv := advances_step h
  rw [if_pos hmut.1] at hadv
  exact (hadv k).2 hpaths

/-! ### Writes with a revision that was read -/

theorem fileRevision_eq_some {rev : Nat} (h : s.fileRevision path = some rev) :
    (s.revisions.entry path).revision = rev ∧ 0 < rev := by
  obtain ⟨r, hr, rfl⟩ := Option.map_eq_some_iff.mp h
  have hfind := (Option.filter_eq_some_iff.mp hr).1
  refine ⟨?_, s.revisions.positive path r hfind⟩
  rw [RevisionMap.entry, hfind]
  rfl

theorem fileRevision_of_replace {bytes : List UInt8} {expected : Nat}
    (h : ∃ rev, (s.replace path bytes expected).2 = .ok rev) :
    (s.fileRevision path).getD 0 = expected := by
  obtain ⟨rev, h⟩ := h
  rw [replace, resolving] at h
  split at h
  · cases h
  · by_contra hstale
    rw [if_pos hstale] at h
    cases h

end WorkspaceFileService

def Call.expects : Call → Option (String × Nat)
  | .replace path _ expected | .applyPatch path expected _ => some (path, expected)
  | _ => none

namespace WorkspaceFileService

variable {s : WorkspaceFileService}

theorem fileRevision_of_expects {w : Call} {path : String} {rev : Nat}
    (hw : w.expects = some (path, rev)) (hok : (s.step w).2.ok = true) :
    (s.fileRevision path).getD 0 = rev ∧ w.paths = [path] := by
  have hreply : ∀ r : Except WorkspaceError Nat, (Reply.revision r).ok = true → ∃ n, r = .ok n := by
    rintro (e | n) h
    · cases h
    · exact ⟨n, rfl⟩
  cases w with
  | replace p bytes expected =>
    obtain ⟨rfl, rfl⟩ := Prod.mk.inj (Option.some.inj hw)
    exact ⟨fileRevision_of_replace (hreply _ hok), rfl⟩
  | applyPatch p expected hunks =>
    obtain ⟨rfl, rfl⟩ := Prod.mk.inj (Option.some.inj hw)
    refine ⟨?_, rfl⟩
    obtain ⟨n, hn⟩ := hreply _ hok
    rw [applyPatch] at hn
    split at hn
    · cases hn
    · split at hn
      · cases hn
      · exact fileRevision_of_replace ⟨n, hn⟩
  | _ => cases hw

/-- In a run, a write that succeeds with a revision that was read of the same file: no call
between the two changed the file. -/
def NoLostUpdate (s : WorkspaceFileService) (calls : List Call) : Prop :=
  ∀ before between after p w q bytes rev f,
    calls = before ++ .read p :: (between ++ w :: after) →
    ((run step s before).step (.read p)).2 = .bytes (.ok (bytes, rev)) →
    w.expects = some (q, rev) →
    ((run step s (before ++ .read p :: between)).step w).2.ok = true →
    (run step s (before ++ .read p :: between)).location p = some f →
    (run step s (before ++ .read p :: between)).location q = some f →
    ∀ pre c post g, between = pre ++ c :: post →
      (run step s (before ++ .read p :: pre)).location p = some g →
      ¬ Mutates (run step s (before ++ .read p :: pre)) c g

/-- In a run, no revision goes back, and that of a tracked file goes up with every change
of the file, whatever the path of the call. -/
def RevisionsAdvance (s : WorkspaceFileService) (calls : List Call) : Prop :=
  ∀ before c after k, calls = before ++ c :: after →
    ((run step s before).revisions.entry k).revision
      ≤ ((run step s (before ++ [c])).revisions.entry k).revision ∧
    ∀ f, k ∈ (run step s before).revisions.files.keys → (run step s before).location k = some f →
      Mutates (run step s before) c f →
      ((run step s before).revisions.entry k).revision
        < ((run step s (before ++ [c])).revisions.entry k).revision

theorem not_mutates_of_expects {pre post : List Call} {c w : Call} {p q : String} {rev : Nat}
    {f g : FilePath} (hrev : s.fileRevision p = some rev)
    (h : Admits step Orderly s (pre ++ c :: (post ++ [w])))
    (hw : w.expects = some (q, rev))
    (hok : ((run step s (pre ++ c :: post)).step w).2.ok = true)
    (hp : (run step s (pre ++ c :: post)).location p = some f)
    (hq : (run step s (pre ++ c :: post)).location q = some f)
    (hg : (run step s pre).location p = some g) : ¬ Mutates (run step s pre) c g := by
  intro hmut
  obtain ⟨hpre, hc, hrest⟩ := admits_append.mp h
  obtain ⟨hpost, hwrite, -⟩ := admits_append.mp hrest
  rw [run_append, run_cons] at hp hq hok
  obtain ⟨hrev₀, hpos⟩ := fileRevision_eq_some hrev
  have hle := (advances_run pre hpre p).1
  rw [hrev₀] at hle
  have hlt := revision_lt_of_mutates hc (RevisionMap.mem_keys.mpr (hpos.trans_le hle)) hg hmut
  have hle' := (advances_run post hpost p).1
  generalize run step ((run step s pre).step c).1 post = u at *
  obtain ⟨hexpected, hpaths⟩ := fileRevision_of_expects hw hok
  have hqrev : (u.revisions.entry q).revision = rev := by
    cases hfr : u.fileRevision q with
    | none =>
      rw [hfr] at hexpected
      exact absurd hexpected (Nat.ne_of_lt hpos)
    | some r =>
      rw [hfr] at hexpected
      obtain rfl : r = rev := hexpected
      exact (fileRevision_eq_some hfr).1
  -- the write is called with the text that was read
  have htouch : Touches u w f := ⟨q, by rw [hpaths]; exact mem_singleton_self q, Or.inl hq⟩
  have hmem := hwrite.1 p (RevisionMap.mem_keys.mpr (by omega)) f hp htouch
  rw [hpaths, mem_singleton] at hmem
  subst hmem
  omega

/-- **In a run of orderly calls no update is lost.**  A write that succeeds with a revision
that was read of the file is the first change of the file after the read, and revisions
only go up. -/
theorem no_lost_update (s : WorkspaceFileService) (calls : List Call)
    (h : Admits step Orderly s calls) : s.NoLostUpdate calls ∧ s.RevisionsAdvance calls := by
  constructor
  · rintro before between after p w q bytes rev f rfl hread hw hok hp hq pre c post g rfl hg
    obtain ⟨-, -, hrest⟩ := admits_append.mp h
    have hcut : (pre ++ c :: post) ++ w :: after = (pre ++ c :: (post ++ [w])) ++ after := by
      simp only [append_assoc, cons_append, nil_append]
    rw [hcut] at hrest
    obtain ⟨f₀, -, -, hrev⟩ := read_eq_ok (Reply.bytes.inj hread)
    rw [run_append, run_cons] at hok hp hq hg ⊢
    exact not_mutates_of_expects hrev (admits_append.mp hrest).1 hw hok hp hq hg
  · rintro before c after k rfl
    obtain ⟨-, hc, -⟩ := admits_append.mp h
    rw [run_append, run_cons, run_nil]
    exact ⟨((advances_step hc) k).1, fun f hk hf hmut => revision_lt_of_mutates hc hk hf hmut⟩

/-- Two files, a change of one between the read and the write of the other, and a move. -/
def twoClients : List Call :=
  [.create "a" [97], .create "d/b" [98], .read "a", .replace "d/b" [99] 1, .replace "a" [100] 1,
    .moveFile "a" "c"]

theorem no_lost_update_twoClients :
    vacant.NoLostUpdate twoClients ∧ vacant.RevisionsAdvance twoClients :=
  no_lost_update vacant twoClients (by decide +kernel)

/-- The text `./a` of the file `a` has a revision of its own: a write with revision 1, read
before the file was replaced under that text, succeeds and undoes the change.  And a move
of `a` onto `b` brings revision 2 of `b` back, which was read before the move. -/
theorem lost_update_spelling_and_move :
    ¬ vacant.NoLostUpdate
      [.create "a" [97], .read "a", .replace "./a" [98] 0, .replace "a" [99] 1] ∧
    ¬ vacant.NoLostUpdate
      [.create "a" [97], .create "b" [98], .replace "b" [99] 1, .read "b", .replace "b" [100] 2,
        .moveFile "a" "b", .replace "b" [101] 2] := by
  constructor
  · intro h
    refine h [.create "a" [97]] [.replace "./a" [98] 0] [] "a" (.replace "a" [99] 1) "a" [97] 1
      ["ws", "a"] rfl ?_ rfl ?_ ?_ ?_ [] (.replace "./a" [98] 0) [] ["ws", "a"] rfl ?_
      ⟨?_, Or.inl ⟨"./a", mem_singleton_self _, ?_⟩⟩
    · decide +kernel
    · decide +kernel
    · decide +kernel
    · decide +kernel
    · decide +kernel
    · decide +kernel
    · decide +kernel
  · intro h
    refine h [.create "a" [97], .create "b" [98], .replace "b" [99] 1]
      [.replace "b" [100] 2, .moveFile "a" "b"] [] "b" (.replace "b" [101] 2) "b" [99] 2
      ["ws", "b"] rfl ?_ rfl ?_ ?_ ?_ [] (.replace "b" [100] 2) [.moveFile "a" "b"] ["ws", "b"]
      rfl ?_ ⟨?_, Or.inl ⟨"b", mem_singleton_self _, ?_⟩⟩
    · decide +kernel
    · decide +kernel
    · decide +kernel
    · decide +kernel
    · decide +kernel
    · decide +kernel
    · decide +kernel

end WorkspaceFileService

end Workspace

end Modbit
