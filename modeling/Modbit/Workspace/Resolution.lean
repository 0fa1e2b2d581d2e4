import Modbit.Workspace.Service
import Modbit.Lib.Fallible

/-!
# What paths name

A path `Names` what it resolves to: the canonical location if there is something, and
the path under the root as it is written if there is nothing.  `names_of_grows` says that
a file goes on being named by a path as long as directories, links and files stay.
-/

namespace Modbit

open Lib

namespace Workspace

namespace WorkspaceFileService

def Names (s : WorkspaceFileService) (path : String) (f : FilePath) : Prop := s.resolve path = .ok f

instance (s : WorkspaceFileService) (path : String) (f : FilePath) : Decidable (s.Names path f) :=
  inferInstanceAs (Decidable (s.resolve path = .ok f))

variable {s : WorkspaceFileService} {path : String} {f : FilePath}

theorem resolve_eq_ok (h : s.resolve path = .ok f) :
    (s.tree.canonicalize (s.root ++ components path) = some f ∧ s.contained path f = .ok ()) ∨
      (s.tree.canonicalize (s.root ++ components path) = none ∧ f = s.root ++ components path) := by
  rw [resolve] at h
  split_ifs at h
  dsimp only at h
  split at h
  · next canonical hc =>
    obtain ⟨u, hu, rfl⟩ := map_eq_ok.mp h
    exact Or.inl ⟨hc, hu⟩
  · next hc =>
    refine Or.inr ⟨hc, ?_⟩
    split at h
    · obtain ⟨u, -, rfl⟩ := map_eq_ok.mp h
      rfl
    · exact (Except.ok.inj h).symm

theorem canonicalize_of_names {f q : FilePath} (h : s.Names path f)
    (hq : s.tree.canonicalize f = some q) :
    f = q ∧ s.tree.canonicalize (s.root ++ components path) = some f := by
  rcases resolve_eq_ok h with ⟨hc, -⟩ | ⟨hc, rfl⟩
  · obtain ⟨hplace, hnode⟩ := FileTree.canonicalize_eq_some.mp hc
    obtain ⟨n, hn⟩ := Option.ne_none_iff_exists'.mp hnode
    have hlink : ∀ target, n ≠ .link target := by
      rintro target rfl
      exact FileTree.place_notLink hplace target hn
    have hself := (FileTree.canonicalize_eq_some.mp hq).1
    rw [FileTree.place_of_node hn hlink] at hself
    exact ⟨Option.some.inj hself, hc⟩
  · rw [hc] at hq
    cases hq

theorem read_eq_ok {bytes : List UInt8} {rev : Nat} (h : s.read path = .ok (bytes, rev)) :
    ∃ f, s.Names path f ∧ s.tree.node f = some (.file bytes) ∧ s.fileRevision path = some rev := by
  rw [read] at h
  split at h
  · cases h
  · next resolved hres =>
    split at h
    · cases h
    · next b hread =>
      split at h
      · cases h
      · next r hrev =>
        obtain ⟨rfl, rfl⟩ := Prod.mk.inj (Except.ok.inj h)
        obtain ⟨q, hq, hnode⟩ := FileTree.read_eq_some hread
        obtain ⟨rfl, -⟩ := canonicalize_of_names hres hq
        exact ⟨resolved, hres, hnode, hrev⟩

theorem startsWith_of_names (h : s.Names path f) :
    ¬ Text.startsWith path "/" = true ∧ ".." ∉ components path := by
  rw [Names, resolve] at h
  split_ifs at h with habs hdots
  exact ⟨habs, hdots⟩

theorem contained_eq_ok :
    s.contained path f = .ok () ↔ ∃ r, s.tree.canonicalize s.root = some r ∧ r <+: f := by
  rw [contained]
  cases s.tree.canonicalize s.root with
  | none => simp
  | some r =>
    dsimp only
    split_ifs with hpre
    · simp [hpre]
    · simp [hpre]

theorem names_of_grows {t : FileTree} (hgrows : s.tree.Grows t)
    (h : s.Names path f) (hfile : ∃ bytes, s.tree.node f = some (.file bytes)) :
    ({ s with tree := t } : WorkspaceFileService).Names path f := by
  obtain ⟨bytes, hnode⟩ := hfile
  have hself : s.tree.canonicalize f = some f := by
    refine FileTree.canonicalize_eq_some.mpr ⟨FileTree.place_of_node hnode ?_, ?_⟩
    · exact fun target hl => by cases hl
    · rw [hnode]
      exact Option.some_ne_none _
  obtain ⟨habs, hdots⟩ := startsWith_of_names h
  obtain ⟨-, hc⟩ := canonicalize_of_names h hself
  have hcontained : s.contained path f = .ok () := by
    rcases resolve_eq_ok h with ⟨-, hcont⟩ | ⟨hnone, -⟩
    · exact hcont
    · rw [hc] at hnone
      cases hnone
  obtain ⟨r, hr, hpre⟩ := contained_eq_ok.mp hcontained
  have hcontained' : ({ s with tree := t } : WorkspaceFileService).contained path f = .ok () :=
    contained_eq_ok.mpr ⟨r, hgrows.canonicalize hr, hpre⟩
  rw [Names, resolve, if_neg habs, if_neg hdots]
  dsimp only
  rw [hgrows.canonicalize hc]
  dsimp only
  rw [hcontained']
  rfl

/-! ### Calls that succeed -/

theorem resolving_eq_ok {α : Type} {next : FilePath → Answer α} {a : α}
    (h : (s.resolving path next).2 = .ok a) :
    ∃ resolved, s.Names path resolved ∧ s.resolving path next = next resolved := by
  rw [resolving] at h ⊢
  cases hres : s.resolve path with
  | error e =>
    rw [hres] at h
    cases h
  | ok resolved => exact ⟨resolved, hres, rfl⟩

theorem doing_eq_ok {α : Type} {op : FileTree → Option FileTree}
    {next : WorkspaceFileService → Answer α} {a : α} (h : (s.doing op next).2 = .ok a) :
    ∃ t, op s.tree = some t ∧ s.doing op next = next { s with tree := t } := by
  rw [doing] at h ⊢
  cases hop : op s.tree with
  | none =>
    rw [hop] at h
    cases h
  | some t => exact ⟨t, rfl, rfl⟩

end WorkspaceFileService

end Workspace

end Modbit
