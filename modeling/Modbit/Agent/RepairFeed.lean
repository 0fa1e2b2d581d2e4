import Modbit.Lib.Sha256
import Modbit.Lib.Utf8
import Mathlib.Data.List.TakeWhile

/-!
# The failure evidence of a command

`feed_failure_for_repair` in `crates/core-runtime/src/agent_runtime_batch3.rs`.  Of the output of a
command that failed the model gets the last 2000 bytes, from the first line break in them on.

The excerpt should be the end of the output with every line in it that the bound has room for
(`Faithful`).  `delivered_iff`: it is exactly if the cut does not fall inside a character, where the
code panics, and not at the beginning of a line, which would then be dropped (`Snaps`).  An output
without a line break is dropped as a whole (`unbroken_dropped`).
-/

namespace Modbit.Agent.RepairFeed

open Lib List

structure BoundedFailure where
  excerpt : List Char
  rawSha256 : String
  rawLen : Nat

structure CommandResult where
  execId : String
  exitCode : Int
  rawOutput : List Char
  boundedFailure : Option BoundedFailure

def byteLength (text : List Char) : Nat := (Utf8.encode text).length

def tailStart (rawOutput : List Char) : Nat := byteLength rawOutput - 2000

/-- `none` is the panic of a slice that does not begin where a character does. -/
def feedFailureForRepair (execId : String) (exitCode : Int) (rawOutput : List Char) :
    Option CommandResult :=
  if exitCode ≠ 0 then
    (Utf8.decode ((Utf8.encode rawOutput).drop (tailStart rawOutput))).map (fun tail =>
      { execId := execId
        exitCode := exitCode
        rawOutput := rawOutput
        boundedFailure := some
          { excerpt := tail.dropWhile (fun c => c ≠ '\n')
            rawSha256 := Sha256.hex (Utf8.encode rawOutput)
            rawLen := byteLength rawOutput } })
  else some ⟨execId, exitCode, rawOutput, none⟩

theorem byteLength_append (l m : List Char) :
    byteLength (l ++ m) = byteLength l + byteLength m := by
  rw [byteLength, Utf8.encode_append, length_append]
  rfl

theorem tailStart_le (rawOutput : List Char) :
    tailStart rawOutput ≤ (Utf8.encode rawOutput).length := Nat.sub_le _ _

theorem eq_nil_of_byteLength {l : List Char} (h : byteLength l = 0) : l = [] :=
  Option.some.inj ((Utf8.decode_encode l).symm.trans
    ((length_eq_zero_iff.mp h).symm ▸ Utf8.decode_encode []))

/-! ### Lines -/

def AtLine (before : List Char) : Prop := before = [] ∨ before.getLast? = some '\n'

/-- `line` is a whole line of the text, with its line break if it has one. -/
structure IsLine (text before line after : List Char) : Prop where
  text_eq : text = before ++ line ++ after
  starts : AtLine before
  nonempty : line ≠ []
  one : '\n' ∉ line.dropLast
  ends : after = [] ∨ line.getLast? = some '\n'

/-- What the excerpt is for: the end of the output within the bound, and in it, with all that
follows, every line that lies behind the cut. -/
structure Faithful (rawOutput excerpt : List Char) : Prop where
  suffix : excerpt <:+ rawOutput
  bounded : byteLength excerpt ≤ 2000
  lines : ∀ before line after, IsLine rawOutput before line after →
    tailStart rawOutput ≤ byteLength before → line ++ after <:+ excerpt
  whole : byteLength rawOutput ≤ 2000 → excerpt = rawOutput

/-- The run does not panic and its evidence is faithful. -/
def Delivered (execId : String) (exitCode : Int) (rawOutput : List Char) : Prop :=
  ∃ result failure, feedFailureForRepair execId exitCode rawOutput = some result
    ∧ result.boundedFailure = some failure ∧ Faithful rawOutput failure.excerpt

/-- The cut is between two characters, and no line begins there but an empty one. -/
def Snaps (rawOutput : List Char) : Prop :=
  ∃ before tail, rawOutput = before ++ tail ∧ byteLength before = tailStart rawOutput
    ∧ (AtLine before → tail = [] ∨ tail.head? = some '\n')

variable {rawOutput before tail : List Char}

theorem isLine_first (hraw : rawOutput = before ++ tail) (hstart : AtLine before)
    (htail : tail ≠ []) :
    ∃ line after, IsLine rawOutput before line after ∧ line ++ after = tail := by
  have hsplit := takeWhile_append_dropWhile (p := fun c => decide (c ≠ '\n')) (l := tail)
  have hnone : '\n' ∉ tail.takeWhile (fun c => decide (c ≠ '\n')) := fun hm =>
    absurd (mem_takeWhile_imp hm) (by decide)
  cases hrest : tail.dropWhile (fun c => decide (c ≠ '\n')) with
  | nil =>
    rw [hrest, append_nil] at hsplit
    rw [hsplit] at hnone
    refine ⟨tail, [], ⟨by rw [hraw, append_nil], hstart, htail, ?_, .inl rfl⟩,
      append_nil tail⟩
    exact fun hm => hnone (dropLast_subset tail hm)
  | cons c after =>
    have hc : c = '\n' := by
      have hhead := head?_dropWhile_not (fun c => decide (c ≠ '\n')) tail
      rw [hrest] at hhead
      simpa using hhead
    rw [hrest, hc] at hsplit
    refine ⟨tail.takeWhile (fun c => decide (c ≠ '\n')) ++ ['\n'], after,
      ⟨?_, hstart, append_ne_nil_of_right_ne_nil _ (cons_ne_nil _ _), ?_, .inr ?_⟩, ?_⟩
    · rw [hraw, append_assoc, append_assoc, singleton_append, hsplit]
    · rw [dropLast_concat]
      exact hnone
    · exact getLast?_concat
    · rw [append_assoc, singleton_append, hsplit]

/-- A line behind a place keeps its place when what comes before the first line break is dropped,
unless it is itself the first. -/
theorem line_suffix {middle line after : List Char} (hstart : AtLine (before ++ middle))
    (hsnap : AtLine before → (middle ++ line ++ after).head? = some '\n') :
    line ++ after <:+ (middle ++ line ++ after).dropWhile (fun c => c ≠ '\n') := by
  by_cases hbreak : '\n' ∈ middle
  · -- the first line break is before the line
    have hne : middle.dropWhile (fun c => c ≠ '\n') ≠ [] := by
      intro hnil
      have hall := dropWhile_eq_nil_iff.mp hnil _ hbreak
      exact absurd hall (by decide)
    rw [append_assoc, dropWhile_append, if_neg (by simpa using hne)]
    exact suffix_append _ _
  · have hmiddle : middle = [] := by
      by_contra hne
      rcases hstart with hnil | hlast
      · exact hne (append_eq_nil_iff.mp hnil).2
      · rw [getLast?_append_of_ne_nil _ hne] at hlast
        exact hbreak (mem_of_getLast? hlast)
    rw [hmiddle, append_nil] at hstart
    have hhead := hsnap hstart
    rw [hmiddle, nil_append] at hhead ⊢
    cases hcons : line ++ after with
    | nil => exact nil_suffix
    | cons c rest =>
      rw [hcons] at hhead
      refine ⟨[], ?_⟩
      rw [Option.some.inj hhead, dropWhile_cons_of_neg (by decide), nil_append]

theorem exists_middle {before' rest' : List Char} (hraw : before ++ tail = before' ++ rest')
    (hle : byteLength before ≤ byteLength before') :
    ∃ middle, before' = before ++ middle ∧ tail = middle ++ rest' := by
  rcases append_eq_append_iff.mp hraw with ⟨middle, hbefore, htail⟩ | ⟨middle, hbefore, hrest⟩
  · exact ⟨middle, hbefore, htail⟩
  · rw [hbefore, byteLength_append] at hle
    have hnil : middle = [] := eq_nil_of_byteLength (by omega)
    rw [hnil] at hbefore hrest
    exact ⟨[], by rw [hbefore, append_nil, append_nil], hrest.symm⟩

theorem faithful_of_snaps (hraw : rawOutput = before ++ tail)
    (hbytes : byteLength before = tailStart rawOutput)
    (hsnap : AtLine before → tail = [] ∨ tail.head? = some '\n') :
    Faithful rawOutput (tail.dropWhile (fun c => c ≠ '\n')) := by
  have hsuffix : tail.dropWhile (fun c => c ≠ '\n') <:+ tail := dropWhile_suffix _
  have htotal : byteLength rawOutput = byteLength before + byteLength tail := by
    rw [hraw, byteLength_append]
  have hstart : tailStart rawOutput = byteLength rawOutput - 2000 := rfl
  refine ⟨hsuffix.trans ⟨before, hraw.symm⟩, ?_, ?_, ?_⟩
  · obtain ⟨dropped, hdropped⟩ := hsuffix
    have hlen := congrArg byteLength hdropped
    rw [byteLength_append] at hlen
    omega
  · intro before' line after hline hle
    obtain ⟨middle, hbefore, htail⟩ := exists_middle
      (hraw.symm.trans (hline.text_eq.trans (append_assoc _ _ _))) (hbytes.trans_le hle)
    rw [htail, ← append_assoc]
    refine line_suffix (hbefore ▸ hline.starts : AtLine (before ++ _)) (fun hstart => ?_)
    rw [append_assoc, ← htail]
    refine (hsnap hstart).resolve_left (fun hnil => hline.nonempty ?_)
    rw [htail] at hnil
    exact (append_eq_nil_iff.mp (append_eq_nil_iff.mp hnil).2).1
  · intro hsmall
    have hnil : before = [] := eq_nil_of_byteLength (by omega)
    rw [hraw, hnil, nil_append]
    rcases hsnap (.inl hnil) with htail | htail
    · rw [htail]
      rfl
    · cases tail with
      | nil => rfl
      | cons c tail => rw [Option.some.inj htail, dropWhile_cons_of_neg (by decide)]

theorem not_faithful (hraw : rawOutput = before ++ tail)
    (hbytes : byteLength before = tailStart rawOutput) (hstart : AtLine before) {c : Char}
    {rest : List Char} (htail : tail = c :: rest) (hc : c ≠ '\n') :
    ¬ Faithful rawOutput (tail.dropWhile (fun c => c ≠ '\n')) := by
  intro h
  obtain ⟨line, after, hline, heq⟩ := isLine_first hraw hstart (htail ▸ cons_ne_nil c rest)
  have hsuffix := h.lines before line after hline (Nat.le_of_eq hbytes.symm)
  have hpos : decide (c ≠ '\n') = true := decide_eq_true hc
  rw [heq, htail, dropWhile_cons_of_pos (p := fun c => decide (c ≠ '\n')) hpos] at hsuffix
  have hlen := (hsuffix.trans (dropWhile_suffix _)).length_le
  rw [length_cons] at hlen
  omega

variable {exitCode : Int}

theorem delivered_of_snaps (execId : String) (hexit : exitCode ≠ 0)
    (h : Snaps rawOutput) : Delivered execId exitCode rawOutput := by
  obtain ⟨before, tail, hraw, hbytes, hsnap⟩ := h
  have hdecode := (Utf8.decode_drop_iff (tailStart_le rawOutput)).mpr ⟨before, hraw, hbytes⟩
  have hresult := feedFailureForRepair.eq_def execId exitCode rawOutput
  rw [if_pos hexit, hdecode, Option.map_some] at hresult
  exact ⟨_, _, hresult, rfl, faithful_of_snaps hraw hbytes hsnap⟩

theorem snaps_of_delivered {execId : String} (hexit : exitCode ≠ 0)
    (h : Delivered execId exitCode rawOutput) : Snaps rawOutput := by
  obtain ⟨result, failure, hresult, hfailure, hfaithful⟩ := h
  rw [feedFailureForRepair, if_pos hexit] at hresult
  obtain ⟨tail, hdecode, rfl⟩ := Option.map_eq_some_iff.mp hresult
  obtain rfl := Option.some.inj hfailure
  obtain ⟨before, hraw, hbytes⟩ := (Utf8.decode_drop_iff (tailStart_le rawOutput)).mp hdecode
  refine ⟨before, tail, hraw, hbytes, fun hstart => ?_⟩
  cases htail : tail with
  | nil => exact .inl rfl
  | cons c rest =>
    refine .inr (congrArg some ?_)
    by_contra hc
    exact not_faithful hraw hbytes hstart htail hc hfaithful

/-- **An output without a line break is dropped as a whole**, where the bound has room for it. -/
theorem unbroken_dropped (execId : String) (hexit : exitCode ≠ 0)
    (hsmall : byteLength rawOutput ≤ 2000) (hne : rawOutput ≠ []) (hunbroken : '\n' ∉ rawOutput) :
    ¬ Delivered execId exitCode rawOutput := by
  intro h
  obtain ⟨before, tail, hraw, hbytes, hsnap⟩ := snaps_of_delivered hexit h
  have hstart : tailStart rawOutput = byteLength rawOutput - 2000 := rfl
  have hnil : before = [] := eq_nil_of_byteLength (by omega)
  rw [hnil, nil_append] at hraw
  rcases hsnap (.inl hnil) with htail | htail
  · exact hne (hraw.trans htail)
  · exact hunbroken (hraw ▸ mem_of_head? htail)

/-- **The evidence of a failure is faithful exactly if its cut snaps to a line.** -/
theorem delivered_iff (execId : String) {exitCode : Int} (hexit : exitCode ≠ 0)
    (rawOutput : List Char) :
    Delivered execId exitCode rawOutput ↔ Snaps rawOutput :=
  ⟨snaps_of_delivered hexit, delivered_of_snaps execId hexit⟩

def mismatch : List Char := "\nerror[E0308]: mismatched types\n".toList

/-- The cut falls within a long first line, and the second line is delivered. -/
theorem delivered_line : Delivered "exec-9" 101 (List.replicate 2500 'x' ++ mismatch) := by
  have hbytes : ∀ n, byteLength (List.replicate n 'x') = n := by
    intro n
    induction n with
    | zero => rfl
    | succ n ih =>
      rw [replicate_succ, ← singleton_append, byteLength_append, ih]
      exact Nat.add_comm 1 n
  have hmismatch : byteLength mismatch = 32 := by decide
  have hlength : byteLength (List.replicate 2500 'x' ++ mismatch) = 2532 := by
    rw [byteLength_append, hbytes, hmismatch]
  have hstart : ∀ l, tailStart l = byteLength l - 2000 := fun _ => rfl
  rw [delivered_iff "exec-9" (by decide)]
  refine ⟨List.replicate 532 'x', List.replicate 1968 'x' ++ mismatch, ?_, ?_, ?_⟩
  · rw [← append_assoc, replicate_append_replicate]
  · rw [hbytes, hstart, hlength]
  · rintro (hnil | hlast)
    · cases hnil
    · rw [getLast?_replicate] at hlast
      exact absurd hlast (by decide)

theorem line_dropped : ¬ Delivered "exec-9" 101 "error[E0308]: mismatched types".toList :=
  unbroken_dropped "exec-9" (by decide) (by decide +kernel) (by decide) (by decide)

end Modbit.Agent.RepairFeed
