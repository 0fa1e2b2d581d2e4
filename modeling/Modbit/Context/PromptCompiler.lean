import Mathlib.Data.String.Basic
import Mathlib.Data.List.Induction
import Modbit.Lib.Marked
import Modbit.Lib.OrdMap
import Modbit.Lib.Run
import Modbit.Lib.Sha256
import Modbit.Lib.Utf8

/-!
# The prompt compiler

`compile` of `crates/prompt-compiler` puts five segments one after the other, each behind its marker,
and hashes what the prompt is for: the model, the provider, the version and the hash of each segment.
The `CacheLedger` of `crates/context` takes a prompt for one that the provider has in its cache when it
has seen the key.

The model and the provider are hashed end to end, so that the key tells two inputs apart unless they
differ only in where the one ends and the other begins (`keyTells_iff`).  The text tells the segments
where no marker stands in the segments next to it (`textTells_iff`).
-/

namespace Modbit

open Lib List

namespace PromptCompiler

def compilerVersion : String := "0.1.0"

structure CompiledPrompt where
  cacheKey : String
  segmentHashes : List String
  compiled : String

structure CompilerInputs where
  model : String
  provider : String
  systemPolicy : String
  workspaceRules : String
  compactionEpoch : Option String
  taskContextPack : String
  recentEvents : String
  deriving DecidableEq

def bytes (s : String) : List UInt8 := Utf8.encode s.toList

def segmentHash (content : String) : String := Sha256.hex (bytes content)

namespace CompilerInputs

variable (inputs : CompilerInputs)

def segments : List (String × String) :=
  [("1-system-policy", inputs.systemPolicy), ("2-workspace-rules", inputs.workspaceRules),
    ("3-compaction-epoch", inputs.compactionEpoch.getD ""),
    ("4-task-context-pack", inputs.taskContextPack), ("5-recent-events", inputs.recentEvents)]

def contents : List String := inputs.segments.map Prod.snd

def keyed : List UInt8 :=
  bytes inputs.model ++ bytes inputs.provider ++ bytes compilerVersion
    ++ (inputs.contents.map segmentHash).flatMap bytes

end CompilerInputs

def compile (inputs : CompilerInputs) : CompiledPrompt where
  cacheKey := Sha256.hex inputs.keyed
  segmentHashes := inputs.contents.map segmentHash
  compiled := inputs.segments.foldl
    (fun compiled s => compiled ++ ("=== " ++ s.1 ++ " ===\n" ++ s.2 ++ "\n")) ""

/-! ### The ledger -/

structure CacheEvent where
  cacheKey : String
  hit : Bool
  head : Nat
  deriving DecidableEq

structure CacheLedger where
  seen : OrdMap String Nat
  events : List CacheEvent

def CacheLedger.new : CacheLedger := ⟨.empty, []⟩

def CacheLedger.record (ledger : CacheLedger) (inputs : CompilerInputs) (head : Nat) :
    CacheLedger × CacheEvent :=
  let key := (compile inputs).cacheKey
  if (ledger.seen.find? key).any (fun firstHead => decide (firstHead ≤ head)) = true then
    ({ ledger with events := ledger.events ++ [⟨key, true, head⟩] }, ⟨key, true, head⟩)
  else
    (⟨ledger.seen.insert key head, ledger.events ++ [⟨key, false, head⟩]⟩, ⟨key, false, head⟩)

def step (ledger : CacheLedger) (r : CompilerInputs × Nat) : CacheLedger × CacheEvent :=
  ledger.record r.1 r.2

/-! ### What is to be told apart -/

section Pairs

variable (i j : CompilerInputs)

/-- The model, the provider and the five contents. -/
def Same : Prop := i.model = j.model ∧ i.provider = j.provider ∧ i.contents = j.contents

def hashed : List (List UInt8) := i.keyed :: i.contents.map bytes

/-- No two of the byte strings that are hashed for the prompts have the same hash. -/
def CollisionFree : Prop := ∀ a ∈ hashed i ++ hashed j, ∀ b ∈ hashed i ++ hashed j,
  Sha256.hex a = Sha256.hex b → a = b

def KeyTells : Prop := (compile i).cacheKey = (compile j).cacheKey → Same i j

def TextTells : Prop := (compile i).compiled = (compile j).compiled → i.contents = j.contents

/-- The inputs do not differ only in where the model ends and the provider begins. -/
def Bounded : Prop := i.contents = j.contents → i.model ++ i.provider = j.model ++ j.provider →
  i.model = j.model

def marker (name : String) : List Char := ("=== " ++ name ++ " ===").toList

/-- The lines of the segments, each with the marker line before it. -/
def pieces : List (List Char × List (List Char)) :=
  i.segments.map (fun s => (marker s.1, s.2.toList.splitOn '\n'))

/-- The marker line of a segment is not a line of the segment before, the first one apart, and not a
line of the segment, the last one apart. -/
def Unmarked : Prop := Marked.Plain (pieces i)

end Pairs

variable {i j : CompilerInputs} {s t : String}

theorem encode_inj {l m : List Char} (h : Utf8.encode l = Utf8.encode m) : l = m := by
  have hdecode := congrArg Utf8.decode h
  rw [Utf8.decode_encode, Utf8.decode_encode] at hdecode
  exact Option.some.inj hdecode

theorem bytes_inj (h : bytes s = bytes t) : s = t := String.toList_inj.mp (encode_inj h)

/-! ### The key -/

theorem flatMap_bytes (l : List String) : l.flatMap bytes = Utf8.encode (l.flatMap String.toList) := by
  induction l with
  | nil => rfl
  | cons s l ih => rw [flatMap_cons, flatMap_cons, Utf8.encode_append, ih, bytes]

theorem keyed_eq (i : CompilerInputs) : i.keyed = Utf8.encode ((i.model ++ i.provider).toList
    ++ (compilerVersion.toList ++ (i.contents.map segmentHash).flatMap String.toList)) := by
  rw [CompilerInputs.keyed, flatMap_bytes, bytes, bytes, bytes, String.toList_append,
    Utf8.encode_append, Utf8.encode_append, Utf8.encode_append]
  simp only [append_assoc]

theorem length_hashes (l : List String) :
    ((l.map segmentHash).flatMap String.toList).length = 64 * l.length := by
  induction l with
  | nil => rfl
  | cons s l ih =>
    rw [map_cons, flatMap_cons, length_append, ih, segmentHash, Sha256.length_hex, length_cons]
    omega

theorem hashes_inj {l m : List String} (hlen : l.length = m.length)
    (h : (l.map segmentHash).flatMap String.toList = (m.map segmentHash).flatMap String.toList) :
    l.map segmentHash = m.map segmentHash := by
  induction l generalizing m with
  | nil =>
    cases m with
    | nil => rfl
    | cons _ _ => cases hlen
  | cons s l ih =>
    cases m with
    | nil => cases hlen
    | cons t m =>
      rw [map_cons, map_cons, flatMap_cons, flatMap_cons] at h
      obtain ⟨hhash, hrest⟩ := append_inj h
        ((Sha256.length_hex _).trans (Sha256.length_hex _).symm)
      rw [map_cons, map_cons, String.toList_inj.mp hhash, ih (Nat.succ.inj hlen) hrest]

theorem keyed_inj (h : i.keyed = j.keyed) : i.model ++ i.provider = j.model ++ j.provider ∧
    i.contents.map segmentHash = j.contents.map segmentHash := by
  rw [keyed_eq, keyed_eq] at h
  have hlen : (compilerVersion.toList ++ (i.contents.map segmentHash).flatMap String.toList).length
      = (compilerVersion.toList ++ (j.contents.map segmentHash).flatMap String.toList).length := by
    rw [length_append, length_append, length_hashes, length_hashes]
    rfl
  obtain ⟨hnames, hrest⟩ := append_inj' (encode_inj h) hlen
  exact ⟨String.toList_inj.mp hnames, hashes_inj rfl (append_cancel_left hrest)⟩

theorem contents_inj {l m : List String} (hfree : ∀ a ∈ l.map bytes, ∀ b ∈ m.map bytes,
    Sha256.hex a = Sha256.hex b → a = b) (h : l.map segmentHash = m.map segmentHash) : l = m := by
  induction l generalizing m with
  | nil => exact (map_eq_nil_iff.mp h.symm).symm
  | cons s l ih =>
    cases m with
    | nil => cases h
    | cons t m =>
      obtain ⟨hhash, hrest⟩ := List.cons.inj h
      have hst := hfree (bytes s) mem_cons_self (bytes t) mem_cons_self hhash
      rw [bytes_inj hst, ih (fun a ha b hb => hfree a (mem_cons_of_mem _ ha) b
        (mem_cons_of_mem _ hb)) hrest]

/-- **What the key tells apart.** -/
theorem keyTells_iff (hfree : CollisionFree i j) : KeyTells i j ↔ Bounded i j := by
  constructor
  · intro htells hcontents hnames
    refine (htells ?_).1
    show Sha256.hex i.keyed = Sha256.hex j.keyed
    rw [keyed_eq, keyed_eq, hnames, hcontents]
  · intro hbounded hkey
    have hkeyed := hfree i.keyed (mem_append_left _ mem_cons_self) j.keyed
      (mem_append_right _ mem_cons_self) hkey
    obtain ⟨hnames, hhashes⟩ := keyed_inj hkeyed
    have hcontents : i.contents = j.contents :=
      contents_inj (fun a ha b hb => hfree a (mem_append_left _ (mem_cons_of_mem _ ha)) b
        (mem_append_right _ (mem_cons_of_mem _ hb))) hhashes
    have hmodel := hbounded hcontents hnames
    refine ⟨hmodel, ?_, hcontents⟩
    have hchars := congrArg String.toList hnames
    rw [String.toList_append, String.toList_append, hmodel] at hchars
    exact String.toList_inj.mp (append_cancel_left hchars)

/-! ### The text -/

theorem toList_foldl (l : List (String × String)) (text : String) :
    (l.foldl (fun compiled s => compiled ++ ("=== " ++ s.1 ++ " ===\n" ++ s.2 ++ "\n")) text).toList
      = text.toList ++ Marked.ended '\n' (Marked.assemble
        (l.map (fun s => (marker s.1, s.2.toList.splitOn '\n')))) := by
  induction l generalizing text with
  | nil => exact (append_nil _).symm
  | cons s l ih =>
    have hsegment : ("=== " ++ s.1 ++ " ===\n" ++ s.2 ++ "\n").toList
        = marker s.1 ++ '\n' :: (s.2.toList ++ ['\n']) := by
      simp [marker, String.toList_append]
    rw [foldl_cons, ih, String.toList_append, hsegment, map_cons, Marked.assemble_cons,
      Marked.ended_cons, Marked.ended_append, (Marked.splitOn_spec s.2.toList).2]
    simp only [append_assoc, cons_append]

theorem toList_compiled (i : CompilerInputs) :
    (compile i).compiled.toList = Marked.ended '\n' (Marked.assemble (pieces i)) :=
  toList_foldl i.segments ""

def withContents (i : CompilerInputs) : List String → CompilerInputs
  | [a, b, c, d, e] =>
    { i with systemPolicy := a, workspaceRules := b, compactionEpoch := some c,
             taskContextPack := d, recentEvents := e }
  | _ => i

theorem pieces_filled (i : CompilerInputs) : Marked.Filled (pieces i) := by
  intro p hp
  obtain ⟨s, -, rfl⟩ := mem_map.mp hp
  exact splitOn_ne_nil _ _

theorem pieces_lines (i : CompilerInputs) : ∀ x ∈ Marked.assemble (pieces i), '\n' ∉ x := by
  have hmarkers : ∀ name ∈ i.segments.map Prod.fst, '\n' ∉ marker name := by
    show ∀ name ∈ ["1-system-policy", "2-workspace-rules", "3-compaction-epoch",
      "4-task-context-pack", "5-recent-events"], '\n' ∉ marker name
    decide
  intro x hx
  obtain ⟨p, hp, hx⟩ := mem_flatMap.mp hx
  obtain ⟨s, hs, rfl⟩ := mem_map.mp hp
  rcases mem_cons.mp hx with rfl | hx
  · exact hmarkers s.1 (mem_map_of_mem hs)
  · exact (Marked.splitOn_spec s.2.toList).1 x hx

theorem text_eq_iff : (compile i).compiled = (compile j).compiled ↔
    Marked.assemble (pieces i) = Marked.assemble (pieces j) := by
  rw [← String.toList_inj, toList_compiled, toList_compiled]
  exact ⟨Marked.ended_inj (pieces_lines i) (pieces_lines j), congrArg _⟩

def contentOf (p : List Char × List (List Char)) : String := String.ofList (['\n'].intercalate p.2)

theorem contents_eq (i : CompilerInputs) : i.contents = (pieces i).map contentOf := by
  rw [pieces, map_map]
  refine map_congr_left (fun s _ => ?_)
  rw [Function.comp_apply, contentOf, intercalate_splitOn, String.ofList_toList]

theorem pieces_congr (h : i.contents = j.contents) : pieces i = pieces j := by
  have hzip : ∀ k : CompilerInputs, k.segments = ["1-system-policy", "2-workspace-rules",
      "3-compaction-epoch", "4-task-context-pack", "5-recent-events"].zip k.contents := fun _ => rfl
  rw [pieces, pieces, hzip, hzip, h]

theorem pieces_withContents (i : CompilerInputs) {qs : List (List Char × List (List Char))}
    (hfilled : Marked.Filled qs) (hlines : ∀ x ∈ Marked.assemble qs, '\n' ∉ x)
    (hmarkers : qs.map Prod.fst = (pieces i).map Prod.fst) :
    pieces (withContents i (qs.map contentOf)) = qs := by
  have hlen := congrArg List.length hmarkers
  rw [length_map, length_map] at hlen
  have hsplit : ∀ q ∈ qs, (contentOf q).toList.splitOn '\n' = q.2 := by
    intro q hq
    rw [contentOf, String.toList_ofList]
    refine splitOn_intercalate _ (fun x hx => hlines x ?_) (hfilled q hq)
    exact mem_flatMap.mpr ⟨q, hq, mem_cons_of_mem _ hx⟩
  match qs, hlen with
  | [a, b, c, d, e], _ =>
    simp only [map_cons, map_nil, pieces, CompilerInputs.segments, List.cons.injEq,
      and_true] at hmarkers
    obtain ⟨ha, hb, hc, hd, he⟩ := hmarkers
    simp only [map_cons, map_nil, withContents, pieces, CompilerInputs.segments, Option.getD_some]
    rw [← ha, ← hb, ← hc, ← hd, ← he, hsplit a (by simp), hsplit b (by simp), hsplit c (by simp),
      hsplit d (by simp), hsplit e (by simp)]

/-- **Which text tells its contents.** -/
theorem textTells_iff (i : CompilerInputs) : (∀ j, TextTells i j) ↔ Unmarked i := by
  constructor
  · intro htells
    by_contra hmarked
    obtain ⟨qs, hfilled, hmarkers, hassemble, hne⟩ :=
      Marked.exists_other (pieces_filled i) hmarked
    have hlines : ∀ x ∈ Marked.assemble qs, '\n' ∉ x := hassemble ▸ pieces_lines i
    have hpieces := pieces_withContents i hfilled hlines hmarkers
    have hcontents := htells (withContents i (qs.map contentOf))
      (text_eq_iff.mpr (by rw [hpieces, hassemble]))
    exact hne (hpieces.symm.trans (pieces_congr hcontents).symm)
  · intro hplain j htext
    have hpieces : pieces i = pieces j :=
      Marked.assemble_inj hplain (pieces_filled j) rfl (text_eq_iff.mp htext)
    rw [contents_eq, contents_eq, hpieces]

/-! ### The ledger's hits -/

theorem seen_run (records : List (CompilerInputs × Nat)) (key : String)
    (h : ((run step .new records).seen.find? key).isSome = true) :
    ∃ r ∈ records, (compile r.1).cacheKey = key := by
  induction records using List.reverseRecOn with
  | nil => cases h
  | append_singleton records r ih =>
    have hold : ((run step .new records).seen.find? key).isSome = true →
        ∃ r' ∈ records ++ [r], (compile r'.1).cacheKey = key := by
      intro hseen
      obtain ⟨r', hr', hkey⟩ := ih hseen
      exact ⟨r', mem_append_left _ hr', hkey⟩
    rw [run_append, run_cons, run_nil, step, CacheLedger.record] at h
    split_ifs at h with hhit
    · exact hold h
    · rw [OrdMap.find?_insert] at h
      split_ifs at h with hkey
      · exact ⟨r, mem_append_right _ (mem_singleton.mpr rfl), hkey.symm⟩
      · exact hold h

theorem hit_recorded {records : List (CompilerInputs × Nat)} {head : Nat}
    (h : ((run step .new records).record i head).2.hit = true) :
    ∃ r ∈ records, (compile r.1).cacheKey = (compile i).cacheKey := by
  rw [CacheLedger.record] at h
  split_ifs at h with hhit
  · refine seen_run records _ ?_
    cases hseen : (run step .new records).seen.find? (compile i).cacheKey with
    | none =>
      rw [hseen] at hhit
      cases hhit
    | some firstHead => rfl

/-- **What the compiler tells apart.**  The key tells two prompts apart unless they have the same
contents and the model and provider differ only in their boundary, and so a hit is for the same prompt;
the text tells the contents where they have no marker. -/
theorem compile_tells_iff (i : CompilerInputs) :
    (∀ j, CollisionFree i j → (KeyTells i j ↔ Bounded i j)) ∧
    ((∀ j, TextTells i j) ↔ Unmarked i) ∧
    ∀ records head, (∀ r ∈ records, CollisionFree r.1 i ∧ Bounded r.1 i) →
      ((run step .new records).record i head).2.hit = true → ∃ r ∈ records, Same r.1 i := by
  refine ⟨fun j hfree => keyTells_iff hfree, textTells_iff i, fun records head h hhit => ?_⟩
  obtain ⟨r, hr, hkey⟩ := hit_recorded hhit
  obtain ⟨hfree, hbounded⟩ := h r hr
  exact ⟨r, hr, (keyTells_iff hfree).mpr hbounded hkey⟩

/-- The model `a` of the provider `bc`, and `ab` of `c`. -/
def splitEarly : CompilerInputs := ⟨"a", "bc", "", "", none, "", ""⟩

def splitLate : CompilerInputs := ⟨"ab", "c", "", "", none, "", ""⟩

/-- A line of the policy that is the marker of the rules, and the prompt whose rules begin there. -/
def policyMarked : CompilerInputs :=
  ⟨"m", "v", "p\n=== 2-workspace-rules ===\nq", "r", none, "", ""⟩

def rulesMarked : CompilerInputs :=
  ⟨"m", "v", "p", "q\n=== 2-workspace-rules ===\nr", none, "", ""⟩

theorem split_keyed : splitEarly.keyed = splitLate.keyed := by
  rw [keyed_eq, keyed_eq]
  rfl

def withPolicy : CompilerInputs := { splitEarly with systemPolicy := "p" }

/-- What is hashed for the three prompts. -/
def hashedTexts : List (List UInt8) :=
  [bytes "", bytes "p", splitEarly.keyed, withPolicy.keyed]

theorem nodup_hashedTexts : (hashedTexts.map Sha256.hex).Nodup := by
  -- the two short hashes first: the keys are made of them
  have hempty : segmentHash ""
      = "e3b0c44298fc1c149afbf4c8996fb92427ae41e4649b934ca495991b7852b855" := by decide +kernel
  have hp : segmentHash "p"
      = "148de9c5a7a44d19e56cd9ae1a554bf67847afb0c58f6e12fa29ac7ddfca9940" := by decide +kernel
  have hearly : Sha256.hex splitEarly.keyed
      = "aedd87c0c750cbd7ceb5f798225372d11640a5ace5e374ea7fff21e664da4887" := by
    have hmap : splitEarly.contents.map segmentHash = replicate 5 (segmentHash "") := rfl
    rw [CompilerInputs.keyed, hmap, hempty]
    decide +kernel
  have hpolicy : Sha256.hex withPolicy.keyed
      = "cc0aa52588f179ab829cd103e798d943c5586e415ce1d5dccb1a55c607a7dab5" := by
    have hmap : withPolicy.contents.map segmentHash
        = segmentHash "p" :: replicate 4 (segmentHash "") := rfl
    rw [CompilerInputs.keyed, hmap, hempty, hp]
    decide +kernel
  show [segmentHash "", segmentHash "p", Sha256.hex splitEarly.keyed,
    Sha256.hex withPolicy.keyed].Nodup
  rw [hearly, hpolicy, hp, hempty]
  decide +kernel

theorem collisionFree_of_subset (h : hashed i ++ hashed j ⊆ hashedTexts) : CollisionFree i j :=
  fun _ ha _ hb hhash => inj_on_of_nodup_map nodup_hashedTexts (h ha) (h hb) hhash

theorem early_mem : splitEarly.keyed ∈ hashedTexts :=
  mem_cons_of_mem _ (mem_cons_of_mem _ mem_cons_self)

theorem split_collisionFree : CollisionFree splitEarly splitLate := by
  refine collisionFree_of_subset (append_subset.mpr ⟨?_, ?_⟩)
  · exact cons_subset.mpr ⟨early_mem, by decide⟩
  · exact cons_subset.mpr ⟨split_keyed ▸ early_mem, by decide⟩

theorem policy_collisionFree : CollisionFree splitEarly withPolicy := by
  refine collisionFree_of_subset (append_subset.mpr ⟨?_, ?_⟩)
  · exact cons_subset.mpr ⟨early_mem, by decide⟩
  · exact cons_subset.mpr ⟨mem_append_right [_, _, _] mem_cons_self, by decide⟩

/-- The boundary is lost in the key, and the ledger takes the one prompt for the other; a marker in the
policy is lost in the text. -/
theorem boundary_lost : CollisionFree splitEarly splitLate ∧ ¬ KeyTells splitEarly splitLate ∧
    ((step (step .new (splitEarly, 1)).1 (splitLate, 2)).2).hit = true ∧
    ¬ TextTells policyMarked rulesMarked := by
  have hkey : (compile splitEarly).cacheKey = (compile splitLate).cacheKey :=
    congrArg Sha256.hex split_keyed
  refine ⟨split_collisionFree, fun h => ?_, ?_, fun h => ?_⟩
  · exact absurd (h hkey).1 (by decide)
  · have hseen : (step .new (splitEarly, 1)).1.seen.find? (compile splitLate).cacheKey = some 1 := by
      have hinsert : (step .new (splitEarly, 1)).1.seen
          = OrdMap.empty.insert (compile splitEarly).cacheKey 1 := rfl
      rw [hinsert, OrdMap.find?_insert, if_pos hkey.symm]
    rw [step, CacheLedger.record, if_pos (by rw [hseen]; rfl)]
  · exact absurd (h (by decide +kernel)) (by decide)

/-- The key does not tell the first two prompts apart, and tells a third one. -/
theorem compile_tells_split : (KeyTells splitEarly splitLate ↔ Bounded splitEarly splitLate) ∧
    Bounded splitEarly withPolicy ∧ KeyTells splitEarly withPolicy := by
  have hbounded : Bounded splitEarly withPolicy := fun hcontents => absurd hcontents (by decide)
  exact ⟨(compile_tells_iff splitEarly).1 splitLate split_collisionFree, hbounded,
    ((compile_tells_iff splitEarly).1 withPolicy policy_collisionFree).mpr hbounded⟩

end PromptCompiler

end Modbit
