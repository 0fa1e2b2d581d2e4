import Mathlib.Data.List.Count
import Mathlib.Data.List.Nodup
import Modbit.Lib.Run
import Modbit.Lib.Marked
import Modbit.Lib.Sha256
import Modbit.Lib.Utf8

/-!
# The transcript

`Transcript` of `crates/context/src/recoverability.rs`: a canonical log that only grows, and compactions
of what the model sees of it.  The view has a summary for every compaction and the events after the
boundary of the last one.

The last boundary need not be the furthest.  `always_iff` says when every event is at each moment shown
or covered by a summary, and `digest_iff` what the digest of the log says of the log: kinds and payloads
are hashed end to end.  The number of an event is far below `2 ^ 64`.
-/

namespace Modbit

open Lib List

namespace Recoverability

structure CanonicalEvent where
  seq : Nat
  kind : String
  payload : String
  deriving DecidableEq

structure TranscriptCompaction where
  throughSeq : UInt64
  summary : String
  deriving DecidableEq

structure Transcript where
  canonical : List CanonicalEvent
  compactions : List TranscriptCompaction

def bytes (s : String) : List UInt8 := Utf8.encode s.toList

def leBytes : Nat → Nat → List UInt8
  | 0, _ => []
  | n + 1, v => UInt8.ofNat (v % 256) :: leBytes n (v / 256)

def CanonicalEvent.hashed (e : CanonicalEvent) : List UInt8 :=
  leBytes 8 e.seq ++ bytes e.kind ++ bytes e.payload

inductive Shown where
  | summary (compaction : TranscriptCompaction)
  | event (event : CanonicalEvent)
  deriving DecidableEq

def Shown.text : Shown → String
  | .summary c => "[summary through seq " ++ toString c.throughSeq.toNat ++ "] " ++ c.summary
  | .event e => e.kind ++ ": " ++ e.payload

namespace Transcript

def new : Transcript := ⟨[], []⟩

variable (t : Transcript)

def append (kind payload : String) : Transcript × Nat :=
  ({ t with canonical := t.canonical ++ [⟨t.canonical.length, kind, payload⟩] }, t.canonical.length)

def compact (throughSeq : UInt64) (summary : String) : Transcript :=
  { t with compactions := t.compactions ++ [⟨throughSeq, summary⟩] }

def stream : List UInt8 := t.canonical.flatMap CanonicalEvent.hashed

def canonicalDigest : String := Sha256.hex t.stream

/-- One turn of the loop over the compactions; `none` where the addition overflows. -/
def take (view : List Shown × Nat) (c : TranscriptCompaction) : Option (List Shown × Nat) :=
  if c.throughSeq.toNat + 1 < 2 ^ 64 then some (view.1 ++ [.summary c], c.throughSeq.toNat + 1)
  else none

def shown : Option (List Shown) :=
  (t.compactions.foldlM take ([], 0)).map (fun view =>
    view.1 ++ (t.canonical.filter (fun e => decide (view.2 ≤ e.seq))).map .event)

def visible : Option (List String) := t.shown.map (fun view => view.map Shown.text)

end Transcript

inductive Call where
  | append (kind payload : String)
  | compact (throughSeq : UInt64) (summary : String)

def step (t : Transcript) : Call → Transcript × Option Nat
  | .append kind payload => ((t.append kind payload).1, some (t.append kind payload).2)
  | .compact throughSeq summary => (t.compact throughSeq summary, none)

/-! ### What is to be seen -/

def Covers (view : List Shown) (e : CanonicalEvent) : Prop :=
  ∃ c, .summary c ∈ view ∧ e.seq ≤ c.throughSeq.toNat

/-- There is a view, and every event is shown once or covered, and not both. -/
def Faithful (t : Transcript) : Prop := ∃ view, t.shown = some view ∧ ∀ e ∈ t.canonical,
  (view.count (.event e) = 1 ∧ ¬ Covers view e) ∨ (view.count (.event e) = 0 ∧ Covers view e)

/-- The number of the first event that the last compaction leaves. -/
def Transcript.next (t : Transcript) : Nat :=
  t.compactions.getLast?.elim 0 (fun c => c.throughSeq.toNat + 1)

def Reached (t : Transcript) (n : Nat) : Prop := ∃ c ∈ t.compactions, n ≤ c.throughSeq.toNat

/-- What a call must meet: a compaction reaches every event that an earlier one reaches, and is not at
the greatest number; an event that comes and is reached already is reached by the last compaction. -/
def Takes (t : Transcript) : Call → Prop
  | .append _ _ => Reached t t.canonical.length → t.canonical.length < t.next
  | .compact throughSeq _ => throughSeq.toNat + 1 < 2 ^ 64 ∧
      ∀ e ∈ t.canonical, Reached t e.seq → e.seq ≤ throughSeq.toNat

/-! ### The view -/

variable {t : Transcript} {n : Nat}

theorem foldlM_take (l : List TranscriptCompaction) : l.foldlM Transcript.take ([], 0)
    = if ∀ c ∈ l, c.throughSeq.toNat + 1 < 2 ^ 64 then
        some (l.map .summary, l.getLast?.elim 0 (fun c => c.throughSeq.toNat + 1))
      else none := by
  induction l using List.reverseRecOn with
  | nil => rfl
  | append_singleton l c ih =>
    rw [foldlM_append, ih]
    by_cases hl : ∀ c ∈ l, c.throughSeq.toNat + 1 < 2 ^ 64
    · rw [if_pos hl]
      show ([c].foldlM Transcript.take _ : Option _) = _
      rw [foldlM_cons, Transcript.take]
      by_cases hc : c.throughSeq.toNat + 1 < 2 ^ 64
      · rw [if_pos hc, if_pos (forall_mem_append.mpr ⟨hl, by simpa using hc⟩)]
        rw [map_append, getLast?_concat]
        rfl
      · rw [if_neg hc, if_neg (fun h => hc (h c (by simp)))]
        rfl
    · rw [if_neg hl, if_neg (fun h => hl (fun c hc => h c (mem_append_left _ hc)))]
      rfl

def Transcript.view (t : Transcript) : List Shown := t.compactions.map .summary ++
  (t.canonical.filter (fun e => decide (t.next ≤ e.seq))).map .event

theorem shown_eq (t : Transcript) : t.shown
    = if ∀ c ∈ t.compactions, c.throughSeq.toNat + 1 < 2 ^ 64 then some t.view else none := by
  rw [Transcript.shown, foldlM_take]
  split_ifs
  · rfl
  · rfl

/-- The events have their places for numbers. -/
def Numbered (t : Transcript) : Prop :=
  t.canonical.map CanonicalEvent.seq = List.range t.canonical.length

theorem step_numbered (h : Numbered t) (call : Call) : Numbered (step t call).1 := by
  cases call with
  | append kind payload =>
    show (t.canonical ++ [_]).map CanonicalEvent.seq = List.range (t.canonical ++ [_]).length
    rw [map_append, h, length_append, length_singleton, range_succ]
    rfl
  | compact throughSeq summary => exact h

theorem run_numbered (calls : List Call) : Numbered (run step .new calls) := by
  have hpath : Path step (fun _ _ => True) .new (run step .new calls) := path_run _ calls
  exact hpath.invariant rfl (fun t call h _ => step_numbered h call)

theorem Numbered.nodup (h : Numbered t) : t.canonical.Nodup := by
  refine List.Nodup.of_map CanonicalEvent.seq ?_
  rw [h]
  exact nodup_range

theorem reached_of_lt_next (h : n < t.next) : Reached t n := by
  rw [Transcript.next] at h
  cases hlast : t.compactions.getLast? with
  | none =>
    rw [hlast] at h
    exact absurd h (Nat.not_lt_zero n)
  | some c =>
    rw [hlast] at h
    exact ⟨c, mem_of_getLast? hlast, Nat.le_of_lt_succ h⟩

/-- No addition overflows, and the last compaction reaches every event that one reaches. -/
structure Steady (t : Transcript) : Prop where
  bounded : ∀ c ∈ t.compactions, c.throughSeq.toNat + 1 < 2 ^ 64
  reaches : ∀ e ∈ t.canonical, Reached t e.seq → e.seq < t.next

theorem covers_iff (t : Transcript) (e : CanonicalEvent) : Covers t.view e ↔ Reached t e.seq := by
  constructor
  · rintro ⟨c, hc, hle⟩
    rcases mem_append.mp hc with hc | hc
    · obtain ⟨c', hc', hsame⟩ := mem_map.mp hc
      cases hsame
      exact ⟨c, hc', hle⟩
    · obtain ⟨e', -, hsame⟩ := mem_map.mp hc
      cases hsame
  · rintro ⟨c, hc, hle⟩
    exact ⟨c, mem_append_left _ (mem_map_of_mem hc), hle⟩

theorem count_view (h : t.canonical.Nodup) {e : CanonicalEvent} (he : e ∈ t.canonical) :
    t.view.count (.event e) = if t.next ≤ e.seq then 1 else 0 := by
  have hsummaries : (t.compactions.map Shown.summary).count (.event e) = 0 := by
    refine count_eq_zero.mpr (fun hmem => ?_)
    obtain ⟨c, -, hsame⟩ := mem_map.mp hmem
    cases hsame
  have hinj : Function.Injective Shown.event := fun _ _ hsame => Shown.event.inj hsame
  rw [Transcript.view, count_append, hsummaries, Nat.zero_add, count_map_of_injective _ _ hinj]
  split_ifs with hnext
  · exact count_eq_one_of_mem (h.filter _) (mem_filter.mpr ⟨he, decide_eq_true hnext⟩)
  · refine count_eq_zero.mpr (fun hmem => hnext ?_)
    exact of_decide_eq_true (mem_filter.mp hmem).2

theorem faithful_iff (h : t.canonical.Nodup) : Faithful t ↔ Steady t := by
  constructor
  · rintro ⟨view, hview, hshown⟩
    rw [shown_eq] at hview
    split_ifs at hview with hbounded
    obtain rfl := Option.some.inj hview
    refine ⟨hbounded, fun e he hreached => ?_⟩
    have hcovers := (covers_iff t e).mpr hreached
    rcases hshown e he with ⟨-, hnot⟩ | ⟨hcount, -⟩
    · exact absurd hcovers hnot
    · rw [count_view h he] at hcount
      by_contra hle
      rw [if_pos (Nat.le_of_not_lt hle)] at hcount
      cases hcount
  · intro hsteady
    refine ⟨_, (shown_eq t).trans (if_pos hsteady.bounded), fun e he => ?_⟩
    rw [count_view h he, covers_iff]
    by_cases hnext : t.next ≤ e.seq
    · refine .inl ⟨if_pos hnext, fun hreached => ?_⟩
      exact absurd (hsteady.reaches e he hreached) (Nat.not_lt_of_le hnext)
    · exact .inr ⟨if_neg hnext, reached_of_lt_next (Nat.lt_of_not_le hnext)⟩

/-! ### The calls -/

theorem reached_compact (throughSeq : UInt64) (summary : String) (n : Nat) :
    Reached (t.compact throughSeq summary) n ↔ Reached t n ∨ n ≤ throughSeq.toNat := by
  constructor
  · rintro ⟨c, hc, hle⟩
    rcases mem_append.mp hc with hc | hc
    · exact .inl ⟨c, hc, hle⟩
    · rw [mem_singleton.mp hc] at hle
      exact .inr hle
  · rintro (⟨c, hc, hle⟩ | hle)
    · exact ⟨c, mem_append_left _ hc, hle⟩
    · exact ⟨_, mem_append_right _ (mem_singleton.mpr rfl), hle⟩

theorem next_compact (throughSeq : UInt64) (summary : String) :
    (t.compact throughSeq summary).next = throughSeq.toNat + 1 := by
  rw [Transcript.next, Transcript.compact, getLast?_concat]
  rfl

/-- **A call keeps the view steady exactly if it takes in what is reached.** -/
theorem step_steady (h : Steady t) (call : Call) : Steady (step t call).1 ↔ Takes t call := by
  cases call with
  | append kind payload =>
    constructor
    · intro hnew hreached
      exact hnew.reaches ⟨t.canonical.length, kind, payload⟩
        (mem_append_right _ (mem_singleton.mpr rfl)) hreached
    · intro htakes
      refine ⟨h.bounded, fun e he hreached => ?_⟩
      rcases mem_append.mp he with he | he
      · exact h.reaches e he hreached
      · rw [mem_singleton.mp he] at hreached ⊢
        exact htakes hreached
  | compact throughSeq summary =>
    constructor
    · intro hnew
      refine ⟨hnew.bounded _ (mem_append_right _ (mem_singleton.mpr rfl)),
        fun e he hreached => ?_⟩
      have hlt := hnew.reaches e he ((reached_compact throughSeq summary e.seq).mpr (.inl hreached))
      rw [step, next_compact] at hlt
      exact Nat.le_of_lt_succ hlt
    · rintro ⟨hbounded, htakes⟩
      refine ⟨fun c hc => ?_, fun e he hreached => ?_⟩
      · rcases mem_append.mp hc with hc | hc
        · exact h.bounded c hc
        · rw [mem_singleton.mp hc]
          exact hbounded
      · rw [step, next_compact]
        refine Nat.lt_succ_of_le ?_
        rcases (reached_compact throughSeq summary e.seq).mp hreached with hreached | hle
        · exact htakes e he hreached
        · exact hle

/-- **Every event is always shown or covered exactly if every call takes in what is reached.** -/
theorem always_iff (calls : List Call) :
    Always step Faithful .new calls ↔ Admits step Takes .new calls := by
  have hnew : Faithful .new := ⟨[], rfl, fun _ he => absurd he not_mem_nil⟩
  refine always_iff_admits hnew (fun is call hfaithful => ?_) calls
  have hnumbered := run_numbered is
  rw [faithful_iff hnumbered.nodup] at hfaithful
  rw [faithful_iff (step_numbered hnumbered call).nodup]
  exact step_steady hfaithful call

/-! ### The digest -/

def CanonicalEvent.text (e : CanonicalEvent) : String := e.kind ++ e.payload

/-- No text has all bytes of the number after its own. -/
def Lacking (t : Transcript) : Prop :=
  Marked.Lacking (leBytes 8) 0 (t.canonical.map (fun e => bytes e.text))

section Pairs

variable (t u : Transcript)

/-- The two byte strings that are hashed have two hashes, unless they are the same. -/
def CollisionFree : Prop :=
  Sha256.hex t.stream = Sha256.hex u.stream → t.stream = u.stream

def DigestTells : Prop := t.canonicalDigest = u.canonicalDigest → t.canonical = u.canonical

/-- The logs do not differ only in where the kinds end and the payloads begin. -/
def Bounded : Prop := t.canonical.map CanonicalEvent.text = u.canonical.map CanonicalEvent.text →
  t.canonical.map CanonicalEvent.kind = u.canonical.map CanonicalEvent.kind

end Pairs

variable {u : Transcript}

theorem bytes_inj {s s' : String} (h : bytes s = bytes s') : s = s' := by
  have hdecode := congrArg Utf8.decode h
  rw [bytes, bytes, Utf8.decode_encode, Utf8.decode_encode] at hdecode
  exact String.toList_inj.mp (Option.some.inj hdecode)

theorem hashed_eq (e : CanonicalEvent) : e.hashed = leBytes 8 e.seq ++ bytes e.text := by
  rw [CanonicalEvent.hashed, CanonicalEvent.text, append_assoc, bytes, bytes, bytes,
    String.toList_append, Utf8.encode_append]

theorem flatMap_hashed (l : List CanonicalEvent) (n : Nat)
    (h : l.map CanonicalEvent.seq = List.range' n l.length) :
    l.flatMap CanonicalEvent.hashed
      = Marked.laid (leBytes 8) n (l.map (fun e => bytes e.text)) := by
  induction l generalizing n with
  | nil => rfl
  | cons e l ih =>
    rw [length_cons, range'_succ, map_cons] at h
    obtain ⟨hseq, hrest⟩ := List.cons.inj h
    rw [flatMap_cons, map_cons, Marked.laid, hashed_eq, hseq, ih (n + 1) hrest]

theorem Numbered.stream_eq (h : Numbered t) :
    t.stream = Marked.laid (leBytes 8) 0 (t.canonical.map (fun e => bytes e.text)) :=
  flatMap_hashed t.canonical 0 (h.trans range_eq_range')

theorem map_text_of_bytes {l m : List CanonicalEvent}
    (h : l.map (fun e => bytes e.text) = m.map (fun e => bytes e.text)) :
    l.map CanonicalEvent.text = m.map CanonicalEvent.text := by
  refine map_injective_iff.mpr (fun _ _ => bytes_inj) ?_
  rw [map_map, map_map]
  exact h

theorem events_inj {l m : List CanonicalEvent}
    (hseq : l.map CanonicalEvent.seq = m.map CanonicalEvent.seq)
    (hkind : l.map CanonicalEvent.kind = m.map CanonicalEvent.kind)
    (htext : l.map CanonicalEvent.text = m.map CanonicalEvent.text) : l = m := by
  induction l generalizing m with
  | nil => exact (map_eq_nil_iff.mp hseq.symm).symm
  | cons e l ih =>
    cases m with
    | nil => cases hseq
    | cons f m =>
      obtain ⟨hseq, hseqs⟩ := List.cons.inj hseq
      obtain ⟨hkind, hkinds⟩ := List.cons.inj hkind
      obtain ⟨htext, htexts⟩ := List.cons.inj htext
      have hpayload : e.payload = f.payload := by
        have hchars := congrArg String.toList htext
        rw [CanonicalEvent.text, CanonicalEvent.text, String.toList_append, String.toList_append,
          hkind] at hchars
        exact String.toList_inj.mp (append_cancel_left hchars)
      have hef : e = f := by
        cases e
        cases f
        exact (CanonicalEvent.mk.injEq ..).mpr ⟨hseq, hkind, hpayload⟩
      rw [hef, ih hseqs hkinds htexts]

/-- **What the digest tells apart.** -/
theorem digest_iff (ht : Numbered t) (hu : Numbered u) (hlt : Lacking t) (hlu : Lacking u)
    (hfree : CollisionFree t u) : DigestTells t u ↔ Bounded t u := by
  constructor
  · intro htells htext
    have hstream : t.stream = u.stream := by
      have hbytes := congrArg (List.map bytes) htext
      rw [map_map, map_map] at hbytes
      rw [ht.stream_eq, hu.stream_eq]
      exact congrArg _ hbytes
    rw [htells (congrArg Sha256.hex hstream)]
  · intro hbounded hdigest
    have hstream := hfree hdigest
    rw [ht.stream_eq, hu.stream_eq] at hstream
    have htexts := map_text_of_bytes (Marked.laid_inj hlt hlu (fun _ => cons_ne_nil _ _) hstream)
    refine events_inj ?_ (hbounded htexts) htexts
    have hlen := congrArg List.length htexts
    rw [length_map, length_map] at hlen
    rw [ht, hu, hlen]

/-- **When the transcript keeps its promises**, at every moment of a run and between two runs. -/
theorem transcript_iff (calls calls' : List Call) :
    (Always step Faithful .new calls ↔ Admits step Takes .new calls) ∧
    (Lacking (run step .new calls) → Lacking (run step .new calls') →
      CollisionFree (run step .new calls) (run step .new calls') →
        (DigestTells (run step .new calls) (run step .new calls') ↔
          Bounded (run step .new calls) (run step .new calls'))) :=
  ⟨always_iff calls, fun hl hl' hfree =>
    digest_iff (run_numbered calls) (run_numbered calls') hl hl' hfree⟩

def cutEarly : List Call := [.append "a" "bc"]

def cutLate : List Call := [.append "ab" "c"]

/-- Two events, a compaction through both and one through the first. -/
def behind : List Call := [.append "a" "", .append "b" "", .compact 1 "s", .compact 0 "t"]

theorem cut_stream : (run step .new cutEarly).stream = (run step .new cutLate).stream := by decide

/-- The second event is shown and covered; the greatest boundary overflows; a payload that begins later
has the digest of the log it is cut from. -/
theorem shown_and_covered : ¬ Always step Faithful .new behind ∧
    (run step .new [.compact 0xFFFFFFFFFFFFFFFF "s"]).visible = none ∧
    ¬ DigestTells (run step .new cutEarly) (run step .new cutLate) := by
  refine ⟨fun h => ?_, rfl, fun h => ?_⟩
  · obtain ⟨view, hview, hshown⟩ := h behind (prefix_refl _)
    have hcovers : Covers view ⟨1, "b", ""⟩ := by
      cases hview
      exact ⟨⟨1, "s"⟩, by decide, by decide⟩
    have hcount : view.count (.event ⟨1, "b", ""⟩) = 1 := by
      cases hview
      decide
    rcases hshown ⟨1, "b", ""⟩ (by decide) with ⟨-, hnot⟩ | ⟨hnone, -⟩
    · exact hnot hcovers
    · rw [hcount] at hnone
      cases hnone
  · exact absurd (h (congrArg Sha256.hex cut_stream)) (by decide)

/-- A log that goes on after a compaction through its first event. -/
def goesOn : List Call := [.append "a" "bc", .compact 0 "s", .append "d" ""]

/-- The digest does not tell the first two logs apart, and tells a longer one, whose events are at each
moment shown or covered. -/
theorem transcript_cut : (DigestTells (run step .new cutEarly) (run step .new cutLate) ↔
      Bounded (run step .new cutEarly) (run step .new cutLate)) ∧
    Always step Faithful .new goesOn ∧
    DigestTells (run step .new cutEarly) (run step .new goesOn) := by
  have hearly : Lacking (run step .new cutEarly) := ⟨⟨0, by decide, by decide⟩, trivial⟩
  have htakes : Admits step Takes .new goesOn := by
    refine ⟨fun h => ?_, ⟨by decide, fun e _ h => ?_⟩, fun h => ?_, trivial⟩
    · obtain ⟨c, hc, -⟩ := h
      cases hc
    · obtain ⟨c, hc, -⟩ := h
      cases hc
    · obtain ⟨c, hc, hle⟩ := h
      rw [mem_singleton.mp hc] at hle
      cases hle
  have hbounded : Bounded (run step .new cutEarly) (run step .new goesOn) :=
    fun htext => absurd htext (by decide)
  refine ⟨(transcript_iff cutEarly cutLate).2 hearly ⟨⟨0, by decide, by decide⟩, trivial⟩
    (fun _ => cut_stream), (transcript_iff goesOn []).1.mpr htakes,
    ((transcript_iff cutEarly goesOn).2 hearly
      ⟨⟨0, by decide, by decide⟩, ⟨0, by decide, by decide⟩, trivial⟩ ?_).mpr hbounded⟩
  exact fun hhash => absurd hhash (by decide +kernel)

end Recoverability

end Modbit
