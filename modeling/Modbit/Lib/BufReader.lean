import Modbit.Lib.ByteStream

/-!
# A reader with a buffer

`BufReader` fills a buffer of `CAPACITY` bytes from a stream when it is empty, and hands out what is in
it; a read of as many bytes and more goes past an empty buffer.  `readUntil` fills the buffer as often as it
takes to get to a byte, a single `read` at most once.

`readUntil_spec`: what is read up to a byte does not depend on how the stream is cut.  `read_spec`: what a
single read gets does, and `onHand` says how: it is what is left of the buffer, or else of the piece that
comes next.
-/

namespace Modbit.Lib

open List

def CAPACITY : Nat := 8192

structure BufReader where
  buffer : List UInt8
  inner : ByteStream
  deriving DecidableEq

/-- The bytes up to the first `d`, and with it. -/
def through (d : UInt8) : List UInt8 → List UInt8
  | [] => []
  | b :: l => if b = d then [b] else b :: through d l

/-- With `h` bytes of the pieces read through the buffer, how many are there for a read without waiting:
the buffer was filled at every multiple of its capacity in a piece. -/
def onHand : List (List UInt8) → Nat → Nat
  | [], _ => 0
  | c :: cs, h =>
    if c.length ≤ h then onHand cs (h - c.length)
    else if h % CAPACITY = 0 then c.length - h
    else min c.length ((h / CAPACITY + 1) * CAPACITY) - h

theorem through_of_mem {d : UInt8} : ∀ {l : List UInt8}, d ∈ l → ∀ m, through d (l ++ m) = through d l
  | b :: l, h, m => by
    rw [cons_append, through, through]
    split_ifs with hb
    · rfl
    · rcases mem_cons.mp h with hd | hd
      · exact absurd hd.symm hb
      · rw [through_of_mem hd m]

theorem through_append {d : UInt8} : ∀ {l : List UInt8}, d ∉ l → ∀ m, through d (l ++ m) = l ++ through d m
  | [], _, _ => rfl
  | b :: l, h, m => by
    have hb : b ≠ d := fun heq => h (heq ▸ mem_cons_self)
    rw [cons_append, through, if_neg hb, through_append (fun hd => h (mem_cons_of_mem b hd)) m]
    rfl

theorem through_begins (d : UInt8) : ∀ l, through d l <+: l
  | [] => prefix_refl []
  | b :: l => by
    rw [through]
    split_ifs
    · exact ⟨l, rfl⟩
    · exact cons_prefix_cons.mpr ⟨rfl, through_begins d l⟩

theorem through_ne_nil (d : UInt8) {l : List UInt8} (h : l ≠ []) : through d l ≠ [] := by
  cases l with
  | nil => exact absurd rfl h
  | cons b l =>
    rw [through]
    split_ifs
    · exact cons_ne_nil b []
    · exact cons_ne_nil b _

namespace BufReader

def bytes (r : BufReader) : List UInt8 := r.buffer ++ r.inner.bytes

/-- The buffer, filled if it was empty; `none` is an error. -/
def fillBuf (r : BufReader) : BufReader × Option (List UInt8) :=
  if r.buffer ≠ [] then (r, some r.buffer)
  else
    match r.inner.read CAPACITY with
    | (inner, some got) => (⟨got, inner⟩, some got)
    | (inner, none) => (⟨[], inner⟩, none)

def consume (r : BufReader) (n : Nat) : BufReader := { r with buffer := r.buffer.drop n }

variable {got : List UInt8}

theorem bytes_fillBuf {r r' : BufReader} (h : r.fillBuf = (r', some got)) :
    r'.buffer = got ∧ r.bytes = got ++ r'.inner.bytes := by
  unfold fillBuf at h
  split_ifs at h with hbuf
  · cases h
    exact ⟨rfl, rfl⟩
  · split at h
    · next inner got' hread =>
      obtain ⟨rfl, hgot⟩ := Prod.mk.inj h
      obtain rfl := Option.some.inj hgot
      refine ⟨rfl, ?_⟩
      rw [bytes, not_ne_iff.mp hbuf]
      exact (ByteStream.read_spec hread).1
    · cases (Prod.mk.inj h).2

theorem bytes_lt {r r' : BufReader} (h : r.fillBuf = (r', some got)) (hgot : got ≠ []) :
    (r'.consume got.length).bytes.length < r.bytes.length := by
  obtain ⟨hbuffer, hbytes⟩ := bytes_fillBuf h
  rw [hbytes, bytes, consume, hbuffer, drop_length, nil_append, length_append]
  exact Nat.lt_add_of_pos_left (length_pos_iff.mpr hgot)

/-- Reads up to a byte and with it, or to the end; `none` is an error. -/
def readUntil (d : UInt8) (r : BufReader) : BufReader × Option (List UInt8) :=
  match h : r.fillBuf with
  | (r', none) => (r', none)
  | (r', some got) =>
    if d ∈ got then (r'.consume (through d got).length, some (through d got))
    else if hnil : got = [] then (r', some [])
    else
      have := bytes_lt h hnil
      match readUntil d (r'.consume got.length) with
      | (r'', none) => (r'', none)
      | (r'', some more) => (r'', some (got ++ more))
termination_by r.bytes.length

/-- One read into a buffer of `n` bytes. -/
def read (r : BufReader) (n : Nat) : BufReader × Option (List UInt8) :=
  if r.buffer = [] ∧ CAPACITY ≤ n then
    match r.inner.read n with
    | (inner, got) => (⟨[], inner⟩, got)
  else
    match r.fillBuf with
    | (r', none) => (r', none)
    | (r', some got) => (r'.consume n, some (got.take n))

/-! ### What is read -/

/-- How many bytes are there for a read without waiting, `h` bytes further on. -/
def onHand (r : BufReader) (h : Nat) : Nat :=
  if h < r.buffer.length then r.buffer.length - h else Lib.onHand r.inner.chunks (h - r.buffer.length)

variable {r r' : BufReader}

theorem onHand_fill (c : List UInt8) (cs : List (List UInt8)) {h : Nat} (hh : 0 < h) :
    (if h < min CAPACITY c.length then min CAPACITY c.length - h
      else Lib.onHand (if c.length ≤ CAPACITY then cs else c.drop CAPACITY :: cs)
        (h - min CAPACITY c.length)) =
    if c.length ≤ h then Lib.onHand cs (h - c.length)
    else if h % CAPACITY = 0 then c.length - h
    else min c.length ((h / CAPACITY + 1) * CAPACITY) - h := by
  have hcap : CAPACITY = 8192 := rfl
  rw [hcap]
  by_cases hfits : c.length ≤ 8192
  · rw [if_pos hfits, Nat.min_eq_right hfits]
    by_cases hh' : h < c.length
    · rw [if_pos hh', if_neg (Nat.not_le.mpr hh'), if_neg (by omega)]
      omega
    · rw [if_neg hh', if_pos (Nat.not_lt.mp hh')]
  · rw [if_neg hfits, Nat.min_eq_left (by omega)]
    by_cases hh' : h < 8192
    · rw [if_pos hh', if_neg (by omega), if_neg (by omega)]
      omega
    · rw [if_neg hh', Lib.onHand, length_drop, hcap]
      by_cases hend : c.length ≤ h
      · rw [if_pos hend, if_pos (by omega), show h - 8192 - (c.length - 8192) = h - c.length by omega]
      · rw [if_neg hend, if_neg (by omega), show (h - 8192) % 8192 = h % 8192 by omega]
        split_ifs
        · omega
        · omega

theorem fillBuf_spec (hs : r.inner.Steady) :
    (r.bytes = [] ∧ r.inner.ending = .fails ∧ r.fillBuf = (⟨[], r.inner⟩, none)) ∨
    ∃ got r', r.fillBuf = (r', some got) ∧ r'.buffer = got ∧ r'.bytes = r.bytes ∧ r'.inner.Steady ∧
      r'.inner.ending = r.inner.ending ∧ (∀ h, (got ≠ [] → 0 < h) → r'.onHand h = r.onHand h) ∧
      (got = [] → r.bytes = [] ∧ r.inner.ending = .closed) := by
  obtain ⟨buffer, ⟨chunks, ending⟩⟩ := r
  unfold fillBuf
  by_cases hbuf : buffer = []
  · subst hbuf
    rw [if_neg (fun h => h rfl)]
    cases chunks with
    | nil =>
      cases ending with
      | closed =>
        exact .inr ⟨[], _, rfl, rfl, rfl, hs, rfl, fun _ _ => rfl, fun _ => ⟨rfl, rfl⟩⟩
      | fails => exact .inl ⟨rfl, rfl, rfl⟩
    | cons c cs =>
      right
      have hc : c ≠ [] := hs c mem_cons_self
      obtain ⟨hread, -, hsteady, -⟩ := ByteStream.read_spec
        (show ByteStream.read ⟨c :: cs, ending⟩ CAPACITY = (_, some (c.take CAPACITY)) from rfl)
      have htake : c.take CAPACITY ≠ [] := fun hnil =>
        (take_eq_nil_iff.mp hnil).elim (fun h0 => by cases h0) (fun h0 => hc h0)
      refine ⟨c.take CAPACITY, _, rfl, rfl, hread.symm, hsteady hs, rfl, fun h hh => ?_,
        fun hnil => absurd hnil htake⟩
      show (if h < (c.take CAPACITY).length then _ else _) = Lib.onHand (c :: cs) (h - 0)
      rw [length_take, Nat.sub_zero, Lib.onHand]
      dsimp only [ByteStream.read]
      exact onHand_fill c cs (hh htake)
  · rw [if_pos hbuf]
    exact .inr ⟨buffer, _, rfl, rfl, rfl, hs, rfl, fun _ _ => rfl, fun hnil => absurd hnil hbuf⟩

theorem onHand_consume {k : Nat} (hk : k ≤ r.buffer.length) (h : Nat) :
    (r.consume k).onHand h = r.onHand (k + h) := by
  rw [onHand, onHand, consume]
  rw [length_drop]
  by_cases hlt : k + h < r.buffer.length
  · rw [if_pos (by omega), if_pos hlt, Nat.sub_sub]
  · rw [if_neg (by omega), if_neg hlt, show h - (r.buffer.length - k) = k + h - r.buffer.length by omega]

theorem bytes_consume (r : BufReader) (k : Nat) :
    r.bytes = r.buffer.take k ++ (r.consume k).bytes := by
  rw [bytes, bytes, consume, ← append_assoc, take_append_drop]

/-- What is read is `line`: it comes first, and what is there further on is there after it. -/
structure Takes (line : List UInt8) (r r' : BufReader) : Prop where
  bytes : r.bytes = line ++ r'.bytes
  steady : r'.inner.Steady
  ending : r'.inner.ending = r.inner.ending
  onHand : ∀ h, r'.onHand h = r.onHand (line.length + h)

theorem Takes.trans {r'' : BufReader} {line more : List UInt8} (h : Takes line r r')
    (g : Takes more r' r'') :
    Takes (line ++ more) r r'' where
  bytes := by rw [h.bytes, g.bytes, append_assoc]
  steady := g.steady
  ending := g.ending.trans h.ending
  onHand n := by rw [g.onHand n, h.onHand, length_append, Nat.add_assoc]

theorem readUntil_of_none (d : UInt8) (h : r.fillBuf = (r', none)) : r.readUntil d = (r', none) := by
  rw [readUntil]
  split
  · next heq => exact congrArg (·, none) (congrArg Prod.fst (heq.symm.trans h))
  · next heq => cases heq.symm.trans h

theorem readUntil_of_some (d : UInt8) (h : r.fillBuf = (r', some got)) : r.readUntil d =
      if d ∈ got then (r'.consume (through d got).length, some (through d got))
      else if got = [] then (r', some [])
      else
        match readUntil d (r'.consume got.length) with
        | (r'', none) => (r'', none)
        | (r'', some more) => (r'', some (got ++ more)) := by
  rw [readUntil]
  split
  · next heq => cases heq.symm.trans h
  · next heq =>
    obtain ⟨rfl, hgot⟩ := Prod.mk.inj (heq.symm.trans h)
    obtain rfl := Option.some.inj hgot
    split_ifs
    · rfl
    · rfl
    · rfl

theorem bytes_readUntil {d : UInt8} {line : List UInt8} (h : r.readUntil d = (r', some line)) :
    r.bytes = line ++ r'.bytes := by
  induction hn : r.bytes.length using Nat.strongRecOn generalizing r r' line with
  | _ n ih =>
    subst hn
    cases hfill : r.fillBuf with
    | mk r₁ got =>
      cases got with
      | none =>
        rw [readUntil_of_none d hfill] at h
        cases h
      | some got =>
        obtain ⟨rfl, hbytes⟩ := bytes_fillBuf hfill
        have hrest : r.bytes = r₁.bytes := hbytes
        rw [readUntil_of_some d hfill] at h
        split_ifs at h with hd hnil
        · cases h
          rw [hrest, bytes_consume r₁ (through d r₁.buffer).length,
            ← prefix_iff_eq_take.mp (through_begins d r₁.buffer)]
        · cases h
          exact hrest
        · have hlt := bytes_lt hfill hnil
          split at h
          · cases h
          · next r₂ more hmore =>
            cases h
            rw [hrest, bytes_consume r₁ r₁.buffer.length, take_length, ih _ hlt hmore rfl,
              append_assoc]

/-- **What is read up to a byte**: all that there is, with it, however the stream is cut. -/
theorem readUntil_spec (d : UInt8) (r : BufReader) (hs : r.inner.Steady) :
    if d ∈ r.bytes ∨ r.inner.ending = .closed then
      ∃ r', r.readUntil d = (r', some (through d r.bytes)) ∧ Takes (through d r.bytes) r r'
    else (r.readUntil d).2 = none := by
  induction hn : r.bytes.length using Nat.strongRecOn generalizing r with
  | _ n ih =>
    subst hn
    rcases fillBuf_spec hs with ⟨hempty, hends, hfill⟩ | ⟨got, r', hfill, rfl, hbytes, hs', hend, hhand, hnil⟩
    · rw [readUntil_of_none d hfill, if_neg (fun h => ?_)]
      rcases h with h | h
      · rw [hempty] at h
        cases h
      · cases hends.symm.trans h
    · rw [readUntil_of_some d hfill]
      -- what is consumed of the buffer is taken
      have htakes : ∀ k, 0 < k → k ≤ r'.buffer.length → Takes (r'.buffer.take k) r (r'.consume k) := by
        intro k hpos hk
        have hlen : (r'.buffer.take k).length = k := by rw [length_take, Nat.min_eq_left hk]
        refine ⟨?_, hs', hend, fun h => ?_⟩
        · rw [← hbytes, bytes_consume r' k]
        · rw [hlen, onHand_consume hk]
          exact hhand _ (fun _ => by omega)
      by_cases hd : d ∈ r'.buffer
      · have hthrough : through d r.bytes = through d r'.buffer := by
          rw [← hbytes, bytes, through_of_mem hd]
        have hbegins := through_begins d r'.buffer
        have hpos := length_pos_iff.mpr (through_ne_nil d (ne_nil_of_mem hd))
        have htake := htakes _ hpos hbegins.length_le
        rw [← prefix_iff_eq_take.mp hbegins] at htake
        rw [if_pos (.inl (by rw [← hbytes, bytes]; exact mem_append_left _ hd)), if_pos hd, hthrough]
        exact ⟨_, rfl, htake⟩
      · rw [if_neg hd]
        by_cases hbuf : r'.buffer = []
        · obtain ⟨hempty, hclosed⟩ := hnil hbuf
          rw [if_pos (.inr hclosed), if_pos hbuf, hempty]
          refine ⟨r', rfl, ?_, hs', hend, fun h => ?_⟩
          · rw [hbytes, hempty]
            rfl
          · rw [through, length_nil, Nat.zero_add]
            exact hhand h (fun hne => absurd hbuf hne)
        · -- the buffer is read to its end, and the rest after it
          have hpos := length_pos_iff.mpr hbuf
          have htake := htakes _ hpos (Nat.le_refl _)
          rw [take_length] at htake
          have hrest := ih _ (bytes_lt hfill hbuf) (r'.consume r'.buffer.length) htake.steady rfl
          rw [htake.ending] at hrest
          have hmem : d ∈ r.bytes ↔ d ∈ (r'.consume r'.buffer.length).bytes := by
            rw [htake.bytes, mem_append]
            exact or_iff_right hd
          rw [if_neg hbuf]
          by_cases hthere : d ∈ (r'.consume r'.buffer.length).bytes ∨ r.inner.ending = .closed
          · rw [if_pos hthere] at hrest
            obtain ⟨r'', hread, hmore⟩ := hrest
            rw [if_pos (hthere.imp_left hmem.mpr), hread, htake.bytes, through_append hd]
            exact ⟨r'', rfl, htake.trans hmore⟩
          · rw [if_neg hthere] at hrest
            rw [if_neg (fun h => hthere (h.imp_left hmem.mp)),
              show (r'.consume r'.buffer.length).readUntil d = (_, none) from Prod.ext rfl hrest]

theorem read_of_empty (s : ByteStream) (n : Nat) : (read ⟨[], s⟩ n).2 =
    if CAPACITY ≤ n then (s.read n).2 else (s.read CAPACITY).2.map (List.take n) := by
  unfold read fillBuf
  by_cases hn : CAPACITY ≤ n
  · rw [if_pos ⟨rfl, hn⟩, if_pos hn]
  · rw [if_neg (fun h => hn h.2), if_neg (fun h => h rfl), if_neg hn]
    cases s.read CAPACITY with
    | mk s' got =>
      cases got with
      | none => rfl
      | some got => rfl

theorem read_of_buffer {buffer : List UInt8} (hbuf : buffer ≠ []) (s : ByteStream) (n : Nat) :
    (read ⟨buffer, s⟩ n).2 = some (buffer.take n) := by
  unfold read fillBuf
  rw [if_neg (fun h => hbuf h.1), if_pos hbuf]

/-- **One read**: as much as is there without waiting. -/
theorem read_spec (hs : r.inner.Steady) (n : Nat) :
    (r.bytes = [] ∧ r.inner.ending = .fails ∧ (r.read n).2 = none) ∨
    (r.read n).2 = some (r.bytes.take (min n (r.onHand 0))) ∧
    (r.bytes = [] → r.inner.ending = .closed) := by
  obtain ⟨buffer, ⟨chunks, ending⟩⟩ := r
  by_cases hbuf : buffer = []
  · subst hbuf
    rw [read_of_empty]
    cases chunks with
    | nil =>
      cases ending with
      | closed =>
        refine .inr ⟨?_, fun _ => rfl⟩
        show (if CAPACITY ≤ n then some [] else some (List.take n [])) = some (List.take _ [])
        rw [take_nil, take_nil, ite_self]
      | fails => exact .inl ⟨rfl, rfl, ite_self _⟩
    | cons c cs =>
      have hpos := length_pos_iff.mpr (hs c mem_cons_self)
      have hhand : (⟨[], ⟨c :: cs, ending⟩⟩ : BufReader).onHand 0 = c.length := by
        show Lib.onHand (c :: cs) 0 = c.length
        rw [Lib.onHand, if_neg (Nat.not_le.mpr hpos), if_pos (Nat.zero_mod _)]
        rfl
      have hbytes : (⟨[], ⟨c :: cs, ending⟩⟩ : BufReader).bytes = c ++ cs.flatten := rfl
      refine .inr ⟨?_, fun hempty => ?_⟩
      · rw [hhand, hbytes, take_append_of_le_length (Nat.min_le_right n _), ← take_eq_take_min]
        show (if CAPACITY ≤ n then some (c.take n) else some ((c.take CAPACITY).take n)) = _
        split_ifs with hn
        · rfl
        · rw [take_take, Nat.min_eq_left (Nat.le_of_not_le hn)]
      · rw [hbytes] at hempty
        rw [(append_eq_nil_iff.mp hempty).1] at hpos
        cases hpos
  · refine .inr ⟨?_, fun hempty => absurd (append_eq_nil_iff.mp hempty).1 hbuf⟩
    have hhand : (⟨buffer, ⟨chunks, ending⟩⟩ : BufReader).onHand 0 = buffer.length :=
      if_pos (length_pos_iff.mpr hbuf)
    rw [read_of_buffer hbuf, hhand, bytes, take_append_of_le_length (Nat.min_le_right n _),
      ← take_eq_take_min]

end BufReader

end Modbit.Lib
