import Mathlib.Algebra.Ring.Int.Parity
import Mathlib.Data.List.Basic

/-!
# Bytes that arrive in pieces

A stream hands out its bytes in pieces of its own choosing, at most as many as were asked
for, and then it is closed or fails.  `readExact` asks again until it has as many as it
needs.  `readExact_spec` says that it takes no byte it does not need, and that with enough
bytes and no empty piece it gets them however they are cut.
-/

namespace Modbit.Lib

open List

inductive Ending where
  | closed | fails
  deriving DecidableEq

structure ByteStream where
  chunks : List (List UInt8)
  ending : Ending
  deriving DecidableEq

namespace ByteStream

def bytes (s : ByteStream) : List UInt8 := s.chunks.flatten

/-- One read into a buffer of `n` bytes; `none` is an error. -/
def read (s : ByteStream) (n : Nat) : ByteStream × Option (List UInt8) :=
  match s.chunks with
  | [] =>
    match s.ending with
    | .closed => (s, some [])
    | .fails => (s, none)
  | c :: cs => ({ s with chunks := if c.length ≤ n then cs else c.drop n :: cs }, some (c.take n))

/-- Reads until `need` bytes are there; a read of no bytes is the end. -/
def readExact (s : ByteStream) (need : Nat) : ByteStream × Except Ending (List UInt8) :=
  if need = 0 then (s, .ok [])
  else
    match s.read need with
    | (s', none) => (s', .error .fails)
    | (s', some []) => (s', .error .closed)
    | (s', some (b :: bs)) =>
      match readExact s' (need - (bs.length + 1)) with
      | (s'', .ok more) => (s'', .ok (b :: bs ++ more))
      | (s'', .error e) => (s'', .error e)
termination_by need
decreasing_by omega

/-- A stream that goes on until it is closed. -/
def Steady (s : ByteStream) : Prop := ∀ c ∈ s.chunks, c ≠ []

variable {s s' : ByteStream} {n need : Nat}

theorem read_eq_none (h : s.read n = (s', none)) : s' = s ∧ s.bytes = [] := by
  rw [read] at h
  split at h
  · next hnil =>
    refine ⟨?_, by rw [bytes, hnil]; rfl⟩
    split at h
    · cases (Prod.mk.inj h).2
    · exact (Prod.mk.inj h).1.symm
  · cases (Prod.mk.inj h).2

theorem read_spec {got : List UInt8} (h : s.read n = (s', some got)) :
    s.bytes = got ++ s'.bytes ∧ got.length ≤ n ∧ (s.Steady → s'.Steady) ∧
      (s.Steady → got = [] → n ≠ 0 → s.bytes = []) := by
  rw [read] at h
  split at h
  · next hnil =>
    split at h
    · obtain ⟨rfl, hgot⟩ := Prod.mk.inj h
      obtain rfl := Option.some.inj hgot
      have hempty : s.bytes = [] := by rw [bytes, hnil]; rfl
      exact ⟨rfl, Nat.zero_le n, id, fun _ _ _ => hempty⟩
    · cases (Prod.mk.inj h).2
  · next c cs hcs =>
    obtain ⟨rfl, hgot⟩ := Prod.mk.inj h
    obtain rfl := Option.some.inj hgot
    refine ⟨?_, length_take_le n c, fun hs => ?_, fun hs hnil hn => ?_⟩
    · rw [bytes, hcs, flatten_cons, bytes]
      split_ifs with hlen
      · rw [take_of_length_le hlen]
      · rw [flatten_cons, ← append_assoc, take_append_drop]
    · intro d hd
      rw [Steady, hcs] at hs
      split_ifs at hd with hlen
      · exact hs d (mem_cons_of_mem c hd)
      · rcases mem_cons.mp hd with rfl | hd
        · exact fun h0 => hlen (drop_eq_nil_iff.mp h0)
        · exact hs d (mem_cons_of_mem c hd)
    · rw [Steady, hcs] at hs
      rcases take_eq_nil_iff.mp hnil with h0 | h0
      · exact absurd h0 hn
      · exact absurd h0 (hs c mem_cons_self)

/-- **What is read is what was needed, and no byte more is taken.** -/
theorem readExact_spec (s : ByteStream) (need : Nat) :
    ∃ got, s.bytes = got ++ (s.readExact need).1.bytes ∧ got.length ≤ need ∧
      (∀ out, (s.readExact need).2 = .ok out → out = got ∧ got.length = need) ∧
      (s.Steady → (s.readExact need).1.Steady) ∧
      (s.Steady → need ≤ s.bytes.length → (s.readExact need).2 = .ok got) := by
  induction need using Nat.strongRecOn generalizing s with
  | _ need ih =>
    rw [readExact]
    by_cases hzero : need = 0
    · rw [if_pos hzero, hzero]
      refine ⟨[], rfl, Nat.le_refl 0, fun out hout => ?_, id, fun _ _ => rfl⟩
      exact ⟨(Except.ok.inj hout).symm, rfl⟩
    rw [if_neg hzero]
    cases hread : s.read need with
    | mk s' got =>
      cases got with
      | none =>
        obtain ⟨rfl, hempty⟩ := read_eq_none hread
        refine ⟨[], rfl, Nat.zero_le _, fun out hout => (by cases hout), id, fun _ hlen => ?_⟩
        rw [hempty] at hlen
        exact absurd (Nat.le_zero.mp hlen) hzero
      | some got =>
        obtain ⟨hbytes, hlen, hsteady, hend⟩ := read_spec hread
        cases got with
        | nil =>
          refine ⟨[], hbytes, Nat.zero_le _, fun out hout => (by cases hout), hsteady, fun hs hl => ?_⟩
          rw [hend hs rfl hzero] at hl
          exact absurd (Nat.le_zero.mp hl) hzero
        | cons b bs =>
          -- at least one byte came, so less is needed
          rw [length_cons] at hlen
          obtain ⟨more, hmore, hmoreLen, hok, hst, hall⟩ := ih (need - (bs.length + 1)) (by omega) s'
          dsimp only
          cases hrest : s'.readExact (need - (bs.length + 1)) with
          | mk s'' r =>
            rw [hrest] at hmore hok hst hall
            refine ⟨b :: bs ++ more, ?_, ?_, ?_⟩
            · rw [hbytes, hmore, ← append_assoc]
              cases r <;> rfl
            · rw [length_append, length_cons]
              omega
            · have hneed : ∀ hs : s.Steady, need ≤ s.bytes.length → r = .ok more := by
                intro hs hl
                refine hall (hsteady hs) ?_
                rw [hbytes, length_append, length_cons] at hl
                omega
              cases r with
              | ok out =>
                obtain ⟨rfl, hout⟩ := hok out rfl
                refine ⟨fun out' hout' => ⟨(Except.ok.inj hout').symm, ?_⟩, fun hs => hst (hsteady hs),
                  fun _ _ => rfl⟩
                rw [length_append, length_cons]
                omega
              | error e =>
                refine ⟨fun out' hout' => (by cases hout'), fun hs => hst (hsteady hs), fun hs hl => ?_⟩
                cases hneed hs hl

end ByteStream

end Modbit.Lib
