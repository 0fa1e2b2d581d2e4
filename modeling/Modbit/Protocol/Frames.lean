import Modbit.Lib.ByteStream
import Modbit.Lib.Run

/-!
# Length-prefixed frames

A frame is its length in four bytes, the highest first, and then its payload, of at most
`maxFrameBytes`.  The reader takes the four bytes and then what they announce, from a
stream that may cut its bytes anywhere.

`readFrame_spec` says what is taken from any stream, `replies_receive` that the payloads
that were sent are what is received, and `frame_law` puts the two together.
-/

namespace Modbit

open Lib List

namespace Transport

inductive TransportError where
  | io
  | authRejected (reason : String)
  | frameTooLarge (size : UInt32)
  | protocol (reason : String)
  deriving DecidableEq

def maxFrameBytes : Nat := 8 * 1024 * 1024

/-- `u32::to_be_bytes`. -/
def toBeBytes (n : UInt32) : List UInt8 :=
  [UInt8.ofNat (n.toNat / 2 ^ 24), UInt8.ofNat (n.toNat / 2 ^ 16), UInt8.ofNat (n.toNat / 2 ^ 8),
    UInt8.ofNat n.toNat]

/-- `u32::from_be_bytes`. -/
def fromBeBytes (bytes : List UInt8) : Nat := bytes.foldl (fun n b => n * 256 + b.toNat) 0

/-! ### Writing -/

def writeFrame (out payload : List UInt8) : List UInt8 × Except TransportError Unit :=
  if 2 ^ 32 ≤ payload.length then (out, .error (.frameTooLarge (UInt32.ofNat payload.length)))
  else if maxFrameBytes < payload.length then
    (out, .error (.frameTooLarge (UInt32.ofNat payload.length)))
  else (out ++ toBeBytes (UInt32.ofNat payload.length) ++ payload, .ok ())

/-! ### Reading -/

def readExactN (s : ByteStream) (n : Nat) : ByteStream × Except TransportError (List UInt8) :=
  match s.readExact n with
  | (s', .ok bytes) => (s', .ok bytes)
  | (s', .error .closed) => (s', .error (.protocol "peer closed mid-frame"))
  | (s', .error .fails) => (s', .error .io)

def readFrame (s : ByteStream) : ByteStream × Except TransportError (List UInt8) :=
  match readExactN s 4 with
  | (s', .error e) => (s', .error e)
  | (s', .ok lenBytes) =>
    let len := fromBeBytes lenBytes
    if maxFrameBytes < len then (s', .error (.frameTooLarge (UInt32.ofNat len)))
    else readExactN s' len

/-- Where the frame at the start of some bytes ends: after its length, if that is announced as
too large, and after its payload otherwise. -/
def frameEnd (bytes : List UInt8) : Nat :=
  if bytes.length < 4 then bytes.length
  else if maxFrameBytes < fromBeBytes (bytes.take 4) then 4
  else 4 + fromBeBytes (bytes.take 4)

/-! ### Lengths -/

theorem fromBeBytes_toBeBytes (n : UInt32) : fromBeBytes (toBeBytes n) = n.toNat := by
  have h := n.toNat_lt
  simp only [fromBeBytes, toBeBytes, foldl_cons, foldl_nil, UInt8.toNat_ofNat']
  omega

theorem length_toBeBytes (n : UInt32) : (toBeBytes n).length = 4 := rfl

variable {s s' : ByteStream} {payload : List UInt8}

theorem readExactN_spec (s : ByteStream) (n : Nat) :
    ∃ got, s.bytes = got ++ (readExactN s n).1.bytes ∧ got.length ≤ n ∧
      (∀ out, (readExactN s n).2 = .ok out → out = got ∧ got.length = n) ∧
      (s.Steady → (readExactN s n).1.Steady) ∧
      (s.Steady → n ≤ s.bytes.length → (readExactN s n).2 = .ok got) := by
  obtain ⟨got, hbytes, hlen, hok, hsteady, hall⟩ := s.readExact_spec n
  rw [readExactN]
  cases hr : s.readExact n with
  | mk s' r =>
    rw [hr] at hbytes hok hsteady hall
    cases r with
    | ok bytes =>
      refine ⟨got, hbytes, hlen, fun out hout => ?_, hsteady, fun hs hn => ?_⟩
      · exact hok out (congrArg Except.ok (Except.ok.inj hout))
      · exact congrArg Except.ok (Except.ok.inj (hall hs hn))
    | error e =>
      have hno : s.Steady → n ≤ s.bytes.length → False := fun hs hn => by cases hall hs hn
      cases e with
      | closed => exact ⟨got, hbytes, hlen, fun out hout => (by cases hout), hsteady,
          fun hs hn => (hno hs hn).elim⟩
      | fails => exact ⟨got, hbytes, hlen, fun out hout => (by cases hout), hsteady,
          fun hs hn => (hno hs hn).elim⟩

/-- **Reading takes nothing behind the frame.**  What is returned is the whole payload. -/
theorem readFrame_spec (s : ByteStream) :
    ∃ got, s.bytes = got ++ (readFrame s).1.bytes ∧ got.length ≤ frameEnd s.bytes ∧
      ∀ payload, (readFrame s).2 = .ok payload →
        ∃ header, got = header ++ payload ∧ header.length = 4 ∧ payload.length = fromBeBytes header ∧
          payload.length ≤ maxFrameBytes := by
  obtain ⟨got, hbytes, hlen, hok, -, -⟩ := readExactN_spec s 4
  rw [readFrame]
  cases hr : readExactN s 4 with
  | mk s₁ r =>
    rw [hr] at hbytes hok
    cases r with
    | error e =>
      refine ⟨got, hbytes, ?_, fun payload h => (by cases h)⟩
      have htotal : s.bytes.length = got.length + s₁.bytes.length := by
        rw [hbytes, length_append]
      rw [frameEnd]
      split_ifs
      · omega
      · omega
      · omega
    | ok lenBytes =>
      obtain ⟨rfl, hfour⟩ := hok lenBytes rfl
      have htake : s.bytes.take 4 = lenBytes := by rw [hbytes, ← hfour, take_left]
      have hlong : ¬ s.bytes.length < 4 := by
        rw [hbytes, length_append]
        omega
      rw [frameEnd, if_neg hlong, htake]
      dsimp only
      by_cases hmax : maxFrameBytes < fromBeBytes lenBytes
      · rw [if_pos hmax, if_pos hmax]
        exact ⟨lenBytes, hbytes, hlen, fun payload h => (by cases h)⟩
      · rw [if_neg hmax, if_neg hmax]
        obtain ⟨body, hbody, hbodyLen, hbodyOk, -, -⟩ := readExactN_spec s₁ (fromBeBytes lenBytes)
        refine ⟨lenBytes ++ body, ?_, ?_, fun payload h => ?_⟩
        · rw [hbytes, append_assoc, ← hbody]
        · rw [length_append]
          omega
        · obtain ⟨rfl, hn⟩ := hbodyOk payload h
          exact ⟨lenBytes, rfl, hfour, hn, by omega⟩

theorem toNat_length (hlen : payload.length ≤ maxFrameBytes) :
    (UInt32.ofNat payload.length).toNat = payload.length := by
  rw [UInt32.toNat_ofNat']
  rw [maxFrameBytes] at hlen
  omega

theorem readFrame_frame {rest : List UInt8} (hs : s.Steady) (hlen : payload.length ≤ maxFrameBytes)
    (hbytes : s.bytes = toBeBytes (UInt32.ofNat payload.length) ++ payload ++ rest) :
    (readFrame s).2 = .ok payload ∧ (readFrame s).1.Steady ∧ (readFrame s).1.bytes = rest := by
  obtain ⟨header, hheader, -, hok, hsteady, hall⟩ := readExactN_spec s 4
  have htotal : s.bytes.length = 4 + payload.length + rest.length := by
    rw [hbytes, length_append, length_append, length_toBeBytes]
  have hr := hall hs (by omega)
  obtain ⟨-, hfour⟩ := hok header hr
  rw [readFrame]
  cases hread : readExactN s 4 with
  | mk s₁ r =>
    rw [hread] at hr hheader hsteady
    subst hr
    dsimp only
    rw [hbytes, append_assoc] at hheader
    obtain ⟨rfl, hrest⟩ := append_inj hheader (by rw [length_toBeBytes, hfour])
    rw [fromBeBytes_toBeBytes, toNat_length hlen, if_neg (by omega)]
    obtain ⟨body, hbody, -, hbodyOk, hbodySteady, hbodyAll⟩ := readExactN_spec s₁ payload.length
    have hr' := hbodyAll (hsteady hs) (by rw [← hrest, length_append]; omega)
    obtain ⟨-, hn⟩ := hbodyOk body hr'
    rw [← hrest] at hbody
    obtain ⟨rfl, hrest'⟩ := append_inj hbody hn.symm
    exact ⟨hr', hbodySteady (hsteady hs), hrest'.symm⟩

/-! ### Sending and receiving -/

theorem writeFrame_ok {out : List UInt8} (hlen : payload.length ≤ maxFrameBytes) :
    writeFrame out payload
      = (out ++ toBeBytes (UInt32.ofNat payload.length) ++ payload, .ok ()) := by
  have hmax : maxFrameBytes = 8 * 1024 * 1024 := rfl
  rw [writeFrame, if_neg (by omega), if_neg (by omega)]

theorem writeFrame_too_large {out : List UInt8} (hlen : maxFrameBytes < payload.length) :
    writeFrame out payload = (out, .error (.frameTooLarge (UInt32.ofNat payload.length))) := by
  rw [writeFrame]
  split_ifs
  · rfl
  · rfl

theorem run_writeFrame (payloads : List (List UInt8))
    (hlen : ∀ p ∈ payloads, p.length ≤ maxFrameBytes) :
    ∀ out, run writeFrame out payloads = out ++ run writeFrame [] payloads := by
  induction payloads with
  | nil =>
    intro out
    exact (append_nil out).symm
  | cons p payloads ih =>
    intro out
    have hp := hlen p mem_cons_self
    have hrest := ih (fun q hq => hlen q (mem_cons_of_mem p hq))
    rw [run_cons, run_cons, writeFrame_ok hp, writeFrame_ok hp, hrest, hrest ([] ++ _ ++ _)]
    simp only [nil_append, append_assoc]

/-- One call of `Connection::receive`. -/
def receive (s : ByteStream) (_ : Unit) : ByteStream × Except TransportError (List UInt8) :=
  readFrame s

theorem replies_receive (payloads : List (List UInt8)) (rest : List UInt8)
    (hlen : ∀ p ∈ payloads, p.length ≤ maxFrameBytes) : ∀ s : ByteStream, s.Steady →
    s.bytes = run writeFrame [] payloads ++ rest →
    replies receive s (List.replicate payloads.length ()) = payloads.map .ok := by
  induction payloads with
  | nil => exact fun _ _ _ => rfl
  | cons p payloads ih =>
    intro s hs hbytes
    have hp := hlen p mem_cons_self
    have hpay : ∀ q ∈ payloads, q.length ≤ maxFrameBytes :=
      fun q hq => hlen q (mem_cons_of_mem p hq)
    rw [run_cons, writeFrame_ok hp, run_writeFrame payloads hpay, nil_append, append_assoc]
      at hbytes
    obtain ⟨hok, hsteady, hrest⟩ := readFrame_frame hs hp hbytes
    rw [length_cons, replicate_succ, replies, map_cons, receive, hok]
    congr 1
    exact ih hpay _ hsteady hrest

/-- **The frame law.**  What is sent is received, whatever the pieces it arrives in; a payload
that is too long writes nothing; and from any stream at most one frame is taken. -/
theorem frame_law :
    (∀ (payloads : List (List UInt8)) (rest : List UInt8) (s : ByteStream),
      (∀ p ∈ payloads, p.length ≤ maxFrameBytes) → s.Steady →
      s.bytes = run writeFrame [] payloads ++ rest →
      replies writeFrame [] payloads = payloads.map (fun _ => .ok ()) ∧
        replies receive s (List.replicate payloads.length ()) = payloads.map .ok) ∧
    (∀ out payload : List UInt8, maxFrameBytes < payload.length →
      writeFrame out payload = (out, .error (.frameTooLarge (UInt32.ofNat payload.length)))) ∧
    ∀ s : ByteStream, ∃ got, s.bytes = got ++ (readFrame s).1.bytes ∧
      got.length ≤ frameEnd s.bytes ∧ ∀ payload, (readFrame s).2 = .ok payload →
        ∃ header, got = header ++ payload ∧ header.length = 4 ∧
          payload.length = fromBeBytes header ∧ payload.length ≤ maxFrameBytes := by
  refine ⟨fun payloads rest s hlen hs hbytes => ⟨?_, ?_⟩, fun out payload h => writeFrame_too_large h,
    readFrame_spec⟩
  · have hok : ∀ (payloads : List (List UInt8)), (∀ p ∈ payloads, p.length ≤ maxFrameBytes) →
        ∀ out, replies writeFrame out payloads = payloads.map (fun _ => .ok ()) := by
      intro payloads hlen
      induction payloads with
      | nil => exact fun _ => rfl
      | cons p payloads ih =>
        intro out
        rw [replies, map_cons, writeFrame_ok (hlen p mem_cons_self),
          ih (fun q hq => hlen q (mem_cons_of_mem p hq))]
    exact hok payloads hlen []
  · exact replies_receive payloads rest hlen s hs hbytes

/-- Three payloads, one of them empty, in pieces that end within a length and within a payload, and
the start of a fourth. -/
theorem frame_law_pieces : replies receive
    ⟨[[0, 0], [0, 2, 10], [11, 0, 0, 0], [0, 0, 0, 0, 1, 7, 9]], .closed⟩ [(), (), ()]
      = [.ok [10, 11], .ok [], .ok [7]] :=
  (frame_law.1 [[10, 11], [], [7]] [9] _ (by decide) (by unfold ByteStream.Steady; decide) rfl).2

end Transport

end Modbit
