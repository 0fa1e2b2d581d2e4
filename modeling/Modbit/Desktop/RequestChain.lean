import Modbit.Desktop.SurfaceClient
import Modbit.Lib.Run
import Modbit.Protocol.Frames

/-!
# The requests of a surface client

`request` and `readFrame` of `apps/desktop/electron/surface-client.cjs`.  Requests are chained on one
promise: each is written when the one before it has been answered, and the promise that rejects, rejects
all that are chained on it.  A frame is put together from the chunks that come while it is waited for.

The server answers every frame that it reads with one that is not too long.  `requests_lawful_iff` says when each
request gets its own answer.
-/

namespace Modbit

open Lib List

open Transport (fromBeBytes maxFrameBytes toBeBytes length_toBeBytes fromBeBytes_toBeBytes
  toNat_length)

namespace Desktop

/-! ### Frames -/

inductive RequestError where
  /-- `frame of ${len} bytes exceeds ${MAX_FRAME_BYTES}` -/
  | frameTooLarge (len : Nat)
  | decode (e : ClientError)

/-- What `readFrame` has of a frame: `payload` is the part of it that is filled. -/
structure FrameReader where
  headerBuf : List UInt8
  header : Option Nat
  payload : List UInt8

def readFrame : FrameReader := ⟨[], none, []⟩

/-- The loop over a chunk; the fuel is its length.  What follows the frame is dropped. -/
def onData : Nat → FrameReader → List UInt8 →
    FrameReader × Option (Except RequestError (List UInt8))
  | 0, r, _ => (r, none)
  | fuel + 1, r, chunk =>
    if chunk = [] then (r, none)
    else
      match r.header with
      | none =>
        let take := min (4 - r.headerBuf.length) chunk.length
        let headerBuf := r.headerBuf ++ chunk.take take
        if headerBuf.length = 4 then
          let len := fromBeBytes headerBuf
          if maxFrameBytes < len then (r, some (.error (.frameTooLarge len)))
          else if len = 0 then (r, some (.ok []))
          else onData fuel ⟨headerBuf, some len, []⟩ (chunk.drop take)
        else onData fuel ⟨headerBuf, none, r.payload⟩ (chunk.drop take)
      | some header =>
        let take := min (header - r.payload.length) chunk.length
        let payload := r.payload ++ chunk.take take
        if payload.length = header then (r, some (.ok payload))
        else onData fuel ⟨r.headerBuf, some header, payload⟩ (chunk.drop take)

structure Answer where
  bytes : List UInt8
  fits : bytes.length ≤ maxFrameBytes

def Answer.frame (a : Answer) : List UInt8 := toBeBytes (UInt32.ofNat a.bytes.length) ++ a.bytes

/-! ### The chain -/

section Chain

variable {J : Type} (jsonParse : List Char → Option J) (server : List (List UInt8) → Answer)

/-- A connected client: the requests that were made, the promises of the first of them that are settled,
what was written, the frame that is waited for, and what the server has sent that has not come yet. -/
structure SurfaceConnection (J : Type) where
  issued : List Request
  settled : List (Except RequestError (ResponseObject J))
  sent : List (List UInt8)
  reader : Option FrameReader
  wire : List UInt8

def connected : SurfaceConnection J := ⟨[], [], [], none, []⟩

variable (s : SurfaceConnection J)

def SurfaceConnection.send (r : Request) : SurfaceConnection J :=
  { s with
    sent := s.sent ++ [encodeSurfaceRequest r]
    reader := some readFrame
    wire := s.wire ++ (server (s.sent ++ [encodeSurfaceRequest r])).frame }

/-- The requests that wait for a promise that is settled now. -/
def SurfaceConnection.advance (s : SurfaceConnection J) : List Request → SurfaceConnection J
  | [] => s
  | r :: waiting =>
    match s.settled.getLast? with
    | some (.error e) => advance { s with settled := s.settled ++ [.error e] } waiting
    | some (.ok _) | none => s.send server r

def SurfaceConnection.waiting : List Request := s.issued.drop s.settled.length

/-- `decodeSurfaceResponse(response)`. -/
def decoded (payload : List UInt8) : Except RequestError (ResponseObject J) :=
  match decodeSurfaceResponse jsonParse payload with
  | .ok response => .ok response
  | .error e => .error (.decode e)

def SurfaceConnection.settle (result : Except RequestError (List UInt8)) : SurfaceConnection J :=
  { s with
    reader := none
    settled := s.settled ++ [match result with
      | .ok payload => decoded jsonParse payload
      | .error e => .error e] }

inductive Event where
  | request (r : Request)
  /-- The next bytes from the server, at most so many. -/
  | data (n : Nat)

/-- A chunk that comes while nothing is waited for is lost. -/
def step (s : SurfaceConnection J) : Event → SurfaceConnection J × Unit
  | .request r =>
    let s := { s with issued := s.issued ++ [r] }
    (if s.reader.isSome then s else s.advance server s.waiting, ())
  | .data n =>
    let chunk := s.wire.take n
    let rest := { s with wire := s.wire.drop n }
    match s.reader with
    | none => (rest, ())
    | some reader =>
      match onData chunk.length reader chunk with
      | (reader, none) => ({ rest with reader := some reader }, ())
      | (_, some result) =>
        let next := rest.settle jsonParse result
        (next.advance server next.waiting, ())

/-- What is expected at every moment: requests are written in order, each promise is settled by the
answer to its request, and all are when everything has come. -/
structure Lawful (s : SurfaceConnection J) : Prop where
  order : s.sent = (s.issued.take s.sent.length).map encodeSurfaceRequest
  written : s.settled.length ≤ s.sent.length
  answers : ∀ i result, s.settled[i]? = some result →
    result = decoded jsonParse (server (s.sent.take (i + 1))).bytes
  served : s.wire = [] → s.settled.length = s.issued.length

/-- No request is made after an answer that cannot be decoded, and none waits for one that comes. -/
def Clear (s : SurfaceConnection J) : Event → Prop
  | .request _ => ∀ e, s.settled.getLast? ≠ some (.error e)
  | .data n => s.reader.isSome → s.wire.length ≤ n →
      ∀ e, decoded jsonParse (server s.sent).bytes = .error e → s.issued.length ≤ s.sent.length

end Chain

/-! ### Reading a frame -/

inductive Awaits (a : Answer) : FrameReader → List UInt8 → Prop
  | header {headerBuf rest : List UInt8} : headerBuf ++ rest = toBeBytes (UInt32.ofNat a.bytes.length) →
      rest ≠ [] → Awaits a ⟨headerBuf, none, []⟩ (rest ++ a.bytes)
  | payload {headerBuf payload rest : List UInt8} : payload ++ rest = a.bytes → rest ≠ [] →
      Awaits a ⟨headerBuf, some a.bytes.length, payload⟩ rest

variable {a : Answer} {r : FrameReader}

theorem awaits_frame (a : Answer) : Awaits a readFrame a.frame :=
  .header rfl (cons_ne_nil _ _)

theorem Awaits.ne_nil {rest : List UInt8} (h : Awaits a r rest) : rest ≠ [] := by
  cases h with
  | header _ hne => exact append_ne_nil_of_left_ne_nil hne _
  | payload _ hne => exact hne

/-- **However a frame is cut, it is put together.** -/
theorem onData_spec (chunk later : List UInt8) {fuel : Nat} (h : Awaits a r (chunk ++ later))
    (hfuel : chunk.length ≤ fuel) :
    (later ≠ [] → (onData fuel r chunk).2 = none ∧ Awaits a (onData fuel r chunk).1 later) ∧
      (later = [] → (onData fuel r chunk).2 = some (.ok a.bytes)) := by
  induction fuel generalizing r chunk with
  | zero =>
    obtain rfl := length_eq_zero_iff.mp (Nat.le_zero.mp hfuel)
    exact ⟨fun _ => ⟨rfl, h⟩, fun hlater => absurd hlater h.ne_nil⟩
  | succ fuel ih =>
    rw [onData]
    by_cases hchunk : chunk = []
    · subst hchunk
      rw [if_pos rfl]
      exact ⟨fun _ => ⟨rfl, h⟩, fun hlater => absurd hlater h.ne_nil⟩
    rw [if_neg hchunk]
    have hpos := length_pos_of_ne_nil hchunk
    generalize hall : chunk ++ later = all at h
    cases h with
    | @header headerBuf rest hheader hne =>
      have hfour := congrArg List.length hheader
      rw [length_append, length_toBeBytes] at hfour
      have hrest := length_pos_of_ne_nil hne
      dsimp only
      by_cases hshort : chunk.length < rest.length
      · -- the header goes on after the chunk
        obtain ⟨rest', rfl⟩ : ∃ rest', rest = chunk ++ rest' := by
          have hprefix := prefix_of_prefix_length_le (prefix_append chunk later)
            (hall ▸ prefix_append rest a.bytes) (Nat.le_of_lt hshort)
          exact ⟨_, hprefix.choose_spec.symm⟩
        rw [append_assoc] at hall
        obtain rfl := append_cancel_left hall
        rw [length_append] at hshort hfour
        rw [min_eq_right (by omega), take_length, drop_length,
          if_neg (by rw [length_append]; omega)]
        refine ih [] ?_ (Nat.zero_le fuel)
        exact .header (by rw [append_assoc, hheader]) (ne_nil_of_length_pos (by omega))
      · obtain ⟨chunk', rfl⟩ : ∃ chunk', chunk = rest ++ chunk' := by
          have hprefix := prefix_of_prefix_length_le (hall ▸ prefix_append rest a.bytes)
            (prefix_append chunk later) (Nat.not_lt.mp hshort)
          exact ⟨_, hprefix.choose_spec.symm⟩
        rw [append_assoc] at hall
        have hbytes := append_cancel_left hall
        rw [length_append] at hfuel
        have htake : min (4 - headerBuf.length) (rest ++ chunk').length = rest.length := by
          rw [length_append]
          omega
        rw [htake, take_left, drop_left, hheader, length_toBeBytes, if_pos rfl,
          fromBeBytes_toBeBytes, toNat_length a.fits, if_neg (Nat.not_lt.mpr a.fits)]
        by_cases hempty : a.bytes.length = 0
        · rw [if_pos hempty]
          have hnil := length_eq_zero_iff.mp hempty
          rw [hnil] at hbytes
          exact ⟨fun hlater => absurd (append_eq_nil_iff.mp hbytes).2 hlater,
            fun _ => by rw [hnil]⟩
        · rw [if_neg hempty]
          refine ih chunk' ?_ (by omega)
          rw [hbytes]
          exact .payload (nil_append _) (fun hnil => hempty (hnil ▸ rfl))
    | @payload headerBuf payload rest hpayload hne =>
      have hlen := congrArg List.length hpayload
      rw [length_append] at hlen
      rw [← hall, length_append] at hlen
      dsimp only
      rw [min_eq_right (by omega), take_length, drop_length, length_append]
      rw [← hall, ← append_assoc] at hpayload
      by_cases hlast : later = []
      · subst hlast
        rw [append_nil] at hpayload
        rw [if_pos (by rw [length_nil] at hlen; omega), hpayload]
        exact ⟨fun hnot => absurd rfl hnot, fun _ => rfl⟩
      · have := length_pos_of_ne_nil hlast
        rw [if_neg (by omega)]
        exact ih [] (.payload hpayload hlast) (Nat.zero_le fuel)

/-! ### Between two events -/

section Chain

variable {J : Type} {jsonParse : List Char → Option J} {server : List (List UInt8) → Answer}

variable (jsonParse server) in
/-- Nothing is waited for and every request has its answer, or the last one written waits for it. -/
structure Running (s : SurfaceConnection J) : Prop where
  order : s.sent = (s.issued.take s.sent.length).map encodeSurfaceRequest
  answers : ∀ i result, s.settled[i]? = some result →
    result = decoded jsonParse (server (s.sent.take (i + 1))).bytes
  phase : (s.reader = none ∧ s.wire = [] ∧ s.settled.length = s.issued.length ∧
      s.sent.length = s.issued.length) ∨
    ∃ r, s.reader = some r ∧ s.settled.length + 1 = s.sent.length ∧ s.sent.length ≤ s.issued.length ∧
      (∀ e, s.settled.getLast? ≠ some (.error e)) ∧ Awaits (server s.sent) r s.wire

variable {s : SurfaceConnection J} {r : Request} {waiting : List Request} {e : RequestError}

theorem Running.lawful (h : Running jsonParse server s) : Lawful jsonParse server s := by
  refine ⟨h.order, ?_, h.answers, fun hwire => ?_⟩
  · rcases h.phase with ⟨-, -, hsettled, hsent⟩ | ⟨-, -, hlen, -⟩ <;> omega
  · rcases h.phase with ⟨-, -, hsettled, -⟩ | ⟨f, -, -, -, -, hawaits⟩
    · exact hsettled
    · exact absurd hwire hawaits.ne_nil

theorem running_send (horder : s.sent = (s.issued.take s.sent.length).map encodeSurfaceRequest)
    (hanswers : ∀ i result, s.settled[i]? = some result →
      result = decoded jsonParse (server (s.sent.take (i + 1))).bytes)
    (hwire : s.wire = []) (hlen : s.settled.length = s.sent.length) (hwaiting : s.waiting = r :: waiting)
    (hlast : ∀ e, s.settled.getLast? ≠ some (.error e)) : Running jsonParse server (s.send server r) := by
  have hr : s.issued[s.sent.length]? = some r := by
    rw [← hlen, ← head?_drop]
    exact congrArg List.head? hwaiting
  refine ⟨?_, fun i result hi => ?_, .inr ⟨_, rfl, ?_, ?_, hlast, ?_⟩⟩
  · show s.sent ++ [encodeSurfaceRequest r]
      = (s.issued.take (s.sent ++ [encodeSurfaceRequest r]).length).map encodeSurfaceRequest
    rw [length_append, length_singleton, take_add_one, hr, map_append, ← horder]
    rfl
  · have hlt := (List.getElem?_eq_some_iff.mp hi).1
    show result = decoded jsonParse
      (server ((s.sent ++ [encodeSurfaceRequest r]).take (i + 1))).bytes
    rw [take_append_of_le_length (Nat.succ_le_of_lt (hlen ▸ hlt))]
    exact hanswers i result hi
  · show s.settled.length + 1 = (s.sent ++ [encodeSurfaceRequest r]).length
    rw [length_append, length_singleton, hlen]
  · show (s.sent ++ [encodeSurfaceRequest r]).length ≤ s.issued.length
    rw [length_append, length_singleton]
    exact (List.getElem?_eq_some_iff.mp hr).1
  · show Awaits (server (s.sent ++ [encodeSurfaceRequest r])) readFrame
      (s.wire ++ (server (s.sent ++ [encodeSurfaceRequest r])).frame)
    rw [hwire]
    exact awaits_frame _

theorem advance_send (hlast : ∀ e, s.settled.getLast? ≠ some (.error e)) :
    s.advance server (r :: waiting) = s.send server r := by
  rw [SurfaceConnection.advance]
  split
  · next e he => exact absurd he (hlast e)
  · rfl
  · rfl

variable (server) in
/-- **A rejection rejects all that wait**, and nothing is written. -/
theorem advance_error (waiting : List Request) (hlast : s.settled.getLast? = some (.error e)) :
    (s.advance server waiting).sent = s.sent ∧
      (s.advance server waiting).settled.length = s.settled.length + waiting.length := by
  induction waiting generalizing s with
  | nil => exact ⟨rfl, rfl⟩
  | cons r waiting ih =>
    rw [SurfaceConnection.advance, hlast]
    have hnext : (s.settled ++ [Except.error e]).getLast? = some (.error e) := getLast?_concat
    obtain ⟨hsent, hsettled⟩ := ih (s := { s with settled := s.settled ++ [.error e] }) hnext
    refine ⟨hsent, hsettled.trans ?_⟩
    rw [length_append, length_singleton, length_cons]
    omega

theorem step_idle (hreader : s.reader = none) (hsettled : s.settled.length = s.issued.length) :
    (step jsonParse server s (.request r)).1
      = SurfaceConnection.advance server { s with issued := s.issued ++ [r] } [r] := by
  rw [step]
  rw [if_neg (by rw [hreader]; decide), SurfaceConnection.waiting]
  rw [hsettled, drop_left]

theorem settle_spec {f : FrameReader} {n : Nat} (h : Running jsonParse server s)
    (hreader : s.reader = some f) (hlen : s.settled.length + 1 = s.sent.length)
    (hawaits : Awaits (server s.sent) f s.wire) (hlast : s.wire.length ≤ n) :
    ∃ next : SurfaceConnection J, (step jsonParse server s (.data n)).1 = next.advance server next.waiting ∧
      next.issued = s.issued ∧ next.sent = s.sent ∧ next.wire = [] ∧ next.reader = none ∧
      next.settled = s.settled ++ [decoded jsonParse (server s.sent).bytes] ∧
      ∀ i result, next.settled[i]? = some result →
        result = decoded jsonParse (server (s.sent.take (i + 1))).bytes := by
  have hdata := (onData_spec s.wire [] (by rwa [append_nil])
    (Nat.le_refl _)).2 rfl
  refine ⟨SurfaceConnection.settle jsonParse { s with wire := s.wire.drop n } (.ok (server s.sent).bytes),
    ?_, rfl, rfl, drop_eq_nil_of_le hlast, rfl, rfl, fun i result hi => ?_⟩
  · rw [step, hreader, take_of_length_le hlast]
    dsimp only
    split
    · next hnone =>
      rw [hnone] at hdata
      cases hdata
    · next result hresult =>
      rw [hresult] at hdata
      rw [Option.some.inj hdata]
  · rcases Nat.lt_trichotomy i s.settled.length with hlt | rfl | hgt
    · exact h.answers i result ((getElem?_append_left hlt).symm.trans hi)
    · rw [hlen, take_length]
      exact (Option.some.inj (getElem?_concat_length.symm.trans hi)).symm
    · have hbound := (List.getElem?_eq_some_iff.mp hi).1
      have hsettled : (s.settled ++ [decoded jsonParse (server s.sent).bytes]).length
          = s.settled.length + 1 := length_append
      rw [SurfaceConnection.settle] at hbound
      dsimp only at hbound
      omega

theorem running_step (h : Running jsonParse server s) (event : Event)
    (hclear : Clear jsonParse server s event) :
    Running jsonParse server (step jsonParse server s event).1 := by
  cases event with
  | request r =>
    have hissued : ∀ n ≤ s.issued.length, (s.issued ++ [r]).take n = s.issued.take n :=
      fun n hn => take_append_of_le_length hn
    rcases h.phase with ⟨hreader, hwire, hsettled, hsent⟩ | ⟨f, hreader, hlen, hle, hlast, hawaits⟩
    · have hwaiting : (s.issued ++ [r]).drop s.settled.length = [r] := by
        rw [hsettled, drop_left]
      have hgood : ∀ e, ({ s with issued := s.issued ++ [r] } : SurfaceConnection J).settled.getLast?
          ≠ some (.error e) := hclear
      rw [step_idle hreader hsettled, advance_send hgood]
      refine running_send ?_ h.answers hwire (hsettled.trans hsent.symm) hwaiting hclear
      rw [hissued _ (Nat.le_of_eq hsent)]
      exact h.order
    · have hbusy : s.reader.isSome = true := by
        rw [hreader]
        rfl
      rw [step]
      rw [if_pos hbusy]
      refine ⟨?_, h.answers, .inr ⟨f, hreader, hlen, ?_, hlast, hawaits⟩⟩
      · rw [hissued _ hle]
        exact h.order
      · dsimp only
        rw [length_append]
        omega
  | data n =>
    rcases h.phase with ⟨hreader, hwire, hsettled, hsent⟩ | ⟨f, hreader, hlen, hle, hlast, hawaits⟩
    · rw [step, hreader]
      refine ⟨h.order, h.answers, .inl ⟨rfl, ?_, hsettled, hsent⟩⟩
      rw [hwire, drop_nil]
    · by_cases hwhole : s.wire.length ≤ n
      · obtain ⟨next, hstep, hissued, hsent, hwire, hreader', hsettled, hanswers⟩ :=
          settle_spec h hreader hlen hawaits hwhole
        rw [hstep]
        have hnext : next.settled.length = s.sent.length := by
          rw [hsettled, length_append, length_singleton, hlen]
        have horder : next.sent = (next.issued.take next.sent.length).map encodeSurfaceRequest := by
          rw [hsent, hissued]
          exact h.order
        rw [← hsent] at hanswers
        cases hwaiting : next.waiting with
        | nil =>
          have hall := drop_eq_nil_iff.mp hwaiting
          rw [hissued, hnext] at hall
          refine ⟨horder, hanswers, .inl ⟨hreader', hwire, ?_, ?_⟩⟩
          · show next.settled.length = next.issued.length
            rw [hnext, hissued]
            omega
          · show next.sent.length = next.issued.length
            rw [hsent, hissued]
            omega
        | cons r waiting =>
          have hmore : s.sent.length < s.issued.length := by
            have hpos := congrArg List.length hwaiting
            rw [SurfaceConnection.waiting, length_drop, length_cons, hissued, hnext] at hpos
            omega
          have hgood : ∀ e, next.settled.getLast? ≠ some (.error e) := by
            intro e he
            rw [hsettled, getLast?_concat] at he
            have hend := hclear (by rw [hreader]; rfl) hwhole e (Option.some.inj he)
            omega
          rw [advance_send hgood]
          exact running_send horder hanswers hwire (hnext.trans (congrArg _ hsent).symm) hwaiting hgood
      · have hlater : s.wire.drop n ≠ [] := fun hnil => hwhole (drop_eq_nil_iff.mp hnil)
        have hspec := (onData_spec (s.wire.take n) (s.wire.drop n)
          (by rwa [take_append_drop]) (Nat.le_refl _)).1 hlater
        rw [step, hreader]
        dsimp only
        split
        · next f' hdata =>
          rw [hdata] at hspec
          exact ⟨h.order, h.answers, .inr ⟨f', rfl, hlen, hle, hlast, hspec.2⟩⟩
        · next result hdata =>
          rw [hdata] at hspec
          cases hspec.1

theorem not_lawful_step (h : Running jsonParse server s) (event : Event)
    (hclear : ¬ Clear jsonParse server s event) :
    ¬ Lawful jsonParse server (step jsonParse server s event).1 := by
  intro hlawful
  have hwritten := hlawful.written
  cases event with
  | request r =>
    rw [Clear] at hclear
    push Not at hclear
    obtain ⟨e, he⟩ := hclear
    rcases h.phase with ⟨hreader, -, hsettled, hsent⟩ | ⟨-, -, -, -, hlast, -⟩
    · obtain ⟨hkept, hmore⟩ := advance_error server [r]
        (s := { s with issued := s.issued ++ [r] }) he
      rw [step_idle hreader hsettled, hkept, hmore] at hwritten
      dsimp only at hwritten
      rw [length_singleton] at hwritten
      omega
    · exact hlast e he
  | data n =>
    rw [Clear] at hclear
    push Not at hclear
    obtain ⟨hsome, hwhole, e, he, hmore⟩ := hclear
    rcases h.phase with ⟨hreader, -⟩ | ⟨f, hreader, hlen, hle, hlast, hawaits⟩
    · rw [hreader] at hsome
      cases hsome
    · obtain ⟨next, hstep, hissued, hsent, -, -, hsettled, -⟩ :=
        settle_spec h hreader hlen hawaits hwhole
      have hlast' : next.settled.getLast? = some (.error e) := by
        rw [hsettled, getLast?_concat, he]
      obtain ⟨hkept, hadded⟩ := advance_error server next.waiting hlast'
      rw [hstep, hkept, hadded, SurfaceConnection.waiting, length_drop, hissued, hsent, hsettled,
        length_append, length_singleton] at hwritten
      omega

/-- **When every request gets its own answer**, in every run. -/
theorem requests_lawful_iff (jsonParse : List Char → Option J) (server : List (List UInt8) → Answer)
    (events : List Event) :
    Always (step jsonParse server) (Lawful jsonParse server) connected events ↔
      Admits (step jsonParse server) (Clear jsonParse server) connected events := by
  refine always_iff_admits_of (J := Running jsonParse server) ?_ (fun s h => h.lawful)
    (fun s event h => running_step h event) (fun s event h => not_lawful_step h event) events
  exact ⟨rfl, fun i result hi => (by cases hi), .inl ⟨rfl, rfl, rfl, rfl⟩⟩

end Chain

/-- A server that answers with a field that is cut off. -/
def cutOff : List (List UInt8) → Answer := fun _ => ⟨[0x0a], by decide⟩

/-- Of two requests that wait, the second is rejected with the first and never written. -/
theorem rejected_unsent : ¬ Always (step (fun _ => none) cutOff) (Lawful (fun _ => none) cutOff)
    (connected : SurfaceConnection Unit) [.request .getFleet, .request .getSettings, .data 5] := by
  intro h
  have hwritten := (h _ (prefix_refl _)).written
  exact absurd hwritten (by decide)

end Desktop

end Modbit
