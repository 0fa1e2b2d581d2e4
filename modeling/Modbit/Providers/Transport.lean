import Modbit.Lib.Terminated
import Modbit.Lib.Utf8
import Modbit.Providers.Gateway

/-!
# The transport

`crates/providers/src/transport.rs`.  An attempt reads the response of a provider line by line and sends the
payloads of its data lines; the transport hands on what an attempt sends, and makes another attempt when one
fails before its first payload.  An attempt is what its response brings and when the cancellation is seen.

`streamed_whole`: the payloads of an attempt are those of the whole response, however it is cut; and what
the consumer receives is of one attempt and has one end, after at most `max_attempts` attempts, or one.
-/

namespace Modbit.Providers

open Lib List
open Agent (TokenUsage)

inductive TransportError where
  | status (code : Nat) (body : String)
  | interrupted (message : String)
  | timeout
  | cancelled
  deriving DecidableEq

inductive TransportEvent where
  | sseData (payload : String)
  | usage (usage : TokenUsage)
  | eof

def TransportEvent.payload : TransportEvent → Option String
  | .sseData payload => some payload
  | _ => none

abbrev Delivery := Except TransportError TransportEvent

def Delivery.payload : Delivery → Option String
  | .ok e => e.payload
  | .error _ => none

/-! ### An attempt -/

def newline : UInt8 := 0x0A

def sseDataLine (line : List Char) : Option String :=
  let trimmed := Text.dropEndWhile (· ∈ ['\n', '\r']) line
  if "data: ".toList <+: trimmed then
    let payload := trimmed.drop "data: ".length
    if payload = [] then none else some (String.ofList payload)
  else none

def linePayload (line : List UInt8) : Option String :=
  sseDataLine (Text.dropEndWhile Text.isWhitespace (Utf8.lossy line))

inductive BodyEnd where
  | closed
  | failed (message : String)
  | cancelled
  | deadline

/-- What an attempt sees: it is over before there is a response, the response is a refusal, or its body
comes in pieces. -/
inductive Response where
  | cancelled
  | timeout
  | unreachable (message : String)
  | refused (code : Nat) (body : String)
  | body (chunks : List (List UInt8)) (ending : BodyEnd)

section Attempt

variable (parse : String → Option Json) (provider : Provider)

/-- What is sent for a payload: the usage so far, if the payload has any, and the payload. -/
def payloadEvents (usage : TokenUsage) (payload : String) : TokenUsage × List TransportEvent :=
  match extractUsageFrame parse provider payload with
  | some frame =>
    if frame.inputTokens.isSome ∨ frame.outputTokens.isSome then
      let usage : TokenUsage :=
        ⟨frame.inputTokens.getD usage.inputTokens, frame.outputTokens.getD usage.outputTokens⟩
      (usage, [.usage usage, .sseData payload])
    else (usage, [.sseData payload])
  | none => (usage, [.sseData payload])

/-- The variables of the reading loop, and what was sent. -/
structure Reading where
  buffer : List UInt8
  usage : TokenUsage
  sent : List TransportEvent

def Reading.line (r : Reading) (line : List UInt8) : Reading :=
  match linePayload line with
  | none => r
  | some payload =>
    let (usage, events) := payloadEvents parse provider r.usage payload
    { r with usage := usage, sent := r.sent ++ events }

/-- The lines that a piece completes are taken out of the buffer. -/
def Reading.chunk (r : Reading) (bytes : List UInt8) : Reading :=
  let (lines, rest) := drainLines newline (r.buffer ++ bytes)
  { lines.foldl (Reading.line parse provider) r with buffer := rest }

def endDelivery : BodyEnd → Delivery
  | .closed => .ok .eof
  | .failed message => .error (.interrupted ("body read: " ++ message))
  | .cancelled => .error .cancelled
  | .deadline => .error .timeout

/-- `run_attempt`: what it sends. -/
def runAttempt : Response → List Delivery
  | .cancelled => [.error .cancelled]
  | .timeout => [.error .timeout]
  | .unreachable message => [.error (.interrupted ("connect: " ++ message))]
  | .refused code body => [.error (.status code body)]
  | .body chunks ending =>
    ((chunks.foldl (Reading.chunk parse provider) ⟨[], ⟨0, 0⟩, []⟩).sent.map Except.ok)
      ++ [endDelivery ending]

end Attempt

/-! ### The attempts -/

/-- Durations are in milliseconds, as `as_millis` gives them. -/
structure RetryPolicy where
  maxAttempts : UInt32
  baseDelay : Nat
  maxDelay : Nat

def retriableStatus (code : Nat) : Bool := code = 429 ∨ code ≥ 500

def retriable : TransportError → Bool
  | .status code _ => retriableStatus code
  | .timeout => true
  | _ => false

def scramble (x : UInt64) : UInt64 :=
  let x := x ^^^ (x <<< 13)
  let x := x ^^^ (x >>> 7)
  x ^^^ (x <<< 17)

/-- A checked sum of two `u64`s. -/
def checkedAdd (a b : Nat) : Option Nat := if a + b < 2 ^ 64 then some (a + b) else none

/-- The delay before the attempt after `attempt`; `none` if the sum overflows. -/
def RetryPolicy.delay (retry : RetryPolicy) (attempt : Nat) (jitter : UInt64) : Option Nat :=
  let exp := min (retry.baseDelay % 2 ^ 64 * 2 ^ (min attempt 5 - 1)) (2 ^ 64 - 1)
  let cap := retry.maxDelay % 2 ^ 64
  let half := max (exp / 2) 1
  (checkedAdd half ((scramble jitter).toNat % half)).map (fun sum => max (min sum cap) 1)

/-- An attempt: its response, and after how many events the cancellation is seen, if it is. -/
structure Attempt where
  response : Response
  cancelAt : Option Nat

/-- What the forwarding loop has done when it is left. -/
structure Forwarded where
  sent : List TransportEvent
  firstToken : Bool
  fatal : Option TransportError

def forward : Option Nat → List Delivery → Forwarded
  | some 0, _ => ⟨[], false, some .cancelled⟩
  | _, [] => ⟨[], false, none⟩
  | _, .ok .eof :: _ => ⟨[], false, none⟩
  | _, .error e :: _ => ⟨[], false, some e⟩
  | cancelAt, .ok item :: events =>
    let rest := forward (cancelAt.map (· - 1)) events
    ⟨item :: rest.sent, item.payload.isSome || rest.firstToken, rest.fatal⟩

/-- What the consumer is sent, with the number of the attempt. -/
abbrev Received := List (Nat × Delivery)

section Stream

variable (parse : String → Option Json) (provider : Provider) (retry : RetryPolicy)
  (attempts : Nat → Attempt) (jitter : Nat → UInt64)

/-- The loop over the attempts, `attempt` of which were made: what the consumer is sent and how many
attempts there were; `none` if a computation overflows.  The `k`-th retry loads `jitter k`. -/
def streamFrom (attempt : Nat) : Option (Received × Nat) :=
  if attempt + 1 < 2 ^ 32 then
    let k := attempt + 1
    let out := forward (attempts k).cancelAt (runAttempt parse provider (attempts k).response)
    let sent : Received := out.sent.map (fun item => (k, .ok item))
    match out.fatal with
    | none => some (sent ++ [(k, .ok .eof)], k)
    | some e =>
      if h : e ≠ .cancelled ∧ out.firstToken = false ∧ k < retry.maxAttempts.toNat ∧ retriable e then
        match retry.delay k (jitter k) with
        | none => none
        | some _ => (streamFrom k).map (fun more => (sent ++ more.1, more.2))
      else some (sent ++ [(k, .error e)], k)
  else none
termination_by retry.maxAttempts.toNat - attempt

/-- `HttpStreamTransport::stream`, after the credential was found. -/
def stream : Option (Received × Nat) := streamFrom parse provider retry attempts jitter 0

end Stream

/-! ### The payloads of an attempt -/

/-- The payloads of the lines of a response that are ended, in order. -/
def payloadsOf (bytes : List UInt8) : List String :=
  ((terminated newline bytes).filter (newline ∈ ·)).filterMap linePayload

variable {parse : String → Option Json} {provider : Provider} {r : Reading}

theorem payloads_payloadEvents (usage : TokenUsage) (payload : String) :
    (payloadEvents parse provider usage payload).2.filterMap TransportEvent.payload = [payload] := by
  unfold payloadEvents
  cases extractUsageFrame parse provider payload with
  | none => rfl
  | some frame =>
    dsimp only
    split_ifs
    · rfl
    · rfl

theorem payloads_line (line : List UInt8) :
    (r.line parse provider line).sent.filterMap TransportEvent.payload
      = r.sent.filterMap TransportEvent.payload ++ (linePayload line).toList := by
  unfold Reading.line
  cases linePayload line with
  | none => exact (append_nil _).symm
  | some payload =>
    rw [filterMap_append, payloads_payloadEvents]
    rfl

theorem payloads_lines (lines : List (List UInt8)) : ∀ r : Reading,
    (lines.foldl (Reading.line parse provider) r).sent.filterMap TransportEvent.payload
      = r.sent.filterMap TransportEvent.payload ++ lines.filterMap linePayload := by
  induction lines with
  | nil => exact fun r => (append_nil _).symm
  | cons line lines ih =>
    intro r
    rw [foldl_cons, ih, payloads_line, append_assoc]
    congr 1
    cases hline : linePayload line with
    | none => rw [filterMap_cons_none hline, Option.toList_none, nil_append]
    | some payload => rw [filterMap_cons_some hline, Option.toList_some, singleton_append]

/-- The reading of bytes that have come: their lines were sent, and the rest is kept. -/
structure Reading.Reads (r : Reading) (bytes : List UInt8) : Prop where
  buffer : r.buffer = (drainLines newline bytes).2
  sent : r.sent.filterMap TransportEvent.payload = (drainLines newline bytes).1.filterMap linePayload

theorem Reading.Reads.chunk {bytes : List UInt8} (h : r.Reads bytes) (more : List UInt8) :
    (r.chunk parse provider more).Reads (bytes ++ more) where
  buffer := by
    rw [drainLines_append, Reading.chunk, h.buffer]
  sent := by
    rw [drainLines_append, Reading.chunk, h.buffer]
    rw [payloads_lines, h.sent, filterMap_append]

theorem Reading.Reads.chunks (chunks : List (List UInt8)) : ∀ {r : Reading} {bytes : List UInt8},
    r.Reads bytes → (chunks.foldl (Reading.chunk parse provider) r).Reads (bytes ++ chunks.flatten) := by
  induction chunks with
  | nil =>
    intro r bytes h
    rw [flatten_nil, append_nil]
    exact h
  | cons chunk chunks ih =>
    intro r bytes h
    rw [foldl_cons, flatten_cons, ← append_assoc]
    exact ih (h.chunk chunk)

theorem payloads_ok (events : List TransportEvent) :
    (events.map Except.ok).filterMap Delivery.payload = events.filterMap TransportEvent.payload := by
  rw [filterMap_map]
  rfl

/-- **The payloads of an attempt are those of the whole response**, however it is cut. -/
theorem payloads_runAttempt (chunks : List (List UInt8)) (ending : BodyEnd) :
    (runAttempt parse provider (.body chunks ending)).filterMap Delivery.payload
      = payloadsOf chunks.flatten := by
  have hend : [endDelivery ending].filterMap Delivery.payload = [] := by
    cases ending with
    | closed => rfl
    | failed message => rfl
    | cancelled => rfl
    | deadline => rfl
  have hreads : (chunks.foldl (Reading.chunk parse provider) ⟨[], ⟨0, 0⟩, []⟩).Reads
      ([] ++ chunks.flatten) := Reading.Reads.chunks chunks ⟨rfl, rfl⟩
  rw [runAttempt, filterMap_append, payloads_ok, hend, append_nil, hreads.sent, payloadsOf,
    ← fst_drainLines]
  rfl

/-! ### What the consumer receives -/

def Delivery.IsEnd : Delivery → Prop
  | .ok .eof => True
  | .ok _ => False
  | .error _ => True

def OneAttempt (received : Received) : Prop :=
  ∃ k, ∀ e ∈ received, e.2.payload.isSome → e.1 = k

def EndedOnce (received : Received) : Prop :=
  ∃ before last, received = before ++ [last] ∧ last.2.IsEnd ∧ ∀ e ∈ before, ¬ e.2.IsEnd

/-- **What is handed on of an attempt** has no end, and no payload if none was seen. -/
theorem forward_spec (cancelAt : Option Nat) (events : List Delivery) :
    (∀ item ∈ (forward cancelAt events).sent, ¬ Delivery.IsEnd (.ok item)) ∧
      ((forward cancelAt events).firstToken = false →
        ∀ item ∈ (forward cancelAt events).sent, item.payload = none) := by
  fun_induction forward cancelAt events with
  | case1 => exact ⟨fun item hitem => (by cases hitem), fun _ item hitem => (by cases hitem)⟩
  | case2 => exact ⟨fun item hitem => (by cases hitem), fun _ item hitem => (by cases hitem)⟩
  | case3 => exact ⟨fun item hitem => (by cases hitem), fun _ item hitem => (by cases hitem)⟩
  | case4 => exact ⟨fun item hitem => (by cases hitem), fun _ item hitem => (by cases hitem)⟩
  | case5 cancelAt item events hstart hitem rest ih =>
    obtain ⟨hends, htoken⟩ := ih
    refine ⟨fun item' hitem' => ?_, fun hfirst item' hitem' => ?_⟩
    · rcases mem_cons.mp hitem' with rfl | hitem'
      · cases item' with
        | sseData payload => exact id
        | usage usage => exact id
        | eof => exact absurd rfl hitem
      · exact hends item' hitem'
    · obtain ⟨hnone, hrest⟩ := Bool.or_eq_false_iff.mp hfirst
      rcases mem_cons.mp hitem' with rfl | hitem'
      · exact Option.isNone_iff_eq_none.mp (Option.isSome_eq_false_iff.mp hnone)
      · exact htoken hrest item' hitem'

/-- **The delay does not overflow.** -/
theorem delay_ne_none (retry : RetryPolicy) (attempt : Nat) (jitter : UInt64) :
    retry.delay attempt jitter ≠ none := by
  obtain ⟨exp, hexp⟩ : ∃ exp, exp =
    min (retry.baseDelay % 2 ^ 64 * 2 ^ (min attempt 5 - 1)) (2 ^ 64 - 1) := ⟨_, rfl⟩
  have hle : exp ≤ 2 ^ 64 - 1 := hexp ▸ Nat.min_le_right _ _
  have hpos : 0 < max (exp / 2) 1 := Nat.lt_of_lt_of_le Nat.one_pos (Nat.le_max_right _ _)
  have hlt := Nat.mod_lt (scramble jitter).toNat hpos
  have hsum : max (exp / 2) 1 + (scramble jitter).toNat % max (exp / 2) 1 < 2 ^ 64 := by omega
  rw [RetryPolicy.delay, ← hexp]
  rw [checkedAdd, if_pos hsum]
  exact Option.some_ne_none _

variable {retry : RetryPolicy} {attempts : Nat → Attempt} {jitter : Nat → UInt64}

theorem received_last {k : Nat} {sent : List TransportEvent} {last : Delivery} (hlast : last.IsEnd)
    (hsent : ∀ item ∈ sent, ¬ Delivery.IsEnd (.ok item)) :
    OneAttempt (sent.map (fun item => (k, .ok item)) ++ [(k, last)]) ∧
      EndedOnce (sent.map (fun item => (k, .ok item)) ++ [(k, last)]) := by
  refine ⟨⟨k, fun e he _ => ?_⟩, _, _, rfl, hlast, fun e he => ?_⟩
  · rcases mem_append.mp he with he | he
    · obtain ⟨item, -, rfl⟩ := mem_map.mp he
      rfl
    · rw [mem_singleton.mp he]
  · obtain ⟨item, hitem, rfl⟩ := mem_map.mp he
    exact hsent item hitem

theorem received_more {k : Nat} {sent : List TransportEvent} {more : Received}
    (hnone : ∀ item ∈ sent, item.payload = none) (hsent : ∀ item ∈ sent, ¬ Delivery.IsEnd (.ok item))
    (hone : OneAttempt more) (hended : EndedOnce more) :
    OneAttempt (sent.map (fun item => (k, .ok item)) ++ more) ∧
      EndedOnce (sent.map (fun item => (k, .ok item)) ++ more) := by
  obtain ⟨k', hk'⟩ := hone
  obtain ⟨before, last, rfl, hlast, hbefore⟩ := hended
  refine ⟨⟨k', fun e he hpayload => ?_⟩, _ ++ before, last, (append_assoc _ _ _).symm, hlast,
    fun e he => ?_⟩
  · rcases mem_append.mp he with he | he
    · obtain ⟨item, hitem, rfl⟩ := mem_map.mp he
      rw [show Delivery.payload (.ok item) = none from hnone item hitem] at hpayload
      cases hpayload
    · exact hk' e he hpayload
  · rcases mem_append.mp he with he | he
    · obtain ⟨item, hitem, rfl⟩ := mem_map.mp he
      exact hsent item hitem
    · exact hbefore e he

/-- **From any attempt on**, if it is the first one or one of those that the policy allows. -/
theorem streamFrom_spec (attempt : Nat) (h : attempt = 0 ∨ attempt < retry.maxAttempts.toNat) :
    ∃ received n, streamFrom parse provider retry attempts jitter attempt = some (received, n) ∧
      n ≤ max retry.maxAttempts.toNat 1 ∧ OneAttempt received ∧ EndedOnce received := by
  induction hleft : retry.maxAttempts.toNat - attempt using Nat.strongRecOn generalizing attempt with
  | _ left ih =>
    subst hleft
    have hmax := retry.maxAttempts.toNat_lt
    have hcount : attempt + 1 ≤ max retry.maxAttempts.toNat 1 := by omega
    obtain ⟨hsent, htoken⟩ := forward_spec (attempts (attempt + 1)).cancelAt
      (runAttempt parse provider (attempts (attempt + 1)).response)
    rw [streamFrom, if_pos (by omega)]
    dsimp only
    cases hfatal : (forward (attempts (attempt + 1)).cancelAt
        (runAttempt parse provider (attempts (attempt + 1)).response)).fatal with
    | none =>
      exact ⟨_, _, rfl, hcount, received_last trivial hsent⟩
    | some e =>
      dsimp only
      split_ifs with hretry
      · obtain ⟨-, hfirst, hlt, -⟩ := hretry
        cases hdelay : retry.delay (attempt + 1) (jitter (attempt + 1)) with
        | none => exact absurd hdelay (delay_ne_none retry _ _)
        | some delay =>
          obtain ⟨more, n, hmore, hn, hone, hended⟩ := ih _ (by omega) (attempt + 1) (.inr hlt) rfl
          rw [hmore]
          exact ⟨_, _, rfl, hn, received_more (htoken hfirst) hsent hone hended⟩
      · exact ⟨_, _, rfl, hcount, received_last trivial hsent⟩

/-- **The stream of a response.**  The payloads of an attempt are those of the ended lines of the whole
response, however it is cut.  And of any attempts the consumer receives the payloads of one at most, and
one end, which comes last; there are at most `max_attempts` attempts, or one, and no delay overflows. -/
theorem streamed_whole (parse : String → Option Json) (provider : Provider) :
    (∀ chunks ending, (runAttempt parse provider (.body chunks ending)).filterMap Delivery.payload
      = payloadsOf chunks.flatten) ∧
    ∀ retry attempts jitter, ∃ received n,
      stream parse provider retry attempts jitter = some (received, n) ∧
        n ≤ max retry.maxAttempts.toNat 1 ∧ OneAttempt received ∧ EndedOnce received :=
  ⟨payloads_runAttempt, fun _ _ _ => streamFrom_spec 0 (.inl rfl)⟩

/-- Of no attempts at most, one is made. -/
theorem stream_tries :
    ∃ received n, stream (fun _ => none) .openAi ⟨0, 50, 8000⟩ (fun _ => ⟨.refused 503 "", none⟩)
      (fun _ => 0) = some (received, n) ∧ ¬ n ≤ 0 := by
  refine ⟨[(1, .error (.status 503 ""))], 1, ?_, by decide⟩
  rw [stream, streamFrom, if_pos (by decide)]
  rfl

end Modbit.Providers
