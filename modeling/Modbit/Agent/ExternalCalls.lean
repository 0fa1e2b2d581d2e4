import Modbit.Effects.Ledger
import Modbit.Mcp.Client

/-!
# External tool calls and their receipts

`external.call` in `build_worktree_registry`: the digest of the call, the call, and a receipt in
the effects ledger.  `World` is a run's pool of servers and its ledger; a `CallRecord` is what one
call left behind: the messages written, the receipts in the ledger, and the tool's answer.

Every receipt belongs to a request that was written (`ReceiptsBelong`).  The other way round, a
request that the server answers with an error, or not at all, has no receipt, and an append that
fails is not seen in the answer; `external_calls_run` says which runs have a receipt for every
request, and when the digests of calls tell them apart.
-/

namespace Modbit

open Lib List

namespace ExternalCalls

open Effects Mcp

/-- The server, the tool and the arguments of a call. -/
structure Call where
  server : String
  tool : String
  arguments : Json

/-- What a handler reads of its arguments, up to the first field that is missing. -/
def callOf (args : Json) : Except String Call :=
  match (args.field "server").bind Json.asStr with
  | none => .error "missing server"
  | some server =>
    match (args.field "tool").bind Json.asStr with
    | none => .error "missing tool"
    | some tool => .ok ⟨server, tool, (args.field "arguments").getD (.obj [])⟩

def Call.bytes (c : Call) : List UInt8 :=
  Effects.bytes c.server ++ Effects.bytes c.tool ++ Effects.bytes c.arguments.render

def Call.digest (c : Call) : String := Sha256.hex c.bytes

def Call.digests (c : Call) : Digests := ⟨"no-approval", "cap-external", c.digest, "external-call"⟩

structure CallRecord where
  args : Json
  requests : List (String × Json)
  receipts : List EffectReceipt
  /-- The ledger's file cannot be written. -/
  fails : Bool
  answer : Except String Json

structure World where
  pool : McpPool
  ledger : LedgerWorld
  calls : List CallRecord

/-- A call of the tool, with what the outside does meanwhile: the servers, and how the append to the
ledger goes (`some` with what was written of the line where it fails). -/
structure Event where
  args : Json
  outside : Outside
  append : Option (Option Nat)

variable (parse : Parser) (json : Jsonl.Codec EffectReceipt)

/-- `ledger.append`. -/
def appendTo (ledger : LedgerWorld) (d : Digests) : Option (Option Nat) → LedgerWorld
  | none => (ledger.step json (.append 0 d)).1
  | some written => (ledger.step json (.appendFails 0 d written)).1

/-- The handler.  There is no result while it waits for a server. -/
def externalCall (pool : McpPool) (ledger : LedgerWorld) (e : Event) :
    Option (McpPool × LedgerWorld × Except String Json) :=
  match callOf e.args with
  | .error text => some (pool, ledger, .error text)
  | .ok call =>
    match pool.client parse call.server e.outside with
    | none => none
    | some (pool, .error err) => some (pool, ledger, .error err.text)
    | some (pool, .ok client) =>
      match pool.callTool parse client call.tool call.arguments e.outside with
      | none => none
      | some (pool, .error err) => some (pool, ledger, .error err.text)
      | some (pool, .ok text) =>
        -- the outcome of the append is dropped
        some (pool, appendTo json ledger call.digests e.append,
          .ok (.obj [("server", .str call.server), ("tool", .str call.tool), ("text", .str text)]))

namespace World

def start (servers : OrdMap String ExternalServer) (file : Option (List UInt8)) (ledger : Ledger)
    (returned : List EffectReceipt) : World := ⟨⟨servers, [], []⟩, ⟨file, [ledger], returned⟩, []⟩

def step (w : World) (e : Event) : World × Unit :=
  (match externalCall parse json w.pool w.ledger e with
  | none => w
  | some (pool, ledger, answer) =>
    ⟨pool, ledger, w.calls ++
      [⟨e.args, pool.sent.drop w.pool.sent.length, ledger.returned.drop w.ledger.returned.length,
        e.append.isSome, answer⟩]⟩, ())

end World

/-! ### What is promised -/

def CallRecord.Requested (c : CallRecord) (call : Call) : Prop :=
  ∃ id, (call.server, callBody id call.tool call.arguments) ∈ c.requests

def ReceiptOf (r : EffectReceipt) (call : Call) : Prop :=
  r.callDigest = call.digest ∧ r.resultDigest = "external-call"

/-- A call that has written a request has one receipt, and it is for that call; or the append failed and
the tool has answered with an error. -/
def CallRecord.Receipted (c : CallRecord) : Prop :=
  (∃ m ∈ c.requests, IsCall m.2) →
    ∃ call, callOf c.args = .ok call ∧ c.Requested call ∧
      ((∃ r, c.receipts = [r] ∧ ReceiptOf r call) ∨ c.fails = true ∧ ∃ text, c.answer = .error text)

/-- Every receipt since the start is that of a call whose request was written. -/
def World.ReceiptsBelong (before : List EffectReceipt) (w : World) : Prop :=
  w.ledger.returned = before ++ w.calls.flatMap CallRecord.receipts ∧
    ∀ c ∈ w.calls, ∀ r ∈ c.receipts,
      ∃ call, callOf c.args = .ok call ∧ c.Requested call ∧ ReceiptOf r call

/-- Where SHA-256 does not collide on two calls, their digests tell them apart. -/
def World.DigestsTell (w : World) : Prop :=
  ∀ c ∈ w.calls, ∀ c' ∈ w.calls, ∀ call call', callOf c.args = .ok call → callOf c'.args = .ok call' →
    (Sha256.hex call.bytes = Sha256.hex call'.bytes → call.bytes = call'.bytes) →
      call.digest = call'.digest → call = call'

/-- A call that gets to write its request is answered with a result if and only if the ledger can be
written. -/
def World.Answered (w : World) (e : Event) : Prop :=
  ∀ call pool client, callOf e.args = .ok call →
    w.pool.client parse call.server e.outside = some (pool, .ok client) →
      e.outside.requestWrite = none →
        ∀ answer rest, readResponse parse client.nextId client.reader = some (answer, rest) →
          (answer.isOk = true ↔ e.append = none)

/-- No two calls read the same when server, tool and arguments are written one after the other. -/
def World.TextsTell (w : World) : Prop :=
  ∀ c ∈ w.calls, ∀ c' ∈ w.calls, ∀ call call', callOf c.args = .ok call → callOf c'.args = .ok call' →
    call.bytes = call'.bytes → call = call'

/-! ### One call -/

variable {parse json} {w : World} {e : Event}

def World.Open (w : World) : Prop := ∃ ledger, w.ledger.ledgers[0]? = some ledger

variable {ledger : LedgerWorld} {l : Ledger}

theorem returned_append (h : ledger.ledgers[0]? = some l)
    (d : Digests) : (appendTo json ledger d none).returned
      = ledger.returned ++ [(l.chain.append d).2] := by
  rw [appendTo, LedgerWorld.step, h]

theorem returned_appendFails (ledger : LedgerWorld) (d : Digests) (written : Option Nat) :
    (appendTo json ledger d (some written)).returned = ledger.returned := by
  rw [appendTo, LedgerWorld.step]
  split
  · rfl
  · split
    · rfl
    · dsimp only
      split_ifs
      · rfl
      · rfl

theorem open_appendTo (h : ledger.ledgers[0]? = some l)
    (d : Digests) (fails : Option (Option Nat)) :
    ∃ l', (appendTo json ledger d fails).ledgers[0]? = some l' := by
  have hextend : (ledger.extend 0 d)[0]? = some ⟨(l.chain.append d).1⟩ := by
    rw [LedgerWorld.extend, getElem?_modify_eq, h]
    rfl
  cases fails with
  | none =>
    rw [appendTo, LedgerWorld.step, h]
    exact ⟨_, hextend⟩
  | some written =>
    rw [appendTo, LedgerWorld.step, h]
    cases written with
    | none => exact ⟨_, hextend⟩
    | some n =>
      dsimp only
      split_ifs
      · exact ⟨_, hextend⟩
      · exact ⟨l, h⟩

/-- What a call does: it has written its request and read an answer to it, or it has written none. -/
inductive Outcome (parse : Parser) (json : Jsonl.Codec EffectReceipt) (w : World) (e : Event) :
    McpPool → LedgerWorld → Except String Json → Prop
  | unwritten {pool : McpPool} {text : String} (greets : w.pool.Greets pool)
      (never : ∀ call pool' client, callOf e.args = .ok call →
        w.pool.client parse call.server e.outside = some (pool', .ok client) →
          e.outside.requestWrite ≠ none) :
      Outcome parse json w e pool w.ledger (.error text)
  | answered {call : Call} {mid pool : McpPool} {client : McpClient} {answer : Except McpError Json}
      {rest : List Incoming} (hcall : callOf e.args = .ok call)
      (hclient : w.pool.client parse call.server e.outside = some (mid, .ok client))
      (hwrite : e.outside.requestWrite = none)
      (hread : readResponse parse client.nextId client.reader = some (answer, rest))
      (greets : w.pool.Greets mid)
      (hsent : pool.sent = mid.sent ++ [(call.server, callBody client.nextId call.tool call.arguments)])
      {ledger : LedgerWorld}
      (hledger : ledger = if answer.isOk then appendTo json w.ledger call.digests e.append else w.ledger)
      {said : Except String Json} (hsaid : said.isOk = answer.isOk) :
      Outcome parse json w e pool ledger said

variable {pool : McpPool} {said : Except String Json}

theorem outcome_of_externalCall
    (h : externalCall parse json w.pool w.ledger e = some (pool, ledger, said)) :
    Outcome parse json w e pool ledger said := by
  rw [externalCall] at h
  cases hcall : callOf e.args with
  | error text =>
    rw [hcall] at h
    cases Option.some.inj h
    exact .unwritten (McpPool.greets_of_eq rfl) (fun call pool' client hok => by rw [hcall] at hok; cases hok)
  | ok call =>
    rw [hcall] at h
    dsimp only at h
    split at h
    · cases h
    · next mid err hclient =>
      cases Option.some.inj h
      refine .unwritten (McpPool.greets_client hclient).1 (fun call' pool' client hok hclient' => ?_)
      obtain rfl := Except.ok.inj (hcall.symm.trans hok)
      rw [hclient] at hclient'
      cases Option.some.inj hclient'
    · next mid client hclient =>
      obtain ⟨hgreets, hname⟩ := McpPool.greets_client hclient
      split at h
      · cases h
      · next pool' err htool =>
        cases Option.some.inj h
        rcases McpPool.callTool_eq htool with ⟨err', hwrite, hsent, -⟩ | ⟨hwrite, hsent, answer, rest, hread, hresult⟩
        · refine .unwritten (hgreets.trans (McpPool.greets_of_eq hsent)) (fun _ _ _ _ _ => ?_)
          rw [hwrite]
          exact Option.some_ne_none _
        · rw [hname client rfl] at hsent
          cases answer with
          | ok msg => cases hresult
          | error err' =>
            exact .answered hcall hclient hwrite hread hgreets hsent (if_neg Bool.false_ne_true).symm rfl
      · next pool' text htool =>
        cases Option.some.inj h
        rcases McpPool.callTool_eq htool with ⟨err', -, -, hresult⟩ | ⟨hwrite, hsent, answer, rest, hread, hresult⟩
        · cases hresult
        · rw [hname client rfl] at hsent
          cases answer with
          | error err' => cases hresult
          | ok msg =>
            exact .answered hcall hclient hwrite hread hgreets hsent (if_pos rfl).symm rfl

theorem answered_of_none (h : externalCall parse json w.pool w.ledger e = none) :
    w.Answered parse e := by
  intro call pool client hcall hclient hwrite answer rest hread
  rw [externalCall, hcall] at h
  dsimp only at h
  rw [hclient] at h
  dsimp only at h
  have htool : pool.callTool parse client call.tool call.arguments e.outside ≠ none := by
    rw [McpPool.callTool]
    rw [hwrite]
    rw [hread]
    exact Option.some_ne_none _
  split at h
  · next hnone => exact absurd hnone htool
  · cases h
  · cases h

def recordOf (w : World) (e : Event) (pool : McpPool) (ledger : LedgerWorld) (said : Except String Json) :
    CallRecord :=
  ⟨e.args, pool.sent.drop w.pool.sent.length, ledger.returned.drop w.ledger.returned.length,
    e.append.isSome, said⟩

theorem requests_of_greets {pool mid : McpPool} {m : String × Json} (hgreets : w.pool.Greets mid)
    (hsent : pool.sent = mid.sent ++ [m]) : m ∈ pool.sent.drop w.pool.sent.length := by
  obtain ⟨handshake, hmid, -⟩ := hgreets
  rw [hsent, hmid, append_assoc, drop_left]
  exact mem_append_right _ mem_cons_self

theorem returned_answered (hl : w.ledger.ledgers[0]? = some l) (call : Call) (ok : Bool) :
    (if ok then appendTo json w.ledger call.digests e.append else w.ledger).returned
      = w.ledger.returned ++
        if ok = true ∧ e.append = none then [(l.chain.append call.digests).2] else [] := by
  cases ok with
  | false =>
    rw [if_neg Bool.false_ne_true, if_neg (fun h => Bool.false_ne_true h.1), append_nil]
  | true =>
    rw [if_pos rfl]
    cases happend : e.append with
    | none => rw [returned_append hl, if_pos ⟨rfl, rfl⟩]
    | some written =>
      rw [returned_appendFails, if_neg (fun h => Option.some_ne_none _ h.2), append_nil]

structure Leaves (parse : Parser) (w : World) (e : Event) (c : CallRecord) : Prop where
  belongs : ∀ r ∈ c.receipts, ∃ call, callOf c.args = .ok call ∧ c.Requested call ∧ ReceiptOf r call
  receipted : c.Receipted ↔ w.Answered parse e

/-- **A call that has written its request leaves a receipt exactly if it is answered and the append goes
through.** -/
theorem leaves_of_outcome (hopen : w.Open) (h : Outcome parse json w e pool ledger said) :
    ledger.returned = w.ledger.returned ++ (recordOf w e pool ledger said).receipts ∧
      Leaves parse w e (recordOf w e pool ledger said) := by
  obtain ⟨l, hl⟩ := hopen
  cases h with
  | @unwritten _ text greets never =>
    have hnone : (recordOf w e pool w.ledger (.error text)).receipts = [] := drop_length
    refine ⟨by rw [hnone, append_nil], ⟨fun r hr => ?_, ?_⟩⟩
    · rw [hnone] at hr
      cases hr
    · refine ⟨fun _ call pool' client hcall hclient hwrite => absurd hwrite (never _ _ _ hcall hclient),
        fun _ => ?_⟩
      rintro ⟨m, hm, hcall⟩
      obtain ⟨handshake, hsent, hgreets⟩ := greets
      have hm' : m ∈ pool.sent.drop w.pool.sent.length := hm
      rw [hsent, drop_left] at hm'
      exact absurd hcall (hgreets m hm')
  | @answered call mid _ client answer rest hcall hclient hwrite hread greets hsent _ hledger _ hsaid =>
    have hadds := @returned_answered json w e l hl call answer.isOk
    rw [← hledger] at hadds
    have hreceipts : (recordOf w e pool ledger said).receipts
        = if answer.isOk = true ∧ e.append = none then [(l.chain.append call.digests).2] else [] := by
      show ledger.returned.drop w.ledger.returned.length = _
      rw [hadds, drop_left]
    have hrequested : (recordOf w e pool ledger said).Requested call :=
      ⟨client.nextId, requests_of_greets greets hsent⟩
    refine ⟨by rw [hadds, hreceipts], ⟨fun r hr => ?_, ?_⟩⟩
    · rw [hreceipts] at hr
      split_ifs at hr with hgood
      · rw [mem_singleton.mp hr]
        exact ⟨call, hcall, hrequested, rfl, rfl⟩
      · cases hr
    · constructor
      · intro h call' pool' client' hcall' hclient' _ answer' rest' hread'
        obtain rfl := Except.ok.inj (hcall.symm.trans hcall')
        obtain ⟨rfl, hc⟩ := Prod.mk.inj (Option.some.inj (hclient.symm.trans hclient'))
        obtain rfl := Except.ok.inj hc
        obtain ⟨rfl, rfl⟩ := Prod.mk.inj (Option.some.inj (hread.symm.trans hread'))
        obtain ⟨_, _, _, hkept⟩ := h ⟨_, requests_of_greets greets hsent, isCall_callBody _ _ _⟩
        rcases hkept with ⟨r, hr, -⟩ | ⟨hfails, text, htext⟩
        · rw [hreceipts] at hr
          split_ifs at hr with hgood
          exact ⟨fun _ => hgood.2, fun _ => hgood.1⟩
        · have hfails' : e.append.isSome = true := hfails
          have htext' : said = .error text := htext
          rw [htext'] at hsaid
          constructor
          · intro hok
            rw [hok] at hsaid
            cases hsaid
          · intro hnone
            rw [hnone] at hfails'
            cases hfails'
      · intro hans _
        have hiff := hans call mid client hcall hclient hwrite answer rest hread
        refine ⟨call, hcall, hrequested, ?_⟩
        by_cases hok : answer.isOk = true
        · refine Or.inl ⟨(l.chain.append call.digests).2, ?_, rfl, rfl⟩
          rw [hreceipts, if_pos ⟨hok, hiff.mp hok⟩]
        · have hfails : e.append ≠ none := fun hnone => hok (hiff.mpr hnone)
          refine Or.inr ⟨Option.isSome_iff_ne_none.mpr hfails, ?_⟩
          cases hwhat : said with
          | error text => exact ⟨text, rfl⟩
          | ok value =>
            rw [hwhat] at hsaid
            exact absurd hsaid.symm hok

theorem open_of_outcome (hopen : w.Open) (h : Outcome parse json w e pool ledger said) :
    ∃ l, ledger.ledgers[0]? = some l := by
  cases h with
  | unwritten greets never => exact hopen
  | @answered call _ _ _ answer _ _ _ _ _ _ _ _ hledger _ _ =>
    obtain ⟨l, hl⟩ := hopen
    rw [hledger]
    split_ifs
    · exact open_appendTo hl _ _
    · exact ⟨l, hl⟩

/-! ### Runs -/

/-- **A step adds the record of a call, or none.** -/
theorem World.step_cases (parse : Parser) (json : Jsonl.Codec EffectReceipt) (hopen : w.Open) (e : Event) :
    (w.step parse json e).1.Open ∧
      ((w.step parse json e).1 = w ∧ w.Answered parse e ∨
        ∃ c, (w.step parse json e).1.calls = w.calls ++ [c] ∧ Leaves parse w e c ∧
          (w.step parse json e).1.ledger.returned = w.ledger.returned ++ c.receipts) := by
  rw [World.step]
  cases h : externalCall parse json w.pool w.ledger e with
  | none => exact ⟨hopen, Or.inl ⟨rfl, answered_of_none h⟩⟩
  | some out =>
    obtain ⟨pool, ledger, said⟩ := out
    have houtcome := outcome_of_externalCall h
    obtain ⟨hreturned, hleaves⟩ := leaves_of_outcome hopen houtcome
    exact ⟨open_of_outcome hopen houtcome,
      Or.inr ⟨recordOf w e pool ledger said, rfl, hleaves, hreturned⟩⟩

theorem World.ReceiptsBelong.step {before : List EffectReceipt} (h : w.ReceiptsBelong before)
    (hopen : w.Open) (e : Event) : (w.step parse json e).1.ReceiptsBelong before := by
  rcases (World.step_cases parse json hopen e).2 with ⟨hstay, -⟩ | ⟨c, hcalls, hleaves, hreturned⟩
  · rw [hstay]
    exact h
  · refine ⟨?_, fun c' hc' => ?_⟩
    · rw [hreturned, hcalls, h.1, flatMap_append, append_assoc, flatMap_singleton]
    · rw [hcalls] at hc'
      rcases mem_append.mp hc' with hc' | hc'
      · exact h.2 c' hc'
      · rw [mem_singleton.mp hc']
        exact hleaves.belongs

theorem World.receipted_iff (parse : Parser) (json : Jsonl.Codec EffectReceipt) (events : List Event) :
    ∀ w : World, w.Open → ((∀ c ∈ (run (World.step parse json) w events).calls, c.Receipted) ↔
      (∀ c ∈ w.calls, c.Receipted) ∧ Admits (World.step parse json) (World.Answered parse) w events) := by
  induction events with
  | nil => exact fun w _ => (and_iff_left trivial).symm
  | cons e events ih =>
    intro w hopen
    obtain ⟨hopen', hcases⟩ := World.step_cases parse json hopen e
    rw [run_cons, ih _ hopen', Admits, ← and_assoc]
    refine and_congr_left (fun _ => ?_)
    rcases hcases with ⟨hstay, hans⟩ | ⟨c, hcalls, hleaves, -⟩
    · rw [hstay]
      exact (and_iff_left hans).symm
    · rw [hcalls, ← hleaves.receipted]
      constructor
      · intro h
        exact ⟨fun c' hc' => h c' (mem_append_left _ hc'), h c (mem_append_right _ mem_cons_self)⟩
      · rintro ⟨hold, hnew⟩ c' hc'
        rcases mem_append.mp hc' with hc' | hc'
        · exact hold c' hc'
        · rw [mem_singleton.mp hc']
          exact hnew

theorem World.digestsTell_iff (w : World) : w.DigestsTell ↔ w.TextsTell := by
  constructor
  · intro h c hc c' hc' call call' hcall hcall' hbytes
    exact h c hc c' hc' call call' hcall hcall' (fun _ => hbytes) (congrArg Sha256.hex hbytes)
  · intro h c hc c' hc' call call' hcall hcall' hfree hdigest
    exact h c hc c' hc' call call' hcall hcall' (hfree hdigest)

example : (Call.mk "ab" "c" .null).digest = (Call.mk "a" "bc" .null).digest := rfl

/-- **Every receipt belongs to a request; every request has its receipt exactly in the runs in which the
servers answer and the appends go through; and digests tell calls apart exactly if their texts do.** -/
theorem external_calls_run (parse : Parser) (json : Jsonl.Codec EffectReceipt)
    (servers : OrdMap String ExternalServer) (file : Option (List UInt8)) (ledger : Ledger)
    (returned : List EffectReceipt) (events : List Event) :
    (run (World.step parse json) (.start servers file ledger returned) events).ReceiptsBelong returned ∧
    ((∀ c ∈ (run (World.step parse json) (.start servers file ledger returned) events).calls, c.Receipted) ↔
      Admits (World.step parse json) (World.Answered parse) (.start servers file ledger returned) events) ∧
    ((run (World.step parse json) (.start servers file ledger returned) events).DigestsTell ↔
      (run (World.step parse json) (.start servers file ledger returned) events).TextsTell) := by
  have hopen : (World.start servers file ledger returned).Open := ⟨ledger, rfl⟩
  refine ⟨?_, ?_, World.digestsTell_iff _⟩
  · have hpath := @path_run _ _ _ (World.step parse json) (.start servers file ledger returned) events
    have hinv := hpath.invariant (I := fun w => w.Open ∧ w.ReceiptsBelong returned)
      ⟨hopen, (append_nil _).symm, fun c hc => by cases hc⟩
      (fun w e hw _ => ⟨(World.step_cases parse json hw.1 e).1, hw.2.step hw.1 e⟩)
    exact hinv.2
  · rw [World.receipted_iff parse json events _ hopen]
    exact and_iff_right (fun c hc => by cases hc)

/-- A server that answers the handshake, and a call with an error. -/
def refusing : Outside where
  process := none
  helloWrite := none
  notifyWrite := none
  requestWrite := none
  arrives := [.line "\x7b\"id\":1,\"result\":\x7b\x7d\x7d", .line "\x7b\"id\":2,\"error\":\x7b\x7d\x7d"]

def refusingParse : Parser := fun l =>
  if l = "\x7b\"id\":1,\"result\":\x7b\x7d\x7d" then some (.obj [("id", .num 1), ("result", .obj [])])
  else if l = "\x7b\"id\":2,\"error\":\x7b\x7d\x7d" then some (.obj [("id", .num 2), ("error", .obj [])])
  else none

/-- The call that is answered with an error has no receipt. -/
theorem external_call_unreceipted : ¬ ∀ (parse : Parser) (json : Jsonl.Codec EffectReceipt)
    (servers : OrdMap String ExternalServer) (events : List Event),
    ∀ c ∈ (run (World.step parse json) (.start servers none ⟨⟨[]⟩⟩ []) events).calls, c.Receipted := by
  intro h
  have hreceipted := h refusingParse LedgerWorld.receiptJson (.ofList [("files", ⟨"files", "serve", []⟩)])
    [⟨.obj [("server", .str "files"), ("tool", .str "delete")], refusing, none⟩]
  have hcall : (run (World.step refusingParse LedgerWorld.receiptJson)
      (.start (.ofList [("files", ⟨"files", "serve", []⟩)]) none ⟨⟨[]⟩⟩ [])
      [⟨.obj [("server", .str "files"), ("tool", .str "delete")], refusing, none⟩]).calls.any
      (fun c => c.requests.any (fun m => decide ((m.2.field "method").bind Json.asStr = some "tools/call"))
        && c.receipts.isEmpty && !c.fails) = true := by decide +kernel
  obtain ⟨c, hc, hbad⟩ := any_eq_true.mp hcall
  rw [Bool.and_eq_true, Bool.and_eq_true, any_eq_true] at hbad
  obtain ⟨⟨⟨m, hm, hmethod⟩, hnone⟩, hwrites⟩ := hbad
  have hrequest : (m.2.field "method").bind Json.asStr = some "tools/call" := of_decide_eq_true hmethod
  obtain ⟨_, _, _, hkept⟩ := hreceipted c hc ⟨m, hm, hrequest⟩
  rcases hkept with ⟨r, hr, -⟩ | ⟨hfails, -⟩
  · rw [hr] at hnone
    cases hnone
  · rw [hfails] at hwrites
    cases hwrites

end ExternalCalls

end Modbit
