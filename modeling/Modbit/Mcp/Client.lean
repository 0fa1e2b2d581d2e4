import Modbit.Lib.Json
import Modbit.Lib.OrdMap
import Modbit.Lib.Text
import Mathlib.Data.String.Basic

/-!
# The client of external tool servers

`crates/mcp`: a pool of servers that are started on first use and spoken to over their standard
streams, one JSON-RPC message a line.  `readResponse` reads lines until one is the answer to a
request, and `callTool` is one tools/call.

What a server writes is given as the list of what reading from it yields.  Where the list ends and no
answer has come, the client is still waiting, and a function that reads has no result.
-/

namespace Modbit

open Lib List

namespace Mcp

inductive McpError where
  | spawn (e : String)
  | io (e : String)
  | protocol (e : String)
  | closed
  deriving DecidableEq

def McpError.text : McpError → String
  | .spawn e => "mcp spawn failed: " ++ e
  | .io e => "mcp io: " ++ e
  | .protocol e => "mcp protocol: " ++ e
  | .closed => "mcp server closed the stream"

/-- What `read_line` yields. -/
inductive Incoming where
  | line (text : String)
  | closed
  | failed (e : String)
  deriving DecidableEq

structure ExternalServer where
  name : String
  command : String
  args : List String
  deriving DecidableEq

structure McpClient where
  /-- What has come from the server and has not been read. -/
  reader : List Incoming
  nextId : Nat
  serverName : String
  serverVersion : String
  deriving DecidableEq

structure McpPool where
  servers : OrdMap String ExternalServer
  clients : List McpClient
  /-- The messages that were written, each with the name of the server. -/
  sent : List (String × Json)

/-- What the outside does during a call: whether the server's process can be started, whether the
messages can be written, and what the server writes. -/
structure Outside where
  process : Option String
  helloWrite : Option String
  notifyWrite : Option String
  requestWrite : Option String
  arrives : List Incoming

/-- `serde_json::from_str(line.trim())`. -/
abbrev Parser := String → Option Json

/-! ### Messages -/

def messageOf (err : Json) (fallback : String) : String :=
  ((err.field "message").bind Json.asStr).getD fallback

def helloBody (id : Nat) : Json :=
  .obj [("jsonrpc", .str "2.0"), ("id", .num id), ("method", .str "initialize"),
    ("params", .obj [("protocolVersion", .str "2024-11-05"), ("capabilities", .obj []),
      ("clientInfo", .obj [("name", .str "modbit-core"), ("version", .str "0.1.0")])])]

def notifyBody : Json :=
  .obj [("jsonrpc", .str "2.0"), ("method", .str "notifications/initialized")]

def callBody (id : Nat) (tool : String) (arguments : Json) : Json :=
  .obj [("jsonrpc", .str "2.0"), ("id", .num id), ("method", .str "tools/call"),
    ("params", .obj [("name", .str tool), ("arguments", arguments)])]

def IsCall (body : Json) : Prop := (body.field "method").bind Json.asStr = some "tools/call"

/-- Lines until the answer to a request, and what is left after it. -/
def readResponse (parse : Parser) (id : Nat) :
    List Incoming → Option (Except McpError Json × List Incoming)
  | [] => none
  | .closed :: rest => some (.error .closed, .closed :: rest)
  | .failed e :: rest => some (.error (.io e), rest)
  | .line l :: rest =>
    match parse l with
    | none => readResponse parse id rest
    | some msg =>
      -- notification
      if (msg.field "method").isSome then readResponse parse id rest
      else if (msg.field "id").bind Json.asNat = some id then
        match msg.field "error" with
        | some err => some (.error (.protocol (messageOf err "server error")), rest)
        | none => some (.ok msg, rest)
      else readResponse parse id rest

def contentText (msg : Json) : String :=
  match (msg.field "result").bind (Json.field "content") with
  | some (.arr items) =>
    "\n".intercalate (items.filterMap (fun item =>
      if (item.field "type").bind Json.asStr = some "text" then (item.field "text").bind Json.asStr
      else none))
  | _ => ""

/-- The last part of `call_tool`. -/
def resultOf (msg : Json) : Except McpError String :=
  match msg.field "error" with
  | some err => .error (.protocol (messageOf err "tools/call failed"))
  | none => .ok (contentText msg)

namespace McpPool

variable (parse : Parser) (pool : McpPool)

def find (name : String) : Option McpClient := pool.clients.find? (fun c => c.serverName = name)

def put (client : McpClient) : McpPool :=
  { pool with
    clients := pool.clients.map (fun c => if c.serverName = client.serverName then client else c) }

def send (name : String) (body : Json) : McpPool := { pool with sent := pool.sent ++ [(name, body)] }

/-- `McpClient::spawn` with its handshake; a client whose handshake fails is killed. -/
def spawn (spec : ExternalServer) (name : String) (out : Outside) :
    Option (McpPool × Except McpError McpClient) :=
  match Text.splitWhitespace spec.command with
  | [] => some (pool, .error (.spawn "empty command"))
  | program :: _ =>
    match out.process with
    | some e => some (pool, .error (.spawn (program ++ ": " ++ e)))
    | none =>
    match out.helloWrite with
    | some e => some (pool, .error (.io e))
    | none =>
      let pool := pool.send name (helloBody 1)
      match readResponse parse 1 out.arrives with
      | none => none
      | some (.error e, _) => some (pool, .error e)
      | some (.ok msg, rest) =>
        let version := match (msg.field "result").bind (Json.field "serverInfo") with
          | some info => ((info.field "version").bind Json.asStr).getD ""
          | none => ""
        match out.notifyWrite with
        | some e => some (pool, .error (.io e))
        | none => some (pool.send name notifyBody, .ok ⟨rest, 2, name, version⟩)

/-- `client`: the pool, and the client of the server, with what its server has written. -/
def client (name : String) (out : Outside) : Option (McpPool × Except McpError McpClient) :=
  match pool.find name with
  | some c => some (pool, .ok { c with reader := c.reader ++ out.arrives })
  | none =>
    match pool.servers.find? name with
    | none => some (pool, .error (.spawn ("unknown mcp server " ++ Text.debugStr name)))
    | some spec =>
      match pool.spawn parse spec name out with
      | none => none
      | some (pool, .error e) => some (pool, .error e)
      | some (pool, .ok c) => some ({ pool with clients := pool.clients ++ [c] }, .ok c)

/-- `call_tool` of a client of the pool. -/
def callTool (c : McpClient) (tool : String) (arguments : Json) (out : Outside) :
    Option (McpPool × Except McpError String) :=
  let id := c.nextId
  let c := { c with nextId := id + 1 }
  match out.requestWrite with
  | some e => some (pool.put c, .error (.io e))
  | none =>
    let pool := pool.send c.serverName (callBody id tool arguments)
    match readResponse parse id c.reader with
    | none => none
    | some (answer, rest) => some (pool.put { c with reader := rest }, answer.bind resultOf)

end McpPool

/-! ### What is read and written -/

variable {parse : Parser}

theorem field_error_of_readResponse {id : Nat} {msg : Json} : ∀ {stream rest : List Incoming},
    readResponse parse id stream = some (.ok msg, rest) → msg.field "error" = none := by
  intro stream
  induction stream with
  | nil =>
    intro rest h
    cases h
  | cons input stream ih =>
    intro rest h
    cases input with
    | closed => cases Option.some.inj h
    | failed e => cases Option.some.inj h
    | line l =>
      rw [readResponse] at h
      split at h
      · exact ih h
      · split_ifs at h
        · exact ih h
        · split at h
          · cases Option.some.inj h
          · next herror =>
            cases Option.some.inj h
            exact herror
        · exact ih h

theorem resultOf_of_readResponse {id : Nat} {msg : Json} {stream rest : List Incoming}
    (h : readResponse parse id stream = some (.ok msg, rest)) :
    resultOf msg = .ok (contentText msg) := by
  rw [resultOf, field_error_of_readResponse h]

theorem isCall_callBody (id : Nat) (tool : String) (arguments : Json) :
    IsCall (callBody id tool arguments) := rfl

theorem not_isCall_helloBody (id : Nat) : ¬ IsCall (helloBody id) := by
  intro h
  exact absurd (Option.some.inj h) (by decide)

theorem not_isCall_notifyBody : ¬ IsCall notifyBody := by
  intro h
  exact absurd (Option.some.inj h) (by decide)

namespace McpPool

variable {pool pool' : McpPool} {name : String} {out : Outside} {answer : Except McpError McpClient}

/-- Messages were written, none of them a request to call a tool. -/
def Greets (pool pool' : McpPool) : Prop :=
  ∃ handshake, pool'.sent = pool.sent ++ handshake ∧ ∀ m ∈ handshake, ¬ IsCall m.2

theorem greets_of_eq (h : pool'.sent = pool.sent) : pool.Greets pool' :=
  ⟨[], h.trans (append_nil _).symm, fun m hm => by cases hm⟩

theorem greets_send {body : Json} (h : ¬ IsCall body) : pool.Greets (pool.send name body) :=
  ⟨[(name, body)], rfl, fun m hm => by rw [mem_singleton.mp hm]; exact h⟩

theorem Greets.trans {pool'' : McpPool} (h : pool.Greets pool') (h' : pool'.Greets pool'') :
    pool.Greets pool'' := by
  obtain ⟨sent, hsent, hcalls⟩ := h
  obtain ⟨sent', hsent', hcalls'⟩ := h'
  refine ⟨sent ++ sent', by rw [hsent', hsent, append_assoc], fun m hm => ?_⟩
  rcases mem_append.mp hm with hm | hm
  · exact hcalls m hm
  · exact hcalls' m hm

theorem greets_spawn {spec : ExternalServer}
    (h : pool.spawn parse spec name out = some (pool', answer)) :
    pool.Greets pool' ∧ ∀ c, answer = .ok c → c.serverName = name := by
  have hhello : pool.Greets (pool.send name (helloBody 1)) := greets_send (not_isCall_helloBody 1)
  rw [spawn] at h
  split at h
  · obtain ⟨rfl, rfl⟩ := Prod.mk.inj (Option.some.inj h)
    exact ⟨greets_of_eq rfl, fun c hc => by cases hc⟩
  split at h
  · obtain ⟨rfl, rfl⟩ := Prod.mk.inj (Option.some.inj h)
    exact ⟨greets_of_eq rfl, fun c hc => by cases hc⟩
  split at h
  · obtain ⟨rfl, rfl⟩ := Prod.mk.inj (Option.some.inj h)
    exact ⟨greets_of_eq rfl, fun c hc => by cases hc⟩
  dsimp only at h
  split at h
  · cases h
  · obtain ⟨rfl, rfl⟩ := Prod.mk.inj (Option.some.inj h)
    exact ⟨hhello, fun c hc => by cases hc⟩
  · split at h
    · obtain ⟨rfl, rfl⟩ := Prod.mk.inj (Option.some.inj h)
      exact ⟨hhello, fun c hc => by cases hc⟩
    · obtain ⟨rfl, rfl⟩ := Prod.mk.inj (Option.some.inj h)
      exact ⟨hhello.trans (greets_send not_isCall_notifyBody), fun c hc => by cases hc; rfl⟩

/-- **Getting hold of a client writes nothing but a handshake.** -/
theorem greets_client (h : pool.client parse name out = some (pool', answer)) :
    pool.Greets pool' ∧ ∀ c, answer = .ok c → c.serverName = name := by
  rw [client] at h
  split at h
  · next c hfind =>
    obtain ⟨rfl, rfl⟩ := Prod.mk.inj (Option.some.inj h)
    refine ⟨greets_of_eq rfl, fun c' hc => ?_⟩
    obtain rfl := Except.ok.inj hc
    rw [find] at hfind
    have hname := find?_some hfind
    exact of_decide_eq_true hname
  · split at h
    · obtain ⟨rfl, rfl⟩ := Prod.mk.inj (Option.some.inj h)
      exact ⟨greets_of_eq rfl, fun c hc => by cases hc⟩
    · split at h
      · cases h
      · next hspawn =>
        obtain ⟨rfl, rfl⟩ := Prod.mk.inj (Option.some.inj h)
        exact ⟨(greets_spawn hspawn).1, fun c hc => by cases hc⟩
      · next hspawn =>
        obtain ⟨rfl, rfl⟩ := Prod.mk.inj (Option.some.inj h)
        obtain ⟨hgreets, hname⟩ := greets_spawn hspawn
        exact ⟨hgreets, fun c hc => hname c (by rw [Except.ok.inj hc])⟩

/-- **A tool call writes its request, unless it cannot be written, and then has an answer that is a
result if what was read is one.** -/
theorem callTool_eq {c : McpClient} {tool : String} {arguments : Json}
    {result : Except McpError String} (h : pool.callTool parse c tool arguments out = some (pool', result)) :
    (∃ e, out.requestWrite = some e ∧ pool'.sent = pool.sent ∧ result = .error (.io e)) ∨
    (out.requestWrite = none ∧
      pool'.sent = pool.sent ++ [(c.serverName, callBody c.nextId tool arguments)] ∧
      ∃ answer rest, readResponse parse c.nextId c.reader = some (answer, rest) ∧
        result = answer.map contentText) := by
  rw [callTool] at h
  split at h
  · next e hwrite =>
    obtain ⟨rfl, rfl⟩ := Prod.mk.inj (Option.some.inj h)
    exact Or.inl ⟨e, hwrite, rfl, rfl⟩
  · next hwrite =>
    split at h
    · cases h
    · next answer rest hread =>
      obtain ⟨rfl, rfl⟩ := Prod.mk.inj (Option.some.inj h)
      refine Or.inr ⟨hwrite, rfl, answer, rest, hread, ?_⟩
      cases answer with
      | error e => rfl
      | ok msg => exact resultOf_of_readResponse hread

end McpPool

end Mcp

end Modbit
