import Modbit.Lib.Fallible
import Modbit.Lib.Sha256
import Modbit.Protocol.Frames

/-!
# The handshake

The server sends a nonce, the client answers with a nonce of its own, its version and a keyed hash
of both nonces and the version, and the server replies with what was negotiated.  In between every
frame may be dropped, altered or taken from another connection.

The state of the network is the list of connections and the proofs computed with the secret so far.
`Allowed` is what the hash and the random numbers are relied on for: a `Hello` verifies only over
bytes that someone with the secret has hashed, and a server nonce is not drawn twice.

`accepted_versions` says that the version is always one that was hashed, and `handshake_law` when
the rest is: the hashed bytes have no mark between the nonces, and the two ends of a connection
work out their result in different ways.
-/

namespace Modbit

open Lib List

namespace Transport

def nonceLen : Nat := 16

def serverVersion : String := "modbit-core 0.1.0"

/-- What `random_nonce` draws. -/
def Nonce : Type := { bytes : List UInt8 // bytes.length = nonceLen }

instance : DecidableEq Nonce :=
  inferInstanceAs (DecidableEq { bytes : List UInt8 // bytes.length = nonceLen })

structure BootSecret where
  bytes : List UInt8
  length_bytes : bytes.length = 32

/-- `PROTOCOL_MAJOR` and `PROTOCOL_MINOR` of one build. -/
structure Build where
  protocolMajor : UInt32
  protocolMinor : UInt32
  deriving DecidableEq

/-! ### Messages -/

structure Hello where
  proof : List UInt8
  clientNonce : List UInt8
  major : UInt32
  minor : UInt32
  deriving DecidableEq

structure AuthResult where
  ok : Bool
  readOnly : Bool
  negotiatedMajor : UInt32
  negotiatedMinor : UInt32
  serverVersion : String
  error : String
  deriving DecidableEq

structure Connection where
  readOnly : Bool
  negotiated : UInt32 × UInt32
  deriving DecidableEq

/-- What `read_frame` and then the decoder make of the next frame. -/
abbrev Arrival (α : Type) : Type := Except TransportError (Except String α)

def decoded {α : Type} (message : String) : Arrival α → Except TransportError α
  | .error e => .error e
  | .ok (.error e) => .error (.protocol ("bad " ++ message ++ ": " ++ e))
  | .ok (.ok m) => .ok m

/-! ### The two ends -/

/-- The bytes the proof is computed over, in the order they are fed to the hash. -/
def proofBytes (serverNonce clientNonce : List UInt8) (major minor : UInt32) : List UInt8 :=
  serverNonce ++ clientNonce ++ toBeBytes major ++ toBeBytes minor

def BootSecret.hmacProof (secret : BootSecret) (serverNonce clientNonce : List UInt8)
    (major minor : UInt32) : List UInt8 :=
  Sha256.hmac secret.bytes (proofBytes serverNonce clientNonce major minor)

/-- `mac.verify_slice` over what the server reads. -/
def BootSecret.Verifies (secret : BootSecret) (serverNonce : Nonce) (hello : Hello) : Prop :=
  hello.proof = secret.hmacProof serverNonce.val hello.clientNonce hello.major hello.minor

instance (secret : BootSecret) (serverNonce : Nonce) (hello : Hello) :
    Decidable (secret.Verifies serverNonce hello) := inferInstanceAs (Decidable (_ = _))

def rejection : AuthResult :=
  ⟨false, false, 0, 0, serverVersion, "boot secret proof mismatch"⟩

def acceptance (build : Build) (hello : Hello) : AuthResult :=
  ⟨true, hello.major ≠ build.protocolMajor, build.protocolMajor,
    min hello.minor build.protocolMinor, serverVersion, ""⟩

/-- `handshake_stream` once the challenge is out: the reply it writes, how that ends, and what it
returns. -/
def handshakeStream (secret : BootSecret) (build : Build) (serverNonce : Nonce)
    (arrived : Arrival Hello) (wrote : Except TransportError Unit) :
    Option AuthResult × Except TransportError (Bool × Bool × (UInt32 × UInt32)) :=
  match decoded "Hello" arrived with
  | .error e => (none, .error e)
  | .ok hello =>
    if secret.Verifies serverNonce hello then
      let result := acceptance build hello
      (some result, wrote.map (fun _ =>
        (true, result.readOnly, (result.negotiatedMajor, result.negotiatedMinor))))
    else (some rejection, match wrote with
      | .error e => .error e
      | .ok () => .error (.authRejected "boot secret proof mismatch"))

/-- The answer to a challenge, as both client paths compute it. -/
def answerWith (secret : BootSecret) (major minor : UInt32) (serverNonce : List UInt8)
    (clientNonce : Nonce) : Hello :=
  ⟨secret.hmacProof serverNonce clientNonce.val major minor, clientNonce.val, major, minor⟩

/-- How `over_stream` ends. -/
def overStream (build : Build) (result : AuthResult) : Except TransportError Connection :=
  if !result.ok then .error (.authRejected result.error)
  else .ok ⟨false, (build.protocolMajor, result.negotiatedMinor)⟩

/-- How `connect_with_version` ends. -/
def connectWithVersion (result : AuthResult) : Except TransportError Connection :=
  if !result.ok then .error (.authRejected result.error)
  else .ok ⟨result.readOnly, (result.negotiatedMajor, result.negotiatedMinor)⟩

/-- The client's path, with the version it announces. -/
inductive Client where
  | overStream (build : Build)
  | connectWithVersion (major minor : UInt32)
  deriving DecidableEq

def Client.major : Client → UInt32
  | .overStream build => build.protocolMajor
  | .connectWithVersion major _ => major

def Client.minor : Client → UInt32
  | .overStream build => build.protocolMinor
  | .connectWithVersion _ minor => minor

def Client.answer (client : Client) (secret : BootSecret) (serverNonce : List UInt8)
    (clientNonce : Nonce) : Hello :=
  answerWith secret client.major client.minor serverNonce clientNonce

def Client.finish : Client → AuthResult → Except TransportError Connection
  | .overStream build, result => Transport.overStream build result
  | .connectWithVersion _ _, result => Transport.connectWithVersion result

/-- `connect`: the version of the client's own build. -/
def Client.connect (build : Build) : Client :=
  .connectWithVersion build.protocolMajor build.protocolMinor

/-! ### The network -/

/-- One connection: the two ends, and what each of them has read and made of it. -/
structure Link where
  build : Build
  serverNonce : Nonce
  client : Client
  /-- The client's answer, or why it gave up before. -/
  answered : Option (Except TransportError Hello)
  /-- The `Hello` the server decoded. -/
  heard : Option Hello
  /-- The reply it wrote. -/
  replied : Option AuthResult
  served : Option (Except TransportError (Bool × Bool × (UInt32 × UInt32)))
  /-- The `AuthResult` the client decoded. -/
  told : Option AuthResult
  connected : Option (Except TransportError Connection)

structure Proof where
  serverNonce : List UInt8
  clientNonce : Nonce
  major : UInt32
  minor : UInt32

def Proof.bytes (p : Proof) : List UInt8 :=
  proofBytes p.serverNonce p.clientNonce.val p.major p.minor

structure Network where
  links : List Link
  /-- Every proof that was computed with the secret. -/
  proofs : List Proof

def Network.quiet : Network := ⟨[], []⟩

/-- A connection is opened, or one end of the `i`-th connection reads a frame that may be
anything. -/
inductive Move where
  | opened (build : Build) (serverNonce : Nonce) (client : Client)
  | challenge (i : Nat) (arrived : Arrival (List UInt8)) (nonce : Except TransportError Nonce)
      (wrote : Except TransportError Unit)
  | hello (i : Nat) (arrived : Arrival Hello) (wrote : Except TransportError Unit)
  | result (i : Nat) (arrived : Arrival AuthResult)

/-- The two nonces of an answer: the challenge that arrived and the number drawn. -/
def drawn (arrived : Arrival (List UInt8)) (nonce : Except TransportError Nonce) :
    Except TransportError (List UInt8 × Nonce) :=
  (decoded "Challenge" arrived).bind (fun challenge => nonce.map (fun n => (challenge, n)))

def Link.challenge (secret : BootSecret) (link : Link) (arrived : Arrival (List UInt8))
    (nonce : Except TransportError Nonce) (wrote : Except TransportError Unit) : Link :=
  match link.answered with
  | some _ => link
  | none => { link with answered := some ((drawn arrived nonce).bind (fun d =>
      wrote.map (fun _ => link.client.answer secret d.1 d.2))) }

def Link.proofs (link : Link) (arrived : Arrival (List UInt8))
    (nonce : Except TransportError Nonce) : List Proof :=
  match link.answered, drawn arrived nonce with
  | none, .ok d => [⟨d.1, d.2, link.client.major, link.client.minor⟩]
  | _, _ => []

def Link.hello (secret : BootSecret) (link : Link) (arrived : Arrival Hello)
    (wrote : Except TransportError Unit) : Link :=
  match link.served with
  | some _ => link
  | none =>
    let r := handshakeStream secret link.build link.serverNonce arrived wrote
    { link with heard := (decoded "Hello" arrived).toOption, replied := r.1, served := some r.2 }

def Link.result (link : Link) (arrived : Arrival AuthResult) : Link :=
  match link.answered, link.connected with
  | some (.ok _), none =>
    { link with told := (decoded "AuthResult" arrived).toOption,
                connected := some ((decoded "AuthResult" arrived).bind link.client.finish) }
  | _, _ => link

def step (secret : BootSecret) (net : Network) : Move → Network × Unit
  | .opened build serverNonce client =>
    (⟨net.links ++ [⟨build, serverNonce, client, none, none, none, none, none, none⟩], net.proofs⟩, ())
  | .challenge i arrived nonce wrote =>
    (⟨net.links.modify i (fun link => link.challenge secret arrived nonce wrote),
      net.proofs ++ (net.links[i]?.elim [] (fun link => link.proofs arrived nonce))⟩, ())
  | .hello i arrived wrote =>
    (⟨net.links.modify i (fun link => link.hello secret arrived wrote), net.proofs⟩, ())
  | .result i arrived => (⟨net.links.modify i (fun link => link.result arrived), net.proofs⟩, ())

/-- A server nonce is drawn once, and a `Hello` verifies over hashed bytes only. -/
def Allowed (secret : BootSecret) (net : Network) : Move → Prop
  | .opened _ serverNonce _ => ∀ link ∈ net.links, link.serverNonce ≠ serverNonce
  | .hello i arrived _ => ∀ link, net.links[i]? = some link → ∀ hello, arrived = .ok (.ok hello) →
      secret.Verifies link.serverNonce hello →
      ∃ p ∈ net.proofs,
        p.bytes = proofBytes link.serverNonce.val hello.clientNonce hello.major hello.minor
  | _ => True

/-! ### What the ends have made of their frames -/

section Invariant

variable {secret : BootSecret} {net : Network} {link : Link} {proofs : List Proof}

/-- What the server returns and what the client ends with come from the frames they read. -/
structure Link.Sound (link : Link) (proofs : List Proof) : Prop where
  served : ∀ out, link.served = some (.ok out) →
    ∃ hello, link.heard = some hello ∧ link.replied = some (acceptance link.build hello) ∧
      out = (true, (acceptance link.build hello).readOnly,
        ((acceptance link.build hello).negotiatedMajor,
          (acceptance link.build hello).negotiatedMinor)) ∧
      ∃ p ∈ proofs,
        p.bytes = proofBytes link.serverNonce.val hello.clientNonce hello.major hello.minor
  connected : ∀ c, link.connected = some (.ok c) →
    ∃ told, link.told = some told ∧ link.client.finish told = .ok c

theorem Link.Sound.mono {proofs' : List Proof} (h : link.Sound proofs)
    (hsub : ∀ p ∈ proofs, p ∈ proofs') : link.Sound proofs' := by
  refine ⟨fun out hout => ?_, h.connected⟩
  obtain ⟨hello, hheard, hreplied, hval, p, hp, hbytes⟩ := h.served out hout
  exact ⟨hello, hheard, hreplied, hval, p, hsub p hp, hbytes⟩

variable {wrote : Except TransportError Unit}

theorem handshakeStream_accepts {build : Build} {serverNonce : Nonce} {hello : Hello}
    (h : secret.Verifies serverNonce hello) :
    handshakeStream secret build serverNonce (.ok (.ok hello)) wrote
      = (some (acceptance build hello), wrote.map (fun _ => (true, (acceptance build hello).readOnly,
          ((acceptance build hello).negotiatedMajor,
            (acceptance build hello).negotiatedMinor)))) := if_pos h

theorem handshakeStream_rejects {build : Build} {serverNonce : Nonce} {hello : Hello}
    (h : ¬ secret.Verifies serverNonce hello)
    {out : Bool × Bool × (UInt32 × UInt32)} :
    (handshakeStream secret build serverNonce (.ok (.ok hello)) wrote).2 ≠ .ok out := by
  have hrej : handshakeStream secret build serverNonce (.ok (.ok hello)) wrote
      = (some rejection, match wrote with
        | .error e => .error e
        | .ok () => .error (.authRejected "boot secret proof mismatch")) := if_neg h
  rw [hrej]
  cases wrote with
  | error e => exact fun he => nomatch he
  | ok _ => exact fun he => nomatch he

theorem sound_challenge {arrived : Arrival (List UInt8)} {nonce : Except TransportError Nonce}
    (h : link.Sound proofs) :
    (link.challenge secret arrived nonce wrote).Sound proofs := by
  rw [Link.challenge]
  cases link.answered with
  | some _ => exact h
  | none => exact ⟨h.served, h.connected⟩

theorem sound_hello {arrived : Arrival Hello} (h : link.Sound proofs)
    (hallowed : ∀ hello, arrived = .ok (.ok hello) → secret.Verifies link.serverNonce hello →
      ∃ p ∈ proofs,
        p.bytes = proofBytes link.serverNonce.val hello.clientNonce hello.major hello.minor) :
    (link.hello secret arrived wrote).Sound proofs := by
  rw [Link.hello]
  cases link.served with
  | some _ => exact h
  | none =>
    refine ⟨fun out hout => ?_, h.connected⟩
    have hout := Option.some.inj hout
    match arrived, hallowed, hout with
    | .ok (.ok hello), hallowed, hout =>
      by_cases hver : secret.Verifies link.serverNonce hello
      · rw [handshakeStream_accepts hver] at hout
        obtain ⟨-, -, rfl⟩ := map_eq_ok.mp hout
        refine ⟨hello, rfl, ?_, rfl, hallowed hello rfl hver⟩
        exact congrArg Prod.fst (handshakeStream_accepts hver)
      · exact absurd hout (handshakeStream_rejects hver)

theorem sound_result {arrived : Arrival AuthResult} (h : link.Sound proofs) :
    (link.result arrived).Sound proofs := by
  rw [Link.result]
  split
  · refine ⟨h.served, fun c hc => ?_⟩
    obtain ⟨told, htold, hfin⟩ := bind_eq_ok.mp (Option.some.inj hc)
    refine ⟨told, ?_, hfin⟩
    rw [htold]
    rfl
  · exact h

/-- A property that a change of the `i`-th connection keeps. -/
theorem forall_modify {P : Link → Prop} {f : Link → Link} {i : Nat} {links : List Link}
    (h : ∀ link ∈ links, P link) (hf : ∀ link, links[i]? = some link → P (f link)) :
    ∀ link ∈ links.modify i f, P link := by
  intro link hl
  obtain ⟨j, hj⟩ := mem_iff_getElem?.mp hl
  rw [getElem?_modify] at hj
  obtain ⟨old, hold, hlink⟩ := Option.map_eq_some_iff.mp hj
  by_cases hij : i = j
  · subst hij
    rw [if_pos rfl] at hlink
    exact hlink ▸ hf old hold
  · rw [if_neg hij] at hlink
    exact hlink ▸ h old (mem_of_getElem? hold)

/-- **Every end in every run has its result from the frames it read.** -/
theorem sound_of_path (h : Path (step secret) (Allowed secret) .quiet net) :
    ∀ link ∈ net.links, link.Sound net.proofs := by
  refine h.invariant (I := fun net => ∀ link ∈ net.links, link.Sound net.proofs)
    (fun link hl => nomatch hl) (fun net move hnet hok => ?_)
  have hget : ∀ {i : Nat} {link : Link}, net.links[i]? = some link → link.Sound net.proofs :=
    fun hi => hnet _ (mem_of_getElem? hi)
  cases move with
  | opened build serverNonce client =>
    intro link hl
    rcases mem_append.mp hl with hl | hl
    · exact hnet link hl
    · rw [mem_singleton.mp hl]
      exact ⟨fun out hout => (nomatch hout), fun c hc => (nomatch hc)⟩
  | challenge i arrived nonce wrote =>
    have hsub : ∀ p ∈ net.proofs, p ∈ (step secret net (.challenge i arrived nonce wrote)).1.proofs :=
      fun p hp => mem_append_left _ hp
    exact forall_modify (fun link hl => (hnet link hl).mono hsub)
      (fun link hi => sound_challenge ((hget hi).mono hsub))
  | hello i arrived wrote =>
    exact forall_modify hnet (fun link hi => sound_hello (hget hi) (hok link hi))
  | result i arrived =>
    exact forall_modify hnet (fun link hi => sound_result (hget hi))

end Invariant

/-! ### The hashed bytes -/

section Bytes

variable {serverNonce serverNonce' clientNonce clientNonce' : List UInt8}
variable {major minor major' minor' : UInt32}

theorem toBeBytes_inj (h : toBeBytes major = toBeBytes major') : major = major' := by
  have hnat := congrArg fromBeBytes h
  rw [fromBeBytes_toBeBytes, fromBeBytes_toBeBytes] at hnat
  exact UInt32.toNat_inj.mp hnat

theorem version_of_proofBytes (h : proofBytes serverNonce clientNonce major minor
      = proofBytes serverNonce' clientNonce' major' minor') :
    serverNonce ++ clientNonce = serverNonce' ++ clientNonce' ∧ major = major' ∧ minor = minor' := by
  obtain ⟨hrest, hminor⟩ := append_inj' h (by rw [length_toBeBytes, length_toBeBytes])
  obtain ⟨hnonces, hmajor⟩ := append_inj' hrest (by rw [length_toBeBytes, length_toBeBytes])
  exact ⟨hnonces, toBeBytes_inj hmajor, toBeBytes_inj hminor⟩

end Bytes

/-! ### One connection -/

section Meeting

variable (secret : BootSecret) (build : Build) (serverNonce : Nonce) (client : Client)
variable (challenge : List UInt8) (clientNonce : Nonce) (hello : Hello) (told : AuthResult)

/-- A network with one connection, whose four frames are given. -/
def meeting : Network :=
  ⟨[⟨build, serverNonce, client, some (.ok (client.answer secret challenge clientNonce)), some hello,
      some (acceptance build hello),
      some (.ok (true, (acceptance build hello).readOnly,
        ((acceptance build hello).negotiatedMajor, (acceptance build hello).negotiatedMinor))),
      some told, some (client.finish told)⟩],
    [⟨challenge, clientNonce, client.major, client.minor⟩]⟩

theorem path_meeting (hproof : hello.proof = (client.answer secret challenge clientNonce).proof)
    (hbytes : proofBytes challenge clientNonce.val client.major client.minor
      = proofBytes serverNonce.val hello.clientNonce hello.major hello.minor) :
    Path (step secret) (Allowed secret) .quiet
      (meeting secret build serverNonce client challenge clientNonce hello told) := by
  have hver : secret.Verifies serverNonce hello :=
    hproof.trans (congrArg (Sha256.hmac secret.bytes) hbytes)
  let asked : Link := ⟨build, serverNonce, client, none, none, none, none, none, none⟩
  let waiting : Link :=
    { asked with answered := some (.ok (client.answer secret challenge clientNonce)) }
  have hopened : Path (step secret) (Allowed secret) .quiet ⟨[asked], []⟩ :=
    Path.tail .refl (Move.opened build serverNonce client) (fun link hl => (nomatch hl))
  have hanswered : Path (step secret) (Allowed secret) .quiet
      ⟨[waiting], [⟨challenge, clientNonce, client.major, client.minor⟩]⟩ :=
    hopened.tail (.challenge 0 (.ok (.ok challenge)) (.ok clientNonce) (.ok ())) trivial
  have hserved := hanswered.tail (.hello 0 (.ok (.ok hello)) (.ok ())) (by
    intro link hi hello' harr _
    cases hi
    cases harr
    exact ⟨_, mem_singleton.mpr rfl, hbytes⟩)
  have hend : waiting.hello secret (.ok (.ok hello)) (.ok ())
      = { waiting with
          heard := some hello
          replied := some (acceptance build hello)
          served := some (.ok (true, (acceptance build hello).readOnly,
            ((acceptance build hello).negotiatedMajor,
              (acceptance build hello).negotiatedMinor))) } := by
    rw [Link.hello]
    dsimp only [waiting, asked]
    rw [handshakeStream_accepts hver]
    rfl
  have htold := hserved.tail (.result 0 (.ok (.ok told))) trivial
  rw [show (step secret ⟨[waiting], _⟩ (.hello 0 (.ok (.ok hello)) (.ok ()))).1
    = ⟨[waiting.hello secret (.ok (.ok hello)) (.ok ())], _⟩ from rfl, hend] at htold
  exact htold

end Meeting

/-! ### What the two ends know of each other -/

section Law

variable {secret : BootSecret} {net : Network} {link : Link} {hello : Hello}

/-- The server took this `Hello`. -/
def Link.Accepted (link : Link) (hello : Hello) : Prop :=
  link.heard = some hello ∧ ∃ out, link.served = some (.ok out)

/-- Someone with the secret computed a proof for this connection's server nonce and for what the
server reads. -/
def Network.Proved (net : Network) (link : Link) (hello : Hello) : Prop :=
  ∃ p ∈ net.proofs, p.serverNonce = link.serverNonce.val ∧ p.clientNonce.val = hello.clientNonce ∧
    p.major = hello.major ∧ p.minor = hello.minor

/-- The two ends have the same `read_only` and the same version. -/
def Link.Agrees (link : Link) : Prop :=
  ∀ c out, link.connected = some (.ok c) → link.served = some (.ok out) →
    c.readOnly = out.2.1 ∧ c.negotiated = out.2.2

/-- What the frames have to say for the ends to agree: the reply arrives with the fields the
client copies, and where it does not copy them the majors are the server's. -/
def Client.Meets (client : Client) (build : Build) (hello : Hello) (told replied : AuthResult) :
    Prop :=
  match client with
  | .connectWithVersion _ _ => told.readOnly = replied.readOnly ∧
      told.negotiatedMajor = replied.negotiatedMajor ∧
      told.negotiatedMinor = replied.negotiatedMinor
  | .overStream own => own.protocolMajor = build.protocolMajor ∧ hello.major = build.protocolMajor ∧
      told.negotiatedMinor = replied.negotiatedMinor

theorem accepted_bytes (h : Path (step secret) (Allowed secret) .quiet net) (hl : link ∈ net.links)
    (hacc : link.Accepted hello) : ∃ p ∈ net.proofs,
      p.bytes = proofBytes link.serverNonce.val hello.clientNonce hello.major hello.minor := by
  obtain ⟨hheard, out, hout⟩ := hacc
  obtain ⟨hello', hheard', -, -, hp⟩ := (sound_of_path h link hl).served out hout
  cases hheard.symm.trans hheard'
  exact hp

theorem proved_iff (h : Path (step secret) (Allowed secret) .quiet net) (hl : link ∈ net.links)
    (hacc : link.Accepted hello) : net.Proved link hello ↔ hello.clientNonce.length = nonceLen := by
  constructor
  · rintro ⟨p, -, -, hclient, -, -⟩
    rw [← hclient]
    exact p.clientNonce.property
  · intro hlen
    obtain ⟨p, hp, hbytes⟩ := accepted_bytes h hl hacc
    obtain ⟨hnonces, hmajor, hminor⟩ := version_of_proofBytes hbytes
    obtain ⟨hserver, hclient⟩ := append_inj' hnonces (p.clientNonce.property.trans hlen.symm)
    exact ⟨p, hp, hserver, hclient, hmajor, hminor⟩

variable {told : AuthResult} {c : Connection}

theorem finish_overStream {build : Build} (h : (Client.overStream build).finish told = .ok c) :
    c = ⟨false, (build.protocolMajor, told.negotiatedMinor)⟩ := by
  rw [Client.finish, overStream] at h
  split_ifs at h
  exact (Except.ok.inj h).symm

theorem finish_connectWithVersion {major minor : UInt32}
    (h : (Client.connectWithVersion major minor).finish told = .ok c) :
    c = ⟨told.readOnly, (told.negotiatedMajor, told.negotiatedMinor)⟩ := by
  rw [Client.finish, connectWithVersion] at h
  split_ifs at h
  exact (Except.ok.inj h).symm

theorem meets_iff {client : Client} {build : Build} (h : client.finish told = .ok c) :
    (c.readOnly = (acceptance build hello).readOnly ∧
      c.negotiated = ((acceptance build hello).negotiatedMajor,
        (acceptance build hello).negotiatedMinor)) ↔
      client.Meets build hello told (acceptance build hello) := by
  cases client with
  | connectWithVersion major minor =>
    rw [finish_connectWithVersion h, Client.Meets, Prod.mk.injEq]
  | overStream own =>
    rw [finish_overStream h, Client.Meets, Prod.mk.injEq]
    have hread : (false = (acceptance build hello).readOnly) ↔ hello.major = build.protocolMajor := by
      rw [acceptance, eq_comm, decide_eq_false_iff_not, not_not]
    rw [hread]
    constructor
    · rintro ⟨hmajor, hown, hminor⟩
      exact ⟨hown, hmajor, hminor⟩
    · rintro ⟨hown, hmajor, hminor⟩
      exact ⟨hmajor, hown, hminor⟩

/-- **What an accepted handshake means.**  The proof was computed for this connection and this
`Hello` exactly if the client nonce has the length of a nonce, and the two ends agree exactly
if the frames meet what the client makes of them. -/
theorem handshake_law (h : Path (step secret) (Allowed secret) .quiet net)
    (hl : link ∈ net.links) (hacc : link.Accepted hello) :
    (net.Proved link hello ↔ hello.clientNonce.length = nonceLen) ∧
    ∀ c told replied, link.connected = some (.ok c) → link.told = some told →
      link.replied = some replied →
      (link.Agrees ↔ link.client.Meets link.build hello told replied) := by
  refine ⟨proved_iff h hl hacc, fun c told replied hc htold hreplied => ?_⟩
  have hsound := sound_of_path h link hl
  obtain ⟨hheard, out, hout⟩ := hacc
  obtain ⟨hello', hheard', hreplied', hval, -⟩ := hsound.served out hout
  cases hheard.symm.trans hheard'
  cases hreplied.symm.trans hreplied'
  obtain ⟨told', htold', hfin⟩ := hsound.connected c hc
  cases htold.symm.trans htold'
  rw [← meets_iff hfin]
  constructor
  · intro hagree
    have hboth := hagree c out hc hout
    rw [hval] at hboth
    exact hboth
  · intro hboth c' out' hc' hout'
    cases hc.symm.trans hc'
    cases hout.symm.trans hout'
    rw [hval]
    exact hboth

def trialSecret : BootSecret := ⟨List.replicate 32 7, rfl⟩

def trialNonce : Nonce := ⟨List.replicate nonceLen 1, rfl⟩

def trialAnswer : Nonce := ⟨List.replicate nonceLen 2, rfl⟩

/-- A client of another major that connects undisturbed: the proof is for this connection, and both
ends are read-only. -/
theorem handshake_law_undisturbed :
    ∃ net link hello, Path (step trialSecret) (Allowed trialSecret) .quiet net ∧
      link ∈ net.links ∧ link.Accepted hello ∧ net.Proved link hello ∧ link.Agrees ∧
      link.connected = some (.ok ⟨true, (1, 0)⟩) := by
  let client := Client.connectWithVersion 2 3
  let hello := client.answer trialSecret trialNonce.val trialAnswer
  have hpath := path_meeting trialSecret ⟨1, 0⟩ trialNonce client trialNonce.val trialAnswer hello
    (acceptance ⟨1, 0⟩ hello) rfl rfl
  have hacc : (List.head (meeting trialSecret ⟨1, 0⟩ trialNonce client trialNonce.val trialAnswer hello
      (acceptance ⟨1, 0⟩ hello)).links (cons_ne_nil _ _)).Accepted hello := ⟨rfl, _, rfl⟩
  obtain ⟨hproved, hagrees⟩ := handshake_law hpath (mem_singleton.mpr rfl) hacc
  exact ⟨_, _, hello, hpath, mem_singleton.mpr rfl, hacc, hproved.mpr rfl,
    (hagrees _ _ _ rfl rfl rfl).mpr ⟨rfl, rfl, rfl⟩, rfl⟩

/-- A byte moved from one nonce to the other verifies, though nobody hashed it for this server
nonce; and an undisturbed `over_stream` of another major is not told that it is read-only. -/
theorem handshake_disagrees :
    (∃ net link hello, Path (step trialSecret) (Allowed trialSecret) .quiet net ∧
      link ∈ net.links ∧ link.Accepted hello ∧ ¬ net.Proved link hello) ∧
    ∃ net link hello, Path (step trialSecret) (Allowed trialSecret) .quiet net ∧
      link ∈ net.links ∧ link.answered = some (.ok hello) ∧ link.Accepted hello ∧
      link.told = link.replied ∧ link.told.isSome ∧ ¬ link.Agrees := by
  constructor
  · let client := Client.connectWithVersion 1 0
    let hello : Hello :=
      { client.answer trialSecret (trialNonce.val ++ [9]) trialAnswer with
        clientNonce := 9 :: trialAnswer.val }
    have hpath := path_meeting trialSecret ⟨1, 0⟩ trialNonce client (trialNonce.val ++ [9])
      trialAnswer hello rejection rfl rfl
    have hacc : (List.head (meeting trialSecret ⟨1, 0⟩ trialNonce client (trialNonce.val ++ [9])
        trialAnswer hello rejection).links (cons_ne_nil _ _)).Accepted hello := ⟨rfl, _, rfl⟩
    refine ⟨_, _, hello, hpath, mem_singleton.mpr rfl, hacc, ?_⟩
    rw [proved_iff hpath (mem_singleton.mpr rfl) hacc]
    decide
  · let client := Client.overStream ⟨2, 0⟩
    let hello := client.answer trialSecret trialNonce.val trialAnswer
    refine ⟨_, _, hello, path_meeting trialSecret ⟨1, 0⟩ trialNonce client trialNonce.val trialAnswer
      hello (acceptance ⟨1, 0⟩ hello) rfl rfl, mem_singleton.mpr rfl, rfl, ⟨rfl, _, rfl⟩, rfl,
      rfl, fun hagrees => ?_⟩
    have hread := (hagrees _ _ rfl rfl).1
    exact absurd hread (by decide)

/-- **The version of an accepted `Hello` is never an altered one.** -/
theorem accepted_versions (h : Path (step secret) (Allowed secret) .quiet net)
    (hl : link ∈ net.links) (hacc : link.Accepted hello) :
    ∃ p ∈ net.proofs, p.major = hello.major ∧ p.minor = hello.minor := by
  obtain ⟨p, hp, hbytes⟩ := accepted_bytes h hl hacc
  obtain ⟨-, hmajor, hminor⟩ := version_of_proofBytes hbytes
  exact ⟨p, hp, hmajor, hminor⟩

/-- The `Hello` of an accepted client is replayed on a second connection, which refuses it. -/
theorem accepted_versions_replayed :
    ∃ net link, Path (step trialSecret) (Allowed trialSecret) .quiet net ∧ link ∈ net.links ∧
      (∃ hello e, link.heard = some hello ∧ link.served = some (.error e)) ∧
      ∃ p ∈ net.proofs, p.major = 2 ∧ p.minor = 3 := by
  let client := Client.connectWithVersion 2 3
  let hello := client.answer trialSecret trialNonce.val trialAnswer
  have hrefused : ¬ trialSecret.Verifies trialAnswer hello := by decide +kernel
  have hopened := (path_meeting trialSecret ⟨1, 0⟩ trialNonce client trialNonce.val trialAnswer hello
    (acceptance ⟨1, 0⟩ hello) rfl rfl).tail (.opened ⟨1, 0⟩ trialAnswer client) (by
      intro link hl
      rw [mem_singleton.mp hl]
      decide)
  have hpath := hopened.tail (.hello 1 (.ok (.ok hello)) (.ok ())) (by
    intro link hi hello' harr hver
    cases hi
    cases harr
    exact absurd hver hrefused)
  have hserved : (handshakeStream trialSecret ⟨1, 0⟩ trialAnswer (.ok (.ok hello)) (.ok ())).2
      = .error (.authRejected "boot secret proof mismatch") := congrArg Prod.snd (if_neg hrefused)
  exact ⟨_, _, hpath, mem_cons_of_mem _ mem_cons_self, ⟨hello, _, rfl, congrArg some hserved⟩,
    accepted_versions hpath mem_cons_self ⟨rfl, _, rfl⟩⟩

end Law

end Transport

end Modbit
