import Modbit.Fleet.NodeText

/-!
# What the fleet keeps over failed writes and restarts

`perform_outcome` says once what an operation can do: keep the fleet, or write one node and
put it into the maps as `load` would.  The two maps and the journal stay consistent
(`Consistent`), so no operation panics and a restart finds the fleet as it was: `fleet_run`.

This holds as long as a failed write has written nothing and had nothing to undo, and no
operation other than `steer` and `resume` is used on a finished agent.  A refused protected
effect is the one error that leaves a change: the parent is in the background.
-/

namespace Modbit

open Lib

namespace Fleet

variable (json : Jsonl.Codec AgentNode)

/-! ### Runs -/

/-- The fleet, unless the journal could not be loaded, and the journal's bytes. -/
structure FleetWorld where
  fleet : Option AgentFleet
  file : Option (List UInt8)

/-- An operation, a crash in the middle of an operation's journal write, or a restart between
operations. -/
inductive FleetEvent where
  | op (o : FleetOp) (disk : Disk)
  | crash (o : FleetOp) (written : Nat)
  | restart

namespace FleetWorld

def reload (file : Option (List UInt8)) : FleetWorld × Reply :=
  (⟨AgentFleet.load json file, file⟩, if (AgentFleet.load json file).isSome then .done
    else .err .persistence)

def step (w : FleetWorld) : FleetEvent → FleetWorld × Reply
  | .op o disk =>
    match w.fleet with
    | none => (w, .err .persistence)
    | some f =>
      let out := FleetStore.perform json disk ⟨f, w.file⟩ o
      (⟨some out.1.fleet, out.1.file⟩, out.2)
  | .crash o written =>
    match w.fleet with
    | none => (w, .err .persistence)
    | some f => reload json (FleetStore.perform json (.fails (some written)) ⟨f, w.file⟩ o).1.file
  | .restart => reload json w.file

/-- A fleet that was loaded before there was a journal. -/
def start : FleetWorld := (reload json none).1

end FleetWorld

/-! ### When an operation is safe -/

/-- The operation takes no finished agent out of its status. -/
def Apart (f : AgentFleet) : FleetOp → Prop
  | .spawn _ agentId _ _ key => key.bind f.idempotency.find? = none →
      ∀ n ∈ f.nodes.find? agentId, n.status.finished = false
  | .spawnChild _ agentId _ _ _ key => key.bind f.idempotency.find? = none →
      ∀ n ∈ f.nodes.find? agentId, n.status.finished = false
  | .setBackground agentId => ∀ n ∈ f.nodes.find? agentId, n.status.finished = false
  | .setForeground agentId => ∀ n ∈ f.nodes.find? agentId, n.status.finished = false
  | .advanceCursor _ _ => True
  | .park agentId => ∀ n ∈ f.nodes.find? agentId, n.status.finished = false
  | .resume _ => True
  | .steer _ _ => True
  | .requestProtectedEffect agentId _ => ∀ n ∈ f.nodes.find? agentId,
      n.capsule.canRequestExpansion = false →
      ∀ p ∈ n.parent, ∀ m ∈ f.nodes.find? p, m.status.finished = false

/-- The operation has changed nothing in memory before its write. -/
def Undisturbed (f : AgentFleet) : FleetOp → Prop
  | .spawn _ _ _ _ key => key = none
  | .spawnChild _ _ _ _ _ key => key = none
  | .setBackground agentId => ∀ n ∈ f.nodes.find? agentId, n.status = .background
  | .setForeground agentId => ∀ n ∈ f.nodes.find? agentId, n.status = .foreground
  | .advanceCursor agentId cursor => ∀ n ∈ f.nodes.find? agentId, n.toolCursor = cursor
  | .park agentId => ∀ n ∈ f.nodes.find? agentId, n.status = .parked
  | .resume agentId => ∀ n ∈ f.nodes.find? agentId, n.status ≠ .parked
  | .steer _ command => ∀ reason, command ≠ .cancel reason
  | .requestProtectedEffect agentId _ => ∀ n ∈ f.nodes.find? agentId,
      n.capsule.canRequestExpansion = false →
      ∀ p ∈ n.parent, ∀ m ∈ f.nodes.find? p, m.status = .background

def Disk.WritesNothing (disk : Disk) : Prop := disk = .fails none ∨ disk = .fails (some 0)

/-- The write is made, or fails before its first byte with nothing to undo. -/
def Clean (f : AgentFleet) (o : FleetOp) (disk : Disk) : Prop :=
  disk = .writes ∨ disk.WritesNothing ∧ Undisturbed f o

def FleetWorld.Careful (w : FleetWorld) : FleetEvent → Prop
  | .op o disk => ∀ f ∈ w.fleet, Apart f o ∧ Clean f o disk
  | .crash _ written => written = 0
  | .restart => True

/-! ### Consistency -/

/-- Nodes are filed under their ids, their keys lead to them, and every key leads to a node. -/
structure Consistent (f : AgentFleet) : Prop where
  keyed : ∀ {id : String} {n : AgentNode}, f.nodes.find? id = some n → n.agentId = id
  indexed : ∀ {id : String} {n : AgentNode}, f.nodes.find? id = some n →
    ∀ k ∈ n.idempotencyKey, f.idempotency.find? k = some id
  resolved : ∀ {k id : String}, f.idempotency.find? k = some id → ∃ n, f.nodes.find? id = some n

/-- A node that may be written next: its key is new or its own, and it leaves a finished agent
finished. -/
structure Admissible (f : AgentFleet) (n : AgentNode) : Prop where
  key : ∀ k ∈ n.idempotencyKey, ∀ id ∈ f.idempotency.find? k, id = n.agentId
  status : ∀ m ∈ f.nodes.find? n.agentId, m.status.finished = true → n.status = m.status

def Kept (f f' : AgentFleet) : Prop :=
  ∀ id, ∀ n ∈ f.nodes.find? id, n.status.finished = true →
    ∃ n' ∈ f'.nodes.find? id, n'.status = n.status

variable {json} {f f' : AgentFleet} {n : AgentNode}

theorem Kept.refl (f : AgentFleet) : Kept f f := fun _ n hn _ => ⟨n, hn, rfl⟩

theorem Kept.trans {f'' : AgentFleet} (h : Kept f f') (g : Kept f' f'') : Kept f f'' := by
  intro id n hn hfin
  obtain ⟨n', hn', hst⟩ := h id n hn hfin
  obtain ⟨n'', hn'', hst'⟩ := g id n' hn' (by rw [hst]; exact hfin)
  exact ⟨n'', hn'', hst'.trans hst⟩

theorem find?_replay_nodes (f : AgentFleet) (n : AgentNode) (id : String) :
    (f.replay n).nodes.find? id = if id = n.agentId then some n else f.nodes.find? id := by
  rw [AgentFleet.replay, OrdMap.find?_insert]

theorem find?_replay_key (f : AgentFleet) (n : AgentNode) (k : String) :
    (f.replay n).idempotency.find? k
      = if n.idempotencyKey = some k then some n.agentId else f.idempotency.find? k := by
  rw [AgentFleet.replay, AgentFleet.registered]
  cases hk : n.idempotencyKey with
  | none => rw [if_neg (by simp)]
  | some key =>
    rw [OrdMap.find?_insert]
    simp only [Option.some.injEq, eq_comm]

theorem kept_replay (h : Admissible f n) : Kept f (f.replay n) := by
  intro id m hm hfin
  rw [find?_replay_nodes]
  by_cases hid : id = n.agentId
  · rw [if_pos hid]
    exact ⟨n, rfl, h.status m (hid ▸ hm) hfin⟩
  · rw [if_neg hid]
    exact ⟨m, hm, rfl⟩

theorem consistent_replay (h : Consistent f) (hn : Admissible f n) : Consistent (f.replay n) := by
  refine ⟨?_, ?_, ?_⟩
  · intro id m hm
    rw [find?_replay_nodes] at hm
    split_ifs at hm with hid
    · rw [← Option.some.inj hm, hid]
    · exact h.keyed hm
  · intro id m hm k hk
    rw [find?_replay_nodes] at hm
    rw [find?_replay_key]
    split_ifs at hm with hid
    · rw [← Option.some.inj hm] at hk
      rw [if_pos (Option.mem_def.mp hk), hid]
    · -- the key of another agent is not the key of this one
      have hother := h.indexed hm k hk
      split_ifs with hkey
      · exact absurd (hn.key k hkey id hother) hid
      · exact hother
  · intro k id hk
    rw [find?_replay_key] at hk
    rw [find?_replay_nodes]
    split_ifs with hid
    · exact ⟨n, rfl⟩
    · split_ifs at hk with hkey
      · exact absurd (Option.some.inj hk).symm hid
      · exact h.resolved hk

variable {id : String} {old : AgentNode}

theorem replay_update (h : Consistent f)
    (hold : f.nodes.find? id = some old) (hid : n.agentId = old.agentId)
    (hkey : n.idempotencyKey = old.idempotencyKey) :
    { f with nodes := f.nodes.insert id n } = f.replay n := by
  have hown := h.keyed hold
  have hmap : f.registered n = f.idempotency := by
    rw [AgentFleet.registered]
    cases hk : n.idempotencyKey with
    | none => rfl
    | some key =>
      refine OrdMap.ext (fun k => ?_)
      rw [OrdMap.find?_insert]
      split_ifs with heq
      · rw [heq, h.indexed hold key (hkey ▸ hk), hid, hown]
      · rfl
  rw [AgentFleet.replay, hmap, hid, hown]

/-! ### What an operation does -/

/-- The node is written: its line is at the end of the journal, and the maps are as `load` would
make them. -/
structure Writes (json : Jsonl.Codec AgentNode) (s t : FleetStore) (n : AgentNode) : Prop where
  admissible : Admissible s.fleet n
  fleet : t.fleet = s.fleet.replay n
  file : t.file = some (s.file.getD [] ++ Utf8.encode (Jsonl.line json n))

/-- The refused effect of an agent: its parent is in the background. -/
def Refuses (f f' : AgentFleet) (agentId : String) : Prop :=
  ∃ n ∈ f.nodes.find? agentId, ∃ p ∈ n.parent, ∃ m ∈ f.nodes.find? p,
    f' = { f with nodes := f.nodes.insert p { m with status := .background } }

/-- **What an operation can do.**  It keeps the fleet, or it writes a node; with an error it keeps
the fleet, or it is a refused protected effect. -/
inductive Outcome (json : Jsonl.Codec AgentNode) (s : FleetStore) (o : FleetOp)
    (out : FleetStore × Reply) : Prop
  | kept (hfleet : out.1.fleet = s.fleet) (hfile : out.1.file.getD [] = s.file.getD [])
  | written (n : AgentNode) (hwrites : Writes json s out.1 n) (hreply : ∀ e, out.2 ≠ .err e)
  | refused (n : AgentNode) (agentId effect : String)
      (ho : o = .requestProtectedEffect agentId effect) (hwrites : Writes json s out.1 n)
      (hrefuses : Refuses s.fleet out.1.fleet agentId)
      (hreply : out.2 = .err (.privilegeExpansionRefused agentId effect))

variable {s : FleetStore} {disk : Disk} {o : FleetOp}

theorem persistNode_writes (hj : f.journal = true) (file : Option (List UInt8)) (n : AgentNode) :
    f.persistNode json .writes file n
      = (some (file.getD [] ++ Utf8.encode (Jsonl.line json n)), .ok ()) := by
  rw [AgentFleet.persistNode, if_pos hj]

variable (json) in
theorem persistNode_nothing (hj : f.journal = true) (hd : disk.WritesNothing)
    (file : Option (List UInt8)) (n : AgentNode) :
    ∃ file', f.persistNode json disk file n = (file', .error .persistence)
      ∧ file'.getD [] = file.getD [] := by
  rcases hd with rfl | rfl
  · exact ⟨file, by rw [AgentFleet.persistNode, if_pos hj], rfl⟩
  · refine ⟨_, by rw [AgentFleet.persistNode, if_pos hj], ?_⟩
    rw [Option.getD_some, List.take_zero, List.append_nil]

variable (json) in
theorem update_outcome (reply : Reply) (h : Consistent s.fleet)
    (hj : s.fleet.journal = true) (hold : s.fleet.nodes.find? id = some old)
    (hid : n.agentId = old.agentId) (hkey : n.idempotencyKey = old.idempotencyKey)
    (hstatus : old.status.finished = true → n.status = old.status)
    (hclean : disk = .writes ∨ disk.WritesNothing ∧ n = old) :
    (Writes json s (s.update json disk id n reply).1 n ∧ (s.update json disk id n reply).2 = reply)
      ∨ ((s.update json disk id n reply).1.fleet = s.fleet
        ∧ (s.update json disk id n reply).1.file.getD [] = s.file.getD []
        ∧ (s.update json disk id n reply).2 = .err .persistence) := by
  have hown := h.keyed hold
  have hreplay := replay_update h hold hid hkey
  rcases hclean with rfl | ⟨hd, rfl⟩
  · refine .inl ?_
    rw [FleetStore.update, persistNode_writes (by exact hj)]
    refine ⟨⟨⟨?_, ?_⟩, hreplay, rfl⟩, rfl⟩
    · intro k hk id' hid'
      rw [Option.mem_def, h.indexed hold k (hkey ▸ hk)] at hid'
      rw [← Option.some.inj hid', hid, hown]
    · intro m hm
      rw [hid, hown, hold] at hm
      rw [← Option.some.inj hm]
      exact hstatus
  · refine .inr ?_
    have hsame : { s.fleet with nodes := s.fleet.nodes.insert id n } = s.fleet := by
      have hnodes : s.fleet.nodes.insert id n = s.fleet.nodes := by
        refine OrdMap.ext (fun k => ?_)
        rw [OrdMap.find?_insert]
        split_ifs with heq
        · rw [heq, hold]
        · rfl
      rw [hnodes]
    obtain ⟨file', hpersist, hfile⟩ := persistNode_nothing json hj hd s.file n
    rw [FleetStore.update, hsame, hpersist]
    exact ⟨rfl, hfile, rfl⟩

theorem outcome_of_update {reply : Reply} (h : Consistent s.fleet)
    (hj : s.fleet.journal = true) (hold : s.fleet.nodes.find? id = some old)
    (hid : n.agentId = old.agentId) (hkey : n.idempotencyKey = old.idempotencyKey)
    (hstatus : old.status.finished = true → n.status = old.status)
    (hclean : disk = .writes ∨ disk.WritesNothing ∧ n = old) (hreply : ∀ e, reply ≠ .err e) :
    Outcome json s o (s.update json disk id n reply) := by
  rcases update_outcome json reply h hj hold hid hkey hstatus hclean with
    ⟨hw, hr⟩ | ⟨hfleet, hfile, -⟩
  · exact .written n hw (fun e => by rw [hr]; exact hreply e)
  · exact .kept hfleet hfile

theorem transition_outcome {target : AgentStatus} (h : Consistent s.fleet)
    (hj : s.fleet.journal = true)
    (hapart : ∀ n ∈ s.fleet.nodes.find? id, n.status.finished = false)
    (hclean : disk = .writes
      ∨ disk.WritesNothing ∧ ∀ n ∈ s.fleet.nodes.find? id, n.status = target) :
    Outcome json s o (s.transition json disk id target) := by
  rw [FleetStore.transition]
  cases hold : s.fleet.nodes.find? id with
  | none => exact .kept rfl rfl
  | some old =>
    refine outcome_of_update h hj hold rfl rfl ?_ ?_ (fun e he => (by cases he))
    · intro hfin
      rw [hapart old hold] at hfin
      cases hfin
    · refine hclean.imp_right (fun hc => ⟨hc.1, ?_⟩)
      rw [← hc.2 old hold]

theorem admit_outcome (hj : s.fleet.journal = true)
    (hkey : ∀ k ∈ n.idempotencyKey, s.fleet.idempotency.find? k = none)
    (hapart : ∀ m ∈ s.fleet.nodes.find? n.agentId, m.status.finished = false)
    (hclean : disk = .writes ∨ disk.WritesNothing ∧ n.idempotencyKey = none) :
    Outcome json s o (s.register json disk n) := by
  rcases hclean with rfl | ⟨hd, hnone⟩
  · refine .written n ⟨⟨?_, ?_⟩, ?_, ?_⟩ ?_
    · intro k hk id hid
      rw [Option.mem_def, hkey k hk] at hid
      cases hid
    · intro m hm hfin
      rw [hapart m hm] at hfin
      cases hfin
    all_goals rw [FleetStore.register, persistNode_writes (by exact hj)]
    · rfl
    · exact fun e he => (by cases he)
  · have hsame : { s.fleet with idempotency := s.fleet.registered n } = s.fleet := by
      rw [AgentFleet.registered, hnone]
    obtain ⟨file', hpersist, hfile⟩ := persistNode_nothing json hj hd s.file n
    refine .kept ?_ ?_
    · rw [FleetStore.register, hsame, hpersist]
    · rw [FleetStore.register, hsame, hpersist]
      exact hfile

theorem spawnWith_outcome {parent : Option String} {agentId : String} {key : Option String}
    {node : String → AgentNode} (hj : s.fleet.journal = true)
    (hid : ∀ root, (node root).agentId = agentId) (hnode : ∀ root, (node root).idempotencyKey = key)
    (hapart : key.bind s.fleet.idempotency.find? = none →
      ∀ n ∈ s.fleet.nodes.find? agentId, n.status.finished = false)
    (hclean : disk = .writes ∨ disk.WritesNothing ∧ key = none) :
    Outcome json s o (s.spawnWith json disk parent agentId key node) := by
  rw [FleetStore.spawnWith]
  cases hkey : key.bind s.fleet.idempotency.find? with
  | some existing =>
    dsimp only
    cases s.fleet.nodes.find? existing with
    | none => exact .kept rfl rfl
    | some n => exact .kept rfl rfl
  | none =>
    cases FleetStore.rootFor s.fleet parent agentId with
    | error e => exact .kept rfl rfl
    | ok root =>
      refine admit_outcome hj ?_ ?_ ?_
      · intro k hk
        rw [Option.mem_def, hnode] at hk
        rw [hk] at hkey
        exact hkey
      · rw [hid]
        exact hapart hkey
      · rw [hnode]
        exact hclean

variable (json) in
/-- **One operation, on a consistent fleet.** -/
theorem perform_outcome (h : Consistent s.fleet) (hj : s.fleet.journal = true)
    (hapart : Apart s.fleet o) (hclean : Clean s.fleet o disk) :
    Outcome json s o (s.perform json disk o) := by
  cases o with
  | spawn parent agentId task capsule key =>
    exact spawnWith_outcome hj (fun _ => rfl) (fun _ => rfl) hapart hclean
  | spawnChild parent agentId taskId task scope key =>
    exact spawnWith_outcome hj (fun _ => rfl) (fun _ => rfl) hapart hclean
  | setBackground agentId => exact transition_outcome h hj hapart hclean
  | setForeground agentId => exact transition_outcome h hj hapart hclean
  | park agentId => exact transition_outcome h hj hapart hclean
  | advanceCursor agentId cursor =>
    rw [FleetStore.perform, FleetStore.advanceCursor]
    cases hold : s.fleet.nodes.find? agentId with
    | none => exact .kept rfl rfl
    | some old =>
      refine outcome_of_update h hj hold rfl rfl (fun _ => rfl) ?_ (fun e he => (by cases he))
      refine hclean.imp_right (fun hc => ⟨hc.1, ?_⟩)
      rw [← hc.2 old hold]
  | resume agentId =>
    rw [FleetStore.perform, FleetStore.resume]
    cases hold : s.fleet.nodes.find? agentId with
    | none => exact .kept rfl rfl
    | some old =>
      dsimp only
      split_ifs with hparked
      · exact .kept rfl rfl
      · rw [not_not] at hparked
        refine transition_outcome h hj ?_ (hclean.imp_right (fun hc => ?_))
        · intro m hm
          rw [← Option.some.inj (hold.symm.trans hm), hparked]
          rfl
        · exact absurd hparked (hc.2 old hold)
  | steer agentId command =>
    rw [FleetStore.perform, FleetStore.steer]
    cases hold : s.fleet.nodes.find? agentId with
    | none => exact .kept rfl rfl
    | some old =>
      dsimp only
      split_ifs with hfin
      · exact .kept rfl rfl
      · have hsteered : (FleetStore.steered old command).agentId = old.agentId
            ∧ (FleetStore.steered old command).idempotencyKey = old.idempotencyKey := by
          cases command with
          | cancel reason => exact ⟨rfl, rfl⟩
          | steer instruction => exact ⟨rfl, rfl⟩
          | followUp question => exact ⟨rfl, rfl⟩
        refine outcome_of_update h hj hold hsteered.1 hsteered.2 (fun hf => absurd hf hfin) ?_
          (fun e he => (by cases he))
        refine hclean.imp_right (fun hc => ⟨hc.1, ?_⟩)
        cases command with
        | cancel reason => exact absurd rfl (hc.2 reason)
        | steer instruction => rfl
        | followUp question => rfl
  | requestProtectedEffect agentId effect =>
    rw [FleetStore.perform, FleetStore.requestProtectedEffect]
    cases hold : s.fleet.nodes.find? agentId with
    | none => exact .kept rfl rfl
    | some n =>
      dsimp only
      split_ifs with hexp
      · exact .kept rfl rfl
      · rw [Bool.not_eq_true] at hexp
        cases hp : n.parent with
        | none => exact .kept rfl rfl
        | some parent =>
          dsimp only
          rw [FleetStore.setBackground, FleetStore.transition]
          cases hm : s.fleet.nodes.find? parent with
          | none => exact .kept rfl rfl
          | some m =>
            have hfin := hapart n hold hexp parent hp m hm
            have hout := update_outcome json .done
              (n := { m with status := .background }) h hj hm rfl rfl
              (fun hf => by rw [hfin] at hf; cases hf)
              (hclean.imp_right (fun hc => ⟨hc.1, by rw [← hc.2 n hold hexp parent hp m hm]⟩))
            dsimp only
            generalize hg : s.update json disk parent { m with status := .background } .done = out
            rw [hg] at hout
            obtain ⟨t, r⟩ := out
            rcases hout with ⟨hw, rfl⟩ | ⟨hfleet, hfile, rfl⟩
            · refine .refused _ agentId effect rfl hw ⟨n, hold, parent, hp, m, hm, ?_⟩ rfl
              have hreplay := replay_update (n := { m with status := .background }) h hm rfl rfl
              exact hw.fleet.trans hreplay.symm
            · exact .kept hfleet hfile

/-! ### Panics, and writes that write nothing -/

/-- What an operation does to the store, whatever becomes of its write. -/
inductive Shape (json : Jsonl.Codec AgentNode) (disk : Disk) (s : FleetStore)
    (out : FleetStore × Reply) : Prop
  | stays (hs : out.1 = s) (hcalm : Consistent s.fleet → out.2 ≠ .panicked)
  | admits (n : AgentNode) (hs : out = s.register json disk n)
  | updates (id : String) (n : AgentNode) (reply : Reply) (hs : out.1 = (s.update json disk id n reply).1)
      (hcalm : out.2 ≠ .panicked)

theorem shape_err (e : FleetError) : Shape json disk s (s, .err e) :=
  .stays rfl (fun _ h => (by cases h))

theorem shape_update {reply : Reply} (hreply : reply ≠ .panicked) :
    Shape json disk s (s.update json disk id n reply) := by
  refine .updates id n reply rfl ?_
  rw [FleetStore.update]
  split
  · exact fun h => (by cases h)
  · exact hreply

theorem shape_transition (id : String) (target : AgentStatus) :
    Shape json disk s (s.transition json disk id target) := by
  rw [FleetStore.transition]
  split
  · exact shape_err _
  · exact shape_update (fun h => (by cases h))

theorem shape_spawnWith {parent : Option String} {agentId : String} {key : Option String}
    {node : String → AgentNode} : Shape json disk s (s.spawnWith json disk parent agentId key node) := by
  rw [FleetStore.spawnWith]
  cases hkey : key.bind s.fleet.idempotency.find? with
  | some existing =>
    dsimp only
    cases hn : s.fleet.nodes.find? existing with
    | some n => exact .stays rfl (fun _ h => (by cases h))
    | none =>
      -- a key that leads nowhere is what consistency excludes
      refine .stays rfl (fun h => ?_)
      obtain ⟨k, -, hk⟩ := Option.bind_eq_some_iff.mp hkey
      obtain ⟨n, hsome⟩ := h.resolved hk
      rw [hn] at hsome
      cases hsome
  | none =>
    dsimp only
    split
    · exact shape_err _
    · exact .admits _ rfl

variable (json) in
theorem shape_perform (s : FleetStore) (disk : Disk) (o : FleetOp) :
    Shape json disk s (s.perform json disk o) := by
  cases o with
  | spawn parent agentId task capsule key => exact shape_spawnWith
  | spawnChild parent agentId taskId task scope key => exact shape_spawnWith
  | setBackground agentId => exact shape_transition agentId .background
  | setForeground agentId => exact shape_transition agentId .foreground
  | park agentId => exact shape_transition agentId .parked
  | advanceCursor agentId cursor =>
    rw [FleetStore.perform, FleetStore.advanceCursor]
    split
    · exact shape_err _
    · exact shape_update (fun h => (by cases h))
  | resume agentId =>
    rw [FleetStore.perform, FleetStore.resume]
    split
    · exact shape_err _
    · split_ifs
      · exact shape_err _
      · exact shape_transition agentId .foreground
  | steer agentId command =>
    rw [FleetStore.perform, FleetStore.steer]
    split
    · exact shape_err _
    · split_ifs
      · exact shape_err _
      · exact shape_update (fun h => (by cases h))
  | requestProtectedEffect agentId effect =>
    rw [FleetStore.perform, FleetStore.requestProtectedEffect]
    split
    · exact shape_err _
    · split_ifs
      · exact .stays rfl (fun _ h => (by cases h))
      · split
        · exact shape_err _
        · rw [FleetStore.setBackground, FleetStore.transition]
          split
          · next heq =>
            split at heq
            · obtain ⟨rfl, -⟩ := Prod.mk.inj heq
              exact shape_err _
            · exact .updates _ _ _ (congrArg Prod.fst heq).symm (fun h => (by cases h))
          · next heq =>
            split at heq
            · obtain ⟨rfl, -⟩ := Prod.mk.inj heq
              exact shape_err _
            · exact .updates _ _ _ (congrArg Prod.fst heq).symm (fun h => (by cases h))

/-- **No operation panics on a consistent fleet**, whatever becomes of its write. -/
theorem perform_calm (h : Consistent s.fleet) (disk : Disk) (o : FleetOp) :
    (s.perform json disk o).2 ≠ .panicked := by
  cases shape_perform json s disk o with
  | stays _ hcalm => exact hcalm h
  | updates id n reply _ hcalm => exact hcalm
  | admits n hs =>
    rw [hs, FleetStore.register]
    split
    · exact fun h => (by cases h)
    · exact fun h => (by cases h)

variable (json) in
theorem persistNode_file (hd : disk.WritesNothing) (f : AgentFleet) (file : Option (List UInt8))
    (n : AgentNode) : (f.persistNode json disk file n).1.getD [] = file.getD [] := by
  unfold AgentFleet.persistNode
  split_ifs
  · rcases hd with rfl | rfl
    · rfl
    · exact List.append_nil _
  · rfl

theorem perform_file (hd : disk.WritesNothing) (s : FleetStore) (o : FleetOp) :
    (s.perform json disk o).1.file.getD [] = s.file.getD [] := by
  cases shape_perform json s disk o with
  | stays hs _ => rw [hs]
  | admits n hs =>
    have hfile := persistNode_file json hd
      { s.fleet with idempotency := s.fleet.registered n } s.file n
    rw [hs, FleetStore.register]
    split
    · next heq => rw [heq] at hfile; exact hfile
    · next heq => rw [heq] at hfile; exact hfile
  | updates id n reply hs _ =>
    have hfile := persistNode_file json hd
      { s.fleet with nodes := s.fleet.nodes.insert id n } s.file n
    rw [hs, FleetStore.update]
    split
    · next heq => rw [heq] at hfile; exact hfile
    · next heq => rw [heq] at hfile; exact hfile

/-! ### Whole runs -/

namespace FleetWorld

variable {w : FleetWorld}

/-- The fleet is that of the journal's lines, and consistent. -/
structure Good (json : Jsonl.Codec AgentNode) (w : FleetWorld) (f : AgentFleet) : Prop where
  fleet : w.fleet = some f
  journal : f.journal = true
  consistent : Consistent f
  lines : ∃ ns, Jsonl.Holds json w.file ns
    ∧ f = ns.foldl AgentFleet.replay { AgentFleet.new with journal := true }

/-- What a fleet promises in a state: a restart finds it as it is, no operation panics, and an
operation that answers with an error has left it as it was, except that a refused protected effect
has sent the parent to the background. -/
structure Steady (json : Jsonl.Codec AgentNode) (w : FleetWorld) (f : AgentFleet) : Prop where
  fleet : w.fleet = some f
  loads : AgentFleet.load json w.file = some f
  calm : ∀ e, (w.step json e).2 ≠ .panicked
  errs : ∀ e x, w.Careful e → (w.step json e).2 = .err x → (w.step json e).1.fleet = some f
    ∨ ∃ agentId effect disk f', e = .op (.requestProtectedEffect agentId effect) disk
      ∧ x = .privilegeExpansionRefused agentId effect
      ∧ (w.step json e).1.fleet = some f' ∧ Refuses f f' agentId

theorem load_of_holds {file : Option (List UInt8)} {ns : List AgentNode}
    (h : Jsonl.Holds json file ns) : AgentFleet.load json file
      = some (ns.foldl AgentFleet.replay { AgentFleet.new with journal := true }) := by
  rw [AgentFleet.load, h.read (Jsonl.isEmpty_toText json)]
  rfl

theorem Good.loads (h : Good json w f) : AgentFleet.load json w.file = some f := by
  obtain ⟨ns, hholds, hf⟩ := h.lines
  rw [load_of_holds hholds, hf]

theorem Good.reload {file : Option (List UInt8)} (h : Good json w f)
    (hfile : file.getD [] = w.file.getD []) : Good json (reload json file).1 f := by
  obtain ⟨ns, hholds, hf⟩ := h.lines
  have hsame : Jsonl.Holds json file ns := hfile.trans hholds
  refine ⟨?_, h.journal, h.consistent, ns, hsame, hf⟩
  rw [FleetWorld.reload, load_of_holds hsame, hf]

/-- **What a step keeps.** -/
theorem good_step (e : FleetEvent) (h : Good json w f) (hok : w.Careful e) :
    ∃ f', Good json (w.step json e).1 f' ∧ Kept f f' := by
  cases e with
  | restart => exact ⟨f, h.reload rfl, Kept.refl f⟩
  | crash o written =>
    have hzero : written = 0 := hok
    rw [step, h.fleet]
    refine ⟨f, h.reload ?_, Kept.refl f⟩
    exact perform_file (.inr (congrArg (fun n => Disk.fails (some n)) hzero)) ⟨f, w.file⟩ o
  | op o disk =>
    obtain ⟨hapart, hclean⟩ := hok f h.fleet
    have hout := perform_outcome json (s := ⟨f, w.file⟩) h.consistent h.journal hapart hclean
    obtain ⟨ns, hholds, hf⟩ := h.lines
    have hwritten : ∀ {t : FleetStore} {n : AgentNode}, Writes json ⟨f, w.file⟩ t n →
        ∃ f', Good json ⟨some t.fleet, t.file⟩ f' ∧ Kept f f' := by
      intro t n hw
      refine ⟨f.replay n, ⟨congrArg some hw.fleet, h.journal, consistent_replay h.consistent
        hw.admissible, ns ++ [n], ?_, ?_⟩, kept_replay hw.admissible⟩
      · rw [hw.file]
        exact hholds.concat n
      · rw [List.foldl_append, ← hf]
        rfl
    rw [step, h.fleet]
    cases hout with
    | kept hfleet hfile =>
      refine ⟨f, ⟨congrArg some hfleet, h.journal, h.consistent, ns, ?_, hf⟩, Kept.refl f⟩
      exact hfile.trans hholds
    | written n hw _ => exact hwritten hw
    | refused n agentId effect _ hw _ _ => exact hwritten hw

theorem reload_calm (file : Option (List UInt8)) : (reload json file).2 ≠ .panicked := by
  rw [reload]
  split_ifs
  · exact fun h => (by cases h)
  · exact fun h => (by cases h)

theorem Good.steady (h : Good json w f) : Steady json w f := by
  refine ⟨h.fleet, h.loads, ?_, ?_⟩
  · intro e
    cases e with
    | restart => exact reload_calm _
    | crash o written =>
      rw [step, h.fleet]
      exact reload_calm _
    | op o disk =>
      rw [step, h.fleet]
      exact perform_calm (s := ⟨f, w.file⟩) h.consistent disk o
  · intro e x hok hx
    cases e with
    | restart => exact .inl (h.reload rfl).fleet
    | crash o written =>
      obtain ⟨f', hgood, -⟩ := good_step (.crash o written) h hok
      have hzero : written = 0 := hok
      rw [step, h.fleet]
      exact .inl (h.reload (perform_file (.inr (congrArg (fun n => Disk.fails (some n)) hzero))
        ⟨f, w.file⟩ o)).fleet
    | op o disk =>
      obtain ⟨hapart, hclean⟩ := hok f h.fleet
      have hout := perform_outcome json (s := ⟨f, w.file⟩) h.consistent h.journal hapart hclean
      rw [step, h.fleet] at hx ⊢
      cases hout with
      | kept hfleet _ => exact .inl (congrArg some hfleet)
      | written n _ hreply => exact absurd hx (hreply x)
      | refused n agentId effect ho _ hrefuses hreply =>
        have hx' : x = .privilegeExpansionRefused agentId effect := Reply.err.inj (hx.symm.trans hreply)
        exact .inr ⟨agentId, effect, disk, _, by rw [ho], hx', rfl, hrefuses⟩

variable (json) in
theorem good_start : ∃ f, Good json (start json) f := by
  refine ⟨_, ⟨load_of_holds (Jsonl.holds_nil json), rfl, ⟨?_, ?_, ?_⟩, [], Jsonl.holds_nil json, rfl⟩⟩
  · exact fun h => (by cases h)
  · exact fun h => (by cases h)
  · exact fun h => (by cases h)

theorem good_run {es : List FleetEvent} : ∀ {w : FleetWorld} {f : AgentFleet}, Good json w f →
    Admits (step json) Careful w es → ∃ f', Good json (run (step json) w es) f' ∧ Kept f f' := by
  induction es with
  | nil => exact fun h _ => ⟨_, h, Kept.refl _⟩
  | cons e es ih =>
    intro w f h hadmits
    obtain ⟨f₁, hgood, hkept⟩ := good_step e h hadmits.1
    obtain ⟨f₂, hgood', hkept'⟩ := ih hgood hadmits.2
    exact ⟨f₂, hgood', hkept.trans hkept'⟩

/-- **The fleet is steady in every state of a careful run, and what is finished stays finished.** -/
theorem fleet_run (json : Jsonl.Codec AgentNode) (es es' : List FleetEvent)
    (h : Admits (step json) Careful (start json) (es ++ es')) :
    ∃ f f', Steady json (run (step json) (start json) es) f
      ∧ Steady json (run (step json) (start json) (es ++ es')) f' ∧ Kept f f' := by
  obtain ⟨f₀, hstart⟩ := good_start json
  rw [admits_append] at h
  obtain ⟨f, hgood, -⟩ := good_run hstart h.1
  obtain ⟨f', hgood', hkept⟩ := good_run hgood h.2
  rw [run_append]
  exact ⟨f, f', hgood.steady, hgood'.steady, hkept⟩

/-! ### What goes wrong -/

def statusOf (w : FleetWorld) (id : String) : Option AgentStatus :=
  (w.fleet.bind (·.nodes.find? id)).map AgentNode.status

def spawnRoot (key : Option String) : FleetOp := .spawn none "root" "main task" .default key

def rootNode : AgentNode :=
  { agentId := "root", parent := none, root := "root", task := "main task", status := .foreground,
    toolCursor := 0, contextRefs := [], capsule := .default, idempotencyKey := none, taskId := "",
    writeScope := [] }

def family : List FleetEvent :=
  [.op (spawnRoot none) .writes, .op (.spawn (some "root") "child" "subtask" .default none) .writes]

/-- A spawn whose write fails, and a child that is cancelled. -/
def cancelled : List FleetEvent :=
  family ++ [.op (.spawn none "late" "subtask" .default none) (.fails none),
    .op (.steer "child" (.cancel "stop")) .writes]

def crashed : List FleetEvent :=
  [.crash (.setBackground "root") 0, .op (.advanceCursor "root" 3) .writes, .restart]

/-- Over the crash and the restart the child stays cancelled. -/
theorem fleet_run_family :
    Admits (step nodeJson) Careful (start nodeJson) (cancelled ++ crashed)
      ∧ ∃ f f', Steady nodeJson (run (step nodeJson) (start nodeJson) cancelled) f
        ∧ Steady nodeJson (run (step nodeJson) (start nodeJson) (cancelled ++ crashed)) f'
        ∧ Kept f f' ∧ ∃ n ∈ f'.nodes.find? "child", n.status = .cancelled := by
  have hadmits : Admits (step nodeJson) Careful (start nodeJson) (cancelled ++ crashed) := by
    refine ⟨fun f hf => ⟨fun _ n hn => ?_, .inl rfl⟩, fun f hf => ⟨fun _ n hn => ?_, .inl rfl⟩,
      fun f hf => ⟨fun _ n hn => ?_, .inr ⟨.inl rfl, rfl⟩⟩, fun _ _ => ⟨trivial, .inl rfl⟩, rfl,
      fun _ _ => ⟨trivial, .inl rfl⟩, trivial, trivial⟩
    · rw [← Option.some.inj hf] at hn
      cases hn
    · rw [← Option.some.inj hf] at hn
      cases hn
    · rw [← Option.some.inj hf] at hn
      cases hn
  obtain ⟨f, f', hsteady, hsteady', hkept⟩ := fleet_run nodeJson cancelled crashed hadmits
  have hstatus : statusOf (run (step nodeJson) (start nodeJson) cancelled) "child"
      = some .cancelled := rfl
  rw [statusOf, hsteady.fleet, Option.bind_some] at hstatus
  obtain ⟨n, hn, hcancelled⟩ := Option.map_eq_some_iff.mp hstatus
  obtain ⟨n', hn', hsame⟩ := hkept "child" n hn (by rw [hcancelled]; rfl)
  exact ⟨hadmits, f, f', hsteady, hsteady', hkept, n', hn', hsame.trans hcancelled⟩

theorem torn_load (n : AgentNode) :
    AgentFleet.load nodeJson (some ((Utf8.encode (Jsonl.line nodeJson n)).take 1)) = none := by
  have hfirst : (Utf8.encode (Jsonl.line nodeJson n)).take 1 = Utf8.encode ['\x7b'] := rfl
  have hread : Jsonl.read nodeJson List.isEmpty (some (Utf8.encode ['\x7b'])) = none :=
    Jsonl.read_text_append (Jsonl.isEmpty_toText nodeJson) [] (by decide : '\n' ∉ ['\x7b'])
  rw [hfirst, AgentFleet.load, hread]
  rfl

/-- **An error that changes the fleet, a panic, a journal that does not load, and a cancelled agent
that is back.** -/
theorem fleet_breaks :
    (statusOf (run (step nodeJson) (start nodeJson) family) "root" = some .foreground
      ∧ ((run (step nodeJson) (start nodeJson) family).step nodeJson
          (.op (.requestProtectedEffect "child" "fs.write") .writes)).2
        = .err (.privilegeExpansionRefused "child" "fs.write")
      ∧ statusOf ((run (step nodeJson) (start nodeJson) family).step nodeJson
          (.op (.requestProtectedEffect "child" "fs.write") .writes)).1 "root" = some .background)
    ∧ ((run (step nodeJson) (start nodeJson) [.op (spawnRoot (some "key")) (.fails none)]).step nodeJson
        (.op (spawnRoot (some "key")) .writes)).2 = .panicked
    ∧ (run (step nodeJson) (start nodeJson) [.crash (spawnRoot none) 1]).fleet.isNone = true
    ∧ statusOf (run (step nodeJson) (start nodeJson)
        [.op (spawnRoot none) .writes, .op (.steer "root" (.cancel "stop")) .writes]) "root"
      = some .cancelled
    ∧ statusOf (run (step nodeJson) (start nodeJson)
        [.op (spawnRoot none) .writes, .op (.steer "root" (.cancel "stop")) .writes,
          .op (.setBackground "root") .writes]) "root" = some .background := by
  refine ⟨⟨rfl, rfl, rfl⟩, rfl, ?_, rfl, rfl⟩
  have hload : (run (step nodeJson) (start nodeJson) [.crash (spawnRoot none) 1]).fleet
      = AgentFleet.load nodeJson (some ((Utf8.encode (Jsonl.line nodeJson rootNode)).take 1)) := rfl
  rw [hload, torn_load]
  rfl

end FleetWorld

end Fleet

end Modbit
