import Modbit.Lib.Run
import Modbit.Lib.Text
import Mathlib.Data.List.Induction
import Mathlib.Data.List.Nodup
import Mathlib.Data.List.Perm.Subperm

/-!
# Mediation of an approval between clients

Several clients vote on one approval, and a policy says what their votes amount to: a designated
client decides, or so many clients have to approve and none may deny.  `submitVote` takes a vote
in and decides again from all of them.

`mediated_iff` is when a decision, once it is there, stays: unless a client that has not voted yet
denies what a consensus has approved.  Everything else that is expected of a mediation holds in
every run.
-/

namespace Modbit

open Lib List

namespace Mediation

/-! ### Votes -/

inductive MediationPolicy where
  | designated (clientId : String)
  | consensus (minApprovals : UInt32)
  deriving DecidableEq

def MediationPolicy.text : MediationPolicy → String
  | .designated clientId => "designated(" ++ clientId ++ ")"
  | .consensus minApprovals => "consensus(min=" ++ toString minApprovals.toNat ++ ")"

structure ClientVote where
  clientId : String
  approve : Bool
  tsMs : Int
  deriving DecidableEq

inductive MediationError where
  | modelVoteRefused (actor : String)
  | clientNotEnrolled (clientId : String)
  | conflictingVotes (clientId : String)
  deriving DecidableEq

def MediationError.text : MediationError → String
  | .modelVoteRefused actor =>
    "model-controlled actor " ++ Text.debugStr actor ++ " cannot resolve approvals"
  | .clientNotEnrolled clientId => "client " ++ Text.debugStr clientId ++ " is not enrolled"
  | .conflictingVotes clientId =>
    "client " ++ Text.debugStr clientId ++ " voted both ways — policy resolves, not silence"

structure ApprovalMediation where
  approvalId : String
  policy : MediationPolicy
  enrolledClients : List String
  votes : List ClientVote
  audit : List String
  resolved : Option Bool
  deriving DecidableEq

inductive ApprovalState where
  | pending | approved | denied
  deriving DecidableEq

/-- One call of `submit_vote`, and the clock at it. -/
structure Ballot where
  clientId : String
  approve : Bool
  isModelActor : Bool
  nowMs : Int
  deriving DecidableEq

namespace ApprovalMediation

def openMediation (approvalId : String) (policy : MediationPolicy) (enrolledClients : List String) :
    ApprovalMediation where
  approvalId := approvalId
  policy := policy
  enrolledClients := enrolledClients
  votes := []
  audit := ["opened under policy " ++ Text.debugStr policy.text ++ " with " ++
    toString enrolledClients.length ++ " enrolled clients"]
  resolved := none

def decision (policy : MediationPolicy) (votes : List ClientVote) : Option Bool :=
  let approvals := UInt32.ofNat (votes.filter (·.approve)).length
  let denials := UInt32.ofNat (votes.filter (fun v => !v.approve)).length
  match policy with
  | .designated clientId => (votes.find? (fun v => v.clientId = clientId)).map (·.approve)
  | .consensus minApprovals =>
    if denials > 0 then some false
    else if approvals ≥ minApprovals then some true
    else none

def resolutionLine (decided : Bool) : String :=
  "RESOLVED: " ++ if decided then "approved" else "denied"

def recompute (m : ApprovalMediation) : ApprovalMediation :=
  let resolved := decision m.policy m.votes
  { m with resolved := resolved, audit := m.audit ++ (resolved.map resolutionLine).toList }

def auditLine (b : Ballot) : String :=
  "vote from " ++ b.clientId ++ ": " ++ (if b.approve then "approve" else "deny") ++
    " (model_actor=" ++ toString b.isModelActor ++ ")"

def submitVote (m : ApprovalMediation) (b : Ballot) :
    ApprovalMediation × Except MediationError (Option Bool) :=
  let m := { m with audit := m.audit ++ [auditLine b] }
  if b.isModelActor then (m, .error (.modelVoteRefused b.clientId))
  else if m.enrolledClients.any (· = b.clientId) = false then
    (m, .error (.clientNotEnrolled b.clientId))
  else
    match m.votes.find? (fun v => v.clientId = b.clientId) with
    | some existing =>
      if existing.approve ≠ b.approve then (m, .error (.conflictingVotes b.clientId))
      else (m, .ok m.resolved)
    | none =>
      let m := recompute { m with votes := m.votes ++ [⟨b.clientId, b.approve, b.nowMs⟩] }
      (m, .ok m.resolved)

def state (m : ApprovalMediation) : ApprovalState :=
  match m.resolved with
  | some true => .approved
  | some false => .denied
  | none => .pending

/-! ### What one vote does -/

/-- A vote that is let in: of a client that is enrolled and has not voted. -/
structure Admitted (m : ApprovalMediation) (b : Ballot) : Prop where
  human : b.isModelActor = false
  enrolled : b.clientId ∈ m.enrolledClients
  fresh : ∀ v ∈ m.votes, v.clientId ≠ b.clientId

variable {m m' : ApprovalMediation} {b : Ballot}

theorem submitVote_admitted (h : Admitted m b) :
    (submitVote m b).1.votes = m.votes ++ [⟨b.clientId, b.approve, b.nowMs⟩] ∧
      (submitVote m b).1.resolved =
        decision m.policy (m.votes ++ [⟨b.clientId, b.approve, b.nowMs⟩]) := by
  have hany : m.enrolledClients.any (· = b.clientId) = true :=
    any_eq_true.mpr ⟨b.clientId, h.enrolled, decide_eq_true rfl⟩
  have hfind : m.votes.find? (fun v => v.clientId = b.clientId) = none := by
    rw [find?_eq_none]
    intro v hv
    rw [decide_eq_true_eq]
    exact h.fresh v hv
  rw [submitVote]
  rw [h.human, if_neg Bool.false_ne_true, hany, if_neg (by decide), hfind]
  exact ⟨rfl, rfl⟩

theorem submitVote_refused (h : ¬ Admitted m b) :
    (submitVote m b).1 = { m with audit := m.audit ++ [auditLine b] } := by
  rw [submitVote]
  by_cases hmodel : b.isModelActor = true
  · rw [if_pos hmodel]
  rw [if_neg hmodel]
  by_cases hany : m.enrolledClients.any (· = b.clientId) = false
  · rw [if_pos hany]
  rw [if_neg hany]
  cases hfind : m.votes.find? (fun v => v.clientId = b.clientId) with
  | some existing =>
    dsimp only
    split <;> rfl
  | none =>
    refine absurd ⟨(Bool.not_eq_true _).mp hmodel, ?_, ?_⟩ h
    · rw [Bool.not_eq_false, any_eq_true] at hany
      obtain ⟨client, hmem, heq⟩ := hany
      exact of_decide_eq_true heq ▸ hmem
    · intro v hv heq
      exact (find?_eq_none.mp hfind v hv) (decide_eq_true heq)

theorem submitVote_frame (m : ApprovalMediation) (b : Ballot) :
    (submitVote m b).1.policy = m.policy ∧
      (submitVote m b).1.enrolledClients = m.enrolledClients := by
  rw [submitVote]
  split_ifs
  · exact ⟨rfl, rfl⟩
  · exact ⟨rfl, rfl⟩
  · split
    · split_ifs <;> exact ⟨rfl, rfl⟩
    · exact ⟨rfl, rfl⟩

/-! ### Runs -/

def after (m : ApprovalMediation) (ballots : List Ballot) : ApprovalMediation :=
  run submitVote m ballots

theorem after_concat (m : ApprovalMediation) (ballots : List Ballot) (b : Ballot) :
    after m (ballots ++ [b]) = (submitVote (after m ballots) b).1 := by
  rw [after, run_append, run_cons, run_nil]
  rfl

/-- What holds of a mediation at any time: each vote is of a client of its own that is enrolled,
and the decision is the one on the votes, once there is one. -/
structure Kept (policy : MediationPolicy) (enrolled : List String) (m : ApprovalMediation) :
    Prop where
  policy_eq : m.policy = policy
  enrolled_eq : m.enrolledClients = enrolled
  once : (m.votes.map ClientVote.clientId).Nodup
  voters : ∀ v ∈ m.votes, v.clientId ∈ enrolled
  decided : m.resolved = if m.votes = [] then none else decision policy m.votes

variable {policy : MediationPolicy} {enrolled : List String}

theorem kept_open (approvalId : String) :
    Kept policy enrolled (openMediation approvalId policy enrolled) where
  policy_eq := rfl
  enrolled_eq := rfl
  once := nodup_nil
  voters _ hv := absurd hv not_mem_nil
  decided := rfl

theorem Kept.submit (h : Kept policy enrolled m) (b : Ballot) :
    Kept policy enrolled (submitVote m b).1 := by
  obtain ⟨hpolicy, henrolled⟩ := submitVote_frame m b
  by_cases hb : Admitted m b
  · obtain ⟨hvotes, hresolved⟩ := submitVote_admitted hb
    refine ⟨hpolicy.trans h.policy_eq, henrolled.trans h.enrolled_eq, ?_, ?_, ?_⟩
    · rw [hvotes, map_append, map_singleton]
      refine nodup_append.mpr ⟨h.once, nodup_singleton _, ?_⟩
      intro client hclient client' hclient' heq
      obtain ⟨v, hv, rfl⟩ := mem_map.mp hclient
      exact hb.fresh v hv (heq.trans (mem_singleton.mp hclient'))
    · intro v hv
      rw [hvotes] at hv
      rcases mem_append.mp hv with hv | hv
      · exact h.voters v hv
      · rw [mem_singleton.mp hv]
        exact h.enrolled_eq ▸ hb.enrolled
    · rw [hresolved, hvotes, h.policy_eq, if_neg (by simp)]
  · have hsame := submitVote_refused hb
    refine ⟨hpolicy.trans h.policy_eq, henrolled.trans h.enrolled_eq, ?_, ?_, ?_⟩
    · rw [hsame]
      exact h.once
    · rw [hsame]
      exact h.voters
    · rw [hsame]
      exact h.decided

theorem kept_after (approvalId : String) (ballots : List Ballot) :
    Kept policy enrolled (after (openMediation approvalId policy enrolled) ballots) := by
  induction ballots using List.reverseRecOn with
  | nil => exact kept_open approvalId
  | append_singleton ballots b ih =>
    rw [after_concat]
    exact ih.submit b

theorem Kept.length_le (h : Kept policy enrolled m) : m.votes.length ≤ enrolled.length := by
  have hsub : (m.votes.map ClientVote.clientId) ⊆ enrolled := by
    intro client hclient
    obtain ⟨v, hv, rfl⟩ := mem_map.mp hclient
    exact h.voters v hv
  have hle := (h.once.subperm hsub).length_le
  rwa [length_map] at hle

/-! ### Decisions -/

/-- A client that has not voted denies what a consensus has approved. -/
structure Overturns (m : ApprovalMediation) (b : Ballot) : Prop extends Admitted m b where
  denies : b.approve = false
  consensus : ∃ minApprovals, m.policy = .consensus minApprovals
  approved : m.resolved = some true

section Count

variable {votes : List ClientVote} {minApprovals : UInt32}

def approving (votes : List ClientVote) : Nat := (votes.filter (·.approve)).length

def denying (votes : List ClientVote) : Nat := (votes.filter (fun v => !v.approve)).length

theorem approving_concat (v : ClientVote) :
    approving (votes ++ [v]) = approving votes + if v.approve then 1 else 0 := by
  rw [approving, filter_append, length_append, approving]
  cases hv : v.approve with
  | true => rw [filter_cons_of_pos hv]; rfl
  | false => rw [filter_cons_of_neg (by rw [hv]; exact Bool.false_ne_true)]; rfl

theorem denying_concat (v : ClientVote) :
    denying (votes ++ [v]) = denying votes + if v.approve then 0 else 1 := by
  rw [denying, filter_append, length_append, denying]
  cases hv : v.approve with
  | true => rw [filter_cons_of_neg (by rw [hv]; decide)]; rfl
  | false => rw [filter_cons_of_pos (by rw [hv]; rfl)]; rfl

theorem approving_le : approving votes ≤ votes.length := length_filter_le _ _

theorem denying_le : denying votes ≤ votes.length := length_filter_le _ _

theorem decision_consensus (hroom : votes.length < 2 ^ 32) :
    decision (.consensus minApprovals) votes =
      if 0 < denying votes then some false
      else if minApprovals.toNat ≤ approving votes then some true
      else none := by
  have hdenials : (UInt32.ofNat (denying votes)).toNat = denying votes :=
    UInt32.toNat_ofNat_of_lt' (Nat.lt_of_le_of_lt denying_le hroom)
  have happrovals : (UInt32.ofNat (approving votes)).toNat = approving votes :=
    UInt32.toNat_ofNat_of_lt' (Nat.lt_of_le_of_lt approving_le hroom)
  have hdenied : UInt32.ofNat (denying votes) > 0 ↔ 0 < denying votes := by
    rw [gt_iff_lt, UInt32.lt_iff_toNat_lt, hdenials]
    rfl
  have hreached : UInt32.ofNat (approving votes) ≥ minApprovals ↔
      minApprovals.toNat ≤ approving votes := by
    rw [ge_iff_le, UInt32.le_iff_toNat_le, happrovals]
  show (if UInt32.ofNat (denying votes) > 0 then some false
    else if UInt32.ofNat (approving votes) ≥ minApprovals then some true else none) = _
  simp only [hdenied, hreached]

end Count

theorem decision_concat {votes : List ClientVote} {v : ClientVote} {d : Bool}
    (hroom : votes.length + 1 < 2 ^ 32) (hd : decision policy votes = some d)
    (hv : ∀ minApprovals, policy = .consensus minApprovals → d = true → v.approve = true) :
    decision policy (votes ++ [v]) = some d := by
  cases policy with
  | designated clientId =>
    have hd' : (votes.find? (fun v => v.clientId = clientId)).map (·.approve) = some d := hd
    obtain ⟨found, hfound, happrove⟩ := Option.map_eq_some_iff.mp hd'
    show ((votes ++ [v]).find? (fun v => v.clientId = clientId)).map (·.approve) = some d
    rw [find?_append, hfound, Option.some_or, Option.map_some, happrove]
  | consensus minApprovals =>
    have hroom' : (votes ++ [v]).length < 2 ^ 32 := by
      rw [length_append, length_singleton]
      exact hroom
    rw [decision_consensus (Nat.lt_of_succ_lt hroom)] at hd
    rw [decision_consensus hroom', approving_concat, denying_concat]
    cases d with
    | false =>
      have hdenied : 0 < denying votes := by
        by_contra hnone
        rw [if_neg hnone] at hd
        split_ifs at hd
        cases hd
      rw [if_pos (Nat.lt_of_lt_of_le hdenied (Nat.le_add_right _ _))]
    | true =>
      have hnone : ¬ 0 < denying votes := by
        intro hdenied
        rw [if_pos hdenied] at hd
        cases hd
      rw [if_neg hnone] at hd
      have hreached : minApprovals.toNat ≤ approving votes := by
        by_contra hfew
        rw [if_neg hfew] at hd
        cases hd
      rw [hv minApprovals rfl rfl, if_pos rfl, Nat.add_zero, if_neg hnone,
        if_pos (Nat.le_trans hreached (Nat.le_add_right _ _))]

/-- **One vote leaves a decision alone exactly when it does not overturn it.** -/
theorem Kept.final_iff (h : Kept policy enrolled m) (hroom : enrolled.length < 2 ^ 32) (b : Ballot) :
    (∀ d, m.resolved = some d → (submitVote m b).1.resolved = some d) ↔ ¬ Overturns m b := by
  by_cases hb : Admitted m b
  · obtain ⟨hvotes, hresolved⟩ := submitVote_admitted hb
    have hlength : m.votes.length + 1 < 2 ^ 32 := by
      have hle := (h.submit b).length_le
      rw [hvotes, length_append, length_singleton] at hle
      omega
    have hdecision : ∀ d, m.resolved = some d → decision policy m.votes = some d := by
      intro d hd
      rw [h.decided] at hd
      split_ifs at hd
      exact hd
    rw [hresolved, h.policy_eq]
    constructor
    · intro hfinal hover
      obtain ⟨minApprovals, hconsensus⟩ := hover.consensus
      have hstill := hfinal true hover.approved
      have hlength' : (m.votes ++ [(⟨b.clientId, b.approve, b.nowMs⟩ : ClientVote)]).length < 2 ^ 32 := by
        rw [length_append, length_singleton]
        exact hlength
      rw [h.policy_eq] at hconsensus
      rw [hconsensus, decision_consensus hlength', denying_concat, hover.denies,
        if_neg Bool.false_ne_true, if_pos (Nat.succ_pos _)] at hstill
      cases hstill
    · intro hover d hd
      refine decision_concat hlength (hdecision d hd) (fun minApprovals hpolicy htrue => ?_)
      subst htrue
      by_contra hdeny
      exact hover { hb with
        denies := (Bool.not_eq_true _).mp hdeny
        consensus := ⟨minApprovals, h.policy_eq.trans hpolicy⟩
        approved := hd }
  · refine iff_of_true (fun d hd => ?_) (fun hover => hb hover.toAdmitted)
    rw [submitVote_refused hb]
    exact hd

/-! ### A whole mediation -/

def Counted (enrolled : List String) (b : Ballot) : Bool :=
  !b.isModelActor && enrolled.any (· = b.clientId)

/-- What is expected of a mediation: a decision is final, model actors and clients that are not
enrolled have no influence, a client counts once, and a consensus takes so many approvals of
enrolled clients and no denial. -/
structure Mediated (approvalId : String) (policy : MediationPolicy) (enrolled : List String)
    (ballots : List Ballot) : Prop where
  final : ∀ earlier later d, earlier <+: later → later <+: ballots →
    (after (openMediation approvalId policy enrolled) earlier).resolved = some d →
    (after (openMediation approvalId policy enrolled) later).resolved = some d
  uninfluenced : (after (openMediation approvalId policy enrolled) ballots).resolved =
    (after (openMediation approvalId policy enrolled) (ballots.filter (Counted enrolled))).resolved
  once : ((after (openMediation approvalId policy enrolled) ballots).votes.map
    ClientVote.clientId).Nodup
  consensus : ∀ minApprovals, policy = .consensus minApprovals →
    (after (openMediation approvalId policy enrolled) ballots).resolved = some true →
    ∃ clients : List String, clients.Nodup ∧ minApprovals.toNat ≤ clients.length ∧
      (∀ c ∈ clients, c ∈ enrolled ∧
        ∃ v ∈ (after (openMediation approvalId policy enrolled) ballots).votes,
          v.clientId = c ∧ v.approve = true) ∧
      ∀ v ∈ (after (openMediation approvalId policy enrolled) ballots).votes, v.approve = true

/-- Two mediations that differ at most in what was audited. -/
structure SameTally (m m' : ApprovalMediation) : Prop where
  policy : m.policy = m'.policy
  enrolled : m.enrolledClients = m'.enrolledClients
  votes : m.votes = m'.votes
  resolved : m.resolved = m'.resolved

theorem SameTally.submit (h : SameTally m m') (b : Ballot) :
    SameTally (submitVote m b).1 (submitVote m' b).1 := by
  obtain ⟨hpolicy, henrolled⟩ := submitVote_frame m b
  obtain ⟨hpolicy', henrolled'⟩ := submitVote_frame m' b
  refine ⟨by rw [hpolicy, hpolicy', h.policy], by rw [henrolled, henrolled', h.enrolled], ?_, ?_⟩
  all_goals
    by_cases hb : Admitted m b
    · have hb' : Admitted m' b := ⟨hb.human, h.enrolled ▸ hb.enrolled, h.votes ▸ hb.fresh⟩
      simp only [submitVote_admitted hb, submitVote_admitted hb', h.votes, h.policy]
    · have hb' : ¬ Admitted m' b := fun hb' =>
        hb ⟨hb'.human, h.enrolled ▸ hb'.enrolled, h.votes ▸ hb'.fresh⟩
      simp only [submitVote_refused hb, submitVote_refused hb', h.votes, h.resolved]

theorem sameTally_of_not_counted (h : Kept policy enrolled m) (hb : Counted enrolled b = false) :
    SameTally (submitVote m b).1 m := by
  have hrefused : ¬ Admitted m b := by
    intro hadmitted
    rw [Counted, hadmitted.human, Bool.not_false, Bool.true_and, any_eq_false] at hb
    exact hb b.clientId (h.enrolled_eq ▸ hadmitted.enrolled) (decide_eq_true rfl)
  rw [submitVote_refused hrefused]
  exact ⟨rfl, rfl, rfl, rfl⟩

theorem sameTally_filter (approvalId : String) (ballots : List Ballot) :
    SameTally (after (openMediation approvalId policy enrolled) ballots)
      (after (openMediation approvalId policy enrolled) (ballots.filter (Counted enrolled))) := by
  induction ballots using List.reverseRecOn with
  | nil => exact ⟨rfl, rfl, rfl, rfl⟩
  | append_singleton ballots b ih =>
    rw [after_concat, filter_append]
    cases hb : Counted enrolled b with
    | true =>
      rw [filter_cons_of_pos hb, filter_nil, after_concat]
      exact ih.submit b
    | false =>
      rw [filter_cons_of_neg (by rw [hb]; exact Bool.false_ne_true), filter_nil, append_nil]
      have hkept : Kept policy enrolled (after (openMediation approvalId policy enrolled) ballots) :=
        kept_after approvalId ballots
      have hsame := sameTally_of_not_counted hkept hb
      exact ⟨hsame.policy.trans ih.policy, hsame.enrolled.trans ih.enrolled,
        hsame.votes.trans ih.votes, hsame.resolved.trans ih.resolved⟩

theorem Kept.consensus {minApprovals : UInt32} (h : Kept (.consensus minApprovals) enrolled m)
    (hroom : enrolled.length < 2 ^ 32) (happroved : m.resolved = some true) :
    ∃ clients : List String, clients.Nodup ∧ minApprovals.toNat ≤ clients.length ∧
      (∀ c ∈ clients, c ∈ enrolled ∧ ∃ v ∈ m.votes, v.clientId = c ∧ v.approve = true) ∧
      ∀ v ∈ m.votes, v.approve = true := by
  have hdecision : decision (.consensus minApprovals) m.votes = some true := by
    have hd := h.decided
    rw [happroved] at hd
    split_ifs at hd
    exact hd.symm
  rw [decision_consensus (Nat.lt_of_le_of_lt h.length_le hroom)] at hdecision
  have hnone : ¬ 0 < denying m.votes := by
    intro hdenied
    rw [if_pos hdenied] at hdecision
    cases hdecision
  rw [if_neg hnone] at hdecision
  have hreached : minApprovals.toNat ≤ approving m.votes := by
    by_contra hfew
    rw [if_neg hfew] at hdecision
    cases hdecision
  refine ⟨(m.votes.filter (·.approve)).map ClientVote.clientId,
    h.once.sublist (filter_sublist.map _), by rw [length_map]; exact hreached, ?_, ?_⟩
  · intro c hc
    obtain ⟨v, hv, rfl⟩ := mem_map.mp hc
    obtain ⟨hmem, happrove⟩ := mem_filter.mp hv
    exact ⟨h.voters v hmem, v, hmem, rfl, happrove⟩
  · intro v hv
    by_contra hdeny
    refine hnone (length_pos_of_mem (mem_filter.mpr ⟨hv, ?_⟩))
    rw [(Bool.not_eq_true _).mp hdeny]
    rfl

theorem final_of_tail (approvalId : String) (hroom : enrolled.length < 2 ^ 32)
    (earlier tail : List Ballot) {d : Bool}
    (hcalm : ∀ before b, before ++ [b] <+: earlier ++ tail →
      ¬ Overturns (after (openMediation approvalId policy enrolled) before) b)
    (hd : (after (openMediation approvalId policy enrolled) earlier).resolved = some d) :
    (after (openMediation approvalId policy enrolled) (earlier ++ tail)).resolved = some d := by
  induction tail using List.reverseRecOn with
  | nil =>
    rw [append_nil]
    exact hd
  | append_singleton tail b ih =>
    rw [← append_assoc] at hcalm ⊢
    have hprior := ih (fun before b' hpre => hcalm before b'
      (hpre.trans (prefix_append _ _)))
    rw [after_concat]
    exact ((kept_after approvalId (earlier ++ tail)).final_iff hroom b).mpr
      (hcalm (earlier ++ tail) b (prefix_refl _)) d hprior

/-- **A mediation is as it should be exactly when no vote overturns what a consensus has
approved.** -/
theorem mediated_iff (approvalId : String) (policy : MediationPolicy) (enrolled : List String)
    (hroom : enrolled.length < 2 ^ 32) (ballots : List Ballot) :
    Mediated approvalId policy enrolled ballots ↔
      ∀ before b, before ++ [b] <+: ballots →
        ¬ Overturns (after (openMediation approvalId policy enrolled) before) b := by
  constructor
  · intro h before b hpre
    refine ((kept_after approvalId before).final_iff hroom b).mp (fun d hd => ?_)
    rw [← after_concat]
    exact h.final before (before ++ [b]) d (prefix_append _ _) hpre hd
  · intro h
    have hkept : Kept policy enrolled (after (openMediation approvalId policy enrolled) ballots) :=
      kept_after approvalId ballots
    refine ⟨?_, (sameTally_filter approvalId ballots).resolved, hkept.once, ?_⟩
    · rintro earlier later d ⟨tail, rfl⟩ hlater hd
      exact final_of_tail approvalId hroom earlier tail
        (fun before b hpre => h before b (hpre.trans hlater)) hd
    · rintro minApprovals rfl happroved
      exact hkept.consensus hroom happroved

def desk (approve : Bool) : Ballot := ⟨"desktop", approve, false, 0⟩

def phone (approve : Bool) : Ballot := ⟨"mobile", approve, false, 0⟩

theorem mediated_twoApprovals :
    Mediated "apr-1" (.consensus 2) ["desktop", "mobile"] [desk true, phone true] ↔
      ∀ before b, before ++ [b] <+: [desk true, phone true] →
        ¬ Overturns (after (openMediation "apr-1" (.consensus 2) ["desktop", "mobile"]) before) b :=
  mediated_iff "apr-1" (.consensus 2) ["desktop", "mobile"] (by decide) _

/-- One approval was enough, and a denial after it turns the decision round. -/
theorem approval_overturned : ¬ ∀ approvalId policy enrolled ballots,
    Mediated approvalId policy enrolled ballots := by
  intro h
  have hfinal := (h "apr-1" (.consensus 1) ["desktop", "mobile"] [desk true, phone false]).final
    [desk true] [desk true, phone false] true ⟨[phone false], rfl⟩ (prefix_refl _) (by decide)
  exact absurd hfinal (by decide)

end ApprovalMediation

end Mediation

end Modbit
