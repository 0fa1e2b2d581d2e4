import Modbit.Lib.OrdMap
import Modbit.Lib.Text
import Modbit.Lib.Tickets
import Mathlib.Data.String.Basic

/-!
# Capacity tickets

`ResourceGovernor` and `admit_subagent` in `crates/core-runtime/src/fleet_admission.rs`.  A tenant has
a pool of tickets, and a child is admitted with one.  An admission that fails after it has taken its
ticket gives it back; `none` in place of its answer is the panic of that `unwrap`.

`governor_law`: in every run the pools hold the tickets that were handed out and not given back, each
under an id of its own, and never more than the largest capacity that was set; a failed admission
leaves every pool as it was.
-/

namespace Modbit.Governor

open Lib List

structure CapacityTicket where
  ticketId : String
  tenant : String
  deriving DecidableEq

inductive TicketError where
  | exhausted (tenant : String) (active capacity : Nat)
  | unknownTicket (id : String)

structure ResourceGovernor where
  capacity : OrdMap String Nat
  active : OrdMap String (List CapacityTicket)
  counter : Nat

structure Admission where
  childId : String
  ticket : CapacityTicket
  worktree : String
  writeSet : List String
  capabilityCeiling : String

inductive AdmissionError where
  | ticket (e : TicketError)
  | injectedFailure (step : String)

def ticketName (tenant : String) (n : Nat) : String := "ticket-" ++ tenant ++ "-" ++ toString n

namespace ResourceGovernor

def new : ResourceGovernor := ⟨.empty, .empty, 0⟩

def setCapacity (g : ResourceGovernor) (tenant : String) (capacity : Nat) : ResourceGovernor :=
  { g with capacity := g.capacity.insert tenant capacity }

def pool (g : ResourceGovernor) (tenant : String) : List CapacityTicket :=
  (g.active.find? tenant).getD []

/-- The entry of the tenant is there afterwards in any case. -/
def consume (g : ResourceGovernor) (tenant : String) :
    ResourceGovernor × Except TicketError CapacityTicket :=
  let capacity := (g.capacity.find? tenant).getD 0
  let active := g.pool tenant
  if capacity ≤ active.length then
    ({ g with active := g.active.insert tenant active },
      .error (.exhausted tenant active.length capacity))
  else
    let ticket := ⟨ticketName tenant (g.counter + 1), tenant⟩
    ({ g with
        counter := g.counter + 1
        active := g.active.insert tenant (active ++ [ticket]) }, .ok ticket)

/-- The first ticket with the id goes, from the first pool that has one. -/
def release (g : ResourceGovernor) (ticketId : String) : ResourceGovernor × Except TicketError Unit :=
  match g.active.entries.find? (fun e => e.2.any (fun t => t.ticketId = ticketId)) with
  | none => (g, .error (.unknownTicket ticketId))
  | some (tenant, tickets) =>
    ({ g with active := g.active.insert tenant (tickets.eraseP (fun t => t.ticketId = ticketId)) },
      .ok ())

def rollBack (g : ResourceGovernor) (ticket : CapacityTicket) (step : String) :
    ResourceGovernor × Option (Except AdmissionError Admission) :=
  match g.release ticket.ticketId with
  | (g, .ok ()) => (g, some (.error (.injectedFailure step)))
  | (g, .error _) => (g, none)

def admitSubagent (g : ResourceGovernor) (tenant childId worktree : String) (writeSet : List String)
    (ceiling : String) (injectFailureAt : Option String) :
    ResourceGovernor × Option (Except AdmissionError Admission) :=
  match g.consume tenant with
  | (g, .error e) => (g, some (.error (.ticket e)))
  | (g, .ok ticket) =>
    if injectFailureAt = some "after_ticket" then g.rollBack ticket "after_ticket"
    else if injectFailureAt = some "after_worktree" then g.rollBack ticket "after_worktree"
    else if injectFailureAt = some "after_write_set" then g.rollBack ticket "after_write_set"
    else (g, some (.ok ⟨childId, ticket, worktree, writeSet, ceiling⟩))

end ResourceGovernor

open ResourceGovernor

inductive Call where
  | setCapacity (tenant : String) (capacity : Nat)
  | consume (tenant : String)
  | release (ticketId : String)
  | admitSubagent (tenant childId worktree : String) (writeSet : List String) (ceiling : String)
      (injectFailureAt : Option String)

inductive Answer where
  | done
  | ticket (result : Except TicketError CapacityTicket)
  | released (result : Except TicketError Unit)
  | admission (result : Option (Except AdmissionError Admission))

def step (g : ResourceGovernor) : Call → ResourceGovernor × Answer
  | .setCapacity tenant capacity => (g.setCapacity tenant capacity, .done)
  | .consume tenant => ((g.consume tenant).1, .ticket (g.consume tenant).2)
  | .release id => ((g.release id).1, .released (g.release id).2)
  | .admitSubagent tenant childId worktree writeSet ceiling fault =>
    ((g.admitSubagent tenant childId worktree writeSet ceiling fault).1,
      .admission (g.admitSubagent tenant childId worktree writeSet ceiling fault).2)

/-! ### What is said of a run -/

def HandsOut (t : CapacityTicket) (e : Call × Answer) : Prop :=
  match e.2 with
  | .ticket (.ok ticket) => t = ticket
  | .admission (some (.ok a)) => t = a.ticket
  | _ => False

def GivesBack (t : CapacityTicket) (e : Call × Answer) : Prop := e.1 = .release t.ticketId

structure Lawful (tr : List (Call × Answer)) (g : ResourceGovernor) : Prop where
  exact : ∀ a t, t ∈ g.pool a ↔ t.tenant = a ∧ Standing HandsOut GivesBack tr t
  nodup : ∀ a, (g.pool a).Nodup
  unique : ∀ t t', (∃ e ∈ tr, HandsOut t e) → (∃ e ∈ tr, HandsOut t' e) →
    t.ticketId = t'.ticketId → t = t'
  bounded : ∀ a n, (∀ c, (∃ e ∈ tr, e.1 = .setCapacity a c) → c ≤ n) → (g.pool a).length ≤ n

structure Inv (tr : List (Call × Answer)) (g : ResourceGovernor) : Prop extends Lawful tr g where
  named : ∀ t, (∃ e ∈ tr, HandsOut t e) → ∃ n ≤ g.counter, t.ticketId = ticketName t.tenant n
  capacities : ∀ a c, g.capacity.find? a = some c → ∃ e ∈ tr, e.1 = .setCapacity a c

variable {tr : List (Call × Answer)} {g g' : ResourceGovernor} {e : Call × Answer}
  {t : CapacityTicket} {a : String}

theorem ticketName_inj {a b : String} {m n : Nat} (h : ticketName a m = ticketName b n) : m = n := by
  have hlist : ∀ (a : String) (n : Nat), (ticketName a n).toList.reverse
      = (Nat.toDigits 10 n).reverse ++ '-' :: ("ticket-" ++ a).toList.reverse := fun a n => by
    simp [ticketName, Nat.repr]
  have hnot : ∀ n, '-' ∉ (Nat.toDigits 10 n).reverse := fun n hm =>
    Text.not_mem_toDigits (by decide) n (mem_reverse.mp hm)
  have hsplit := congrArg (fun s : String => Text.splitOnce '-' s.toList.reverse) h
  simp only [hlist, Text.splitOnce_append _ _ (hnot _)] at hsplit
  have hdigits := reverse_inj.mp (Prod.mk.inj (Option.some.inj hsplit)).1
  rw [← Nat.ofDigitChars_toDigits (b := 10) (n := m) (by decide) (by decide), hdigits,
    Nat.ofDigitChars_toDigits (by decide) (by decide)]

theorem consume_cases (g : ResourceGovernor) (a : String) :
    ((∃ err, (g.consume a).2 = .error err) ∧ (∀ b, (g.consume a).1.pool b = g.pool b) ∧
        (g.consume a).1.capacity = g.capacity ∧ (g.consume a).1.counter = g.counter) ∨
      (g.consume a).2 = .ok ⟨ticketName a (g.counter + 1), a⟩ ∧
        (∃ c, g.capacity.find? a = some c ∧ (g.pool a).length < c) ∧
        (∀ b, (g.consume a).1.pool b = if b = a then
          g.pool a ++ [⟨ticketName a (g.counter + 1), a⟩] else g.pool b) ∧
        (g.consume a).1.capacity = g.capacity ∧ (g.consume a).1.counter = g.counter + 1 := by
  rw [consume]
  split_ifs with hfull
  · refine .inl ⟨⟨_, rfl⟩, fun b => ?_, rfl, rfl⟩
    rw [pool, OrdMap.find?_insert]
    split_ifs with hb
    · rw [hb]
      rfl
    · rfl
  · refine .inr ⟨rfl, ?_, fun b => ?_, rfl, rfl⟩
    · cases hc : g.capacity.find? a with
      | none => exact absurd (hc ▸ Nat.zero_le _) hfull
      | some c =>
        rw [hc] at hfull
        exact ⟨c, rfl, Nat.not_le.mp hfull⟩
    · rw [pool, OrdMap.find?_insert]
      split_ifs
      · rfl
      · rfl

/-- A release where no two pools have the id. -/
theorem release_spec {id : String} (honly : ∀ a b t t', t ∈ g.pool a → t' ∈ g.pool b →
      t.ticketId = id → t'.ticketId = id → a = b) :
    (∀ b, (g.release id).1.pool b = (g.pool b).eraseP (fun t => t.ticketId = id)) ∧
      (g.release id).1.capacity = g.capacity ∧ (g.release id).1.counter = g.counter ∧
      (∀ b t, t ∈ g.pool b → t.ticketId = id → (g.release id).2 = .ok ()) := by
  have hpool : ∀ {b l}, (b, l) ∈ g.active.entries ↔ g.active.find? b = some l := OrdMap.mem_entries
  rw [release]
  cases hfind : g.active.entries.find? (fun e => e.2.any (fun t => t.ticketId = id)) with
  | none =>
    have hnone : ∀ b t, t ∈ g.pool b → t.ticketId ≠ id := by
      intro b t ht hid
      rw [pool] at ht
      cases hb : g.active.find? b with
      | none =>
        rw [hb] at ht
        cases ht
      | some l =>
        rw [hb] at ht
        have hany := find?_eq_none.mp hfind _ (hpool.mpr hb)
        exact hany (any_eq_true.mpr ⟨t, ht, decide_eq_true hid⟩)
    refine ⟨fun b => ?_, rfl, rfl, fun b t ht hid => absurd hid (hnone b t ht)⟩
    exact (eraseP_of_forall_not (fun t ht => by simpa using hnone b t ht)).symm
  | some p =>
    obtain ⟨a, l⟩ := p
    have ha := hpool.mp (mem_of_find?_eq_some hfind)
    have hl : g.pool a = l := by rw [pool, ha]; rfl
    have hany := find?_some hfind
    obtain ⟨t, ht, hid⟩ := any_eq_true.mp hany
    refine ⟨fun b => ?_, rfl, rfl, fun _ _ _ _ => rfl⟩
    show (OrdMap.find? (g.active.insert a _) b).getD [] = _
    rw [OrdMap.find?_insert]
    split_ifs with hb
    · rw [hb, hl]
      rfl
    · refine (eraseP_of_forall_not (fun t' ht' => ?_)).symm
      exact fun hid' => hb (honly b a t' t ht' (hl.symm ▸ ht) (by simpa using hid') (by simpa using hid))

theorem Inv.keep (h : Inv tr g) (hpool : ∀ b, g'.pool b = g.pool b) (hcounter : g.counter ≤ g'.counter)
    (hcap : ∀ b c, g'.capacity.find? b = some c →
      g.capacity.find? b = some c ∨ e.1 = .setCapacity b c)
    (hout : ∀ t, ¬ HandsOut t e) (hback : ∀ t, ¬ GivesBack t e) : Inv (tr ++ [e]) g' where
  exact b t := by
    rw [hpool, h.exact, standing_concat, iff_false_intro (hout t), iff_true_intro (hback t), false_or,
      and_true]
  nodup b := hpool b ▸ h.nodup b
  unique t t' ht ht' := h.unique t t' ((exists_concat.mp ht).resolve_right (hout t))
    ((exists_concat.mp ht').resolve_right (hout t'))
  bounded b n hn := hpool b ▸ h.bounded b n (fun c hc => hn c (exists_concat.mpr (.inl hc)))
  named t ht := by
    obtain ⟨n, hn, hid⟩ := h.named t ((exists_concat.mp ht).resolve_right (hout t))
    exact ⟨n, hn.trans hcounter, hid⟩
  capacities b c hc := exists_concat.mpr ((hcap b c hc).imp_left (h.capacities b c))

/-- The next ticket has the id of no earlier one. -/
theorem Inv.fresh (h : Inv tr g) (ht : ∃ e ∈ tr, HandsOut t e) :
    t.ticketId ≠ ticketName a (g.counter + 1) := by
  intro hid
  obtain ⟨n, hn, hname⟩ := h.named t ht
  have := ticketName_inj (hname.symm.trans hid)
  omega

theorem Inv.only (h : Inv tr g) : ∀ a b t t', t ∈ g.pool a → t' ∈ g.pool b →
    t.ticketId = t'.ticketId → a = b ∧ t = t' := by
  intro a b t t' ht ht' hid
  obtain ⟨rfl, hs⟩ := (h.exact a t).mp ht
  obtain ⟨rfl, hs'⟩ := (h.exact b t').mp ht'
  have heq := h.unique t t' hs.issued hs'.issued hid
  exact ⟨congrArg _ heq, heq⟩

theorem Inv.hand (h : Inv tr g) (hok : (g.consume a).2 = .ok t)
    (hout : ∀ t', HandsOut t' e ↔ t' = t) (hback : ∀ t, ¬ GivesBack t e) :
    t = ⟨ticketName a (g.counter + 1), a⟩ ∧ Inv (tr ++ [e]) (g.consume a).1 := by
  obtain ⟨⟨err, herr⟩, -⟩ | ⟨hticket, ⟨c, hc, hlt⟩, hpool, hcap, hcounter⟩ := consume_cases g a
  · rw [herr] at hok
    cases hok
  rw [hticket] at hok
  cases hok
  have hfresh : ∀ t, (∃ e ∈ tr, HandsOut t e) → t.ticketId ≠ ticketName a (g.counter + 1) :=
    fun t => h.fresh
  have hnew : (⟨ticketName a (g.counter + 1), a⟩ : CapacityTicket) ∉ g.pool a :=
    fun hm => hfresh _ ((h.exact a _).mp hm).2.issued rfl
  refine ⟨rfl, ⟨⟨fun b t => ?_, fun b => ?_, fun t t' ht ht' hid => ?_, fun b n hn => ?_⟩, ?_, ?_⟩⟩
  · rw [hpool, standing_concat, hout, iff_true_intro (hback t), and_true]
    split_ifs with hb
    · rw [hb, mem_append, mem_singleton, h.exact]
      exact ⟨fun hm => hm.elim (fun hs => ⟨hs.1, .inr hs.2⟩) (fun ht => ⟨ht ▸ rfl, .inl ht⟩),
        fun hm => hm.2.elim .inr (fun hs => .inl ⟨hm.1, hs⟩)⟩
    · rw [h.exact]
      exact and_congr_right fun htenant =>
        (or_iff_right (fun heq => hb (htenant.symm.trans (congrArg _ heq)))).symm
  · rw [hpool]
    split_ifs
    · rw [← concat_eq_append]
      exact (h.nodup a).concat hnew
    · exact h.nodup b
  · rcases exists_concat.mp ht with ht | ht <;> rcases exists_concat.mp ht' with ht' | ht'
    · exact h.unique t t' ht ht' hid
    · rw [(hout t').mp ht'] at hid
      exact absurd hid (hfresh t ht)
    · rw [(hout t).mp ht] at hid
      exact absurd hid.symm (hfresh t' ht')
    · rw [(hout t).mp ht, (hout t').mp ht']
  · have hold := h.bounded b n (fun c hc => hn c (exists_concat.mpr (.inl hc)))
    rw [hpool]
    split_ifs with hb
    · have hcn := hn c (exists_concat.mpr (.inl (hb ▸ h.capacities a c hc)))
      rw [length_append, length_singleton]
      omega
    · exact hold
  · intro t ht
    rcases exists_concat.mp ht with ht | ht
    · obtain ⟨n, hn, hid⟩ := h.named t ht
      exact ⟨n, by omega, hid⟩
    · rw [(hout t).mp ht]
      exact ⟨_, hcounter.ge, rfl⟩
  · intro b c hc
    rw [hcap] at hc
    exact exists_concat.mpr (.inl (h.capacities b c hc))

theorem Inv.take {id : String} (h : Inv tr g) (hout : ∀ t, ¬ HandsOut t e)
    (hcall : e.1 = .release id) : Inv (tr ++ [e]) (g.release id).1 := by
  obtain ⟨hpool, hcap, hcounter, -⟩ :=
    release_spec (fun a b t t' ht ht' hid hid' => (h.only a b t t' ht ht' (hid.trans hid'.symm)).1)
  have hmem : ∀ b t, t ∈ (g.release id).1.pool b ↔ t ∈ g.pool b ∧ t.ticketId ≠ id := by
    intro b t
    rw [hpool]
    refine ⟨fun hm => ⟨mem_of_mem_eraseP hm, fun hid => ?_⟩,
      fun hm => (mem_eraseP_of_neg (by simpa using hm.2)).mpr hm.1⟩
    obtain ⟨t', l₁, l₂, -, hid', hl, herase⟩ := exists_of_eraseP (mem_of_mem_eraseP hm)
      (p := fun t => decide (t.ticketId = id)) (decide_eq_true hid)
    have heq := (h.only b b t t' (mem_of_mem_eraseP hm) (hl ▸ by simp)
      (hid.trans (of_decide_eq_true hid').symm)).2
    have hnodup := h.nodup b
    rw [hl, nodup_middle, nodup_cons, ← herase, ← heq] at hnodup
    exact hnodup.1 hm
  refine ⟨⟨fun b t => ?_, fun b => ?_, fun t t' ht ht' => ?_, fun b n hn => ?_⟩, ?_, ?_⟩
  · rw [hmem, h.exact, standing_concat, iff_false_intro (hout t), false_or, and_assoc, GivesBack,
      hcall, Call.release.injEq, eq_comm (a := id)]
  · exact hpool b ▸ (h.nodup b).sublist (eraseP_sublist)
  · exact h.unique t t' ((exists_concat.mp ht).resolve_right (hout t))
      ((exists_concat.mp ht').resolve_right (hout t'))
  · have hold := h.bounded b n (fun c hc => hn c (exists_concat.mpr (.inl hc)))
    exact (hpool b ▸ (eraseP_sublist).length_le).trans hold
  · intro t ht
    rw [hcounter]
    exact h.named t ((exists_concat.mp ht).resolve_right (hout t))
  · intro b c hc
    exact exists_concat.mpr (.inl (h.capacities b c (hcap ▸ hc)))

/-- A ticket that was just taken is given back: the pools are as before. -/
theorem Inv.back (h : Inv tr g) (hok : (g.consume a).2 = .ok t) :
    ((g.consume a).1.release t.ticketId).2 = .ok () ∧
      (∀ b, ((g.consume a).1.release t.ticketId).1.pool b = g.pool b) ∧
      ((g.consume a).1.release t.ticketId).1.capacity = g.capacity ∧
      g.counter ≤ ((g.consume a).1.release t.ticketId).1.counter := by
  obtain ⟨rfl, hhand⟩ := h.hand (e := (.consume a, .ticket (.ok t))) hok (fun t' => Iff.rfl)
    (fun t hback => by cases hback)
  obtain ⟨hpool, hcap, hcounter, hreleased⟩ := release_spec
    (fun a b t t' ht ht' hid hid' => (hhand.only a b t t' ht ht' (hid.trans hid'.symm)).1)
  obtain ⟨⟨err, herr⟩, -⟩ | ⟨-, -, hpool', hcap', hcounter'⟩ := consume_cases g a
  · rw [herr] at hok
    cases hok
  have hnone : ∀ b, ∀ t ∈ g.pool b, ¬ decide (t.ticketId = ticketName a (g.counter + 1)) :=
    fun b t ht hid => h.fresh ((h.exact b t).mp ht).2.issued (of_decide_eq_true hid)
  refine ⟨hreleased a ⟨_, a⟩ ?_ rfl, fun b => ?_, hcap.trans hcap', by omega⟩
  · rw [hpool', if_pos rfl]
    exact mem_append_right _ mem_cons_self
  · rw [hpool, hpool']
    split_ifs with hb
    · rw [hb, eraseP_append_right _ (hnone a), eraseP_cons, decide_eq_true rfl]
      exact append_nil _
    · exact eraseP_of_forall_not (hnone b)

theorem admit_cases (g : ResourceGovernor) (a : String) (child worktree : String)
    (writeSet : List String) (ceiling : String) (fault : Option String) :
    (∃ err, (g.consume a).2 = .error err ∧
        g.admitSubagent a child worktree writeSet ceiling fault =
          ((g.consume a).1, some (.error (.ticket err)))) ∨
      ∃ t, (g.consume a).2 = .ok t ∧
        ((∃ s, g.admitSubagent a child worktree writeSet ceiling fault = (g.consume a).1.rollBack t s) ∨
          g.admitSubagent a child worktree writeSet ceiling fault =
            ((g.consume a).1, some (.ok ⟨child, t, worktree, writeSet, ceiling⟩))) := by
  rw [admitSubagent]
  cases hc : g.consume a with
  | mk g' result =>
    cases result with
    | error err => exact .inl ⟨err, rfl, rfl⟩
    | ok t =>
      refine .inr ⟨t, rfl, ?_⟩
      split_ifs
      · exact .inl ⟨_, rfl⟩
      · exact .inl ⟨_, rfl⟩
      · exact .inl ⟨_, rfl⟩
      · exact .inr rfl

/-- What an admission answers, where it does not end with a ticket. -/
def Harmless (g : ResourceGovernor) (c : Call) : Prop :=
  ∀ result, (step g c).2 = .admission result → (∃ a, result = some (.ok a)) ∨
    ((∃ err, result = some (.error err)) ∧ ∀ b, (step g c).1.pool b = g.pool b)

theorem step_inv (h : Inv tr g) (c : Call) :
    Inv (tr ++ [(c, (step g c).2)]) (step g c).1 ∧ Harmless g c := by
  cases c with
  | setCapacity a n =>
    refine ⟨h.keep (fun _ => rfl) (Nat.le_refl _) (fun b c hc => ?_) (fun t ht => ht)
      (fun t ht => by cases ht), fun _ hr => by cases hr⟩
    rw [step, setCapacity, OrdMap.find?_insert] at hc
    split_ifs at hc with hb
    · cases hc
      exact .inr (hb ▸ rfl)
    · exact .inl hc
  | consume a =>
    refine ⟨?_, fun _ hr => by cases hr⟩
    cases hr : (g.consume a).2 with
    | ok t =>
      refine (h.hand hr (fun t' => ?_) (fun t ht => by cases ht)).2
      rw [step, hr]
      rfl
    | error err =>
      obtain ⟨-, hpool, hcap, hcounter⟩ | ⟨hok, -⟩ := consume_cases g a
      · refine h.keep hpool hcounter.ge (fun b c hc => .inl (hcap ▸ hc)) (fun t ht => ?_)
          (fun t ht => by cases ht)
        rw [step, hr] at ht
        exact ht
      · rw [hr] at hok
        cases hok
  | release id => exact ⟨h.take (fun t ht => ht) rfl, fun _ hr => by cases hr⟩
  | admitSubagent a child worktree writeSet ceiling fault =>
    rw [Harmless, step]
    obtain ⟨err, herr, hout⟩ | ⟨t, hok, ⟨s, hout⟩ | hout⟩ :=
      admit_cases g a child worktree writeSet ceiling fault
    · obtain ⟨-, hpool, hcap, hcounter⟩ | ⟨hok, -⟩ := consume_cases g a
      · rw [hout]
        refine ⟨h.keep hpool hcounter.ge (fun b c hc => .inl (hcap ▸ hc)) (fun t ht => ht)
          (fun t ht => by cases ht), fun r hr => .inr ?_⟩
        cases hr
        exact ⟨⟨_, rfl⟩, hpool⟩
      · rw [herr] at hok
        cases hok
    · obtain ⟨hreleased, hpool, hcap, hcounter⟩ := h.back hok
      have hback : (g.consume a).1.rollBack t s = (((g.consume a).1.release t.ticketId).1,
          some (.error (.injectedFailure s))) := by
        rw [rollBack]
        cases hrel : (g.consume a).1.release t.ticketId with
        | mk g' r =>
          rw [hrel] at hreleased
          cases hreleased
          rfl
      rw [hout, hback]
      refine ⟨h.keep hpool hcounter (fun b c hc => .inl (hcap ▸ hc)) (fun t ht => ht)
        (fun t ht => by cases ht), fun r hr => .inr ?_⟩
      cases hr
      exact ⟨⟨_, rfl⟩, hpool⟩
    · rw [hout]
      refine ⟨(h.hand hok (fun t' => Iff.rfl) (fun t ht => by cases ht)).2, fun r hr => .inl ?_⟩
      cases hr
      exact ⟨_, rfl⟩

theorem inv_new : Inv [] .new where
  exact a t := iff_of_false not_mem_nil (fun h => standing_nil h.2)
  nodup _ := nodup_nil
  unique _ _ h := by
    obtain ⟨e, he, -⟩ := h
    cases he
  bounded _ _ _ := Nat.zero_le _
  named _ h := by
    obtain ⟨e, he, -⟩ := h
    cases he
  capacities _ _ h := by cases h

theorem run_inv (calls : List Call) : Inv (exchanges step .new calls) (run step .new calls) := by
  induction calls using List.reverseRecOn with
  | nil => exact inv_new
  | append_singleton calls c ih =>
    rw [exchanges_concat, run_append]
    exact (step_inv ih c).1

/-- **The pools hold what was handed out and not given back, and a failed admission leaves them
alone.** -/
theorem governor_law (calls : List Call) :
    Lawful (exchanges step .new calls) (run step .new calls) ∧
      ∀ c, Harmless (run step .new calls) c :=
  ⟨(run_inv calls).toLawful, fun c => (step_inv (run_inv calls) c).2⟩

end Modbit.Governor
