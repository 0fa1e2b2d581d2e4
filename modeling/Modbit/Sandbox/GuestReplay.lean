import Modbit.Lib.Reservation
import Modbit.Lib.Run
import Modbit.Sandbox.GuestCalls

/-!
# Replay under interleaving

The replay cache is read and written in two critical sections, so that two deliveries of an id may
both miss it before either has inserted its answer, and both carry the operation out.

`once_of_lookups` excludes such lookups, and then the operation of an id is begun a second time
only after the id has left the replay window: its entry was evicted, or its answer was one that
is never cached.  A call between its lookup and its insertion holds its id: there is one such call
for an id, and the id is not cached.  An id that was performed and has not left the window is cached
or in the hands of the call that performs it.
-/

namespace Modbit.Sandbox

open Lib Window List

namespace IdempotencyCache

variable {c : IdempotencyCache} {id id' : String} {response : GuestResponse}

theorem find?_evict {map : OrdMap String GuestResponse} (h : map.find? id = none)
    (order : List String) : (evict map order).map.find? id = none := by
  induction order generalizing map with
  | nil => exact h
  | cons old order ih =>
    rw [evict]
    split
    · refine ih ?_
      rw [OrdMap.find?_erase]
      split
      · rfl
      · exact h
    · exact h

theorem get_put_self : (c.put id response).get id ≠ none := by
  rw [put, get]
  split
  · next h => exact Option.isSome_iff_ne_none.mp h
  · rw [OrdMap.find?_insert, if_pos rfl]
    exact Option.some_ne_none _

theorem get_put_of_ne (hne : id' ≠ id) (h : c.get id' = none) :
    (c.put id response).get id' = none := by
  rw [put, get]
  split
  · exact h
  · rw [OrdMap.find?_insert, if_neg hne]
    exact find?_evict h c.order

theorem mem_lost {c' : IdempotencyCache} (h : c.get id ≠ none) (h' : c'.get id = none) :
    id ∈ c.lost c' := by
  refine mem_filter.mpr ⟨OrdMap.mem_keys.mpr (Option.ne_none_iff_exists'.mp h), ?_⟩
  have hnone : c'.map.find? id = none := h'
  rw [hnone]
  rfl

def count (c : IdempotencyCache) (id : String) : Nat := if (c.get id).isSome then 1 else 0

theorem count_of_none (h : c.get id = none) : c.count id = 0 := by
  rw [count, h]
  rfl

theorem count_le_one : c.count id ≤ 1 := by
  rw [count]
  split_ifs
  · exact Nat.le_refl 1
  · exact Nat.zero_le 1

theorem get_of_count (h : c.count id = 0) : c.get id = none := by
  rw [count] at h
  split_ifs at h with hsome
  exact Option.not_isSome_iff_eq_none.mp hsome

theorem count_put_of_ne (hne : id' ≠ id) : (c.put id response).count id' ≤ c.count id' := by
  cases h : c.get id' with
  | none =>
    rw [count_of_none (get_put_of_ne hne h)]
    exact Nat.zero_le _
  | some r =>
    rw [count, count, h]
    exact count_le_one

end IdempotencyCache

namespace World

/-- A call that has missed the cache and has not inserted its answer. -/
def active : Phase → Bool
  | .lookup => false
  | .answered _ => false
  | _ => true

/-- A call that has begun its operation and has not inserted its answer. -/
def performing : Phase → Bool
  | .spawned .. => true
  | .waiting .. => true
  | .insert _ => true
  | _ => false

/-- A lookup that misses, while no other delivery of the id is between its lookup and its
insertion. -/
def ClearLookup (w : World) (req : GuestRequest) : Prop :=
  w.guest.cache.get req.requestId = none →
    ∀ call ∈ w.calls, call.1.requestId = req.requestId → active call.2 = false

def ClearTurn (w : World) (req : GuestRequest) : Phase → Prop
  | .lookup => w.ClearLookup req
  | _ => True

def LookupsClear (w : World) : Event → Prop
  | .turn i _ => ∀ call ∈ w.calls[i]?, w.ClearTurn call.1 call.2
  | _ => True

/-! ### What is held -/

def takes (id : String) (call : GuestRequest × Phase) : Bool :=
  decide (call.1.requestId = id) && active call.2

/-- An id has an answer in the cache or a call that holds it, and not more; one that was performed
and has not left the window has its answer or is being performed. -/
structure Held (w : World) : Prop where
  slots : ∀ id, Within (takes id) 1 (w.guest.cache.count id) w.calls
  opened : ∀ id, Open w.log id → w.guest.cache.get id ≠ none ∨
    ∃ call ∈ w.calls, call.1.requestId = id ∧ performing call.2 = true
  once : Once w.log

theorem active_of_performing {phase : Phase} (h : performing phase = true) :
    active phase = true := by
  cases phase with
  | spawned procId run => rfl
  | waiting procId run => rfl
  | insert response => rfl
  | _ => cases h

theorem takes_iff {id : String} {call : GuestRequest × Phase} :
    takes id call = true ↔ call.1.requestId = id ∧ active call.2 = true := by
  rw [takes, Bool.and_eq_true, decide_eq_true_iff]

variable {w : World} {i : Nat} {o : Outside} {req : GuestRequest} {phase phase' : Phase}

theorem Held.of_active (h : w.Held) (hi : w.calls[i]? = some (req, phase))
    (ha : active phase = true) : w.guest.cache.get req.requestId = none ∧
      ∀ call ∈ w.calls, call.1.requestId = req.requestId → performing call.2 = true →
        call = (req, phase) := by
  obtain ⟨hcount, honly⟩ := (h.slots req.requestId).sole (mem_of_getElem? hi)
    (takes_iff.mpr ⟨rfl, ha⟩)
  exact ⟨IdempotencyCache.get_of_count hcount, fun call hmem hid hp =>
    honly call hmem (takes_iff.mpr ⟨hid, active_of_performing hp⟩)⟩

theorem performing_set {id : String} (hi : w.calls[i]? = some (req, phase))
    (hself : req.requestId = id → performing phase = true → performing phase' = true)
    (h : ∃ call ∈ w.calls, call.1.requestId = id ∧ performing call.2 = true) :
    ∃ call ∈ w.calls.set i (req, phase'), call.1.requestId = id ∧ performing call.2 = true := by
  obtain ⟨hlt, -⟩ := List.getElem?_eq_some_iff.mp hi
  obtain ⟨call, hmem, hid, hp⟩ := h
  obtain ⟨j, hj⟩ := mem_iff_getElem?.mp hmem
  by_cases hij : i = j
  · subst hij
    rw [hi] at hj
    obtain rfl := Option.some.inj hj
    exact ⟨(req, phase'), mem_set hlt _, hid, hself hid hp⟩
  · refine ⟨call, mem_of_getElem? (i := j) ?_, hid, hp⟩
    rw [getElem?_set_ne hij, hj]

/-! ### Turns -/

variable {w' : World}

theorem Held.quiet (h : w.Held) (hi : w.calls[i]? = some (req, phase))
    (ha : active phase' = true → active phase = true)
    (hp : performing phase = true → performing phase' = true)
    (hcalls : w'.calls = w.calls.set i (req, phase')) (hcache : w'.guest.cache = w.guest.cache)
    (hlog : w'.log = w.log) : w'.Held where
  slots id := by
    rw [hcalls, hcache]
    refine (h.slots id).keep hi (fun htakes => ?_) (Nat.le_refl _)
    rw [takes_iff] at htakes ⊢
    exact ⟨htakes.1, ha htakes.2⟩
  opened id hopen := by
    rw [hlog] at hopen
    rw [hcalls, hcache]
    exact (h.opened id hopen).imp_right (performing_set hi (fun _ => hp))
  once := by
    rw [hlog]
    exact h.once

theorem cache_beginOp (e : GuestExecutor) (o : Outside) (req : GuestRequest) :
    (e.beginOp o req).1.cache = e.cache := by
  rw [GuestExecutor.beginOp]
  split
  · next argv cwd env timeoutMs hop =>
    have hframe := GuestExecutor.frame_startProc (e := e.perform req) o req.generation argv cwd env
      timeoutMs
    split
    · next heq =>
      rw [heq] at hframe
      exact hframe.cache
    · next heq =>
      rw [heq] at hframe
      exact hframe.cache
  · have hframe := GuestExecutor.frame_carryOut (e := e.perform req) o req
    split
    · next heq =>
      rw [heq] at hframe
      exact hframe.cache
    · next heq =>
      rw [heq] at hframe
      exact hframe.cache

theorem phase_beginOp (e : GuestExecutor) (o : Outside) (req : GuestRequest) :
    performing (e.beginOp o req).2 = true ∨ (e.beginOp o req).2 = .answered none := by
  rw [GuestExecutor.beginOp]
  split
  · split
    · exact Or.inl rfl
    · exact Or.inl rfl
  · split
    · exact Or.inr rfl
    · exact Or.inl rfl

theorem notes_dispatch (e : GuestExecutor) (o : Outside) (req : GuestRequest) :
    (performing (e.beginOp o req).2 = true ∧
      notes e o req .dispatch = [.performed req.requestId]) ∨
    ((e.beginOp o req).2 = .answered none ∧
      notes e o req .dispatch = [.performed req.requestId, .left req.requestId]) := by
  rw [notes]
  rcases phase_beginOp e o req with hp | hdone
  · refine Or.inl ⟨hp, ?_⟩
    split
    · next r heq =>
      rw [heq] at hp
      cases hp
    · rfl
  · refine Or.inr ⟨hdone, ?_⟩
    rw [hdone]

theorem held_dispatch (h : w.Held) (hi : w.calls[i]? = some (req, .dispatch))
    (hcalls : w'.calls = w.calls.set i (req, (w.guest.beginOp o req).2))
    (hguest : w'.guest = (w.guest.beginOp o req).1)
    (hlog : w'.log = w.log ++ notes w.guest o req .dispatch) : w'.Held := by
  obtain ⟨hmiss, honly⟩ := h.of_active hi rfl
  obtain ⟨hlt, -⟩ := List.getElem?_eq_some_iff.mp hi
  have hclosed : ¬ Open w.log req.requestId := by
    intro hopen
    rcases h.opened _ hopen with hcached | ⟨call, hmem, hid, hp⟩
    · exact hcached hmiss
    · rw [honly call hmem hid hp] at hp
      cases hp
  have hperform : Once (w.log ++ [.performed req.requestId]) := h.once.performed hclosed
  have hcache : w'.guest.cache = w.guest.cache := by rw [hguest, cache_beginOp]
  have hslots : ∀ id, Within (takes id) 1 (w'.guest.cache.count id) w'.calls := by
    intro id
    rw [hcalls, hcache]
    refine (h.slots id).keep hi (fun htakes => ?_) (Nat.le_refl _)
    exact takes_iff.mpr ⟨(takes_iff.mp htakes).1, rfl⟩
  -- The notes of another id are those it had, and its calls are others.
  have hother : ∀ id, Open w.log id → req.requestId ≠ id → w'.guest.cache.get id ≠ none ∨
      ∃ call ∈ w'.calls, call.1.requestId = id ∧ performing call.2 = true := by
    intro id hopen hne
    rw [hcache, hcalls]
    exact (h.opened id hopen).imp_right (performing_set hi (fun hid => absurd hid hne))
  rcases notes_dispatch w.guest o req with ⟨hp, hnotes⟩ | ⟨hdone, hnotes⟩
  · rw [hnotes] at hlog
    refine ⟨hslots, fun id hopen => ?_, hlog ▸ hperform⟩
    rw [hlog] at hopen
    by_cases hid : req.requestId = id
    · exact Or.inr ⟨(req, _), hcalls ▸ mem_set hlt _, hid, hp⟩
    · rcases open_performed hopen with hopen | he
      · exact hother id hopen hid
      · exact absurd he hid
  · rw [hnotes] at hlog
    have hsplit : w'.log = w.log ++ [.performed req.requestId] ++ [.left req.requestId] := by
      rw [hlog, append_assoc]
      rfl
    refine ⟨hslots, fun id hopen => ?_, hsplit ▸ hperform.left _⟩
    rw [hsplit] at hopen
    obtain ⟨hopen, hid⟩ := open_left hopen
    rcases open_performed hopen with hopen | he
    · exact hother id hopen hid
    · exact absurd he hid

theorem held_insert {response : GuestResponse} (h : w.Held)
    (hi : w.calls[i]? = some (req, .insert response))
    (hcalls : w'.calls = w.calls.set i (req, .answered (some response)))
    (hguest : w'.guest = w.guest.remember response req.requestId)
    (hlog : w'.log = w.log ++ notes w.guest o req (.insert response)) : w'.Held := by
  rw [notes] at hlog
  rw [GuestExecutor.remember] at hguest
  split_ifs at hlog hguest with hfence
  · refine ⟨fun id => ?_, fun id hopen => ?_, hlog ▸ h.once.left _⟩
    · rw [hcalls, hguest]
      refine (h.slots id).keep hi (fun htakes => ?_) (Nat.le_refl _)
      cases (takes_iff.mp htakes).2
    · rw [hlog] at hopen
      obtain ⟨hopen, hne⟩ := open_left hopen
      rw [hguest, hcalls]
      exact (h.opened id hopen).imp_right (performing_set hi (fun hid => absurd hid hne))
  · have hcache : w'.guest.cache = w.guest.cache.put req.requestId response := by rw [hguest]
    rw [GuestExecutor.remember, if_neg hfence] at hlog
    refine ⟨fun id => ?_, fun id hopen => ?_, hlog ▸ h.once.lefts _⟩
    · rw [hcalls, hcache]
      by_cases hid : req.requestId = id
      · have hmiss := (h.of_active hi rfl).1
        rw [hid] at hmiss
        refine (h.slots id).use hi (takes_iff.mpr ⟨hid, rfl⟩) ?_ ?_
        · rw [takes, Bool.and_eq_false_iff]
          exact Or.inr rfl
        · rw [IdempotencyCache.count_of_none hmiss]
          exact IdempotencyCache.count_le_one
      · refine (h.slots id).keep hi (fun htakes => ?_)
          (IdempotencyCache.count_put_of_ne (Ne.symm hid))
        cases (takes_iff.mp htakes).2
    · rw [hlog] at hopen
      obtain ⟨hopen, hkept⟩ := open_lefts _ hopen
      rw [hcache, hcalls]
      by_cases hid : req.requestId = id
      · exact Or.inl (hid ▸ IdempotencyCache.get_put_self)
      · rcases h.opened id hopen with hcached | hp
        · refine Or.inl (fun hnone => hkept (IdempotencyCache.mem_lost hcached hnone))
        · exact Or.inr (performing_set hi (fun he => absurd he hid) hp)

theorem held_miss (h : w.Held) (hi : w.calls[i]? = some (req, .lookup))
    (hmiss : w.guest.cache.get req.requestId = none)
    (hclear : ∀ call ∈ w.calls, call.1.requestId = req.requestId → active call.2 = false)
    (hcalls : w'.calls = w.calls.set i (req, .readGeneration))
    (hcache : w'.guest.cache = w.guest.cache) (hlog : w'.log = w.log) : w'.Held where
  slots id := by
    rw [hcalls, hcache]
    by_cases hid : req.requestId = id
    · refine Within.reserve hi (fun call hmem => ?_) ?_
      · rw [takes, Bool.and_eq_false_iff]
        by_cases hcall : call.1.requestId = id
        · exact Or.inr (hclear call hmem (hcall.trans hid.symm))
        · exact Or.inl (decide_eq_false hcall)
      · rw [IdempotencyCache.count_of_none (hid ▸ hmiss)]
        exact Nat.one_pos
    · refine (h.slots id).keep hi (fun htakes => ?_) (Nat.le_refl _)
      exact absurd (takes_iff.mp htakes).1 hid
  opened id hopen := by
    rw [hlog] at hopen
    rw [hcalls, hcache]
    refine (h.opened id hopen).imp_right (performing_set hi (fun _ hp => ?_))
    cases hp
  once := by
    rw [hlog]
    exact h.once

theorem held_turn (h : w.Held) (hi : w.calls[i]? = some (req, phase))
    (hclear : w.ClearTurn req phase) : (w.step (.turn i o)).1.Held := by
  have hstep : (w.step (.turn i o)).1 =
      { w with
        guest := (w.guest.turn o req phase).1
        calls := w.calls.set i (req, (w.guest.turn o req phase).2)
        returned := w.returned ++ returns w.guest req phase
        log := w.log ++ notes w.guest o req phase } := by
    rw [step, hi]
  rw [hstep]
  -- Of most phases the turn adds no note.
  have hsame : w.log ++ [] = w.log := append_nil _
  cases phase with
  | lookup =>
    cases hcache : w.guest.cache.get req.requestId with
    | some cached =>
      have hrests : active (.answered (some cached)) = true → active .lookup = true :=
        fun ha => (by cases ha)
      refine h.quiet hi hrests id ?_ ?_ hsame
      · rw [GuestExecutor.turn, hcache]
      · rw [GuestExecutor.turn, hcache]
    | none =>
      refine held_miss h hi hcache (hclear hcache) ?_ ?_ hsame
      · rw [GuestExecutor.turn, hcache]
      · rw [GuestExecutor.turn, hcache]
  | readGeneration => exact h.quiet hi (fun _ => rfl) (fun hp => (by cases hp)) rfl rfl hsame
  | advance =>
    refine h.quiet hi (fun _ => rfl) (fun hp => (by cases hp)) rfl ?_ hsame
    rw [GuestExecutor.turn]
    split_ifs
    · rfl
    · rfl
  | fencing => exact h.quiet hi (fun _ => rfl) (fun hp => (by cases hp)) rfl rfl hsame
  | gate =>
    refine h.quiet hi (fun _ => rfl) (fun hp => (by cases hp)) rfl ?_ hsame
    rw [GuestExecutor.turn]
    split
    · rfl
    · rfl
  | dispatch => exact held_dispatch h hi rfl rfl rfl
  | spawned procId run => exact h.quiet hi (fun _ => rfl) (fun _ => rfl) rfl rfl hsame
  | waiting procId run => exact h.quiet hi (fun _ => rfl) (fun _ => rfl) rfl rfl hsame
  | insert response => exact held_insert h hi rfl rfl rfl
  | answered response => exact h.quiet hi id id rfl rfl hsame

theorem Held.same (h : w.Held) (hcalls : w'.calls = w.calls)
    (hcache : w'.guest.cache = w.guest.cache) (hlog : w'.log = w.log) : w'.Held where
  slots id := by
    rw [hcalls, hcache]
    exact h.slots id
  opened id hopen := by
    rw [hcalls, hcache]
    exact h.opened id (hlog ▸ hopen)
  once := hlog ▸ h.once

theorem held_advanceTurn (h : w.Held) (target : Nat) (phase : AdvancePhase) :
    (w.advanceTurn i target phase).Held := by
  cases phase with
  | start =>
    rw [advanceTurn]
    split_ifs
    · exact h.same rfl rfl rfl
    · exact h.same rfl rfl rfl
  | fencing => exact h.same rfl rfl rfl
  | returned => exact h

theorem held_step (h : w.Held) (ev : Event) (hclear : w.LookupsClear ev) : (w.step ev).1.Held := by
  cases ev with
  | deliver req =>
    refine ⟨fun id => (h.slots id).enter (Bool.and_false _), fun id hopen => ?_, h.once⟩
    refine (h.opened id hopen).imp_right (fun ⟨call, hmem, hcall⟩ => ?_)
    exact ⟨call, mem_append_left _ hmem, hcall⟩
  | turn i o =>
    cases hi : w.calls[i]? with
    | none =>
      rw [step, hi]
      exact h
    | some call => exact held_turn h hi (hclear call (hi ▸ rfl))
  | advance target => exact h.same rfl rfl rfl
  | advanceTurn i =>
    rw [step]
    split
    · exact h
    · exact held_advanceTurn h _ _
  | revokeToken token => exact h.same rfl rfl rfl
  | ended procId => exact h.same rfl rfl rfl
  | ptyOutput ptyId bytes alive => exact h.same rfl rfl rfl
  | files tree => exact h.same rfl rfl rfl

/-! ### Runs -/

theorem held_start (e : GuestExecutor) : (start e).Held where
  slots _ := Within.nil IdempotencyCache.count_le_one
  opened _ hopen := absurd hopen not_open_nil
  once := once_nil

/-- In a run whose lookups are clear, an operation is begun again only after its id has left the
replay window. -/
theorem once_of_lookups {e : GuestExecutor} (h : Path step LookupsClear (start e) w) :
    Once w.log :=
  (h.invariant (held_start e) (fun _ ev hheld hclear => held_step hheld ev hclear)).once

end World

end Modbit.Sandbox
