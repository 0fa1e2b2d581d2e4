import Modbit.Lib.Chains
import Modbit.Lib.Labels
import Modbit.Lib.OrdMap
import Modbit.Lib.Run

/-!
# Engineering memory

`EngineeringMemory` of `crates/checkpoint/src/mcp_memory.rs`.  A fact is promoted under the next
number, may be superseded by one that is promoted with the same call, and may be deleted; it stays in
the map.  `supersessionChain` follows the facts that supersede each other.

`Numbered` is what every memory keeps: a fact is under its own number, and the one that supersedes it
has a greater one.  `memory_law` is what follows for all calls.  The counter is far below `2 ^ 64`.
-/

namespace Modbit

open Lib

namespace EngineeringMemory

structure MemoryFact where
  factId : String
  text : String
  scope : String
  provenance : String
  ttlExpiresMs : Option Int
  supersededBy : Option String
  deleted : Bool
  deriving DecidableEq

inductive MemoryError where
  | notValidated
  | alreadySuperseded (factId : String)
  deriving DecidableEq

structure Memory where
  facts : OrdMap String MemoryFact
  counter : Nat

def Memory.new : Memory := ⟨.empty, 0⟩

namespace Memory

variable (m : Memory)

def promoteValidated (text scope provenance : String) (ttlExpiresMs : Option Int) :
    Memory × Except MemoryError String :=
  if provenance = "" then (m, .error .notValidated)
  else
    let counter := m.counter + 1
    let factId := label "fact-" counter
    ({ facts := m.facts.insert factId
          { factId := factId, text := text, scope := scope, provenance := provenance,
            ttlExpiresMs := ttlExpiresMs, supersededBy := none, deleted := false },
       counter := counter }, .ok factId)

def supersede (oldId newText newScope provenance : String) : Memory × Except MemoryError String :=
  match m.facts.find? oldId with
  | none => (m, .error (.alreadySuperseded oldId))
  | some old =>
    if old.supersededBy.isSome = true ∨ old.deleted = true then
      (m, .error (.alreadySuperseded oldId))
    else
      match m.promoteValidated newText newScope provenance none with
      | (m', .error e) => (m', .error e)
      | (m', .ok newId) =>
        match m'.facts.find? oldId with
        | some old =>
          ({ m' with facts := m'.facts.insert oldId { old with supersededBy := some newId } },
            .ok newId)
        -- the `unwrap`: the old fact was there and still is
        | none => (m', .ok newId)

def delete (factId : String) : Memory × Except MemoryError Unit :=
  match m.facts.find? factId with
  | none => (m, .error (.alreadySuperseded factId))
  | some fact => ({ m with facts := m.facts.insert factId { fact with deleted := true } }, .ok ())

def liveFacts (nowMs : Int) : List MemoryFact :=
  (m.facts.entries.map Prod.snd).filter (fun f =>
    !f.deleted && f.supersededBy.isNone && f.ttlExpiresMs.all (fun t => decide (nowMs < t)))

def successor (factId : String) : Option String := (m.facts.find? factId).bind MemoryFact.supersededBy

def supersessionChain (fuel : Nat) (factId : String) : Option (List String) :=
  follow m.successor fuel [factId] factId

end Memory

inductive Call where
  | promoteValidated (text scope provenance : String) (ttlExpiresMs : Option Int)
  | supersede (oldId newText newScope provenance : String)
  | delete (factId : String)

def step (m : Memory) : Call → Memory × Except MemoryError String
  | .promoteValidated text scope provenance ttl => m.promoteValidated text scope provenance ttl
  | .supersede oldId newText newScope provenance => m.supersede oldId newText newScope provenance
  | .delete factId => ((m.delete factId).1, (m.delete factId).2.map (fun _ => factId))

/-! ### What every memory keeps -/

/-- A fact is under its number, and its successor is a fact with a greater one. -/
structure Numbered (m : Memory) : Prop where
  own : ∀ id f, m.facts.find? id = some f → f.factId = id ∧
    ∃ k, k ≤ m.counter ∧ id = label "fact-" k
  later : ∀ id x, m.successor id = some x → (m.facts.find? x).isSome = true ∧
    ∃ k j, id = label "fact-" k ∧ x = label "fact-" j ∧ k < j ∧ j ≤ m.counter

theorem numbered_new : Numbered .new :=
  ⟨fun _ _ h => (by cases h), fun _ _ h => (by cases h)⟩

variable {m : Memory} {id x oldId text scope provenance : String} {f : MemoryFact} {n counter : Nat}

theorem successor_insert (m : Memory) (key : String) (f : MemoryFact) (counter : Nat) (id : String) :
    Memory.successor ⟨m.facts.insert key f, counter⟩ id
      = if id = key then f.supersededBy else m.successor id := by
  rw [Memory.successor, OrdMap.find?_insert, Memory.successor]
  split_ifs <;> rfl

theorem isSome_insert (m : Memory) (key : String) (f : MemoryFact)
    (h : (m.facts.find? id).isSome = true) : ((m.facts.insert key f).find? id).isSome = true := by
  rw [OrdMap.find?_insert]
  split_ifs
  · rfl
  · exact h

theorem Numbered.fresh (h : Numbered m) : m.facts.find? (label "fact-" (m.counter + 1)) = none := by
  cases hfind : m.facts.find? (label "fact-" (m.counter + 1)) with
  | none => rfl
  | some f =>
    obtain ⟨-, k, hk, hlabel⟩ := h.own _ f hfind
    have hsame := label_inj hlabel
    omega

theorem Numbered.insert (h : Numbered m) (hn : n ≤ counter) (hcounter : m.counter ≤ counter)
    (hid : f.factId = label "fact-" n)
    (hby : ∀ x ∈ f.supersededBy, (m.facts.find? x).isSome = true ∧
      ∃ j, x = label "fact-" j ∧ n < j ∧ j ≤ counter) :
    Numbered ⟨m.facts.insert (label "fact-" n) f, counter⟩ := by
  constructor
  · intro id g hg
    rw [OrdMap.find?_insert] at hg
    split_ifs at hg with hkey
    · obtain rfl := Option.some.inj hg
      exact ⟨hid.trans hkey.symm, n, hn, hkey⟩
    · obtain ⟨hown, k, hk, hlabel⟩ := h.own id g hg
      exact ⟨hown, k, Nat.le_trans hk hcounter, hlabel⟩
  · intro id x hx
    rw [successor_insert] at hx
    split_ifs at hx with hkey
    · obtain ⟨hsome, j, hj, hlt, hle⟩ := hby x hx
      exact ⟨isSome_insert m _ f hsome, n, j, hkey, hj, hlt, hle⟩
    · obtain ⟨hsome, k, j, hk, hj, hlt, hle⟩ := h.later id x hx
      exact ⟨isSome_insert m _ f hsome, k, j, hk, hj, hlt, Nat.le_trans hle hcounter⟩

theorem promoteValidated_cases (h : Numbered m) (text scope provenance : String) (ttl : Option Int) :
    m.promoteValidated text scope provenance ttl = (m, .error .notValidated) ∨
      ∃ m', m.promoteValidated text scope provenance ttl
          = (m', .ok (label "fact-" (m.counter + 1))) ∧ Numbered m' ∧ m'.counter = m.counter + 1 ∧
        (m'.facts.find? (label "fact-" (m.counter + 1))).isSome = true ∧
        (∀ id, id ≠ label "fact-" (m.counter + 1) → m'.facts.find? id = m.facts.find? id) ∧
        ∀ id, m'.successor id = m.successor id := by
  rw [Memory.promoteValidated]
  split_ifs with hprovenance
  · exact .inl rfl
  · refine .inr ⟨_, rfl, ?_, rfl, ?_, ?_, ?_⟩
    · exact h.insert (Nat.le_refl _) (Nat.le_succ _) rfl (fun x hx => (by cases hx))
    · rw [OrdMap.find?_insert, if_pos rfl]
      rfl
    · intro id hid
      rw [OrdMap.find?_insert, if_neg hid]
    · intro id
      rw [successor_insert]
      split_ifs with hkey
      · rw [hkey, Memory.successor, h.fresh]
        rfl
      · rfl

theorem supersede_cases (h : Numbered m) (oldId text scope provenance : String) :
    (∃ e, m.supersede oldId text scope provenance = (m, .error e)) ∨
      ∃ m', m.supersede oldId text scope provenance = (m', .ok (label "fact-" (m.counter + 1))) ∧
        Numbered m' ∧ (m.facts.find? oldId).isSome = true ∧ m.successor oldId = none ∧
          ∀ id, m'.successor id
            = if id = oldId then some (label "fact-" (m.counter + 1)) else m.successor id := by
  rw [Memory.supersede]
  cases hold : m.facts.find? oldId with
  | none => exact .inl ⟨_, rfl⟩
  | some old =>
    dsimp only
    split_ifs with hclosed
    · exact .inl ⟨_, rfl⟩
    · rcases promoteValidated_cases h text scope provenance none with
        hpromote | ⟨m', hpromote, hm', hcounter, hnew, hothers, hsuccessor⟩
      · rw [hpromote]
        exact .inl ⟨_, rfl⟩
      · rw [hpromote]
        dsimp only
        obtain ⟨hown, k, hk, hlabel⟩ := h.own oldId old hold
        have hne : oldId ≠ label "fact-" (m.counter + 1) := by
          intro heq
          have hsame := label_inj (hlabel.symm.trans heq)
          omega
        rw [hothers oldId hne, hold]
        refine .inr ⟨_, rfl, ?_, rfl, ?_, ?_⟩
        · have hinsert : Numbered ⟨m'.facts.insert (label "fact-" k)
              { old with supersededBy := some (label "fact-" (m.counter + 1)) }, m'.counter⟩ := by
            refine hm'.insert (by omega) (Nat.le_refl _) (hown.trans hlabel) ?_
            rintro x hx
            obtain rfl := Option.some.inj hx
            exact ⟨hnew, m.counter + 1, rfl, by omega, by omega⟩
          rw [← hlabel] at hinsert
          exact hinsert
        · rw [Memory.successor, hold]
          exact Option.not_isSome_iff_eq_none.mp (fun hsome => hclosed (.inl hsome))
        · intro id
          rw [successor_insert, hsuccessor]

theorem delete_numbered (h : Numbered m) (factId : String) :
    Numbered (m.delete factId).1 ∧ ∀ id, (m.delete factId).1.successor id = m.successor id := by
  rw [Memory.delete]
  cases hfind : m.facts.find? factId with
  | none => exact ⟨h, fun _ => rfl⟩
  | some fact =>
    have hsuccessor : m.successor factId = fact.supersededBy := by
      rw [Memory.successor, hfind]
      rfl
    obtain ⟨hown, k, hk, hlabel⟩ := h.own factId fact hfind
    refine ⟨?_, fun id => ?_⟩
    · have hinsert : Numbered
          ⟨m.facts.insert (label "fact-" k) { fact with deleted := true }, m.counter⟩ := by
        refine h.insert hk (Nat.le_refl _) (hown.trans hlabel) ?_
        intro x hx
        obtain ⟨hsome, k', j, hk', hj, hlt, hle⟩ := h.later factId x (hsuccessor.trans hx)
        obtain rfl := label_inj (hlabel.symm.trans hk')
        exact ⟨hsome, j, hj, hlt, hle⟩
      rw [← hlabel] at hinsert
      exact hinsert
    · rw [successor_insert]
      split_ifs with hkey
      · rw [hkey, hsuccessor]
      · rfl

/-- **A call keeps the numbering, and no successor is changed.** -/
theorem step_keeps (h : Numbered m) (call : Call) : Numbered (step m call).1 ∧
    ∀ id x, m.successor id = some x → (step m call).1.successor id = some x := by
  cases call with
  | promoteValidated text scope provenance ttl =>
    rw [step]
    rcases promoteValidated_cases h text scope provenance ttl with
      hpromote | ⟨m', hpromote, hm', -, -, -, hsuccessor⟩
    · rw [hpromote]
      exact ⟨h, fun _ _ hx => hx⟩
    · rw [hpromote]
      exact ⟨hm', fun id x hx => (hsuccessor id).trans hx⟩
  | supersede oldId text scope provenance =>
    rw [step]
    rcases supersede_cases h oldId text scope provenance with
      ⟨e, hfails⟩ | ⟨m', hsupersede, hm', -, hopen, hsuccessor⟩
    · rw [hfails]
      exact ⟨h, fun _ _ hx => hx⟩
    · rw [hsupersede]
      refine ⟨hm', fun id x hx => ?_⟩
      rw [hsuccessor]
      split_ifs with hkey
      · cases (hkey ▸ hopen).symm.trans hx
      · exact hx
  | delete factId =>
    obtain ⟨hm', hsuccessor⟩ := delete_numbered h factId
    exact ⟨hm', fun id x hx => (hsuccessor id).trans hx⟩

theorem run_keeps (h : Numbered m) (calls : List Call) : Numbered (run step m calls) ∧
    ∀ id x, m.successor id = some x → (run step m calls).successor id = some x := by
  induction calls generalizing m with
  | nil => exact ⟨h, fun _ _ hx => hx⟩
  | cons call calls ih =>
    obtain ⟨hstep, hkept⟩ := step_keeps h call
    obtain ⟨hrun, hrest⟩ := ih hstep
    exact ⟨hrun, fun id x hx => hrest id x (hkept id x hx)⟩

/-! ### The law -/

/-- What holds of a memory: every chain goes from the id to a fact without successor, repeats nothing,
and has one live fact at most; a fact is superseded once, by a fact that is promoted later; a call that
fails changes nothing. -/
structure Lawful (m : Memory) : Prop where
  chain : ∀ id, ∃ l n, (∀ fuel, n ≤ fuel → m.supersessionChain fuel id = some l) ∧
    Leads m.successor id l ∧ l.Nodup ∧ ∀ nowMs, ∀ f ∈ m.liveFacts nowMs,
      ∀ g ∈ m.liveFacts nowMs, f.factId ∈ l → g.factId ∈ l → f = g
  once : ∀ id x, m.successor id = some x → ∀ calls,
    (run step m calls).successor id = some x ∧ ∀ text scope provenance, ∃ e,
      (run step m calls).supersede id text scope provenance = (run step m calls, .error e)
  later : ∀ id text scope provenance x m', m.supersede id text scope provenance = (m', .ok x) →
    (m.facts.find? id).isSome = true ∧ m.facts.find? x = none ∧ m'.successor id = some x
  ordered : ∀ id x, m.successor id = some x → (m.facts.find? x).isSome = true ∧
    ∃ k j, id = label "fact-" k ∧ x = label "fact-" j ∧ k < j
  failed : ∀ id text scope provenance m' e,
    m.supersede id text scope provenance = (m', .error e) → m' = m

theorem supersede_superseded (h : m.successor id = some x) (text scope provenance : String) :
    ∃ e, m.supersede id text scope provenance = (m, .error e) := by
  rw [Memory.successor] at h
  rw [Memory.supersede]
  cases hfind : m.facts.find? id with
  | none => exact ⟨_, rfl⟩
  | some old =>
    rw [hfind] at h
    have hsome : old.supersededBy.isSome = true := Option.isSome_iff_exists.mpr ⟨x, h⟩
    exact ⟨_, if_pos (.inl hsome)⟩

theorem mem_liveFacts (h : Numbered m) {nowMs : Int} (hf : f ∈ m.liveFacts nowMs) :
    m.facts.find? f.factId = some f ∧ m.successor f.factId = none := by
  obtain ⟨hmem, hlive⟩ := List.mem_filter.mp hf
  obtain ⟨⟨id, g⟩, hentry, rfl⟩ := List.mem_map.mp hmem
  have hfind := OrdMap.mem_entries.mp hentry
  have hid := (h.own id g hfind).1
  rw [Bool.and_eq_true, Bool.and_eq_true] at hlive
  refine ⟨hid.symm ▸ hfind, ?_⟩
  rw [hid, Memory.successor, hfind]
  exact Option.isNone_iff_eq_none.mp hlive.1.2

theorem Numbered.lawful (h : Numbered m) : Lawful m := by
  have hrank : ∀ a b, m.successor a = some b →
      labelNumber "fact-" a < labelNumber "fact-" b ∧ labelNumber "fact-" b ≤ m.counter := by
    intro a b hab
    obtain ⟨-, k, j, rfl, rfl, hlt, hle⟩ := h.later a b hab
    rw [labelNumber_label, labelNumber_label]
    exact ⟨hlt, hle⟩
  refine ⟨fun id => ?_, ?_, ?_, ?_, ?_⟩
  · obtain ⟨l, hl⟩ := exists_leads hrank id
    refine ⟨l, l.length, fun fuel hfuel => ?_, hl, hl.nodup hrank, ?_⟩
    · rw [Memory.supersessionChain, follow_eq hl [id] hfuel, hl.cons_tail]
      rfl
    · intro nowMs f hf g hg hfl hgl
      obtain ⟨hfind, hnone⟩ := mem_liveFacts h hf
      obtain ⟨hfind', hnone'⟩ := mem_liveFacts h hg
      have hsame := hl.eq_of_stops hfl hgl hnone hnone'
      exact Option.some.inj (hfind.symm.trans (hsame ▸ hfind'))
  · intro id x hx calls
    have hkept := (run_keeps h calls).2 id x hx
    exact ⟨hkept, fun text scope provenance => supersede_superseded hkept text scope provenance⟩
  · intro id text scope provenance x m' hcall
    rcases supersede_cases h id text scope provenance with
      ⟨e, hfails⟩ | ⟨m'', hsupersede, -, hthere, -, hsuccessor⟩
    · cases hfails.symm.trans hcall
    · obtain ⟨rfl, hx⟩ := Prod.mk.inj (hsupersede.symm.trans hcall)
      obtain rfl := Except.ok.inj hx
      exact ⟨hthere, h.fresh, by rw [hsuccessor, if_pos rfl]⟩
  · intro id x hx
    obtain ⟨hsome, k, j, hk, hj, hlt, -⟩ := h.later id x hx
    exact ⟨hsome, k, j, hk, hj, hlt⟩
  · intro id text scope provenance m' e hcall
    rcases supersede_cases h id text scope provenance with ⟨e', hfails⟩ | ⟨m'', hsupersede, -⟩
    · exact (congrArg Prod.fst (hfails.symm.trans hcall)).symm
    · cases hsupersede.symm.trans hcall

/-- **The memory's law**, after any calls. -/
theorem memory_law (calls : List Call) : Lawful (run step .new calls) :=
  (run_keeps numbered_new calls).1.lawful

end EngineeringMemory

end Modbit
