import Modbit.Workspace.MergeTransaction

/-!
# What is left of an interrupted merge

`Sound` holds of every run, whatever fails and wherever the process stops: a transaction
that has landed has no conflicts and no failed gate, and all but the one on disk have come
to an end.  `Ready` says that the one on disk can be rolled back: its merge is live with the
branch at the recorded head, or it has made a commit to reset.

`merge_run` puts the two together.  `Ready` is lost when a call is cut off between a git
command and the save that follows it: the record then says `opened`, which no way of recovery
acts on (`interrupted_stuck`), or `conflicted` with no merge left to abort.  `Steady` excludes
just that.
-/

namespace Modbit

open Lib List

namespace Workspace

variable {α : Type} {env : Env} {site : Site} {P E : Repo → Prop}

/-! ### Rules for the steps -/

variable {command : Git → Git.Answer α}

theorem ensures_gitStep {Q : α → Repo → Prop} (hearly : env.fault site ≠ .goes → ∀ r, P r → E r)
    (hok : env.fault site = .goes → ∀ r g a, P r → command r.git = (g, .ok a) →
      Q a { r with git := g })
    (herr : env.fault site = .goes → ∀ r g e, P r → command r.git = (g, .error e) →
      E { r with git := g }) : Act.Ensures P (gitStep env site command) Q E := by
  refine Act.ensures_step hearly (fun hgoes r r' a hr hf => ?_) (fun hgoes r r' e hr hf => ?_)
  · obtain ⟨rfl, ha⟩ := Prod.mk.inj hf
    exact hok hgoes r _ a hr (Prod.ext rfl ha)
  · obtain ⟨rfl, he⟩ := Prod.mk.inj hf
    exact herr hgoes r _ e hr (Prod.ext rfl he)

theorem ensures_gitAttempt {Q : Option α → Repo → Prop}
    (hstop : env.fault site = .stops → ∀ r, P r → E r)
    (hfail : env.fault site = .fails → ∀ r, P r → Q none r)
    (hok : ∀ r g a, P r → command r.git = (g, .ok a) → Q (some a) { r with git := g })
    (herr : ∀ r g e, P r → command r.git = (g, .error e) → Q none { r with git := g }) :
    Act.Ensures P (Act.attempt (gitStep env site command)) Q E := by
  refine Act.ensures_attempt hstop hfail (fun _ r r' a hr hf => ?_) (fun _ r r' e hr hf => ?_)
  · obtain ⟨rfl, ha⟩ := Prod.mk.inj hf
    exact hok r _ a hr (Prod.ext rfl ha)
  · obtain ⟨rfl, he⟩ := Prod.mk.inj hf
    exact herr r _ e hr (Prod.ext rfl he)

variable {I : Repo → Prop}

theorem ensures_gitStep_frame (hframe : ∀ r g, I r → I { r with git := g }) :
    Act.Ensures I (gitStep env site command) (fun _ => I) I :=
  ensures_gitStep (fun _ _ h => h) (fun _ r g _ h _ => hframe r g h) (fun _ r g _ h _ => hframe r g h)

theorem ensures_load (hearly : env.fault site ≠ .goes → ∀ r, P r → E r) :
    Act.Ensures P (load env site)
      (fun record r => env.fault site = .goes ∧ r.record = record ∧ P r) E := by
  refine Act.ensures_step hearly (fun hgoes r r' a hr hf => ?_) (fun _ r r' e _ hf => ?_)
  · obtain ⟨rfl, ha⟩ := Prod.mk.inj hf
    exact ⟨hgoes, Except.ok.inj ha, hr⟩
  · cases (Prod.mk.inj hf).2

theorem ensures_loadOpen (hearly : env.fault .load ≠ .goes → ∀ r, P r → E r)
    (hnone : ∀ r, P r → r.record = none → E r) :
    Act.Ensures P (loadOpen env)
      (fun tx r => env.fault .load = .goes ∧ r.record = some tx ∧ P r) E := by
  refine Act.ensures_bind (ensures_load hearly) (fun record => ?_)
  cases record with
  | none => exact Act.ensures_fail (fun r h => hnone r h.2.2 h.2.1)
  | some tx => exact Act.ensures_pure (fun r h => h)

variable {tx : MergeTransaction}

theorem ensures_save {Q : Unit → Repo → Prop}
    (hearly : env.fault .saveAfter ≠ .goes → ∀ r, P r → E r)
    (hok : ∀ r, P r → Q () { r with record := some tx }) : Act.Ensures P (save env tx) Q E := by
  refine Act.ensures_step hearly (fun _ r r' a hr hf => ?_) (fun _ r r' e _ hf => ?_)
  · obtain ⟨rfl, -⟩ := Prod.mk.inj hf
    exact hok r hr
  · cases (Prod.mk.inj hf).2

/-! ### What every run keeps -/

/-- A transaction past its merge has no conflicts left, one that has landed no failed gate. -/
structure MergeTransaction.Sound (tx : MergeTransaction) : Prop where
  conflicts : tx.phase = .validating ∨ tx.phase = .committed → tx.conflicts = []
  validation : tx.phase = .committed → ∀ v ∈ tx.validation, v.2 = true

def Repo.Sound (r : Repo) : Prop :=
  (∀ tx ∈ r.archived, tx.phase.terminal = true) ∧ ∀ tx, r.record = some tx → tx.Sound

def Repo.Free (r : Repo) : Prop := ∀ tx, r.record = some tx → tx.phase.terminal = true

variable {r : Repo}

theorem Repo.Sound.archive (h : r.Sound) (hfree : r.Free) :
    ∀ tx ∈ r.archived ++ r.record.toList, tx.phase.terminal = true := by
  intro tx htx
  rcases mem_append.mp htx with hmem | hmem
  · exact h.1 tx hmem
  · exact hfree tx (Option.mem_toList.mp hmem)

theorem Repo.Sound.save (h : r.Sound) (htx : tx.Sound) :
    ({ r with record := some tx } : Repo).Sound :=
  ⟨h.1, fun _ he => Option.some.inj he ▸ htx⟩

theorem sound_of_phase (h : tx.phase ≠ .validating) (h' : tx.phase ≠ .committed) : tx.Sound :=
  ⟨fun hp => absurd hp (not_or.mpr ⟨h, h'⟩), fun hp => absurd hp h'⟩

theorem ensures_clearTerminal {record : Option MergeTransaction}
    (hI : ∀ r, I r → r.Free → I { r with record := none, archived := r.archived ++ r.record.toList }) :
    Act.Ensures (fun r => r.record = record ∧ I r) (clearTerminal env record)
      (fun _ r => r.Free ∧ I r) I := by
  cases record with
  | none =>
    refine Act.ensures_pure (fun r h => ⟨fun tx htx => ?_, h.2⟩)
    rw [h.1] at htx
    cases htx
  | some existing =>
    rw [clearTerminal]
    split_ifs with hterm
    · have hfree : ∀ r : Repo, r.record = some existing → r.Free := by
        intro r hr tx htx
        rw [hr] at htx
        exact Option.some.inj htx ▸ hterm
      refine Act.ensures_bind (Act.ensures_attempt (Q := fun _ r => r.Free ∧ I r)
        (fun _ r h => h.2) (fun _ r h => ⟨hfree r h.1, h.2⟩) (fun _ r r' a h hf => ?_)
        (fun _ r r' e h hf => ?_)) (fun _ => Act.ensures_pure (fun r h => h))
      · obtain ⟨rfl, -⟩ := Prod.mk.inj hf
        exact ⟨(fun tx htx => by cases htx), hI r h.2 (hfree r h.1)⟩
      · cases (Prod.mk.inj hf).2
    · exact Act.ensures_fail (fun r h => h.2)

theorem ensures_conclude (hframe : ∀ r g, I r → I { r with git := g }) :
    Act.Ensures I (conclude env tx)
      (fun tx' r => (∃ sha, tx' = { tx with phase := .validating, commitSha := some sha }) ∧ I r)
      I := by
  refine Act.ensures_bind (ensures_gitStep_frame hframe) (fun _ => ?_)
  refine Act.ensures_bind (ensures_gitStep_frame hframe) (fun sha => ?_)
  exact Act.ensures_pure (fun r h => ⟨⟨sha, rfl⟩, h⟩)

theorem ensures_startMerge {branch : String} (hframe : ∀ r g, I r → I { r with git := g }) :
    Act.Ensures I (startMerge env branch) (fun _ => I) I := by
  have hattempt : ∀ {β : Type} (site : Site) (command : Git → Git.Answer β),
      Act.Ensures I (Act.attempt (gitStep env site command)) (fun _ => I) I := by
    intro β site command
    exact ensures_gitAttempt (fun _ _ h => h) (fun _ _ h => h) (fun r g _ hr _ => hframe r g hr)
      (fun r g _ hr _ => hframe r g hr)
  refine Act.ensures_bind (hattempt _ _) (fun o => ?_)
  cases o with
  | some u => exact Act.ensures_pure (fun _ h => h)
  | none => exact Act.ensures_bind (hattempt _ _) (fun _ => Act.ensures_pure (fun _ h => h))

theorem sound_openAndMerge {id source target : String} :
    Act.Ensures Repo.Sound (openAndMerge env id source target) (fun _ => Repo.Sound) Repo.Sound := by
  refine Act.ensures_bind (ensures_load (fun _ _ h => h)) (fun record => ?_)
  refine Act.ensures_bind ((ensures_clearTerminal (I := Repo.Sound) ?_).weaken (fun r h => h.2)
    (fun _ _ h => h)) (fun _ => ?_)
  · exact fun r h hfree => ⟨h.archive hfree, fun tx htx => by cases htx⟩
  have hfree : ∀ {β : Type} (site : Site) (command : Git → Git.Answer β),
      Act.Ensures (fun r => r.Free ∧ r.Sound) (gitStep env site command)
        (fun _ r => r.Free ∧ r.Sound) Repo.Sound := fun site command =>
    ensures_gitStep (fun _ r h => h.2) (fun _ r g a h _ => h) (fun _ r g a h _ => h.2)
  refine Act.ensures_bind (hfree _ _) (fun base => ?_)
  refine Act.ensures_bind (hfree _ _) (fun _ => ?_)
  refine Act.ensures_bind (hfree _ _) (fun head => ?_)
  refine Act.ensures_bind (Q := fun _ => Repo.Sound) (Act.ensures_step (fun _ r h => h.2)
    (fun _ r r' a h hf => ?_) (fun _ r r' e _ hf => ?_)) (fun _ => ?_)
  · obtain ⟨rfl, -⟩ := Prod.mk.inj hf
    exact ⟨h.2.archive h.1, fun tx htx => Option.some.inj htx ▸
      sound_of_phase (fun hp => by cases hp) (fun hp => by cases hp)⟩
  · cases (Prod.mk.inj hf).2
  refine Act.ensures_bind (ensures_startMerge (fun r g h => h)) (fun outcome => ?_)
  refine Act.ensures_bind (Q := fun tx r => tx.Sound ∧ r.Sound) ?_ (fun tx => ?_)
  · cases outcome with
    | merged =>
      refine (ensures_conclude (fun r g h => h)).weaken (fun r h => h) (fun tx' r h => ⟨?_, h.2⟩)
      obtain ⟨⟨sha, rfl⟩, -⟩ := h
      exact ⟨fun _ => rfl, fun hp => by cases hp⟩
    | conflict files =>
      exact Act.ensures_pure (fun r h =>
        ⟨sound_of_phase (fun hp => by cases hp) (fun hp => by cases hp), h⟩)
  · exact Act.ensures_bind (ensures_save (Q := fun _ => Repo.Sound) (fun _ r h => h.2)
      (fun r h => h.2.save h.1)) (fun _ => Act.ensures_pure (fun r h => h))

theorem sound_recordResolution {path strategy : String} :
    Act.Ensures Repo.Sound (recordResolution env path strategy) (fun _ => Repo.Sound)
      Repo.Sound := by
  refine Act.ensures_bind (ensures_loadOpen (fun _ _ h => h) (fun _ h _ => h)) (fun tx => ?_)
  split_ifs with hphase
  · exact Act.ensures_fail (fun r h => h.2.2)
  rw [not_not] at hphase
  refine Act.ensures_bind (Q := fun _ => Repo.Sound) ?_ (fun _ => ?_)
  · exact (ensures_gitStep_frame (fun r g h => h)).weaken (fun r h => h.2.2) (fun _ _ h => h)
  refine Act.ensures_bind (Q := fun tx r => tx.Sound ∧ r.Sound) ?_ (fun tx => ?_)
  · rw [finalize]
    split_ifs with hdone
    · refine (ensures_conclude (fun r g h => h)).weaken (fun r h => h) (fun tx' r h => ⟨?_, h.2⟩)
      obtain ⟨⟨sha, rfl⟩, -⟩ := h
      exact ⟨fun _ => hdone, fun hp => by cases hp⟩
    · have hstill : (tx.resolved path strategy).phase = .conflicted := hphase
      exact Act.ensures_pure (fun r h =>
        ⟨sound_of_phase (hstill ▸ by decide) (hstill ▸ by decide), h⟩)
  · exact Act.ensures_bind (ensures_save (Q := fun _ => Repo.Sound) (fun _ r h => h.2)
      (fun r h => h.2.save h.1)) (fun _ => Act.ensures_pure (fun r h => h))

theorem sound_recordValidation {gate : String} {passed : Bool} :
    Act.Ensures Repo.Sound (recordValidation env gate passed) (fun _ => Repo.Sound)
      Repo.Sound := by
  refine Act.ensures_bind (ensures_loadOpen (fun _ _ h => h) (fun _ h _ => h)) (fun tx => ?_)
  split_ifs with hphase
  · exact Act.ensures_fail (fun r h => h.2.2)
  rw [not_not] at hphase
  refine Act.ensures_bind (ensures_save (Q := fun _ => Repo.Sound) (fun _ r h => h.2.2)
    (fun r h => h.2.2.save ⟨fun _ => (h.2.2.2 tx h.2.1).conflicts (Or.inl hphase), fun hp => ?_⟩))
    (fun _ => Act.ensures_pure (fun r h => h))
  rw [hphase] at hp
  cases hp

theorem sound_commit : Act.Ensures Repo.Sound (commit env) (fun _ => Repo.Sound) Repo.Sound := by
  refine Act.ensures_bind (ensures_loadOpen (fun _ _ h => h) (fun _ h _ => h)) (fun tx => ?_)
  split_ifs with hphase hfailed
  · exact Act.ensures_fail (fun r h => h.2.2)
  · exact Act.ensures_fail (fun r h => h.2.2)
  rw [not_not] at hphase
  refine Act.ensures_bind (ensures_save (Q := fun _ => Repo.Sound) (fun _ r h => h.2.2)
    (fun r h => h.2.2.save ⟨fun _ => (h.2.2.2 tx h.2.1).conflicts (Or.inl hphase), ?_⟩))
    (fun _ => Act.ensures_pure (fun r h => h))
  intro _ v hv
  by_contra hv'
  exact hfailed (any_eq_true.mpr ⟨v, hv, by rw [Bool.not_eq_true] at hv'; rw [hv']; rfl⟩)

theorem sound_rollback : Act.Ensures Repo.Sound (rollback env) (fun _ => Repo.Sound) Repo.Sound := by
  refine Act.ensures_bind ((ensures_loadOpen (fun _ _ h => h) (fun _ h _ => h)).weaken (fun r h => h)
    (fun tx r h => h.2.2)) (fun tx => ?_)
  refine Act.ensures_bind (Q := fun _ => Repo.Sound) ?_ (fun _ => ?_)
  · rw [unwind]
    split
    · exact ensures_gitStep_frame (fun r g h => h)
    · exact ensures_gitStep_frame (fun r g h => h)
    · exact Act.ensures_fail (fun r h => h)
  refine Act.ensures_bind (ensures_gitStep_frame (fun r g h => h)) (fun head => ?_)
  split_ifs with hstuck
  · exact Act.ensures_fail (fun r h => h)
  · exact Act.ensures_bind (ensures_save (Q := fun _ => Repo.Sound) (fun _ r h => h) (fun r h =>
      h.save (sound_of_phase (fun hp => by cases hp) (fun hp => by cases hp))))
      (fun _ => Act.ensures_pure (fun r h => h))

theorem sound_recoverMerge :
    Act.Ensures Repo.Sound (recoverMerge env) (fun _ => Repo.Sound) Repo.Sound := by
  refine Act.ensures_bind ((ensures_load (fun _ _ h => h)).weaken (fun r h => h)
    (fun record r h => h.2.2)) (fun record => ?_)
  cases record with
  | none => exact Act.ensures_pure (fun r h => h)
  | some tx =>
    dsimp only
    split_ifs with hphase
    · exact Act.ensures_bind sound_rollback (fun _ => Act.ensures_pure (fun r h => h))
    · exact Act.ensures_pure (fun r h => h)

theorem sound_step (h : r.Sound) (c : MergeCall × Env) : (r.step c).1.Sound := by
  obtain ⟨call, env⟩ := c
  cases call with
  | openAndMerge id source target => exact sound_openAndMerge.done.state h
  | recordResolution path strategy => exact sound_recordResolution.done.state h
  | recordValidation gate passed => exact sound_recordValidation.done.state h
  | commit => exact sound_commit.done.state h
  | rollback => exact sound_rollback.done.state h
  | recoverMerge => exact sound_recoverMerge.state h

/-! ### What git does to a branch -/

namespace Git

variable {g g' : Git} {tip : Commit}

theorem merge_ne_parent (message : String) (p q : Commit) : Commit.merge message p q ≠ p := by
  intro h
  have := congrArg sizeOf h
  simp only [Commit.merge.sizeOf_spec] at this
  omega

theorem change_ne_parent (message : String) (p : Commit) : Commit.change message p ≠ p := by
  intro h
  have := congrArg sizeOf h
  simp only [Commit.change.sizeOf_spec] at this
  omega

theorem head_of_tip (h : g.tip = some tip) : g.head = (g, .ok tip) := by
  rw [head, h]

theorem head_eq {a : Except MergeTransactionError Commit} (h : g.head = (g', a)) :
    g' = g ∧ ((∃ c, g.tip = some c ∧ a = .ok c) ∨ g.tip = none) := by
  rw [head] at h
  split at h
  · next hnone => exact ⟨(Prod.mk.inj h).1.symm, Or.inr hnone⟩
  · next c hc => exact ⟨(Prod.mk.inj h).1.symm, Or.inl ⟨c, hc, (Prod.mk.inj h).2.symm⟩⟩

theorem commit_of_tip (message : String) (htip : g.tip = some tip)
    (hlive : ∀ m, g.live = some m → m.unmerged = []) :
    ∃ g' new, g.commit message = (g', .ok ()) ∧ g'.current = g.current ∧ g'.tip = some new ∧
      new ≠ tip := by
  have hinsert : ∀ new, (g.heads.insert g.current new).find? g.current = some new := by
    intro new
    rw [OrdMap.find?_insert, if_pos rfl]
  cases hl : g.live with
  | none =>
    refine ⟨{ g with heads := g.heads.insert g.current (.change message tip), live := none },
      .change message tip, ?_, rfl, hinsert _, change_ne_parent message tip⟩
    rw [commit, hl, htip]
  | some m =>
    obtain ⟨source, files⟩ := m
    obtain rfl : files = [] := hlive _ hl
    refine ⟨{ g with heads := g.heads.insert g.current (.merge message tip source), live := none },
      .merge message tip source, ?_, rfl, hinsert _, merge_ne_parent message tip source⟩
    rw [commit, hl, htip]

theorem commit_eq_error {message : String} {e : MergeTransactionError}
    (h : g.commit message = (g', .error e)) :
    g' = g ∧ ¬ ∀ m, g.live = some m → m.unmerged = [] := by
  rw [commit] at h
  split at h
  · next source file files hl =>
    refine ⟨(Prod.mk.inj h).1.symm, fun hall => ?_⟩
    exact cons_ne_nil _ _ (hall _ hl)
  · cases (Prod.mk.inj h).2
  · cases (Prod.mk.inj h).2
  · cases (Prod.mk.inj h).2

theorem unmerged_of_commit {message : String} {u : Unit} (h : g.commit message = (g', .ok u)) :
    ∀ m, g.live = some m → m.unmerged = [] := by
  rintro ⟨source, files⟩ hm
  cases files with
  | nil => rfl
  | cons file files =>
    rw [commit, hm] at h
    cases (Prod.mk.inj h).2

theorem checkout_eq_ok {name : String} {u : Unit} (h : g.checkout name = (g', .ok u)) :
    g'.heads = g.heads ∧ g'.current = name ∧ g'.live = none := by
  rw [checkout] at h
  split at h
  · cases (Prod.mk.inj h).2
  · split at h
    · cases (Prod.mk.inj h).2
    · obtain rfl := (Prod.mk.inj h).1
      exact ⟨rfl, rfl, rfl⟩

theorem merge_of_head (result : MergeResult) {branch : String} {source : Commit}
    (hlive : g.live = none) (hsource : g.heads.find? branch = some source) :
    (∃ files, result = .conflict files ∧
      g.merge result branch = ({ g with live := some ⟨source, files⟩ }, .error .git)) ∨
    ((∀ files, result ≠ .conflict files) ∧ ∃ live,
      g.merge result branch = ({ g with live := live }, .ok ()) ∧
        ∀ m, live = some m → m.unmerged = []) := by
  obtain ⟨heads, current, live⟩ := g
  subst hlive
  rw [merge, hsource]
  cases result with
  | clean =>
    refine Or.inr ⟨(fun files h => by cases h), some ⟨source, []⟩, rfl, fun m hm => ?_⟩
    exact Option.some.inj hm ▸ rfl
  | upToDate =>
    exact Or.inr ⟨(fun files h => by cases h), none, rfl, fun m hm => by cases hm⟩
  | conflict files => exact Or.inl ⟨files, rfl, rfl⟩

end Git

/-! ### What can be rolled back -/

/-- The transaction can be unwound: its merge is live, or it has made a commit. -/
structure MergeTransaction.Ready (tx : MergeTransaction) (g : Git) : Prop where
  current : g.current = tx.targetBranch
  point : ∃ head, tx.targetHead = some head ∧
    ((tx.phase = .conflicted ∧ g.live ≠ none ∧ g.tip = some head) ∨
      (tx.phase = .validating ∧ tx.commitSha ≠ some head))

def Repo.Ready (r : Repo) : Prop :=
  ∀ tx, r.record = some tx → tx.phase.terminal = false → tx.Ready r.git

theorem Repo.Free.ready (h : r.Free) : r.Ready := by
  intro tx htx hphase
  rw [h tx htx] at hphase
  cases hphase

/-- A transaction that is on disk as opened gets to its second save. -/
def SteadyOpen (env : Env) : Prop :=
  (∀ site ∈ [Site.load, .mergeBase, .checkout, .head, .save], env.fault site = .goes) →
    env.fault .merge = .goes ∧ env.fault .saveAfter = .goes ∧
      match env.result with
      | .conflict _ => env.fault .diff ≠ .stops
      | _ => env.fault .conclude = .goes ∧ env.fault .headAfter = .goes

variable {target : String}

theorem ensures_conclude_new {head : Commit} {K : Prop}
    (hP : ∀ r, P r → r.git.current = target ∧ r.git.tip = some head)
    (hearly : env.fault .conclude ≠ .goes → ∀ r, P r → E r)
    (herr : ∀ r, P r → ¬ (∀ m, r.git.live = some m → m.unmerged = []) → E r)
    (hafter : env.fault .conclude = .goes → ∀ r, P r →
      (∀ m, r.git.live = some m → m.unmerged = []) → env.fault .headAfter = .goes ∧ K) :
    Act.Ensures P (conclude env tx) (fun tx' r => K ∧ r.git.current = target ∧ ∃ sha, sha ≠ head ∧
      tx' = { tx with phase := .validating, commitSha := some sha }) E := by
  refine Act.ensures_bind (Q := fun _ r => (env.fault .headAfter = .goes ∧ K) ∧
      r.git.current = target ∧ ∃ sha, r.git.tip = some sha ∧ sha ≠ head)
    (ensures_gitStep hearly (fun hgoes r g u hr hf => ?_) (fun _ r g e hr hf => ?_)) (fun _ => ?_)
  · obtain ⟨hcurrent, htip⟩ := hP r hr
    have hall := Git.unmerged_of_commit hf
    obtain ⟨g', new, hcommit, hcur, hnew, hne⟩ := Git.commit_of_tip (mergeMessage tx) htip hall
    obtain ⟨rfl, -⟩ := Prod.mk.inj (hcommit.symm.trans hf)
    exact ⟨hafter hgoes r hr hall, hcur.trans hcurrent, new, hnew, hne⟩
  · obtain ⟨rfl, hno⟩ := Git.commit_eq_error hf
    exact herr r hr hno
  refine Act.ensures_of_fact (fun hgoes => ?_)
  refine Act.ensures_bind (Q := fun sha r => r.git.current = target ∧ sha ≠ head)
    (ensures_gitStep (fun h => absurd hgoes.1 h) (fun _ r g sha hr hf => ?_)
      (fun _ r g e hr hf => ?_))
    (fun sha => Act.ensures_pure (fun r h => ⟨hgoes.2, h.1, sha, h.2, rfl⟩))
  · obtain ⟨hcurrent, new, htip, hne⟩ := hr
    obtain ⟨rfl, hsha⟩ := Prod.mk.inj ((Git.head_of_tip htip).symm.trans hf)
    exact ⟨hcurrent, Except.ok.inj hsha ▸ hne⟩
  · obtain ⟨-, new, htip, -⟩ := hr
    cases (Prod.mk.inj ((Git.head_of_tip htip).symm.trans hf)).2

def MergeOutcome.Left (env : Env) (r : Repo) : MergeOutcome → Prop
  | .merged => env.fault .conclude = .goes ∧ env.fault .headAfter = .goes ∧
      ∀ m, r.git.live = some m → m.unmerged = []
  | .conflict _ => r.git.live ≠ none

/-- The same of the attempt, before the conflicts are listed. -/
def AttemptLeft (env : Env) (r : Repo) : Option Unit → Prop
  | some _ => MergeOutcome.merged.Left env r
  | none => env.fault .diff ≠ .stops ∧ r.git.live ≠ none

variable {source : String}

theorem ready_merging {head : Commit}
    (htarget : tx.targetBranch = target) (hhead : tx.targetHead = some head)
    (hmerge : env.fault .merge = .goes) (hsave : env.fault .saveAfter = .goes)
    (hresult : match env.result with
      | .conflict _ => env.fault .diff ≠ .stops
      | _ => env.fault .conclude = .goes ∧ env.fault .headAfter = .goes) :
    Act.Ensures (fun r => (∃ c, r.git.heads.find? source = some c) ∧ r.git.current = target ∧
        r.git.live = none ∧ r.git.tip = some head)
      (do
        let outcome ← startMerge env source
        let tx ← settle env tx outcome
        save env tx
        pure (tx, outcome)) (fun _ => Repo.Ready) E := by
  have hstart : Act.Ensures (fun r => (∃ c, r.git.heads.find? source = some c) ∧
        r.git.current = target ∧ r.git.live = none ∧ r.git.tip = some head) (startMerge env source)
      (fun outcome r => r.git.current = target ∧ r.git.tip = some head ∧
        outcome.Left env r) E := by
    refine Act.ensures_bind (Q := fun o r => r.git.current = target ∧ r.git.tip = some head ∧
        AttemptLeft env r o)
      (ensures_gitAttempt ?_ ?_ ?_ ?_) (fun o => ?_)
    · exact fun h => absurd h (hmerge ▸ by decide)
    · exact fun h => absurd h (hmerge ▸ by decide)
    · rintro r g a ⟨⟨c, hc⟩, hcurrent, hlive, htip⟩ hf
      rcases Git.merge_of_head env.result hlive hc with
        ⟨files, -, hm⟩ | ⟨hno, live, hm, hun⟩
      · cases (Prod.mk.inj (hm.symm.trans hf)).2
      · obtain ⟨rfl, -⟩ := Prod.mk.inj (hm.symm.trans hf)
        refine ⟨hcurrent, htip, ?_⟩
        split at hresult
        · next files he => exact absurd he (hno files)
        · exact ⟨hresult.1, hresult.2, hun⟩
    · rintro r g e ⟨⟨c, hc⟩, hcurrent, hlive, htip⟩ hf
      rcases Git.merge_of_head env.result hlive hc with
        ⟨files, he, hm⟩ | ⟨-, live, hm, -⟩
      · obtain ⟨rfl, -⟩ := Prod.mk.inj (hm.symm.trans hf)
        rw [he] at hresult
        exact ⟨hcurrent, htip, hresult, Option.some_ne_none _⟩
      · cases (Prod.mk.inj (hm.symm.trans hf)).2
    · cases o with
      | some u => exact Act.ensures_pure (fun r h => h)
      | none =>
        refine Act.ensures_bind (Q := fun _ r => r.git.current = target ∧
          r.git.tip = some head ∧ r.git.live ≠ none) (ensures_gitAttempt ?_ ?_ ?_ ?_)
          (fun files => Act.ensures_pure (fun r h => h))
        · exact fun h r hr => absurd h hr.2.2.1
        · exact fun h r hr => ⟨hr.1, hr.2.1, hr.2.2.2⟩
        · intro r g a hr hf
          obtain ⟨rfl, -⟩ := Prod.mk.inj hf
          exact ⟨hr.1, hr.2.1, hr.2.2.2⟩
        · intro r g e hr hf
          cases (Prod.mk.inj hf).2
  have hdone : ∀ tx' : MergeTransaction, ∀ outcome : MergeOutcome,
      Act.Ensures (fun r => tx'.Ready r.git) (do save env tx'; pure (tx', outcome))
        (fun _ => Repo.Ready) E := by
    intro tx' outcome
    refine Act.ensures_bind (ensures_save (Q := fun _ => Repo.Ready) (fun h => absurd hsave h)
      (fun r h tx'' htx _ => Option.some.inj htx ▸ h)) (fun _ => Act.ensures_pure (fun r h => h))
  refine Act.ensures_bind hstart (fun outcome => ?_)
  cases outcome with
  | conflict files =>
    refine Act.ensures_bind (Act.ensures_pure (fun r h => ?_)) (fun tx' => hdone tx' _)
    exact ⟨h.1.trans htarget.symm, head, hhead, Or.inl ⟨rfl, h.2.2, h.2.1⟩⟩
  | merged =>
    refine Act.ensures_bind ((@ensures_conclude_new env _ E tx target head True
      (fun r h => ⟨h.1, h.2.1⟩) ?_ ?_ ?_).weaken (fun r h => h) (fun tx' r h => ?_))
      (fun tx' => hdone tx' _)
    · exact fun hno r h => absurd h.2.2.1 hno
    · exact fun r h hno => absurd h.2.2.2.2 hno
    · exact fun _ r h _ => ⟨h.2.2.2.1, trivial⟩
    · obtain ⟨-, hcurrent, sha, hne, rfl⟩ := h
      exact ⟨hcurrent.trans htarget.symm, head, hhead,
        Or.inr ⟨rfl, fun he => hne (Option.some.inj he)⟩⟩

theorem ready_openAndMerge {id source target : String} (hsteady : SteadyOpen env) :
    Act.Ensures Repo.Ready (openAndMerge env id source target) (fun _ => Repo.Ready)
      Repo.Ready := by
  refine Act.ensures_bind (ensures_load (fun _ _ h => h)) (fun record => ?_)
  refine Act.ensures_of_fact (fun hload => ?_)
  refine Act.ensures_bind (ensures_clearTerminal (I := Repo.Ready) ?_) (fun _ => ?_)
  · exact fun r h hfree tx htx => by cases htx
  refine Act.ensures_bind (Q := fun _ r => env.fault .mergeBase = .goes ∧ r.Free ∧
      ∃ c, r.git.heads.find? source = some c) (ensures_gitStep (fun _ r h => h.2)
    (fun hgoes r g a h hf => ⟨hgoes, h.1, ?_⟩) (fun _ r g e h hf => Repo.Free.ready h.1))
    (fun base => ?_)
  · rw [Git.mergeBase] at hf
    split at hf
    · next c c' hc hc' => exact ⟨c, (Prod.mk.inj hf).1 ▸ hc⟩
    · cases (Prod.mk.inj hf).2
  refine Act.ensures_of_fact (fun hbase => ?_)
  refine Act.ensures_bind (Q := fun _ r => env.fault .checkout = .goes ∧ r.Free ∧
      (∃ c, r.git.heads.find? source = some c) ∧ r.git.current = target ∧ r.git.live = none)
    (ensures_gitStep (fun _ r h => Repo.Free.ready h.1) (fun hgoes r g a h hf => ?_)
      (fun _ r g e h hf => Repo.Free.ready h.1)) (fun _ => ?_)
  · obtain ⟨hheads, hcurrent, hlive⟩ := Git.checkout_eq_ok hf
    exact ⟨hgoes, h.1, hheads ▸ h.2, hcurrent, hlive⟩
  refine Act.ensures_of_fact (fun hcheckout => ?_)
  refine Act.ensures_bind (Q := fun head r => env.fault .head = .goes ∧ r.Free ∧
      (∃ c, r.git.heads.find? source = some c) ∧ r.git.current = target ∧ r.git.live = none ∧
      r.git.tip = some head)
    (ensures_gitStep (fun _ r h => Repo.Free.ready h.1) (fun hgoes r g a h hf => ?_)
      (fun _ r g e h hf => Repo.Free.ready h.1)) (fun head => ?_)
  · rw [Git.head] at hf
    split at hf
    · cases (Prod.mk.inj hf).2
    · next c hc =>
      obtain ⟨rfl, ha⟩ := Prod.mk.inj hf
      exact ⟨hgoes, h.1, h.2.1, h.2.2.1, h.2.2.2, Except.ok.inj ha ▸ hc⟩
  refine Act.ensures_of_fact (fun hhead => ?_)
  refine Act.ensures_bind (Q := fun _ r => env.fault .save = .goes ∧
      (∃ c, r.git.heads.find? source = some c) ∧ r.git.current = target ∧ r.git.live = none ∧
      r.git.tip = some head)
    (Act.ensures_step (fun _ r h => Repo.Free.ready h.1) (fun hgoes r r' a h hf => ?_)
      (fun _ r r' e _ hf => ?_)) (fun _ => ?_)
  · obtain ⟨rfl, -⟩ := Prod.mk.inj hf
    exact ⟨hgoes, h.2⟩
  · cases (Prod.mk.inj hf).2
  refine Act.ensures_of_fact (fun hsave => ?_)
  -- from here on nothing may end the call early
  obtain ⟨hmerge, hsave', hresult⟩ := hsteady (by simp [hload, hbase, hcheckout, hhead, hsave])
  exact ready_merging rfl rfl hmerge hsave' hresult

/-- A merge that is concluded with the last path resolved gets to its save. -/
def SteadyResolution (r : Repo) (env : Env) (path : String) : Prop :=
  ∀ tx m, r.record = some tx → r.git.live = some m → tx.phase = .conflicted →
    tx.conflicts.filter (· ≠ path) = [] → m.unmerged.filter (· ≠ path) = [] →
    (∀ site ∈ [Site.load, .stage, .conclude], env.fault site = .goes) →
    env.fault .headAfter = .goes ∧ env.fault .saveAfter = .goes

/-- A merge that is aborted gets to its save. -/
def SteadyRollback (r : Repo) (env : Env) : Prop :=
  ∀ tx, r.record = some tx → tx.phase = .conflicted →
    (∀ site ∈ [Site.load, .abort], env.fault site = .goes) →
    env.fault .headAfter = .goes ∧ env.fault .saveAfter = .goes

theorem ready_recordResolution {path strategy : String} (hr : r.Ready)
    (hsteady : SteadyResolution r env path) :
    Act.Ensures (fun s => s = r) (recordResolution env path strategy) (fun _ => Repo.Ready)
      Repo.Ready := by
  refine Act.ensures_bind
    ((ensures_loadOpen (fun _ s h => h ▸ hr) (fun s h _ => h ▸ hr)).weaken (fun s h => h)
    (fun tx s h => (⟨⟨h.1, h.2.2 ▸ h.2.1⟩, h.2.2⟩ : (_ ∧ r.record = some tx) ∧ s = r)))
    (fun tx => Act.ensures_of_fact (fun hfacts => ?_))
  obtain ⟨hload, hrecord⟩ := hfacts
  split_ifs with hphase
  · exact Act.ensures_fail (fun s h => h ▸ hr)
  rw [not_not] at hphase
  obtain ⟨hcurrent, head, hhead, hpoint⟩ := hr tx hrecord (by rw [hphase]; rfl)
  obtain ⟨-, hlive, htip⟩ := hpoint.resolve_right (fun h => by rw [hphase] at h; cases h.1)
  obtain ⟨m, hm⟩ := Option.ne_none_iff_exists'.mp hlive
  -- the path staged: the merge is as live as before
  let Staged : Repo → Prop := fun s => s.record = some tx ∧ s.git.current = tx.targetBranch ∧
    s.git.tip = some head ∧ s.git.live = some { m with unmerged := m.unmerged.filter (· ≠ path) }
  have hlast : ∀ s, Staged s → s.Ready := by
    rintro s ⟨hrec, hcur, htip', hl⟩ tx' htx' -
    obtain rfl := Option.some.inj (hrec.symm.trans htx')
    exact ⟨hcur, head, hhead, Or.inl ⟨hphase, hl ▸ Option.some_ne_none _, htip'⟩⟩
  refine Act.ensures_bind (Q := fun _ s => env.fault .stage = .goes ∧ Staged s)
    (ensures_gitStep (fun _ s h => h ▸ hr) (fun hgoes s g u h hf => ?_) (fun _ s g e _ hf => ?_))
    (fun _ => Act.ensures_of_fact (fun hstage => ?_))
  · subst h
    obtain ⟨rfl, -⟩ := Prod.mk.inj hf
    refine ⟨hgoes, hrecord, hcurrent, htip, ?_⟩
    rw [hm]
    rfl
  · cases (Prod.mk.inj hf).2
  refine Act.ensures_bind (Q := fun tx' s => (env.fault .saveAfter = .goes ∨ s.Ready) ∧
    tx'.Ready s.git) ?_ (fun tx' => ?_)
  · rw [finalize]
    split_ifs with hdone
    · refine (ensures_conclude_new (K := env.fault .saveAfter = .goes) (fun s h => ⟨h.2.1, h.2.2.1⟩)
        (fun _ => hlast) (fun s h _ => hlast s h) (fun hgoes s h hall => ?_)).weaken
        (fun s h => h) (fun tx' s h => ?_)
      · exact hsteady tx m hrecord hm hphase hdone (hall _ h.2.2.2)
          (by simp [hload, hstage, hgoes])
      · obtain ⟨hsave, hcur, sha, hne, rfl⟩ := h
        exact ⟨Or.inl hsave, hcur, head, hhead, Or.inr ⟨rfl, fun he => hne (Option.some.inj he)⟩⟩
    · refine Act.ensures_pure (fun s h => ⟨Or.inr (hlast s h), h.2.1, head, hhead, Or.inl ?_⟩)
      exact ⟨hphase, h.2.2.2 ▸ Option.some_ne_none _, h.2.2.1⟩
  · refine Act.ensures_bind (ensures_save (Q := fun _ => Repo.Ready)
      (fun hno s h => h.1.resolve_left hno) (fun s h tx'' htx _ => Option.some.inj htx ▸ h.2))
      (fun _ => Act.ensures_pure (fun s h => h))

theorem ready_rollback (hr : r.Ready) (hsteady : SteadyRollback r env) :
    Act.Ensures (fun s => s = r) (rollback env) (fun _ => Repo.Ready) Repo.Ready := by
  refine Act.ensures_bind
    ((ensures_loadOpen (fun _ s h => h ▸ hr) (fun s h _ => h ▸ hr)).weaken (fun s h => h)
    (fun tx s h => (⟨⟨h.1, h.2.2 ▸ h.2.1⟩, h.2.2⟩ : (_ ∧ r.record = some tx) ∧ s = r)))
    (fun tx => Act.ensures_of_fact (fun hfacts => ?_))
  obtain ⟨hload, hrecord⟩ := hfacts
  refine Act.ensures_bind (Q := fun _ s =>
      (env.fault .headAfter = .goes ∧ env.fault .saveAfter = .goes ∧ s.git.tip ≠ none ∧
        tx.phase = .conflicted) ∨ s.Ready) ?_ (fun _ => ?_)
  · rw [unwind]
    split
    · next hphase =>
      refine ensures_gitStep (fun _ s h => h ▸ hr) (fun hgoes s g u h hf => Or.inl ?_)
        (fun _ s g e h hf => ?_)
      · subst h
        obtain ⟨hcurrent, head, hhead, hpoint⟩ := hr tx hrecord (by rw [hphase]; rfl)
        obtain ⟨-, -, htip⟩ := hpoint.resolve_right (fun h => by rw [hphase] at h; cases h.1)
        obtain ⟨hafter, hsave⟩ := hsteady tx hrecord hphase (by simp [hload, hgoes])
        rw [Git.abortMerge] at hf
        split at hf
        · cases (Prod.mk.inj hf).2
        · obtain ⟨rfl, -⟩ := Prod.mk.inj hf
          refine ⟨hafter, hsave, ?_, hphase⟩
          show s.git.tip ≠ none
          rw [htip]
          exact Option.some_ne_none _
      · subst h
        rw [Git.abortMerge] at hf
        split at hf
        · obtain ⟨rfl, -⟩ := Prod.mk.inj hf
          exact hr
        · cases (Prod.mk.inj hf).2
    · next hphase =>
      refine ensures_gitStep (fun _ s h => h ▸ hr) (fun hgoes s g u h hf => Or.inr ?_)
        (fun _ s g e h hf => ?_)
      · subst h
        obtain ⟨hcurrent, head, hhead, hpoint⟩ := hr tx hrecord (by rw [hphase]; rfl)
        rw [hhead, Git.resetHard] at hf
        obtain ⟨rfl, -⟩ := Prod.mk.inj hf
        intro tx' htx' _
        obtain rfl := Option.some.inj (hrecord.symm.trans htx')
        refine ⟨hcurrent, head, hhead, Or.inr ?_⟩
        exact hpoint.resolve_left (fun h => by rw [hphase] at h; cases h.1)
      · subst h
        obtain ⟨-, head, hhead, -⟩ := hr tx hrecord (by rw [hphase]; rfl)
        rw [hhead, Git.resetHard] at hf
        cases (Prod.mk.inj hf).2
    · exact Act.ensures_fail (fun s h => h ▸ hr)
  refine Act.ensures_bind (Q := fun _ s =>
      (env.fault .saveAfter = .goes ∧ tx.phase = .conflicted) ∨ s.Ready)
    (ensures_gitStep (fun hno s h => h.resolve_left (fun h => hno h.1)) (fun _ s g head h hf => ?_)
      (fun _ s g e h hf => ?_)) (fun head => ?_)
  · obtain rfl : g = s.git := (Git.head_eq hf).1
    exact h.imp (fun h => ⟨h.2.1, h.2.2.2⟩) id
  · obtain ⟨rfl, hnone⟩ : g = s.git ∧ s.git.tip = none :=
      ⟨(Git.head_eq hf).1, (Git.head_eq hf).2.resolve_left (fun h => by obtain ⟨c, -, h⟩ := h; cases h)⟩
    exact h.resolve_left (fun h => h.2.2.1 hnone)
  split_ifs with hstuck
  · refine Act.ensures_fail (fun s h => h.resolve_left (fun h => ?_))
    rw [h.2] at hstuck
    cases hstuck.1
  · refine Act.ensures_bind (ensures_save (Q := fun _ => Repo.Ready)
      (fun hno s h => h.resolve_left (fun h => hno h.1)) (fun s h tx' htx hphase => ?_))
      (fun _ => Act.ensures_pure (fun s h => h))
    rw [← Option.some.inj htx] at hphase
    cases hphase

theorem ready_recordValidation {gate : String} {passed : Bool} :
    Act.Ensures Repo.Ready (recordValidation env gate passed) (fun _ => Repo.Ready)
      Repo.Ready := by
  refine Act.ensures_bind (ensures_loadOpen (fun _ _ h => h) (fun _ h _ => h)) (fun tx => ?_)
  split_ifs with hphase
  · exact Act.ensures_fail (fun r h => h.2.2)
  rw [not_not] at hphase
  refine Act.ensures_bind (ensures_save (Q := fun _ => Repo.Ready) (fun _ r h => h.2.2)
    (fun r h tx' htx _ => ?_)) (fun _ => Act.ensures_pure (fun r h => h))
  obtain ⟨hcurrent, hpoint⟩ := h.2.2 tx h.2.1 (by rw [hphase]; rfl)
  exact Option.some.inj htx ▸ ⟨hcurrent, hpoint⟩

theorem ready_commit : Act.Ensures Repo.Ready (commit env) (fun _ => Repo.Ready) Repo.Ready := by
  refine Act.ensures_bind (ensures_loadOpen (fun _ _ h => h) (fun _ h _ => h)) (fun tx => ?_)
  split_ifs with hphase hfailed
  · exact Act.ensures_fail (fun r h => h.2.2)
  · exact Act.ensures_fail (fun r h => h.2.2)
  refine Act.ensures_bind (ensures_save (Q := fun _ => Repo.Ready) (fun _ r h => h.2.2)
    (fun r h tx' htx hopen => ?_)) (fun _ => Act.ensures_pure (fun r h => h))
  rw [← Option.some.inj htx] at hopen
  cases hopen

theorem ready_recoverMerge (hr : r.Ready)
    (hsteady : env.fault .inspect = .goes → SteadyRollback r env) :
    Act.Ensures (fun s => s = r) (recoverMerge env) (fun _ => Repo.Ready) Repo.Ready := by
  refine Act.ensures_bind (ensures_load (fun _ s h => h ▸ hr)) (fun record => ?_)
  refine Act.ensures_of_fact (fun hinspect => ?_)
  cases record with
  | none => exact Act.ensures_pure (fun s h => h.2 ▸ hr)
  | some tx =>
    dsimp only
    split_ifs with hphase
    · exact Act.ensures_bind ((ready_rollback hr (hsteady hinspect)).weaken (fun s h => h.2)
        (fun _ _ h => h)) (fun _ => Act.ensures_pure (fun s h => h))
    · exact Act.ensures_pure (fun s h => h.2 ▸ hr)

/-- The call is not interrupted between a git command that starts, concludes or aborts a merge
and the save that follows it. -/
def Repo.Steady (r : Repo) (c : MergeCall × Env) : Prop :=
  match c.1 with
  | .openAndMerge _ _ _ => SteadyOpen c.2
  | .recordResolution path _ => SteadyResolution r c.2 path
  | .recordValidation _ _ => True
  | .commit => True
  | .rollback => SteadyRollback r c.2
  | .recoverMerge => c.2.fault .inspect = .goes → SteadyRollback r c.2

theorem ready_step (h : r.Ready) {c : MergeCall × Env} (hc : r.Steady c) : (r.step c).1.Ready := by
  obtain ⟨call, env⟩ := c
  cases call with
  | openAndMerge id source target => exact (ready_openAndMerge hc).done.state h
  | recordResolution path strategy => exact (ready_recordResolution h hc).done.state rfl
  | recordValidation gate passed => exact ready_recordValidation.done.state h
  | commit => exact ready_commit.done.state h
  | rollback => exact (ready_rollback h hc).done.state rfl
  | recoverMerge => exact (ready_recoverMerge h hc).state rfl

/-! ### Recovery -/

def calm : Env := ⟨fun _ => .goes, .root "", .clean⟩

/-- A transaction under way can be brought to its end with the branch where it was. -/
def Repo.Recoverable (r : Repo) : Prop :=
  ∀ tx, r.record = some tx → tx.phase.terminal = false → ∃ cs : List (MergeCall × Env),
    (∀ c ∈ cs, c.1 = .rollback ∨ c.1 = .recoverMerge) ∧
    (run Repo.step r cs).record = some { tx with phase := .rolledBack } ∧
    (run Repo.step r cs).git.heads.find? tx.targetBranch = tx.targetHead

theorem rollback_of_ready (hrecord : r.record = some tx) (htx : tx.Ready r.git) :
    Act.Ensures (fun s => s = r) (rollback calm)
      (fun _ s => s.record = some { tx with phase := .rolledBack } ∧
        s.git.heads.find? tx.targetBranch = tx.targetHead) (fun _ => False) := by
  obtain ⟨hcurrent, head, hhead, hpoint⟩ := htx
  refine Act.ensures_bind (Q := fun tx' s => tx' = tx ∧ s = r)
    ((ensures_loadOpen (P := fun s => s = r) (fun h => absurd rfl h) ?_).weaken (fun s h => h) ?_)
    (fun tx' => Act.ensures_of_fact (fun htx => ?_))
  · intro s h hnone
    rw [h, hrecord] at hnone
    cases hnone
  · rintro tx' s ⟨-, hrec, rfl⟩
    exact ⟨Option.some.inj (hrec.symm.trans hrecord), rfl⟩
  subst htx
  refine Act.ensures_bind (Q := fun _ s => s.git.current = tx'.targetBranch ∧
    s.git.tip = some head) ?_ (fun _ => ?_)
  · rw [unwind]
    rcases hpoint with ⟨hphase, hlive, htip⟩ | ⟨hphase, -⟩
    · rw [hphase]
      obtain ⟨m, hm⟩ := Option.ne_none_iff_exists'.mp hlive
      refine ensures_gitStep (fun h => absurd rfl h) (fun _ s g u h hf => ?_) (fun _ s g e h hf => ?_)
      · subst h
        rw [Git.abortMerge, hm] at hf
        obtain ⟨rfl, -⟩ := Prod.mk.inj hf
        exact ⟨hcurrent, htip⟩
      · subst h
        rw [Git.abortMerge, hm] at hf
        cases (Prod.mk.inj hf).2
    · rw [hphase, hhead]
      refine ensures_gitStep (fun h => absurd rfl h) (fun _ s g u h hf => ?_) (fun _ s g e h hf => ?_)
      · subst h
        obtain ⟨rfl, -⟩ := Prod.mk.inj hf
        refine ⟨hcurrent, ?_⟩
        show (s.git.heads.insert s.git.current head).find? s.git.current = some head
        rw [OrdMap.find?_insert, if_pos rfl]
      · cases (Prod.mk.inj hf).2
  refine Act.ensures_bind (Q := fun c s => c = head ∧ s.git.current = tx'.targetBranch ∧
      s.git.tip = some head) (ensures_gitStep (fun h => absurd rfl h) (fun _ s g c h hf => ?_)
    (fun _ s g e h hf => ?_)) (fun c => Act.ensures_of_fact (fun hc => ?_))
  · obtain ⟨rfl, hc⟩ := Prod.mk.inj ((Git.head_of_tip h.2).symm.trans hf)
    exact ⟨(Except.ok.inj hc).symm, h⟩
  · cases (Prod.mk.inj ((Git.head_of_tip h.2).symm.trans hf)).2
  subst hc
  rw [if_neg]
  · refine Act.ensures_bind (ensures_save (Q := fun _ s =>
      s.record = some { tx' with phase := .rolledBack } ∧
        s.git.heads.find? tx'.targetBranch = tx'.targetHead) (fun h => absurd rfl h)
      (fun s h => ⟨rfl, ?_⟩)) (fun _ => Act.ensures_pure (fun s h => h))
    rw [hhead, ← h.1]
    exact h.2
  · rintro ⟨hphase, hsha⟩
    rcases hpoint with ⟨hphase', -⟩ | ⟨-, hne⟩
    · rw [hphase'] at hphase
      cases hphase
    · exact hne hsha

theorem Repo.Ready.recoverable (h : r.Ready) : r.Recoverable := by
  intro tx hrecord hphase
  refine ⟨[(.rollback, calm)], fun c hc => Or.inl ?_, ?_⟩
  · rw [mem_singleton.mp hc]
  · have hend := (rollback_of_ready hrecord (h tx hrecord hphase)).done
    rcases hend.of rfl with ⟨_, -, hQ⟩ | ⟨-, hfalse⟩
    · exact hQ
    · exact hfalse.elim

def Repo.underWay (r : Repo) : List MergeTransaction :=
  (r.archived ++ r.record.toList).filter (fun tx => !tx.phase.terminal)

theorem Repo.Sound.length_underWay (h : r.Sound) : r.underWay.length ≤ 1 := by
  have harchived : r.archived.filter (fun tx => !tx.phase.terminal) = [] := by
    refine filter_eq_nil_iff.mpr (fun tx htx => ?_)
    rw [h.1 tx htx]
    decide
  rw [Repo.underWay, filter_append, harchived, nil_append]
  refine (length_filter_le _ _).trans ?_
  cases r.record with
  | none => exact Nat.zero_le 1
  | some tx => exact Nat.le_refl 1

def Repo.fresh (g : Git) : Repo := ⟨none, [], g⟩

/-- **A run of merge transactions.**  Whatever fails, one that has landed has neither conflicts
nor failed gates, and there is at most one under way.  If no call is interrupted between a git
command and the save that follows it, one that is under way can be rolled back. -/
theorem merge_run (g : Git) (cs : List (MergeCall × Env)) :
    let r := run Repo.step (.fresh g) cs
    (∀ tx, r.record = some tx → tx.phase = .committed →
      (∀ v ∈ tx.validation, v.2 = true) ∧ tx.conflicts = []) ∧ r.underWay.length ≤ 1 ∧
    (Admits Repo.step Repo.Steady (.fresh g) cs → r.Recoverable) := by
  intro r
  have hsound : r.Sound := by
    refine (path_run (Repo.fresh g) cs).invariant (I := Repo.Sound) ?_ (fun r c h _ => sound_step h c)
    exact ⟨(fun tx h => by cases h), fun tx h => by cases h⟩
  refine ⟨fun tx htx hphase => ?_, hsound.length_underWay, fun hsteady => ?_⟩
  · exact ⟨(hsound.2 tx htx).validation hphase, (hsound.2 tx htx).conflicts (Or.inr hphase)⟩
  · have hready : r.Ready := (path_of_admits cs hsteady).invariant (I := Repo.Ready)
      (fun tx h => by cases h) (fun r c h hc => ready_step h hc)
    exact hready.recoverable

def twoBranches : Git where
  heads := .ofList [("feature", .change "b" (.root "a")), ("main", .change "c" (.root "a"))]
  current := "main"
  live := none

/-- A merge with a conflict in one file, resolved after a first attempt to abort it fails, and
rolled back from its merge commit. -/
def resolvedLater : List (MergeCall × Env) :=
  [(.openAndMerge "t" "feature" "main", { calm with result := .conflict ["f"] }),
    (.rollback, { calm with fault := fun site => if site = .abort then .fails else .goes }),
    (.recordResolution "f" "ours", calm), (.recordValidation "build" false, calm)]

theorem merge_run_resolvedLater :
    let r := run Repo.step (.fresh twoBranches) resolvedLater
    r.record.map (·.phase) = some .validating ∧ r.Recoverable := by
  refine ⟨by decide +kernel, (merge_run twoBranches resolvedLater).2.2 ⟨?_, ?_, ?_, ?_, trivial⟩⟩
  · exact fun _ => ⟨rfl, rfl, by decide⟩
  · intro tx _ _ hall
    exact absurd (hall .abort (by decide)) (by decide)
  · exact fun tx m _ _ _ _ _ _ => ⟨rfl, rfl⟩
  · exact trivial

theorem recovery_of_opened (hrecord : r.record = some tx)
    (hphase : tx.phase = .opened) {c : MergeCall × Env}
    (hc : c.1 = .rollback ∨ c.1 = .recoverMerge) : (r.step c).1 = r := by
  obtain ⟨call, env⟩ := c
  have hload : Act.Ensures (fun s => s = r) (loadOpen env) (fun tx' s => tx' = tx ∧ s = r)
      (fun s => s = r) := by
    refine (ensures_loadOpen (fun _ s h => h) (fun s h _ => h)).weaken (fun s h => h) ?_
    rintro tx' s ⟨-, hrec, rfl⟩
    exact ⟨Option.some.inj (hrec.symm.trans hrecord), rfl⟩
  have hrollback : Act.Ensures (fun s => s = r) (rollback env) (fun _ s => s = r)
      (fun s => s = r) := by
    refine Act.ensures_bind hload (fun tx' => Act.ensures_of_fact (fun htx => ?_))
    refine Act.ensures_bind (Q := fun _ _ => False) ?_ (fun _ s h => h.elim)
    rw [unwind, htx, hphase]
    exact Act.ensures_fail (fun s h => h)
  rcases hc with rfl | rfl
  · exact hrollback.done.state (I := fun s => s = r) rfl
  · refine Act.Ensures.state (I := fun s => s = r) (P := fun s => s = r) ?_ rfl
    refine Act.ensures_bind (ensures_load (fun _ s h => h)) (fun record => ?_)
    cases record with
    | none => exact Act.ensures_pure (fun s h => h.2.2)
    | some tx' =>
      dsimp only
      split_ifs with hopen
      · exact Act.ensures_bind (hrollback.weaken (fun s h => h.2.2) (fun _ _ h => h))
          (fun _ => Act.ensures_pure (fun s h => h))
      · exact Act.ensures_pure (fun s h => h.2.2)

/-- The process stops after the first save and before the merge is started. -/
def interrupted : Repo :=
  run Repo.step (.fresh twoBranches) [(.openAndMerge "t" "feature" "main",
    { calm with fault := fun site => if site = .merge then .stops else .goes })]

/-- Neither `rollback` nor `recover_merge` does anything to a transaction that was opened and
then interrupted. -/
theorem interrupted_stuck : ¬ interrupted.Recoverable := by
  intro h
  obtain ⟨tx, hrecord, hphase⟩ : ∃ tx, interrupted.record = some tx ∧ tx.phase = .opened := by
    refine ⟨interrupted.record.getD (.new "" "" ""), ?_, ?_⟩
    · decide +kernel
    · decide +kernel
  obtain ⟨cs, hcs, hend, -⟩ := h tx hrecord (by rw [hphase]; rfl)
  have hstay : run Repo.step interrupted cs = interrupted := by
    clear hend
    induction cs with
    | nil => rfl
    | cons c cs ih =>
      rw [run_cons, recovery_of_opened hrecord hphase (hcs c mem_cons_self)]
      exact ih (fun c' hc' => hcs c' (mem_cons_of_mem c hc'))
  rw [hstay, hrecord] at hend
  have := congrArg MergeTransaction.phase (Option.some.inj hend)
  rw [hphase] at this
  cases this

end Workspace

end Modbit
