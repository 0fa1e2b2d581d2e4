import Modbit.Lib.Ranked
import Modbit.Lib.Text

/-!
# Configuration layers

`resolve` of `crates/core-runtime/src/config.rs` merges the layers of the administrator, the project and
the user: the allowlists are narrowed down from the highest authority to the lowest, and the default
model is the one of the highest authority that has one.

`resolve_eq` says what comes out.  The allowlists are as sets what all layers allow.  Which layer a value
is said to come from, and what other orders of the layers give, is `layers_lawful_iff`.
-/

namespace Modbit

open Lib List

namespace Config

inductive Authority where
  | admin
  | project
  | user
  deriving DecidableEq

/-- The order of the authorities; the highest is first. -/
def Authority.rank : Authority → Nat
  | admin => 0
  | project => 1
  | user => 2

theorem Authority.rank_inj {a b : Authority} (h : a.rank = b.rank) : a = b := by
  cases a <;> cases b <;> first | rfl | cases h

structure NetworkPolicy where
  allowedHosts : List String
  deriving DecidableEq

structure ModelPolicy where
  allowedModels : List String
  defaultModel : Option String
  deriving DecidableEq

structure ConfigLayer where
  authority : Authority
  network : Option NetworkPolicy
  model : Option ModelPolicy
  deriving DecidableEq

structure ResolvedNetwork where
  allowedHosts : List String
  provenance : Authority
  deriving DecidableEq

structure ResolvedModel where
  allowedModels : List String
  defaultModel : Option String
  provenance : Authority
  deriving DecidableEq

structure ResolvedConfig where
  network : Option ResolvedNetwork
  model : Option ResolvedModel
  deriving DecidableEq

inductive ResolveError where
  | widened (defaultModel : String)
  deriving DecidableEq

def ResolveError.text : ResolveError → String
  | widened defaultModel => "default model " ++ Text.debugStr defaultModel
      ++ " is not in the resolved allowlist — a lower authority attempted to widen"

def networkStep (s : Option (List String) × Authority) (layer : ConfigLayer) :
    Option (List String) × Authority :=
  match layer.network with
  | some net => (narrow s.1 net.allowedHosts, layer.authority)
  | none => s

def modelStep (s : Option (List String) × Option (String × Authority)) (layer : ConfigLayer) :
    Option (List String) × Option (String × Authority) :=
  match layer.model with
  | some model =>
    (narrow s.1 model.allowedModels,
      match model.defaultModel with
      | some defaultModel => if s.2.isNone then some (defaultModel, layer.authority) else s.2
      | none => s.2)
  | none => s

def byAuthority (layers : List ConfigLayer) : List ConfigLayer :=
  sorted (fun l => l.authority.rank) layers

def resolve (layers : List ConfigLayer) : Except ResolveError ResolvedConfig :=
  let hosts := (byAuthority layers).foldl networkStep (none, .user)
  let network := hosts.1.map (fun allowedHosts => ⟨allowedHosts, hosts.2⟩)
  let allowed := (byAuthority layers).foldl modelStep (none, none)
  let modelProv := allowed.2.elim .user Prod.snd
  let config : ResolvedConfig := ⟨network, allowed.1.map (fun allowedModels =>
    ⟨allowedModels, allowed.2.map Prod.fst, modelProv⟩)⟩
  match allowed.1, allowed.2 with
  | some allowlist, some (defaultModel, _) =>
    if defaultModel ∈ allowlist then .ok config else .error (.widened defaultModel)
  | _, _ => .ok config

/-! ### The laws -/

namespace ConfigLayer

variable (l : ConfigLayer)

def hosts : List String := (l.network.map NetworkPolicy.allowedHosts).getD []

def models : List String := (l.model.map ModelPolicy.allowedModels).getD []

def defaultModel : Option String := l.model.bind ModelPolicy.defaultModel

def hasNetwork : Bool := l.network.isSome

def hasModel : Bool := l.model.isSome

def hasDefault : Bool := l.defaultModel.isSome

end ConfigLayer

section Layers

variable (layers : List ConfigLayer)

/-- In the allowlists of all layers that have one. -/
def HostAllowed (host : String) : Prop := ∀ l ∈ layers, l.hasNetwork = true → host ∈ l.hosts

def ModelAllowed (model : String) : Prop := ∀ l ∈ layers, l.hasModel = true → model ∈ l.models

instance : DecidablePred (HostAllowed layers) :=
  fun host => inferInstanceAs (Decidable (∀ l ∈ layers, l.hasNetwork = true → host ∈ l.hosts))

instance : DecidablePred (ModelAllowed layers) :=
  fun model => inferInstanceAs (Decidable (∀ l ∈ layers, l.hasModel = true → model ∈ l.models))

/-- The highest authority among the layers that have something. -/
def Highest (has : ConfigLayer → Bool) (a : Authority) : Prop :=
  ∃ l, Foremost (fun l => l.authority.rank) has layers l ∧ l.authority = a

/-- The merge laws.  What a model's provenance is of is its default, or its allowlist where no layer sets
a default. -/
structure Lawful : Prop where
  hosts : ∀ c n, resolve layers = .ok c → c.network = some n →
    ∀ host, host ∈ n.allowedHosts ↔ HostAllowed layers host
  models : ∀ c m, resolve layers = .ok c → c.model = some m →
    ∀ model, model ∈ m.allowedModels ↔ ModelAllowed layers model
  defined : ∀ c, resolve layers = .ok c →
    (c.network.isSome = true ↔ ∃ l ∈ layers, l.hasNetwork = true) ∧
      (c.model.isSome = true ↔ ∃ l ∈ layers, l.hasModel = true)
  narrower : ∀ wider c c', (∀ l ∈ layers, l ∈ wider) → resolve layers = .ok c →
    resolve wider = .ok c' →
      (∀ n n', c.network = some n → c'.network = some n' →
        ∀ host ∈ n'.allowedHosts, host ∈ n.allowedHosts) ∧
      ∀ m m', c.model = some m → c'.model = some m' →
        ∀ model ∈ m'.allowedModels, model ∈ m.allowedModels
  default : ∀ c m d, resolve layers = .ok c → c.model = some m → m.defaultModel = some d →
    ModelAllowed layers d
  networkProvenance : ∀ c n, resolve layers = .ok c → c.network = some n →
    Highest layers ConfigLayer.hasNetwork n.provenance
  modelProvenance : ∀ c m, resolve layers = .ok c → c.model = some m →
    if m.defaultModel.isSome = true then Highest layers ConfigLayer.hasDefault m.provenance
    else Highest layers ConfigLayer.hasModel m.provenance
  permuted : ∀ layers', layers'.Perm layers → resolve layers' = resolve layers

/-- The host lists that may come first have the hosts that remain in the same order. -/
def SameHosts : Prop := ∀ l ∈ layers, ∀ m ∈ layers, l.hasNetwork = true → m.hasNetwork = true →
  l.hosts.filter (fun host => decide (HostAllowed layers host))
    = m.hosts.filter (fun host => decide (HostAllowed layers host))

def SameModels : Prop := ∀ l m, Foremost (fun l => l.authority.rank) ConfigLayer.hasModel layers l →
  Foremost (fun l => l.authority.rank) ConfigLayer.hasModel layers m →
  l.models.filter (fun model => decide (ModelAllowed layers model))
    = m.models.filter (fun model => decide (ModelAllowed layers model))

/-- What the laws need of layers that are resolved. -/
structure Settled : Prop where
  authority : ∀ l ∈ layers, ∀ m ∈ layers, l.hasNetwork = true → m.hasNetwork = true →
    l.authority = m.authority
  hosts : SameHosts layers
  models : SameModels layers
  noDefault : (∀ l ∈ layers, l.hasDefault = false) → ∀ l ∈ layers, l.hasModel = true →
    l.authority = .user

/-- The layers of the highest authority that sets a default set the same one, and it is refused or the
layers are settled. -/
structure Clear : Prop where
  defaults : ∀ l m, Foremost (fun l => l.authority.rank) ConfigLayer.hasDefault layers l →
    Foremost (fun l => l.authority.rank) ConfigLayer.hasDefault layers m → l.defaultModel = m.defaultModel
  rest : (∃ l d, Foremost (fun l => l.authority.rank) ConfigLayer.hasDefault layers l ∧
    l.defaultModel = some d ∧ ¬ ModelAllowed layers d) ∨ Settled layers

end Layers

/-! ### What comes out -/

section Layers

variable (layers : List ConfigLayer)

/-- The first layer that has something, from the highest authority down. -/
def first (has : ConfigLayer → Bool) : Option ConfigLayer := (byAuthority layers).find? has

/-- The authority of the last layer that has a network. -/
def lastAuthority : Authority :=
  ((byAuthority layers).filter ConfigLayer.hasNetwork).getLast?.elim .user ConfigLayer.authority

def resolvedNetwork : Option ResolvedNetwork := (first layers ConfigLayer.hasNetwork).map (fun l =>
  ⟨l.hosts.filter (fun host => decide (HostAllowed layers host)), lastAuthority layers⟩)

def resolvedDefault : Option String :=
  (first layers ConfigLayer.hasDefault).bind ConfigLayer.defaultModel

def resolvedModel : Option ResolvedModel := (first layers ConfigLayer.hasModel).map (fun l =>
  ⟨l.models.filter (fun model => decide (ModelAllowed layers model)), resolvedDefault layers,
    (first layers ConfigLayer.hasDefault).elim .user ConfigLayer.authority⟩)

end Layers

variable {layers layers' : List ConfigLayer} {l m : ConfigLayer} {host model : String}

theorem foldl_networkStep (s : List ConfigLayer) (hosts : Option (List String)) (a : Authority) :
    s.foldl networkStep (hosts, a)
      = (((s.filter ConfigLayer.hasNetwork).map ConfigLayer.hosts).foldl narrow hosts,
        (s.filter ConfigLayer.hasNetwork).getLast?.elim a ConfigLayer.authority) := by
  induction s generalizing hosts a with
  | nil => rfl
  | cons l s ih =>
    rw [foldl_cons, networkStep]
    cases hnet : l.network with
    | none =>
      rw [filter_cons_of_neg (by rw [ConfigLayer.hasNetwork, hnet]; exact Bool.false_ne_true)]
      exact ih hosts a
    | some net =>
      have hhosts : l.hosts = net.allowedHosts := by rw [ConfigLayer.hosts, hnet]; rfl
      rw [filter_cons_of_pos (by rw [ConfigLayer.hasNetwork, hnet]; rfl), map_cons,
        foldl_cons, hhosts]
      rw [ih, getLast?_cons]
      cases (s.filter ConfigLayer.hasNetwork).getLast? <;> rfl

theorem foldl_modelStep (s : List ConfigLayer) (models : Option (List String))
    (d : Option (String × Authority)) : s.foldl modelStep (models, d)
      = (((s.filter ConfigLayer.hasModel).map ConfigLayer.models).foldl narrow models,
        d.or ((s.find? ConfigLayer.hasDefault).bind
          (fun l => l.defaultModel.map (fun name => (name, l.authority))))) := by
  induction s generalizing models d with
  | nil => rw [foldl_nil, find?_nil, Option.bind_none, Option.or_none]; rfl
  | cons l s ih =>
    rw [foldl_cons, modelStep]
    cases hmodel : l.model with
    | none =>
      have hdefault : l.hasDefault = false := by
        rw [ConfigLayer.hasDefault, ConfigLayer.defaultModel, hmodel]
        rfl
      rw [filter_cons_of_neg (by rw [ConfigLayer.hasModel, hmodel]; exact Bool.false_ne_true),
        find?_cons_of_neg (by rw [hdefault]; exact Bool.false_ne_true)]
      exact ih models d
    | some model =>
      have hmodels : l.models = model.allowedModels := by rw [ConfigLayer.models, hmodel]; rfl
      have hdefault : l.defaultModel = model.defaultModel := by
        rw [ConfigLayer.defaultModel, hmodel]
        rfl
      rw [filter_cons_of_pos (by rw [ConfigLayer.hasModel, hmodel]; rfl), map_cons,
        foldl_cons, hmodels]
      rw [ih]
      cases hname : model.defaultModel with
      | none =>
        have hnot : l.hasDefault = false := by rw [ConfigLayer.hasDefault, hdefault, hname]; rfl
        rw [find?_cons_of_neg (by rw [hnot]; exact Bool.false_ne_true)]
      | some name =>
        have hhas : l.hasDefault = true := by rw [ConfigLayer.hasDefault, hdefault, hname]; rfl
        rw [find?_cons_of_pos hhas, Option.bind_some, hdefault, hname]
        cases d <;> rfl

theorem meet_filter (s : List ConfigLayer) (has : ConfigLayer → Bool)
    (list : ConfigLayer → List String) : meet ((s.filter has).map list)
      = (s.find? has).map (fun l =>
          (list l).filter (fun b => decide (∀ m ∈ s, has m = true → b ∈ list m))) := by
  rw [meet_eq, head?_map, head?_filter, Option.map_map]
  congr 1
  funext l
  refine filter_congr (fun b _ => decide_eq_decide.mpr ?_)
  constructor
  · exact fun h m hm hhas => h _ (mem_map_of_mem (mem_filter.mpr ⟨hm, hhas⟩))
  · rintro h _ hlist
    obtain ⟨m, hm, rfl⟩ := mem_map.mp hlist
    exact h m (mem_filter.mp hm).1 (mem_filter.mp hm).2

theorem mem_byAuthority : l ∈ byAuthority layers ↔ l ∈ layers := mem_sorted

theorem hosts_eq (layers : List ConfigLayer) :
    meet (((byAuthority layers).filter ConfigLayer.hasNetwork).map ConfigLayer.hosts)
      = (first layers ConfigLayer.hasNetwork).map (fun l =>
          l.hosts.filter (fun host => decide (HostAllowed layers host))) := by
  rw [meet_filter]
  simp only [mem_byAuthority]
  rfl

theorem models_eq (layers : List ConfigLayer) :
    meet (((byAuthority layers).filter ConfigLayer.hasModel).map ConfigLayer.models)
      = (first layers ConfigLayer.hasModel).map (fun l =>
          l.models.filter (fun model => decide (ModelAllowed layers model))) := by
  rw [meet_filter]
  simp only [mem_byAuthority]
  rfl

theorem first_hasModel (h : first layers ConfigLayer.hasDefault = some l) :
    ∃ m, first layers ConfigLayer.hasModel = some m := by
  have hl := find_sorted h
  have hmodel : l.hasModel = true := by
    have hdefault := hl.2.1
    rw [ConfigLayer.hasDefault, ConfigLayer.defaultModel] at hdefault
    rw [ConfigLayer.hasModel]
    cases hm : l.model with
    | none =>
      rw [hm] at hdefault
      cases hdefault
    | some model => rfl
  cases hfirst : first layers ConfigLayer.hasModel with
  | none => cases hmodel.symm.trans (find_sorted_eq_none.mp hfirst l hl.1)
  | some m => exact ⟨m, rfl⟩

/-- **What comes out**: an error for a default that some layer does not allow. -/
theorem resolve_eq (layers : List ConfigLayer) : resolve layers
    = if ∀ d ∈ resolvedDefault layers, ModelAllowed layers d then
        .ok ⟨resolvedNetwork layers, resolvedModel layers⟩
      else .error (.widened ((resolvedDefault layers).getD "")) := by
  have hdefault : (first layers ConfigLayer.hasDefault).bind
      (fun l => l.defaultModel.map (fun name => (name, l.authority)))
      = (first layers ConfigLayer.hasDefault).bind (fun l =>
          (resolvedDefault layers).map (fun name => (name, l.authority))) := by
    rw [resolvedDefault]
    cases first layers ConfigLayer.hasDefault <;> rfl
  rw [resolve, foldl_networkStep, foldl_modelStep]
  rw [Option.none_or, ← meet, ← meet, hosts_eq, models_eq, ← first, hdefault, resolvedNetwork,
    resolvedModel, lastAuthority]
  cases hfirst : first layers ConfigLayer.hasDefault with
  | none =>
    have hnone : resolvedDefault layers = none := by rw [resolvedDefault, hfirst]; rfl
    rw [if_pos (by rw [hnone]; exact fun d hd => absurd hd (Option.not_mem_none d)), hnone]
    cases first layers ConfigLayer.hasModel with
    | none =>
      cases first layers ConfigLayer.hasNetwork <;> rfl
    | some m =>
      cases first layers ConfigLayer.hasNetwork <;> rfl
  | some l =>
    obtain ⟨m, hm⟩ := first_hasModel hfirst
    have hl := find_sorted hfirst
    obtain ⟨d, hd⟩ := Option.isSome_iff_exists.mp hl.2.1
    have hsome : resolvedDefault layers = some d := by rw [resolvedDefault, hfirst]; exact hd
    have hmem : d ∈ m.models.filter (fun model => decide (ModelAllowed layers model)) ↔
        ModelAllowed layers d := by
      rw [mem_filter, decide_eq_true_eq]
      exact and_iff_right_of_imp (fun h => h m (find_sorted hm).1 (find_sorted hm).2.1)
    have hall : (∀ e ∈ resolvedDefault layers, ModelAllowed layers e) ↔ ModelAllowed layers d := by
      rw [hsome]
      exact ⟨fun h => h d rfl, fun h e he => Option.some.inj he ▸ h⟩
    rw [hm]
    by_cases hallowed : ModelAllowed layers d
    · rw [if_pos (hall.mpr hallowed), hsome]
      simp only [Option.map_some, Option.bind_some, if_pos (hmem.mpr hallowed)]
      cases first layers ConfigLayer.hasNetwork <;> rfl
    · rw [if_neg (fun h => hallowed (hall.mp h)), hsome]
      simp only [Option.map_some, Option.bind_some, if_neg (fun h => hallowed (hmem.mp h))]
      rfl

variable {c : ResolvedConfig}

theorem of_resolve_ok (h : resolve layers = .ok c) :
    (∀ d ∈ resolvedDefault layers, ModelAllowed layers d) ∧
      c = ⟨resolvedNetwork layers, resolvedModel layers⟩ := by
  rw [resolve_eq] at h
  split_ifs at h with hall
  exact ⟨hall, (Except.ok.inj h).symm⟩

theorem mem_hosts (h : first layers ConfigLayer.hasNetwork = some l) :
    host ∈ l.hosts.filter (fun host => decide (HostAllowed layers host)) ↔ HostAllowed layers host := by
  rw [mem_filter, decide_eq_true_eq]
  exact and_iff_right_of_imp (fun hall => hall l (find_sorted h).1 (find_sorted h).2.1)

theorem mem_models (h : first layers ConfigLayer.hasModel = some l) :
    model ∈ l.models.filter (fun model => decide (ModelAllowed layers model)) ↔
      ModelAllowed layers model := by
  rw [mem_filter, decide_eq_true_eq]
  exact and_iff_right_of_imp (fun hall => hall l (find_sorted h).1 (find_sorted h).2.1)

theorem of_resolvedNetwork {n : ResolvedNetwork} (h : resolvedNetwork layers = some n) :
    ∃ l, first layers ConfigLayer.hasNetwork = some l ∧ n =
      ⟨l.hosts.filter (fun host => decide (HostAllowed layers host)), lastAuthority layers⟩ := by
  obtain ⟨l, hl, hn⟩ := Option.map_eq_some_iff.mp h
  exact ⟨l, hl, hn.symm⟩

theorem of_resolvedModel {n : ResolvedModel} (h : resolvedModel layers = some n) :
    ∃ l, first layers ConfigLayer.hasModel = some l ∧ n =
      ⟨l.models.filter (fun model => decide (ModelAllowed layers model)), resolvedDefault layers,
        (first layers ConfigLayer.hasDefault).elim .user ConfigLayer.authority⟩ := by
  obtain ⟨l, hl, hn⟩ := Option.map_eq_some_iff.mp h
  exact ⟨l, hl, hn.symm⟩

theorem first_isSome (layers : List ConfigLayer) (has : ConfigLayer → Bool) :
    (first layers has).isSome = true ↔ ∃ l ∈ layers, has l = true := by
  rw [first, find?_isSome]
  exact exists_congr (fun l => and_congr_left (fun _ => mem_byAuthority))

theorem le_lastAuthority (hl : l ∈ layers) (hnet : l.hasNetwork = true) :
    l.authority.rank ≤ (lastAuthority layers).rank := by
  have hmem : l ∈ (byAuthority layers).filter ConfigLayer.hasNetwork :=
    mem_filter.mpr ⟨mem_byAuthority.mpr hl, hnet⟩
  have hpairwise := (sorted_pairwise (fun l => l.authority.rank) layers).filter
    ConfigLayer.hasNetwork
  rw [lastAuthority]
  cases hlast : ((byAuthority layers).filter ConfigLayer.hasNetwork).getLast? with
  | none =>
    rw [getLast?_eq_none_iff.mp hlast] at hmem
    cases hmem
  | some m =>
    obtain ⟨s, hs⟩ := getLast?_eq_some_iff.mp hlast
    rw [hs] at hmem
    change (List.filter ConfigLayer.hasNetwork (byAuthority layers)).Pairwise _ at hpairwise
    rw [hs] at hpairwise
    rcases mem_append.mp hmem with hmem | hmem
    · exact (pairwise_append.mp hpairwise).2.2 l hmem m (mem_singleton.mpr rfl)
    · rw [mem_singleton.mp hmem]
      exact Nat.le_refl _

theorem exists_lastAuthority (hl : l ∈ layers) (hnet : l.hasNetwork = true) :
    ∃ m ∈ layers, m.hasNetwork = true ∧ m.authority = lastAuthority layers := by
  have hmem : l ∈ (byAuthority layers).filter ConfigLayer.hasNetwork :=
    mem_filter.mpr ⟨mem_byAuthority.mpr hl, hnet⟩
  rw [lastAuthority]
  cases hlast : ((byAuthority layers).filter ConfigLayer.hasNetwork).getLast? with
  | none =>
    rw [getLast?_eq_none_iff.mp hlast] at hmem
    cases hmem
  | some m =>
    have hm := mem_filter.mp (mem_of_getLast? hlast)
    exact ⟨m, mem_byAuthority.mp hm.1, hm.2, rfl⟩

theorem first_congr {β : Type} {has : ConfigLayer → Bool} {f : ConfigLayer → β}
    (h : ∀ l m, Foremost (fun l => l.authority.rank) has layers l →
      Foremost (fun l => l.authority.rank) has layers m → f l = f m) (hperm : layers'.Perm layers) :
    (first layers' has).map f = (first layers has).map f := by
  cases hl : first layers has with
  | none =>
    cases hl' : first layers' has with
    | none => rfl
    | some l' =>
      have hnot := find_sorted_eq_none.mp hl l' (hperm.mem_iff.mp (find_sorted hl').1)
      cases hnot.symm.trans (find_sorted hl').2.1
  | some l =>
    cases hl' : first layers' has with
    | none =>
      have hnot := find_sorted_eq_none.mp hl' l (hperm.mem_iff.mpr (find_sorted hl).1)
      cases hnot.symm.trans (find_sorted hl).2.1
    | some l' =>
      exact congrArg some (h l' l ((find_sorted hl').congr hperm.symm) (find_sorted hl))

theorem hostAllowed_perm (h : layers'.Perm layers) : HostAllowed layers' host ↔ HostAllowed layers host :=
  forall_congr' (fun _ => imp_congr_left h.mem_iff)

theorem modelAllowed_perm (h : layers'.Perm layers) :
    ModelAllowed layers' model ↔ ModelAllowed layers model :=
  forall_congr' (fun _ => imp_congr_left h.mem_iff)

/-! ### Other orders of the layers -/

theorem resolvedDefault_perm (h : Clear layers) (hperm : layers'.Perm layers) :
    resolvedDefault layers' = resolvedDefault layers := by
  have hjoin : ∀ k : List ConfigLayer, resolvedDefault k
      = ((first k ConfigLayer.hasDefault).map ConfigLayer.defaultModel).join := by
    intro k
    rw [resolvedDefault]
    cases first k ConfigLayer.hasDefault <;> rfl
  rw [hjoin, hjoin, first_congr h.defaults hperm]

theorem resolvedNetwork_perm (h : Settled layers) (hperm : layers'.Perm layers) :
    resolvedNetwork layers' = resolvedNetwork layers := by
  have hnetwork : ∀ k : List ConfigLayer, k.Perm layers → resolvedNetwork k
      = (first k ConfigLayer.hasNetwork).map (fun l =>
          ⟨l.hosts.filter (fun host => decide (HostAllowed layers host)), l.authority⟩) := by
    intro k hk
    rw [resolvedNetwork]
    cases hfirst : first k ConfigLayer.hasNetwork with
    | none => rfl
    | some l =>
      have hl := find_sorted hfirst
      obtain ⟨m, hm, hnet, hlast⟩ := exists_lastAuthority hl.1 hl.2.1
      have hauthority := h.authority l (hk.mem_iff.mp hl.1) m (hk.mem_iff.mp hm) hl.2.1 hnet
      rw [Option.map_some, Option.map_some, ← hlast, ← hauthority]
      congr 2
      exact filter_congr (fun _ _ => decide_eq_decide.mpr (hostAllowed_perm hk))
  rw [hnetwork layers' hperm, hnetwork layers (List.Perm.refl _)]
  refine first_congr (fun l m hl hm => ?_) hperm
  rw [h.hosts l hl.1 m hm.1 hl.2.1 hm.2.1, h.authority l hl.1 m hm.1 hl.2.1 hm.2.1]

theorem resolvedModel_perm (h : Clear layers) (hs : Settled layers) (hperm : layers'.Perm layers) :
    resolvedModel layers' = resolvedModel layers := by
  have hmodel : resolvedModel layers' = (first layers' ConfigLayer.hasModel).map (fun l =>
      ⟨l.models.filter (fun model => decide (ModelAllowed layers model)), resolvedDefault layers,
        (first layers ConfigLayer.hasDefault).elim .user ConfigLayer.authority⟩) := by
    have hauthority : (first layers' ConfigLayer.hasDefault).map ConfigLayer.authority
        = (first layers ConfigLayer.hasDefault).map ConfigLayer.authority := by
      refine first_congr (fun l m hl hm => Authority.rank_inj ?_) hperm
      exact Nat.le_antisymm (hl.2.2 m hm.1 hm.2.1) (hm.2.2 l hl.1 hl.2.1)
    have helim : ∀ o : Option ConfigLayer,
        o.elim .user ConfigLayer.authority = (o.map ConfigLayer.authority).getD .user := by
      intro o
      cases o <;> rfl
    rw [resolvedModel, resolvedDefault_perm h hperm, helim, hauthority, ← helim]
    congr 1
    funext l
    congr 1
    exact filter_congr (fun _ _ => decide_eq_decide.mpr (modelAllowed_perm hperm))
  rw [hmodel]
  refine first_congr (fun l m hl hm => ?_) hperm
  rw [hs.models l m hl hm]

/-- **Clear layers come out the same in any order.** -/
theorem resolve_perm (h : Clear layers) (hperm : layers'.Perm layers) :
    resolve layers' = resolve layers := by
  have hall : (∀ d ∈ resolvedDefault layers', ModelAllowed layers' d) ↔
      ∀ d ∈ resolvedDefault layers, ModelAllowed layers d := by
    rw [resolvedDefault_perm h hperm]
    exact forall₂_congr (fun _ _ => modelAllowed_perm hperm)
  rw [resolve_eq, resolve_eq]
  by_cases hallowed : ∀ d ∈ resolvedDefault layers, ModelAllowed layers d
  · rw [if_pos (hall.mpr hallowed), if_pos hallowed]
    rcases h.rest with ⟨l, d, hl, hd, hnot⟩ | hs
    · refine absurd (hallowed d ?_) hnot
      cases hfirst : first layers ConfigLayer.hasDefault with
      | none => cases (find_sorted_eq_none.mp hfirst l hl.1).symm.trans hl.2.1
      | some m =>
        rw [resolvedDefault, hfirst]
        exact (h.defaults m l (find_sorted hfirst) hl).trans hd
    · rw [resolvedNetwork_perm hs hperm, resolvedModel_perm h hs hperm]
  · rw [if_neg (fun hp => hallowed (hall.mp hp)), if_neg hallowed, resolvedDefault_perm h hperm]

theorem default_of_resolve_eq (h : resolve layers' = resolve layers) {d e : String}
    (hd : resolvedDefault layers' = some d) (he : resolvedDefault layers = some e) : d = e := by
  have hmodel : ∀ {k : List ConfigLayer} {d : String}, resolvedDefault k = some d →
      (resolvedModel k).bind ResolvedModel.defaultModel = some d := by
    intro k d hd
    obtain ⟨l, hl, -⟩ := Option.bind_eq_some_iff.mp hd
    obtain ⟨m, hm⟩ := first_hasModel hl
    rw [resolvedModel, hm]
    exact hd
  rw [resolve_eq, resolve_eq] at h
  split_ifs at h
  · obtain ⟨-, hsame⟩ := ResolvedConfig.mk.inj (Except.ok.inj h)
    have hbind := hmodel hd
    rw [hsame, hmodel he] at hbind
    exact (Option.some.inj hbind).symm
  · rw [hd, he] at h
    exact ResolveError.widened.inj (Except.error.inj h)

theorem hosts_of_first (h : resolve layers' = .ok c)
    (hl : first layers' ConfigLayer.hasNetwork = some l) (hperm : layers'.Perm layers) :
    c.network.map ResolvedNetwork.allowedHosts
      = some (l.hosts.filter (fun host => decide (HostAllowed layers host))) := by
  rw [(of_resolve_ok h).2, resolvedNetwork, hl]
  exact congrArg some
    (filter_congr (fun _ _ => decide_eq_decide.mpr (hostAllowed_perm hperm)))

theorem models_of_first (h : resolve layers' = .ok c)
    (hl : first layers' ConfigLayer.hasModel = some l) (hperm : layers'.Perm layers) :
    c.model.map ResolvedModel.allowedModels
      = some (l.models.filter (fun model => decide (ModelAllowed layers model))) := by
  rw [(of_resolve_ok h).2, resolvedModel, hl]
  exact congrArg some
    (filter_congr (fun _ _ => decide_eq_decide.mpr (modelAllowed_perm hperm)))

/-! ### The laws -/

theorem clear_of_lawful (h : Lawful layers) : Clear layers := by
  have hfirst : ∀ {has l}, Foremost (fun l => l.authority.rank) has layers l →
      ∃ k, resolve k = resolve layers ∧ k.Perm layers ∧ first k has = some l := by
    intro has l hl
    obtain ⟨k, hk, hfind⟩ := hl.exists_perm
    exact ⟨k, h.permuted k hk, hk, hfind⟩
  constructor
  · intro l m hl hm
    obtain ⟨k, hk, -, hkl⟩ := hfirst hl
    obtain ⟨k', hk', -, hkm⟩ := hfirst hm
    obtain ⟨d, hd⟩ := Option.isSome_iff_exists.mp hl.2.1
    obtain ⟨e, he⟩ := Option.isSome_iff_exists.mp hm.2.1
    have hdefault : resolvedDefault k = some d := by rw [resolvedDefault, hkl]; exact hd
    have hdefault' : resolvedDefault k' = some e := by rw [resolvedDefault, hkm]; exact he
    rw [hd, he, default_of_resolve_eq (hk.trans hk'.symm) hdefault hdefault']
  · by_cases hall : ∀ d ∈ resolvedDefault layers, ModelAllowed layers d
    · right
      have hok : resolve layers = .ok ⟨resolvedNetwork layers, resolvedModel layers⟩ := by
        rw [resolve_eq, if_pos hall]
      have hauthority : ∀ l ∈ layers, l.hasNetwork = true → l.authority = lastAuthority layers := by
        intro l hl hnet
        obtain ⟨f, hf⟩ := Option.isSome_iff_exists.mp
          ((first_isSome layers ConfigLayer.hasNetwork).mpr ⟨l, hl, hnet⟩)
        obtain ⟨n, hn⟩ : ∃ n, resolvedNetwork layers = some n :=
          ⟨_, by rw [resolvedNetwork, hf, Option.map_some]⟩
        obtain ⟨_, _, hlast⟩ := of_resolvedNetwork hn
        obtain ⟨top, htop, hprovenance⟩ := h.networkProvenance _ _ hok hn
        rw [hlast] at hprovenance
        refine Authority.rank_inj (Nat.le_antisymm (le_lastAuthority hl hnet) ?_)
        exact Nat.le_trans (Nat.le_of_eq (congrArg Authority.rank hprovenance.symm))
          (htop.2.2 l hl hnet)
      have hsame : ∀ l ∈ layers, ∀ m ∈ layers, l.hasNetwork = true → m.hasNetwork = true →
          l.authority = m.authority := fun l hl m hm hnet hnet' =>
        (hauthority l hl hnet).trans (hauthority m hm hnet').symm
      refine ⟨hsame, ?_, ?_, ?_⟩
      · intro l hl m hm hnet hnet'
        have hforemost : ∀ k ∈ layers, k.hasNetwork = true →
            Foremost (fun l => l.authority.rank) ConfigLayer.hasNetwork layers k := fun k hk hnet =>
          ⟨hk, hnet, fun b hb hb' => Nat.le_of_eq (congrArg Authority.rank (hsame k hk b hb hnet hb'))⟩
        obtain ⟨k, hk, hperm, hkl⟩ := hfirst (hforemost l hl hnet)
        obtain ⟨k', hk', hperm', hkm⟩ := hfirst (hforemost m hm hnet')
        have hhosts := hosts_of_first (hk.trans hok) hkl hperm
        rw [hosts_of_first (hk'.trans hok) hkm hperm'] at hhosts
        exact (Option.some.inj hhosts).symm
      · intro l m hl hm
        obtain ⟨k, hk, hperm, hkl⟩ := hfirst hl
        obtain ⟨k', hk', hperm', hkm⟩ := hfirst hm
        have hmodels := models_of_first (hk.trans hok) hkl hperm
        rw [models_of_first (hk'.trans hok) hkm hperm'] at hmodels
        exact (Option.some.inj hmodels).symm
      · intro hnone l hl hmodel
        have hfirstDefault : first layers ConfigLayer.hasDefault = none :=
          find_sorted_eq_none.mpr hnone
        obtain ⟨f, hf⟩ := Option.isSome_iff_exists.mp
          ((first_isSome layers ConfigLayer.hasModel).mpr ⟨l, hl, hmodel⟩)
        obtain ⟨n, hn⟩ : ∃ n, resolvedModel layers = some n :=
          ⟨_, by rw [resolvedModel, hf, Option.map_some]⟩
        obtain ⟨_, _, hmodelEq⟩ := of_resolvedModel hn
        have hprovenance := h.modelProvenance _ _ hok hn
        rw [hmodelEq, resolvedDefault, hfirstDefault] at hprovenance
        obtain ⟨top, htop, huser⟩ := hprovenance
        have hle : top.authority.rank ≤ l.authority.rank := htop.2.2 l hl hmodel
        rw [huser] at hle
        exact Authority.rank_inj (Nat.le_antisymm (by cases l.authority <;> decide) hle)
    · left
      obtain ⟨d, hd⟩ := not_forall.mp hall
      obtain ⟨hd, hnot⟩ := Classical.not_imp.mp hd
      obtain ⟨l, hl, hdl⟩ := Option.bind_eq_some_iff.mp hd
      exact ⟨l, d, find_sorted hl, hdl, hnot⟩

theorem lawful_of_clear (h : Clear layers) : Lawful layers := by
  have hsettled : ∀ {c}, resolve layers = .ok c → Settled layers := by
    intro c hc
    rcases h.rest with ⟨l, d, hl, hd, hnot⟩ | hs
    · refine absurd ((of_resolve_ok hc).1 d ?_) hnot
      obtain ⟨f, hf⟩ := Option.isSome_iff_exists.mp
        ((first_isSome layers ConfigLayer.hasDefault).mpr ⟨l, hl.1, hl.2.1⟩)
      rw [resolvedDefault, hf]
      exact (h.defaults f l (find_sorted hf) hl).trans hd
    · exact hs
  have hhosts : ∀ {k c n}, resolve k = .ok c → c.network = some n →
      ∀ host, host ∈ n.allowedHosts ↔ HostAllowed k host := by
    intro k c n hc hn host
    rw [(of_resolve_ok hc).2] at hn
    obtain ⟨l, hl, rfl⟩ := of_resolvedNetwork hn
    exact mem_hosts hl
  have hmodels : ∀ {k c n}, resolve k = .ok c → c.model = some n →
      ∀ model, model ∈ n.allowedModels ↔ ModelAllowed k model := by
    intro k c n hc hn model
    rw [(of_resolve_ok hc).2] at hn
    obtain ⟨l, hl, rfl⟩ := of_resolvedModel hn
    exact mem_models hl
  constructor
  · exact fun c n hc hn => hhosts hc hn
  · exact fun c m hc hm => hmodels hc hm
  · intro c hc
    rw [(of_resolve_ok hc).2]
    rw [resolvedNetwork, resolvedModel, Option.isSome_map, Option.isSome_map]
    exact ⟨first_isSome _ _, first_isSome _ _⟩
  · intro wider c c' hwider hc hc'
    constructor
    · intro n n' hn hn' host hhost
      refine (hhosts hc hn host).mpr (fun l hl => ?_)
      exact (hhosts hc' hn' host).mp hhost l (hwider l hl)
    · intro m m' hm hm' model hmodel
      refine (hmodels hc hm model).mpr (fun l hl => ?_)
      exact (hmodels hc' hm' model).mp hmodel l (hwider l hl)
  · intro c m d hc hm hd
    obtain ⟨hall, rfl⟩ := of_resolve_ok hc
    obtain ⟨l, -, rfl⟩ := of_resolvedModel hm
    exact hall d hd
  · intro c n hc hn
    have hs := hsettled hc
    rw [(of_resolve_ok hc).2] at hn
    obtain ⟨l, hl, rfl⟩ := of_resolvedNetwork hn
    have hforemost := find_sorted hl
    obtain ⟨m, hm, hnet, hlast⟩ := exists_lastAuthority hforemost.1 hforemost.2.1
    exact ⟨l, hforemost, (hs.authority l hforemost.1 m hm hforemost.2.1 hnet).trans hlast⟩
  · intro c m hc hm
    have hs := hsettled hc
    rw [(of_resolve_ok hc).2] at hm
    obtain ⟨l, hl, rfl⟩ := of_resolvedModel hm
    rw [resolvedDefault]
    cases hfirst : first layers ConfigLayer.hasDefault with
    | none =>
      have hforemost := find_sorted hl
      exact ⟨l, hforemost,
        hs.noDefault (find_sorted_eq_none.mp hfirst) l hforemost.1 hforemost.2.1⟩
    | some f =>
      have hf := find_sorted hfirst
      rw [Option.bind_some, if_pos (show f.defaultModel.isSome = true from hf.2.1)]
      exact ⟨f, hf, rfl⟩
  · exact fun layers' hperm => resolve_perm h hperm

/-- **When the laws hold of the layers.** -/
theorem layers_lawful_iff (layers : List ConfigLayer) : Lawful layers ↔ Clear layers :=
  ⟨clear_of_lawful, lawful_of_clear⟩

/-- The administrator and the user allow the same host. -/
def adminAndUser : List ConfigLayer :=
  [⟨.admin, some ⟨["a.dev"]⟩, none⟩, ⟨.user, some ⟨["a.dev"]⟩, none⟩]

/-- Two layers of the project with two default models. -/
def twoDefaults : List ConfigLayer :=
  [⟨.project, none, some ⟨["m", "n"], some "m"⟩⟩, ⟨.project, none, some ⟨["m", "n"], some "n"⟩⟩]

/-- The hosts are said to be the user's, and the default model is that of the layer that comes first. -/
theorem provenance_lost : ¬ Lawful adminAndUser ∧ ¬ Lawful twoDefaults ∧
    resolve twoDefaults.reverse ≠ resolve twoDefaults := by
  have hdiffer : resolve twoDefaults.reverse ≠ resolve twoDefaults := by decide
  refine ⟨fun h => ?_, fun h => ?_, hdiffer⟩
  · have hok : resolve adminAndUser = .ok ⟨some ⟨["a.dev"], .user⟩, none⟩ := by decide
    obtain ⟨l, hl, huser⟩ := h.networkProvenance _ _ hok rfl
    have hle : l.authority.rank ≤ Authority.admin.rank :=
      hl.2.2 ⟨.admin, some ⟨["a.dev"]⟩, none⟩ mem_cons_self rfl
    rw [huser] at hle
    exact absurd hle (by decide)
  · exact hdiffer (h.permuted twoDefaults.reverse (reverse_perm _))

end Config

end Modbit
