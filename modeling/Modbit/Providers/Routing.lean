import Modbit.Lib.Ranked
import Modbit.Lib.Text
import Mathlib.Order.Compare
import Mathlib.Order.MinMax

/-!
# Routes and dispatches under a policy

`route` keeps the entries of the catalog that pass one test after the other and takes the first of
them in the order of their costs; `resolveDispatch` keeps a request's model or falls back from it,
and clamps its service tier.  A cost is a floating-point number: one of a linear order, or none
that compares.  The sort is any `StableSort`; where costs do not compare it may put any candidate
first.

`policy_obeyed_iff` says by the catalog when the two obey the policy and the task: before every
entry that is a candidate (`sift_fst`) and that the task's own lists refuse there is another one;
before every entry that stands for the request and that the policy refuses another that stands for
it; and the requested tier is allowed or above all that are.
-/

namespace Modbit

open Lib List

namespace Providers.Routing

variable {C : Type}

/-- The cost is none if it is not a number. -/
structure ModelCapability (C : Type) where
  model : String
  provider : String
  contextWindow : Nat
  maxOutputTokens : Nat
  supportsTools : Bool
  supportsVision : Bool
  supportsReasoning : Bool
  supportsStructuredOutput : Bool
  mediaModalities : List String
  supportsToolResultFormatting : Bool
  costPer1kInput : Option C

structure TaskFingerprint where
  requiresTools : Bool
  requiresVision : Bool
  requiresReasoning : Bool
  requiresStructuredOutput : Bool
  requiresMediaModalities : List String
  requiresToolResultFormatting : Bool
  minContextTokens : Nat
  minOutputTokens : Nat
  blockedModels : List String
  blockedProviders : List String
  requiredModel : Option String

inductive ServiceTier where
  | standard | flex | priority
  deriving DecidableEq

namespace ServiceTier

def rank : ServiceTier → Nat
  | standard => 0
  | flex => 1
  | priority => 2

theorem rank_injective : Function.Injective rank := by
  intro a b h
  cases a <;> cases b <;> first | rfl | cases h

instance : LinearOrder ServiceTier := LinearOrder.lift' rank rank_injective

def display : ServiceTier → String
  | standard => "standard"
  | flex => "flex"
  | priority => "priority"

end ServiceTier

structure EnterprisePolicy where
  blockedModels : List String
  blockedProviders : List String
  requiredModel : Option String
  allowedServiceTiers : Option (List ServiceTier)

structure RouteDecision where
  model : String
  provider : String
  exclusionReasons : List String
  decisionRecord : String

/-! ### Routes -/

/-- The candidates that are left, and why the others are not. -/
abbrev Sifted (C : Type) : Type := List (ModelCapability C) × List String

/-- Candidates that fail a test are excluded for its reasons. -/
def retain (ok : ModelCapability C → Bool) (reasons : ModelCapability C → List String)
    (st : Sifted C) : Sifted C :=
  (st.1.filter ok, st.2 ++ st.1.flatMap (fun c => if ok c then [] else reasons c))

def retainIf (required : Bool) (ok : ModelCapability C → Bool) (reason : ModelCapability C → String)
    (st : Sifted C) : Sifted C :=
  if required then retain ok (fun c => [reason c]) st else st

def retainModality (st : Sifted C) (modality : String) : Sifted C :=
  retain (fun c => c.mediaModalities.contains modality)
    (fun c => [c.model ++ ": media modality " ++ Text.debugStr modality ++ " unsupported"]) st

def retainUnblocked (policy : EnterprisePolicy) (st : Sifted C) : Sifted C :=
  retain (fun c => !policy.blockedModels.contains c.model && !policy.blockedProviders.contains c.provider)
    (fun c =>
      (if policy.blockedModels.contains c.model then
        [c.model ++ ": blocked by enterprise policy (model)"] else []) ++
      (if policy.blockedProviders.contains c.provider then
        [c.provider ++ ": blocked by enterprise policy (provider)"] else []))
    st

def retainRequired (policy : EnterprisePolicy) (st : Sifted C) : Sifted C :=
  match policy.requiredModel with
  | none => st
  | some required =>
    retain (fun c => c.model == required)
      (fun c => [c.model ++ ": not the enterprise-required model " ++ required]) st

def sift (fp : TaskFingerprint) (policy : EnterprisePolicy) (catalog : List (ModelCapability C)) :
    Sifted C :=
  let st := retainUnblocked policy (catalog, [])
  let st := retain (fun c => decide (fp.minContextTokens ≤ c.contextWindow))
    (fun c => [c.model ++ ": context " ++ toString c.contextWindow ++ " < required "
      ++ toString fp.minContextTokens]) st
  let st := retain (fun c => decide (fp.minOutputTokens ≤ c.maxOutputTokens))
    (fun c => [c.model ++ ": output " ++ toString c.maxOutputTokens ++ " < required "
      ++ toString fp.minOutputTokens]) st
  let st := retainIf fp.requiresTools (·.supportsTools) (fun c => c.model ++ ": no tool support") st
  let st := retainIf fp.requiresVision (·.supportsVision)
    (fun c => c.model ++ ": no vision support") st
  let st := retainIf fp.requiresReasoning (·.supportsReasoning)
    (fun c => c.model ++ ": no reasoning support") st
  let st := retainIf fp.requiresStructuredOutput (·.supportsStructuredOutput)
    (fun c => c.model ++ ": no structured output") st
  let st := fp.requiresMediaModalities.foldl retainModality st
  let st := retainIf fp.requiresToolResultFormatting (·.supportsToolResultFormatting)
    (fun c => c.model ++ ": no tool-result formatting support") st
  retainRequired policy st

section Route

variable [LinearOrder C]

def partialCmp : Option C → Option C → Option Ordering
  | some a, some b => some (compare a b)
  | _, _ => none

/-- Costs that do not compare are equal; of equal costs the names decide. -/
def costOrder (a b : ModelCapability C) : Ordering :=
  ((partialCmp a.costPer1kInput b.costPer1kInput).getD .eq).then (compare a.model b.model)

variable (sortBy : (ModelCapability C → ModelCapability C → Ordering) →
  List (ModelCapability C) → List (ModelCapability C))

def route (fp : TaskFingerprint) (policy : EnterprisePolicy) (catalog : List (ModelCapability C)) :
    Except (List String) RouteDecision :=
  let (candidates, exclusions) := sift fp policy catalog
  match (sortBy costOrder candidates).head? with
  | none => .error exclusions
  | some winner => .ok {
      model := winner.model
      provider := winner.provider
      exclusionReasons := exclusions
      decisionRecord := "routed to " ++ winner.model ++ " (provider " ++ winner.provider
        ++ ") — cost-optimized from " ++ toString catalog.length ++ " candidates, "
        ++ toString exclusions.length ++ " excluded" }

end Route

/-! ### Dispatches -/

inductive ReasoningEffort where
  | minimal | low | medium | high
  deriving DecidableEq

structure RequestedDispatch where
  model : String
  reasoningEffort : Option ReasoningEffort
  serviceTier : Option ServiceTier

structure ResolvedDispatch where
  model : String
  provider : String
  reasoningEffort : ReasoningEffort
  serviceTier : ServiceTier

structure RoutingRecord where
  requested : RequestedDispatch
  resolved : ResolvedDispatch
  policyReason : String

def familyOf (model : String) : String := ((Text.split '-' model).head?).getD ""

/-- The entry that stands for the requested model, and why if it is another one: the first that is not
blocked and of its family, or else the first that is not blocked. -/
def resolveModel (requested : RequestedDispatch) (policy : EnterprisePolicy)
    (catalog : List (ModelCapability C)) : Except String (ModelCapability C × List String) :=
  if policy.blockedModels.contains requested.model then
    let unblocked := catalog.filter (fun c => !policy.blockedModels.contains c.model)
    match (unblocked.find? (fun c => Text.startsWith c.model (familyOf requested.model))).or
        unblocked.head? with
    | none => .error "no unblocked model in catalog"
    | some fallback => .ok (fallback, ["model " ++ requested.model
        ++ " blocked by enterprise policy; resolved to " ++ fallback.model])
  else
    match catalog.find? (fun c => c.model == requested.model) with
    | none => .error ("requested model " ++ requested.model ++ " not in catalog")
    | some entry => .ok (entry, [])

def requestedTier (requested : RequestedDispatch) : ServiceTier := requested.serviceTier.getD .standard

def resolveTier (tier : ServiceTier) (policy : EnterprisePolicy) : ServiceTier × List String :=
  match policy.allowedServiceTiers with
  | none => (tier, [])
  | some allowed =>
    if !allowed.isEmpty && !allowed.contains tier then
      let clamped := allowed.max?.getD .standard
      (min clamped tier, if clamped < tier then
        ["service tier " ++ tier.display ++ " above policy ceiling; clamped to " ++ clamped.display]
      else [])
    else (tier, [])

def resolveDispatch (requested : RequestedDispatch) (policy : EnterprisePolicy)
    (catalog : List (ModelCapability C)) (defaultEffort : ReasoningEffort) :
    Except String RoutingRecord :=
  match resolveModel requested policy catalog with
  | .error e => .error e
  | .ok (entry, reasons) =>
    let (tier, tierReasons) := resolveTier (requestedTier requested) policy
    let reasons := reasons ++ tierReasons
    .ok {
      requested
      resolved := ⟨entry.model, entry.provider, requested.reasoningEffort.getD defaultEffort, tier⟩
      policyReason := if reasons = [] then "honored as requested" else String.intercalate "; " reasons }

/-! ### What a policy asks for -/

/-- No list of the policy has the entry, and it is the model the policy requires. -/
structure EnterprisePolicy.Allows (policy : EnterprisePolicy) (c : ModelCapability C) : Prop where
  model : c.model ∉ policy.blockedModels
  provider : c.provider ∉ policy.blockedProviders
  required : ∀ r, policy.requiredModel = some r → c.model = r

structure TaskFingerprint.Wants (fp : TaskFingerprint) (c : ModelCapability C) : Prop where
  model : c.model ∉ fp.blockedModels
  provider : c.provider ∉ fp.blockedProviders
  required : ∀ r, fp.requiredModel = some r → c.model = r

structure TaskFingerprint.Meets (fp : TaskFingerprint) (c : ModelCapability C) : Prop where
  context : fp.minContextTokens ≤ c.contextWindow
  output : fp.minOutputTokens ≤ c.maxOutputTokens
  tools : fp.requiresTools = true → c.supportsTools = true
  vision : fp.requiresVision = true → c.supportsVision = true
  reasoning : fp.requiresReasoning = true → c.supportsReasoning = true
  structured : fp.requiresStructuredOutput = true → c.supportsStructuredOutput = true
  modalities : ∀ m ∈ fp.requiresMediaModalities, m ∈ c.mediaModalities
  formatting : fp.requiresToolResultFormatting = true → c.supportsToolResultFormatting = true

/-- The tests of `route`, in their order. -/
def passes (fp : TaskFingerprint) (policy : EnterprisePolicy) (c : ModelCapability C) : Bool :=
  (!policy.blockedModels.contains c.model && !policy.blockedProviders.contains c.provider) &&
  decide (fp.minContextTokens ≤ c.contextWindow) && decide (fp.minOutputTokens ≤ c.maxOutputTokens) &&
  (!fp.requiresTools || c.supportsTools) && (!fp.requiresVision || c.supportsVision) &&
  (!fp.requiresReasoning || c.supportsReasoning) &&
  (!fp.requiresStructuredOutput || c.supportsStructuredOutput) &&
  fp.requiresMediaModalities.all (fun m => c.mediaModalities.contains m) &&
  (!fp.requiresToolResultFormatting || c.supportsToolResultFormatting) &&
  (policy.requiredModel.all (fun r => c.model == r))

variable {fp : TaskFingerprint} {policy : EnterprisePolicy} {catalog : List (ModelCapability C)}

theorem passes_iff {c : ModelCapability C} :
    passes fp policy c = true ↔ policy.Allows c ∧ fp.Meets c := by
  have himp : ∀ a b : Bool, (!a || b) = true ↔ (a = true → b = true) := by decide
  have hnot : ∀ b : Bool, (!b) = true ↔ ¬ b = true := by decide
  simp only [passes, Bool.and_eq_true, himp, hnot, decide_eq_true_eq, all_eq_true,
    contains_iff_mem, Option.all_eq_true, beq_iff_eq]
  constructor
  · rintro ⟨⟨⟨⟨⟨⟨⟨⟨⟨⟨hm, hp⟩, hc⟩, ho⟩, ht⟩, hv⟩, hr⟩, hs⟩, hmod⟩, hf⟩, hreq⟩
    exact ⟨⟨hm, hp, hreq⟩, hc, ho, ht, hv, hr, hs, hmod, hf⟩
  · rintro ⟨⟨hm, hp, hreq⟩, hc, ho, ht, hv, hr, hs, hmod, hf⟩
    exact ⟨⟨⟨⟨⟨⟨⟨⟨⟨⟨hm, hp⟩, hc⟩, ho⟩, ht⟩, hv⟩, hr⟩, hs⟩, hmod⟩, hf⟩, hreq⟩

theorem retainIf_fst (required : Bool) (ok : ModelCapability C → Bool)
    (reason : ModelCapability C → String) (st : Sifted C) :
    (retainIf required ok reason st).1 = st.1.filter (fun c => !required || ok c) := by
  cases required with
  | true => rfl
  | false => exact (filter_true _).symm

theorem retainModality_fst (modalities : List String) : ∀ st : Sifted C,
    (modalities.foldl retainModality st).1
      = st.1.filter (fun c => modalities.all (fun m => c.mediaModalities.contains m)) := by
  induction modalities with
  | nil => exact fun st => (filter_true _).symm
  | cons m modalities ih =>
    intro st
    rw [foldl_cons, ih]
    show (st.1.filter _).filter _ = _
    rw [filter_filter]
    exact filter_congr fun c _ => Bool.and_comm _ _

theorem retainRequired_fst (st : Sifted C) :
    (retainRequired policy st).1 = st.1.filter
    (fun c => policy.requiredModel.all (fun r => c.model == r)) := by
  unfold retainRequired
  cases policy.requiredModel with
  | none => exact (filter_true _).symm
  | some r => rfl

/-- **The candidates that are left are those that pass all tests.** -/
theorem sift_fst (fp : TaskFingerprint) (policy : EnterprisePolicy) (catalog : List (ModelCapability C)) :
    (sift fp policy catalog).1 = catalog.filter (passes fp policy) := by
  rw [sift, retainRequired_fst, retainIf_fst, retainModality_fst, retainIf_fst, retainIf_fst,
    retainIf_fst, retainIf_fst]
  simp only [retain, retainUnblocked, filter_filter]
  refine filter_congr fun c _ => ?_
  simp only [passes]
  ac_rfl

/-! ### Obedience -/

section Obey

variable [LinearOrder C]
  {sortBy : (ModelCapability C → ModelCapability C → Ordering) →
    List (ModelCapability C) → List (ModelCapability C)}

/-- A route leads to an entry that the policy and the task allow and that has what the task requires, and
is refused only if there is none. -/
structure RouteObeys (sortBy : (ModelCapability C → ModelCapability C → Ordering) →
      List (ModelCapability C) → List (ModelCapability C))
    (fp : TaskFingerprint) (policy : EnterprisePolicy) (catalog : List (ModelCapability C)) : Prop where
  chosen : ∀ d, route sortBy fp policy catalog = .ok d → ∃ c ∈ catalog,
    (c.model = d.model ∧ c.provider = d.provider) ∧ policy.Allows c ∧ fp.Wants c ∧ fp.Meets c
  refused : ∀ e, route sortBy fp policy catalog = .error e →
    ¬ ∃ c ∈ catalog, policy.Allows c ∧ fp.Wants c ∧ fp.Meets c

/-- Each entry that passes the tests and that the task refuses is preceded by another one that passes them,
in an order of the entries that pass. -/
def UnwantedPreceded (fp : TaskFingerprint) (policy : EnterprisePolicy)
    (catalog : List (ModelCapability C)) : Prop :=
  ∀ l₁ c l₂, catalog = l₁ ++ c :: l₂ → policy.Allows c → fp.Meets c → ¬ fp.Wants c →
    TotalOn costOrder (catalog.filter (passes fp policy)) ∧
      Preceded costOrder (fun c => policy.Allows c ∧ fp.Meets c) l₁ c l₂

theorem costOrder_swap (a b : ModelCapability C) : costOrder b a = (costOrder a b).swap := by
  rw [costOrder, costOrder, Ordering.swap_then, ← Std.OrientedCmp.eq_swap]
  congr 1
  cases a.costPer1kInput with
  | none => cases b.costPer1kInput <;> rfl
  | some p => cases b.costPer1kInput with
    | none => rfl
    | some q =>
      show compare q p = (compare p q).swap
      exact Std.OrientedCmp.eq_swap

/-- **Costs that are numbers order the entries.** -/
theorem totalOn_costOrder {l : List (ModelCapability C)} (h : ∀ c ∈ l, c.costPer1kInput ≠ none) :
    TotalOn costOrder l := by
  refine ⟨fun a _ b _ => costOrder_swap a b, fun a ha b hb c hc hab hbc => ?_⟩
  obtain ⟨p, hp⟩ := Option.ne_none_iff_exists'.mp (h a ha)
  obtain ⟨q, hq⟩ := Option.ne_none_iff_exists'.mp (h b hb)
  obtain ⟨r, hr⟩ := Option.ne_none_iff_exists'.mp (h c hc)
  simp only [costOrder, hp, hq, hr, partialCmp, Option.getD_some, Ordering.isLE_then_iff_or,
    compare_lt_iff_lt, compare_eq_iff_eq] at hab hbc ⊢
  rcases hab with hpq | ⟨rfl, hab⟩ <;> rcases hbc with hqr | ⟨rfl, hbc⟩
  · exact .inl (hpq.trans hqr)
  · exact .inl hpq
  · exact .inl hqr
  · exact .inr ⟨rfl, Std.TransCmp.isLE_trans hab hbc⟩

theorem route_cases : (∃ c d, (sortBy costOrder (catalog.filter (passes fp policy))).head? = some c ∧
      route sortBy fp policy catalog = .ok d ∧ d.model = c.model ∧ d.provider = c.provider) ∨
    ∃ e, (sortBy costOrder (catalog.filter (passes fp policy))).head? = none ∧
      route sortBy fp policy catalog = .error e := by
  unfold route
  rw [← sift_fst]
  dsimp only
  cases (sortBy costOrder (sift fp policy catalog).1).head? with
  | none => exact .inr ⟨_, rfl, rfl⟩
  | some c => exact .inl ⟨c, _, rfl, rfl, rfl, rfl⟩

theorem mem_of_head (hsort : StableSort sortBy) {c : ModelCapability C}
    (h : (sortBy costOrder (catalog.filter (passes fp policy))).head? = some c) :
    c ∈ catalog ∧ policy.Allows c ∧ fp.Meets c := by
  obtain ⟨hc, hpasses⟩ := mem_filter.mp ((hsort.perm _ _).mem_iff.mp (mem_of_head? h))
  exact ⟨hc, passes_iff.mp hpasses⟩

/-- A route obeys exactly if the task wants what comes first. -/
theorem routeObeys_iff_head (hsort : StableSort sortBy) :
    RouteObeys sortBy fp policy catalog ↔
      ∀ c, (sortBy costOrder (catalog.filter (passes fp policy))).head? = some c → fp.Wants c := by
  rcases @route_cases C fp policy catalog _ sortBy with
    ⟨c, d, hhead, hroute, hmodel, hprovider⟩ | ⟨e, hhead, hroute⟩
  · rw [hhead]
    constructor
    · rintro h _ ⟨⟩
      obtain ⟨c', -, ⟨hmodel', hprovider'⟩, -, hwants, -⟩ := h.chosen d hroute
      rw [hmodel] at hmodel'
      rw [hprovider] at hprovider'
      exact ⟨hmodel' ▸ hwants.model, hprovider' ▸ hwants.provider, hmodel' ▸ hwants.required⟩
    · intro h
      obtain ⟨hc, hallows, hmeets⟩ := mem_of_head hsort hhead
      constructor
      · intro d' hd
        rw [hroute] at hd
        cases hd
        exact ⟨c, hc, ⟨hmodel.symm, hprovider.symm⟩, hallows, h c rfl, hmeets⟩
      · intro e he
        rw [hroute] at he
        cases he
  · rw [hhead]
    refine iff_of_true ⟨?_, ?_⟩ (fun c hc => by cases hc)
    · intro d hd
      rw [hroute] at hd
      cases hd
    · rintro - - ⟨c, hc, hallows, -, hmeets⟩
      have hmem := (hsort.perm costOrder _).mem_iff.mpr
        (mem_filter.mpr ⟨hc, passes_iff.mpr ⟨hallows, hmeets⟩⟩)
      rw [head?_eq_none_iff.mp hhead] at hmem
      cases hmem

/-- **Under every stable sort routes obey exactly if the entries that the task refuses are preceded.** -/
theorem routeObeys_iff : (∀ sortBy, StableSort sortBy → RouteObeys sortBy fp policy catalog) ↔
    UnwantedPreceded fp policy catalog := by
  have hcounts : (fun c : ModelCapability C => policy.Allows c ∧ fp.Meets c)
      = fun c => passes fp policy c = true := funext fun c => propext passes_iff.symm
  rw [UnwantedPreceded, hcounts]
  constructor
  · intro h l₁ c l₂ hsplit hallows hmeets hunwanted
    have hpasses := passes_iff.mpr ⟨hallows, hmeets⟩
    have hmem : c ∈ catalog.filter (passes fp policy) :=
      mem_filter.mpr ⟨by rw [hsplit]; simp, hpasses⟩
    by_cases htotal : TotalOn costOrder (catalog.filter (passes fp policy))
    · refine ⟨htotal, ?_⟩
      by_contra hfirst
      have hhead := (head_filter_iff mergeSortBy_stable htotal).mpr ⟨l₁, l₂, hsplit, hpasses, hfirst⟩
      exact hunwanted ((routeObeys_iff_head mergeSortBy_stable).mp (h _ mergeSortBy_stable) c hhead)
    · obtain ⟨sortBy, hsort, hhead⟩ := exists_head htotal hmem
      exact absurd ((routeObeys_iff_head hsort).mp (h _ hsort) c hhead) hunwanted
  · intro h sortBy hsort
    refine (routeObeys_iff_head hsort).mpr (fun c hhead => ?_)
    obtain ⟨hc, hallows, hmeets⟩ := mem_of_head hsort hhead
    by_contra hunwanted
    obtain ⟨m₁, m₂, hm⟩ := append_of_mem hc
    have htotal := (h m₁ c m₂ hm hallows hmeets hunwanted).1
    obtain ⟨l₁, l₂, hsplit, -, hfirst⟩ := (head_filter_iff hsort htotal).mp hhead
    exact hfirst (h l₁ c l₂ hsplit hallows hmeets hunwanted).2

end Obey

section Dispatch

variable {requested : RequestedDispatch} {defaultEffort : ReasoningEffort} {c : ModelCapability C}

/-- A dispatch is one that the policy allows. -/
structure DispatchObeys (requested : RequestedDispatch) (policy : EnterprisePolicy)
    (catalog : List (ModelCapability C)) (defaultEffort : ReasoningEffort) : Prop where
  model : ∀ record, resolveDispatch requested policy catalog defaultEffort = .ok record →
    record.resolved.model ∉ policy.blockedModels ∧
      record.resolved.provider ∉ policy.blockedProviders ∧
      ∀ r, policy.requiredModel = some r → record.resolved.model = r
  tier : ∀ record, resolveDispatch requested policy catalog defaultEffort = .ok record →
    ∀ allowed, policy.allowedServiceTiers = some allowed → allowed ≠ [] →
      record.resolved.serviceTier ∈ allowed

/-- An entry that can stand for the request: its model, or any that is not blocked if it is. -/
def Stands (requested : RequestedDispatch) (policy : EnterprisePolicy) (c : ModelCapability C) : Prop :=
  if requested.model ∈ policy.blockedModels then c.model ∉ policy.blockedModels
  else c.model = requested.model

/-- The family of the request comes first. -/
def familyRank (requested : RequestedDispatch) (c : ModelCapability C) : Nat :=
  if Text.startsWith c.model (familyOf requested.model) then 0 else 1

def familyOrder (requested : RequestedDispatch) (a b : ModelCapability C) : Ordering :=
  compare (familyRank requested a) (familyRank requested b)

/-- Each entry that can stand for the request and that the policy refuses is preceded by another one that
can, and the requested tier is allowed or above all that are. -/
structure StandsAllowed (requested : RequestedDispatch) (policy : EnterprisePolicy)
    (catalog : List (ModelCapability C)) : Prop where
  model : ∀ l₁ c l₂, catalog = l₁ ++ c :: l₂ → Stands requested policy c → ¬ policy.Allows c →
    Preceded (familyOrder requested) (Stands requested policy) l₁ c l₂
  tier : (∃ c ∈ catalog, Stands requested policy c) →
    ∀ allowed, policy.allowedServiceTiers = some allowed → allowed ≠ [] →
      requestedTier requested ∈ allowed ∨ ∀ t ∈ allowed, t < requestedTier requested

theorem Stands.unblocked (h : Stands requested policy c) : c.model ∉ policy.blockedModels := by
  rw [Stands] at h
  split_ifs at h with hblocked
  · exact h
  · exact h ▸ hblocked

/-- **The entry that stands for the request is preceded by none that could.** -/
theorem resolveModel_spec (requested : RequestedDispatch) (policy : EnterprisePolicy)
    (catalog : List (ModelCapability C)) :
    match resolveModel requested policy catalog with
    | .ok (entry, _) => ∃ l₁ l₂, catalog = l₁ ++ entry :: l₂ ∧ Stands requested policy entry ∧
        ¬ Preceded (familyOrder requested) (Stands requested policy) l₁ entry l₂
    | .error _ => ∀ c ∈ catalog, ¬ Stands requested policy c := by
  unfold resolveModel
  by_cases hblocked : requested.model ∈ policy.blockedModels
  · have hstands : ∀ c : ModelCapability C, Stands requested policy c ↔
        (!policy.blockedModels.contains c.model) = true := fun c => by simp [Stands, hblocked]
    rw [if_pos (contains_iff_mem.mpr hblocked)]
    dsimp only
    rw [find?_filter, head?_filter]
    cases hfamily : catalog.find? (fun c => decide ((!policy.blockedModels.contains c.model) = true ∧
      Text.startsWith c.model (familyOf requested.model) = true)) with
    | some entry =>
      obtain ⟨hentry, l₁, l₂, hsplit, hbefore⟩ := find?_eq_some_iff_append.mp hfamily
      obtain ⟨hunblocked, hkin⟩ := of_decide_eq_true hentry
      refine ⟨l₁, l₂, hsplit, (hstands entry).mpr hunblocked, ?_⟩
      have hrank : familyRank requested entry = 0 := if_pos hkin
      rintro (⟨c, hc, hst, hle⟩ | ⟨c, -, -, hlt⟩)
      · have hnot := of_decide_eq_false (Bool.not_eq_true' _ ▸ hbefore c hc)
        have hother : familyRank requested c = 1 := if_neg (fun h => hnot ⟨(hstands c).mp hst, h⟩)
        rw [familyOrder, hrank, hother] at hle
        cases hle
      · rw [familyOrder, hrank, Nat.compare_eq_lt] at hlt
        cases hlt
    | none =>
      rw [find?_eq_none] at hfamily
      have hrank : ∀ c ∈ catalog, Stands requested policy c → familyRank requested c = 1 :=
        fun c hc hst => if_neg (fun h => hfamily c hc (decide_eq_true ⟨(hstands c).mp hst, h⟩))
      rw [Option.none_or]
      cases hhead : catalog.find? (fun c => !policy.blockedModels.contains c.model) with
      | none => exact fun c hc hst => find?_eq_none.mp hhead c hc ((hstands c).mp hst)
      | some entry =>
        obtain ⟨hunblocked, l₁, l₂, hsplit, hbefore⟩ := find?_eq_some_iff_append.mp hhead
        have hentry := (hstands entry).mpr hunblocked
        refine ⟨l₁, l₂, hsplit, hentry, ?_⟩
        rintro (⟨c, hc, hst, -⟩ | ⟨c, hc, hst, hlt⟩)
        · have hnot := hbefore c hc
          rw [(hstands c).mp hst] at hnot
          cases hnot
        · rw [familyOrder, hrank c (by rw [hsplit]; simp [hc]) hst,
            hrank entry (by rw [hsplit]; simp) hentry] at hlt
          cases hlt
  · have hstands : ∀ c : ModelCapability C, Stands requested policy c ↔
        (c.model == requested.model) = true := fun c => by simp [Stands, hblocked]
    rw [if_neg (fun h => hblocked (contains_iff_mem.mp h))]
    cases hfind : catalog.find? (fun c => c.model == requested.model) with
    | none => exact fun c hc hst => find?_eq_none.mp hfind c hc ((hstands c).mp hst)
    | some entry =>
      obtain ⟨hname, l₁, l₂, hsplit, hbefore⟩ := find?_eq_some_iff_append.mp hfind
      refine ⟨l₁, l₂, hsplit, (hstands entry).mpr hname, ?_⟩
      rintro (⟨c, hc, hst, -⟩ | ⟨c, -, hst, hlt⟩)
      · have hnot := hbefore c hc
        rw [(hstands c).mp hst] at hnot
        cases hnot
      · -- Entries of one name are of one rank.
        have hsame : c.model = entry.model :=
          (beq_iff_eq.mp ((hstands c).mp hst)).trans (beq_iff_eq.mp hname).symm
        rw [familyOrder, familyRank, familyRank, hsame, Nat.compare_eq_lt] at hlt
        exact absurd hlt (lt_irrefl _)

theorem resolveDispatch_eq (defaultEffort : ReasoningEffort) {entry : ModelCapability C}
    {reasons : List String} (h : resolveModel requested policy catalog = .ok (entry, reasons)) :
    ∃ record, resolveDispatch requested policy catalog defaultEffort = .ok record ∧
      record.resolved.model = entry.model ∧ record.resolved.provider = entry.provider ∧
      record.resolved.serviceTier = (resolveTier (requestedTier requested) policy).1 := by
  unfold resolveDispatch
  rw [h]
  exact ⟨_, rfl, rfl, rfl, rfl⟩

/-- **A tier is clamped to an allowed one exactly if it is above all that are allowed.** -/
theorem resolveTier_mem_iff {tier : ServiceTier} {allowed : List ServiceTier}
    (hallowed : policy.allowedServiceTiers = some allowed) (hne : allowed ≠ []) :
    (resolveTier tier policy).1 ∈ allowed ↔ tier ∈ allowed ∨ ∀ t ∈ allowed, t < tier := by
  unfold resolveTier
  rw [hallowed]
  dsimp only
  rw [isEmpty_eq_false_iff.mpr hne, Bool.not_false, Bool.true_and]
  by_cases hmem : tier ∈ allowed
  · rw [contains_iff_mem.mpr hmem]
    exact iff_of_true hmem (.inl hmem)
  · have hcontains : allowed.contains tier = false := by
      rw [← Bool.not_eq_true, contains_iff_mem]
      exact hmem
    obtain ⟨top, htop⟩ : ∃ top, allowed.max? = some top := by
      cases hmax : allowed.max? with
      | none => exact absurd (max?_eq_none_iff.mp hmax) hne
      | some top => exact ⟨top, rfl⟩
    obtain ⟨hin, hle⟩ := max?_eq_some_iff.mp htop
    rw [hcontains, htop, Option.getD_some, Bool.not_false, if_pos rfl, or_iff_right hmem]
    constructor
    · intro hclamped t ht
      rcases le_total top tier with h | h
      · exact lt_of_le_of_ne (le_trans (hle t ht) h) fun heq => hmem (heq ▸ ht)
      · -- the requested tier itself comes out
        rw [min_eq_right h] at hclamped
        exact absurd hclamped hmem
    · intro hless
      rw [min_eq_left (hless top hin).le]
      exact hin

theorem dispatchObeys_iff : DispatchObeys requested policy catalog defaultEffort ↔
    StandsAllowed requested policy catalog := by
  have hspec := resolveModel_spec requested policy catalog
  cases hentry : resolveModel requested policy catalog with
  | error e =>
    rw [hentry] at hspec
    have hrefused : resolveDispatch requested policy catalog defaultEffort = .error e := by
      rw [resolveDispatch, hentry]
    refine iff_of_true ⟨fun record h => ?_, fun record h => ?_⟩ ⟨fun l₁ c l₂ hsplit hst => ?_, ?_⟩
    · rw [hrefused] at h
      cases h
    · rw [hrefused] at h
      cases h
    · exact absurd hst (hspec c (by rw [hsplit]; simp))
    · rintro ⟨c, hc, hst⟩
      exact absurd hst (hspec c hc)
  | ok p =>
    obtain ⟨entry, reasons⟩ := p
    rw [hentry] at hspec
    obtain ⟨l₁, l₂, hsplit, hst, hfirst⟩ := hspec
    obtain ⟨record, hrecord, hmodel, hprovider, htier⟩ := resolveDispatch_eq defaultEffort hentry
    constructor
    · intro h
      obtain ⟨hblocked, hallowed, hrequired⟩ := h.model record hrecord
      refine ⟨fun m₁ c m₂ hsplit' hst' hrefused => ?_, fun _ allowed hall hne => ?_⟩
      · by_contra hfirst'
        have hswap : familyOrder requested c entry = (familyOrder requested entry c).swap :=
          (Nat.compare_swap _ _).symm
        obtain rfl :=
          eq_of_not_preceded hswap hst hst' (hsplit.symm.trans hsplit') hfirst hfirst'
        exact hrefused ⟨hmodel ▸ hblocked, hprovider ▸ hallowed, hmodel ▸ hrequired⟩
      · rw [← resolveTier_mem_iff hall hne, ← htier]
        exact h.tier record hrecord allowed hall hne
    · intro h
      have hallows : policy.Allows entry := by
        by_contra hrefused
        exact hfirst (h.model l₁ entry l₂ hsplit hst hrefused)
      refine ⟨fun record' h' => ?_, fun record' h' allowed hall hne => ?_⟩
      · rw [hrecord] at h'
        cases h'
        rw [hmodel, hprovider]
        exact ⟨hallows.model, hallows.provider, hallows.required⟩
      · rw [hrecord] at h'
        cases h'
        rw [htier, resolveTier_mem_iff hall hne]
        exact h.tier ⟨entry, by rw [hsplit]; simp, hst⟩ allowed hall hne

end Dispatch

/-- **When the two resolvers obey the policy**, and the route the task. -/
theorem policy_obeyed_iff [LinearOrder C] (fp : TaskFingerprint) (policy : EnterprisePolicy)
    (catalog : List (ModelCapability C)) (requested : RequestedDispatch)
    (defaultEffort : ReasoningEffort) :
    ((∀ sortBy, StableSort sortBy → RouteObeys sortBy fp policy catalog) ↔
      UnwantedPreceded fp policy catalog) ∧
    (DispatchObeys requested policy catalog defaultEffort ↔ StandsAllowed requested policy catalog) :=
  ⟨routeObeys_iff, dispatchObeys_iff⟩

def modelNamed (model provider : String) (cost : Nat) : ModelCapability Nat :=
  ⟨model, provider, 200000, 32000, true, true, true, true, ["image"], true, some cost⟩

def twoModels : List (ModelCapability Nat) :=
  [modelNamed "gpt-5" "openai" 2, modelNamed "claude-opus" "anthropic" 1]

def taskBlocking (blocked : List String) : TaskFingerprint :=
  ⟨true, true, false, false, ["image"], false, 1000, 1000, blocked, [], none⟩

theorem twoModels_split {l₁ l₂ : List (ModelCapability Nat)} {c : ModelCapability Nat}
    (h : twoModels = l₁ ++ c :: l₂) :
    (l₁ = [] ∧ c = modelNamed "gpt-5" "openai" 2 ∧ l₂ = [modelNamed "claude-opus" "anthropic" 1]) ∨
    l₁ = [modelNamed "gpt-5" "openai" 2] ∧ c = modelNamed "claude-opus" "anthropic" 1 ∧ l₂ = [] := by
  rcases l₁ with _ | ⟨a, l₁⟩
  · obtain ⟨rfl, rfl⟩ := List.cons.inj h
    exact .inl ⟨rfl, rfl, rfl⟩
  · obtain ⟨rfl, h'⟩ := List.cons.inj h
    rcases l₁ with _ | ⟨b, l₁⟩
    · obtain ⟨rfl, rfl⟩ := List.cons.inj h'
      exact .inr ⟨rfl, rfl, rfl⟩
    · cases l₁ <;> cases (List.cons.inj h').2

theorem twoModels_total (fp : TaskFingerprint) (policy : EnterprisePolicy) :
    TotalOn costOrder (twoModels.filter (passes fp policy)) := by
  refine totalOn_costOrder (fun c hc => ?_)
  have hall : ∀ c ∈ twoModels, c.costPer1kInput.isSome := by decide
  exact Option.isSome_iff_ne_none.mp (hall c (mem_of_mem_filter hc))

/-- A route to the cheaper model, and a dispatch with a lower tier. -/
theorem policy_obeyed_cheaper :
    (∀ sortBy, StableSort sortBy →
      RouteObeys sortBy (taskBlocking ["gpt-5"]) ⟨[], [], none, none⟩ twoModels) ∧
    DispatchObeys ⟨"gpt-5", none, some .priority⟩ ⟨[], [], none, some [.standard, .flex]⟩ twoModels
      .medium := by
  constructor
  · refine (policy_obeyed_iff _ ⟨[], [], none, none⟩ twoModels ⟨"gpt-5", none, none⟩ .medium).1.mpr ?_
    intro l₁ c l₂ hsplit hallows hmeets hunwanted
    refine ⟨twoModels_total _ _, ?_⟩
    rcases twoModels_split hsplit with ⟨rfl, rfl, rfl⟩ | ⟨rfl, rfl, rfl⟩
    · exact .inr ⟨_, mem_cons_self, passes_iff.mp (by decide), by decide⟩
    · exact absurd ⟨by decide, by decide, fun r hr => (by cases hr)⟩ hunwanted
  · refine (policy_obeyed_iff (taskBlocking []) ⟨[], [], none, some [.standard, .flex]⟩ twoModels
      ⟨"gpt-5", none, some .priority⟩ .medium).2.mpr ⟨fun l₁ c l₂ _ _ hrefused => ?_, ?_⟩
    · exact absurd ⟨not_mem_nil, not_mem_nil, fun r hr => (by cases hr)⟩ hrefused
    · intro _ allowed hall _
      cases hall
      exact .inr (by decide)

/-- A route to a model that the task blocks, a dispatch to a provider that the policy blocks, and one at a
tier that is not allowed. -/
theorem policy_disobeyed :
    ¬ (∀ sortBy, StableSort sortBy →
      RouteObeys sortBy (taskBlocking ["claude-opus"]) ⟨[], [], none, none⟩ twoModels) ∧
    ¬ DispatchObeys ⟨"gpt-5", none, none⟩ ⟨[], ["openai"], none, none⟩ twoModels .medium ∧
    ¬ DispatchObeys ⟨"gpt-5", none, some .flex⟩ ⟨[], [], none, some [.standard, .priority]⟩ twoModels
      .medium := by
  refine ⟨fun h => ?_, fun h => ?_, fun h => ?_⟩
  · have hpasses := passes_iff.mp (show passes (taskBlocking ["claude-opus"]) ⟨[], [], none, none⟩
      (modelNamed "claude-opus" "anthropic" 1) = true by decide)
    obtain ⟨-, hpreceded⟩ := routeObeys_iff.mp h [modelNamed "gpt-5" "openai" 2]
      (modelNamed "claude-opus" "anthropic" 1) [] rfl hpasses.1 hpasses.2
      (fun hwants => hwants.model mem_cons_self)
    rcases hpreceded with ⟨c, hc, -, hle⟩ | ⟨c, hc, -⟩
    · obtain rfl := mem_singleton.mp hc
      exact absurd hle (by decide)
    · cases hc
  · have hprovider := (h.model _ rfl).2.1
    exact hprovider mem_cons_self
  · have htier := h.tier _ rfl _ rfl (by decide)
    exact absurd htier (by decide)

end Providers.Routing

end Modbit
