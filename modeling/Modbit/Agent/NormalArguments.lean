import Modbit.Agent.ToolSchema

/-!
# The normal form of arguments

`normalize` reads the keys of an object, each under its canonical name, and then fills in defaults.
`worth` is what a parameter comes out with: what the last key gives it that repairs to it, or its
default.  `normalize_ok_iff`: that is what comes out, exactly if every key is known and coerced and
every required parameter is worth something.

A normal form should satisfy the schema the model is shown, reflect every argument, and be its own
normal form (`Conforms`).  `conforms_iff` says of which arguments that holds: no two keys repair to
one parameter, no number with a fraction is given for an integer, the defaults that are filled in
are of their types, and what comes out is worth the same once more (`Settled`).
-/

namespace Modbit

open Lib List

namespace Agent.ToolSchema

variable (s : ToolSchema)

/-! ### What a parameter is worth -/

def canonical (key : String) : String := (s.aliases.find? key).getD key

def gives (e : String × Json) : Option Json :=
  (s.parameters.find? (s.canonical e.1)).bind (fun spec =>
    (coerce (s.canonical e.1) spec e.2).toOption)

def given : List (String × Json) → String → Option Json
  | [], _ => none
  | e :: entries, name =>
    (given entries name).or (if s.canonical e.1 = name then s.gives e else none)

def defaultOf (name : String) : Option Json := (s.parameters.find? name).bind (·.default)

def worth (entries : List (String × Json)) (name : String) : Option Json :=
  (s.given entries name).or (s.defaultOf name)

def argumentsIn : Json → Option (List (String × Json))
  | .null => some []
  | .obj fields => some (OrdMap.ofList fields).entries
  | _ => none

/-- Every key is known and coerced, and every required parameter is worth something. -/
structure Repairable (entries : List (String × Json)) : Prop where
  gives : ∀ e ∈ entries, (s.gives e).isSome = true
  required : ∀ name spec, s.parameters.find? name = some spec → spec.required = true →
    (s.worth entries name).isSome = true

def outcome (entries : List (String × Json)) : OrdMap String Json :=
  s.parameters.filterMap (fun name _ => s.worth entries name)

variable {s} {spec : ParamSpec}

theorem gives_of_repair {key : String} {value : Json} {coerced : Json}
    (hspec : s.parameters.find? (s.canonical key) = some spec)
    (hcoerce : coerce (s.canonical key) spec value = .ok coerced) : s.gives
    (key, value) = some coerced := by
  rw [gives, hspec, Option.bind_some, hcoerce]
  rfl

theorem gives_eq_some {key : String} {value coerced : Json} (h : s.gives (key, value) = some coerced) :
    ∃ spec, s.parameters.find? (s.canonical key) = some spec ∧
      coerce (s.canonical key) spec value = .ok coerced := by
  obtain ⟨spec, hspec, h⟩ := Option.bind_eq_some_iff.mp h
  refine ⟨spec, hspec, ?_⟩
  cases hc : coerce (s.canonical key) spec value with
  | error e =>
    rw [hc] at h
    cases h
  | ok x =>
    rw [hc] at h
    cases h
    rfl

/-- **What is repaired**, key by key. -/
theorem repair_ok_iff (entries : List (String × Json)) : ∀ out out' : OrdMap String Json,
    s.repair entries out = .ok out' ↔ (∀ e ∈ entries, (s.gives e).isSome = true) ∧
      ∀ name, out'.find? name = (s.given entries name).or (out.find? name) := by
  induction entries with
  | nil =>
    intro out out'
    constructor
    · rintro ⟨⟩
      exact ⟨fun e he => (by cases he), fun name => rfl⟩
    · rintro ⟨-, hfind⟩
      exact congrArg Except.ok (OrdMap.ext fun name => (hfind name).symm)
  | cons e entries ih =>
    obtain ⟨key, value⟩ := e
    intro out out'
    cases hg : s.gives (key, value) with
    | none =>
      refine iff_of_false ?_ fun h => ?_
      · intro h
        rw [repair] at h
        cases hspec : s.parameters.find? (s.canonical key) with
        | none =>
          rw [show s.parameters.find? ((s.aliases.find? key).getD key) = none from hspec] at h
          cases h
        | some spec =>
          rw [show s.parameters.find? ((s.aliases.find? key).getD key) = some spec from hspec] at h
          dsimp only at h
          cases hcoerce : coerce (s.canonical key) spec value with
          | error err =>
            rw [show coerce ((s.aliases.find? key).getD key) spec value = .error err from hcoerce] at h
            cases h
          | ok x =>
            rw [gives_of_repair hspec hcoerce] at hg
            cases hg
      · have hsome := h.1 _ mem_cons_self
        rw [hg] at hsome
        cases hsome
    | some coerced =>
      obtain ⟨spec, hspec, hcoerce⟩ := gives_eq_some hg
      have hstep : s.repair ((key, value) :: entries) out
          = s.repair entries (out.insert (s.canonical key) coerced) := by
        rw [repair, show s.parameters.find? ((s.aliases.find? key).getD key) = some spec from hspec]
        dsimp only
        rw [show coerce ((s.aliases.find? key).getD key) spec value = .ok coerced from hcoerce]
        rfl
      have hgiven : ∀ name, (s.given ((key, value) :: entries) name).or (out.find? name)
          = (s.given entries name).or ((out.insert (s.canonical key) coerced).find? name) := by
        intro name
        rw [given, Option.or_assoc, OrdMap.find?_insert, hg]
        by_cases hname : name = s.canonical key
        · rw [if_pos hname, if_pos hname.symm]
          rfl
        · rw [if_neg hname, if_neg (Ne.symm hname)]
          rfl
      rw [hstep, ih]
      simp only [hgiven, forall_mem_cons, hg, Option.isSome_some, true_and]

/-- **What is filled in**, one parameter after the other. -/
theorem fill_ok_iff (specs : List (String × ParamSpec))
    (hdistinct : specs.Pairwise (fun a b => a.1 < b.1)) :
    ∀ out out' : OrdMap String Json, fill specs out = .ok out' ↔
      (∀ p ∈ specs, p.2.required = true → ((out.find? p.1).or p.2.default).isSome = true) ∧
        ∀ name, out'.find? name = (out.find? name).or ((specs.lookup name).bind (·.default)) := by
  induction specs with
  | nil =>
    intro out out'
    constructor
    · rintro ⟨⟩
      exact ⟨fun p hp => (by cases hp), fun name => (Option.or_none).symm⟩
    · rintro ⟨-, hfind⟩
      exact congrArg Except.ok (OrdMap.ext fun name => ((hfind name).trans Option.or_none).symm)
  | cons p specs ih =>
    obtain ⟨name, spec⟩ := p
    obtain ⟨hfirst, hrest⟩ := pairwise_cons.mp hdistinct
    have hother : ∀ p ∈ specs, p.1 ≠ name := fun p hp => (ne_of_lt (hfirst p hp)).symm
    intro out out'
    -- the rest is filled in from `mid`, which has this parameter
    have hgo : ∀ mid : OrdMap String Json,
        (∀ name', mid.find? name' = if name' = name then (out.find? name).or spec.default
          else out.find? name') →
        (spec.required = true → ((out.find? name).or spec.default).isSome = true) →
        (fill specs mid = .ok out' ↔
          (∀ p ∈ (name, spec) :: specs, p.2.required = true →
            ((out.find? p.1).or p.2.default).isSome = true) ∧
          ∀ name', out'.find? name' = (out.find? name').or
            ((((name, spec) :: specs).lookup name').bind (·.default))) := by
      intro mid hmid hrequired
      rw [ih hrest, forall_mem_cons, and_iff_right hrequired]
      refine and_congr (forall₂_congr fun p hp => ?_) (forall_congr' fun name' => ?_)
      · rw [hmid, if_neg (hother p hp)]
      · rw [hmid, OrdMap.lookup_cons]
        by_cases hname : name' = name
        · rw [if_pos hname, if_pos hname, hname, OrdMap.lookup_eq_none hother, Option.bind_none,
            Option.or_none, Option.bind_some]
        · rw [if_neg hname, if_neg hname]
    rw [fill]
    cases hout : out.find? name with
    | some x =>
      rw [Option.isSome_some, if_pos rfl]
      refine hgo out (fun name' => ?_) (fun _ => by rw [hout]; rfl)
      split_ifs with hname
      · rw [hname, hout]
        rfl
      · rfl
    | none =>
      rw [Option.isSome_none, if_neg Bool.false_ne_true]
      cases hdefault : spec.default with
      | some d =>
        refine hgo (out.insert name d) (fun name' => ?_) (fun _ => by rw [hout, hdefault]; rfl)
        rw [OrdMap.find?_insert, hout, hdefault]
        rfl
      | none =>
        by_cases hrequired : spec.required = true
        · rw [if_pos hrequired]
          refine iff_of_false (fun h => (by cases h)) fun h => ?_
          have hsome := h.1 _ mem_cons_self hrequired
          rw [hout, hdefault] at hsome
          cases hsome
        · rw [if_neg hrequired]
          refine hgo out (fun name' => ?_) (fun h => absurd h hrequired)
          split_ifs with hname
          · rw [hname, hout, hdefault]
            rfl
          · rfl

/-! ### The normal form -/

variable {entries : List (String × Json)} {name : String} {x : Json}

theorem exists_of_given (h : s.given entries name = some x) :
    ∃ e ∈ entries, s.canonical e.1 = name ∧ s.gives e = some x := by
  induction entries with
  | nil => cases h
  | cons e entries ih =>
    rw [given] at h
    rcases Option.or_eq_some_iff.mp h with h | ⟨-, h⟩
    · obtain ⟨e', he', hx⟩ := ih h
      exact ⟨e', mem_cons_of_mem _ he', hx⟩
    · split_ifs at h with hname
      exact ⟨e, mem_cons_self, hname, h⟩

theorem isSome_given {e : String × Json} (he : e ∈ entries)
    (hgives : (s.gives e).isSome = true) : (s.given entries (s.canonical e.1)).isSome = true := by
  induction entries with
  | nil => cases he
  | cons e' entries ih =>
    rw [given, Option.isSome_or, Bool.or_eq_true]
    rcases mem_cons.mp he with rfl | he
    · exact .inr (by rwa [if_pos rfl])
    · exact .inl (ih he)

theorem parameters_of_given
    (h : s.given entries name = some x) : ∃ spec, s.parameters.find? name = some spec := by
  obtain ⟨e, -, rfl, hgives⟩ := exists_of_given h
  obtain ⟨spec, hspec, -⟩ := gives_eq_some hgives
  exact ⟨spec, hspec⟩

theorem parameters_of_worth
    (h : s.worth entries name = some x) : ∃ spec, s.parameters.find? name = some spec := by
  rcases Option.or_eq_some_iff.mp h with h | ⟨-, h⟩
  · exact parameters_of_given h
  · obtain ⟨spec, hspec, -⟩ := Option.bind_eq_some_iff.mp h
    exact ⟨spec, hspec⟩

theorem find?_outcome (entries : List (String × Json)) (name : String) :
    (s.outcome entries).find? name = s.worth entries name := by
  rw [outcome, OrdMap.find?_filterMap]
  cases hw : s.worth entries name with
  | none => exact Option.bind_fun_none _
  | some x =>
    obtain ⟨spec, hspec⟩ := parameters_of_worth hw
    rw [hspec]
    rfl

variable {raw : Json}

/-- **What comes out is what the parameters are worth**, if the arguments can be repaired. -/
theorem normalize_ok_iff {v : OrdMap String Json} : s.normalize raw = .ok v ↔
    ∃ entries, argumentsIn raw = some entries ∧ s.Repairable entries ∧ v = s.outcome entries := by
  have hentries : ∀ entries,
      (s.repair entries .empty).bind (fill s.parameters.entries) = .ok v ↔
      s.Repairable entries ∧ v = s.outcome entries := by
    intro entries
    constructor
    · intro h
      cases hrepair : s.repair entries .empty with
      | error e =>
        rw [hrepair] at h
        cases h
      | ok out =>
        rw [hrepair] at h
        obtain ⟨hgives, hfind⟩ := (repair_ok_iff entries _ _).mp hrepair
        obtain ⟨hrequired, hv⟩ := (fill_ok_iff _ s.parameters.sorted _ _).mp h
        have hout : ∀ name, out.find? name = s.given entries name := fun name => by
          rw [hfind, OrdMap.find?_empty, Option.or_none]
        refine ⟨⟨hgives, fun name spec hspec hreq => ?_⟩, OrdMap.ext fun name => ?_⟩
        · have hsome := hrequired _ (OrdMap.mem_entries.mpr hspec) hreq
          rw [hout] at hsome
          rw [worth, defaultOf, hspec]
          exact hsome
        · rw [hv, hout, find?_outcome]
          rfl
    · rintro ⟨⟨hgives, hrequired⟩, rfl⟩
      have hout : ∀ name, (s.parameters.filterMap (fun name _ => s.given entries name)).find? name
          = s.given entries name := fun name => by
        rw [OrdMap.find?_filterMap]
        cases hg : s.given entries name with
        | none => exact Option.bind_fun_none _
        | some x =>
          obtain ⟨spec, hspec⟩ := parameters_of_given hg
          rw [hspec]
          rfl
      have hrepair := (repair_ok_iff entries .empty
        (s.parameters.filterMap (fun name _ => s.given entries name))).mpr ⟨hgives, fun name => by
          rw [hout, OrdMap.find?_empty, Option.or_none]⟩
      rw [hrepair]
      refine (fill_ok_iff _ s.parameters.sorted _ _).mpr ⟨fun p hp hreq => ?_, fun name => ?_⟩
      · have hspec := OrdMap.mem_entries.mp hp
        have hsome := hrequired p.1 p.2 hspec hreq
        rw [worth, defaultOf, hspec] at hsome
        rw [hout]
        exact hsome
      · rw [hout, find?_outcome]
        rfl
  unfold normalize
  cases raw with
  | null => exact (hentries []).trans ⟨fun h => ⟨_, rfl, h⟩, fun ⟨_, he, h⟩ => by cases he; exact h⟩
  | obj fields =>
    have hbind : s.normalize (.obj fields) = (s.repair (OrdMap.ofList fields).entries .empty).bind
        (fill s.parameters.entries) := by
      unfold normalize
      dsimp only
      cases s.repair (OrdMap.ofList fields).entries .empty <;> rfl
    refine ((iff_of_eq (congrArg (· = Except.ok v) hbind)).trans (hentries _)).trans ?_
    exact ⟨fun h => ⟨_, rfl, h⟩, fun ⟨_, he, h⟩ => by cases he; exact h⟩
  | num _ => exact iff_of_false (fun h => (by cases h)) fun ⟨_, he, _⟩ => (by cases he)
  | float _ => exact iff_of_false (fun h => (by cases h)) fun ⟨_, he, _⟩ => (by cases he)
  | str _ => exact iff_of_false (fun h => (by cases h)) fun ⟨_, he, _⟩ => (by cases he)
  | bool _ => exact iff_of_false (fun h => (by cases h)) fun ⟨_, he, _⟩ => (by cases he)
  | arr _ => exact iff_of_false (fun h => (by cases h)) fun ⟨_, he, _⟩ => (by cases he)

theorem ofList_entries (m : OrdMap String Json) : OrdMap.ofList m.entries = m :=
  OrdMap.ext fun name => by
    rw [OrdMap.ofList, OrdMap.find?_insertAll_entries, OrdMap.find?_empty, Option.or_none]

/-! ### Types -/

def shown (spec : ParamSpec) : Json :=
  .obj [("type", .str (typeName spec.paramType)), ("description", .str spec.description)]

theorem lookup_shown (entries : List (String × ParamSpec)) (name : String) :
    (entries.map (fun p => (p.1, shown p.2))).lookup name = (entries.lookup name).map shown := by
  induction entries with
  | nil => rfl
  | cons p entries ih =>
    rw [map_cons, OrdMap.lookup_cons, OrdMap.lookup_cons, ih]
    split_ifs
    · rfl
    · rfl

theorem asStrList_map (names : List String) : (Json.arr (names.map .str)).asStrList = some names := by
  show (names.map Json.str).mapM Json.asStr = some names
  induction names with
  | nil => rfl
  | cons name names ih =>
    rw [map_cons, mapM_cons, ih]
    rfl

variable {integral : String → Bool}

/-- **What the schema that is shown accepts.** -/
theorem accepts_iff {v : OrdMap String Json} : accepts integral s.jsonSchema v = true ↔
      (∀ name x, v.find? name = some x → ∃ spec, s.parameters.find? name = some spec ∧
        ofType integral (some (typeName spec.paramType)) x = true) ∧
      ∀ name spec, s.parameters.find? name = some spec → spec.required = true →
        (v.find? name).isSome = true := by
  have hproperties : s.jsonSchema.field "properties"
      = some (.obj (s.parameters.entries.map (fun p => (p.1, shown p.2)))) := rfl
  have hextra : (s.jsonSchema.field "additionalProperties").bind Json.asBool = some false := rfl
  have hrequired : (s.jsonSchema.field "required").bind Json.asStrList =
      some ((s.parameters.entries.filter (fun p => p.2.required)).map (·.1)) := by
    rw [← asStrList_map, map_map]
    rfl
  unfold accepts
  rw [hproperties, hextra, hrequired, Option.getD_some, Bool.and_eq_true, all_eq_true,
    all_eq_true, forall_mem_map]
  refine and_congr ⟨fun h name x hx => ?_, fun h e he => ?_⟩ ⟨fun h name spec hspec hreq => ?_,
    fun h p hp => ?_⟩
  · have hentry := h (name, x) (OrdMap.mem_entries.mpr hx)
    rw [lookup_shown] at hentry
    cases hspec : s.parameters.find? name with
    | none =>
      rw [show s.parameters.entries.lookup name = none from hspec] at hentry
      have hfalse : decide (some false ≠ some false) = true := hentry
      cases hfalse
    | some spec =>
      rw [show s.parameters.entries.lookup name = some spec from hspec] at hentry
      exact ⟨spec, rfl, hentry⟩
  · obtain ⟨spec, hspec, htype⟩ := h e.1 e.2 (OrdMap.mem_entries.mp he)
    rw [lookup_shown, show s.parameters.entries.lookup e.1 = some spec from hspec]
    exact htype
  · exact h _ (mem_filter.mpr ⟨OrdMap.mem_entries.mpr hspec, hreq⟩)
  · obtain ⟨hmem, hreq⟩ := mem_filter.mp hp
    exact h p.1 p.2 (OrdMap.mem_entries.mp hmem) hreq

theorem coerce_typed
    (hint : ∀ n : Nat, integral (toString (Int.negSucc n)) = true) (h : coerce name spec raw = .ok x)
    (hwhole : ∀ text, spec.paramType = .int → raw = .float text → integral text = true) :
    ofType integral (some (typeName spec.paramType)) x = true := by
  have hparsed : ∀ n, ofType integral (some "integer") (intJson n) = true := by
    intro n
    cases n with
    | ofNat n => rfl
    | negSucc n => exact Bool.and_eq_true_iff.mpr ⟨rfl, hint n⟩
  unfold coerce at h
  cases htype : spec.paramType with
  | str =>
    rw [htype] at h
    cases raw
    all_goals first | cases h; rfl | cases h
  | int =>
    rw [htype] at h
    cases raw with
    | num n =>
      cases h
      rfl
    | float text =>
      cases h
      exact Bool.and_eq_true_iff.mpr ⟨rfl, hwhole text htype rfl⟩
    | str text =>
      dsimp only at h
      split at h
      · cases h
        exact hparsed _
      · cases h
    | null | bool _ | arr _ | obj _ => cases h
  | bool =>
    rw [htype] at h
    cases raw with
    | bool b =>
      cases h
      rfl
    | str text =>
      dsimp only at h
      split_ifs at h
      · cases h
        rfl
      · cases h
        rfl
    | null | num _ | float _ | arr _ | obj _ => cases h

/-- A value that was coerced is left as it is. -/
theorem coerce_again (h : coerce name spec raw = .ok x) : coerce name spec x = .ok x := by
  unfold coerce at h ⊢
  cases htype : spec.paramType with
  | str =>
    rw [htype] at h
    cases raw
    all_goals first | cases h; rfl | cases h
  | int =>
    rw [htype] at h
    cases raw with
    | num _ | float _ =>
      cases h
      rfl
    | str text =>
      dsimp only at h
      split at h
      · next n _ =>
        cases h
        cases n
        · rfl
        · rfl
      · cases h
    | null | bool _ | arr _ | obj _ => cases h
  | bool =>
    rw [htype] at h
    cases raw with
    | bool b =>
      cases h
      rfl
    | str text =>
      dsimp only at h
      split_ifs at h
      · cases h
        rfl
      · cases h
        rfl
    | null | num _ | float _ | arr _ | obj _ => cases h

theorem coerce_of_ofType
    (h : ofType integral (some (typeName spec.paramType)) x = true) : coerce name spec x = .ok x := by
  unfold coerce
  cases htype : spec.paramType with
  | str | int | bool =>
    rw [htype] at h
    cases x
    all_goals first | rfl | cases h

/-! ### Which normal forms conform -/

section Conforming

variable (s) (integral : String → Bool) (entries : List (String × Json))

def Distinct : Prop :=
  ∀ e ∈ entries, ∀ e' ∈ entries, s.canonical e.1 = s.canonical e'.1 → e = e'

/-- A normal form satisfies the schema, reflects the arguments, and is its own normal form. -/
structure Conforms (v : OrdMap String Json) : Prop where
  accepted : accepts integral s.jsonSchema v = true
  distinct : s.Distinct entries
  reflected : ∀ e ∈ entries, ∃ x, s.gives e = some x ∧ v.find? (s.canonical e.1) = some x
  fixed : s.normalize (.obj v.entries) = .ok v

/-- What is said of a normal form, if there is one. -/
def NormalForm (raw : Json) : Prop :=
  ∀ entries v, argumentsIn raw = some entries → s.normalize raw = .ok v →
    s.Conforms integral entries v

/-- The names that come out are, read as keys, names that come out, and give the same values. -/
def Settled : Prop :=
  ∀ e ∈ (s.outcome entries).entries, (s.gives e).isSome = true ∧
    (s.worth entries (s.canonical e.1)).isSome = true ∧
    s.worth (s.outcome entries).entries e.1 = some e.2

structure Sound : Prop where
  distinct : s.Distinct entries
  whole : ∀ e ∈ entries, ∀ spec text, s.parameters.find? (s.canonical e.1) = some spec →
    spec.paramType = .int → e.2 = .float text → integral text = true
  defaults : ∀ name spec default, s.parameters.find? name = some spec → spec.default = some default →
    (∀ e ∈ entries, s.canonical e.1 ≠ name) →
    ofType integral (some (typeName spec.paramType)) default = true
  settled : s.Settled entries

end Conforming

variable {integral : String → Bool} {entries : List (String × Json)}

theorem given_eq_gives (hdistinct : s.Distinct entries) {e : String × Json} (he : e ∈ entries)
    (hgives : (s.gives e).isSome = true) : s.given entries (s.canonical e.1) = s.gives e := by
  obtain ⟨x, hx⟩ := Option.isSome_iff_exists.mp (isSome_given he hgives)
  obtain ⟨e', he', hname, hgives'⟩ := exists_of_given hx
  rw [hx, ← hgives', hdistinct e' he' e he hname]

theorem ungiven (h : s.Repairable entries) (hnone : s.given entries name = none) :
    ∀ e ∈ entries, s.canonical e.1 ≠ name := by
  intro e he hname
  have hsome := isSome_given he (h.gives e he)
  rw [hname, hnone] at hsome
  cases hsome

/-- **What comes out is its own normal form exactly if its names are settled.** -/
theorem normalize_outcome_iff (h : s.Repairable entries) :
    s.normalize (.obj (s.outcome entries).entries) = .ok (s.outcome entries) ↔ s.Settled entries := by
  have harguments : argumentsIn (.obj (s.outcome entries).entries)
      = some (s.outcome entries).entries := by
    rw [argumentsIn, ofList_entries]
  rw [normalize_ok_iff]
  constructor
  · rintro ⟨again, hagain, hrepairable, heq⟩ e he
    rw [harguments] at hagain
    cases hagain
    refine ⟨hrepairable.gives e he, ?_, ?_⟩
    · rw [← find?_outcome, heq, find?_outcome, worth, Option.isSome_or,
        isSome_given he (hrepairable.gives e he), Bool.true_or]
    · rw [← find?_outcome, ← heq]
      exact OrdMap.mem_entries.mp he
  · intro hsettled
    have hsame : ∀ name x, s.worth entries name = some x →
        s.worth (s.outcome entries).entries name = some x := fun name x hx =>
      (hsettled (name, x) (OrdMap.mem_entries.mpr (by rw [find?_outcome, hx]))).2.2
    refine ⟨_, harguments, ⟨fun e he => (hsettled e he).1, fun name spec hspec hreq => ?_⟩,
      OrdMap.ext fun name => ?_⟩
    · obtain ⟨x, hx⟩ := Option.isSome_iff_exists.mp (h.required name spec hspec hreq)
      rw [hsame name x hx]
      rfl
    · rw [find?_outcome, find?_outcome]
      cases hw : s.worth entries name with
      | some x => exact (hsame name x hw).symm
      | none =>
        -- no name repairs to one that does not come out
        symm
        rw [worth, Option.or_eq_none_iff]
        refine ⟨Option.eq_none_iff_forall_not_mem.mpr fun x hx => ?_, (Option.or_eq_none_iff.mp hw).2⟩
        obtain ⟨e, he, rfl, -⟩ := exists_of_given hx
        have hsome := (hsettled e he).2.1
        rw [hw] at hsome
        cases hsome

/-- **The names are settled** where none of the parameters is another name of a parameter. -/
theorem settled_of_unaliased (h : s.Repairable entries)
    (hunaliased : ∀ name spec, s.parameters.find? name = some spec → s.canonical name = name)
    (hdefaults : ∀ name spec default, s.parameters.find? name = some spec →
      spec.default = some default → (∀ e ∈ entries, s.canonical e.1 ≠ name) →
      ofType integral (some (typeName spec.paramType)) default = true) : s.Settled entries := by
  have hgives : ∀ e ∈ (s.outcome entries).entries, s.canonical e.1 = e.1 ∧ s.gives e = some e.2 := by
    rintro ⟨name, x⟩ he
    have hworth : s.worth entries name = some x := by
      rw [← find?_outcome]
      exact OrdMap.mem_entries.mp he
    obtain ⟨spec, hspec⟩ := parameters_of_worth hworth
    have hname := hunaliased name spec hspec
    refine ⟨hname, gives_of_repair (by rw [hname, hspec]) ?_⟩
    rw [hname]
    rcases Option.or_eq_some_iff.mp hworth with hgiven | ⟨hnone, hdefault⟩
    · obtain ⟨e, -, heq, hgives⟩ := exists_of_given hgiven
      obtain ⟨spec', hspec', hcoerce⟩ := gives_eq_some hgives
      rw [heq] at hspec' hcoerce
      cases hspec.symm.trans hspec'
      exact coerce_again hcoerce
    · rw [defaultOf, hspec, Option.bind_some] at hdefault
      exact coerce_of_ofType (hdefaults name spec x hspec hdefault (ungiven h hnone))
  have hdistinct : s.Distinct (s.outcome entries).entries := by
    intro e he e' he' hcanonical
    rw [(hgives e he).1, (hgives e' he').1] at hcanonical
    have hvalue := OrdMap.mem_entries.mp he
    rw [hcanonical, OrdMap.mem_entries.mp he'] at hvalue
    exact Prod.ext hcanonical (Option.some.inj hvalue).symm
  intro e he
  obtain ⟨hname, hgive⟩ := hgives e he
  refine ⟨by rw [hgive]; rfl, ?_, ?_⟩
  · rw [hname, ← find?_outcome, OrdMap.mem_entries.mp he]
    rfl
  · have hgiven := given_eq_gives hdistinct he (by rw [hgive]; rfl)
    rw [hname, hgive] at hgiven
    rw [worth, hgiven]
    rfl

/-- **Which arguments have a normal form that conforms.** -/
theorem conforms_iff (hint : ∀ n : Nat, integral (toString (Int.negSucc n)) = true) (s : ToolSchema)
    (raw : Json) : s.NormalForm integral raw ↔
    ∀ entries, argumentsIn raw = some entries → s.Repairable entries → s.Sound integral entries := by
  constructor
  · intro h entries hentries hrepairable
    obtain ⟨haccepted, hdistinct, hreflected, hfixed⟩ :=
      h entries _ hentries (normalize_ok_iff.mpr ⟨entries, hentries, hrepairable, rfl⟩)
    have htyped := (accepts_iff.mp haccepted).1
    refine ⟨hdistinct, fun e he spec text hspec hint' htext => ?_,
      fun name spec default hspec hdefault hnone => ?_, (normalize_outcome_iff hrepairable).mp hfixed⟩
    · obtain ⟨x, hgives, hx⟩ := hreflected e he
      obtain ⟨spec', hspec', htype⟩ := htyped _ x hx
      rw [hspec] at hspec'
      cases hspec'
      rw [gives, hspec, Option.bind_some, htext] at hgives
      unfold coerce at hgives
      rw [hint'] at hgives htype
      cases hgives
      have hboth : (decide (some "integer" = some "integer") && integral text) = true := htype
      exact (Bool.and_eq_true_iff.mp hboth).2
    · have hworth : s.worth entries name = some default := by
        rw [worth, Option.or_eq_some_iff]
        refine .inr ⟨Option.eq_none_iff_forall_not_mem.mpr fun x hx => ?_, ?_⟩
        · obtain ⟨e, he, hname, -⟩ := exists_of_given hx
          exact hnone e he hname
        · rw [defaultOf, hspec]
          exact hdefault
      obtain ⟨spec', hspec', htype⟩ := htyped name default (by rw [find?_outcome, hworth])
      rw [hspec] at hspec'
      cases hspec'
      exact htype
  · intro h entries v hentries hnormal
    obtain ⟨entries', hentries', hrepairable, rfl⟩ := normalize_ok_iff.mp hnormal
    rw [hentries] at hentries'
    cases hentries'
    obtain ⟨hdistinct, hwhole, hdefaults, hsettled⟩ := h entries hentries hrepairable
    refine ⟨accepts_iff.mpr ⟨fun name x hx => ?_, fun name spec hspec hreq => ?_⟩, hdistinct,
      fun e he => ?_, (normalize_outcome_iff hrepairable).mpr hsettled⟩
    · rw [find?_outcome] at hx
      rcases Option.or_eq_some_iff.mp hx with hx | ⟨hnone, hx⟩
      · obtain ⟨e, he, rfl, hgives⟩ := exists_of_given hx
        obtain ⟨spec, hspec, hcoerce⟩ := gives_eq_some hgives
        exact ⟨spec, hspec, coerce_typed hint hcoerce fun text => hwhole e he spec text hspec⟩
      · obtain ⟨spec, hspec, hdefault⟩ := Option.bind_eq_some_iff.mp hx
        exact ⟨spec, hspec, hdefaults name spec x hspec hdefault (ungiven hrepairable hnone)⟩
    · rw [find?_outcome]
      exact hrepairable.required name spec hspec hreq
    · have hgives := hrepairable.gives e he
      obtain ⟨x, hx⟩ := Option.isSome_iff_exists.mp hgives
      refine ⟨x, hx, ?_⟩
      rw [find?_outcome, worth, given_eq_gives hdistinct he hgives, hx]
      rfl

/-- `max_bytes` is a number, and `dir` another name of `path`. -/
def readSchema : ToolSchema where
  aliases := .ofList [("dir", "path")]
  parameters := .ofList [
    ("path", ⟨.str, true, none, "file path to read"⟩),
    ("max_bytes", ⟨.int, false, some (.num 65536), "read cap"⟩)]

def wholeText (text : String) : Bool := text.toList.all (fun c => c.isDigit || c == '-')

theorem wholeText_negSucc (n : Nat) : wholeText (toString (Int.negSucc n)) = true := by
  rw [wholeText, all_eq_true]
  show ∀ c ∈ ("-" ++ toString (n + 1)).toList, _
  intro c hc
  rw [String.toList_append, mem_append] at hc
  rcases hc with hc | hc
  · rw [mem_singleton.mp hc]
    rfl
  · have hdigit : c.isDigit = true := by
      rw [Nat.toString_eq_repr, Nat.repr, String.toList_ofList] at hc
      exact Nat.isDigit_of_mem_toDigits (by decide) (by decide) hc
    rw [hdigit]
    rfl

/-- A path under its other name, and a number as text. -/
theorem read_conforms :
    readSchema.NormalForm wholeText (.obj [("dir", .str "a"), ("max_bytes", .str "-1")]) := by
  refine (conforms_iff wholeText_negSucc readSchema
    (.obj [("dir", .str "a"), ("max_bytes", .str "-1")])).mpr ?_
  rintro entries ⟨⟩ -
  have hentries : ∀ {P : String × Json → Prop}, P ("dir", .str "a") → P ("max_bytes", .str "-1") →
      ∀ e ∈ (OrdMap.ofList [("dir", Json.str "a"), ("max_bytes", .str "-1")]).entries, P e := by
    intro P hdir hbytes e he
    rcases mem_cons.mp he with rfl | he
    · exact hdir
    · exact mem_singleton.mp he ▸ hbytes
  refine ⟨?_, ?_, fun name spec default hspec hdefault hnone => ?_, ?_⟩
  · refine hentries (hentries (fun _ => rfl) fun h => absurd h (by decide))
      (hentries (fun h => absurd h (by decide)) fun _ => rfl)
  · refine hentries (fun spec text _ _ h => (by cases h)) (fun spec text _ _ h => (by cases h))
  · have hmem := OrdMap.mem_entries.mpr hspec
    rcases mem_cons.mp hmem with heq | hmem
    · exact absurd (congrArg Prod.fst heq).symm (hnone ("max_bytes", .str "-1") (.tail _ (.head _)))
    · cases mem_singleton.mp hmem
      cases hdefault
  · intro e he
    have hcome : (readSchema.outcome (OrdMap.ofList [("dir", Json.str "a"),
        ("max_bytes", .str "-1")]).entries).entries = [("max_bytes", .float "-1"), ("path", .str "a")] := rfl
    rw [hcome] at he ⊢
    rcases mem_cons.mp he with rfl | he
    · exact ⟨rfl, rfl, rfl⟩
    · rw [mem_singleton.mp he]
      exact ⟨rfl, rfl, rfl⟩

/-- Two integers, the first of which is another name of the second. -/
def aliasedSchema : ToolSchema where
  aliases := .ofList [("b", "a")]
  parameters := .ofList [("a", ⟨.int, true, none, ""⟩), ("b", ⟨.int, false, some (.num 5), ""⟩)]

def textDefault : ToolSchema := ⟨.empty, .ofList [("n", ⟨.int, false, some (.str "x"), ""⟩)]⟩

/-- One of two names of a path is dropped; a fraction and a text come out for integers; and a default is
read once more as the value of another parameter. -/
theorem normal_forms_astray :
    ¬ readSchema.NormalForm wholeText (.obj [("dir", .str "a"), ("path", .str "b")]) ∧
    ¬ readSchema.NormalForm wholeText (.obj [("path", .str "a"), ("max_bytes", .float "1.5")]) ∧
    ¬ textDefault.NormalForm wholeText .null ∧
    ¬ aliasedSchema.NormalForm wholeText (.obj [("a", .num 2)]) := by
  refine ⟨fun h => ?_, fun h => ?_, fun h => ?_, fun h => ?_⟩
  · have hsame := (h _ _ rfl rfl).distinct _ (.head _) _ (.tail _ (.head _)) rfl
    exact absurd (congrArg Prod.fst hsame) (by decide)
  · have haccepted := (h _ _ rfl rfl).accepted
    exact absurd haccepted (by decide)
  · have haccepted := (h _ _ rfl rfl).accepted
    exact absurd haccepted (by decide)
  · have hfixed := (h _ _ rfl rfl).fixed
    cases hfixed

end Agent.ToolSchema

end Modbit
