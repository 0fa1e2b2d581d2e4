import Mathlib.Data.List.Basic

/-!
# Fallible computations

Early returns of the modelled code are binds in `Except`.  `okOr` turns a missing
value into an error and `refuseIf` is a guard; `bind_eq_ok` takes a computation
that succeeded apart, step by step, `mapM_eq_map` and `mapM_ok_iff` a traversal.
-/

namespace Modbit.Lib

open List

variable {α β ε ε' : Type}

def okOr (x : Option α) (e : ε) : Except ε α := x.elim (.error e) .ok

/-- `if c { return Err(e) }`. -/
def refuseIf (c : Prop) [Decidable c] (e : ε) : Except ε Unit := if c then .error e else .ok ()

theorem bind_eq_ok {x : Except ε α} {f : α → Except ε β} {b : β} :
    (x >>= f) = .ok b ↔ ∃ a, x = .ok a ∧ f a = .ok b := by
  cases x <;> simp [bind, Except.bind]

@[simp] theorem ok_bind (a : α) (f : α → Except ε β) : (Except.ok a >>= f) = f a := rfl

@[simp] theorem error_bind (e : ε) (f : α → Except ε β) :
    (Except.error e >>= f) = Except.error e := rfl

@[simp] theorem pure_eq_ok (a : α) : (pure a : Except ε α) = .ok a := rfl

theorem ok_of_mapError {x : Except ε α} {a : α} (f : ε → ε') (h : x.mapError f = .ok a) :
    x = .ok a := by
  cases x with
  | error e => cases h
  | ok b => rw [Except.ok.inj h]

theorem map_eq_ok {x : Except ε α} {f : α → β} {b : β} :
    x.map f = .ok b ↔ ∃ a, x = .ok a ∧ f a = b := by
  cases x <;> simp [Except.map]

@[simp] theorem okOr_some (a : α) (e : ε) : okOr (some a) e = .ok a := rfl

@[simp] theorem okOr_none (e : ε) : okOr (none : Option α) e = .error e := rfl

theorem okOr_eq_ok {x : Option α} {e : ε} {a : α} : okOr x e = .ok a ↔ x = some a := by
  cases x <;> simp

theorem refuseIf_eq_ok {c : Prop} [Decidable c] {e : ε} {u : Unit} :
    refuseIf c e = .ok u ↔ ¬ c := by
  rw [refuseIf]
  split <;> simp_all

/-- **A traversal succeeds with given results exactly when each element does.** -/
theorem mapM_eq_map {f : α → Except ε β} {g : α → β} : ∀ {l : List α},
    l.mapM f = .ok (l.map g) ↔ ∀ a ∈ l, f a = .ok (g a) := by
  intro l
  induction l with
  | nil => simp
  | cons a l ih =>
    rw [mapM_cons, bind_eq_ok, forall_mem_cons, ← ih, map_cons]
    constructor
    · rintro ⟨b, hb, h⟩
      obtain ⟨bs, hbs, h⟩ := bind_eq_ok.mp h
      obtain ⟨rfl, rfl⟩ := List.cons.inj (Except.ok.inj h)
      exact ⟨hb, hbs⟩
    · rintro ⟨hb, hbs⟩
      exact ⟨g a, hb, bind_eq_ok.mpr ⟨l.map g, hbs, rfl⟩⟩

theorem mapM_ok_iff {f : α → Except ε β} : ∀ {l : List α},
    (∃ bs, l.mapM f = .ok bs) ↔ ∀ a ∈ l, ∃ b, f a = .ok b := by
  intro l
  induction l with
  | nil => simp
  | cons a l ih =>
    rw [mapM_cons, forall_mem_cons, ← ih]
    constructor
    · rintro ⟨_, h⟩
      obtain ⟨b, hb, h⟩ := bind_eq_ok.mp h
      obtain ⟨bs, hbs, _⟩ := bind_eq_ok.mp h
      exact ⟨⟨b, hb⟩, bs, hbs⟩
    · rintro ⟨⟨b, hb⟩, bs, hbs⟩
      exact ⟨b :: bs, by rw [hb, ok_bind, hbs]; rfl⟩

theorem mapM_attribute {γ : Type} {f : α → Except ε β} {p : α → γ} {q : β → γ}
    (h : ∀ {a b}, f a = .ok b → q b = p a) : ∀ {l : List α} {out : List β},
    l.mapM f = .ok out → out.map q = l.map p := by
  intro l
  induction l with
  | nil =>
    intro out hout
    rw [← Except.ok.inj hout]
    rfl
  | cons a l ih =>
    intro out hout
    rw [mapM_cons] at hout
    obtain ⟨b, hb, hout⟩ := bind_eq_ok.mp hout
    obtain ⟨bs, hbs, hout⟩ := bind_eq_ok.mp hout
    rw [← Except.ok.inj hout, map_cons, map_cons, h hb, ih hbs]

theorem mapM_append_ok {f : α → Except ε β} {l m : List α} {xs ys : List β}
    (hl : l.mapM f = .ok xs) (hm : m.mapM f = .ok ys) : (l ++ m).mapM f = .ok (xs ++ ys) := by
  rw [mapM_append, hl, hm]
  rfl

end Modbit.Lib
