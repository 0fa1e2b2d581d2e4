import Mathlib.Data.List.Induction

/-!
# Hash chains

Entries are chained by hashing each one together with the hash before it.  `links` are the
pairs a chain hashes.  `eq_of_tip_eq` says that the last hash stands for the whole chain:
where no two of the pairs hashed collide and no hash is the one the chain begins with, two
chains with the same last hash are the same, whatever their lengths.
-/

namespace Modbit.Lib.HashChain

open List

variable {κ β : Type*} (hash : κ → β → κ) (g : κ)

def tip (bs : List β) : κ := bs.foldl hash g

/-- What is hashed: each entry with the hash before it. -/
def links (g : κ) : List β → List (κ × β)
  | [] => []
  | b :: bs => (g, b) :: links (hash g b) bs

theorem tip_concat (bs : List β) (b : β) : tip hash g (bs ++ [b]) = hash (tip hash g bs) b := by
  rw [tip, foldl_append]
  rfl

theorem links_concat (bs : List β) (b : β) :
    links hash g (bs ++ [b]) = links hash g bs ++ [(tip hash g bs, b)] := by
  induction bs generalizing g with
  | nil => rfl
  | cons c bs ih =>
    rw [cons_append, links, ih, links, cons_append]
    rfl

variable {hash g}

theorem mem_links {bs : List β} {p : κ × β} (h : p ∈ links hash g bs) :
    p.1 = g ∨ ∃ q : κ × β, p.1 = hash q.1 q.2 := by
  induction bs generalizing g with
  | nil => cases h
  | cons b bs ih =>
    rcases mem_cons.mp h with rfl | h
    · exact .inl rfl
    · rcases ih h with hfirst | hlater
      · exact .inr ⟨(g, b), hfirst⟩
      · exact .inr hlater

/-- **The last hash stands for the chain.** -/
theorem eq_of_tip_eq {P : κ × β → Prop}
    (hinj : ∀ p q, P p → P q → hash p.1 p.2 = hash q.1 q.2 → p = q)
    (hg : ∀ p, P p → hash p.1 p.2 ≠ g) (bs : List β) :
    ∀ cs : List β, (∀ p ∈ links hash g bs, P p) → (∀ p ∈ links hash g cs, P p) →
      tip hash g bs = tip hash g cs → bs = cs := by
  induction bs using List.reverseRecOn with
  | nil =>
    intro cs _ hcs htip
    rcases eq_nil_or_concat cs with rfl | ⟨cs, c, rfl⟩
    · rfl
    · rw [concat_eq_append] at htip hcs
      rw [tip_concat] at htip
      refine absurd htip.symm (hg (tip hash g cs, c) (hcs _ ?_))
      rw [links_concat]
      exact mem_append_right _ mem_cons_self
  | append_singleton bs b ih =>
    intro cs hbs hcs htip
    rw [links_concat] at hbs
    have hb : P (tip hash g bs, b) := hbs _ (mem_append_right _ mem_cons_self)
    rcases eq_nil_or_concat cs with rfl | ⟨cs, c, rfl⟩
    · rw [tip_concat] at htip
      exact absurd htip (hg _ hb)
    · rw [concat_eq_append] at htip hcs ⊢
      rw [links_concat] at hcs
      have hc : P (tip hash g cs, c) := hcs _ (mem_append_right _ mem_cons_self)
      rw [tip_concat, tip_concat] at htip
      -- the last pairs are equal, and with them the hashes before them
      have hpair := hinj _ _ hb hc htip
      have hrest := ih cs (fun p hp => hbs p (mem_append_left _ hp))
        (fun p hp => hcs p (mem_append_left _ hp)) (congrArg Prod.fst hpair)
      have hlast : b = c := congrArg Prod.snd hpair
      rw [hrest, hlast]

end Modbit.Lib.HashChain
