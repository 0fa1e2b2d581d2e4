import Mathlib.Data.List.Basic

/-!
# Exclusive claims

Clients stand in a list, each with a key; some of them hold their key, and a second list
says which keys are held.  `Exclusive` is the invariant of such a table: no key has two
holders, and what is held is listed.  A client that finds its key unlisted may take it
(`Exclusive.acquire`), and gives it back by striking it off (`Exclusive.release`);
between the two it may change in any way that keeps its key and its hold
(`Exclusive.modify`).
-/

namespace Modbit.Lib

open List

variable {α κ : Type*} (key : α → κ) (holds : α → Prop)

structure Exclusive (clients : List α) (held : List κ) : Prop where
  listed : ∀ c ∈ clients, holds c → key c ∈ held
  unique : ∀ {i j : Nat} {a b : α}, clients[i]? = some a → clients[j]? = some b →
    holds a → holds b → key a = key b → i = j

variable {key holds} {clients : List α} {held : List κ} {f : α → α} {i : Nat} {c : α}

theorem getElem?_modify_cases {j : Nat} {a : α} (h : (clients.modify i f)[j]? = some a) :
    (i = j ∧ ∃ b, clients[j]? = some b ∧ a = f b) ∨ (i ≠ j ∧ clients[j]? = some a) := by
  rw [getElem?_modify] at h
  by_cases hij : i = j
  · refine Or.inl ⟨hij, ?_⟩
    obtain ⟨b, hb, heq⟩ := Option.map_eq_some_iff.mp h
    rw [if_pos hij] at heq
    exact ⟨b, hb, heq.symm⟩
  · refine Or.inr ⟨hij, ?_⟩
    obtain ⟨b, hb, heq⟩ := Option.map_eq_some_iff.mp h
    rw [if_neg hij] at heq
    rw [hb, heq]

theorem mem_modify_cases {a : α} (hc : clients[i]? = some c) (h : a ∈ clients.modify i f) :
    a = f c ∨ ∃ j, j ≠ i ∧ clients[j]? = some a := by
  obtain ⟨j, hj⟩ := mem_iff_getElem?.mp h
  rcases getElem?_modify_cases hj with ⟨rfl, b, hb, rfl⟩ | ⟨hij, hj⟩
  · rw [Option.some.inj (hb.symm.trans hc)]
    exact Or.inl rfl
  · exact Or.inr ⟨j, Ne.symm hij, hj⟩

namespace Exclusive

theorem nil : Exclusive key holds [] held := by
  refine ⟨?_, ?_⟩
  · intro c hc
    cases hc
  · intro i j a b ha
    cases ha

theorem concat (h : Exclusive key holds clients held) (hn : ¬ holds c) :
    Exclusive key holds (clients ++ [c]) held := by
  have hold : ∀ {i : Nat} {a : α}, (clients ++ [c])[i]? = some a → holds a →
      clients[i]? = some a := by
    intro i a ha hh
    rw [getElem?_append] at ha
    split at ha
    · exact ha
    · have hmem := mem_of_getElem? ha
      rw [mem_singleton.mp hmem] at hh
      exact absurd hh hn
  refine ⟨fun a ha hh => ?_, fun ha hb hha hhb hk => ?_⟩
  · rcases mem_append.mp ha with ha | ha
    · exact h.listed a ha hh
    · rw [mem_singleton.mp ha] at hh
      exact absurd hh hn
  · exact h.unique (hold ha hha) (hold hb hhb) hha hhb hk

theorem ne_of_holds (h : Exclusive key holds clients held) (hc : clients[i]? = some c)
    (hh : holds c) {j : Nat} {a : α} (hj : j ≠ i) (ha : clients[j]? = some a) (hha : holds a) :
    key a ≠ key c :=
  fun hk => hj (h.unique ha hc hha hh hk)

theorem modify (h : Exclusive key holds clients held) (hc : clients[i]? = some c)
    (hk : key (f c) = key c) (hh : holds (f c) → holds c) :
    Exclusive key holds (clients.modify i f) held := by
  have hold : ∀ {j : Nat} {a : α}, (clients.modify i f)[j]? = some a → holds a →
      ∃ b, clients[j]? = some b ∧ holds b ∧ key b = key a := by
    intro j a ha hha
    rcases getElem?_modify_cases ha with ⟨rfl, b, hb, rfl⟩ | ⟨_, hb⟩
    · obtain rfl := Option.some.inj (hb.symm.trans hc)
      exact ⟨b, hb, hh hha, hk.symm⟩
    · exact ⟨a, hb, hha, rfl⟩
  refine ⟨fun a ha hha => ?_, fun ha hb hha hhb hkey => ?_⟩
  · obtain ⟨j, hj⟩ := mem_iff_getElem?.mp ha
    obtain ⟨b, hb, hhb, hkb⟩ := hold hj hha
    rw [← hkb]
    exact h.listed b (mem_of_getElem? hb) hhb
  · obtain ⟨a', ha', hha', hka⟩ := hold ha hha
    obtain ⟨b', hb', hhb', hkb⟩ := hold hb hhb
    exact h.unique ha' hb' hha' hhb' ((hka.trans hkey).trans hkb.symm)

theorem acquire (h : Exclusive key holds clients held) (hc : clients[i]? = some c)
    (hk : key (f c) = key c) (hfree : key c ∉ held) :
    Exclusive key holds (clients.modify i f) (key c :: held) := by
  have hother : ∀ {j : Nat} {a : α}, clients[j]? = some a → holds a → key a ≠ key c := by
    intro j a ha hha hkey
    exact hfree (hkey ▸ h.listed a (mem_of_getElem? ha) hha)
  refine ⟨fun a ha hha => ?_, fun {j j' a b} ha hb hha hhb hkey => ?_⟩
  · rcases mem_modify_cases hc ha with rfl | ⟨j, _, hj⟩
    · rw [hk]
      exact mem_cons_self
    · exact mem_cons_of_mem _ (h.listed a (mem_of_getElem? hj) hha)
  · rcases getElem?_modify_cases ha with ⟨rfl, a', ha', rfl⟩ | ⟨_, ha'⟩ <;>
      rcases getElem?_modify_cases hb with ⟨hij, b', hb', rfl⟩ | ⟨_, hb'⟩
    · exact hij
    · obtain rfl := Option.some.inj (ha'.symm.trans hc)
      exact absurd (hkey.symm.trans hk) (hother hb' hhb)
    · subst hij
      obtain rfl := Option.some.inj (hb'.symm.trans hc)
      exact absurd (hkey.trans hk) (hother ha' hha)
    · exact h.unique ha' hb' hha hhb hkey

theorem release [DecidableEq κ] (h : Exclusive key holds clients held) (hc : clients[i]? = some c)
    (hh : holds c) (hn : ¬ holds (f c)) :
    Exclusive key holds (clients.modify i f) (held.filter (fun k => k ≠ key c)) := by
  have hold : ∀ {j : Nat} {a : α}, (clients.modify i f)[j]? = some a → holds a →
      j ≠ i ∧ clients[j]? = some a := by
    intro j a ha hha
    rcases getElem?_modify_cases ha with ⟨rfl, b, hb, rfl⟩ | ⟨hij, ha⟩
    · obtain rfl := Option.some.inj (hb.symm.trans hc)
      exact absurd hha hn
    · exact ⟨Ne.symm hij, ha⟩
  refine ⟨fun a ha hha => ?_, fun ha hb hha hhb hkey => ?_⟩
  · obtain ⟨j, hj⟩ := mem_iff_getElem?.mp ha
    obtain ⟨hji, hj⟩ := hold hj hha
    have hkey := h.ne_of_holds hc hh hji hj hha
    exact mem_filter.mpr ⟨h.listed a (mem_of_getElem? hj) hha, by simpa using hkey⟩
  · exact h.unique (hold ha hha).2 (hold hb hhb).2 hha hhb hkey

end Exclusive

end Modbit.Lib
