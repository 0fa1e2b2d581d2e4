import Modbit.Lib.Terminated

/-!
# Pieces behind markers

Pieces of lines are laid end to end, each behind its marker, and are to be read back from the lines.
They can be where a piece does not have the next marker after its first line, nor its own marker before
its last (`Plain`, `assemble_inj`); a marker that stands there can be taken for the one that is meant
(`exists_other`).

`ended` is the text of some lines, each with its newline, and says the same as they do (`ended_inj`).
`laid` is texts behind the marks of their numbers; they are read back where each does without something
of the next mark (`laid_inj`).
-/

namespace Modbit.Lib.Marked

open List

variable {α : Type*}

/-- The lines of the pieces, each piece behind its marker. -/
def assemble (ps : List (α × List α)) : List α := ps.flatMap (fun p => p.1 :: p.2)

@[simp] theorem assemble_cons (p : α × List α) (ps : List (α × List α)) :
    assemble (p :: ps) = p.1 :: (p.2 ++ assemble ps) := rfl

/-- No marker of a piece stands in the piece before it, its first line apart, or in the piece itself, its
last line apart. -/
def Plain : List (α × List α) → Prop
  | p :: q :: ps => q.1 ∉ p.2.tail ∧ q.1 ∉ q.2.dropLast ∧ Plain (q :: ps)
  | _ => True

def Filled (ps : List (α × List α)) : Prop := ∀ p ∈ ps, p.2 ≠ []

variable {ps qs : List (α × List α)} {p q : α × List α} {u l m : List α} {a : α}

theorem Plain.tail (h : Plain (p :: ps)) : Plain ps := by
  cases ps with
  | nil => trivial
  | cons q ps => exact h.2.2

theorem Filled.tail (h : Filled (p :: ps)) : Filled ps :=
  fun q hq => h q (mem_cons_of_mem p hq)

theorem mem_dropLast_append (hm : m ≠ []) (l : List α) : a ∈ (l ++ a :: m).dropLast := by
  rw [dropLast_append_of_ne_nil (cons_ne_nil a m), dropLast_cons_of_ne_nil hm]
  exact mem_append_right l mem_cons_self

theorem mem_tail_append (hl : l ≠ []) (m : List α) : a ∈ (l ++ a :: m).tail := by
  rw [tail_append_of_ne_nil hl]
  exact mem_append_right _ mem_cons_self

theorem append_cases {l l' r r' : List α} (h : l ++ r = l' ++ r') :
    (l = l' ∧ r = r') ∨ (∃ v, v ≠ [] ∧ l' = l ++ v ∧ r = v ++ r') ∨
      ∃ v, v ≠ [] ∧ l = l' ++ v ∧ r' = v ++ r := by
  rcases append_eq_append_iff.mp h with ⟨v, hl, hr⟩ | ⟨v, hl, hr⟩
  · by_cases hv : v = []
    · rw [hv, append_nil] at hl
      rw [hv, nil_append] at hr
      exact .inl ⟨hl.symm, hr⟩
    · exact .inr (.inl ⟨v, hv, hl, hr⟩)
  · by_cases hv : v = []
    · rw [hv, append_nil] at hl
      rw [hv, nil_append] at hr
      exact .inl ⟨hl, hr.symm⟩
    · exact .inr (.inr ⟨v, hv, hl, hr⟩)

/-- The pieces behind the first one cannot begin later: the last of them that does would begin inside a
piece, at its own marker. -/
theorem not_later (hplain : ∀ p ∈ ps, p.1 ∉ p.2.dropLast) (hfilled : Filled qs)
    (hmarkers : ps.map Prod.fst = qs.map Prod.fst) (hu : u ≠ []) :
    assemble ps ≠ u ++ assemble qs := by
  induction ps generalizing qs u with
  | nil =>
    intro h
    exact hu (append_eq_nil_iff.mp h.symm).1
  | cons p ps ih =>
    intro h
    cases qs with
    | nil => cases hmarkers
    | cons q qs =>
      obtain ⟨hmarker, hmarkers⟩ := List.cons.inj hmarkers
      obtain ⟨c, u, rfl⟩ := exists_cons_of_ne_nil hu
      rw [assemble_cons, assemble_cons, cons_append] at h
      have hlines : p.2 ++ assemble ps = (u ++ q.1 :: q.2) ++ assemble qs := by
        rw [(List.cons.inj h).2, append_assoc, cons_append]
      have hown : ∀ w, p.2 ≠ u ++ q.1 :: (q.2 ++ w) := by
        intro w hp
        refine hplain p mem_cons_self ?_
        rw [hp, hmarker]
        refine mem_dropLast_append (fun hnil => ?_) u
        exact hfilled q mem_cons_self (append_eq_nil_iff.mp hnil).1
      rcases append_cases hlines with ⟨hp, -⟩ | ⟨v, hv, -, hrest⟩ | ⟨v, -, hp, -⟩
      · exact hown [] (by rw [append_nil, hp])
      · exact ih (fun p hp => hplain p (mem_cons_of_mem _ hp)) hfilled.tail hmarkers hv hrest
      · exact hown v (by rw [hp, append_assoc, cons_append])

theorem Plain.own (h : Plain (p :: ps)) : ∀ q ∈ ps, q.1 ∉ q.2.dropLast := by
  induction ps generalizing p with
  | nil => exact fun q hq => absurd hq not_mem_nil
  | cons q ps ih =>
    intro r hr
    rcases mem_cons.mp hr with rfl | hr
    · exact h.2.1
    · exact ih h.2.2 r hr

/-- **Plain pieces are read back.** -/
theorem assemble_inj (hplain : Plain ps) (hfilled : Filled qs)
    (hmarkers : ps.map Prod.fst = qs.map Prod.fst) (h : assemble ps = assemble qs) : ps = qs := by
  induction ps generalizing qs with
  | nil => exact (map_eq_nil_iff.mp hmarkers.symm).symm
  | cons p ps ih =>
    cases qs with
    | nil => cases hmarkers
    | cons q qs =>
      obtain ⟨hmarker, hmarkers⟩ := List.cons.inj hmarkers
      rcases append_cases (List.cons.inj h).2 with ⟨hp, hrest⟩ | ⟨v, hv, -, hrest⟩ | ⟨v, hv, hp, hrest⟩
      · rw [ih hplain.tail hfilled.tail hmarkers hrest, Prod.ext hmarker hp]
      · exact absurd hrest (not_later hplain.own hfilled.tail hmarkers hv)
      · -- the next marker stands in the first piece, behind where the other one ends
        exfalso
        obtain ⟨c, v, rfl⟩ := exists_cons_of_ne_nil hv
        cases qs with
        | nil => cases hrest
        | cons r qs =>
          obtain ⟨s, ps, rfl⟩ := exists_cons_of_ne_nil (l := ps) (by
            rintro rfl
            cases hmarkers)
          have hc : s.1 = c := (List.cons.inj hmarkers).1.trans (List.cons.inj hrest).1
          refine hplain.1 ?_
          rw [hp, hc]
          exact mem_tail_append (hfilled q mem_cons_self) v

/-- **Pieces that are not plain can be read in another way.** -/
theorem exists_other (hfilled : Filled ps) (h : ¬ Plain ps) : ∃ qs, Filled qs ∧
    qs.map Prod.fst = ps.map Prod.fst ∧ assemble qs = assemble ps ∧ qs ≠ ps := by
  induction ps with
  | nil => exact absurd trivial h
  | cons p ps ih =>
    cases ps with
    | nil => exact absurd trivial h
    | cons q ps =>
      have hother : ∀ l m : List α, l ≠ [] → m ≠ [] → l ≠ p.2 →
          l ++ q.1 :: m = p.2 ++ q.1 :: q.2 → ∃ qs, Filled qs ∧
            qs.map Prod.fst = (p :: q :: ps).map Prod.fst ∧ assemble qs = assemble (p :: q :: ps) ∧
              qs ≠ p :: q :: ps := by
        intro l m hl hm hne heq
        refine ⟨(p.1, l) :: (q.1, m) :: ps, ?_, rfl, ?_, ?_⟩
        · intro r hr
          rcases mem_cons.mp hr with rfl | hr
          · exact hl
          · rcases mem_cons.mp hr with rfl | hr
            · exact hm
            · exact hfilled r (mem_cons_of_mem _ (mem_cons_of_mem _ hr))
        · have happend := congrArg (fun x => p.1 :: (x ++ assemble ps)) heq
          simpa only [assemble_cons, append_assoc, cons_append] using happend
        · intro hsame
          exact hne (congrArg Prod.snd (List.cons.inj hsame).1)
      by_cases htail : q.1 ∈ p.2.tail
      · obtain ⟨l, m, hlm⟩ := append_of_mem htail
        obtain ⟨c, r, hp⟩ := exists_cons_of_ne_nil (hfilled p mem_cons_self)
        rw [hp, tail_cons] at hlm
        refine hother (c :: l) (m ++ q.1 :: q.2) (cons_ne_nil _ _) (by simp) ?_ ?_
        · intro heq
          rw [hp, hlm] at heq
          have hlen := congrArg List.length heq
          simp at hlen
        · rw [hp, hlm, cons_append, cons_append, append_assoc, cons_append]
      · by_cases hown : q.1 ∈ q.2.dropLast
        · obtain ⟨l, m, hlm⟩ := append_of_mem hown
          have hq : q.2 = l ++ q.1 :: (m ++ [q.2.getLast (hfilled q (by simp))]) := by
            conv_lhs => rw [← dropLast_append_getLast (hfilled q (by simp)), hlm]
            rw [append_assoc, cons_append]
          refine hother (p.2 ++ q.1 :: l) (m ++ [q.2.getLast (hfilled q (by simp))])
            (by simp) (by simp) ?_ ?_
          · intro heq
            have hlen := congrArg List.length heq
            simp at hlen
          · conv_rhs => rw [hq]
            rw [append_assoc, cons_append]
        · obtain ⟨qs, hqs, hmarkers, hassemble, hne⟩ :=
            ih hfilled.tail (fun hplain => h ⟨htail, hown, hplain⟩)
          refine ⟨p :: qs, ?_, congrArg (p.1 :: ·) hmarkers, ?_, ?_⟩
          · intro r hr
            rcases mem_cons.mp hr with rfl | hr
            · exact hfilled _ mem_cons_self
            · exact hqs r hr
          · rw [assemble_cons, assemble_cons, hassemble]
          · exact fun hsame => hne (List.cons.inj hsame).2

/-! ### Their text -/

def ended (nl : α) (lines : List (List α)) : List α := lines.flatMap (· ++ [nl])

variable {nl : α}

theorem ended_cons (x : List α) (l : List (List α)) : ended nl (x :: l) = x ++ nl :: ended nl l := by
  rw [ended, flatMap_cons, append_assoc]
  rfl

theorem ended_append (l m : List (List α)) : ended nl (l ++ m) = ended nl l ++ ended nl m :=
  flatMap_append

theorem ended_inj {l m : List (List α)} (hl : ∀ x ∈ l, nl ∉ x) (hm : ∀ x ∈ m, nl ∉ x)
    (h : ended nl l = ended nl m) : l = m := by
  induction l generalizing m with
  | nil =>
    cases m with
    | nil => rfl
    | cons y m =>
      rw [ended_cons] at h
      exact absurd h.symm (by simp [ended])
  | cons x l ih =>
    cases m with
    | nil =>
      rw [ended_cons] at h
      exact absurd h (by simp [ended])
    | cons y m =>
      rw [ended_cons, ended_cons, append_newline_inj (hl x mem_cons_self)
        (hm y mem_cons_self)] at h
      rw [h.1, ih (fun x hx => hl x (mem_cons_of_mem _ hx))
        (fun y hy => hm y (mem_cons_of_mem _ hy)) h.2]

theorem splitOn_spec [DecidableEq α] (l : List α) :
    (∀ x ∈ l.splitOn nl, nl ∉ x) ∧ ended nl (l.splitOn nl) = l ++ [nl] := by
  induction hn : l.length using Nat.strongRecOn generalizing l with
  | ind n ih =>
    by_cases hmem : nl ∈ l
    · obtain ⟨a, b, rfl, ha⟩ := eq_append_cons_of_mem hmem
      rw [splitOn_append_cons_self_of_not_mem ha, ended_cons]
      obtain ⟨hfree, htext⟩ := ih b.length (by simp at hn; omega) b rfl
      refine ⟨fun x hx => ?_, by rw [htext, append_assoc, cons_append]⟩
      rcases mem_cons.mp hx with rfl | hx
      · exact ha
      · exact hfree x hx
    · rw [splitOn_eq_singleton hmem, ended_cons]
      refine ⟨fun x hx => ?_, rfl⟩
      rw [mem_singleton.mp hx]
      exact hmem

/-! ### Numbered texts -/

/-- Texts one after the other, each behind the mark of its number. -/
def laid (mark : Nat → List α) : Nat → List (List α) → List α
  | _, [] => []
  | n, t :: ts => mark n ++ t ++ laid mark (n + 1) ts

/-- A text does without something of the mark that comes behind it. -/
def Lacking (mark : Nat → List α) : Nat → List (List α) → Prop
  | _, [] => True
  | n, t :: ts => (∃ a ∈ mark (n + 1), a ∉ t) ∧ Lacking mark (n + 1) ts

variable {mark : Nat → List α} {t : List α} {ts us : List (List α)} {n : Nat}

theorem not_longer {m v : List α} (hv : v ≠ []) (h : ∃ a ∈ m, a ∉ t ++ v) (r r' : List α) :
    m ++ r ≠ v ++ (m ++ r') := by
  intro heq
  obtain ⟨a, ha, hnot⟩ := h
  obtain ⟨x, y, rfl, hfirst⟩ := eq_append_cons_of_mem ha
  have hshift : x ++ a :: (y ++ r) = (v ++ x) ++ a :: (y ++ r') := by
    simpa only [append_assoc, cons_append] using heq
  have hfree : a ∉ v ++ x := fun hmem => by
    rcases mem_append.mp hmem with hmem | hmem
    · exact hnot (mem_append_right _ hmem)
    · exact hfirst hmem
  have hlen := congrArg List.length ((append_newline_inj hfirst hfree).mp hshift).1
  rw [length_append] at hlen
  exact hv (length_eq_zero_iff.mp (by omega))

theorem not_beyond {v : List α} (hv : v ≠ []) (h : ∃ a ∈ mark n, a ∉ t ++ v) :
    laid mark n ts ≠ v ++ laid mark n us := by
  intro heq
  cases ts with
  | nil => exact hv (append_eq_nil_iff.mp heq.symm).1
  | cons t' ts =>
    rw [laid, append_assoc] at heq
    cases us with
    | nil =>
      obtain ⟨a, ha, hnot⟩ := h
      rw [laid, append_nil] at heq
      rw [← heq] at hnot
      exact hnot (mem_append_right _ (mem_append_left _ ha))
    | cons u us =>
      rw [laid, append_assoc] at heq
      exact not_longer hv h _ _ heq

/-- **Texts that lack something of the next mark are read back.** -/
theorem laid_inj (ht : Lacking mark n ts) (hu : Lacking mark n us)
    (hmark : ∀ k, mark k ≠ []) (h : laid mark n ts = laid mark n us) : ts = us := by
  induction ts generalizing n us with
  | nil =>
    cases us with
    | nil => rfl
    | cons u us =>
      rw [laid, laid, append_assoc] at h
      exact absurd (append_eq_nil_iff.mp h.symm).1 (hmark n)
  | cons t ts ih =>
    cases us with
    | nil =>
      rw [laid, laid, append_assoc] at h
      exact absurd (append_eq_nil_iff.mp h).1 (hmark n)
    | cons u us =>
      rw [laid, laid, append_assoc, append_assoc] at h
      rcases append_cases (append_cancel_left h) with
        ⟨heq, hrest⟩ | ⟨v, hv, hlong, hrest⟩ | ⟨v, hv, hlong, hrest⟩
      · rw [heq, ih ht.2 hu.2 hrest]
      · exact absurd hrest (not_beyond hv (hlong ▸ hu.1))
      · exact absurd hrest (not_beyond hv (hlong ▸ ht.1))

end Modbit.Lib.Marked
