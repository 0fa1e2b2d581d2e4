import Modbit.Lib.FileTree

/-!
# Where a path lands

What is done at a path, reading, listing, entering it, or writing to it after the directories
above it were made, touches locations of the tree.  `Lands` is the first of them: the location the
path leads to, taken or vacant, or the first directory that has to be made.  `touches_of_lands` and
`lands_of_touches` say that this location is touched and that everything touched is at it or
below it.
-/

namespace Modbit.Lib

namespace FileTree

open List

/-- The directories above a file are made if they can be; then it is written. -/
def writeMaking (t : FileTree) (p : FilePath) (bytes : List UInt8) : FileTree × Bool :=
  let made := if p = [] then t else (t.createDirAll p.dropLast).getD t
  match made.write p bytes with
  | none => (made, false)
  | some written => (written, true)

/-- Reading at a path, or writing something to it, touches a location. -/
def Touches (t : FileTree) (p q : FilePath) : Prop :=
  t.canonicalize p = some q ∨ ∃ bytes, (t.writeMaking p bytes).1.node q ≠ t.node q

/-- A location is the one a path leads to, or the first directory that has to be made for it. -/
def Lands (t : FileTree) (p l : FilePath) : Prop :=
  t.place p = some l ∨ ∃ d x y r c, p = d ++ x :: y :: r ∧ t.canonicalize d = some c ∧
    t.node c = some .dir ∧ t.node (c ++ [x]) = none ∧ l = c ++ [x]

variable {t t' : FileTree} {p q l d c : FilePath} {x : String}

/-! ### What is touched -/

theorem write_changes {bytes : List UInt8} (h : t.write p bytes = some t')
    (hq : t'.node q ≠ t.node q) : t.place p = some q := by
  obtain ⟨r, hr, -, hnode⟩ := write_eq_some h
  rw [hnode] at hq
  split_ifs at hq with he
  · exact he ▸ hr
  · exact absurd rfl hq

theorem writeMaking_eq (hp : p ≠ []) (bytes : List UInt8) :
    (t.writeMaking p bytes).1 =
      (((t.createDirAll p.dropLast).getD t).write p bytes).getD ((t.createDirAll p.dropLast).getD t) := by
  rw [writeMaking, if_neg hp]
  split
  · next h =>
    rw [h]
    rfl
  · next h =>
    rw [h]
    rfl

theorem lands_of_touches (h : t.Touches p q) : ∃ l, t.Lands p l ∧ l <+: q := by
  rcases h with hread | ⟨bytes, hchange⟩
  · exact ⟨q, Or.inl (canonicalize_eq_some.mp hread).1, prefix_rfl⟩
  by_cases hp : p = []
  · subst hp
    have hnone : t.write [] bytes = none := by
      have hplace : t.place [] = some [] := (canonicalize_eq_some.mp t.canonicalize_nil).1
      rw [write, hplace]
      exact dif_neg (fun hslot => hslot.1 rfl)
    rw [writeMaking, if_pos rfl, hnone] at hchange
    exact absurd rfl hchange
  rw [writeMaking_eq hp] at hchange
  have hsame : ∀ made : FileTree, made = t → (made.write p bytes).getD made = t ∨
      ∃ t', t.write p bytes = some t' ∧ (made.write p bytes).getD made = t' := by
    rintro made rfl
    cases made.write p bytes with
    | none => exact Or.inl rfl
    | some t' => exact Or.inr ⟨t', rfl, rfl⟩
  -- The case in which no directory is made: only the location of the path changes.
  have hkept : (t.createDirAll p.dropLast).getD t = t → ∃ l, t.Lands p l ∧ l <+: q := by
    intro hmade
    rcases hsame _ hmade with he | ⟨t', hwrite, he⟩
    · rw [he] at hchange
      exact absurd rfl hchange
    · rw [he] at hchange
      exact ⟨q, Or.inl (write_changes hwrite hchange), prefix_rfl⟩
  cases hdirs : t.createDirAll p.dropLast with
  | none => exact hkept (by rw [hdirs]; rfl)
  | some made =>
    rcases createDirAll_deepens hdirs with ⟨rfl, -⟩ | ⟨d, x, r, c, hparent, hc, hdir, hnone, hplace, hnode⟩
    · exact hkept (by rw [hdirs]; rfl)
    · have hsplit : p = d ++ x :: (r ++ [p.getLast hp]) := by
        rw [← cons_append, ← append_assoc, ← hparent, dropLast_append_getLast hp]
      obtain ⟨y, r', hr⟩ : ∃ y r', r ++ [p.getLast hp] = y :: r' :=
        exists_cons_of_ne_nil (append_ne_nil_of_right_ne_nil _ (cons_ne_nil _ _))
      refine ⟨c ++ [x], Or.inr ⟨d, x, y, r', c, hr ▸ hsplit, hc, hdir, hnone, rfl⟩, ?_⟩
      rw [hdirs, Option.getD_some] at hchange
      by_cases hmade : made.node q = t.node q
      · -- The file at the end of the new directories.
        have hwritten : ((made.write p bytes).getD made).node q ≠ made.node q := hmade.symm ▸ hchange
        cases hwrite : made.write p bytes with
        | none =>
          rw [hwrite] at hwritten
          exact absurd rfl hwritten
        | some t' =>
          rw [hwrite, Option.getD_some] at hwritten
          have hq := write_changes hwrite hwritten
          obtain ⟨hend, hvacant⟩ := chain_end hnone hnode
          have hlast := place_snoc hplace hend (fun target hl => by
            rw [hvacant (p.getLast hp)] at hl; cases hl)
          rw [dropLast_append_getLast hp, hq] at hlast
          rw [Option.some.inj hlast, append_assoc]
          exact prefix_chain c x _
      · rw [hnode] at hmade
        split_ifs at hmade with hin
        · exact hin.1
        · exact absurd rfl hmade

/-! ### The landing is touched -/

theorem createDirAll_of_canonicalize (h : t.canonicalize p = some c) (hdir : t.node c = some .dir) :
    t.createDirAll p = some t := by
  induction p using List.reverseRecOn generalizing c with
  | nil => exact createDirAll_of_dir t.root
  | append_singleton p x ih =>
    have hplace := (canonicalize_eq_some.mp h).1
    rw [place, map_append] at hplace
    obtain ⟨e, he, hedir⟩ := walk_of_snoc _ _ _ t.root hplace
    rw [createDirAll_snoc, ih (canonicalize_eq_some.mpr ⟨he, hedir ▸ Option.some_ne_none _⟩) hedir,
      Option.bind_some, if_pos (by rw [h]; exact hdir)]

theorem createDirAll_chain (hc : t.canonicalize d = some c) (hdir : t.node c = some .dir)
    (hnone : t.node (c ++ [x]) = none) (r : List String) :
    ∃ t', t.createDirAll (d ++ x :: r) = some t' ∧ t'.node (c ++ [x]) = some .dir ∧
      t'.place (d ++ x :: r) = some (c ++ x :: r) ∧ t'.node (c ++ x :: r) = some .dir ∧
      ∀ y, t'.node (c ++ x :: r ++ [y]) = none := by
  have hplace := (canonicalize_eq_some.mp hc).1
  induction r using List.reverseRecOn with
  | nil =>
    have hcan : t.canonicalize (d ++ [x]) = none := by
      rw [canonicalize, place_snoc hplace hdir (fun target hl => by rw [hnone] at hl; cases hl),
        Option.filter_some, hnone]
      rfl
    have hentry : t.entry (d ++ [x]) = some (c ++ [x]) := by
      rw [entry, getLast?_concat, dropLast_concat, hplace]
      dsimp only
      rw [Option.filter_some, if_pos (decide_eq_true hdir), Option.map_some]
    have hslot : t.Slot (c ++ [x]) := by
      refine ⟨by simp, ?_, ?_⟩
      · rw [dropLast_concat]
        exact hdir
      · rw [hnone]
        exact fun h => by cases h
    have hmkdir : t.mkdir (d ++ [x]) = some (t.update (c ++ [x]) (some .dir) hslot) := by
      rw [mkdir, hentry]
      exact dif_pos ⟨hslot, hnone⟩
    refine ⟨_, by rw [createDirAll_snoc, createDirAll_of_canonicalize hc hdir, Option.bind_some, hcan,
      Option.bind_none, if_neg (fun h => by cases h), hmkdir], ?_, place_mkdir hmkdir hentry, ?_, ?_⟩
    · rw [node_update, if_pos rfl]
    · rw [node_update, if_pos rfl]
    · intro y
      rw [node_update, if_neg (by simp)]
      by_contra hsome
      rw [dir_of_node (cons_ne_nil _ _) hsome] at hnone
      cases hnone
  | append_singleton r y ih =>
    obtain ⟨t₁, hmade, hfirst, hplace₁, hend, hvacant⟩ := ih
    have hsplit : d ++ x :: (r ++ [y]) = d ++ x :: r ++ [y] := by
      rw [append_assoc, cons_append]
    have hsplit' : c ++ x :: (r ++ [y]) = c ++ x :: r ++ [y] := by
      rw [append_assoc, cons_append]
    have hnext := place_snoc (x := y) hplace₁ hend (fun target hl => by rw [hvacant y] at hl; cases hl)
    have hcan : t₁.canonicalize (d ++ x :: r ++ [y]) = none := by
      rw [canonicalize, hnext, Option.filter_some, hvacant y]
      rfl
    have hentry : t₁.entry (d ++ x :: r ++ [y]) = some (c ++ x :: r ++ [y]) := by
      rw [entry, getLast?_concat, dropLast_concat, hplace₁]
      dsimp only
      rw [Option.filter_some, if_pos (decide_eq_true hend), Option.map_some]
    have hslot : t₁.Slot (c ++ x :: r ++ [y]) := by
      refine ⟨by simp, ?_, ?_⟩
      · rw [dropLast_concat]
        exact hend
      · rw [hvacant y]
        exact fun h => by cases h
    have hmkdir : t₁.mkdir (d ++ x :: r ++ [y]) =
        some (t₁.update (c ++ x :: r ++ [y]) (some .dir) hslot) := by
      rw [mkdir, hentry]
      exact dif_pos ⟨hslot, hvacant y⟩
    rw [hsplit, hsplit']
    refine ⟨_, by rw [createDirAll_snoc, hmade, Option.bind_some, hcan, Option.bind_none,
      if_neg (fun h => by cases h), hmkdir], ?_, place_mkdir hmkdir hentry, ?_, ?_⟩
    · rw [node_update, if_neg, hfirst]
      intro he
      have := congrArg List.length he
      simp at this
    · rw [node_update, if_pos rfl]
    · intro z
      rw [node_update, if_neg (by simp)]
      by_contra hsome
      have := dir_of_node (cons_ne_nil _ _) hsome
      rw [hvacant y] at this
      cases this

theorem touches_of_lands (h : t.Lands p l) : t.Touches p l := by
  rcases h with hplace | ⟨d, x, y, r, c, rfl, hc, hdir, hnone, rfl⟩
  · by_cases hl : t.node l = none
    · refine Or.inr ⟨[], ?_⟩
      have hp : p ≠ [] := by
        rintro rfl
        rw [(canonicalize_eq_some.mp t.canonicalize_nil).1] at hplace
        obtain rfl := Option.some.inj hplace
        have hroot : t.node [] = some .dir := t.root
        rw [hroot] at hl
        cases hl
      -- The directory above a vacant location is there.
      have hparent : t.createDirAll p.dropLast = some t := by
        obtain ⟨dir, z, rfl⟩ : ∃ dir z, p = dir ++ [z] :=
          ⟨_, _, (dropLast_append_getLast hp).symm⟩
        rw [place, map_append] at hplace
        obtain ⟨e, he, hedir⟩ := walk_of_snoc _ _ _ t.root hplace
        rw [dropLast_concat]
        exact createDirAll_of_canonicalize
          (canonicalize_eq_some.mpr ⟨he, hedir ▸ Option.some_ne_none _⟩) hedir
      have hslot := slot_of_vacant hplace hl
      rw [writeMaking_eq hp, hparent, Option.getD_some, write_of_slot hplace hslot, Option.getD_some,
        node_update, if_pos rfl, hl]
      exact Option.some_ne_none _
    · exact Or.inl (canonicalize_eq_some.mpr ⟨hplace, hl⟩)
  · refine Or.inr ⟨[], ?_⟩
    have hne : d ++ x :: y :: r ≠ [] := by simp
    obtain ⟨last, tail, hlast⟩ : ∃ tail last, y :: r = tail ++ [last] :=
      ⟨_, _, (dropLast_append_getLast (cons_ne_nil y r)).symm⟩
    have hdrop : (d ++ x :: y :: r).dropLast = d ++ x :: last := by
      rw [hlast, ← cons_append, ← append_assoc, dropLast_concat]
    obtain ⟨t₁, hmade, hfirst, -, -, -⟩ := createDirAll_chain hc hdir hnone last
    rw [writeMaking_eq hne, hdrop, hmade, Option.getD_some]
    -- The file that is then written does not take the directory away.
    have hkept : ((t₁.write (d ++ x :: y :: r) []).getD t₁).node (c ++ [x]) = some .dir := by
      cases hwrite : t₁.write (d ++ x :: y :: r) [] with
      | none => exact hfirst
      | some t₂ => exact ((write_keeps hwrite).1 (c ++ [x])).1 hfirst
    rw [hkept, hnone]
    exact Option.some_ne_none _

/-! ### Paths without links -/

variable {n : FileNode}

theorem eq_of_lands_node (hn : t.node p = some n) (hlink : ∀ target, n ≠ .link target)
    (h : t.Lands p l) : l = p := by
  rcases h with hplace | ⟨d, x, y, r, c, rfl, hc, -, hnone, -⟩
  · rw [place_of_node hn hlink] at hplace
    exact (Option.some.inj hplace).symm
  · -- What is on the way to it is there too.
    have hsplit : d ++ x :: y :: r = d ++ [x] ++ y :: r := by
      rw [append_assoc, singleton_append]
    rw [hsplit] at hn
    have hdx : t.node (d ++ [x]) = some .dir :=
      dir_of_node (cons_ne_nil _ _) (hn ▸ Option.some_ne_none _)
    have hthere : t.node (d ++ [x]) ≠ none := by
      rw [hdx]
      exact Option.some_ne_none _
    have hd : t.node d = some .dir := t.below d x hthere
    rw [canonicalize, place_of_node hd (fun target hl => by cases hl), Option.filter_some, hd] at hc
    obtain rfl := Option.some.inj hc
    rw [hdx] at hnone
    cases hnone

theorem canonicalize_vacant {name : String} (hn : t.node p = some n)
    (hlink : ∀ target, n ≠ .link target) (hnone : t.node (p ++ [name]) = none) (r : List String) :
    t.canonicalize (p ++ name :: r) = none := by
  have hself : t.place p = some p := place_of_node hn hlink
  have hentry : t.canonicalize (p ++ [name]) = none := by
    by_contra hsome
    obtain ⟨q, hq⟩ := Option.ne_none_iff_exists'.mp hsome
    obtain ⟨hplace, hnode⟩ := canonicalize_eq_some.mp hq
    have hwalk := hplace
    rw [place, map_append] at hwalk
    obtain ⟨e, he, hedir⟩ := walk_of_snoc _ _ _ t.root hwalk
    have hep : e = p := Option.some.inj (he.symm.trans hself)
    subst hep
    have hq' := place_snoc he hedir (fun target hl => by rw [hnone] at hl; cases hl)
    rw [hplace] at hq'
    exact hnode (Option.some.inj hq' ▸ hnone)
  have hsplit : p ++ name :: r = p ++ [name] ++ r := by
    rw [append_assoc, singleton_append]
  rw [hsplit]
  by_contra hsome
  exact canonicalize_of_append hsome hentry

theorem eq_of_lands_vacant {name : String} {tail : List String}
    (hn : t.node p = some n) (hlink : ∀ target, n ≠ .link target) (hnone : t.node (p ++ [name]) = none)
    (h : t.Lands (p ++ name :: tail) l) : l = p ++ [name] ∧ t.node p = some .dir := by
  have hself : t.place p = some p := place_of_node hn hlink
  have hcan : t.canonicalize p = some p :=
    canonicalize_eq_some.mpr ⟨hself, hn ▸ Option.some_ne_none _⟩
  have hbeyond := canonicalize_vacant hn hlink hnone
  rcases h with hplace | ⟨d, x, y, r, c, hsplit, hc, hdir, hvacant, rfl⟩
  · obtain ⟨dir, z, hpath⟩ : ∃ dir z, p ++ name :: tail = dir ++ [z] :=
      ⟨_, _, (dropLast_append_getLast (by simp)).symm⟩
    rw [hpath, place, map_append] at hplace
    obtain ⟨e, he, hedir⟩ := walk_of_snoc _ _ _ t.root hplace
    have hdircan : t.canonicalize dir = some e :=
      canonicalize_eq_some.mpr ⟨he, hedir ▸ Option.some_ne_none _⟩
    rcases eq_nil_or_concat tail with rfl | ⟨tail', z', rfl⟩
    · obtain ⟨rfl, hz⟩ := append_inj' hpath rfl
      obtain rfl := singleton_inj.mp hz
      obtain rfl := Option.some.inj (he.symm.trans hself)
      have hl := walk_snoc hedir (fun target hl => by rw [hnone] at hl; cases hl) _ _ _ he
      exact ⟨Option.some.inj (hplace.symm.trans hl), hedir⟩
    · rw [concat_eq_append, ← cons_append, ← append_assoc] at hpath
      obtain ⟨rfl, -⟩ := append_inj' hpath rfl
      have hnil := hbeyond tail'
      rw [hdircan] at hnil
      cases hnil
  · -- The first name that leads to nothing is the vacant entry.
    have hdx : t.canonicalize (d ++ [x]) = none := by
      rw [canonicalize, place_snoc (canonicalize_eq_some.mp hc).1 hdir
        (fun target hl => by rw [hvacant] at hl; cases hl), Option.filter_some, hvacant]
      rfl
    have hsame : d = p := by
      rcases append_eq_append_iff.mp hsplit with ⟨a, hd, htail⟩ | ⟨a, hp, htail⟩
      · cases a with
        | nil => rw [hd, append_nil]
        | cons b a =>
          rw [cons_append] at htail
          obtain ⟨rfl, -⟩ := List.cons.inj htail
          have hnil := hbeyond a
          rw [← hd, hc] at hnil
          cases hnil
      · cases a with
        | nil => rw [hp, append_nil]
        | cons b a =>
          rw [cons_append] at htail
          obtain ⟨rfl, -⟩ := List.cons.inj htail
          have hsome : t.canonicalize (d ++ [x] ++ a) ≠ none := by
            rw [append_assoc, singleton_append, ← hp, hcan]
            exact Option.some_ne_none _
          exact absurd hdx (canonicalize_of_append hsome)
    subst hsame
    obtain ⟨rfl, -⟩ := List.cons.inj (append_cancel_left hsplit)
    rw [hcan] at hc
    obtain rfl := Option.some.inj hc
    exact ⟨rfl, hdir⟩

end FileTree

end Modbit.Lib
