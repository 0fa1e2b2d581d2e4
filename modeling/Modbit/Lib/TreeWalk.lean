import Modbit.Lib.FileTree

/-!
# Ways through a file tree

A path as it is written may go up as well as down: `locate` is where such a way leads, if
there is something.  A directory lists the names in it in an order of its own, another one
each time it is read: a `Listing`.

What bounds a walk that goes down through links is `walk_link_snoc`: each link at the end
of a way takes one of the `maxLinks` that resolving it may use.  `walk_ends` is the rule for such
walks.
-/

namespace Modbit.Lib

namespace FileTree

open List

/-- Where a way leads, if there is something: `canonicalize` for paths with parent steps. -/
def locate (t : FileTree) (way : List LinkPart) : Option FilePath :=
  (t.walk maxLinks [] way).filter (fun q => (t.node q).isSome)

/-- `fs::metadata`. -/
def metadata (t : FileTree) (way : List LinkPart) : Option FileNode := (t.locate way).bind t.node

def children (t : FileTree) (d : FilePath) : List String :=
  t.nodes.keys.filterMap (fun k => if k.dropLast = d then k.getLast? else none)

variable {t : FileTree} {d q : FilePath} {way : List LinkPart} {x : String}

theorem locate_eq_some :
    t.locate way = some q ↔ t.walk maxLinks [] way = some q ∧ t.node q ≠ none := by
  rw [locate, Option.filter_eq_some_iff, Option.isSome_iff_ne_none]

theorem metadata_eq_some {n : FileNode} :
    t.metadata way = some n ↔ ∃ q, t.locate way = some q ∧ t.node q = some n :=
  Option.bind_eq_some_iff

theorem mem_children : x ∈ t.children d ↔ t.node (d ++ [x]) ≠ none := by
  rw [children, mem_filterMap]
  constructor
  · rintro ⟨k, hk, hlast⟩
    split_ifs at hlast with hd
    obtain ⟨dir, rfl⟩ := getLast?_eq_some_iff.mp hlast
    rw [dropLast_concat] at hd
    obtain ⟨v, hv⟩ := OrdMap.mem_keys.mp hk
    rw [← hd, node, hv]
    exact Option.some_ne_none _
  · intro hnode
    refine ⟨d ++ [x], OrdMap.mem_keys.mpr (Option.ne_none_iff_exists'.mp hnode), ?_⟩
    rw [if_pos dropLast_concat, getLast?_concat]

theorem nodup_children : (t.children d).Nodup := by
  have hkeys : t.nodes.keys.Nodup :=
    pairwise_map.mpr (t.nodes.sorted.imp (fun hlt => ne_of_lt hlt))
  refine hkeys.filterMap (fun k k' x hk hk' => ?_)
  have hlast : ∀ k : FilePath, x ∈ (if k.dropLast = d then k.getLast? else none) → k = d ++ [x] := by
    intro k hk
    split_ifs at hk with hd
    · obtain ⟨dir, rfl⟩ := getLast?_eq_some_iff.mp hk
      rw [← hd, dropLast_concat]
    · cases hk
  rw [hlast k hk, hlast k' hk']

/-! ### Links on the way -/

theorem walk_mono {n m : Nat} (hle : n ≤ m) (here : FilePath) (parts : List LinkPart) :
    t.walk n here parts = some q → t.walk m here parts = some q := by
  induction n, here, parts using t.walk_induction generalizing m with
  | nil n here =>
    rw [walk_nil, walk_nil]
    exact id
  | up n here rest ih =>
    rw [walk_up, walk_up]
    exact ih hle
  | dir n here s rest hdir ih =>
    rw [walk_dir hdir, walk_dir hdir]
    exact ih hle
  | link n here s rest target hl ih =>
    obtain ⟨m, rfl⟩ : ∃ m', m = m' + 1 := ⟨m - 1, by omega⟩
    rw [walk_link hl, walk_link hl]
    exact ih (by omega)
  | loop here s rest target hl =>
    rw [walk_link_zero hl]
    rintro ⟨⟩
  | last n here s rest hdir hnl =>
    rw [walk_end hdir hnl, walk_end hdir hnl]
    exact id

/-- **A link at the end of a way takes a link more than the way to it.** -/
theorem walk_link_snoc {target : LinkTarget} (hl : t.node (d ++ [x]) = some (.link target)) (n : Nat)
    (here : FilePath) (parts : List LinkPart) :
    t.walk n here parts = some d → t.walk n here (parts ++ [.name x]) = some q →
    ∃ m, n = m + 1 ∧ t.walk m here parts = some d := by
  induction n, here, parts using t.walk_induction with
  | nil n here =>
    intro hd
    rw [walk_nil] at hd
    obtain rfl := Option.some.inj hd
    cases n with
    | zero =>
      rw [nil_append, walk_link_zero hl]
      rintro ⟨⟩
    | succ n => exact fun _ => ⟨n, rfl, walk_nil n here⟩
  | up n here rest ih =>
    rw [cons_append, walk_up, walk_up]
    simpa only [walk_up] using ih
  | dir n here s rest hdir ih =>
    rw [cons_append, walk_dir hdir, walk_dir hdir]
    simpa only [walk_dir hdir] using ih
  | link n here s rest target' hl' ih =>
    rw [cons_append, walk_link hl', walk_link hl', ← append_assoc]
    intro hd hwalk
    obtain ⟨m, rfl, hd'⟩ := ih hd hwalk
    exact ⟨m + 1, rfl, by rw [walk_link hl']; exact hd'⟩
  | loop here s rest target' hl' =>
    rw [walk_link_zero hl']
    rintro ⟨⟩
  | last n here s rest hdir hnl =>
    intro _ hwalk
    rw [cons_append, walk_end hdir hnl,
      if_neg (append_ne_nil_of_right_ne_nil _ (cons_ne_nil _ _))] at hwalk
    cases hwalk

def depth (t : FileTree) : Nat := (t.nodes.keys.map List.length).foldr max 0

theorem length_le_depth (h : t.node q ≠ none) : q.length ≤ t.depth := by
  have hmem : q ∈ t.nodes.keys := OrdMap.mem_keys.mpr (Option.ne_none_iff_exists'.mp h)
  have hmax : ∀ l : List FilePath, q ∈ l → q.length ≤ (l.map List.length).foldr max 0 := by
    intro l hl
    induction l with
    | nil => cases hl
    | cons p l ih =>
      rw [map_cons, foldr_cons]
      rcases mem_cons.mp hl with rfl | hl
      · exact Nat.le_max_left _ _
      · exact (ih hl).trans (Nat.le_max_right _ _)
  exact hmax _ hmem

/-! ### The end of a walk -/

/-- Resolving a way takes all but so many of the links that there may be. -/
def Spends (t : FileTree) (way : List LinkPart) (left : Nat) : Prop :=
  ∀ n q, t.walk n [] way = some q → maxLinks ≤ n + left

/-- **One directory further, a link less is left, or the way is deeper by a name.** -/
theorem spends_enter {dir : List LinkPart} {left : Nat} (hd : t.locate dir = some d)
    (hdir : t.node d = some .dir) (hleft : Spends t dir left)
    (henter : t.metadata (dir ++ [.name x]) = some .dir) :
    (t.locate (dir ++ [.name x]) = some (d ++ [x]) ∧ Spends t (dir ++ [.name x]) left) ∨
      ∃ less, left = less + 1 ∧ Spends t (dir ++ [.name x]) less := by
  have hwalk := (locate_eq_some.mp hd).1
  obtain ⟨e, he, hsub⟩ := metadata_eq_some.mp henter
  have hwalk' := (locate_eq_some.mp he).1
  -- the way to the entry goes through the directory, whatever links it may use
  have hvia : ∀ n q, t.walk n [] (dir ++ [.name x]) = some q → t.walk n [] dir = some d := by
    intro n q hn
    obtain ⟨d', hd', -⟩ := walk_of_snoc n [] dir t.root hn
    rcases Nat.le_total n maxLinks with hle | hle
    · have := walk_mono hle _ _ hd'
      rw [hwalk] at this
      rw [hd', Option.some.inj this]
    · exact walk_mono hle _ _ hwalk
  rcases t.node_cases (d ++ [x]) with hx | ⟨target, hx⟩ | ⟨hxdir, hxlink⟩
  · refine Or.inl ⟨?_, fun n q hn => hleft n d (hvia n q hn)⟩
    have hlink : t.NotLink (d ++ [x]) := fun target hl => by
      rw [hx] at hl
      cases hl
    refine locate_eq_some.mpr ⟨walk_snoc hdir hlink _ _ _ hwalk, ?_⟩
    rw [hx]
    exact Option.some_ne_none _
  · obtain ⟨m, hm, hless⟩ := walk_link_snoc hx _ _ _ hwalk hwalk'
    have hpos : maxLinks ≤ m + left := hleft m d hless
    refine Or.inr ⟨left - 1, by omega, fun n q hn => ?_⟩
    obtain ⟨k, rfl, hk⟩ := walk_link_snoc hx _ _ _ (hvia n q hn) hn
    have := hleft k d hk
    omega
  · -- neither a directory nor a link: it is not gone into
    have hself := walk_snoc hdir hxlink _ _ _ hwalk
    rw [hwalk'] at hself
    rw [Option.some.inj hself] at hsub
    exact absurd hsub hxdir

/-- The fuel that is enough for every walk over a tree. -/
def enough (t : FileTree) : Nat := (maxLinks + 1) * (t.depth + 1)

/-- **Every walk that only goes on into directories comes to its end.** -/
theorem walk_ends (ends : Nat → List LinkPart → Prop)
    (hstep : ∀ fuel dir, (∀ x, t.metadata dir = some .dir →
      t.metadata (dir ++ [.name x]) = some .dir → ends fuel (dir ++ [.name x])) → ends (fuel + 1) dir)
    (dir : List LinkPart) : ends (enough t) dir := by
  have hbound : ∀ fuel dir left, Spends t dir left → 0 < fuel →
      (∀ d, t.locate dir = some d → left * (t.depth + 1) + (t.depth - d.length) < fuel) →
      ends fuel dir := by
    intro fuel
    induction fuel with
    | zero => exact fun _ _ _ hpos => absurd hpos (Nat.lt_irrefl 0)
    | succ fuel ih =>
      intro dir left hleft _ hfuel
      refine hstep fuel dir (fun x hmeta henter => ?_)
      obtain ⟨d, hd, hdir⟩ := metadata_eq_some.mp hmeta
      have hnow := hfuel d hd
      rcases spends_enter hd hdir hleft henter with ⟨hdeeper, hspent⟩ | ⟨less, rfl, hspent⟩
      · have hlen : (d ++ [x]).length ≤ t.depth :=
          length_le_depth (locate_eq_some.mp hdeeper).2
        rw [length_append, length_singleton] at hlen
        refine ih _ left hspent (by omega) (fun e he => ?_)
        rw [hdeeper] at he
        rw [← Option.some.inj he, length_append, length_singleton]
        omega
      · rw [Nat.succ_mul] at hnow
        refine ih _ less hspent (by omega) (fun e he => ?_)
        omega
  refine hbound _ dir maxLinks (fun n q _ => Nat.le_add_left _ _)
    (Nat.mul_pos (Nat.succ_pos _) (Nat.succ_pos _)) (fun d _ => ?_)
  show _ < (maxLinks + 1) * (t.depth + 1)
  rw [Nat.succ_mul]
  omega

end FileTree

/-- The order in which the names of a directory come, each time it is read. -/
structure Listing where
  order : List LinkPart → List String → List String
  perm : ∀ way names, (order way names).Perm names

namespace Listing

theorem mem_order (o : Listing) {way : List LinkPart} {names : List String} {x : String} :
    x ∈ o.order way names ↔ x ∈ names := (o.perm way names).mem_iff

def plain : Listing := ⟨fun _ names => names, fun _ names => .refl names⟩

/-- One way's names first, at each directory that it comes through. -/
def along (way : List LinkPart) : Listing where
  order dir names :=
    match (way.drop dir.length).head? with
    | some (.name x) => if x ∈ names then x :: names.erase x else names
    | _ => names
  perm dir names := by
    split
    · split_ifs with hx
      · exact (List.perm_cons_erase hx).symm
      · exact .refl names
    · exact .refl names

theorem order_along {dir rest : List LinkPart} {names : List String} {x : String} (hx : x ∈ names) :
    (along (dir ++ .name x :: rest)).order dir names = x :: names.erase x := by
  show (match ((dir ++ .name x :: rest).drop dir.length).head? with
    | some (.name x) => if x ∈ names then x :: names.erase x else names
    | _ => names) = _
  rw [List.drop_left, List.head?_cons]
  exact if_pos hx

end Listing

end Modbit.Lib
