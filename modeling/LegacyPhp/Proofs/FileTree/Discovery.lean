import LegacyPhp.FileTree.Discover
import LegacyPhp.Proofs.FileTree.Amend
import LegacyPhp.Proofs.FileTree.Descent
import Mathlib.Data.List.Induction
import Mathlib.Data.List.Nodup
import Mathlib.Tactic.Choose

/-!
# What a search finds

A search of a tree returns if what it comes to can be read and no path comes back to a directory
that it passed (`Searchable`): the directories on one path are then all different, and there are no
more of them than the depth of a search allows. It finds exactly the files that names lead to from
its root with one of the extensions, unless a directory on the way has an excluded name (`Wanted`).
The found paths are followed as lists of names (`Lists`): those under the names of one directory are
apart, and whatever leads on from a directory begins with a name that stands in it.

In a well-formed tree without links nothing hinders a search, and the paths that it finds lead to
different places (`discover_found`).
-/

namespace LegacyPhp.FileTree

open Text List

variable {t : FileTree} {s : Search} {root path : Path} {here l m : Location} {name : Text}
  {names front : List Text} {found : List Path} {e : Entry} {ancestors : List Location}

/-! ## The names in a directory -/

theorem location_of_child (h : (if m.dropLast == here then m.getLast? else none) = some name) :
    m = here ++ [name] := by
  split at h
  · next hhere =>
    rw [← beq_iff_eq.1 hhere]
    exact (dropLast_append_getLast? name h).symm
  · cases h

theorem mem_locations_of_mem_children (h : name ∈ t.children here) :
    here ++ [name] ∈ t.locations := by
  obtain ⟨⟨m, e⟩, hmem, hm⟩ := mem_filterMap.1 h
  rw [← location_of_child hm]
  exact mem_map_of_mem hmem

theorem exists_entry_of_mem_children (h : name ∈ t.children here) :
    ∃ e, t.entry? (here ++ [name]) = some e := by
  obtain ⟨x, hx, heq⟩ := mem_map.1 (mem_locations_of_mem_children h)
  cases hentry : t.entry? (here ++ [name]) with
  | some e => exact ⟨e, rfl⟩
  | none =>
    unfold entry? at hentry
    rw [if_neg (by simp)] at hentry
    exact absurd heq.symm (by simpa using lookup_eq_none_iff.1 hentry x hx)

theorem mem_children (h : t.entry? (here ++ [name]) = some e) : name ∈ t.children here := by
  have hmem := mem_locations_of_entry? h (by simp)
  obtain ⟨x, hx, heq⟩ := mem_map.1 hmem
  exact mem_filterMap.2 ⟨x, hx, by simp [heq]⟩

theorem nodup_children (ht : t.WellFormed) (here : Location) : (t.children here).Nodup := by
  refine pairwise_filterMap.2 ((pairwise_map.1 ht.distinct).imp ?_)
  rintro ⟨m, e⟩ ⟨m', e'⟩ hne name hname name' hname' rfl
  exact hne ((location_of_child hname).trans (location_of_child hname').symm)

theorem isName_of_mem_children (ht : t.WellFormed) (h : name ∈ t.children here) :
    Path.IsName name :=
  ht.names _ (mem_locations_of_mem_children h) name (by simp)

/-! ## Files and directories -/

theorem isFile_iff : t.isFile path ↔
    ∃ l c, t.locate true path = .ok l ∧ t.entry? l = some (.file c) := by
  unfold isFile
  cases t.locate true path with
  | error e => simp
  | ok l =>
    simp only [Except.ok.injEq, exists_and_left, exists_eq_left']
    split <;> simp_all

theorem isDirectory_iff : t.isDirectory path ↔
    ∃ l, t.locate true path = .ok l ∧ t.entry? l = some .directory := by
  unfold isDirectory
  cases t.locate true path <;> simp

theorem hasExtension_iff {extensions : List Text} : hasExtension extensions path ↔
    ∃ ext, Path.extension? path = some ext ∧
      ∃ e ∈ extensions, lower (dropLeading '.' e) = lower ext := by
  unfold hasExtension
  cases Path.extension? path <;> simp [sameWord]

theorem pairwise_ifWanted {R : Path → Path → Prop} (s : Search) (path : Path) :
    (ifWanted s path).Pairwise R := by
  unfold ifWanted
  split
  · exact pairwise_singleton _ _
  · exact .nil

/-! ## Searches that return -/

/-- The search comes to the directory that names lead to from its root. -/
inductive Visits (t : FileTree) (s : Search) (root : Path) :
    (ancestors : List Location) → (names : List Text) → (here : Location) → Prop
  | root {l : Location} (hl : t.locate true root = .ok l) (hdir : t.entry? l = some .directory) :
      Visits t s root [l] [] l
  | down {ancestors : List Location} {names : List Text} {here l : Location} {name : Text}
      (h : Visits t s root ancestors names here) (hname : name ∈ t.children here)
      (hkept : name ∉ s.excluded) (hl : t.locate true (under root (names ++ [name])) = .ok l)
      (hdir : t.entry? l = some .directory) : Visits t s root (l :: ancestors) (names ++ [name]) l

/-- What the search comes to is a file or a directory, and never a directory passed before. -/
structure Searchable (t : FileTree) (s : Search) (root : Path) : Prop where
  start : t.isFile root ∨ t.isDirectory root
  readable : ∀ {ancestors names here name}, t.Visits s root ancestors names here →
    name ∈ t.children here → t.isFile (under root (names ++ [name])) ∨
      t.isDirectory (under root (names ++ [name]))
  once : ∀ {ancestors names here name l}, t.Visits s root ancestors names here →
    name ∈ t.children here → t.locate true (under root (names ++ [name])) = .ok l → l ∉ ancestors

/-- The names lead from the root to a file that is looked for, by directories that are not
excluded. -/
structure Wanted (t : FileTree) (s : Search) (root : Path) (names : List Text) : Prop where
  steps : ∀ name ∈ names, Path.IsName name
  way : ∀ front, front <+: names → front ≠ names →
    t.isDirectory (under root front) ∧ ∀ name ∈ front, name ∉ s.excluded
  file : t.isFile (under root names)
  extension : ∃ ext, Path.extension? (under root names) = some ext ∧
    ∃ e ∈ s.extensions, lower (dropLeading '.' e) = lower ext

theorem not_isFile (h : t.isDirectory path) : t.isFile path ≠ true := by
  intro hfile
  obtain ⟨_, hdir, hentry⟩ := isDirectory_iff.1 h
  obtain ⟨_, _, hl, hc⟩ := isFile_iff.1 hfile
  cases hl.symm.trans hdir
  cases hc.symm.trans hentry

namespace Visits

variable {ancestors : List Location}

theorem located (h : t.Visits s root ancestors names here) :
    t.locate true (under root names) = .ok here ∧ t.entry? here = some .directory := by
  cases h with
  | root hl hdir | down _ _ _ hl hdir => exact ⟨hl, hdir⟩

theorem steps (h : t.Visits s root ancestors names here) (ht : t.WellFormed) :
    ∀ n ∈ names, Path.IsName n := by
  induction h with
  | root => nofun
  | down _ hname _ _ _ ih =>
    exact forall_mem_append.2 ⟨ih, by simpa using isName_of_mem_children ht hname⟩

theorem way (h : t.Visits s root ancestors names here) (hfront : front <+: names) :
    t.isDirectory (under root front) ∧ ∀ n ∈ front, n ∉ s.excluded := by
  induction h generalizing front with
  | root hl hdir =>
    rw [prefix_nil.1 hfront]
    exact ⟨isDirectory_iff.2 ⟨_, hl, hdir⟩, nofun⟩
  | down h _ hkept hl hdir ih =>
    rcases prefix_concat_iff.1 hfront with rfl | hfront
    · exact ⟨isDirectory_iff.2 ⟨_, hl, hdir⟩,
        forall_mem_append.2 ⟨(ih (prefix_refl _)).2, by simpa using hkept⟩⟩
    · exact ih hfront

/-- The directories on the way are different ones of the tree. -/
theorem length_le (h : t.Visits s root ancestors names here) (hs : t.Searchable s root) :
    ancestors.length ≤ t.entries.length + 1 := by
  have hnodup : ancestors.Nodup := by
    induction h with
    | root => exact nodup_singleton _
    | down h hname _ hl _ ih => exact nodup_cons.2 ⟨hs.once h hname hl, ih⟩
  have hdirectory : ∀ l ∈ ancestors, t.entry? l = some .directory := by
    induction h with
    | root _ hdir => simpa using hdir
    | down _ _ _ _ hdir ih => exact forall_mem_cons.2 ⟨hdir, ih (nodup_cons.1 hnodup).2⟩
  have hsubset : ancestors ⊆ [] :: t.locations := by
    intro l hl
    by_cases hnil : l = []
    · exact hnil ▸ mem_cons_self
    · have hmem := mem_locations_of_entry? (hdirectory l hl) hnil
      exact mem_cons_of_mem _ hmem
  simpa [locations] using hnodup.length_le_of_subset hsubset

end Visits

/-- The lists are those of the wanted names with a given beginning, each once. -/
structure Lists (t : FileTree) (s : Search) (root : Path) (front : List Text)
    (lists : List (List Text)) : Prop where
  nodup : lists.Nodup
  mem : ∀ names, names ∈ lists ↔ t.Wanted s root names ∧ front <+: names

theorem Lists.of_file (hsteps : ∀ n ∈ front, Path.IsName n)
    (hway : ∀ dir, dir <+: front → dir ≠ front →
      t.isDirectory (under root dir) ∧ ∀ n ∈ dir, n ∉ s.excluded)
    (hfile : t.isFile (under root front)) :
    ∃ lists, ifWanted s (under root front) = lists.map (under root) ∧
      t.Lists s root front lists := by
  have hend : ∀ names, t.Wanted s root names ∧ front <+: names → names = front := by
    rintro _ ⟨hwanted, more, rfl⟩
    cases more with
    | nil => exact append_nil front
    | cons name more =>
      exact absurd hfile (not_isFile (hwanted.way front (prefix_append _ _) (by simp)).1)
  unfold ifWanted
  split
  · next hext =>
    refine ⟨[front], rfl, by simp, fun names => ⟨?_, fun h => mem_singleton.2 (hend names h)⟩⟩
    intro hmem
    rw [mem_singleton.1 hmem]
    exact ⟨⟨hsteps, hway, hfile, hasExtension_iff.1 hext⟩, prefix_refl front⟩
  · next hext =>
    refine ⟨[], rfl, .nil, fun names => ⟨nofun, fun h => absurd ?_ hext⟩⟩
    rw [← hend names h]
    exact hasExtension_iff.2 h.1.extension

theorem Lists.of_excluded (hname : name ∈ s.excluded)
    (hdir : t.isDirectory (under root (names ++ [name]))) :
    t.Lists s root (names ++ [name]) [] := by
  refine ⟨.nil, fun names => ⟨nofun, ?_⟩⟩
  rintro ⟨hwanted, more, rfl⟩
  cases more with
  | nil => exact absurd (append_nil (_ ++ [name]) ▸ hwanted.file) (not_isFile hdir)
  | cons n more =>
    exact absurd hname ((hwanted.way _ (prefix_append _ _) (by simp)).2 name (by simp))

theorem Lists.of_children (ht : t.WellFormed) (hroot : root ≠ [])
    (hvisits : t.Visits s root ancestors names here) {lists : Text → List (List Text)}
    (h : ∀ name ∈ t.children here, t.Lists s root (names ++ [name]) (lists name)) :
    t.Lists s root names ((t.children here).flatMap lists) where
  nodup := by
    refine nodup_flatMap.2 ⟨fun name hname => (h name hname).nodup, ?_⟩
    refine (nodup_children ht here).imp_of_mem fun {a b} ha hb hne w hw hw' => hne ?_
    -- two beginnings of one list, of the same length
    have hsame := prefix_of_prefix_length_le (((h a ha).mem w).1 hw).2 (((h b hb).mem w).1 hw').2
      (by simp)
    simpa using hsame.eq_of_length (by simp)
  mem w := by
    rw [mem_flatMap]
    constructor
    · rintro ⟨name, hname, hw⟩
      obtain ⟨hwanted, hfront⟩ := ((h name hname).mem w).1 hw
      exact ⟨hwanted, (prefix_append names [name]).trans hfront⟩
    · rintro ⟨hwanted, more, rfl⟩
      cases more with
      | nil =>
        rw [append_nil] at hwanted
        exact absurd hwanted.file (not_isFile (hvisits.way (prefix_refl _)).1)
      | cons name more =>
        have hname : name ∈ t.children here := by
          obtain ⟨m, hm⟩ : ∃ m, t.locate true (under root (names ++ [name])) = .ok m := by
            cases more with
            | nil =>
              obtain ⟨m, _, hm, _⟩ := isFile_iff.1 hwanted.file
              exact ⟨m, hm⟩
            | cons next more =>
              obtain ⟨m, hm, _⟩ :=
                isDirectory_iff.1 (hwanted.way (names ++ [name]) (by simp) (by simp)).1
              exact ⟨m, hm⟩
          rw [under_append] at hm
          obtain ⟨_, _, hhere, hentry, _⟩ := exists_of_locate_append
            (hwanted.steps name (by simp)) (components_under hroot (hvisits.steps ht)).1 hm
          cases hvisits.located.1.symm.trans hhere
          exact mem_children hentry
        exact ⟨name, hname, ((h name hname).mem _).2 ⟨hwanted, more, by simp⟩⟩

/-- What a search does with each name in a directory. -/
theorem search_succ (ht : t.WellFormed) (hpath : t.locate true path = .ok here)
    (hdir : t.entry? here = some .directory) (depth : Nat) (ancestors : List Location) :
    ∃ f : Text → Except Failure (List Path),
      t.search s (depth + 1) ancestors path here =
        ((t.children here).mapM f).map List.flatten ∧
      ∀ name ∈ t.children here, ∀ l, t.locate true (Path.append path name) = .ok l →
        (t.entry? l ≠ some .directory → f name = .ok (ifWanted s (Path.append path name))) ∧
        (t.entry? l = some .directory → l ∉ ancestors → f name =
          if s.excluded.contains name then .ok []
          else t.search s depth (l :: ancestors) (Path.append path name) l) := by
  refine ⟨_, rfl, fun name hname l hl => ?_⟩
  obtain ⟨e, hentry⟩ := exists_entry_of_mem_children hname
  have hplain : (∀ target, e ≠ .link target) → here ++ [name] = l := fun hlink => Except.ok.inj
    ((locate_append_name hpath hdir (isName_of_mem_children ht hname) hentry hlink).symm.trans hl)
  simp only [hentry]
  cases e with
  | file | directory =>
    obtain rfl := hplain (by simp)
    simp [hentry]
  | link target =>
    simp only [hl]
    constructor
    · intro hfile
      simp [hfile]
    · intro hdir hfresh
      simp [hdir, hfresh]

theorem mapM_eq_ok {ε α β : Type} {f : α → Except ε β} {g : α → β} {xs : List α}
    (h : ∀ x ∈ xs, f x = .ok (g x)) : xs.mapM f = .ok (xs.map g) := by
  induction xs with
  | nil => rfl
  | cons x xs ih =>
    rw [forall_mem_cons] at h
    rw [mapM_cons, h.1, ih h.2]
    rfl

theorem exists_root (h : t.isFile root ∨ t.isDirectory root) : ∃ l, t.locate true root = .ok l := by
  rcases h with hfile | hdirectory
  · obtain ⟨l, _, hl, _⟩ := isFile_iff.1 hfile
    exact ⟨l, hl⟩
  · obtain ⟨l, hl, _⟩ := isDirectory_iff.1 hdirectory
    exact ⟨l, hl⟩

theorem Searchable.root_ne_nil (hs : t.Searchable s root) : root ≠ [] := by
  obtain ⟨l, hl⟩ := exists_root hs.start
  exact ne_nil_of_locate hl

section

variable (ht : t.WellFormed) (hs : t.Searchable s root)

include ht hs

/-- A search below a directory that it comes to. -/
theorem exists_search {depth : Nat} (hvisits : t.Visits s root ancestors names here)
    (hdepth : t.entries.length + 1 < ancestors.length + depth) :
    ∃ lists, t.search s depth ancestors (under root names) here = .ok (lists.map (under root)) ∧
      t.Lists s root names lists := by
  induction depth generalizing ancestors names here with
  | zero =>
    have hlength := hvisits.length_le hs
    omega
  | succ depth ih =>
    obtain ⟨f, hsearch, hf⟩ := search_succ (s := s) ht hvisits.located.1 hvisits.located.2 depth
      ancestors
    have hchild : ∀ name ∈ t.children here, ∃ lists, f name = .ok (lists.map (under root)) ∧
        t.Lists s root (names ++ [name]) lists := by
      intro name hname
      have hunder : under root (names ++ [name]) = Path.append (under root names) name :=
        under_append root names [name]
      rcases hs.readable hvisits hname with hfile | hdirectory
      · obtain ⟨l, c, hl, hc⟩ := isFile_iff.1 hfile
        have hsteps : ∀ n ∈ names ++ [name], Path.IsName n :=
          forall_mem_append.2 ⟨hvisits.steps ht, by simpa using isName_of_mem_children ht hname⟩
        rw [(hf name hname l (hunder ▸ hl)).1 (by simp [hc]), ← hunder]
        obtain ⟨lists, heq, hlists⟩ := Lists.of_file hsteps
          (fun dir hdir hne => hvisits.way ((prefix_concat_iff.1 hdir).resolve_left hne)) hfile
        exact ⟨lists, congrArg _ heq, hlists⟩
      · obtain ⟨l, hl, hdir⟩ := isDirectory_iff.1 hdirectory
        rw [(hf name hname l (hunder ▸ hl)).2 hdir (hs.once hvisits hname hl), ← hunder]
        split
        · next hexcluded =>
          exact ⟨[], rfl, .of_excluded (by simpa using hexcluded) hdirectory⟩
        · next hexcluded =>
          refine ih (.down hvisits hname (by simpa using hexcluded) hl hdir) ?_
          rw [length_cons]
          omega
    choose! lists hok hlists using hchild
    refine ⟨_, ?_, .of_children ht hs.root_ne_nil hvisits hlists⟩
    rw [hsearch, mapM_eq_ok hok, map_flatMap]
    rfl

theorem exists_discover : ∃ found lists, t.discover s root = .ok found ∧
    found.Pairwise (fun p q => Path.le p q) ∧ found.Perm (lists.map (under root)) ∧
    t.Lists s root [] lists := by
  unfold discover
  rcases hs.start with hfile | hdirectory
  · obtain ⟨l, c, hl, hc⟩ := isFile_iff.1 hfile
    obtain ⟨lists, heq, hlists⟩ := @Lists.of_file t s root [] nofun
      (fun dir hdir hne => absurd (prefix_nil.1 hdir) hne) hfile
    rw [hl]
    exact ⟨_, lists, by simp [hc], pairwise_ifWanted s root, .of_eq heq, hlists⟩
  · obtain ⟨l, hl, hdir⟩ := isDirectory_iff.1 hdirectory
    have hdepth : t.entries.length + 1 < [l].length + t.searchDepth := by
      have hsquare := Nat.le_mul_self (t.entries.length + 1)
      rw [length_singleton, searchDepth]
      omega
    obtain ⟨lists, hsearch, hlists⟩ := exists_search ht hs (.root hl hdir) hdepth
    rw [hl]
    refine ⟨_, lists, ?_, pairwise_mergeSort Path.le_trans Path.le_total _, mergeSort_perm _ _,
      hlists⟩
    simp only [hdir, beq_self_eq_true, if_true]
    rw [show t.search s t.searchDepth [l] root l = _ from hsearch]
    rfl

/-- A search returns, in the order of paths and each of them once, exactly the paths of the files
that it looks for: those under its root with one of the extensions, whatever the case of its
letters, where no directory on the way has an excluded name. -/
theorem discover_iff_wanted :
    ∃ found, t.discover s root = .ok found ∧
      found.Pairwise (fun p q => Path.compare p q = .lt) ∧
      ∀ p, p ∈ found ↔ ∃ names, p = under root names ∧ t.Wanted s root names := by
  obtain ⟨found, lists, hfound, hsorted, hperm, hlists⟩ := exists_discover ht hs
  refine ⟨found, hfound, ?_, fun p => ?_⟩
  · have hapart : found.Pairwise fun p q => Path.compare p q ≠ .eq := by
      refine (hperm.pairwise_iff fun hne => Path.compare_ne_eq_symm hne).2 (pairwise_map.2 ?_)
      refine hlists.nodup.imp_of_mem fun {a b} ha hb hne heq => hne ?_
      exact eq_of_components_under hs.root_ne_nil ((hlists.mem a).1 ha).1.steps
        ((hlists.mem b).1 hb).1.steps (Path.components_eq_of_compare heq)
    refine (hsorted.and hapart).imp fun {p q} h => ?_
    have hle : Path.compare p q ≠ .gt := by simpa [Path.le] using h.1
    cases hcompare : Path.compare p q with
    | lt => rfl
    | eq => exact absurd hcompare h.2
    | gt => exact absurd hcompare hle
  · rw [hperm.mem_iff, mem_map]
    constructor
    · rintro ⟨names, hnames, rfl⟩
      exact ⟨names, rfl, ((hlists.mem names).1 hnames).1⟩
    · rintro ⟨names, rfl, hwanted⟩
      exact ⟨names, (hlists.mem names).2 ⟨hwanted, nil_prefix⟩, rfl⟩

end

theorem Searchable.of_visits (visits : List (List Location × List Text × Location))
    (hstart : t.isFile root ∨ t.isDirectory root)
    (hroot : ∀ l ∈ (t.locate true root).toOption, ([l], [], l) ∈ visits)
    (hreadable : ∀ v ∈ visits, ∀ name ∈ t.children v.2.2,
      t.isFile (under root (v.2.1 ++ [name])) ∨
        t.isDirectory (under root (v.2.1 ++ [name])))
    (hnext : ∀ v ∈ visits, ∀ name ∈ t.children v.2.2,
      ∀ l ∈ (t.locate true (under root (v.2.1 ++ [name]))).toOption, l ∉ v.1 ∧
        (name ∈ s.excluded ∨ t.entry? l ≠ some .directory ∨
          (l :: v.1, v.2.1 ++ [name], l) ∈ visits)) : t.Searchable s root := by
  have hvisits : ∀ {ancestors names here}, t.Visits s root ancestors names here →
      (ancestors, names, here) ∈ visits := by
    intro ancestors names here hv
    induction hv with
    | root hl => exact hroot _ (by rw [hl]; rfl)
    | down _ hname hkept hl hdir ih =>
      have hcases := (hnext _ ih _ hname _ (by rw [hl]; rfl)).2
      exact (hcases.resolve_left hkept).resolve_left (not_not_intro hdir)
  exact ⟨hstart, fun hv => hreadable _ (hvisits hv) _, fun hv hname hl =>
    (hnext _ (hvisits hv) _ hname _ (by rw [hl]; rfl)).1⟩

/-- A search that comes to files in the order of paths gives them as they come. -/
theorem discover_of_sorted {l : Location} {found : List Path} (hroot : t.locate true root = .ok l)
    (hdir : t.entry? l = some .directory)
    (hfound : t.search s t.searchDepth [l] root l = .ok found)
    (hsorted : found.Pairwise (Path.le · ·)) : t.discover s root = .ok found := by
  simp [discover, hroot, hdir, hfound, Except.map, mergeSort_of_pairwise hsorted]

/-- A directory with a link out of it, and in it one of its own name. -/
def linkedTree : FileTree :=
  (((({} : FileTree).putDeep
    ["temp".toList, "temp".toList, "x.php".toList] (.file (.text []))).putDeep
    ["temp".toList, "a.PHP".toList] (.file (.text []))).putDeep
    ["lib".toList, "b.php".toList] (.file (.text []))).putDeep
    ["temp".toList, "use".toList] (.link "../lib".toList)

def linkedSearch : Search where
  extensions := [".php".toList]
  excluded := ["temp".toList]

/-- The directory that the search starts from is not left out, and the link is followed. -/
theorem discover_iff_wanted_linked :
    linkedTree.WellFormed ∧ linkedTree.Searchable linkedSearch "temp".toList ∧
    linkedTree.discover linkedSearch "temp".toList =
      .ok ["temp/a.PHP".toList, "temp/use/b.php".toList] ∧
    ∀ names, linkedTree.Wanted linkedSearch "temp".toList names →
      under "temp".toList names ∈ ["temp/a.PHP".toList, "temp/use/b.php".toList] := by
  have ht : linkedTree.WellFormed := ⟨by decide +kernel, by decide +kernel⟩
  have hs : linkedTree.Searchable linkedSearch "temp".toList :=
    .of_visits [([["temp".toList]], [], ["temp".toList]),
      ([["lib".toList], ["temp".toList]], ["use".toList], ["lib".toList])]
      (by decide +kernel) (by decide +kernel) (by decide +kernel) (by decide +kernel)
  obtain ⟨found, hfound, _, hmem⟩ := discover_iff_wanted ht hs
  have hpaths : linkedTree.discover linkedSearch "temp".toList =
      .ok ["temp/a.PHP".toList, "temp/use/b.php".toList] :=
    discover_of_sorted (l := ["temp".toList]) rfl rfl rfl (by decide)
  cases hpaths.symm.trans hfound
  exact ⟨ht, hs, hpaths, fun names hnames => (hmem _).2 ⟨names, rfl, hnames⟩⟩

/-! ## Trees without links -/

/-- Paths that lead to places at or under a location, no two of them to the same one. -/
structure FoundUnder (t : FileTree) (l : Location) (found : List Path) : Prop where
  under : ∀ p ∈ found, ∃ m, t.locate true p = .ok m ∧ l <+: m
  apart : found.Pairwise fun p q => t.locate true p ≠ t.locate true q

theorem FoundUnder.perm {found' : List Path} (h : FoundUnder t l found)
    (hperm : found'.Perm found) : FoundUnder t l found' where
  under p hp := h.under p (hperm.mem_iff.1 hp)
  apart := (hperm.pairwise_iff fun hne => hne.symm).2 h.apart

section

variable (hlinks : t.Linkless)

include hlinks

theorem Linkless.location (hroot : t.locate true root = .ok l)
    (hsteps : ∀ name ∈ names, Path.IsName name) (h : t.locate true (under root names) = .ok m) :
    m = l ++ names := by
  induction names using reverseRecOn generalizing m with
  | nil =>
    cases hroot.symm.trans h
    exact (append_nil l).symm
  | append_singleton names name ih =>
    rw [forall_mem_append] at hsteps
    rw [under_append] at h
    obtain ⟨here, e, hhere, hentry, hm⟩ := exists_of_locate_append
      (hsteps.2 name (mem_singleton_self name))
      (components_under (ne_nil_of_locate hroot) hsteps.1).1 h
    rw [hm fun target heq => hlinks _ target (heq ▸ hentry), ih hsteps.1 hhere, append_assoc]

theorem Linkless.locate_child (ht : t.WellFormed) (hvisits : t.Visits s root ancestors names here)
    (hname : name ∈ t.children here) :
    t.locate true (under root (names ++ [name])) = .ok (here ++ [name]) := by
  obtain ⟨e, hentry⟩ := exists_entry_of_mem_children hname
  rw [under_append]
  exact locate_append_name hvisits.located.1 hvisits.located.2 (isName_of_mem_children ht hname)
    hentry fun target heq => hlinks _ target (heq ▸ hentry)

theorem Linkless.searchable (ht : t.WellFormed)
    (hstart : t.isFile root ∨ t.isDirectory root) : t.Searchable s root where
  start := hstart
  readable hvisits hname := by
    obtain ⟨e, hentry⟩ := exists_entry_of_mem_children hname
    have hl := hlinks.locate_child ht hvisits hname
    cases e with
    | file c => exact .inl (isFile_iff.2 ⟨_, c, hl, hentry⟩)
    | directory => exact .inr (isDirectory_iff.2 ⟨_, hl, hentry⟩)
    | link target => exact absurd hentry (hlinks _ _)
  once {ancestors names here name l} hvisits hname hl hmem := by
    cases (hlinks.locate_child ht hvisits hname).symm.trans hl
    -- the search only goes down
    have habove : ∀ m ∈ ancestors, m <+: here := by
      clear hmem hname hl
      induction hvisits with
      | root => simp
      | down h hname _ hl _ ih =>
        cases (hlinks.locate_child ht h hname).symm.trans hl
        exact forall_mem_cons.2 ⟨prefix_refl _, fun m hm => (ih m hm).trans (prefix_append _ _)⟩
    have hlength := (habove _ hmem).length_le
    rw [length_append, length_singleton] at hlength
    omega

end

/-- The paths that a search returns are in order, and no two of them lead to the same place. -/
theorem discover_found (ht : t.WellFormed) (hlinks : t.Linkless)
    (h : t.discover s root = .ok found) :
    FoundUnder t [] found ∧ found.Pairwise fun p q => Path.le p q := by
  by_cases hstart : t.isFile root ∨ t.isDirectory root
  · obtain ⟨_, lists, hfound, hsorted, hperm, hlists⟩ :=
      exists_discover ht (hlinks.searchable ht hstart)
    cases h.symm.trans hfound
    obtain ⟨origin, horigin⟩ := exists_root hstart
    have hlocated : ∀ names ∈ lists, t.locate true (under root names) = .ok (origin ++ names) := by
      intro names hnames
      have hwanted := ((hlists.mem names).1 hnames).1
      obtain ⟨m, _, hm, _⟩ := isFile_iff.1 hwanted.file
      rw [hm, hlinks.location horigin hwanted.steps hm]
    refine ⟨.perm ⟨fun p hp => ?_, pairwise_map.2 ?_⟩ hperm, hsorted⟩
    · obtain ⟨names, hnames, rfl⟩ := mem_map.1 hp
      exact ⟨_, hlocated names hnames, nil_prefix⟩
    · refine hlists.nodup.imp_of_mem fun {a b} ha hb hne heq => hne ?_
      rw [hlocated a ha, hlocated b hb] at heq
      exact append_cancel_left (Except.ok.inj heq)
  · unfold discover at h
    split at h
    · cases h
    next l hl =>
    have hdir : t.entry? l ≠ some .directory := fun hdir =>
      hstart (.inr (isDirectory_iff.2 ⟨l, hl, hdir⟩))
    rw [if_neg (by simpa using hdir)] at h
    cases h
    refine ⟨⟨fun p hp => ⟨l, ?_, nil_prefix⟩, pairwise_ifWanted s root⟩, pairwise_ifWanted s root⟩
    obtain rfl : p = root := by
      unfold ifWanted at hp
      split at hp
      · exact mem_singleton.1 hp
      · cases hp
    exact hl

end LegacyPhp.FileTree
