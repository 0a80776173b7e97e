import LegacyPhp.Failure
import LegacyPhp.FileTree.Basic

/-!
# Access by path

`walk` follows a path name by name. Links on the way are followed, and the last name is followed too
unless the caller wants the link itself; after `maxLinks` links it gives up. A name behind a file, a
trailing separator included, needs a directory there. On top of it stand the operations that files
are read and written by.
-/

namespace LegacyPhp.FileTree

open Text

variable {t : FileTree} {l here m : Location} {follow : Bool} {names : List Text}

/-- Where a path leads. -/
inductive Place where
  | occupied (location : Location)
  /-- Nothing stands there, but its directory exists. -/
  | vacant (location : Location)
  deriving DecidableEq, Repr

/-- The greatest number of links followed on one path. -/
def maxLinks : Nat := 40

/-- The location that a path starts from, `here` being where relative ones do. -/
def startOf (here : Location) (path : Path) : Location := if Path.isAbsolute path then [] else here

/-- Follows names from the directory `here`, links being followed by `onLink`. -/
def walkWith (t : FileTree) (follow : Bool) (onLink : Location → List Text → Except IoFault Place)
    (here : Location) : List Text → Except IoFault Place
  | [] => .ok (.occupied here)
  | name :: rest =>
    if Path.isIdle name then walkWith t follow onLink here rest
    else if name == ['.', '.'] then walkWith t follow onLink here.dropLast rest
    else
      match t.entry? (here ++ [name]) with
      | none => if rest.isEmpty then .ok (.vacant (here ++ [name])) else .error .notFound
      | some .directory => walkWith t follow onLink (here ++ [name]) rest
      | some (.file _) =>
        if rest.isEmpty then .ok (.occupied (here ++ [name])) else .error .notDirectory
      | some (.link target) =>
        if rest.isEmpty && !follow then .ok (.occupied (here ++ [name]))
        else onLink (startOf here target) (splitOn '/' target ++ rest)

/-- Follows names from the directory `here`, and no more than `links` links. -/
def walk (t : FileTree) (follow : Bool) :
    (links : Nat) → (here : Location) → List Text → Except IoFault Place
  | 0 => walkWith t follow fun _ _ => .error .tooManyLinks
  | links + 1 => walkWith t follow (walk t follow links)

/-- Where a path leads from the working directory. -/
def place (t : FileTree) (follow : Bool) (path : Path) : Except IoFault Place :=
  if path.isEmpty then .error .notFound
  else walk t follow maxLinks (startOf t.workDir path) (splitOn '/' path)

/-- The location of something that exists. -/
def locate (t : FileTree) (follow : Bool) (path : Path) : Except IoFault Location :=
  match t.place follow path with
  | .ok (.occupied l) => .ok l
  | .ok (.vacant _) => .error .notFound
  | .error e => .error e

/-- The absolute path without links, idle names and steps up. -/
def canonical (t : FileTree) (path : Path) : Except IoFault Path :=
  (t.locate true path).map pathOf

/-! ## The places of a tree -/

/-- A location and those above it, up to the root. -/
def withAncestors (l : Location) : List Location := (List.range (l.length + 1)).map l.take

/-- The locations that a path can lead to: those of the entries, the working directory, and whatever
is above them. -/
def places (t : FileTree) : List Location :=
  (t.workDir :: t.entries.map (·.1)).flatMap withAncestors

theorem mem_withAncestors : m ∈ withAncestors l ↔ m <+: l := by
  simp only [withAncestors, List.mem_map, List.mem_range]
  constructor
  · rintro ⟨n, _, rfl⟩
    exact List.take_prefix n l
  · intro h
    refine ⟨m.length, Nat.lt_succ_of_le h.length_le, ?_⟩
    exact (List.prefix_iff_eq_take.1 h).symm

theorem mem_places_of_isPrefix (h : l ∈ t.places) (hm : m <+: l) : m ∈ t.places := by
  obtain ⟨base, hbase, hl⟩ := List.mem_flatMap.1 h
  exact List.mem_flatMap.2
    ⟨base, hbase, mem_withAncestors.2 (hm.trans (mem_withAncestors.1 hl))⟩

theorem workDir_mem_places (t : FileTree) : t.workDir ∈ t.places :=
  List.mem_flatMap.2 ⟨_, List.mem_cons_self, mem_withAncestors.2 (List.prefix_refl _)⟩

theorem nil_mem_places (t : FileTree) : [] ∈ t.places :=
  mem_places_of_isPrefix t.workDir_mem_places (List.nil_prefix)

theorem mem_places_of_entry {e : Entry} (h : t.entry? l = some e) : l ∈ t.places := by
  unfold entry? at h
  split at h
  · next hl =>
    rw [List.isEmpty_iff.1 hl]
    exact t.nil_mem_places
  · have hkey : l ∈ t.entries.map (·.1) := by
      obtain ⟨before, after, hsplit, _⟩ := List.lookup_eq_some_iff.1 h
      rw [hsplit]
      simp
    exact List.mem_flatMap.2
      ⟨l, List.mem_cons_of_mem _ hkey, mem_withAncestors.2 (List.prefix_refl _)⟩

theorem mem_places_of_startOf (hhere : here ∈ t.places) (path : Path) :
    startOf here path ∈ t.places := by
  unfold startOf
  split
  · exact t.nil_mem_places
  · exact hhere

theorem mem_places_of_walkWith {onLink : Location → List Text → Except IoFault Place}
    (hlink : ∀ here names, here ∈ t.places → onLink here names = .ok (.occupied l) → l ∈ t.places)
    (hhere : here ∈ t.places) (h : walkWith t follow onLink here names = .ok (.occupied l)) :
    l ∈ t.places := by
  fun_induction walkWith t follow onLink here names with
  | case1 => cases h; exact hhere
  | case2 => rename_i ih; exact ih hhere h
  | case3 => rename_i ih; exact ih (mem_places_of_isPrefix hhere (List.dropLast_prefix _)) h
  | case4 => cases h
  | case5 => cases h
  | case6 => rename_i hentry ih; exact ih (mem_places_of_entry hentry) h
  | case7 => rename_i hentry _; cases h; exact mem_places_of_entry hentry
  | case8 => cases h
  | case9 => rename_i hentry _; cases h; exact mem_places_of_entry hentry
  | case10 => exact hlink _ _ (mem_places_of_startOf hhere _) h

/-- Names lead from one place of the tree to another. -/
theorem mem_places_of_walk {links : Nat} (hhere : here ∈ t.places)
    (h : walk t follow links here names = .ok (.occupied l)) : l ∈ t.places := by
  induction links generalizing here names with
  | zero =>
    rw [walk] at h
    refine mem_places_of_walkWith (fun _ _ _ hlink => ?_) hhere h
    cases hlink
  | succ links ih =>
    rw [walk] at h
    exact mem_places_of_walkWith (fun _ _ hhere' hlink => ih hhere' hlink) hhere h

/-- A path that leads somewhere leads to a place of the tree. -/
theorem canonical_mem_places {path c : Path} (h : t.canonical path = .ok c) :
    c ∈ t.places.map pathOf := by
  unfold canonical locate place at h
  split at h
  · next l hl =>
    cases h
    refine List.mem_map_of_mem ?_
    split at hl
    · cases hl
    · exact mem_places_of_walk (mem_places_of_startOf t.workDir_mem_places path) hl
  · cases h
  · cases h

/-! ## Files -/

/-- Whether a path leads to a file. -/
def isFile (t : FileTree) (path : Path) : Bool :=
  match t.locate true path with
  | .ok l => match t.entry? l with
    | some (.file _) => true
    | _ => false
  | .error _ => false

/-- Whether a path leads to a directory. -/
def isDirectory (t : FileTree) (path : Path) : Bool :=
  match t.locate true path with
  | .ok l => t.entry? l == some .directory
  | .error _ => false

/-- The text of a file. -/
def read (t : FileTree) (path : Path) : Except IoFault Text :=
  match t.locate true path with
  | .error e => .error e
  | .ok l =>
    match t.entry? l with
    | some (.file (.text text)) => .ok text
    | some (.file (.binary _)) => .error .notUtf8
    | some .directory => .error .isDirectory
    | _ => .error .notFound

/-- Writes a file. A missing one is made if its directory exists. -/
def write (t : FileTree) (path : Path) (text : Text) : Except IoFault FileTree :=
  match t.place true path with
  | .error e => .error e
  | .ok (.vacant l) => .ok (t.put l (.file (.text text)))
  | .ok (.occupied l) =>
    if t.entry? l == some .directory then .error .isDirectory
    else .ok (t.put l (.file (.text text)))

/-- Removes a file or a link. -/
def remove (t : FileTree) (path : Path) : Except IoFault FileTree :=
  match t.locate false path with
  | .error e => .error e
  | .ok l => if t.entry? l == some .directory then .error .isDirectory else .ok (t.erase l)

/-- Makes one directory. -/
def makeDirectory (t : FileTree) (path : Path) : Except IoFault FileTree :=
  match t.place false path with
  | .error e => .error e
  | .ok (.occupied _) => .error .alreadyExists
  | .ok (.vacant l) => .ok (t.put l .directory)

/-- Makes a directory and those above it that are missing, at most `depth` of them. -/
def makeDirectories (t : FileTree) : (depth : Nat) → Path → Except IoFault FileTree
  | 0, _ => .ok t
  | depth + 1, path =>
    if path.isEmpty then .ok t
    else
      match t.makeDirectory path with
      | .ok t => .ok t
      | .error .notFound =>
        match Path.parent? path with
        | none => .error .notFound
        | some above => do
          let t ← t.makeDirectories depth above
          match t.makeDirectory path with
          | .ok t => .ok t
          | .error e => if t.isDirectory path then .ok t else .error e
      | .error e => if t.isDirectory path then .ok t else .error e

end LegacyPhp.FileTree
