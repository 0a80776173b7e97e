import LegacyPhp.Proofs.Path

/-!
# The steps of a path and of its directory

A path is its opening, a root or a dot, and the steps behind it. `components_append` says that
taking a path from a directory puts the steps one behind the other, and `directory_cases` what the
directory of a file can be: the lone dot, a path from the root, or a path that goes down at least
one step; a file without a directory part is the exception, its directory is the empty text.
-/

namespace LegacyPhp.Path

open Text
open List hiding splitOn

variable {path : Path} {names : List Text}

/-- The steps behind the opening. -/
def steps (path : Path) : List Component := ((splitOn '/' path).filter (!isIdle ·)).map ofName

theorem steps_append_sep (a b : Path) : steps (a ++ '/' :: b) = steps a ++ steps b := by
  rw [steps, splitOn_append_sep, filter_append, map_append]
  rfl

/-- The root and the dot that open a path are no steps. -/
theorem components_eq (path : Path) :
    components path = ofOpening (opening path).1 ++ steps path := by
  have hsteps : steps (opening path).2 = steps path := by
    unfold opening
    split
    · next rest => exact (steps_append_sep [] rest).symm
    · rfl
    · next rest =>
      have hdot : steps ('.' :: '/' :: rest) = steps ['.'] ++ steps rest :=
        steps_append_sep ['.'] rest
      have hrest : steps ('/' :: rest) = steps [] ++ steps rest := steps_append_sep [] rest
      rw [hdot, hrest]
      rfl
    · rfl
  rw [← hsteps]
  rfl

section

variable {dir : Path}

theorem opening_append_sep (h : dir ≠ []) (rest : Path) :
    (opening (dir ++ '/' :: rest)).1 = (opening dir).1 := by
  obtain ⟨c, dir, rfl⟩ := exists_cons_of_ne_nil h
  by_cases hroot : c = '/'
  · subst hroot; rfl
  by_cases hdot : c = '.'
  · subst hdot
    cases dir with
    | nil => rfl
    | cons d dir =>
      by_cases hd : d = '/'
      · subst hd; rfl
      · simp [opening, hd]
  · simp [opening, hroot, hdot]

theorem components_append_sep (h : dir ≠ []) (rest : Path) :
    components (dir ++ '/' :: rest) = components dir ++ steps rest := by
  rw [components_eq, components_eq, opening_append_sep h, steps_append_sep, append_assoc]

/-- A path taken from a directory goes on with its own steps. -/
theorem components_append (h : dir ≠ []) {rest : Path} (hrest : isAbsolute rest = false) :
    components (append dir rest) = components dir ++ steps rest := by
  unfold append
  rw [hrest, if_neg Bool.false_ne_true]
  split
  · next hend =>
    have hlast : dir.getLast? = some '/' := by simpa [h] using hend
    obtain ⟨front, rfl⟩ := getLast?_eq_some_iff.1 hlast
    rw [append_assoc, singleton_append]
    by_cases hfront : front = []
    · subst hfront
      have hroot : steps ('/' :: rest) = steps [] ++ steps rest := steps_append_sep [] rest
      rw [nil_append, nil_append, components_eq, hroot]
      rfl
    · have hnone : steps [] = [] := rfl
      rw [components_append_sep hfront, components_append_sep hfront, hnone, append_nil]
  · exact components_append_sep h rest

end

theorem root_not_mem_components (h : isAbsolute path = false) : .root ∉ components path := by
  rw [components_eq, mem_append, not_or]
  constructor
  · intro hmem
    unfold opening at hmem
    split at hmem
    · cases h
    · simp [ofOpening] at hmem
    · simp [ofOpening] at hmem
    · simp [ofOpening] at hmem
  · intro hmem
    obtain ⟨name, _, hname⟩ := mem_map.1 hmem
    unfold ofName at hname
    split at hname <;> cases hname

/-! ## The directory of a path -/

theorem join_isPrefix {parts : List Text} (h : parts ≠ []) (sep : Text) (more : List Text) :
    join sep parts <+: join sep (parts ++ more) := by
  induction parts with
  | nil => exact absurd rfl h
  | cons a parts ih =>
    cases parts with
    | nil =>
      cases more with
      | nil => exact ⟨[], by simp⟩
      | cons b more => exact ⟨_, by rw [singleton_append, join_cons_cons, join_singleton]⟩
    | cons b parts =>
      obtain ⟨tail, htail⟩ := ih (cons_ne_nil b parts)
      refine ⟨tail, ?_⟩
      rw [join_cons_cons, cons_append, cons_append, join_cons_cons]
      rw [cons_append] at htail
      rw [← htail]
      simp

theorem steps_join (h : names ≠ []) (hnames : ∀ n ∈ names, '/' ∉ n) :
    steps (join ['/'] names) = (names.filter (!isIdle ·)).map ofName := by
  have hsplit : names.flatMap (splitOn '/') = names := by
    induction names with
    | nil => rfl
    | cons n names ih =>
      rw [flatMap_cons, splitOn_of_not_mem (hnames n mem_cons_self)]
      cases names with
      | nil => rfl
      | cons m names =>
        rw [ih (cons_ne_nil m names) fun x hx => hnames x (mem_cons_of_mem n hx)]
        rfl
  rw [steps, splitOn_join h, hsplit]

theorem dropIdleEnd_spec (names : List Text) : (∃ more, names = dropIdleEnd names ++ more) ∧
      ∀ last, (dropIdleEnd names).getLast? = some last → isIdle last = false := by
  constructor
  · refine ⟨(names.reverse.takeWhile isIdle).reverse, ?_⟩
    rw [dropIdleEnd, ← reverse_append, takeWhile_append_dropWhile, reverse_reverse]
  · intro last hlast
    rw [dropIdleEnd, getLast?_reverse] at hlast
    have hhead := head?_dropWhile_not isIdle names.reverse
    rw [hlast] at hhead
    simpa using hhead

/-- What the directory of a path is made of: the opening, and names with a step at the end. -/
theorem directory_eq (path : Path) : (directory path = ['.'] ∧ (opening path).1 ≠ ['.']) ∨
      (directory path = [] ∧ (opening path).1 = ['.']) ∨
      ∃ names more, directory path = (opening path).1 ++ join ['/'] names ∧
        splitOn '/' (opening path).2 = names ++ more ∧
        ∀ last, names.getLast? = some last → isIdle last = false := by
  unfold directory parent?
  split
  · split
    · next hopen => exact .inr (.inl ⟨rfl, eq_of_beq hopen⟩)
    · next hopen => exact .inl ⟨rfl, by simpa using hopen⟩
  · next last before hbody =>
    obtain ⟨⟨tail, htail⟩, _⟩ := dropIdleEnd_spec (splitOn '/' (opening path).2)
    obtain ⟨⟨more, hmore⟩, hlast⟩ := dropIdleEnd_spec before.reverse
    refine .inr (.inr ⟨_, more ++ last :: tail, rfl, ?_, hlast⟩)
    have hnames : bodyNames path = before.reverse ++ [last] := by
      rw [← reverse_reverse (bodyNames path), hbody, reverse_cons]
    rw [bodyNames] at hnames
    rw [htail, hnames, ← append_assoc, ← hmore]
    simp

theorem opening_of_relative (h : isAbsolute path = false) :
    ((opening path).1 = ['.'] ∧ ∃ names, splitOn '/' (opening path).2 = [] :: names) ∨
      opening path = ([], path) := by
  unfold opening
  split
  · cases h
  · exact .inl ⟨rfl, [], rfl⟩
  · next rest => exact .inl ⟨rfl, splitOn '/' rest, splitOn_append_sep '/' [] rest⟩
  · exact .inr rfl

theorem steps_join_ne_nil (h : names ≠ []) (hnames : ∀ n ∈ names, '/' ∉ n)
    (hlast : ∀ last, names.getLast? = some last → isIdle last = false) :
    steps (join ['/'] names) ≠ [] := by
  rw [steps_join h hnames, ne_eq, map_eq_nil_iff]
  intro hnone
  have hidle := filter_eq_nil_iff.1 hnone _ (getLast_mem h)
  rw [hlast _ (getLast?_eq_some_getLast h)] at hidle
  exact hidle rfl

theorem isAbsolute_iff : isAbsolute path ↔ ∃ rest, path = '/' :: rest := by
  unfold isAbsolute
  split
  · next rest => exact ⟨fun _ => ⟨rest, rfl⟩, fun _ => rfl⟩
  · next hnot => exact ⟨nofun, fun ⟨rest, hrest⟩ => absurd hrest (hnot rest)⟩

theorem isAbsolute_append {dir : Path} (h : dir ≠ []) (rest : Path) :
    isAbsolute (dir ++ rest) = isAbsolute dir := by
  obtain ⟨c, dir, rfl⟩ := exists_cons_of_ne_nil h
  rw [cons_append, Bool.eq_iff_iff, isAbsolute_iff, isAbsolute_iff]
  constructor
  · rintro ⟨tail, htail⟩
    exact ⟨dir, by rw [(cons.inj htail).1]⟩
  · rintro ⟨tail, htail⟩
    exact ⟨dir ++ rest, by rw [(cons.inj htail).1]⟩

/-- Names behind a dot make the lone dot, or go down a step. -/
theorem directory_behind_dot {rest more : List Text} (hsplit : [] :: rest = names ++ more)
    (hnames : ∀ n ∈ names, '/' ∉ n)
    (hlast : ∀ last, names.getLast? = some last → isIdle last = false) :
    names = [] ∨ isAbsolute ('.' :: join ['/'] names) = false ∧
      steps ('.' :: join ['/'] names) ≠ [] := by
  match names with
  | [] => exact .inl rfl
  | [n] =>
    -- the only name is the empty one behind the dot, and that is no step
    obtain rfl : [] = n := (cons.inj hsplit).1
    cases hlast [] rfl
  | n :: m :: names =>
    obtain rfl : [] = n := (cons.inj hsplit).1
    have hsteps : steps (join ['/'] (m :: names)) ≠ [] := by
      refine steps_join_ne_nil (cons_ne_nil m names)
        (fun x hx => hnames x (mem_cons_of_mem _ hx)) fun last hget => hlast last ?_
      rwa [getLast?_cons_cons]
    rw [join_cons_cons, nil_append]
    refine .inr ⟨rfl, fun hnone => hsteps ?_⟩
    have happend := steps_append_sep ['.'] (join ['/'] (m :: names))
    exact (append_eq_nil_iff.1 (happend.symm.trans hnone)).2

/-- The directory of a path that does not start at the root is the lone dot, or the empty text, or
goes down at least one step. That of a path from the root starts there, or is the lone dot for the
root itself. -/
theorem directory_cases (path : Path) : directory path = ['.'] ∨
      (isAbsolute path ∧ isAbsolute (directory path)) ∨
      (isAbsolute path = false ∧
        (directory path = [] ∨
          isAbsolute (directory path) = false ∧ steps (directory path) ≠ [])) := by
  cases habsolute : isAbsolute path with
  | true =>
    obtain ⟨rest, rfl⟩ := isAbsolute_iff.1 habsolute
    rcases directory_eq ('/' :: rest) with ⟨hdot, _⟩ | ⟨_, hopen⟩ | ⟨names, more, hdir, _, _⟩
    · exact .inl hdot
    · cases hopen
    · exact .inr (.inl ⟨rfl, by rw [hdir]; rfl⟩)
  | false =>
    rcases directory_eq path with ⟨hdot, _⟩ | ⟨hempty, _⟩ | ⟨names, more, hdir, hsplit, hlast⟩
    · exact .inl hdot
    · exact .inr (.inr ⟨rfl, .inl hempty⟩)
    have hnames : ∀ n ∈ names, '/' ∉ n := fun n hn =>
      not_mem_of_mem_splitOn (hsplit ▸ mem_append_left more hn)
    rcases opening_of_relative habsolute with ⟨hopen, rest, hrest⟩ | hopen
    · rw [hopen] at hdir
      rw [hrest] at hsplit
      rcases directory_behind_dot hsplit hnames hlast with rfl | hdown
      · exact .inl hdir
      · exact .inr (.inr ⟨rfl, .inr (by rw [hdir]; exact hdown)⟩)
    · rw [hopen, nil_append] at hdir
      rw [hopen] at hsplit
      by_cases hnone : names = []
      · subst hnone
        exact .inr (.inr ⟨rfl, .inl hdir⟩)
      · have hfront : join ['/'] names <+: path := by
          have hwhole := join_isPrefix hnone ['/'] more
          rwa [← hsplit, join_splitOn] at hwhole
        have hsteps := steps_join_ne_nil hnone hnames hlast
        rw [hdir]
        refine .inr (.inr ⟨rfl, .inr ⟨?_, hsteps⟩⟩)
        obtain ⟨tail, rfl⟩ := hfront
        rwa [isAbsolute_append fun hempty => hsteps (by rw [hempty]; rfl)] at habsolute

end LegacyPhp.Path
