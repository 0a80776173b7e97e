import LegacyPhp.ConvertTree
import LegacyPhp.Proofs.FileTree.Discovery
import LegacyPhp.Proofs.Lossless
import Mathlib.Data.List.Pairwise
import Mathlib.Data.List.Perm.Basic

/-!
# The files of a tree can be converted in any order

The conversion of a file reads that file and amends it, and nothing else. A `FileJob` holds what it
depends on: the place that the path leads to, the text there and what the text becomes. In a tree
without links a job stays the same when another one is done (`FileJob.Stands.done`), so a whole run
does to the tree what its jobs do one by one (`convertFiles_eq`), and since amendments at different
places commute the order of the jobs makes no difference (`doAll_perm`). What is found by a search
lies at different places, so all of this holds for the conversion of a tree.
-/

namespace LegacyPhp

open LegacyPhp.FileTree List

variable {l : Location} {o : ConvertOptions} {t : FileTree} {jobs : List FileJob} {p : Path}

/-- The conversion of one file. -/
structure FileJob where
  path : Path
  location : Location
  source : Text
  outcome : Outcome

namespace FileJob

/-- What the conversion reports. -/
def action (j : FileJob) : FileAction :=
  match j.outcome with
  | .dropped => .deleted
  | .converted text _ => if text = j.source then .unchanged else .written

/-- What it leaves in place of the file. -/
def entry? (j : FileJob) : Option Entry :=
  match j.outcome with
  | .dropped => none
  | .converted text _ => some (.file (.text text))

/-- The tree after the conversion. -/
def done (t : FileTree) (j : FileJob) : FileTree := t.amend j.location j.entry?

/-- The tree after several conversions. -/
def doAll (jobs : List FileJob) (t : FileTree) : FileTree := jobs.foldl done t

/-- The job is one that the tree gives. -/
structure Stands (o : ConvertOptions) (t : FileTree) (j : FileJob) : Prop where
  located : t.locate true j.path = .ok j.location
  holds : t.entry? j.location = some (.file (.text j.source))
  converts : convert o j.path j.source = .ok j.outcome

variable {j k : FileJob}

namespace Stands

theorem location_ne_nil (h : j.Stands o t) : j.location ≠ [] := location_ne_nil_of_file h.holds

theorem mem_locations (h : j.Stands o t) : j.location ∈ t.locations :=
  mem_locations_of_entry? h.holds h.location_ne_nil

theorem linkless_done (h : j.Stands o t) (hlinks : t.Linkless) : (done t j).Linkless := by
  refine hlinks.amend h.location_ne_nil h.mem_locations fun target => ?_
  unfold entry?
  split <;> simp

theorem done (h : j.Stands o t) (hk : k.Stands o t) (hlinks : t.Linkless)
    (hne : j.location ≠ k.location) : j.Stands o (done t k) where
  located := by
    refine locate_of_directories hlinks rfl (fun m hm => ?_) (entry?_amend_of_ne hne) h.located
    have hm' : m ≠ k.location := by
      rintro rfl
      rw [hk.holds] at hm
      cases hm
    exact (entry?_amend_of_ne hm').trans hm
  holds := (entry?_amend_of_ne hne).trans h.holds
  converts := h.converts

theorem entry?_done (h : j.Stands o t) : FileTree.entry? (FileJob.done t j) j.location = j.entry? :=
  entry?_amend_self h.location_ne_nil h.mem_locations

end Stands

/-- The conversion of a file does its job. -/
theorem convertFile_eq (ht : t.WellFormed) (hlinks : t.Linkless) (h : j.Stands o t) :
    convertFile o j.path t = .ok (j.action, done t j) := by
  have hread : t.read j.path = .ok j.source := read_eq_ok_iff.2 ⟨_, h.located, h.holds⟩
  have hdone : done t j = t.amend j.location j.entry? := rfl
  unfold convertFile action
  rw [hread, hdone, entry?]
  simp only [mapError_ok, bind, Except.bind, h.converts]
  cases j.outcome with
  | dropped =>
    dsimp only
    rw [remove_eq_amend hlinks h.located h.holds]
    rfl
  | converted text lifted =>
    dsimp only
    by_cases htext : text = j.source
    · rw [if_pos (beq_iff_eq.2 htext), if_pos htext, htext,
        amend_entry? ht h.location_ne_nil h.holds]
      rfl
    · rw [if_neg (by simpa using htext), if_neg htext, write_eq_amend ht h.located h.holds]
      rfl

theorem exists_of_convertFile {r : FileAction × FileTree} (h : convertFile o p t = .ok r) :
    ∃ j : FileJob, j.path = p ∧ j.Stands o t := by
  unfold convertFile at h
  cases hread : t.read p with
  | error e => rw [hread] at h; cases h
  | ok source =>
    rw [hread] at h
    simp only [mapError_ok, bind, Except.bind] at h
    obtain ⟨l, hl, hsource⟩ := read_eq_ok_iff.1 hread
    cases hconvert : convert o p source with
    | error e => rw [hconvert] at h; cases h
    | ok outcome => exact ⟨⟨p, l, source, outcome⟩, rfl, hl, hsource, hconvert⟩

/-! ## Many jobs -/

/-- No two jobs are about the same place. -/
def Apart (jobs : List FileJob) : Prop := jobs.Pairwise fun j k => j.location ≠ k.location

theorem exists_jobs {paths : List Path} (h : ∀ p ∈ paths, ∃ r, convertFile o p t = .ok r) :
    ∃ jobs : List FileJob, jobs.map path = paths ∧ ∀ j ∈ jobs, j.Stands o t := by
  induction paths with
  | nil => exact ⟨[], rfl, fun j hj => by cases hj⟩
  | cons p paths ih =>
    obtain ⟨r, hr⟩ := h p mem_cons_self
    obtain ⟨j, rfl, hj⟩ := exists_of_convertFile hr
    obtain ⟨jobs, rfl, hjobs⟩ := ih fun q hq => h q (mem_cons_of_mem _ hq)
    exact ⟨j :: jobs, rfl, forall_mem_cons.2 ⟨hj, hjobs⟩⟩

theorem stands_done (hlinks : t.Linkless) (hapart : Apart (j :: jobs))
    (h : ∀ k ∈ j :: jobs, k.Stands o t) : ∀ k ∈ jobs, k.Stands o (done t j) := by
  intro k hk
  have hne : j.location ≠ k.location := (pairwise_cons.1 hapart).1 k hk
  exact (h k (mem_cons_of_mem j hk)).done (h j mem_cons_self) hlinks hne.symm

theorem convertFiles_eq (ht : t.WellFormed) (hlinks : t.Linkless) (hapart : Apart jobs)
    (h : ∀ j ∈ jobs, j.Stands o t) : convertFiles o (jobs.map path) t =
      .ok (jobs.map fun j => (j.path, j.action), doAll jobs t) := by
  induction jobs generalizing t with
  | nil => rfl
  | cons j jobs ih =>
    have hj := h j mem_cons_self
    have hrest := ih (ht.amend _ _) (hj.linkless_done hlinks) (pairwise_cons.1 hapart).2
      (stands_done hlinks hapart h)
    rw [map_cons, convertFiles, convertFile_eq ht hlinks hj]
    simp only [bind, Except.bind]
    rw [show t.amend j.location j.entry? = done t j from rfl] at hrest
    rw [hrest]
    rfl

/-- The order of jobs makes no difference. -/
theorem doAll_perm {jobs' : List FileJob} (hperm : jobs'.Perm jobs) (hapart : Apart jobs)
    (t : FileTree) : doAll jobs' t = doAll jobs t := by
  have : Std.Symm fun j k : FileJob => j.location ≠ k.location := ⟨fun _ _ hne => hne.symm⟩
  refine (hperm.symm.foldl_eq' (fun j hj k hk t => ?_) t).symm
  by_cases heq : j = k
  · rw [heq]
  · exact amend_comm t (hapart.forall hj hk heq) _ _

theorem entry?_doAll_of_not_mem (h : ∀ j ∈ jobs, l ≠ j.location) :
    FileTree.entry? (doAll jobs t) l = t.entry? l := by
  induction jobs generalizing t with
  | nil => rfl
  | cons j jobs ih =>
    have hrest := @ih (done t j) fun k hk => h k (mem_cons_of_mem j hk)
    exact hrest.trans (entry?_amend_of_ne (h j mem_cons_self))

theorem entry?_doAll (hlinks : t.Linkless) (hapart : Apart jobs) (h : ∀ j ∈ jobs, j.Stands o t)
    (hj : j ∈ jobs) : FileTree.entry? (doAll jobs t) j.location = j.entry? := by
  induction jobs generalizing t with
  | nil => cases hj
  | cons k jobs ih =>
    rw [Apart, pairwise_cons] at hapart
    rcases mem_cons.1 hj with rfl | hj
    · have hkept : FileTree.entry? (doAll jobs (done t j)) j.location =
          FileTree.entry? (done t j) j.location :=
        entry?_doAll_of_not_mem hapart.1
      exact hkept.trans (h j mem_cons_self).entry?_done
    · exact ih ((h k mem_cons_self).linkless_done hlinks) hapart.2
        (stands_done hlinks (pairwise_cons.2 hapart) h) hj

end FileJob

/-! ## Trees -/

/-- What was done to the file that a path leads to. -/
inductive Treated (o : ConvertOptions) (t t' : FileTree) (p : Path) : FileAction → Prop
  | unchanged {l : Location} {source : Text} {lifted : Nat} (hpath : t.locate true p = .ok l)
      (hsource : t.entry? l = some (.file (.text source)))
      (hconvert : convert o p source = .ok (.converted source lifted))
      (hkept : t'.entry? l = t.entry? l) : Treated o t t' p .unchanged
  | written {l : Location} {source text : Text} {lifted : Nat} (hpath : t.locate true p = .ok l)
      (hsource : t.entry? l = some (.file (.text source)))
      (hconvert : convert o p source = .ok (.converted text lifted)) (hnew : text ≠ source)
      (htext : t'.entry? l = some (.file (.text text))) : Treated o t t' p .written
  | deleted {l : Location} {source : Text} (hpath : t.locate true p = .ok l)
      (hsource : t.entry? l = some (.file (.text source)))
      (hconvert : convert o p source = .ok .dropped)
      (hgone : t'.entry? l = none) : Treated o t t' p .deleted

theorem FileJob.Stands.treated {t' : FileTree} {j : FileJob} (h : j.Stands o t)
    (hentry : t'.entry? j.location = j.entry?) : Treated o t t' j.path j.action := by
  obtain ⟨path, l, source, outcome⟩ := j
  obtain ⟨hpath, hsource, hconvert⟩ := h
  cases outcome with
  | dropped => exact .deleted hpath hsource hconvert hentry
  | converted text lifted =>
    unfold action
    dsimp only
    split
    · next htext =>
      rw [htext] at hconvert
      refine .unchanged hpath hsource hconvert (hentry.trans ?_)
      rw [hsource, ← htext]
      rfl
    · next hnew => exact .written hpath hsource hconvert hnew hentry

theorem pathsWith_sublist (action : FileAction) (actions : List (Path × FileAction)) :
    (pathsWith action actions).Sublist (actions.map (·.1)) :=
  (filter_sublist).map _

/-- Every path has one of the three actions. -/
theorem pathsWith_perm (actions : List (Path × FileAction)) :
    (pathsWith .written actions ++ pathsWith .deleted actions ++
      pathsWith .unchanged actions).Perm (actions.map (·.1)) := by
  induction actions with
  | nil => exact .nil
  | cons head actions ih =>
    obtain ⟨p, action⟩ := head
    have hhead : ∀ a, pathsWith a ((p, action) :: actions) =
        if action = a then p :: pathsWith a actions else pathsWith a actions := by
      intro a
      by_cases ha : action = a <;> simp [pathsWith, ha]
    rw [hhead, hhead, hhead, map_cons]
    cases action with
    | written => exact ih.cons p
    | deleted =>
      simp only [reduceCtorEq, if_false, if_true]
      rw [append_assoc, cons_append]
      rw [append_assoc] at ih
      exact perm_middle.trans (ih.cons p)
    | unchanged =>
      simp only [reduceCtorEq, if_false, if_true]
      exact perm_middle.trans (ih.cons p)

theorem FileJob.apart_of_found (hfound : t.FoundUnder l (jobs.map path))
    (h : ∀ j ∈ jobs, j.Stands o t) : Apart jobs := by
  refine (pairwise_map.1 hfound.apart).imp_of_mem fun {j k} hj hk hne heq => hne ?_
  rw [(h j hj).located, (h k hk).located, heq]

/-- The files of a tree can be converted in any order. In a well-formed tree without links, if each
of the files that a search finds can be converted, then converting them one after the other, in
whatever order, gives the same tree, which is that of the conversion of the whole tree. The report
names every path once, under what was done to its file, in the order of paths; and whatever was not
found is as it was. -/
theorem convertTree_any_order {o : ConvertOptions} {s : Search} {root : Path} {t : FileTree}
    {paths : List Path} (ht : t.WellFormed) (hlinks : t.Linkless)
    (hfound : t.discover s root = .ok paths)
    (hall : ∀ p ∈ paths, ∃ r, convertFile o p t = .ok r) :
    ∃ report t', convertTree o s root t = .ok (report, t') ∧
      (∀ order : List Path, order.Perm paths → ∃ actions,
        convertFiles o order t = .ok (actions, t') ∧ actions.map (·.1) = order ∧
        ∀ a ∈ actions, Treated o t t' a.1 a.2) ∧
      paths.Nodup ∧ paths.Pairwise (fun p q => Path.le p q = true) ∧
      (∃ kept : List Path, kept.length = report.unchanged ∧
        (report.written ++ report.deleted ++ kept).Perm paths ∧
        report.written.Sublist paths ∧ report.deleted.Sublist paths ∧
        (∀ p ∈ report.written, Treated o t t' p .written) ∧
        (∀ p ∈ report.deleted, Treated o t t' p .deleted) ∧
        ∀ p ∈ kept, Treated o t t' p .unchanged) ∧
      ∀ l, (∀ p ∈ paths, t.locate true p ≠ .ok l) → t'.entry? l = t.entry? l := by
  obtain ⟨hunder, hsorted⟩ := discover_found ht hlinks hfound
  obtain ⟨jobs, rfl, hjobs⟩ := FileJob.exists_jobs hall
  have hapart : FileJob.Apart jobs := FileJob.apart_of_found hunder hjobs
  -- every order of the paths is one of the jobs
  have hrun : ∀ order : List Path, order.Perm (jobs.map FileJob.path) → ∃ actions,
      convertFiles o order t = .ok (actions, FileJob.doAll jobs t) ∧ actions.map (·.1) = order ∧
      ∀ a ∈ actions, Treated o t (FileJob.doAll jobs t) a.1 a.2 := by
    intro order horder
    obtain ⟨jobs', rfl, hperm⟩ : ∃ jobs' : List FileJob,
        order = jobs'.map FileJob.path ∧ jobs'.Perm jobs :=
      (congrFun (congrFun (List.eq_map_comp_perm FileJob.path) order) jobs).mpr horder
    have hjobs' : ∀ j ∈ jobs', j.Stands o t := fun j hj => hjobs j (hperm.mem_iff.1 hj)
    have hapart' : FileJob.Apart jobs' := FileJob.apart_of_found (hunder.perm (hperm.map _)) hjobs'
    refine ⟨_, FileJob.doAll_perm hperm hapart t ▸ FileJob.convertFiles_eq ht hlinks hapart' hjobs',
      by simp, fun a ha => ?_⟩
    obtain ⟨j, hj, rfl⟩ := List.mem_map.1 ha
    exact (hjobs' j hj).treated (FileJob.entry?_doAll hlinks hapart hjobs (hperm.mem_iff.1 hj))
  obtain ⟨actions, hactions, hpaths, htreated⟩ := hrun _ (.refl _)
  have hwith : ∀ {action p}, p ∈ pathsWith action actions →
      Treated o t (FileJob.doAll jobs t) p action := fun hp =>
    htreated _ (by simpa [pathsWith] using hp)
  refine ⟨.ofActions actions, FileJob.doAll jobs t, ?_, hrun, ?_, hsorted,
    ⟨pathsWith .unchanged actions, rfl, hpaths ▸ pathsWith_perm actions,
      hpaths ▸ pathsWith_sublist _ actions, hpaths ▸ pathsWith_sublist _ actions,
      fun p => hwith, fun p => hwith, fun p => hwith⟩, fun l hl => ?_⟩
  · rw [convertTree, hfound]
    simp only [bind, Except.bind, hactions]
    rfl
  · exact hunder.apart.imp fun hne heq => hne (congrArg (t.locate true) heq)
  · refine FileJob.entry?_doAll_of_not_mem fun j hj heq => ?_
    exact hl j.path (List.mem_map_of_mem hj) (heq ▸ (hjobs j hj).located)

/-- Three files: one with a namespace, one with nothing to convert, and one for newer targets. -/
def mixedTree : FileTree :=
  ((({} : FileTree).putDeep ["a.php".toList]
    (.file (.text "<?php namespace A; class B \x7b\x7d".toList))).putDeep
    ["b.php".toList] (.file (.text "<?php f();".toList))).putDeep
    ["lib".toList, "c.php".toList] (.file (.text "<?php // @phpversion 5.3".toList))

/-- The search for what can be in `mixedTree`. -/
def mixedSearch : Search where
  extensions := ["php".toList]
  excluded := []

def mixedPaths : List Path := ["./a.php".toList, "./b.php".toList, "./lib/c.php".toList]

theorem wellFormed_mixedTree : mixedTree.WellFormed := ⟨by decide +kernel, by decide +kernel⟩

theorem linkless_mixedTree : mixedTree.Linkless := .of_entries (by decide +kernel)

theorem discover_mixedTree : mixedTree.discover mixedSearch ['.'] = .ok mixedPaths :=
  discover_of_sorted (l := []) rfl rfl rfl (by decide +kernel)

/-- Each of the files can be converted, and then all of them. -/
theorem convertFiles_mixedTree :
    (∀ p ∈ mixedPaths, (convertFile {} p mixedTree).toOption.isSome) ∧
      (convertFiles {} mixedPaths mixedTree).toOption.map (TreeReport.ofActions ·.1) =
        some ⟨["./a.php".toList], ["./lib/c.php".toList], 1⟩ := by
  decide +kernel

/-- Backwards the files give the same tree, and a file is written, one deleted and one kept. -/
theorem convertTree_any_order_backwards :
    mixedTree.WellFormed ∧ mixedTree.Linkless ∧
    mixedTree.discover mixedSearch ['.'] = .ok mixedPaths ∧
    (∀ p ∈ mixedPaths, ∃ r, convertFile {} p mixedTree = .ok r) ∧
    ∃ report t', convertTree {} mixedSearch ['.'] mixedTree = .ok (report, t') ∧
      (∃ actions, convertFiles {} mixedPaths.reverse mixedTree = .ok (actions, t')) ∧
      report = ⟨["./a.php".toList], ["./lib/c.php".toList], 1⟩ := by
  obtain ⟨hall, hreport⟩ := convertFiles_mixedTree
  have hfiles : ∀ p ∈ mixedPaths, ∃ r, convertFile {} p mixedTree = .ok r := by
    intro p hp
    obtain ⟨r, hr⟩ := Option.isSome_iff_exists.1 (hall p hp)
    exact ⟨r, eq_ok_of_toOption hr⟩
  obtain ⟨report, t', htree, hrun, -⟩ := convertTree_any_order wellFormed_mixedTree
    linkless_mixedTree discover_mixedTree hfiles
  obtain ⟨actions, hactions, -⟩ := hrun mixedPaths.reverse (List.reverse_perm mixedPaths)
  refine ⟨wellFormed_mixedTree, linkless_mixedTree, discover_mixedTree, hfiles,
    report, t', htree, ⟨actions, hactions⟩, ?_⟩
  obtain ⟨actions', hactions', -⟩ := hrun mixedPaths (.refl _)
  rw [convertTree, discover_mixedTree] at htree
  simp only [bind, Except.bind, hactions'] at htree
  rw [hactions'] at hreport
  cases htree
  exact Option.some.inj hreport

end LegacyPhp
