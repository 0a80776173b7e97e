import LegacyPhp.Proofs.Bundle.LoadOnce
import LegacyPhp.Proofs.Bundle.Reach

/-!
# Units that were broken off

A file is marked as visited before it is read, and the mark stays when reading it, lexing it or
inlining what it includes fails. So a failure leaves marks: one for every unit that has come up on
the way, finished or not (`Reaches.mem_visited`). A mark is all that a later call looks at.
`addFile_fails_again_iff` says what follows: a call that has failed fails again only if its path
leads nowhere, and otherwise reports success for ever, as does every call for one of the units that
the failure has broken off.
-/

namespace LegacyPhp.Bundle

variable {o : BundleOptions} {tree : FileTree} {task later : Task} {moves before inner : List Move}
  {p q : Progress} {c path : Path} {b : Bundler}

theorem exists_run_verdict (o : BundleOptions) (tree : FileTree) (origin : Path) (source : Text)
    (v : Verdict) (rest : List Token) :
    ∃ moves p, Run o tree (.verdict origin source v rest) moves p := by
  let u : UnitContext := ⟨o, tree, origin, source, addFile o tree⟩
  have hrest : ∀ s, Run o tree (.tokens origin source s rest)
      (tokenMoves u (fileMoves o tree) s rest)
      (copyTokens u s rest) := fun s =>
    @run_copyTokens _ u tree.places.length (fun path b _ => run_addFile o tree path b) s rest
      (unvisited_le tree s.bundler)
  cases v with
  | next s => exact ⟨_, _, .next (hrest s)⟩
  | stop b => exact ⟨_, _, .stop⟩
  | fail b f => exact ⟨_, _, .fail⟩

/-- What comes up in the course of a task is a part of its run, behind what came before. -/
theorem Reaches.run (h : Reaches o tree task before later) (hlater : Run o tree later inner q) :
    ∃ after p, Run o tree task (before ++ (inner ++ after)) p := by
  induction h with
  | here => exact ⟨[], q, by simpa using hlater⟩
  | load hpath hc hread hguard _ ih =>
    obtain ⟨after, p, hrun⟩ := ih hlater
    exact ⟨after, p, .load hpath hc hread hguard hrun⟩
  | unit hplaced _ ih =>
    obtain ⟨after, p, hrun⟩ := ih hlater
    exact ⟨after, p, by simpa using Run.unit hplaced hrun⟩
  | step hcall _ ih =>
    obtain ⟨after, p, hrun⟩ := ih hlater
    exact ⟨after, p, by simpa using Run.step hcall hrun⟩
  | @into origin source s t rest _ _ _ hcall _ ih =>
    obtain ⟨after, ⟨b, _ | f⟩, hrun⟩ := ih hlater
    · obtain ⟨more, p, hnext⟩ :=
        exists_run_verdict o tree origin source (afterInline s t rest b) rest
      exact ⟨_, p, by simpa using Run.inline hcall hrun hnext⟩
    · exact ⟨after, _, .broken hcall hrun⟩
  | past hcall hfile _ ih =>
    obtain ⟨after, p, hrun⟩ := ih hlater
    exact ⟨after, p, by simpa using Run.inline hcall hfile hrun⟩
  | next _ ih =>
    obtain ⟨after, p, hrun⟩ := ih hlater
    exact ⟨after, p, .next hrun⟩

/-- A file that is to be inlined is marked afterwards, whatever comes of it. -/
theorem Run.mem_visited (h : Run o tree (.file path b) moves p)
    (hpath : tree.canonical path = .ok c) : c ∈ p.1.visited := by
  cases h with
  | unlocated hnone => cases hpath.symm.trans hnone
  | again hagain hc => cases hpath.symm.trans hagain; exact hc
  | unread hsome | unguarded hsome => cases hpath.symm.trans hsome; exact List.mem_cons_self
  | load hsome _ _ _ hunit =>
    cases hpath.symm.trans hsome
    rw [hunit.eq_applyAll]
    exact (visited_applyAll _ _).subset List.mem_cons_self

/-- A file that comes up in the course of a task is marked at the end of it. -/
theorem Reaches.mem_visited (h : Reaches o tree task before (.file path b))
    (hpath : tree.canonical path = .ok c) (hrun : Run o tree task moves p) : c ∈ p.1.visited := by
  have hfile := run_addFile o tree path b
  obtain ⟨after, _, hwhole⟩ := h.run hfile
  have hmarked := hfile.mem_visited hpath
  rw [hfile.eq_applyAll, h.bundler] at hmarked
  obtain ⟨rfl, rfl⟩ := hrun.unique hwhole
  rw [hrun.eq_applyAll, applyAll_append, applyAll_append]
  exact (visited_applyAll after _).subset hmarked

theorem addFile_of_unlocated {e : IoFault} (hpath : tree.canonical path = .error e) (b : Bundler) :
    addFile o tree path b = (b, some (.io path e)) :=
  ((run_addFile o tree path b).unique (.unlocated hpath)).2

/-- A call that has failed fails again if and only if its path leads nowhere, whatever calls come in
between; it then fails in the same way and changes nothing. Otherwise its unit counts as inlined
though it was broken off. So does every file that has come up in the failed call, at any depth and
whatever has come of it: a call for it does nothing and reports success. -/
theorem addFile_fails_again_iff {b' : Bundler} {f : Failure}
    (h : addFile o tree path b = (b', some f)) (calls : List Call) :
    ((∃ g, (addFile o tree path (performAll o tree calls b')).2 = some g) ↔
      ∃ e, tree.canonical path = .error e) ∧
    (∀ e, tree.canonical path = .error e →
      addFile o tree path (performAll o tree calls b') = (performAll o tree calls b', some f)) ∧
    ∀ before other mid c, Reaches o tree (.file path b) before (.file other mid) →
      tree.canonical other = .ok c →
      addFile o tree other (performAll o tree calls b') = (performAll o tree calls b', none) := by
  have hrun := run_addFile o tree path b
  rw [h] at hrun
  -- what has come up stays marked
  have hpassed : ∀ before other mid c, Reaches o tree (.file path b) before (.file other mid) →
      tree.canonical other = .ok c →
      addFile o tree other (performAll o tree calls b') = (performAll o tree calls b', none) :=
    fun _ _ _ _ hreaches hother =>
      addFile_of_visited hother (visited_performAll (hreaches.mem_visited hother hrun) calls)
  refine ⟨⟨fun ⟨g, hg⟩ => ?_, fun ⟨e, he⟩ => ?_⟩, fun e he => ?_, hpassed⟩
  · cases hpath : tree.canonical path with
    | error e => exact ⟨e, rfl⟩
    | ok c =>
      rw [hpassed _ _ _ _ .here hpath] at hg
      cases hg
  · exact ⟨_, congrArg Prod.snd (addFile_of_unlocated he _)⟩
  · rw [addFile_of_unlocated he] at h ⊢
    cases h
    rfl

/-- A file that includes one that is missing. -/
def brokenOffTree : FileTree where
  entries := [(["a.php".toList], .file (.text "<?php f(); include 'b.php';".toList))]

/-- After the failure the file is passed over. -/
theorem addFile_fails_again_iff_broken :
    ∃ b' f, addFile {} brokenOffTree "a.php".toList {} = (b', some f) ∧
      addFile {} brokenOffTree "a.php".toList b' = (b', none) := by
  have hfailed : (addFile {} brokenOffTree "a.php".toList {}).2.isSome := by decide +kernel
  obtain ⟨f, hf⟩ := Option.isSome_iff_exists.1 hfailed
  generalize hrun : addFile {} brokenOffTree "a.php".toList {} = result at hf
  obtain ⟨b', outcome⟩ := result
  subst hf
  obtain ⟨-, -, hpassed⟩ := addFile_fails_again_iff hrun []
  exact ⟨b', f, rfl, hpassed _ _ _ "/a.php".toList .here (eq_ok_of_toOption (by decide +kernel))⟩

end LegacyPhp.Bundle
