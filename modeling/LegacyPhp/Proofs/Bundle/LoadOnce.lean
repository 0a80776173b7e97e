import LegacyPhp.Proofs.Bundle.Run
import LegacyPhp.Proofs.Lossless

/-!
# No file is loaded twice

A session is a sequence of calls on one bundle, each of which inlines a file or a text; a call that
fails leaves the bundle as it stands, and the next one goes on from there. `loads` lists the files
whose text a session has handed over to be copied.

`LoadsOnce` is the invariant: the files loaded by some moves are distinct, were not visited before
and are visited afterwards. The last two parts are what makes it compose (`LoadsOnce.append`): what
an earlier piece loads is visited when a later piece starts, so the later piece cannot load it
again, whatever path leads to it. Since a file is marked before its text is copied, a file that
includes itself is one of these cases.
-/

namespace LegacyPhp.Bundle

open Text List

variable {moves : List Move} {c : Path}

/-! ## The files that moves load -/

/-- The file that a move loads. -/
def Move.loaded? : Move → Option Path
  | load file => some file
  | _ => none

/-- The files whose text is handed over, in order. -/
def loads (moves : List Move) : List Path := moves.filterMap Move.loaded?

@[simp] theorem loads_append (first second : List Move) :
    loads (first ++ second) = loads first ++ loads second :=
  filterMap_append

theorem loads_of_isLocal (h : moves.all Move.isLocal) : loads moves = [] := by
  refine filterMap_eq_nil_iff.2 fun m hm => ?_
  have hlocal := all_eq_true.1 h m hm
  cases m with
  | load file => cases hlocal
  | _ => rfl

/-- The files that the moves load from `b` on are distinct, new and marked. -/
structure LoadsOnce (b : Bundler) (moves : List Move) : Prop where
  nodup : (loads moves).Nodup
  fresh : ∀ c ∈ loads moves, c ∉ b.visited
  marked : ∀ c ∈ loads moves, c ∈ (applyAll moves b).visited

theorem LoadsOnce.of_loads_eq_nil {b : Bundler} (h : loads moves = []) :
    LoadsOnce b moves where
  nodup := by rw [h]; exact nodup_nil
  fresh c hc := by rw [h] at hc; cases hc
  marked c hc := by rw [h] at hc; cases hc

theorem LoadsOnce.of_isLocal {b : Bundler} (h : moves.all Move.isLocal) :
    LoadsOnce b moves :=
  .of_loads_eq_nil (loads_of_isLocal h)

theorem LoadsOnce.visit_load {b : Bundler} (hc : c ∉ b.visited) :
    LoadsOnce b [.visit c, .load c] where
  nodup := nodup_cons.2 ⟨not_mem_nil, nodup_nil⟩
  fresh file hfile := by
    cases mem_singleton.1 hfile
    exact hc
  marked file hfile := by
    cases mem_singleton.1 hfile
    exact mem_cons_self

theorem LoadsOnce.append {b : Bundler} {first second : List Move} (hfirst : LoadsOnce b first)
    (hsecond : LoadsOnce (applyAll first b) second) : LoadsOnce b (first ++ second) where
  nodup := by
    rw [loads_append]
    refine nodup_append.2 ⟨hfirst.nodup, hsecond.nodup, fun c hc d hd hcd => ?_⟩
    subst hcd
    exact hsecond.fresh c hd (hfirst.marked c hc)
  fresh c hc := by
    rw [loads_append] at hc
    rcases mem_append.1 hc with hc | hc
    · exact hfirst.fresh c hc
    · intro hold
      exact hsecond.fresh c hc ((visited_applyAll first b).subset hold)
  marked c hc := by
    rw [loads_append] at hc
    rw [applyAll_append]
    rcases mem_append.1 hc with hc | hc
    · exact (visited_applyAll second _).subset (hfirst.marked c hc)
    · exact hsecond.marked c hc

variable {o : BundleOptions} {tree : FileTree}

/-- A run loads no file twice and none that was visited: what a file loads is visited when the unit
goes on, so the two cannot meet. -/
theorem carriedOn_loadsOnce : CarriedOn LoadsOnce where
  append := LoadsOnce.append
  ordinary h _ := .of_isLocal (all_imp Move.isLocal_of_isOrdinary h)
  switch b name := .of_isLocal (all_imp Move.isLocal_of_isOwn (isOwn_switchMoves b name))
  use b name := .of_isLocal (all_imp Move.isLocal_of_isOwn (isOwn_importMoves b name))
  restore h := h.append (.of_isLocal (all_imp Move.isLocal_of_isOwn (isOwn_restoreMoves _ _)))
  visit _ _ := .of_loads_eq_nil rfl
  load := .visit_load
  start _ _ _ := .of_loads_eq_nil rfl

theorem addFile_of_visited {path : Path} {b : Bundler} (hpath : tree.canonical path = .ok c)
    (hc : c ∈ b.visited) : addFile o tree path b = (b, none) :=
  ((run_addFile o tree path b).unique (.again hpath hc)).2

/-! ## Sessions -/

/-- A call on a bundle. -/
inductive Call where
  | file (path : Path)
  | content (text : Text) (origin : Path)
  deriving DecidableEq

/-- The task of a call. -/
def Call.task (b : Bundler) : Call → Task
  | file path => .file path b
  | content text origin => .content text origin b

/-- What a call does. -/
def Call.perform (o : BundleOptions) (tree : FileTree) (b : Bundler) : Call → Progress
  | file path => addFile o tree path b
  | content text origin => addContent o tree text origin b

/-- The bundle after calls in order, each going on from what the one before has left. -/
def performAll (o : BundleOptions) (tree : FileTree) (calls : List Call) (b : Bundler) : Bundler :=
  calls.foldl (fun b call => (call.perform o tree b).1) b

/-- The moves of calls in order and the bundle that they leave. -/
inductive Session (o : BundleOptions) (tree : FileTree) :
    List Call → Bundler → List Move → Bundler → Prop where
  | nil {b} : Session o tree [] b [] b
  | cons {call calls b first p second after} (hcall : Run o tree (call.task b) first p)
      (hcalls : Session o tree calls p.1 second after) :
      Session o tree (call :: calls) b (first ++ second) after

theorem exists_run_perform (o : BundleOptions) (tree : FileTree) (b : Bundler) (call : Call) :
    ∃ moves, Run o tree (call.task b) moves (call.perform o tree b) := by
  cases call with
  | file path => exact ⟨_, run_addFile o tree path b⟩
  | content text origin => exact ⟨_, run_addContent o tree text origin b⟩

theorem Call.task_bundler (b : Bundler) (call : Call) : (call.task b).bundler = b := by
  cases call <;> rfl

theorem Session.eq_applyAll {calls : List Call} {b after : Bundler}
    (h : Session o tree calls b moves after) : after = applyAll moves b := by
  induction h with
  | nil => rfl
  | @cons call _ b _ p _ _ hcall _ ih =>
    have hp := hcall.eq_applyAll
    rw [Call.task_bundler] at hp
    rw [applyAll_append, ← hp]
    exact ih

theorem CarriedOn.session {Φ : Bundler → List Move → Prop} (hΦ : CarriedOn Φ) {calls : List Call}
    {b after : Bundler} (h : Session o tree calls b moves after) : Φ b moves := by
  induction h with
  | nil => exact hΦ.ordinary rfl _
  | @cons call _ b first p _ _ hcall _ ih =>
    have hp := hcall.eq_applyAll
    have hfirst := hΦ.run hcall
    rw [Call.task_bundler] at hp hfirst
    rw [hp] at ih
    exact hΦ.append hfirst ih

theorem Session.loadsOnce {calls : List Call} {b after : Bundler}
    (h : Session o tree calls b moves after) : LoadsOnce b moves :=
  carriedOn_loadsOnce.session h

theorem Session.unique {calls : List Call} {b after after' : Bundler} {moves' : List Move}
    (h : Session o tree calls b moves after) (h' : Session o tree calls b moves' after') :
    moves = moves' ∧ after = after' := by
  induction h generalizing moves' after' with
  | nil => cases h'; exact ⟨rfl, rfl⟩
  | cons hcall _ ih =>
    cases h' with
    | cons hcall' hcalls' =>
      obtain ⟨rfl, rfl⟩ := hcall.unique hcall'
      obtain ⟨rfl, rfl⟩ := ih hcalls'
      exact ⟨rfl, rfl⟩

theorem exists_session (o : BundleOptions) (tree : FileTree) (calls : List Call) (b : Bundler) :
    ∃ moves, Session o tree calls b moves (performAll o tree calls b) := by
  induction calls generalizing b with
  | nil => exact ⟨[], .nil⟩
  | cons call calls ih =>
    obtain ⟨first, hcall⟩ := exists_run_perform o tree b call
    obtain ⟨second, hcalls⟩ := ih (call.perform o tree b).1
    exact ⟨first ++ second, .cons hcall hcalls⟩

theorem visited_performAll {b : Bundler} (hc : c ∈ b.visited) (calls : List Call) :
    c ∈ (performAll o tree calls b).visited := by
  obtain ⟨moves, hsession⟩ := exists_session o tree calls b
  rw [hsession.eq_applyAll]
  exact (visited_applyAll moves b).subset hc

/-! ## Packages -/

/-- Calls in order, up to the first failure. -/
def performUntilFailure (o : BundleOptions) (tree : FileTree) : List Call → Bundler → Progress
  | [], b => (b, none)
  | call :: calls, b =>
    match call.perform o tree b with
    | (b, none) => performUntilFailure o tree calls b
    | failed => failed

/-- The calls that make a package, `loader` being the canonical path of its loader. -/
def packageCalls (o : BundleOptions) (tree : FileTree) (loader : Path) (head tail : Text)
    (files epilogue : List Path) : List Call :=
  .content head loader :: ((files.filter (!isSkipped o ·)).map .file ++
    .content ("<?php ".toList ++ tail) loader :: (epilogue.filter tree.isFile).map .file)

theorem performUntilFailure_append (o : BundleOptions) (tree : FileTree) (first second : List Call)
    (b : Bundler) :
    performUntilFailure o tree (first ++ second) b =
      match performUntilFailure o tree first b with
      | (b, none) => performUntilFailure o tree second b
      | failed => failed := by
  induction first generalizing b with
  | nil => rfl
  | cons call calls ih =>
    simp only [cons_append, performUntilFailure]
    rcases call.perform o tree b with ⟨after, _ | f⟩
    · exact ih after
    · rfl

theorem addFiles_eq (o : BundleOptions) (tree : FileTree) (paths : List Path) (b : Bundler) :
    addFiles o tree paths b = performUntilFailure o tree (paths.map .file) b := by
  induction paths generalizing b with
  | nil => rfl
  | cons path paths ih =>
    rcases hadd : addFile o tree path b with ⟨after, _ | f⟩
    · simp only [addFiles, map_cons, performUntilFailure, Call.perform, hadd, ih]
    · simp only [addFiles, map_cons, performUntilFailure, Call.perform, hadd]

/-- A package is made by its calls, from a bundle in which the loader counts as visited. -/
theorem bundlePackage_eq {loader : Path} {text head tail : Text}
    (hread : tree.read loader = .ok text) (hsplit : splitLoader o loader text = .ok (head, tail))
    (hloader : tree.canonical loader = .ok c) (files epilogue : List Path) :
    bundlePackage o tree loader files epilogue =
      (completed (performUntilFailure o tree (packageCalls o tree c head tail files epilogue)
        { visited := [c] })).map fun b => finalize o b.finish := by
  simp only [bundlePackage, hread, hsplit, hloader, packageCalls, performUntilFailure,
    performUntilFailure_append, addFiles_eq, Call.perform, mapError_ok, bind, Except.bind]
  -- head, files, tail and epilogue in turn; whatever fails first ends both sides
  rcases addContent o tree head c { visited := [c] } with ⟨b, _ | f⟩
  · simp only [completed]
    rcases performUntilFailure o tree _ b with ⟨b, _ | f⟩
    · simp only
      rcases addContent o tree _ c b with ⟨b, _ | f⟩
      · simp only
        rcases performUntilFailure o tree _ b with ⟨b, _ | f⟩ <;> rfl
      · rfl
    · rfl
  · rfl

/-- Every session comes to an end, in one way only. It loads no file twice and none that was visited
when it started, and along its moves the visited files only become more. A file that was visited is
passed over without a trace. The loader of a package counts as visited from the start, so that no
call made for the package loads it. -/
theorem session_loads_once (o : BundleOptions) (tree : FileTree) :
    (∀ (calls : List Call) (b : Bundler), ∃ moves,
      (∀ moves' after, Session o tree calls b moves' after ↔
        moves' = moves ∧ after = performAll o tree calls b) ∧
      (loads moves).Nodup ∧ (∀ c ∈ loads moves, c ∉ b.visited) ∧
      performAll o tree calls b = applyAll moves b ∧
      ∀ earlier later, moves = earlier ++ later →
        (applyAll earlier b).visited <:+ (performAll o tree calls b).visited) ∧
    (∀ (path c : Path) (b : Bundler), tree.canonical path = .ok c → c ∈ b.visited →
      addFile o tree path b = (b, none)) ∧
    ∀ (loader c : Path) (text head tail : Text) (files epilogue : List Path),
      tree.read loader = .ok text → splitLoader o loader text = .ok (head, tail) →
      tree.canonical loader = .ok c →
      bundlePackage o tree loader files epilogue =
        (completed (performUntilFailure o tree (packageCalls o tree c head tail files epilogue)
          { visited := [c] })).map (fun b => finalize o b.finish) ∧
      ∀ made moves after, made <+: packageCalls o tree c head tail files epilogue →
        Session o tree made { visited := [c] } moves after → c ∉ loads moves := by
  refine ⟨fun calls b => ?_, fun path c b => addFile_of_visited, ?_⟩
  · obtain ⟨moves, hsession⟩ := exists_session o tree calls b
    have hloads := hsession.loadsOnce
    have hafter := hsession.eq_applyAll
    refine ⟨moves, fun moves' after => ⟨fun h' => ?_, ?_⟩, hloads.nodup, hloads.fresh, hafter, ?_⟩
    · exact h'.unique hsession
    · rintro ⟨rfl, rfl⟩
      exact hsession
    · rintro earlier later rfl
      rw [hafter, applyAll_append]
      exact visited_applyAll later _
  · intro loader c text head tail files epilogue hread hsplit hloader
    refine ⟨bundlePackage_eq hread hsplit hloader files epilogue, ?_⟩
    intro made moves after _ hsession hc
    exact hsession.loadsOnce.fresh c hc List.mem_cons_self

/-- Two files that include each other, one of them also itself, and a loader that one of them
includes. -/
def ringTree : FileTree where
  entries := [
    (["a.php".toList], .file (.text "<?php include 'lib/b.php'; include './a.php';".toList)),
    (["lib".toList], .directory),
    (["lib".toList, "b.php".toList], .file (.text
      "<?php include __DIR__ . '/../a.php'; include dirname(__DIR__) . '/loader.php';".toList)),
    (["loader.php".toList], .file (.text "<?php\nrequire 'a.php';\necho 1;".toList))]

/-- A file is passed over under another spelling of its path, and the loader is not loaded though a
file of the package includes it. -/
theorem session_loads_once_ring :
    addFile {} ringTree "lib/../a.php".toList { visited := ["/a.php".toList] } =
      ({ visited := ["/a.php".toList] }, none) ∧
    ∀ made moves after,
      made <+: packageCalls {} ringTree "/loader.php".toList "<?php\n".toList "echo 1;".toList
        ["a.php".toList, "loader.php".toList] ["./loader.php".toList] →
      Session {} ringTree made { visited := ["/loader.php".toList] } moves after →
      "/loader.php".toList ∉ loads moves := by
  have hsplit : splitLoader {} "loader.php".toList "<?php\nrequire 'a.php';\necho 1;".toList =
      .ok ("<?php\n".toList, "echo 1;".toList) :=
    eq_ok_of_toOption (by decide +kernel)
  refine ⟨?_, ?_⟩
  · exact (session_loads_once {} ringTree).2.1 _ "/a.php".toList _
      (eq_ok_of_toOption (by decide +kernel)) List.mem_cons_self
  · exact ((session_loads_once {} ringTree).2.2 "loader.php".toList "/loader.php".toList
      "<?php\nrequire 'a.php';\necho 1;".toList "<?php\n".toList "echo 1;".toList
      ["a.php".toList, "loader.php".toList] ["./loader.php".toList]
      (eq_ok_of_toOption (by decide +kernel)) hsplit (eq_ok_of_toOption (by decide +kernel))).2

end LegacyPhp.Bundle
