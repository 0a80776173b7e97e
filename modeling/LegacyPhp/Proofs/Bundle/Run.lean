import LegacyPhp.Bundle.Basic
import LegacyPhp.Proofs.Bundle.Moves

/-!
# Runs of a bundle

`addFileWith` counts how deep files are inlined inside one another and gives up at a bound. `Run`
says what inlining does without any bound: it relates a task (a file, a text, or the tokens that are
left of a unit) to the moves that it makes and to what comes of it. A task that never ends has no
run.

Two facts tie the relation to the functions. `run_addFileWith`: with more depth than there are
places left to visit, the function does what a run does; the bound of `addFile` is such a depth, so
every task has a run, and `fileMoves` computes its moves. `Run.unique`: a task has one run. The
load-bearing step is `Run.eq_applyAll`, that the moves are all that happens: what is visited can
only grow along them, and so the places that are left to visit get fewer on the way down.
-/

namespace LegacyPhp.Bundle

open Text List

variable {p : Progress} {b : Bundler} {path origin : Path}
  {inner : Path → Bundler → List Move} {u : UnitContext} {bound : Nat}

/-! ## A unit before its first token -/

/-- The text and the tokens that are copied for a text: it is put into the global namespace if it
declares none. -/
def placedTokens (o : BundleOptions) (origin : Path) (content : Text) :
    Except Failure (Text × List Token) :=
  match tokenizeUnit origin content with
  | .error f => .error f
  | .ok tokens =>
    match placeInNamespace o tokens content with
    | none => .ok (content, tokens)
    | some source => (tokenizeUnit origin source).map (source, ·)

/-- Whether a unit goes on in the code block that the bundle stands in. -/
def joinsCode (b : Bundler) (tokens : List Token) : Bool :=
  b.inCode && tokens.head?.any (·.kind == .openTag)

/-- Whether the code block has to be left for a unit that starts with text. -/
def leavesCode (b : Bundler) (tokens : List Token) : Bool := b.inCode && !joinsCode b tokens

/-- The moves that prepare for the tokens of a unit. -/
def startMoves (b : Bundler) (tokens : List Token) : List Move :=
  if leavesCode b tokens then [.write "?>".toList, .setCode false] else []

/-- The state in front of a unit. -/
def unitStart (b : Bundler) (tokens : List Token) : UnitState :=
  { bundler := applyAll (startMoves b tokens) b, space := joinsCode b tokens }

/-- The tokens of a unit that are copied. -/
def unitTokens (b : Bundler) (tokens : List Token) : List Token :=
  if joinsCode b tokens then tokens.tail else tokens

theorem copyUnit_eq (u : UnitContext) (tokens : List Token) (b : Bundler) :
    copyUnit u tokens b = copyTokens u (unitStart b tokens) (unitTokens b tokens) := by
  unfold copyUnit unitStart unitTokens startMoves leavesCode joinsCode
  cases hcode : b.inCode with
  | false => rfl
  | true =>
    cases tokens with
    | nil => rfl
    | cons t rest =>
      by_cases htag : (t.kind == .openTag)
      · simp [htag]
      · simp [htag, Move.apply, Bundler.write]

theorem addContentWith_eq (o : BundleOptions) (tree : FileTree)
    (inlineFile : Path → Bundler → Progress) (content : Text) (origin : Path) (b : Bundler) :
    addContentWith o tree inlineFile content origin b =
      match placedTokens o origin content with
      | .error f => (b, some f)
      | .ok (source, tokens) =>
        copyTokens { options := o, tree, origin, source, inlineFile } (unitStart b tokens)
          (unitTokens b tokens) := by
  unfold addContentWith placedTokens
  cases tokenizeUnit origin content with
  | error f => rfl
  | ok tokens =>
    simp only
    cases placeInNamespace o tokens content with
    | none => exact copyUnit_eq _ _ _
    | some source =>
      simp only
      cases tokenizeUnit origin source with
      | error f => rfl
      | ok placed => exact copyUnit_eq _ _ _

/-! ## Runs -/

/-- A piece of work on a bundle. -/
inductive Task where
  /-- The file at a path is to be inlined. -/
  | file (path : Path) (b : Bundler)
  /-- A text from the file `origin` is to be inlined. -/
  | content (text : Text) (origin : Path) (b : Bundler)
  /-- The tokens of a unit are to be copied. -/
  | tokens (origin : Path) (source : Text) (s : UnitState) (ts : List Token)
  /-- A token of a unit has been dealt with, and `ts` are left. -/
  | verdict (origin : Path) (source : Text) (v : Verdict) (ts : List Token)

/-- The bundle that a task starts from. -/
def Task.bundler : Task → Bundler
  | file _ b => b
  | content _ _ b => b
  | tokens _ _ s _ => s.bundler
  | verdict _ _ v _ => v.bundler

/-- A unit in which nothing is inlined. -/
def idleUnit (o : BundleOptions) (tree : FileTree) (origin : Path) (source : Text) : UnitContext :=
  { options := o, tree, origin, source, inlineFile := fun _ b => (b, none) }

/-- The moves of a task and what comes of it. -/
inductive Run (o : BundleOptions) (tree : FileTree) : Task → List Move → Progress → Prop where
  | unlocated {path b e} (hpath : tree.canonical path = .error e) :
      Run o tree (.file path b) [] (b, some (.io path e))
  | again {path b c} (hpath : tree.canonical path = .ok c) (hc : c ∈ b.visited) :
      Run o tree (.file path b) [] (b, none)
  | unread {path b c e} (hpath : tree.canonical path = .ok c) (hc : c ∉ b.visited)
      (hread : tree.read c = .error e) :
      Run o tree (.file path b) [.visit c] ((Move.visit c).apply b, some (.io path e))
  | unguarded {path b c content f} (hpath : tree.canonical path = .ok c) (hc : c ∉ b.visited)
      (hread : tree.read c = .ok content) (hguard : guarded o c content = .error f) :
      Run o tree (.file path b) [.visit c] ((Move.visit c).apply b, some f)
  | load {path b c content text moves p} (hpath : tree.canonical path = .ok c)
      (hc : c ∉ b.visited) (hread : tree.read c = .ok content)
      (hguard : guarded o c content = .ok text)
      (hunit : Run o tree (.content text c ((Move.visit c).apply b)) moves p) :
      Run o tree (.file path b) (.visit c :: .load c :: moves) p
  | unplaced {text origin b f} (hplaced : placedTokens o origin text = .error f) :
      Run o tree (.content text origin b) [] (b, some f)
  | unit {text origin b source tokens moves p}
      (hplaced : placedTokens o origin text = .ok (source, tokens))
      (hcopy : Run o tree (.tokens origin source (unitStart b tokens) (unitTokens b tokens)) moves
        p) :
      Run o tree (.content text origin b) (.start origin tokens :: (startMoves b tokens ++ moves)) p
  | done {origin source s} : Run o tree (.tokens origin source s []) [] (s.bundler, none)
  | step {origin source s t rest moves p} (hcall : inlineCall? tree origin s t = none)
      (hnext : Run o tree
        (.verdict origin source (stepToken (idleUnit o tree origin source) s t rest) rest) moves
        p) :
      Run o tree (.tokens origin source s (t :: rest))
        (stepMoves (idleUnit o tree origin source) s t rest ++ moves) p
  | inline {origin source s t rest target inner after moves p}
      (hcall : inlineCall? tree origin s t = some target)
      (hfile : Run o tree (.file target s.bundler) inner (after, none))
      (hnext : Run o tree (.verdict origin source (afterInline s t rest after) rest) moves p) :
      Run o tree (.tokens origin source s (t :: rest))
        (inner ++ (inlinedMoves s t rest after ++ moves)) p
  | broken {origin source s t rest target inner after f}
      (hcall : inlineCall? tree origin s t = some target)
      (hfile : Run o tree (.file target s.bundler) inner (after, some f)) :
      Run o tree (.tokens origin source s (t :: rest)) inner (after, some f)
  | next {origin source s ts moves p} (hrest : Run o tree (.tokens origin source s ts) moves p) :
      Run o tree (.verdict origin source (.next s) ts) moves p
  | stop {origin source b ts} : Run o tree (.verdict origin source (.stop b) ts) [] (b, none)
  | fail {origin source b f ts} :
      Run o tree (.verdict origin source (.fail b f) ts) [] (b, some f)

variable {o : BundleOptions} {tree : FileTree}

/-- The moves of a run are all that happens to the bundle. -/
theorem Run.eq_applyAll {task : Task} {moves : List Move} (h : Run o tree task moves p) :
    p.1 = applyAll moves task.bundler := by
  induction h with
  | unlocated | again | unread | unguarded => rfl
  | load _ _ _ _ _ ih => exact ih
  | unplaced => rfl
  | unit _ _ ih =>
    rw [ih, applyAll_cons, applyAll_append]
    rfl
  | done => rfl
  | step hcall _ ih =>
    rw [ih, applyAll_append]
    exact congrArg (applyAll _) (stepToken_bundler hcall)
  | @inline _ _ s t rest _ inner after moves p _ _ _ ihfile ih =>
    have hafter : after = applyAll inner s.bundler := ihfile
    rw [ih, applyAll_append, applyAll_append]
    show applyAll moves (afterInline s t rest after).bundler =
      applyAll moves (applyAll (inlinedMoves s t rest after) (applyAll inner s.bundler))
    rw [afterInline_bundler, ← hafter]
  | broken _ _ ihfile => exact ihfile
  | next _ ih => exact ih
  | stop | fail => rfl

theorem isOrdinary_startMoves (b : Bundler) (tokens : List Token) :
    (startMoves b tokens).all Move.isOrdinary := by
  unfold startMoves
  split <;> rfl

/-- A property of moves that files keep as well. -/
structure CarriedOn (Φ : Bundler → List Move → Prop) : Prop extends Carried Φ where
  visit (b : Bundler) (file : Path) : Φ b [.visit file]
  load {b : Bundler} {file : Path} (h : file ∉ b.visited) : Φ b [.visit file, .load file]
  start (b : Bundler) (origin : Path) (tokens : List Token) : Φ b [.start origin tokens]

namespace CarriedOn

variable {Φ : Bundler → List Move → Prop} {s : UnitState} {t : Token} {rest : List Token}
  {moves : List Move}

theorem unit (hΦ : CarriedOn Φ) {b : Bundler} {tokens : List Token}
    (h : Φ (applyAll (startMoves b tokens) b) moves) :
    Φ b (.start origin tokens :: (startMoves b tokens ++ moves)) :=
  hΦ.append (hΦ.start b origin tokens)
    (hΦ.append (hΦ.ordinary (isOrdinary_startMoves b tokens) _) h)

theorem behind_step (hΦ : CarriedOn Φ) {source : Text} (hcall : inlineCall? tree origin s t = none)
    (h : Φ (stepToken (idleUnit o tree origin source) s t rest).bundler moves) :
    Φ s.bundler (stepMoves (idleUnit o tree origin source) s t rest ++ moves) := by
  refine hΦ.append (hΦ.step _ s t rest) ?_
  rw [← stepToken_bundler hcall]
  exact h

theorem behind_inlined (hΦ : CarriedOn Φ) {inner : List Move} {after : Bundler}
    (hafter : after = applyAll inner s.bundler) (hinner : Φ s.bundler inner)
    (h : Φ (afterInline s t rest after).bundler moves) :
    Φ s.bundler (inner ++ (inlinedMoves s t rest after ++ moves)) := by
  subst hafter
  rw [← append_assoc]
  refine hΦ.append (hΦ.toCarried.inlined hinner t rest) ?_
  rw [applyAll_append, ← afterInline_bundler]
  exact h

/-- What files keep holds of every run. -/
theorem run (hΦ : CarriedOn Φ) {task : Task} (h : Run o tree task moves p) :
    Φ task.bundler moves := by
  induction h with
  | unlocated | again | unplaced | done | stop | fail => exact hΦ.ordinary rfl _
  | unread | unguarded => exact hΦ.visit _ _
  | load _ hc _ _ _ ih => exact hΦ.append (hΦ.load hc) ih
  | unit _ _ ih => exact hΦ.unit ih
  | step hcall _ ih => exact hΦ.behind_step hcall ih
  | inline _ hfile _ ihfile ih => exact hΦ.behind_inlined hfile.eq_applyAll ihfile ih
  | broken _ _ ihfile => exact ihfile
  | next _ ih => exact ih

end CarriedOn

/-- A task has one run. -/
theorem Run.unique {task : Task} {moves moves' : List Move} {p' : Progress}
    (h : Run o tree task moves p) (h' : Run o tree task moves' p') : moves = moves' ∧ p = p' := by
  induction h generalizing moves' p' with
  | unlocated | again | unread | unguarded => cases h' <;> simp_all
  | load hpath hc hread hguard hunit ih =>
    cases h' with
    | load hpath' hc' hread' hguard' hunit' =>
      cases hpath.symm.trans hpath'
      cases hread.symm.trans hread'
      cases hguard.symm.trans hguard'
      obtain ⟨rfl, rfl⟩ := ih hunit'
      exact ⟨rfl, rfl⟩
    | _ => simp_all
  | unplaced hplaced => cases h' <;> simp_all
  | unit hplaced hcopy ih =>
    cases h' with
    | unplaced hplaced' => cases hplaced.symm.trans hplaced'
    | unit hplaced' hcopy' =>
      cases hplaced.symm.trans hplaced'
      obtain ⟨rfl, rfl⟩ := ih hcopy'
      exact ⟨rfl, rfl⟩
  | done => cases h'; exact ⟨rfl, rfl⟩
  | step hcall hnext ih =>
    cases h' with
    | step hcall' hnext' =>
      obtain ⟨rfl, rfl⟩ := ih hnext'
      exact ⟨rfl, rfl⟩
    | inline hcall' | broken hcall' => cases hcall.symm.trans hcall'
  | inline hcall hfile hnext ihfile ih =>
    cases h' with
    | step hcall' => cases hcall.symm.trans hcall'
    | inline hcall' hfile' hnext' =>
      cases hcall.symm.trans hcall'
      obtain ⟨rfl, hafter⟩ := ihfile hfile'
      cases hafter
      obtain ⟨rfl, rfl⟩ := ih hnext'
      exact ⟨rfl, rfl⟩
    | broken hcall' hfile' =>
      cases hcall.symm.trans hcall'
      cases (ihfile hfile').2
  | broken hcall hfile ihfile =>
    cases h' with
    | step hcall' => cases hcall.symm.trans hcall'
    | inline hcall' hfile' =>
      cases hcall.symm.trans hcall'
      cases (ihfile hfile').2
    | broken hcall' hfile' =>
      cases hcall.symm.trans hcall'
      exact ihfile hfile'
  | next hrest ih =>
    cases h' with
    | next hrest' => exact ih hrest'
  | stop | fail => cases h'; exact ⟨rfl, rfl⟩

/-! ## What is left to visit -/

theorem visited_apply (m : Move) (b : Bundler) : b.visited <:+ (m.apply b).visited := by
  cases m with
  | visit file => exact suffix_cons file b.visited
  | dropComma =>
    show b.visited <:+ b.dropComma.visited
    unfold Bundler.dropComma
    split <;> exact suffix_refl _
  | _ => exact suffix_refl _

theorem visited_applyAll (moves : List Move) (b : Bundler) :
    b.visited <:+ (applyAll moves b).visited := by
  induction moves generalizing b with
  | nil => exact suffix_refl _
  | cons m moves ih => exact (visited_apply m b).trans (ih (m.apply b))

/-- The number of places that are left to visit. -/
def unvisited (tree : FileTree) (b : Bundler) : Nat :=
  (tree.places.map FileTree.pathOf).countP (!b.visited.contains ·)

theorem unvisited_le (tree : FileTree) (b : Bundler) : unvisited tree b ≤ tree.places.length := by
  unfold unvisited
  rw [← tree.places.length_map (f := FileTree.pathOf)]
  exact countP_le_length

theorem unvisited_applyAll (tree : FileTree) (moves : List Move) (b : Bundler) :
    unvisited tree (applyAll moves b) ≤ unvisited tree b := by
  refine countP_mono_left fun path _ hpath => ?_
  simp only [contains_eq_mem, Bool.not_eq_true', decide_eq_false_iff_not] at hpath ⊢
  exact fun hold => hpath ((visited_applyAll moves b).subset hold)

/-- Visiting a place for the first time leaves fewer. -/
theorem unvisited_visit {c : Path} (hpath : tree.canonical path = .ok c) (hc : c ∉ b.visited) :
    unvisited tree ((Move.visit c).apply b) < unvisited tree b := by
  have hle : ∀ places : List Path,
      places.countP (!((Move.visit c).apply b).visited.contains ·) ≤
        places.countP (!b.visited.contains ·) := by
    intro places
    refine countP_mono_left fun place _ hplace => ?_
    simp only [contains_eq_mem, Bool.not_eq_true', decide_eq_false_iff_not] at hplace ⊢
    exact fun hold => hplace (mem_cons_of_mem c hold)
  -- the place itself is counted before and not after, all others at most once as before
  obtain ⟨before, after, hplaces⟩ := append_of_mem (FileTree.canonical_mem_places hpath)
  have hnew : (c :: after).countP (!((Move.visit c).apply b).visited.contains ·) =
      after.countP (!((Move.visit c).apply b).visited.contains ·) :=
    countP_cons_of_neg (by simp [Move.apply])
  have hold : (c :: after).countP (!b.visited.contains ·) =
      after.countP (!b.visited.contains ·) + 1 :=
    countP_cons_of_pos (by simpa using hc)
  have hbefore := hle before
  have hafter := hle after
  unfold unvisited
  rw [hplaces, countP_append, countP_append, hnew, hold]
  omega

/-! ## The moves of the functions -/

/-- The moves of the tokens of a unit, `fileMoves` being those of the files that it inlines. -/
def tokenMoves (u : UnitContext) (fileMoves : Path → Bundler → List Move) (s : UnitState) :
    List Token → List Move
  | [] => []
  | t :: rest =>
    let more := match stepToken u s t rest with
      | .next s => tokenMoves u fileMoves s rest
      | _ => []
    match inlineCall? u.tree u.origin s t with
    | none => stepMoves (idleUnit u.options u.tree u.origin u.source) s t rest ++ more
    | some target =>
      fileMoves target s.bundler ++
        match u.inlineFile target s.bundler with
        | (after, none) => inlinedMoves s t rest after ++ more
        | _ => []

/-- The moves of `addContentWith`. -/
def contentMovesWith (o : BundleOptions) (tree : FileTree)
    (inlineFile : Path → Bundler → Progress) (fileMoves : Path → Bundler → List Move)
    (content : Text) (origin : Path) (b : Bundler) : List Move :=
  match placedTokens o origin content with
  | .error _ => []
  | .ok (source, tokens) =>
    .start origin tokens ::
      (startMoves b tokens ++
        tokenMoves { options := o, tree, origin, source, inlineFile } fileMoves
          (unitStart b tokens) (unitTokens b tokens))

/-- The moves of `addFileWith`. -/
def fileMovesWith (o : BundleOptions) (tree : FileTree) :
    (depth : Nat) → Path → Bundler → List Move
  | 0, _, _ => []
  | depth + 1, path, b =>
    match tree.canonical path with
    | .error _ => []
    | .ok c =>
      if b.visited.contains c then []
      else
        .visit c ::
          match tree.read c with
          | .error _ => []
          | .ok content =>
            match guarded o c content with
            | .error _ => []
            | .ok text =>
              .load c ::
                contentMovesWith o tree (addFileWith o tree depth) (fileMovesWith o tree depth) text
                  c ((Move.visit c).apply b)

/-- The moves of `addFile`. -/
def fileMoves (o : BundleOptions) (tree : FileTree) (path : Path) (b : Bundler) : List Move :=
  fileMovesWith o tree (maxDepth tree) path b

/-- The moves of `addContent`. -/
def contentMoves (o : BundleOptions) (tree : FileTree) (content : Text) (origin : Path)
    (b : Bundler) : List Move :=
  contentMovesWith o tree (addFile o tree) (fileMoves o tree) content origin b

/-! ## Every task has a run -/

/-- What comes of the verdict on a token, wherever the token leaves the bundle. -/
theorem run_verdict
    {rest : List Token}
    (hrest : ∀ s, unvisited u.tree s.bundler ≤ bound →
      Run u.options u.tree (.tokens u.origin u.source s rest) (tokenMoves u inner s rest)
        (copyTokens u s rest))
    (v : Verdict) :
    unvisited u.tree v.bundler ≤ bound →
      Run u.options u.tree (.verdict u.origin u.source v rest)
        (match v with
          | .next s => tokenMoves u inner s rest
          | _ => [])
        (match v with
          | .next s => copyTokens u s rest
          | .stop b => (b, none)
          | .fail b f => (b, some f)) := by
  intro hv
  cases v with
  | next s => exact .next (hrest s hv)
  | stop b => exact .stop
  | fail b f => exact .fail

/-- The tokens of a unit can be copied if the files that they inline can. -/
theorem run_copyTokens
    (hinline : ∀ path b, unvisited u.tree b ≤ bound →
      Run u.options u.tree (.file path b) (inner path b) (u.inlineFile path b))
    (s : UnitState) (ts : List Token) (hs : unvisited u.tree s.bundler ≤ bound) :
    Run u.options u.tree (.tokens u.origin u.source s ts) (tokenMoves u inner s ts)
      (copyTokens u s ts) := by
  induction ts generalizing s with
  | nil => exact .done
  | cons t rest ih =>
    unfold copyTokens tokenMoves
    cases hcall : inlineCall? u.tree u.origin s t with
    | none =>
      have hidle := @stepToken_inlineFile u s t rest hcall
        (idleUnit u.options u.tree u.origin u.source).inlineFile
      have hrun := run_verdict ih (stepToken u s t rest) <| by
        rw [stepToken_bundler hcall]
        exact Nat.le_trans (unvisited_applyAll _ _ _) hs
      refine .step hcall ?_
      show Run u.options u.tree (.verdict u.origin u.source
        (stepToken { u with inlineFile := (idleUnit u.options u.tree u.origin u.source).inlineFile }
          s t rest) rest) _ _
      rw [hidle]
      exact hrun
    | some target =>
      have hfile := hinline target s.bundler hs
      rw [stepToken_of_inline hcall]
      simp only
      -- the token ends with the file if that fails, and goes on from what it leaves otherwise
      rcases hin : u.inlineFile target s.bundler with ⟨after, _ | f⟩
      · rw [hin] at hfile
        have hrun := run_verdict ih (afterInline s t rest after) <| by
          have hafter : after = applyAll (inner target s.bundler) s.bundler := hfile.eq_applyAll
          rw [afterInline_bundler, hafter, ← applyAll_append]
          exact Nat.le_trans (unvisited_applyAll _ _ _) hs
        exact .inline hcall hfile hrun
      · rw [hin] at hfile
        simp only [append_nil]
        exact .broken hcall hfile

theorem run_addContentWith {inlineFile : Path → Bundler → Progress}
    (bound : Nat)
    (hinline : ∀ path b, unvisited tree b ≤ bound →
      Run o tree (.file path b) (inner path b) (inlineFile path b))
    (content : Text) (origin : Path) (b : Bundler) (hb : unvisited tree b ≤ bound) :
    Run o tree (.content content origin b)
      (contentMovesWith o tree inlineFile inner content origin b)
      (addContentWith o tree inlineFile content origin b) := by
  rw [addContentWith_eq]
  unfold contentMovesWith
  rcases hplaced : placedTokens o origin content with f | ⟨source, tokens⟩
  · exact .unplaced hplaced
  · exact .unit hplaced (run_copyTokens (u := ⟨o, tree, origin, source, inlineFile⟩) hinline
      (unitStart b tokens) (unitTokens b tokens) (Nat.le_trans (unvisited_applyAll _ _ _) hb))

/-- With more depth than there are places left, inlining a file is a run. -/
theorem run_addFileWith {depth : Nat} (h : unvisited tree b < depth) :
    Run o tree (.file path b) (fileMovesWith o tree depth path b)
      (addFileWith o tree depth path b) := by
  induction depth generalizing path b with
  | zero => exact absurd h (Nat.not_lt_zero _)
  | succ depth ih =>
    unfold addFileWith fileMovesWith
    cases hpath : tree.canonical path with
    | error e => exact .unlocated hpath
    | ok c =>
      by_cases hc : c ∈ b.visited
      · simp only [contains_iff_mem.2 hc, if_true]
        exact .again hpath hc
      · simp only [contains_iff_mem, hc, if_false]
        cases hread : tree.read c with
        | error e => exact .unread hpath hc hread
        | ok content =>
          simp only
          cases hguard : guarded o c content with
          | error f => exact .unguarded hpath hc hread hguard
          | ok text =>
            -- the file is visited before its text is copied, so one level less is enough
            have hless := unvisited_visit hpath hc
            exact .load hpath hc hread hguard (run_addContentWith (unvisited tree b - 1)
              (fun _ _ hb' => ih (by omega)) text c ((Move.visit c).apply b) (by omega))

theorem run_addFile (o : BundleOptions) (tree : FileTree) (path : Path) (b : Bundler) :
    Run o tree (.file path b) (fileMoves o tree path b) (addFile o tree path b) :=
  run_addFileWith (Nat.lt_succ_of_le (unvisited_le tree b))

theorem run_addContent (o : BundleOptions) (tree : FileTree) (content : Text) (origin : Path)
    (b : Bundler) : Run o tree (.content content origin b) (contentMoves o tree content origin b)
      (addContent o tree content origin b) :=
  run_addContentWith (unvisited tree b) (fun path b _ => run_addFile o tree path b) content origin b
    (Nat.le_refl _)

end LegacyPhp.Bundle
