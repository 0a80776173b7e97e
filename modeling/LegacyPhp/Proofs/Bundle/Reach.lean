import LegacyPhp.Proofs.Bundle.Run

/-!
# What comes up in the course of a task

Inlining a file is a task that leads to others: its text, the tokens of that text one after the
other, and for a token that includes a file the same again. `Reaches` says that a task comes up in
the course of another one, and with which moves behind it. So a statement can be about every state
that a bundle is ever in, in the middle of a unit and at any depth of inclusion, and not only about
what a call leaves.

A task that is reached starts from the bundle that the moves before it have made
(`Reaches.bundler`). `reaches_tokens` is for units whose tokens are known.
-/

namespace LegacyPhp.Bundle

open Text

/-- In the course of the first task the second one comes up, after the moves. -/
inductive Reaches (o : BundleOptions) (tree : FileTree) : Task → List Move → Task → Prop where
  | here {task} : Reaches o tree task [] task
  | load {path b c content text moves later} (hpath : tree.canonical path = .ok c)
      (hc : c ∉ b.visited) (hread : tree.read c = .ok content)
      (hguard : guarded o c content = .ok text)
      (hunit : Reaches o tree (.content text c ((Move.visit c).apply b)) moves later) :
      Reaches o tree (.file path b) (.visit c :: .load c :: moves) later
  | unit {text origin b source tokens moves later}
      (hplaced : placedTokens o origin text = .ok (source, tokens))
      (hcopy : Reaches o tree (.tokens origin source (unitStart b tokens) (unitTokens b tokens))
        moves later) :
      Reaches o tree (.content text origin b)
        (.start origin tokens :: (startMoves b tokens ++ moves)) later
  | step {origin source s t rest moves later} (hcall : inlineCall? tree origin s t = none)
      (hnext : Reaches o tree
        (.verdict origin source (stepToken (idleUnit o tree origin source) s t rest) rest) moves
        later) :
      Reaches o tree (.tokens origin source s (t :: rest))
        (stepMoves (idleUnit o tree origin source) s t rest ++ moves) later
  /-- Something comes up inside the file that a token includes. -/
  | into {origin source s t rest target moves later}
      (hcall : inlineCall? tree origin s t = some target)
      (hfile : Reaches o tree (.file target s.bundler) moves later) :
      Reaches o tree (.tokens origin source s (t :: rest)) moves later
  /-- Something comes up after the file that a token includes. -/
  | past {origin source s t rest target inner after moves later}
      (hcall : inlineCall? tree origin s t = some target)
      (hfile : Run o tree (.file target s.bundler) inner (after, none))
      (hnext : Reaches o tree (.verdict origin source (afterInline s t rest after) rest) moves
        later) :
      Reaches o tree (.tokens origin source s (t :: rest))
        (inner ++ (inlinedMoves s t rest after ++ moves)) later
  | next {origin source s ts moves later}
      (hrest : Reaches o tree (.tokens origin source s ts) moves later) :
      Reaches o tree (.verdict origin source (.next s) ts) moves later

variable {o : BundleOptions} {tree : FileTree} {moves : List Move}

/-- A task that is reached starts from what the moves before it have made. -/
theorem Reaches.bundler {task later : Task} (h : Reaches o tree task moves later) :
    later.bundler = applyAll moves task.bundler := by
  induction h with
  | here => rfl
  | load _ _ _ _ _ ih => exact ih
  | unit _ _ ih =>
    rw [ih, applyAll_cons, applyAll_append]
    rfl
  | step hcall _ ih =>
    rw [ih, applyAll_append]
    exact congrArg (applyAll _) (stepToken_bundler hcall)
  | into _ _ ih => exact ih
  | @past _ _ s t rest _ inner after moves later _ hfile _ ih =>
    have hafter : after = applyAll inner s.bundler := hfile.eq_applyAll
    rw [ih, applyAll_append, applyAll_append]
    show applyAll moves (afterInline s t rest after).bundler =
      applyAll moves (applyAll (inlinedMoves s t rest after) (applyAll inner s.bundler))
    rw [afterInline_bundler, ← hafter]
  | next _ ih => exact ih

theorem CarriedOn.reaches {Φ : Bundler → List Move → Prop} (hΦ : CarriedOn Φ) {task later : Task}
    (h : Reaches o tree task moves later) : Φ task.bundler moves := by
  induction h with
  | here => exact hΦ.ordinary rfl _
  | load _ hc _ _ _ ih => exact hΦ.append (hΦ.load hc) ih
  | unit _ _ ih => exact hΦ.unit ih
  | step hcall _ ih => exact hΦ.behind_step hcall ih
  | into _ _ ih => exact ih
  | past _ hfile _ ih => exact hΦ.behind_inlined hfile.eq_applyAll (hΦ.run hfile) ih
  | next _ ih => exact ih

/-! ## Units whose tokens are known -/

/-- What the first tokens of a unit do, `count` of them, if none of them inlines a file or ends the
unit: their moves, the state after them and the tokens that are left. -/
def advance (o : BundleOptions) (tree : FileTree) (origin : Path) (source : Text) :
    (count : Nat) → UnitState → List Token → Option (List Move × UnitState × List Token)
  | 0, s, ts => some ([], s, ts)
  | _ + 1, _, [] => none
  | count + 1, s, t :: rest =>
    match inlineCall? tree origin s t, stepToken (idleUnit o tree origin source) s t rest with
    | none, .next s' =>
      (advance o tree origin source count s' rest).map fun (moves, after) =>
        (stepMoves (idleUnit o tree origin source) s t rest ++ moves, after)
    | _, _ => none

theorem reaches_tokens {origin : Path} {source : Text} {count : Nat} {s after : UnitState}
    {ts rest : List Token}
    (h : advance o tree origin source count s ts = some (moves, after, rest)) :
    Reaches o tree (.tokens origin source s ts) moves (.tokens origin source after rest) := by
  induction count generalizing s ts moves with
  | zero =>
    cases h
    exact .here
  | succ count ih =>
    cases ts with
    | nil => cases h
    | cons t rest' =>
      unfold advance at h
      split at h
      · next s' hcall hstep =>
        obtain ⟨⟨more, left⟩, hmore, heq⟩ := Option.map_eq_some_iff.1 h
        cases heq
        refine .step hcall ?_
        rw [hstep]
        exact .next (ih hmore)
      · cases h

end LegacyPhp.Bundle
