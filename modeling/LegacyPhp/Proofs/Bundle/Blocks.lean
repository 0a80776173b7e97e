import LegacyPhp.Proofs.Bundle.Alternation
import LegacyPhp.Proofs.Bundle.Braces
import Mathlib.Algebra.Ring.Int.Defs

/-!
# The namespace blocks of a bundle

The namespace blocks of a bundle stand side by side and its braces are balanced, unless one of two
things happens. An inclusion or an import can end at an opening brace, which it takes away. Or a
block is opened while a brace that was copied is open, as when a file of another namespace is
included inside a function. `bundleRoot_nested_iff` says that these two are all that can go wrong in
a bundle that reads back as it was written, for balanced units whose directives end before the brace
around them closes.

A block is opened only where none is open and closed only where one is (`carriedOn_alternates`), so
the depth of what is written is the depth of what is copied, and one more inside a block. Both
directions follow that sum along the moves.
-/

namespace LegacyPhp.Bundle

open Text List

variable {depth : Int} {ms : List Mark} {moves : List Move} {b : Bundler} {m : Move}
  {o : BundleOptions} {tree : FileTree} {root : Path} {text : Text}

/-! ## Depths -/

/-- What a mark does to the depth. -/
def Mark.change : Mark → Int
  | up => 1
  | down => -1
  | block => 0

/-- What marks do to the depth. -/
def change (ms : List Mark) : Int := (ms.map Mark.change).sum

@[simp] theorem change_nil : change [] = 0 := rfl

@[simp] theorem change_cons (m : Mark) (ms : List Mark) : change (m :: ms) = m.change + change ms :=
  rfl

@[simp] theorem change_append (first second : List Mark) :
    change (first ++ second) = change first + change second := by
  simp [change]

/-- From a depth on, the depth is never negative and 0 at the end, and blocks open at depth 0. -/
structure Nested (depth : Int) (ms : List Mark) : Prop where
  nonneg : ∀ before, before <+: ms → 0 ≤ depth + change before
  closed : depth + change ms = 0
  outside : ∀ before after, ms = before ++ .block :: after → depth + change before = 0

theorem nested_nil : Nested depth [] ↔ depth = 0 := by
  constructor
  · intro h
    simpa using h.closed
  · rintro rfl
    refine ⟨fun before hbefore => ?_, rfl, fun before after h => ?_⟩
    · rw [prefix_nil.1 hbefore]
      exact Int.le_refl 0
    · cases before <;> cases h

theorem Nested.drop {depth : Int} {first second : List Mark} (h : Nested depth (first ++ second)) :
    Nested (depth + change first) second where
  nonneg before hbefore := by
    rw [Int.add_assoc, ← change_append]
    exact h.nonneg _ ((prefix_append_right_inj first).2 hbefore)
  closed := by
    rw [Int.add_assoc, ← change_append]
    exact h.closed
  outside before after hsecond := by
    rw [Int.add_assoc, ← change_append]
    exact h.outside _ after (by rw [hsecond, append_assoc])

theorem nested_cons {m : Mark} : Nested depth (m :: ms) ↔
      0 ≤ depth ∧ (m = .block → depth = 0) ∧ Nested (depth + m.change) ms := by
  constructor
  · intro h
    refine ⟨by simpa using h.nonneg [] nil_prefix, ?_, ?_⟩
    · rintro rfl
      simpa using h.outside [] ms rfl
    · simpa using @Nested.drop depth [m] ms h
  · rintro ⟨hdepth, hblock, h⟩
    refine ⟨?_, ?_, ?_⟩
    · intro before hbefore
      cases before with
      | nil => simpa using hdepth
      | cons m' before =>
        obtain ⟨rfl, htail⟩ := cons_prefix_cons.1 hbefore
        rw [change_cons, ← Int.add_assoc]
        exact h.nonneg before htail
    · rw [change_cons, ← Int.add_assoc]
      exact h.closed
    · intro before after hms
      cases before with
      | nil =>
        cases hms
        simpa using hblock rfl
      | cons m' before =>
        cases hms
        rw [change_cons, ← Int.add_assoc]
        exact h.outside before after rfl

/-- Marks are nested if following them leads back to depth 0. -/
theorem nested_iff_follow {depth : Nat} : Nested depth ms ↔ follow depth ms = some 0 := by
  fun_induction follow depth ms with
  | case1 depth =>
    rw [nested_nil]
    simp
  | case2 depth ms ih =>
    rw [nested_cons, ← ih]
    simp [Mark.change]
  | case3 ms =>
    refine iff_of_false (fun h => ?_) (by simp)
    have hlast := (nested_cons.1 h).2.2.nonneg [] nil_prefix
    exact absurd hlast (by decide)
  | case4 depth ms ih =>
    have hdepth : ((depth + 1 : Nat) : Int) + Mark.down.change = depth := by
      rw [Mark.change]
      omega
    rw [nested_cons, ← ih, hdepth]
    exact ⟨fun h => h.2.2, fun h => ⟨by omega, by simp, h⟩⟩
  | case5 ms ih =>
    rw [nested_cons, ← ih]
    simp [Mark.change]
  | case6 depth ms =>
    refine iff_of_false (fun h => ?_) (by simp)
    have hzero := (nested_cons.1 h).2.1 rfl
    omega

/-! ## Moves and depths -/

/-- The marks that a move writes. -/
def Move.written : Move → List Mark
  | openBlock _ => [.block, .up]
  | closeBlock => [.down]
  | m => m.copied

/-- The marks that moves write. -/
def written (moves : List Move) : List Mark := moves.flatMap Move.written

/-- The braces of units that moves write. -/
def copied (moves : List Move) : List Mark := moves.flatMap Move.copied

/-- Blocks are opened where no copied brace is open, `depth` braces being open at the start. -/
def OpensOutside (depth : Int) (moves : List Move) : Prop :=
  ∀ before name after, moves = before ++ .openBlock name :: after →
    depth + change (copied before) = 0

/-- The number of blocks that are open. -/
def openBlocks (b : Bundler) : Int := if b.openNamespace.isSome then 1 else 0

@[simp] theorem written_cons (m : Move) (moves : List Move) :
    written (m :: moves) = m.written ++ written moves := rfl

@[simp] theorem copied_cons (m : Move) (moves : List Move) :
    copied (m :: moves) = m.copied ++ copied moves := rfl

theorem Move.written_of_not_isBlock (h : m.isBlock = false) : m.written = m.copied := by
  cases m with
  | openBlock | closeBlock => cases h
  | _ => rfl

theorem opensOutside_cons : OpensOutside depth (m :: moves) ↔
      (∀ name, m = .openBlock name → depth = 0) ∧ OpensOutside (depth + change m.copied) moves := by
  constructor
  · intro h
    refine ⟨?_, fun before name after hmoves => ?_⟩
    · rintro name rfl
      simpa [copied] using h [] name moves rfl
    · have := h (m :: before) name after (by rw [hmoves]; rfl)
      rwa [copied_cons, change_append, ← Int.add_assoc] at this
  · rintro ⟨hm, h⟩ before name after hmoves
    cases before with
    | nil =>
      cases hmoves
      simpa [copied] using hm name rfl
    | cons m' before =>
      cases hmoves
      rw [copied_cons, change_append, ← Int.add_assoc]
      exact h before name after rfl

theorem Move.copied_cases (m : Move) : m.copied = [] ∨ m.copied = [.up] ∨ m.copied = [.down] := by
  cases m with
  | copy gap t =>
    simp only [copied, brace?]
    repeat' split
    all_goals simp
  | _ => exact .inl rfl

theorem Move.change_written (h : m.Fits b) :
    openBlocks b + change m.written = change m.copied + openBlocks (m.apply b) := by
  cases m with
  | openBlock name =>
    have hb : b.openNamespace = none := h
    simp [openBlocks, hb, written, copied, apply, Mark.change]
  | closeBlock =>
    have hb : b.openNamespace.isSome := Option.isSome_iff_ne_none.2 h
    simp [openBlocks, hb, written, copied, apply, Mark.change]
  | _ =>
    rw [written_of_not_isBlock rfl, openBlocks, openBlocks, openNamespace_apply rfl, Int.add_comm]

theorem change_written (h : Alternates b moves) : openBlocks b + change (written moves) =
      change (copied moves) + openBlocks (applyAll moves b) := by
  induction moves generalizing b with
  | nil => exact Int.add_comm _ _
  | cons m moves ih =>
    have hm := Move.change_written h.1
    have hrest := ih h.2
    rw [written_cons, copied_cons, change_append, change_append, applyAll_cons]
    omega

/-- Blocks side by side are opened outside copied braces. -/
theorem opensOutside_of_nested (halt : Alternates b moves)
    (h : Nested (depth + openBlocks b) (written moves)) : OpensOutside depth moves := by
  induction moves generalizing b depth with
  | nil =>
    intro before name after hmoves
    cases before <;> cases hmoves
  | cons m moves ih =>
    -- a move that opens a block writes the word first, at the depth of what is copied
    rw [opensOutside_cons]
    constructor
    · rintro name rfl
      have hb : b.openNamespace = none := halt.1
      have hdepth := (nested_cons.1 h).2.1 rfl
      simpa [openBlocks, hb] using hdepth
    · have hstep := Move.change_written halt.1
      have hrest := h.drop
      rw [Int.add_assoc, hstep, ← Int.add_assoc] at hrest
      exact ih halt.2 hrest

/-- A move that opens no block inside a copied brace goes on with a nesting. -/
theorem Nested.move (hfits : m.Fits b) (hdepth : 0 ≤ depth)
    (hopens : ∀ name, m = .openBlock name → depth = 0)
    (h : Nested (depth + openBlocks b + change m.written) ms) :
    Nested (depth + openBlocks b) (m.written ++ ms) := by
  have hblocks : 0 ≤ openBlocks b := by
    unfold openBlocks
    split <;> decide
  cases hm : m.isBlock with
  | false =>
    rw [Move.written_of_not_isBlock hm] at h ⊢
    rcases m.copied_cases with hcopied | hcopied | hcopied
    · rw [hcopied] at h ⊢
      simpa using h
    all_goals
      rw [hcopied] at h ⊢
      refine nested_cons.2 ⟨by omega, by simp, ?_⟩
      simpa using h
  | true =>
    cases m with
    | openBlock name =>
      have hb : b.openNamespace = none := hfits
      have hzero := hopens name rfl
      refine nested_cons.2 ⟨by omega, fun _ => by simp [openBlocks, hb, hzero], ?_⟩
      refine nested_cons.2 ⟨by simp [Mark.change]; omega, by simp, ?_⟩
      simpa [Move.written, Mark.change] using h
    | closeBlock =>
      refine nested_cons.2 ⟨by omega, by simp, ?_⟩
      simpa [Move.written] using h
    | _ => cases hm

/-- Copied braces that are nested stay so with blocks around them that open outside of them. -/
theorem nested_written (halt : Alternates b moves) (hend : (applyAll moves b).openNamespace = none)
    (hcopied : Nested depth (copied moves)) (houtside : OpensOutside depth moves) :
    Nested (depth + openBlocks b) (written moves) := by
  induction moves generalizing b depth with
  | nil =>
    have hb : b.openNamespace = none := hend
    have hblocks : openBlocks b = 0 := by simp [openBlocks, hb]
    rw [hblocks, Int.add_zero]
    exact hcopied
  | cons m moves ih =>
    obtain ⟨hopens, houtside⟩ := opensOutside_cons.1 houtside
    have hdepth : 0 ≤ depth := by simpa using hcopied.nonneg [] nil_prefix
    have hrest := ih halt.2 hend hcopied.drop houtside
    rw [Int.add_assoc, ← Move.change_written halt.1, ← Int.add_assoc] at hrest
    exact hrest.move halt.1 hdepth hopens

/-! ## Braces that are lost -/

theorem Move.due_eq_copied (h : m.losesBrace = false) : m.due = m.copied := by
  rw [due, h, if_neg Bool.false_ne_true]

theorem Move.copied_of_losesBrace (h : m.losesBrace) : m.copied = [] := by
  cases m with
  | take d t => rfl
  | _ => cases h

theorem due_eq_copied (h : ∀ m ∈ moves, m.losesBrace = false) : due moves = copied moves := by
  induction moves with
  | nil => rfl
  | cons m moves ih =>
    obtain ⟨hm, hrest⟩ := forall_mem_cons.1 h
    rw [due_cons, copied_cons, Move.due_eq_copied hm, ih hrest]

theorem change_due (moves : List Move) :
    change (due moves) = change (copied moves) + moves.countP Move.losesBrace := by
  induction moves with
  | nil => rfl
  | cons m moves ih =>
    rw [due_cons, copied_cons, change_append, change_append, ih]
    by_cases hm : m.losesBrace
    · rw [countP_cons_of_pos hm, Move.due, if_pos hm, Move.copied_of_losesBrace hm]
      simp only [change_cons, change_nil, Mark.change]
      omega
    · rw [countP_cons_of_neg hm, Move.due_eq_copied (Bool.eq_false_iff.2 hm)]
      omega

/-- Where the braces that are due get closed, what is written is nested if no brace is lost and the
blocks are opened outside copied braces, and only then. -/
theorem nested_written_iff (halt : Alternates b moves) (hstart : b.openNamespace = none)
    (hend : (applyAll moves b).openNamespace = none) (hdue : Nested 0 (due moves)) :
    Nested 0 (written moves) ↔ (∀ m ∈ moves, m.losesBrace = false) ∧ OpensOutside 0 moves := by
  have hblocks : openBlocks b = 0 := by simp [openBlocks, hstart]
  have hblocks' : openBlocks (applyAll moves b) = 0 := by simp [openBlocks, hend]
  constructor
  · intro h
    -- the depths add up only if nothing is missing
    have hsum := change_written halt
    have hdepth := hdue.closed
    have hwritten := h.closed
    rw [change_due] at hdepth
    have hcount : moves.countP Move.losesBrace = 0 := by omega
    have houtside : OpensOutside 0 moves := by
      refine opensOutside_of_nested halt ?_
      rwa [hblocks]
    exact ⟨fun m hm => Bool.eq_false_iff.2 (countP_eq_zero.1 hcount m hm), houtside⟩
  · rintro ⟨hkept, houtside⟩
    -- nothing is lost, so what is copied is what is due
    rw [due_eq_copied hkept] at hdue
    have h := nested_written halt hend hdue houtside
    rwa [hblocks] at h

/-! ## The whole bundle -/

/-- The moves of `Bundler.finish`. -/
def finishMoves (b : Bundler) : List Move :=
  match b.openNamespace with
  | none => []
  | some _ => enterMoves b ++ [.closeBlock]

/-- The moves of `bundleRoot`. -/
def rootMoves (o : BundleOptions) (tree : FileTree) (root : Path) : List Move :=
  fileMoves o tree root {} ++ finishMoves (addFile o tree root {}).1

theorem finish_eq (b : Bundler) : b.finish = (applyAll (finishMoves b) b).output := by
  unfold Bundler.finish finishMoves
  cases b.openNamespace with
  | none => rfl
  | some name =>
    simp only
    rw [applyAll_append, applyAll_enterMoves]
    rfl

theorem openNamespace_finishMoves (b : Bundler) :
    (applyAll (finishMoves b) b).openNamespace = none := by
  unfold finishMoves
  split
  · next hb => exact hb
  · rw [applyAll_append]
    rfl

theorem alternates_finishMoves (b : Bundler) : Alternates b (finishMoves b) := by
  unfold finishMoves
  split
  · trivial
  · next name hb =>
    refine (alternates_of_no_block (no_block_enterMoves b) b).append ⟨?_, trivial⟩
    show (applyAll (enterMoves b) b).openNamespace ≠ none
    rw [openNamespace_applyAll (no_block_enterMoves b), hb]
    exact Option.some_ne_none name

@[simp] theorem due_finishMoves (b : Bundler) : due (finishMoves b) = [] := by
  unfold finishMoves
  split
  · rfl
  · rw [due_append, due_enterMoves]
    rfl

theorem addFile_eq_applyAll (o : BundleOptions) (tree : FileTree) (root : Path) :
    (addFile o tree root {}).1 = applyAll (fileMoves o tree root {}) {} :=
  (run_addFile o tree root {}).eq_applyAll

theorem alternates_rootMoves (o : BundleOptions) (tree : FileTree) (root : Path) :
    Alternates {} (rootMoves o tree root) := by
  refine (carriedOn_alternates.run (run_addFile o tree root {})).append ?_
  show Alternates (applyAll (fileMoves o tree root {}) {}) _
  rw [← addFile_eq_applyAll]
  exact alternates_finishMoves _

theorem bundleRoot_eq_ok (h : bundleRoot o tree root = .ok text) :
    (addFile o tree root {}).2 = none ∧
      text = finalize o (applyAll (rootMoves o tree root) {}).output := by
  unfold rootMoves
  rw [applyAll_append, ← addFile_eq_applyAll, ← finish_eq]
  unfold bundleRoot at h
  rcases hadd : addFile o tree root {} with ⟨b, _ | f⟩
  · rw [hadd] at h
    cases h
    exact ⟨rfl, rfl⟩
  · rw [hadd] at h
    cases h

theorem nested_due_rootMoves (hadd : (addFile o tree root {}).2 = none)
    (hunits : ∀ m ∈ rootMoves o tree root, m.startsBalanced)
    (hclosing : ∀ m ∈ rootMoves o tree root, m.takesClosing = false) :
    Nested 0 (due (rootMoves o tree root)) := by
  have hfollow := (run_addFile o tree root {}).follow_due hadd
    (fun m hm => ⟨hunits m (mem_append_left _ hm), hclosing m (mem_append_left _ hm)⟩)
    (d := 0) rfl 0
  unfold rootMoves
  rw [due_append, due_finishMoves, append_nil]
  exact nested_iff_follow.2 hfollow

theorem marks_of_read {tokens : List Token} (hread : (tokenize text).map marks = .ok ms)
    (h : tokenize text = .ok tokens) : marks tokens = ms := by
  rw [h] at hread
  injection hread

/-- Let the units of a bundle be balanced and let no directive take a closing brace. If the bundle
reads back with the marks that were written, then its braces are balanced and its blocks stand side
by side if no directive takes an opening brace that opens no block, and no block is opened inside a
copied brace; and only then. -/
theorem bundleRoot_nested_iff {o : BundleOptions} {tree : FileTree} {root : Path} {text : Text}
    (h : bundleRoot o tree root = .ok text)
    (hunits : ∀ m ∈ rootMoves o tree root, m.startsBalanced)
    (hclosing : ∀ m ∈ rootMoves o tree root, m.takesClosing = false)
    (hread : (tokenize text).map marks = .ok (written (rootMoves o tree root))) :
    text = finalize o (applyAll (rootMoves o tree root) {}).output ∧
      ∃ tokens, tokenize text = .ok tokens ∧
        (Nested 0 (marks tokens) ↔
          (∀ m ∈ rootMoves o tree root, m.losesBrace = false) ∧
            OpensOutside 0 (rootMoves o tree root)) := by
  obtain ⟨hadd, htext⟩ := bundleRoot_eq_ok h
  obtain ⟨tokens, htokens, _⟩ := map_eq_ok hread
  refine ⟨htext, tokens, htokens, ?_⟩
  rw [marks_of_read hread htokens]
  refine nested_written_iff (alternates_rootMoves o tree root) rfl ?_
    (nested_due_rootMoves hadd hunits hclosing)
  rw [rootMoves, applyAll_append, ← addFile_eq_applyAll]
  exact openNamespace_finishMoves _

/-- A file that includes one of another namespace between its declarations. -/
def includingBetween : FileTree where
  entries := [
    (["a.php".toList], .file (.text
      "<?php namespace A; class C { } include 'b.php'; f();".toList)),
    (["b.php".toList], .file (.text "<?php namespace B { class D { } }".toList))]

/-- A file that includes one of another namespace inside a function. -/
def includingInside : FileTree where
  entries := [
    (["a.php".toList], .file (.text
      "<?php namespace A; function f() \x7b include 'b.php'; \x7d".toList)),
    (["b.php".toList], .file (.text "<?php namespace B { class D { } }".toList))]

/-- In neither bundle a brace is lost, but in the second one a block is opened inside a function. -/
theorem bundleRoot_nested_iff_including :
    let between := ("<?php //netteloader=Nette\\Framework\n namespace A\x7bclass\nC" ++
      "\x7b\x7d\x7dnamespace B\x7bclass\nD\x7b\x7d\x7dnamespace A\x7bf();\x7d").toList
    let inside := ("<?php //netteloader=Nette\\Framework\n namespace A\x7bfunction\nf()" ++
      "\x7b\x7dnamespace B\x7bclass\nD\x7b\x7d\x7dnamespace A\x7b\x7d\x7d").toList
    (bundleRoot {} includingBetween "a.php".toList = .ok between ∧
      (∃ tokens, tokenize between = .ok tokens ∧ Nested 0 (marks tokens)) ∧
      OpensOutside 0 (rootMoves {} includingBetween "a.php".toList)) ∧
    bundleRoot {} includingInside "a.php".toList = .ok inside ∧
      (∃ tokens, tokenize inside = .ok tokens ∧ ¬ Nested 0 (marks tokens)) ∧
      ¬ OpensOutside 0 (rootMoves {} includingInside "a.php".toList) := by
  intro between inside
  have hrun : (∀ m ∈ rootMoves {} includingBetween "a.php".toList,
        m.startsBalanced ∧ m.takesClosing = false) ∧
      written (rootMoves {} includingBetween "a.php".toList) =
        [.block, .up, .up, .down, .down, .block, .up, .up, .down, .down, .block, .up, .down] ∧
      ((tokenize between).map marks).toOption =
        some (written (rootMoves {} includingBetween "a.php".toList)) ∧
      (bundleRoot {} includingBetween "a.php".toList).toOption = some between := by
    decide +kernel
  have hrun' : (∀ m ∈ rootMoves {} includingInside "a.php".toList,
        m.startsBalanced ∧ m.takesClosing = false ∧ m.losesBrace = false) ∧
      written (rootMoves {} includingInside "a.php".toList) =
        [.block, .up, .up, .down, .block, .up, .up, .down, .down, .block, .up, .down, .down] ∧
      ((tokenize inside).map marks).toOption =
        some (written (rootMoves {} includingInside "a.php".toList)) ∧
      (bundleRoot {} includingInside "a.php".toList).toOption = some inside := by
    decide +kernel
  obtain ⟨hmoves, hwritten, hmarks, hroot⟩ := hrun
  obtain ⟨hmoves', hwritten', hmarks', hroot'⟩ := hrun'
  have hread := eq_ok_of_toOption hmarks
  have hread' := eq_ok_of_toOption hmarks'
  have hbetween := eq_ok_of_toOption hroot
  have hinside := eq_ok_of_toOption hroot'
  obtain ⟨-, tokens, htokens, hiff⟩ := bundleRoot_nested_iff hbetween
    (fun m hm => (hmoves m hm).1) (fun m hm => (hmoves m hm).2) hread
  obtain ⟨-, tokens', htokens', hiff'⟩ := bundleRoot_nested_iff hinside
    (fun m hm => (hmoves' m hm).1) (fun m hm => (hmoves' m hm).2.1) hread'
  have hnested : Nested 0 (marks tokens) := by
    rw [marks_of_read hread htokens, hwritten]
    exact nested_iff_follow.2 rfl
  have hnested' : ¬ Nested 0 (marks tokens') := by
    rw [marks_of_read hread' htokens', hwritten']
    exact fun h => nomatch nested_iff_follow.1 h
  refine ⟨⟨hbetween, ⟨tokens, htokens, hnested⟩, (hiff.1 hnested).2⟩, hinside,
    ⟨tokens', htokens', hnested'⟩, fun houtside => hnested' (hiff'.2 ⟨fun m hm => ?_, houtside⟩)⟩
  exact (hmoves' m hm).2.2

end LegacyPhp.Bundle
