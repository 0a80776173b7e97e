import LegacyPhp.Proofs.Bundle.Run

/-!
# Blocks open and close in turn

A namespace block is opened by `switchNamespace`, opened again by `restore` after a file has been
inlined, and closed by these two and by `finish`. `Alternates` says of some moves that a block is
opened only where none is open and closed only where one is; `carriedOn_alternates` says it of every
run.

Most moves neither open nor close a block. For them there is one argument, `alternates_of_no_block`,
and the rest are the few places that write the moves of a block themselves.
-/

namespace LegacyPhp.Bundle

open Text

variable {moves : List Move} {m : Move}

namespace Move

/-- Whether a move opens or closes a block. -/
def isBlock : Move → Bool
  | openBlock _ | closeBlock => true
  | _ => false

/-- A block is opened where none is open and closed where one is. -/
def Fits (b : Bundler) : Move → Prop
  | openBlock _ => b.openNamespace = none
  | closeBlock => b.openNamespace ≠ none
  | _ => True

theorem fits_of_not_isBlock (h : m.isBlock = false) (b : Bundler) : m.Fits b := by
  cases m with
  | openBlock | closeBlock => cases h
  | _ => trivial

theorem openNamespace_apply (h : m.isBlock = false) (b : Bundler) :
    (m.apply b).openNamespace = b.openNamespace := by
  cases m with
  | openBlock | closeBlock => cases h
  | dropComma =>
    simp only [apply, Bundler.dropComma]
    split <;> rfl
  | _ => rfl

end Move

/-- Along the moves blocks are opened and closed in turn. -/
def Alternates (b : Bundler) : List Move → Prop
  | [] => True
  | m :: moves => m.Fits b ∧ Alternates (m.apply b) moves

theorem Alternates.append {b : Bundler} {first second : List Move} (h : Alternates b first)
    (h' : Alternates (applyAll first b) second) : Alternates b (first ++ second) := by
  induction first generalizing b with
  | nil => exact h'
  | cons m first ih => exact ⟨h.1, ih h.2 h'⟩

theorem alternates_of_no_block (h : moves.all (!·.isBlock)) (b : Bundler) : Alternates b moves := by
  induction moves generalizing b with
  | nil => trivial
  | cons m moves ih =>
    rw [List.all_cons, Bool.and_eq_true, Bool.not_eq_true'] at h
    exact ⟨m.fits_of_not_isBlock h.1 b, ih h.2 _⟩

theorem openNamespace_applyAll (h : moves.all (!·.isBlock)) (b : Bundler) :
    (applyAll moves b).openNamespace = b.openNamespace := by
  induction moves generalizing b with
  | nil => rfl
  | cons m moves ih =>
    rw [List.all_cons, Bool.and_eq_true, Bool.not_eq_true'] at h
    rw [applyAll_cons, ih h.2, Move.openNamespace_apply h.1]

/-! ## The moves of a token -/

theorem no_block_of_ordinary (h : moves.all Move.isOrdinary) : moves.all (!·.isBlock) := by
  refine all_imp (fun {m} hm => ?_) h
  cases m <;> first | rfl | cases hm

theorem no_block_enterMoves (b : Bundler) : (enterMoves b).all (!·.isBlock) :=
  no_block_of_ordinary (isOrdinary_enterMoves b)

theorem no_block_plainMoves (s : UnitState) (t : Token) (rest : List Token) :
    (plainMoves s t rest).all (!·.isBlock) :=
  no_block_of_ordinary (isOrdinary_plainMoves s t rest)

theorem alternates_closeMoves (b : Bundler) : Alternates b (closeMoves b) := by
  unfold closeMoves
  split
  · next hopen => exact ⟨Option.isSome_iff_ne_none.1 hopen, trivial⟩
  · trivial

theorem openNamespace_closeMoves (b : Bundler) :
    (applyAll (closeMoves b) b).openNamespace = none := by
  rw [applyAll_closeMoves]

theorem alternates_switchMoves (b : Bundler) (name : Text) : Alternates b (switchMoves b name) := by
  unfold switchMoves
  split
  · trivial
  · exact (alternates_closeMoves b).append ⟨openNamespace_closeMoves b, trivial, trivial⟩

theorem alternates_restoreMoves (b before : Bundler) : Alternates b (restoreMoves b before) := by
  unfold restoreMoves
  split
  · trivial
  · -- after entering code the same block is open
    have hopen : (applyAll (enterMoves b) b).openNamespace = b.openNamespace :=
      openNamespace_applyAll (no_block_enterMoves b) b
    have hclose : closeMoves b = closeMoves (applyAll (enterMoves b) b) := by
      unfold closeMoves
      rw [hopen]
    have hreopen : ∀ b : Bundler, b.openNamespace = none →
        Alternates b (reopenMoves before ++ [.setImports before.imports]) := by
      intro b hb
      unfold reopenMoves
      split
      · exact ⟨trivial, trivial⟩
      · refine ⟨hb, alternates_of_no_block ?_ _⟩
        split <;> rfl
    rw [List.append_assoc]
    refine Alternates.append ?_ (hreopen _ ?_)
    · refine (alternates_of_no_block (no_block_enterMoves b) b).append ?_
      rw [hclose]
      exact alternates_closeMoves _
    · rw [applyAll_append, hclose]
      exact openNamespace_closeMoves _

/-- Blocks are opened and closed in turn along every run. -/
theorem carriedOn_alternates : CarriedOn Alternates where
  append := .append
  ordinary h := alternates_of_no_block (no_block_of_ordinary h)
  switch := alternates_switchMoves
  use b name := by
    refine alternates_of_no_block ?_ b
    unfold importMoves
    split <;> rfl
  -- the file may leave another block open than it found; the moves that restore start from there
  restore h := h.append (alternates_restoreMoves _ _)
  visit _ _ := ⟨trivial, trivial⟩
  load _ := ⟨trivial, trivial, trivial⟩
  start _ _ _ := ⟨trivial, trivial⟩

end LegacyPhp.Bundle
