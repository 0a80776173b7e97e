import LegacyPhp.Proofs.Bundle.Blocks
import LegacyPhp.Proofs.Bundle.LoadOnce
import Mathlib.Data.List.Induction

/-!
# The open block in the state and in the output

A bundle knows which namespace block is open, and it writes the marks of the blocks itself. A call
may fail in the middle of a chain of inclusions, with a block closed that was to be opened again.
`session_blocks_in_turn` says that state and output agree at every moment all the same: the marks
written so far are blocks opened and closed in turn, and what is left open is the block that the
state names.

The marks are those of the moves, so that half follows from `carriedOn_alternates`. The record of
imports changes by the moves `setImports` alone. The lists that they carry are free of duplicates if
the record is when a unit starts (`carriedOn_distinct`), since a unit that goes on after an included
file takes back the record that it had before.
-/

namespace LegacyPhp.Bundle

open Text List

variable {m : Move} {b after : Bundler} {moves first second : List Move} {s : UnitState}
  {calls : List Call}

/-! ## Marks of blocks -/

/-- A mark of a block. -/
inductive BlockMark where
  | opener (name : Text)
  | closer
  deriving DecidableEq

/-- A mark as it is written. -/
def BlockMark.text : BlockMark → Text
  | opener name => "namespace ".toList ++ name ++ ['{']
  | closer => ['}']

/-- The mark that a move writes. -/
def Move.blockMark? : Move → Option BlockMark
  | openBlock name => some (.opener name)
  | closeBlock => some .closer
  | _ => none

/-- The marks of blocks that moves write. -/
def blockMarks (moves : List Move) : List BlockMark := moves.filterMap Move.blockMark?

/-- The marks of the blocks `closed`, one after the other, and of a block that is still open. -/
def inTurn (closed : List Text) (unclosed : Option Text) : List BlockMark :=
  closed.flatMap (fun name => [.opener name, .closer]) ++ unclosed.toList.map .opener

theorem blockMarks_concat (moves : List Move) (m : Move) :
    blockMarks (moves ++ [m]) = blockMarks moves ++ m.blockMark?.toList := by
  unfold blockMarks
  rw [filterMap_append, filterMap_cons, filterMap_nil]
  cases m.blockMark? <;> rfl

theorem output_of_blockMark {mark : BlockMark} (h : m.blockMark? = some mark) (b : Bundler) :
    (m.apply b).output = b.output ++ mark.text := by
  cases m with
  | openBlock | closeBlock =>
    cases h
    exact Bundler.output_write b _
  | _ => cases h

theorem Move.blockMark?_of_not_isBlock (h : m.isBlock = false) : m.blockMark? = none := by
  cases m with
  | openBlock | closeBlock => cases h
  | _ => rfl

theorem alternates_append :
    Alternates b (first ++ second) ↔ Alternates b first ∧ Alternates (applyAll first b) second := by
  constructor
  · intro h
    induction first generalizing b with
    | nil => exact ⟨trivial, h⟩
    | cons m first ih => exact ⟨⟨h.1, (ih h.2).1⟩, (ih h.2).2⟩
  · exact fun h => h.1.append h.2

/-- Marks that alternate leave open what the state names. -/
theorem Alternates.exists_inTurn (h : Alternates b moves) (hb : b.openNamespace = none) :
    ∃ closed, blockMarks moves = inTurn closed (applyAll moves b).openNamespace := by
  induction moves using List.reverseRecOn with
  | nil => exact ⟨[], by rw [applyAll_nil, hb]; rfl⟩
  | append_singleton moves m ih =>
    obtain ⟨hmoves, hm, -⟩ := alternates_append.1 h
    obtain ⟨closed, hclosed⟩ := ih hmoves
    rw [applyAll_append, applyAll_cons, applyAll_nil, blockMarks_concat, hclosed]
    cases hblock : m.isBlock with
    | false =>
      rw [Move.blockMark?_of_not_isBlock hblock, Move.openNamespace_apply hblock]
      exact ⟨closed, append_nil _⟩
    | true =>
      cases m with
      | openBlock name =>
        -- nothing was open, so the new mark is the only one without a partner
        have hnone : (applyAll moves b).openNamespace = none := hm
        refine ⟨closed, ?_⟩
        rw [hnone]
        simp [inTurn, Move.blockMark?, Move.apply]
      | closeBlock =>
        obtain ⟨name, hname⟩ := Option.ne_none_iff_exists'.1 hm
        exact ⟨closed ++ [name], by rw [hname]; simp [inTurn, Move.blockMark?, Move.apply]⟩
      | _ => cases hblock

/-! ## The record of imports -/

/-- The records of imports that moves set have no duplicates. -/
def Distinct (moves : List Move) : Prop :=
  ∀ imports, .setImports imports ∈ moves → imports.Nodup

theorem Distinct.append (h : Distinct first) (h' : Distinct second) : Distinct (first ++ second) :=
  fun imports himports => (mem_append.1 himports).elim (h imports) (h' imports)

theorem Move.nodup_apply (hb : b.imports.Nodup)
    (hm : ∀ imports, m = .setImports imports → imports.Nodup) : (m.apply b).imports.Nodup := by
  cases m with
  | setImports imports => exact hm imports rfl
  | dropComma =>
    simp only [apply, Bundler.dropComma]
    split <;> exact hb
  | _ => exact hb

theorem Distinct.nodup_applyAll (h : Distinct moves) (hb : b.imports.Nodup) :
    (applyAll moves b).imports.Nodup := by
  induction moves generalizing b with
  | nil => exact hb
  | cons m moves ih =>
    refine ih (fun imports himports => h imports (mem_cons_of_mem m himports)) ?_
    exact Move.nodup_apply hb fun imports hm => h imports (hm ▸ mem_cons_self)

/-- Whether a move sets the record. -/
def Move.isRecord : Move → Bool
  | setImports _ => true
  | _ => false

theorem distinct_of_no_record (h : moves.all (!·.isRecord)) : Distinct moves := by
  intro imports himports
  cases all_eq_true.1 h _ himports

theorem no_record_of_ordinary (h : moves.all Move.isOrdinary) : moves.all (!·.isRecord) := by
  refine all_imp (fun {m} hm => ?_) h
  cases m <;> first | rfl | cases hm

theorem no_record_closeMoves (b : Bundler) : (closeMoves b).all (!·.isRecord) := by
  unfold closeMoves
  split <;> rfl

theorem distinct_switchMoves (b : Bundler) (name : Text) : Distinct (switchMoves b name) := by
  unfold switchMoves
  split
  · exact distinct_of_no_record rfl
  · refine (distinct_of_no_record (no_record_closeMoves b)).append fun imports himports => ?_
    have hnil : imports = [] := by simpa using himports
    rw [hnil]
    exact nodup_nil

theorem distinct_importMoves (hb : b.imports.Nodup) (name : Text) :
    Distinct (importMoves b name) := by
  unfold importMoves
  split
  · exact fun imports himports => nomatch himports
  · next hnew =>
    intro imports himports
    have himports : imports = b.imports ++ [name] := by simpa using himports
    have hfresh : name ∉ b.imports := by simpa using hnew
    rw [himports]
    refine nodup_append.2 ⟨hb, by simp, fun x hx y hy hxy => ?_⟩
    exact hfresh (mem_singleton.1 hy ▸ hxy ▸ hx)

/-- After an included file the record is the one from before. -/
theorem distinct_restoreMoves (b : Bundler) {before : Bundler} (hbefore : before.imports.Nodup) :
    Distinct (restoreMoves b before) := by
  have hreopen : (reopenMoves before).all (!·.isRecord) := by
    unfold reopenMoves
    split
    · rfl
    · rw [all_cons]
      split <;> rfl
  unfold restoreMoves
  split
  · exact distinct_of_no_record rfl
  · refine Distinct.append (distinct_of_no_record ?_) fun imports himports => ?_
    · rw [all_append, all_append, hreopen, no_record_closeMoves,
        no_record_of_ordinary (isOrdinary_enterMoves b)]
      rfl
    · cases mem_singleton.1 himports
      exact hbefore

variable {o : BundleOptions} {tree : FileTree}

/-- A run that starts with a record without duplicates sets no other. The unit goes on with its own
record, whatever a file has left. -/
theorem carriedOn_distinct : CarriedOn fun b moves => b.imports.Nodup → Distinct moves where
  append h h' hb := (h hb).append (h' ((h hb).nodup_applyAll hb))
  ordinary h _ _ := distinct_of_no_record (no_record_of_ordinary h)
  switch b name _ := distinct_switchMoves b name
  use _ name hb := distinct_importMoves hb name
  restore h hb := (h hb).append (distinct_restoreMoves _ hb)
  visit _ _ _ := distinct_of_no_record rfl
  load _ _ := distinct_of_no_record rfl
  start _ _ _ _ := distinct_of_no_record rfl

/-! ## Sessions -/

theorem Session.distinct (h : Session o tree calls b moves after) (hb : b.imports.Nodup) :
    Distinct moves :=
  carriedOn_distinct.session h hb

theorem output_enterCode (b : Bundler) :
    b.enterCode.output = b.output ++ if b.inCode then [] else "<?php ".toList := by
  unfold Bundler.enterCode
  split
  · exact (append_nil _).symm
  · exact Bundler.output_write b _

/-- The end of a bundle writes one closing mark if a block is open, and none otherwise. -/
theorem finish_eq_output (b : Bundler) : b.finish = b.output ++
      if b.openNamespace.isSome then
        (if b.inCode then [] else "<?php ".toList) ++ BlockMark.closer.text
      else [] := by
  unfold Bundler.finish
  cases b.openNamespace with
  | none => exact (append_nil _).symm
  | some name =>
    show (b.enterCode.write ['}']).output = _
    rw [Bundler.output_write, output_enterCode, append_assoc]
    rfl

/-- After any part of what a session does, its calls failing or not, the marks of blocks that were
written are blocks opened and closed in turn, with one more opened if the state names it and none
if the state names none; the record of imports has no duplicates. At the end one closing mark is
written if a block is open, and none otherwise. -/
theorem session_blocks_in_turn (o : BundleOptions) (tree : FileTree) (calls : List Call)
    (visited : List Path) :
    ∃ moves, Session o tree calls { visited } moves (performAll o tree calls { visited }) ∧
      performAll o tree calls { visited } = applyAll moves { visited } ∧
      (∀ earlier later, moves = earlier ++ later →
        (∃ closed,
          blockMarks earlier = inTurn closed (applyAll earlier { visited }).openNamespace) ∧
        (applyAll earlier { visited }).imports.Nodup) ∧
      (∀ earlier m later mark, moves = earlier ++ m :: later → m.blockMark? = some mark →
        (applyAll (earlier ++ [m]) { visited }).output =
          (applyAll earlier { visited }).output ++ mark.text) ∧
      (performAll o tree calls { visited }).finish =
        (performAll o tree calls { visited }).output ++
          if (performAll o tree calls { visited }).openNamespace.isSome then
            (if (performAll o tree calls { visited }).inCode then [] else "<?php ".toList) ++
              BlockMark.closer.text
          else [] := by
  obtain ⟨moves, hsession⟩ := exists_session o tree calls { visited }
  refine ⟨moves, hsession, hsession.eq_applyAll, ?_, ?_, finish_eq_output _⟩
  · rintro earlier later rfl
    have hearlier := (alternates_append.1 (carriedOn_alternates.session hsession)).1
    have hdistinct : Distinct earlier := fun imports himports =>
      hsession.distinct List.nodup_nil imports (List.mem_append_left later himports)
    exact ⟨hearlier.exists_inTurn rfl, hdistinct.nodup_applyAll List.nodup_nil⟩
  · intro earlier m later mark _ hmark
    rw [applyAll_append]
    exact output_of_blockMark hmark _

/-- A file that includes one of another namespace, in which a file is missing. -/
def brokenTree : FileTree where
  entries := [
    (["a.php".toList], .file (.text "<?php namespace A; use X; include 'b.php'; f();".toList)),
    (["b.php".toList], .file (.text "<?php namespace B; g(); include 'c.php';".toList))]

/-- The call fails inside the file that is included. Its block is open then, in the state as in the
output, and a second call goes on from there. -/
theorem session_blocks_in_turn_broken :
    let calls := [Call.file "a.php".toList, .content "<?php namespace A; h();".toList []]
    let b := performAll {} brokenTree calls {}
    b.openNamespace = some "A".toList ∧
      (∃ closed moves, blockMarks moves = inTurn closed (some "A".toList) ∧
        b = applyAll moves {}) ∧
      (addFile {} brokenTree "a.php".toList {}).2.isSome ∧
      (addFile {} brokenTree "a.php".toList {}).1.openNamespace = some "B".toList ∧
      b.finish = ("<?php namespace A\x7buse\nX;\x7dnamespace B\x7bg();\x7d" ++
        "namespace A\x7bh();\x7d").toList := by
  intro calls b
  obtain ⟨moves, -, hb, hmoves, -, -⟩ := session_blocks_in_turn {} brokenTree calls []
  obtain ⟨closed, hclosed⟩ := (hmoves moves [] (List.append_nil _).symm).1
  -- all but the moves is evaluated
  refine And.elim (fun hopen hrun => ⟨hopen, ⟨closed, moves, ?_, hb⟩, hrun⟩) (by decide +kernel)
  rw [hclosed, ← hb]
  exact congrArg (inTurn closed) hopen

end LegacyPhp.Bundle
