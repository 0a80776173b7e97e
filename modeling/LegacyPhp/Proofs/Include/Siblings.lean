import LegacyPhp.Proofs.Include.Expressions
import LegacyPhp.Proofs.Path.Steps

/-!
# Ways of naming a file beside another

A file in the directory of the including one can be named by `__DIR__ . '/s'`, by
`dirname(__FILE__) . '/s'` and by `'s'`. The first two write the directory in front of the name and
leave it to the value whether it starts at the root; the third takes the name from the directory.
They name one path if the including file is known by a path from the root, or by one that is in the
lone dot (`sibling_targets_agree_iff`). For any other file they do not: a directory `d` is written
in front and then taken from `d` once more, and a file without a directory part has the empty text
in front, which makes the value start at the root.
-/

namespace LegacyPhp.Include

open Text Scan LegacyPhp.Path List

/-- The name behind `__DIR__`. -/
def besideDirectory (name : Text) : Text := "__DIR__ . '/".toList ++ name ++ ['\'']

/-- The name behind `dirname(__FILE__)`. -/
def besideFile (name : Text) : Text := "dirname(__FILE__) . '/".toList ++ name ++ ['\'']

/-- The name alone. -/
def besideIncluder (name : Text) : Text := '\'' :: name ++ ['\'']

/-! ## The values of the three expressions -/

theorem readsAs_dot {b : Before} {rest : Text} {shapes : List Shape}
    (h : ReadsAs true {} (' ' :: rest) shapes) :
    ReadsAs true b ('.' :: ' ' :: rest) (mark "." :: shapes) := by
  have hscan : ∀ pos, scanCode b pos '.' ([] ++ ' ' :: rest) =
      .ok ⟨.punctuation, ['.'], ' ' :: rest⟩ := by
    simp [scanCode, scanMark, Scan.operator, operators, after?, isSpace, isIdentStart, nextIs]
  exact .single (lexes_of_scan hscan (by simp)) rfl h

section

variable {name : Text} (hplain : ∀ c ∈ name, c ≠ '\\' ∧ c ≠ '\'')
include hplain

theorem readsAs_plainLiteral (b : Before) : ReadsAs true b (besideIncluder name) [quoted name] := by
  have hread := ReadsAs.singleQuoted (b := b) name (.nil true {})
  rwa [singleQuoted_of_plain hplain, append_cons, append_nil] at hread

theorem singleValue_of_plain : singleValue name = name := by
  induction name with
  | nil => rfl
  | cons c name ih =>
    have hc := (hplain c mem_cons_self).1
    rw [singleValue.eq_3 c name (fun _ _ heq _ => hc heq),
      ih fun d hd => hplain d (mem_cons_of_mem c hd)]

theorem denotes_plainLiteral (file : Path) : Denotes file .operand [quoted name] name :=
  .literal (by simp [literalValue?, singleValue_of_plain hplain])

theorem target?_besideIncluder (file : Path) (hne : name ≠ [])
    (hrelative : isAbsolute name = false) :
    target? (besideIncluder name) file = .ok (some (append (directory file) name)) := by
  rw [target?_of_readsAs (readsAs_plainLiteral hplain {})
    (.single (denotes_plainLiteral hplain file)) hne, hrelative]
  rfl

end

section

variable {name : Text} (hplain : ∀ c ∈ name, c ≠ '\\' ∧ c ≠ '\'')
include hplain

theorem plain_slash : ∀ c ∈ '/' :: name, c ≠ '\\' ∧ c ≠ '\'' :=
  forall_mem_cons.2 ⟨by decide, hplain⟩

/-- The directory with the name behind it, which may start at the root or be taken from the
directory again. -/
def written (file : Path) (name : Text) : Path :=
  if isAbsolute (directory file ++ '/' :: name) then directory file ++ '/' :: name
  else append (directory file) (directory file ++ '/' :: name)

theorem readsAs_behindDot : ReadsAs true {} ([' ', '.', ' '] ++ besideIncluder ('/' :: name))
      [mark ".", quoted ('/' :: name)] := by
  have hspace : [' '].all isSpace := rfl
  have hliteral := readsAs_plainLiteral (plain_slash hplain) {}
  have hdot : ReadsAs true {} ('.' :: ' ' :: besideIncluder ('/' :: name)) _ :=
    readsAs_dot (.spaces hspace nofun hliteral)
  show ReadsAs true {} ([' '] ++ '.' :: ' ' :: besideIncluder ('/' :: name)) _
  exact .spaces hspace nofun hdot

theorem target?_besideDirectory (file : Path) :
    target? (besideDirectory name) file = .ok (some (written file name)) := by
  have htext : besideDirectory name =
      "__DIR__".toList ++ ([' ', '.', ' '] ++ besideIncluder ('/' :: name)) := rfl
  have hread : ReadsAs true {} (besideDirectory name)
      [(.identifier, "__DIR__".toList), mark ".", quoted ('/' :: name)] := by
    rw [htext]
    exact .identifier (by decide) (by decide) rfl (readsAs_behindDot hplain)
  refine target?_of_readsAs hread (.dot (.directory (by decide))
    (.single (denotes_plainLiteral (plain_slash hplain) file))) ?_
  simp

theorem target?_besideFile (file : Path) :
    target? (besideFile name) file = .ok (some (written file name)) := by
  have htext : besideFile name = "dirname".toList ++ '(' :: ("__FILE__".toList ++
      ')' :: ([' ', '.', ' '] ++ besideIncluder ('/' :: name))) := rfl
  have hread : ReadsAs true {} (besideFile name)
      [(.identifier, "dirname".toList), mark "(", (.identifier, "__FILE__".toList), mark ")",
        mark ".", quoted ('/' :: name)] := by
    rw [htext]
    exact .identifier (by decide) (by decide) rfl (.opening (.identifier (by decide) (by decide)
      rfl (.stop rfl (readsAs_behindDot hplain))))
  refine target?_of_readsAs hread (.dot (.dirname (by decide) (.single (.file (by decide))))
    (.single (denotes_plainLiteral (plain_slash hplain) file))) ?_
  simp

end

/-! ## One path or two -/

/-- The written directory leads to the same place if it starts at the root or is the lone dot. -/
theorem components_written_iff (file : Path) {name : Text} (hrelative : isAbsolute name = false) :
    components (written file name) = components (append (directory file) name) ↔
      isAbsolute file ∨ directory file = ['.'] := by
  unfold written
  obtain hdot | ⟨hfile, hroot⟩ | ⟨hfile, hempty | ⟨hroot, hsteps⟩⟩ := directory_cases file
  · have hvalue : isAbsolute (['.'] ++ '/' :: name) = false := rfl
    have hdown : steps (['.'] ++ '/' :: name) = steps name := steps_append_sep ['.'] name
    rw [hdot, hvalue, if_neg Bool.false_ne_true, components_append (by decide) hvalue,
      components_append (by decide) hrelative, hdown]
    simp
  · have hne : directory file ≠ [] := fun hempty => by rw [hempty] at hroot; cases hroot
    rw [isAbsolute_append hne, hroot, if_pos rfl, components_append_sep hne,
      components_append hne hrelative, hfile]
    simp
  · -- the value starts at the root, and the name does not
    have hother : components ('/' :: name) ≠ components (append [] name) := by
      intro heq
      have hroot : Component.root ∈ components ('/' :: name) := mem_cons_self
      have happend : append [] name = name := by simp [append]
      rw [heq, happend] at hroot
      exact root_not_mem_components hrelative hroot
    have hvalue : isAbsolute ([] ++ '/' :: name) := rfl
    rw [hempty, hvalue, if_pos rfl, hfile]
    simpa using hother
  · -- the steps of the directory are made twice
    have hne : directory file ≠ [] := fun hempty => hsteps (by rw [hempty]; rfl)
    have hvalue : isAbsolute (directory file ++ '/' :: name) = false := by
      rw [isAbsolute_append hne, hroot]
    have hdot : directory file ≠ ['.'] := fun hdot => hsteps (by rw [hdot]; rfl)
    rw [hvalue, if_neg Bool.false_ne_true, components_append hne hvalue,
      components_append hne hrelative, steps_append_sep, hfile]
    simpa [hdot] using hsteps

/-- Naming a sibling by its directory and by the file give the same target. The name alone gives
the same path as these exactly if the including file is known by a path from the root or by one in
the lone dot. -/
theorem sibling_targets_agree_iff (file : Path) {name : Text}
    (hplain : ∀ c ∈ name, c ≠ '\\' ∧ c ≠ '\'') (hne : name ≠ [])
    (hrelative : isAbsolute name = false) :
    ∃ byDirectory byFile byName,
      target? (besideDirectory name) file = .ok (some byDirectory) ∧
      target? (besideFile name) file = .ok (some byFile) ∧
      target? (besideIncluder name) file = .ok (some byName) ∧
      components byFile = components byDirectory ∧
      (components byDirectory = components byName ↔
        isAbsolute file ∨ directory file = ['.']) :=
  ⟨written file name, written file name, append (directory file) name,
    target?_besideDirectory hplain file, target?_besideFile hplain file,
    target?_besideIncluder hplain file hne hrelative, rfl, components_written_iff file hrelative⟩

/-- A file in a directory that is not given from the root, and one without a directory part. -/
theorem sibling_targets_agree_iff_relative :
    (∃ byDirectory byName,
      target? (besideDirectory "s.php".toList) "d/a.php".toList = .ok (some byDirectory) ∧
      target? (besideIncluder "s.php".toList) "d/a.php".toList = .ok (some byName) ∧
      components byDirectory ≠ components byName) ∧
    ∃ byDirectory byName,
      target? (besideDirectory "s.php".toList) "a.php".toList = .ok (some byDirectory) ∧
      target? (besideIncluder "s.php".toList) "a.php".toList = .ok (some byName) ∧
      components byDirectory ≠ components byName := by
  have hplain : ∀ c ∈ "s.php".toList, c ≠ '\\' ∧ c ≠ '\'' := forall_mem_of_all (by decide)
  have hother : ∀ file : Path, ¬ (isAbsolute file ∨ directory file = ['.']) →
      ∃ byDirectory byName,
        target? (besideDirectory "s.php".toList) file = .ok (some byDirectory) ∧
        target? (besideIncluder "s.php".toList) file = .ok (some byName) ∧
        components byDirectory ≠ components byName := by
    intro file hfile
    obtain ⟨byDirectory, _, byName, hdirectory, _, hname, _, hagree⟩ :=
      sibling_targets_agree_iff file hplain (by decide) (by decide)
    exact ⟨byDirectory, byName, hdirectory, hname, fun heq => hfile (hagree.1 heq)⟩
  exact ⟨hother _ (by decide), hother _ (by decide)⟩

end LegacyPhp.Include
