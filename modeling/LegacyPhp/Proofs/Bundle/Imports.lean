import LegacyPhp.Proofs.Bundle.Alternation
import LegacyPhp.Proofs.Bundle.LoadOnce
import LegacyPhp.Proofs.Bundle.Reach
import LegacyPhp.Proofs.Lossless
import LegacyPhp.Proofs.Text.Split
import Mathlib.Data.List.Induction

/-!
# The imports of a block around an included file

A file that includes another one goes on in the block that it was in, but not always with the
imports that stood there. `blockImports` lists the names that moves have really written into the
block that is open, and the bundle has its own record of them, `Bundler.imports`. The record never
misses a written name (`carriedOn_records`), which is all that is needed to say exactly
when the imports are there again (`inlining_keeps_imports_iff`). They are lost in two cases: when
the file that is included leaves the block and comes back to it by itself, since then nothing seems
to have changed, and when the block is the global one, which is opened again without its imports.

The names are those that a reader finds in the `use` statements, where a comma separates two names.
-/

namespace LegacyPhp.Bundle

open Text
open List hiding splitOn

variable {moves : List Move} {b : Bundler} {m : Move} {s : UnitState} {name block : Text}

/-! ## Written names -/

/-- The text of an import. -/
def useStatement (list : Text) : Text := "use\n".toList ++ list ++ [';']

theorem after?_append (start rest : Text) : after? start (start ++ rest) = some rest := by
  induction start with
  | nil => rfl
  | cons c start ih => rw [cons_append, after?, if_pos rfl, ih]

theorem importedBy_useStatement (list : Text) :
    importedBy (useStatement list) = splitOn ',' list := by
  unfold importedBy useStatement
  rw [append_assoc, after?_append]
  simp

namespace Move

/-- The names that a move imports. -/
def imported : Move → List Text
  | write text => importedBy text
  | _ => []

/-- Whether a move has nothing to do with blocks and imports. -/
def isQuiet : Move → Bool
  | openBlock _ | closeBlock | setImports _ => false
  | write text => (importedBy text).isEmpty
  | _ => true

end Move

/-- The names imported in the open block after one more move. -/
def importsAfter (names : List Text) (m : Move) : List Text :=
  if m.isBlock then [] else names ++ m.imported

/-- The names imported in the open block after moves, `names` being those before. -/
def importsFrom (names : List Text) (moves : List Move) : List Text :=
  moves.foldl importsAfter names

/-- The names that moves have imported in the block that they leave open. -/
def blockImports (moves : List Move) : List Text := importsFrom [] moves

theorem importsFrom_append (names : List Text) (first second : List Move) :
    importsFrom names (first ++ second) = importsFrom (importsFrom names first) second := by
  simp [importsFrom]

theorem importsFrom_of_no_block (h : moves.all (!·.isBlock)) (names : List Text) :
    importsFrom names moves = names ++ moves.flatMap Move.imported := by
  induction moves generalizing names with
  | nil => simp [importsFrom]
  | cons m moves ih =>
    rw [all_cons, Bool.and_eq_true, Bool.not_eq_true'] at h
    show importsFrom (importsAfter names m) moves = _
    rw [ih h.2, importsAfter, h.1]
    simp

theorem importsFrom_of_block (h : moves.all (!·.isBlock) = false) (names : List Text) :
    importsFrom names moves = blockImports moves := by
  induction moves generalizing names with
  | nil => cases h
  | cons m moves ih =>
    rw [all_cons] at h
    show importsFrom (importsAfter names m) moves = importsFrom (importsAfter [] m) moves
    by_cases hm : m.isBlock
    · simp only [importsAfter, hm, if_true]
    · rw [Bool.not_eq_true] at hm
      rw [hm, Bool.not_false, Bool.true_and] at h
      rw [ih h, ih h]

/-! ## The record of a bundle -/

/-- The names that the bundle takes to be imported in the open block. -/
def recorded (b : Bundler) : List Text := b.imports.flatMap (splitOn ',')

/-- Along the moves no name is imported that the bundle has no record of. -/
def Records (b : Bundler) (moves : List Move) : Prop :=
  ∀ names, names ⊆ recorded b → importsFrom names moves ⊆ recorded (applyAll moves b)

theorem Records.append {first second : List Move} (h : Records b first)
    (h' : Records (applyAll first b) second) : Records b (first ++ second) := by
  intro names hnames
  rw [importsFrom_append, applyAll_append]
  exact h' _ (h names hnames)

theorem records_nil (b : Bundler) : Records b [] := fun _ hnames => hnames

theorem recorded_apply (h : m.isQuiet) (b : Bundler) : recorded (m.apply b) = recorded b := by
  cases m with
  | openBlock | closeBlock | setImports => cases h
  | dropComma =>
    simp only [Move.apply, Bundler.dropComma]
    split <;> rfl
  | _ => rfl

theorem imported_of_isQuiet (h : m.isQuiet) : m.isBlock = false ∧ m.imported = [] := by
  cases m with
  | openBlock | closeBlock => cases h
  | write text => exact ⟨rfl, List.isEmpty_iff.1 h⟩
  | _ => exact ⟨rfl, rfl⟩

theorem Move.isQuiet_of_isOrdinary (h : m.isOrdinary) : m.isQuiet := by
  cases m <;> first | exact h | rfl

theorem importsFrom_of_quiet (h : moves.all Move.isQuiet) (names : List Text) :
    importsFrom names moves = names := by
  induction moves generalizing names with
  | nil => rfl
  | cons m moves ih =>
    rw [all_cons, Bool.and_eq_true] at h
    obtain ⟨hblock, himported⟩ := imported_of_isQuiet h.1
    show importsFrom (importsAfter names m) moves = names
    rw [ih h.2, importsAfter, hblock, himported]
    simp

theorem importsFrom_of_ordinary (h : moves.all Move.isOrdinary) (names : List Text) :
    importsFrom names moves = names :=
  importsFrom_of_quiet (all_imp Move.isQuiet_of_isOrdinary h) names

theorem records_of_quiet (h : moves.all Move.isQuiet) (b : Bundler) : Records b moves := by
  intro names hnames
  rw [importsFrom_of_quiet h]
  suffices hsame : recorded (applyAll moves b) = recorded b by rwa [hsame]
  clear hnames
  induction moves generalizing b with
  | nil => rfl
  | cons m moves ih =>
    rw [all_cons, Bool.and_eq_true] at h
    rw [applyAll_cons, ih h.2, recorded_apply h.1]

/-! ## The moves of a token -/

theorem importsFrom_closeMoves (b : Bundler) (names : List Text) :
    importsFrom names (closeMoves b) = if b.openNamespace.isSome then [] else names := by
  unfold closeMoves
  split <;> rfl

theorem records_switchMoves (b : Bundler) (name : Text) : Records b (switchMoves b name) := by
  unfold switchMoves
  split
  · exact records_nil b
  · intro names _
    rw [importsFrom_append]
    exact nil_subset _

/-- An import is recorded as it is written. -/
theorem records_importMoves (b : Bundler) (name : Text) : Records b (importMoves b name) := by
  unfold importMoves
  split
  · exact records_nil b
  · intro names hnames
    have himports : importsFrom names
        [.write ("use\n".toList ++ name ++ [';']), .setImports (b.imports ++ [name])] =
        names ++ splitOn ',' name := by
      show (names ++ importedBy (useStatement name)) ++ [] = _
      rw [importedBy_useStatement, append_nil]
    have hrecorded : recorded (applyAll
        [.write ("use\n".toList ++ name ++ [';']), .setImports (b.imports ++ [name])] b) =
        recorded b ++ splitOn ',' name := by
      show (b.imports ++ [name]).flatMap (splitOn ',') = b.imports.flatMap (splitOn ',') ++ _
      rw [flatMap_append, flatMap_singleton]
    rw [himports, hrecorded]
    exact append_subset.2 ⟨fun x hx => mem_append_left _ (hnames hx),
      subset_append_right _ _⟩

theorem openNamespace_restore (b before : Bundler) :
    (b.restore before).openNamespace = before.openNamespace := by
  unfold Bundler.restore
  split
  · next hsame => exact beq_iff_eq.1 hsame
  · rfl

/-- What stands in a block that is opened again: the imports of before, unless it is the global
one. -/
theorem importsFrom_restoreMoves {before : Bundler} (hname : before.openNamespace = some name)
    (hne : b.openNamespace ≠ some name) (names : List Text) :
    importsFrom names (restoreMoves b before) = if name.isEmpty then [] else recorded before := by
  have hbeq : (b.openNamespace == before.openNamespace) = false := by
    rw [hname]
    exact beq_eq_false_iff_ne.2 hne
  unfold restoreMoves
  rw [hbeq]
  simp only [Bool.false_eq_true, if_false, importsFrom_append, reopenMoves, hname]
  -- the block is opened, which forgets all names, and then the imports are written, or not
  show (importsFrom (importsFrom [] (if before.imports.isEmpty || name.isEmpty then _ else _)) _) =
    _
  cases hempty : name.isEmpty with
  | true =>
    rw [Bool.or_true]
    rfl
  | false =>
    rw [Bool.or_false]
    cases himports : before.imports with
    | nil =>
      rw [isEmpty_nil, if_pos rfl, recorded, himports]
      rfl
    | cons first more =>
      rw [isEmpty_cons]
      show ([] ++ importedBy (useStatement (join [','] (first :: more)))) ++ [] = _
      rw [importedBy_useStatement, splitOn_join (cons_ne_nil first more), recorded, himports]
      simp

theorem records_restoreMoves (b before : Bundler) : Records b (restoreMoves b before) := by
  cases hname : before.openNamespace with
  | none =>
    -- the block that was left open is closed, and with it its imports are gone
    unfold restoreMoves
    split
    · exact records_nil b
    · next hne =>
      have hsome : b.openNamespace.isSome := by
        cases hb : b.openNamespace with
        | none => rw [hb, hname] at hne; exact absurd rfl hne
        | some _ => rfl
      intro names _
      rw [importsFrom_append, importsFrom_append, importsFrom_append, importsFrom_closeMoves,
        if_pos hsome]
      simp only [reopenMoves, hname]
      exact nil_subset _
  | some name =>
    by_cases hsame : b.openNamespace = some name
    · have hmoves : restoreMoves b before = [] := by
        unfold restoreMoves
        rw [hsame, hname, beq_self_eq_true, if_pos rfl]
      rw [hmoves]
      exact records_nil b
    · intro names _
      have himports : (applyAll (restoreMoves b before) b).imports = before.imports := by
        rw [applyAll_restoreMoves]
        unfold Bundler.restore
        rw [if_neg (by rw [hname]; simpa using hsame)]
      have hrecorded : recorded (applyAll (restoreMoves b before) b) = recorded before := by
        rw [recorded, himports]
        rfl
      rw [importsFrom_restoreMoves hname hsame, hrecorded]
      split
      · exact nil_subset _
      · exact List.Subset.refl _

/-! ## Runs -/

variable {o : BundleOptions} {tree : FileTree}

/-- No run imports a name without a record. -/
theorem carriedOn_records : CarriedOn Records where
  append := .append
  ordinary h := records_of_quiet (all_imp Move.isQuiet_of_isOrdinary h)
  switch := records_switchMoves
  use := records_importMoves
  restore h := h.append (records_restoreMoves _ _)
  visit b _ := records_of_quiet rfl b
  load _ := records_of_quiet rfl _
  start b _ _ := records_of_quiet rfl b

theorem Reaches.records {task later : Task} (h : Reaches o tree task moves later) :
    Records task.bundler moves := carriedOn_records.reaches h

theorem Session.records {calls : List Call} {after : Bundler}
    (h : Session o tree calls b moves after) : Records b moves := carriedOn_records.session h

/-! ## The text of the open block -/

/-- The text that a move writes, if it is no mark of a block. -/
def Move.text : Move → Text
  | copy gap token => gap ++ token.text
  | write text => text
  | banner comment => comment ++ ['\n']
  | _ => []

theorem output_apply (h : m.isBlock = false) (b : Bundler) :
    (m.apply b).output = b.output ++ m.text ∨
      m.imported = [] ∧ b.output = (m.apply b).output ++ [','] := by
  cases m with
  | openBlock | closeBlock => cases h
  | copy | write | banner => exact .inl (Bundler.output_write b _)
  | dropComma =>
    simp only [Move.apply, Bundler.dropComma]
    split
    · next rest hrest => exact .inr ⟨rfl, by simp [Bundler.output, hrest]⟩
    · exact .inl (append_nil _).symm
  | _ => exact .inl (append_nil _).symm

/-- The name stands in a `use` statement of the text. -/
def ImportedIn (block name : Text) : Prop :=
  ∃ list, name ∈ splitOn ',' list ∧ useStatement list <:+: block

theorem importedIn_of_imported (h : name ∈ m.imported) : ImportedIn m.text name := by
  cases m with
  | write text =>
    simp only [Move.imported, importedBy] at h
    split at h
    · next list hlist =>
      split at h
      · next hlast =>
        have hend : list = list.dropLast ++ [';'] := by
          rw [beq_iff_eq] at hlast
          obtain ⟨init, rfl⟩ := getLast?_eq_some_iff.1 hlast
          rw [dropLast_concat]
        refine ⟨list.dropLast, h, [], [], ?_⟩
        rw [nil_append, append_nil, useStatement, append_assoc, ← hend, ← after?_eq_some hlist]
        rfl
      · cases h
    · cases h
  | _ => cases h

theorem ImportedIn.of_comma (h : ImportedIn (block ++ [',']) name) : ImportedIn block name := by
  obtain ⟨list, hlist, before, after, heq⟩ := h
  rcases eq_nil_or_concat after with rfl | ⟨init, last, rfl⟩
  · delta useStatement at heq
    rw [append_nil, ← append_assoc] at heq
    have hlast := append_inj_right' heq rfl
    cases hlast
  · rw [concat_eq_append, ← append_assoc] at heq
    exact ⟨list, hlist, before, init, append_inj_left' heq rfl⟩

/-- What stands in front of the open block stays, and in the block every imported name is found. -/
theorem output_applyAll (h : moves.all (!·.isBlock)) {front : Text}
    (hfront : front.getLast? ≠ some ',') (houtput : b.output = front ++ block) :
    ∃ more, (applyAll moves b).output = front ++ more ∧
      ∀ name, ImportedIn block name ∨ name ∈ moves.flatMap Move.imported →
        ImportedIn more name := by
  induction moves generalizing b block with
  | nil => exact ⟨block, houtput, fun name hname => hname.resolve_right not_mem_nil⟩
  | cons m moves ih =>
    rw [all_cons, Bool.and_eq_true, Bool.not_eq_true'] at h
    rcases output_apply h.1 b with happly | ⟨himported, hcomma⟩
    · rw [houtput, append_assoc] at happly
      obtain ⟨more, hmore, hnames⟩ := ih h.2 happly
      refine ⟨more, hmore, fun name hname => hnames name ?_⟩
      rw [flatMap_cons, mem_append] at hname
      rcases hname with ⟨list, hlist, hinfix⟩ | hname | hname
      · exact .inl ⟨list, hlist, hinfix.trans (infix_append_left ..)⟩
      · obtain ⟨list, hlist, hinfix⟩ := importedIn_of_imported hname
        exact .inl ⟨list, hlist, hinfix.trans (infix_append_right ..)⟩
      · exact .inr hname
    · rw [houtput] at hcomma
      rcases eq_nil_or_concat block with rfl | ⟨init, last, rfl⟩
      · -- the comma would stand in front of the block
        rw [append_nil] at hcomma
        rw [hcomma, getLast?_concat] at hfront
        exact absurd rfl hfront
      · rw [concat_eq_append, ← append_assoc] at hcomma
        obtain ⟨hinit, hlast⟩ := append_inj' hcomma rfl
        cases hlast
        obtain ⟨more, hmore, hnames⟩ := ih h.2 hinit.symm
        refine ⟨more, hmore, fun name hname => hnames name ?_⟩
        rw [flatMap_cons, himported, nil_append] at hname
        rw [concat_eq_append] at hname
        exact hname.imp_left ImportedIn.of_comma

/-- Where a block is open, the moves since it was opened know no other block, and its text shows
all that has been imported in it. -/
theorem exists_openBlock (hb : b.openNamespace = none)
    (h : (applyAll moves b).openNamespace = some name) :
    ∃ earlier later block, moves = earlier ++ .openBlock name :: later ∧
      later.all (!·.isBlock) ∧
      (applyAll moves b).output =
        (applyAll earlier b).output ++ ("namespace ".toList ++ name ++ ['{']) ++ block ∧
      ∀ x ∈ blockImports moves, ImportedIn block x := by
  have hsplit : ∃ earlier later, moves = earlier ++ .openBlock name :: later ∧
      later.all (!·.isBlock) := by
    induction moves using List.reverseRecOn with
    | nil =>
      rw [applyAll_nil, hb] at h
      cases h
    | append_singleton moves m ih =>
      rw [applyAll_append, applyAll_cons, applyAll_nil] at h
      by_cases hm : m.isBlock
      · cases m with
        | openBlock other =>
          cases h
          exact ⟨moves, [], rfl, rfl⟩
        | closeBlock => cases h
        | _ => cases hm
      · rw [Bool.not_eq_true] at hm
        rw [Move.openNamespace_apply hm] at h
        obtain ⟨earlier, later, rfl, hlater⟩ := ih h
        refine ⟨earlier, later ++ [m], by simp, ?_⟩
        rw [all_append, hlater, all_cons, hm]
        rfl
  obtain ⟨earlier, later, rfl, hlater⟩ := hsplit
  have himports : blockImports (earlier ++ .openBlock name :: later) =
      later.flatMap Move.imported := by
    rw [blockImports, importsFrom_append]
    show importsFrom [] later = _
    rw [importsFrom_of_no_block hlater, nil_append]
  have hopened : ((Move.openBlock name).apply (applyAll earlier b)).output =
      (applyAll earlier b).output ++ ("namespace ".toList ++ name ++ ['{']) ++ [] := by
    rw [append_nil]
    exact Bundler.output_write _ _
  have hlast : ((applyAll earlier b).output ++
      ("namespace ".toList ++ name ++ ['{'])).getLast? ≠ some ',' := by
    rw [← append_assoc, getLast?_concat]
    exact fun heq => by cases heq
  obtain ⟨block, hblock, hnames⟩ := output_applyAll hlater hlast hopened
  refine ⟨earlier, later, block, rfl, hlater, ?_, fun x hx => hnames x (.inr ?_)⟩
  · rw [applyAll_append, applyAll_cons]
    exact hblock
  · rwa [himports] at hx

/-! ## After an included file -/

/-- The moves of a token after the file that it has inlined. -/
def returnMoves (s : UnitState) (t : Token) (after : Bundler) : List Move :=
  restoreMoves after s.bundler ++
    if t.kind == .closeTag then [] else enterMoves (after.restore s.bundler)

theorem inlined_bundler (s : UnitState) (t : Token) (after : Bundler) :
    (s.inlined t after).bundler = applyAll (returnMoves s t after) after := by
  unfold returnMoves
  rw [applyAll_append, applyAll_restoreMoves]
  simp only [UnitState.inlined]
  split
  · rfl
  · exact (applyAll_enterMoves _).symm

theorem inlined_openNamespace (s : UnitState) (t : Token) (after : Bundler) :
    (s.inlined t after).bundler.openNamespace = s.bundler.openNamespace := by
  simp only [UnitState.inlined]
  split
  · exact openNamespace_restore _ _
  · rw [enterCode_openNamespace]
    exact openNamespace_restore _ _

/-- What has been imported in the open block when a token has inlined a file. -/
theorem importsFrom_returnMoves (hopen : s.bundler.openNamespace = some name) (t : Token)
    (after : Bundler) (names : List Text) : importsFrom names (returnMoves s t after) =
      if after.openNamespace = some name then names
      else if name.isEmpty then [] else recorded s.bundler := by
  have hordinary : (if t.kind == .closeTag then [] else enterMoves (after.restore s.bundler)).all
      Move.isOrdinary := by
    split
    · rfl
    · exact isOrdinary_enterMoves _
  rw [returnMoves, importsFrom_append, importsFrom_of_ordinary hordinary]
  by_cases hsame : after.openNamespace = some name
  · have hmoves : restoreMoves after s.bundler = [] := by
      unfold restoreMoves
      rw [hsame, hopen, beq_self_eq_true, if_pos rfl]
    rw [hmoves, if_pos hsame]
    rfl
  · rw [if_neg hsame, importsFrom_restoreMoves hopen hsame]

/-- Wherever a unit in a block includes a file that can be inlined, it goes on in that block. The
imports that were written in the block stand in it again if the file ends in another block and this
one is not the global one, or if the file never leaves the block, or makes the imports once more
after it has come back; and only then, unless there were none. -/
theorem inlining_keeps_imports_iff {calls : List Call} {call : Call} {visited : List Path}
    {b after : Bundler} {first second : List Move} {origin target : Path} {source name : Text}
    {s : UnitState} {t : Token} {rest : List Token}
    (hsession : Session o tree calls { visited } first b)
    (hreach : Reaches o tree (call.task b) second (.tokens origin source s (t :: rest)))
    (hopen : s.bundler.openNamespace = some name)
    (hcall : inlineCall? tree origin s t = some target)
    (hfile : addFile o tree target s.bundler = (after, none)) :
    let history := first ++ second
    let inner := fileMoves o tree target s.bundler
    let whole := history ++ inner ++ returnMoves s t after
    stepToken ⟨o, tree, origin, source, addFile o tree⟩ s t rest = afterInline s t rest after ∧
    s.bundler = applyAll history { visited } ∧
    (s.inlined t after).bundler = applyAll whole { visited } ∧
    (s.inlined t after).bundler.openNamespace = some name ∧
    (∃ earlier later block, whole = earlier ++ .openBlock name :: later ∧
      later.all (!·.isBlock) ∧
      (s.inlined t after).bundler.output = (applyAll earlier { visited }).output ++
        ("namespace ".toList ++ name ++ ['{']) ++ block ∧
      ∀ x ∈ blockImports whole, ImportedIn block x) ∧
    (blockImports history ⊆ blockImports whole ↔
      if after.openNamespace = some name then
        inner.all (!·.isBlock) ∨ blockImports history ⊆ blockImports inner
      else name = [] → blockImports history = []) := by
  intro history inner whole
  have hbefore : s.bundler = applyAll history { visited } := by
    have hreached : s.bundler = applyAll second (call.task b).bundler := hreach.bundler
    rw [hreached, Call.task_bundler, hsession.eq_applyAll, ← applyAll_append]
  have hrun := run_addFile o tree target s.bundler
  rw [hfile] at hrun
  have hafter : after = applyAll inner s.bundler := hrun.eq_applyAll
  have hwhole : (s.inlined t after).bundler = applyAll whole { visited } := by
    rw [inlined_bundler, applyAll_append, applyAll_append, ← hbefore, ← hafter]
  have hname : (s.inlined t after).bundler.openNamespace = some name := by
    rw [inlined_openNamespace, hopen]
  -- what was written in the block is on record where the file is included
  have hrecorded : blockImports history ⊆ recorded s.bundler := by
    have hrecords : Records { visited } history := by
      refine hsession.records.append ?_
      have hsecond := hreach.records
      rw [Call.task_bundler, hsession.eq_applyAll] at hsecond
      exact hsecond
    rw [hbefore]
    exact hrecords [] (List.nil_subset _)
  have himports : blockImports whole =
      if after.openNamespace = some name then importsFrom (blockImports history) inner
      else if name.isEmpty then [] else recorded s.bundler := by
    rw [blockImports, importsFrom_append, importsFrom_returnMoves hopen, importsFrom_append]
    rfl
  refine ⟨?_, hbefore, hwhole, hname, ?_, ?_⟩
  · rw [@stepToken_of_inline ⟨o, tree, origin, source, addFile o tree⟩ s t rest target hcall]
    simp only [hfile]
  · rw [hwhole] at hname ⊢
    exact exists_openBlock rfl hname
  · rw [himports]
    split
    · cases hblock : inner.all (!·.isBlock) with
      | true =>
        rw [importsFrom_of_no_block hblock]
        exact ⟨fun _ => .inl rfl, fun _ => List.subset_append_left _ _⟩
      | false =>
        rw [importsFrom_of_block hblock]
        exact ⟨.inr, fun h => h.resolve_left Bool.false_ne_true⟩
    · cases name with
      | nil =>
        rw [List.isEmpty_nil, if_pos rfl]
        exact ⟨fun h _ => List.subset_nil.1 h, fun h => List.subset_nil.2 (h rfl)⟩
      | cons c name => exact ⟨fun _ h => absurd h (List.cons_ne_nil c name), fun _ => hrecorded⟩

/-- A file with a namespace of its own. -/
def includedTree : FileTree where
  entries := [(["b.php".toList], .file (.text "<?php namespace B; class D \x7b \x7d".toList))]

/-- A unit without a namespace that includes the file after an import. -/
def includingUnit : Text := "<?php use X\\Y; include 'b.php'; new Y;".toList

/-- The global block loses its import around the file. -/
theorem inlining_keeps_imports_iff_global :
    ∃ (history : List Move) (source : Text) (s : UnitState) (t : Token) (rest : List Token)
      (after : Bundler),
      Reaches {} includedTree (.content includingUnit "/a.php".toList {}) history
        (.tokens "/a.php".toList source s (t :: rest)) ∧
      addFile {} includedTree "/b.php".toList s.bundler = (after, none) ∧
      blockImports history = ["X\\Y".toList] ∧
      (s.inlined t after).bundler.openNamespace = some [] ∧
      ¬ blockImports history ⊆ blockImports
        (history ++ fileMoves {} includedTree "/b.php".toList s.bundler ++
          returnMoves s t after) := by
  -- the tokens up to the semicolon of the directive, and all that is asked of the state there
  have hchecked : (placedTokens {} "/a.php".toList includingUnit).toOption.any (fun unit =>
      (advance {} includedTree "/a.php".toList unit.1 14 (unitStart {} unit.2)
        (unitTokens {} unit.2)).any fun reached => reached.2.2.head?.any fun t =>
          reached.2.1.bundler.openNamespace == some [] &&
            inlineCall? includedTree "/a.php".toList reached.2.1 t == some "/b.php".toList &&
            (addFile {} includedTree "/b.php".toList reached.2.1.bundler).2 == none &&
            (addFile {} includedTree "/b.php".toList reached.2.1.bundler).1.openNamespace !=
              some [] &&
            blockImports (.start "/a.php".toList unit.2 :: (startMoves {} unit.2 ++ reached.1)) ==
              ["X\\Y".toList]) := by
    decide +kernel
  obtain ⟨⟨source, tokens⟩, hplaced, hunit⟩ := (Option.any_eq_true _ _).1 hchecked
  obtain ⟨⟨moves, s, left⟩, hadvance, hstate⟩ := (Option.any_eq_true _ _).1 hunit
  cases left with
  | nil => cases hstate
  | cons t rest =>
    simp only [List.head?_cons, Option.any_some, Bool.and_eq_true, beq_iff_eq,
      bne_iff_ne] at hstate
    obtain ⟨⟨⟨⟨hopen, hcall⟩, hnone⟩, hother⟩, himports⟩ := hstate
    have hreach : Reaches {} includedTree
        ((Call.content includingUnit "/a.php".toList).task {}) _
        (.tokens "/a.php".toList source s (t :: rest)) :=
      .unit (eq_ok_of_toOption hplaced) (reaches_tokens hadvance)
    have hfile : addFile {} includedTree "/b.php".toList s.bundler =
        ((addFile {} includedTree "/b.php".toList s.bundler).1, none) := by
      rw [← hnone]
    obtain ⟨-, -, -, hname, -, hiff⟩ := inlining_keeps_imports_iff (.nil) hreach hopen hcall hfile
    refine ⟨_, source, s, t, rest, _, hreach, hfile, himports, hname, fun hkept => ?_⟩
    have hempty := hiff.1 hkept
    rw [if_neg hother] at hempty
    have hnil := (hempty rfl).symm.trans himports
    cases hnil

end LegacyPhp.Bundle
