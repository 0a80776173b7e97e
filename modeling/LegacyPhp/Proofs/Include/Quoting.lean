import LegacyPhp.Proofs.Closure.Pasted
import LegacyPhp.Proofs.Convert.Literals
import LegacyPhp.Proofs.Include.Expressions

/-!
# Quoting and its inverse

A text is quoted in one place, scanned in another and decoded in a third. `singleQuoted` puts a
backslash before every backslash and every quote, the lexer passes over each of these pairs without
looking at its second half, and `literalValue?` takes the pairs apart again. So the quoted text is
one literal wherever it stands in code, and its value is the text (`quoting_round_trips`). Two users
of this are followed to their ends: the parameters of a closure in the call that stands in its
place, and a path that is included.
-/

namespace LegacyPhp

open Text Scan Closure LegacyPhp.Include List

variable {literals : List (Literal × List Token)} {c : LiftedClosure} {helper : Text}

/-- The literal in single quotes that spells a text. -/
def quotedLiteral (text : Text) : Text := '\'' :: singleQuoted text ++ ['\'']

/-! ## Quoting -/

theorem replaceAll_char (c : Char) (new text : Text) :
    replaceAll [c] new text = text.flatMap fun d => if d = c then new else [d] := by
  induction text with
  | nil => simp [replaceAll, replaceOccurrences, breakOn?]
  | cons d text ih =>
    rw [flatMap_cons, ← ih]
    split
    · next hd => exact Qualify.replaceOccurrences_after (by simp [after?, hd])
    · next hd => exact Qualify.replaceOccurrences_cons (by simp [after?, Ne.symm hd])

theorem singleQuoted_eq_replaceAll (text : Text) :
    singleQuoted text = replaceAll ['\''] ['\\', '\''] (replaceAll ['\\'] ['\\', '\\'] text) := by
  rw [replaceAll_char, replaceAll_char, flatMap_assoc]
  refine flatMap_congr fun c _ => ?_
  by_cases hslash : c = '\\'
  · subst hslash; rfl
  · by_cases hquote : c = '\''
    · subst hquote; rfl
    · simp [hslash, hquote]

/-! ## Decoding -/

theorem singleValue_singleQuoted (text : Text) : singleValue (singleQuoted text) = text := by
  induction text with
  | nil => rfl
  | cons c text ih =>
    rw [singleQuoted, flatMap_cons]
    split
    · next hc =>
      show singleValue ('\\' :: c :: singleQuoted text) = c :: text
      rw [singleValue, if_pos hc, ih]
    · next hc =>
      rw [Bool.or_eq_true, not_or, beq_iff_eq] at hc
      show singleValue (c :: singleQuoted text) = c :: text
      rw [singleValue.eq_3 c _ (fun _ _ heq _ => hc.1 heq), ih]

theorem literalValue?_quotedLiteral (text : Text) :
    literalValue? (quotedLiteral text) = some text := by
  simp [literalValue?, quotedLiteral, singleValue_singleQuoted]

/-! ## Scanning -/

theorem reads_quotedLiteral (b : Before) (text rest : Text) :
    Reads true b .stringLiteral (quotedLiteral text) rest := by
  have hscan : scanCode b 0 '\'' (singleQuoted text ++ ['\''] ++ rest) =
      .ok ⟨.stringLiteral, quotedLiteral text, rest⟩ := by
    rw [append_assoc]
    simp [scanCode, isSpace, isIdentStart, scanLiteral, literalRest_singleQuoted, Scanned.of,
      quotedLiteral]
  exact .code hscan

theorem lexFrom_quotedLiteral (b : Before) (pos : Nat) (text rest : Text) :
    lexFrom true b pos (quotedLiteral text ++ rest) =
      (lexFrom true {} (pos + byteLength (quotedLiteral text)) rest).map
        (⟨.stringLiteral, quotedLiteral text, pos⟩ :: ·) :=
  (reads_quotedLiteral b text rest).lexFrom_eq pos

theorem readsAs_quotedLiteral (b : Before) (text : Text) :
    ReadsAs true b (quotedLiteral text) [quoted (singleQuoted text)] := by
  have hread := ReadsAs.singleQuoted (b := b) text (.nil true {})
  rwa [append_cons, append_nil] at hread

/-! ## The parameters of a closure -/

/-- The values of the literals among tokens. -/
def literalValues (shapes : List Shape) : List (Option Text) :=
  (shapes.filter (·.1 == .stringLiteral)).map fun s => literalValue? s.2

@[simp] theorem literalValues_nil : literalValues [] = [] := rfl

@[simp] theorem literalValues_append (a b : List Shape) :
    literalValues (a ++ b) = literalValues a ++ literalValues b := by
  simp [literalValues]

@[simp] theorem literalValues_mark (m : String) (shapes : List Shape) :
    literalValues (mark m :: shapes) = literalValues shapes := rfl

theorem literalValues_other {shape : Shape} (h : shape.1 ≠ .stringLiteral) (shapes : List Shape) :
    literalValues (shape :: shapes) = literalValues shapes := by
  simp [literalValues, h]

@[simp] theorem literalValues_quoted (text : Text) (shapes : List Shape) :
    literalValues (quoted (singleQuoted text) :: shapes) = some text :: literalValues shapes := by
  have hvalue : literalValue? (quoted (singleQuoted text)).2 = some text :=
    literalValue?_quotedLiteral text
  rw [← hvalue]
  rfl

/-- A text without escapes is its own value. -/
theorem literalValues_plain {text : Text} (h : singleQuoted text = text) (shapes : List Shape) :
    literalValues (quoted text :: shapes) = some text :: literalValues shapes := by
  have hquoted := literalValues_quoted text shapes
  rwa [h] at hquoted

theorem literalValues_entry {capture : Text} (h : isCapture capture) :
    literalValues (entryShapes capture) = [some (captureName capture)] := by
  have hcapture : literalValues (captureShapes capture) = [] := by
    unfold captureShapes
    split <;> rfl
  rw [entryShapes, literalValues_plain (singleQuoted_of_isIdent (isCapture_eq h).1),
    literalValues_mark, hcapture]

theorem literalValues_entries {captures : List Text} (h : ∀ c ∈ captures, isCapture c) :
    literalValues ([mark ","].intercalate (captures.map entryShapes)) =
      captures.map fun c => some (captureName c) := by
  induction captures with
  | nil => rfl
  | cons capture captures ih =>
    rw [forall_mem_cons] at h
    have hentry := literalValues_entry h.1
    cases captures with
    | nil => simpa [List.intercalate] using hentry
    | cons next captures =>
      have hmore := ih h.2
      rw [map_cons] at hmore
      rw [map_cons, map_cons, intercalate_cons_cons, literalValues_append,
        literalValues_append, hentry, hmore]
      rfl

theorem literalValues_call (hname : isIdent c.name)
    (hcaptures : ∀ capture ∈ c.captures, isCapture capture)
    (hargs : ∀ d ∈ c.args, d ≠ '\\' ∧ d ≠ '\'') (hparams : trim c.params ≠ []) :
    literalValues (c.callShapes helper) =
      some c.name :: (c.captures.map (fun capture => some (captureName capture)) ++
        [some (trim c.params), some c.args]) := by
  have hown : c.ownParams = [trim c.params] := if_neg (by simpa using hparams)
  have hword : wordKind {} helper [] ≠ .stringLiteral := by
    rcases wordKind_cases {} helper [] with hkind | ⟨_, hkind⟩ <;> simp [hkind]
  simp [LiftedClosure.callShapes, hown, literalValues_entries hcaptures,
    literalValues_other, hword, literalValues_plain (singleQuoted_of_isIdent hname),
    literalValues_plain (singleQuoted_of_plain hargs)]

theorem mem_closuresOf {stem : Text} {index : Nat} (h : c ∈ closuresOf stem index literals) :
    ∃ l ∈ literals, ∃ n, c = l.1.closure (ClosureTable.nameAt stem n) := by
  induction literals generalizing index with
  | nil => cases h
  | cons q more ih =>
    rcases mem_cons.1 h with rfl | h
    · exact ⟨q, mem_cons_self, index, rfl⟩
    · obtain ⟨l, hl, n, rfl⟩ := ih h
      exact ⟨l, mem_cons_of_mem q hl, n, rfl⟩

theorem Closure.Cut.mem_of_params {ts first : List Token} (h : Cut ts first literals)
    {l : Literal × List Token} (hl : l ∈ literals) {t : Token} (ht : t ∈ l.1.params) : t ∈ ts := by
  induction h with
  | nil => cases hl
  | token _ _ ih => exact mem_cons_of_mem _ (ih hl)
  | literal _ _ _ ih =>
    rcases mem_cons.1 hl with rfl | hl
    · simp [Literal.tokens, Literal.tail, ht]
    · exact mem_append_right _ (ih hl)

/-- What is known of a closure that was lifted out of a unit. -/
theorem entry_plain {path : Path} {source : Text} {e : Extraction}
    (h : extractClosures path helper source = .ok e) (hc : c ∈ e.table.entries) :
    isIdent c.name ∧ (∀ capture ∈ c.captures, ∀ d ∈ capture, isBlank d = false) ∧
      ∀ d ∈ c.args, d ≠ '\\' ∧ d ≠ '\'' := by
  obtain ⟨tokens, _, hlex, _⟩ := extractClosures_eq_ok h
  obtain ⟨literals, hcut, _, htable, _⟩ := extractClosures_dissect h hlex
  rw [htable] at hc
  obtain ⟨l, hl, n, rfl⟩ := mem_closuresOf hc
  refine ⟨isIdent_nameAt path n, fun capture hcapture => ?_,
    forwardedArgsOf_plain fun t ht hkind => ?_⟩
  · change capture ∈ clauseCaptures l.1.clause at hcapture
    unfold clauseCaptures at hcapture
    cases hclause : l.1.clause with
    | none => rw [hclause] at hcapture; cases hcapture
    | some clause => rw [hclause] at hcapture; exact splitCaptures_not_blank hcapture
  · have hmem : t ∈ tokens := by
      rw [← throughOpenTag_append tokens]
      exact mem_append_right _ (hcut.mem_of_params hl ht)
    obtain ⟨mode, memory, left, hread⟩ := (chain_of_lexemes hlex).reads_of_mem hmem
    rw [hkind] at hread
    exact hread.variable_plain

theorem call_params (helper : Text) (h : trim c.params ≠ []) : ∃ front, c.call helper =
      front ++ (quotedLiteral (trim c.params) ++ (", '".toList ++ c.args ++ "')".toList)) := by
  have hown : c.ownParams = [trim c.params] := if_neg (by simpa using h)
  refine ⟨helper ++ "::create('".toList ++ c.name ++ "', array(".toList ++
    join ", ".toList (c.captures.map LiftedClosure.captureEntry) ++ "), ".toList, ?_⟩
  simp [LiftedClosure.call, hown, quotedLiteral]

theorem significant_filter (ts : List Token) : literalValues (significant ts) =
      (ts.filter (·.kind == .stringLiteral)).map fun t => literalValue? t.text := by
  induction ts with
  | nil => rfl
  | cons t ts ih =>
    rw [significant_cons, literalValues_append, ih]
    by_cases hkind : t.kind = .stringLiteral
    · simp [literalValues, Token.isTrivia, hkind, TokenKind.isTrivia]
    · split <;> simp [literalValues, hkind]

/-! ## There and back -/

/-- A quoted text is one literal, and its value is the text. Behind an open tag the literal is the
only token, and it is read as one wherever it stands in code. So the parameters of a closure can be
read off the call that stands in its place: there they are a literal, and where the captured
variables are variables, all the literals of the call spell what they were made of. An absolute path
that is quoted is the target of its inclusion in any file. -/
theorem quoting_round_trips (s : Text) :
    singleQuoted s = replaceAll ['\''] ['\\', '\''] (replaceAll ['\\'] ['\\', '\\'] s) ∧
    tokenize (longTag ++ quotedLiteral s) = .ok [⟨.openTag, longTag, 0⟩,
      ⟨.stringLiteral, quotedLiteral s, 6⟩,
      ⟨.endOfInput, [], byteLength (longTag ++ quotedLiteral s)⟩] ∧
    literalValue? (quotedLiteral s) = some s ∧
    (∀ b pos rest, lexFrom true b pos (quotedLiteral s ++ rest) =
      (lexFrom true {} (pos + byteLength (quotedLiteral s)) rest).map
        (⟨.stringLiteral, quotedLiteral s, pos⟩ :: ·)) ∧
    (∀ (helper : Text) (c : LiftedClosure), trim c.params = s → s ≠ [] → ∃ front,
      c.call helper = front ++ (quotedLiteral s ++ (", '".toList ++ c.args ++ "')".toList))) ∧
    (∀ path helper source e, extractClosures path helper source = .ok e →
      isIdent helper → ∀ c ∈ e.table.entries,
      (∀ capture ∈ c.captures, isCapture capture) → trim c.params = s → s ≠ [] →
      ∃ tokens, tokenize (longTag ++ c.call helper) = .ok tokens ∧
        ((tokens.filter (·.kind == .stringLiteral)).map fun t => literalValue? t.text) =
          some c.name :: (c.captures.map (fun capture => some (captureName capture)) ++
            [some s, some c.args])) ∧
    ∀ file, Path.isAbsolute s → target? (quotedLiteral s) file = .ok (some s) := by
  refine ⟨singleQuoted_eq_replaceAll s, ?_, literalValue?_quotedLiteral s,
    fun b pos rest => lexFrom_quotedLiteral b pos s rest, ?_, ?_, ?_⟩
  · have hlex := lexFrom_quotedLiteral {} 6 s []
    rw [List.append_nil, lexFrom] at hlex
    rw [tokenize, lexemes_longTag, hlex]
    rfl
  · rintro helper c rfl hne
    exact call_params helper hne
  · rintro path helper source e h hhelper c hc hcaptures rfl hne
    obtain ⟨hname, hblank, hargs⟩ := entry_plain h hc
    have hread := readsAs_call hhelper hname hcaptures hblank hargs (.nil true {})
    rw [List.append_nil, List.append_nil] at hread
    obtain ⟨ts, hts, hshapes⟩ := hread 6
    refine ⟨_, by rw [tokenize, lexemes_longTag, hts]; rfl, ?_⟩
    rw [← literalValues_call hname hcaptures hargs hne, ← hshapes, significant_filter]
    simp
  · intro file habsolute
    have hne : s ≠ [] := by rintro rfl; cases habsolute
    rw [target?_of_readsAs (readsAs_quotedLiteral {} s)
      (.single (.literal (literalValue?_quotedLiteral s))) hne, if_pos habsolute]

/-- A closure whose parameter has a default of a quote and a backslash. -/
def quotingClosure : Text := "<?php f(function ( $a = '\\'\\\\' ) use (&$b) { return 1; });".toList

/-- The parameters of that closure, and a path with a quote in it and a backslash at its end. -/
theorem quoting_round_trips_default :
    (∃ e, extractClosures "p.php".toList "H".toList quotingClosure = .ok e ∧
      ∃ c ∈ e.table.entries, ∃ tokens,
        tokenize (longTag ++ c.call "H".toList) = .ok tokens ∧
        ((tokens.filter (·.kind == .stringLiteral)).map fun t => literalValue? t.text) =
          [some c.name, some ['b'], some "$a = '\\'\\\\'".toList, some "$a".toList]) ∧
    target? (quotedLiteral "/it's\\".toList) "a.php".toList = .ok (some "/it's\\".toList) := by
  have hrun : (extractClosures "p.php".toList "H".toList quotingClosure).toOption.any (fun e =>
      e.table.entries.any fun c => trim c.params == "$a = '\\'\\\\'".toList &&
        c.captures == ["&$b".toList] && c.args == "$a".toList) := by decide +kernel
  obtain ⟨e, he, hentries⟩ := (Option.any_eq_true _ _).1 hrun
  obtain ⟨c, hc, hfacts⟩ := List.any_eq_true.1 hentries
  simp only [Bool.and_eq_true, beq_iff_eq] at hfacts
  obtain ⟨⟨hparams, hcaptures⟩, hargs⟩ := hfacts
  have hok := eq_ok_of_toOption he
  obtain ⟨_, _, _, _, _, hcall, _⟩ := quoting_round_trips "$a = '\\'\\\\'".toList
  obtain ⟨tokens, htokens, hvalues⟩ := hcall _ _ _ e hok (by decide) c hc
    (by rw [hcaptures]; decide) hparams (by decide)
  refine ⟨⟨e, hok, c, hc, tokens, htokens, ?_⟩, ?_⟩
  · rw [hvalues, hcaptures, hargs]
    rfl
  · obtain ⟨_, _, _, _, _, _, htarget⟩ := quoting_round_trips "/it's\\".toList
    exact htarget _ rfl

end LegacyPhp
