import LegacyPhp.Proofs.Closure.Cut
import LegacyPhp.Proofs.Token.Seams

/-!
# The tokens of pasted code

Lifting a closure writes code of its own: the call that stands in place of the literal, the head of
the named function, the class behind the calls. Here these texts are read back. Each lemma puts one
token or one piece in front of a text whose tokens are known (`ReadsAs`), so a call is read from its
last parenthesis to its first word (`readsAs_call`), and the class is read piece by piece around its
name (`readsAs_class`). What is pasted from the unit comes in through a
few facts: captured variables are variables (`isCapture`), and no quote or backslash stands in the
arguments (`forwardedArgsOf_plain`).
-/

namespace LegacyPhp

open Text Scan Closure List

variable {name capture helper rest code text : Text} {b : Before} {params : List Token}
  {α : Type} {c : Char} {inCode : Bool} {last : Shape} {shapes : List Shape}

/-- A mark of the code. -/
def mark (m : String) : Shape := (.punctuation, m.toList)

/-- A literal in single quotes with the given body. -/
def quoted (body : Text) : Shape := (.stringLiteral, '\'' :: body ++ ['\''])

/-! ## Marks and literals -/

/-- Escaped quotes and backslashes do not end a literal. -/
theorem literalRest_singleQuoted (text rest : Text) (start pos : Nat) :
    literalRest (.single false start) [] pos (singleQuoted text ++ '\'' :: rest) =
      .ok (singleQuoted text ++ ['\''], rest) := by
  have hquote : isQuote '\'' := rfl
  refine (literalRest_between_iff hquote).2 ?_
  induction text with
  | nil => exact .nil
  | cons c text ih =>
    have hcons : singleQuoted (c :: text) =
        (if c == '\\' || c == '\'' then ['\\', c] else [c]) ++ singleQuoted text := rfl
    rw [hcons]
    split
    · exact .escape nofun ih
    · next hc => exact .plain (by simpa [Zone.between, Zone.plain] using hc) ih

theorem singleQuoted_of_plain (h : ∀ c ∈ text, c ≠ '\\' ∧ c ≠ '\'') : singleQuoted text = text := by
  induction text with
  | nil => rfl
  | cons c text ih =>
    have hc := h c mem_cons_self
    have hcons : singleQuoted (c :: text) =
        (if c == '\\' || c == '\'' then ['\\', c] else [c]) ++ singleQuoted text := rfl
    rw [hcons, ih fun d hd => h d (mem_cons_of_mem c hd)]
    simp [hc]

theorem literalRest_doubleQuoted (rest : Text) (h : ∀ c ∈ text, c ≠ '\\' ∧ c ≠ '{' ∧ c ≠ '"')
    (start pos : Nat) :
    literalRest (.interpolated '"' .plain start) [] pos (text ++ '"' :: rest) =
      .ok (text ++ ['"'], rest) := by
  have hquote : isQuote '"' := rfl
  refine (literalRest_between_iff hquote).2 ?_
  induction text with
  | nil => exact .nil
  | cons c text ih =>
    obtain ⟨hc, htext⟩ := forall_mem_cons.1 h
    by_cases hdollar : c = '$'
    · exact hdollar ▸ .dollar nofun (ih htext)
    · exact .plain (by simp [Zone.between, Zone.plain, hc, hdollar]) (ih htext)

theorem scanCode_singleQuoted (text rest : Text) (b : Before) (pos : Nat) :
    scanCode b pos '\'' (singleQuoted text ++ ['\''] ++ rest) =
      .ok ⟨.stringLiteral, '\'' :: (singleQuoted text ++ ['\'']), rest⟩ := by
  rw [append_assoc]
  simp [scanCode, isSpace, isIdentStart, scanLiteral, literalRest_singleQuoted, Scanned.of]

namespace ReadsAs

variable {shapes : List Shape}

theorem stop (hc : isStop c) (h : ReadsAs true {} rest shapes) :
    ReadsAs true b (c :: rest) ((.punctuation, [c]) :: shapes) :=
  single (lexes_stop hc b rest) rfl h

theorem comma (h : ReadsAs true {} rest shapes) :
    ReadsAs true b (',' :: rest) (mark "," :: shapes) :=
  single (lexes_loneMark rfl b rest) rfl h

theorem opening (h : ReadsAs true {} rest shapes) :
    ReadsAs true b ('(' :: rest) (mark "(" :: shapes) := by
  have hscan : ∀ pos, scanCode b pos '(' ([] ++ rest) = .ok ⟨.punctuation, ['('], rest⟩ :=
    fun _ => by simp [scanCode, scanMark, operator, operators, after?, isSpace, isIdentStart]
  exact single (lexes_of_scan hscan (by simp)) rfl h

theorem arrow (h : ReadsAs true {} rest shapes) :
    ReadsAs true b ('=' :: '>' :: rest) (mark "=>" :: shapes) := by
  have hscan : ∀ pos,
      scanCode b pos '=' (['>'] ++ rest) = .ok ⟨.punctuation, ['=', '>'], rest⟩ := by
    simp [scanCode, scanMark, operator, operators, after?, isSpace, isIdentStart]
  exact single (lexes_of_scan hscan (by simp)) rfl h

theorem ampersand (hrest : nextIs (fun c => c == '&' || c == '=') rest = false)
    (h : ReadsAs true {} rest shapes) : ReadsAs true b ('&' :: rest) (mark "&" :: shapes) := by
  have hscan : ∀ pos, scanCode b pos '&' ([] ++ rest) = .ok ⟨.punctuation, ['&'], rest⟩ := by
    cases rest with
    | nil => simp [scanCode, scanMark, operator, operators, after?, isSpace, isIdentStart]
    | cons c rest =>
      simp only [nextIs, Bool.or_eq_false_iff, beq_eq_false_iff_ne] at hrest
      simp [scanCode, scanMark, operator, operators, after?, isSpace, isIdentStart, hrest.1.symm,
        hrest.2.symm]
  exact single (lexes_of_scan hscan (by simp)) rfl h

theorem singleQuoted (text : Text) (h : ReadsAs true {} rest shapes) :
    ReadsAs true b ('\'' :: LegacyPhp.singleQuoted text ++ '\'' :: rest)
      (quoted (LegacyPhp.singleQuoted text) :: shapes) := by
  have hlexes := single (lexes_of_scan (scanCode_singleQuoted text rest b) (by simp)) rfl h
  rwa [cons_append, append_assoc] at hlexes

theorem doubleQuoted (htext : ∀ c ∈ text, c ≠ '\\' ∧ c ≠ '{' ∧ c ≠ '"')
    (h : ReadsAs true {} rest shapes) :
    ReadsAs true b ('"' :: text ++ '"' :: rest)
      ((.stringLiteral, '"' :: text ++ ['"']) :: shapes) := by
  have hscan : ∀ pos, scanCode b pos '"' (text ++ ['"'] ++ rest) =
      .ok ⟨.stringLiteral, '"' :: (text ++ ['"']), rest⟩ := by
    intro pos
    rw [append_assoc]
    simp [scanCode, isSpace, isIdentStart, scanLiteral, literalRest_doubleQuoted rest htext,
      Scanned.of]
  have hlexes := single (lexes_of_scan hscan (by simp)) rfl h
  rwa [cons_append, append_assoc] at hlexes

theorem identifier (htext : isIdent text) (hword : Keyword.ofWord? text = none)
    (hrest : nextIs isIdentChar rest = false) (h : ReadsAs true {} rest shapes) :
    ReadsAs true b (text ++ rest) ((.identifier, text) :: shapes) :=
  single (lexes_identifier b htext hword hrest) rfl h

theorem keyword {word : Keyword} (hword : Keyword.ofWord? text = some word)
    (hrest : nextIs isIdentChar rest = false) (hseparator : nextIs (· == '\\') rest = false)
    (h : ReadsAs true {} rest shapes) :
    ReadsAs true {} (text ++ rest) ((.keyword word, text) :: shapes) :=
  single (lexes_keyword hword hrest hseparator) rfl h

theorem dollar (hname : isIdent name) (hrest : nextIs isIdentChar rest = false)
    (h : ReadsAs true {} rest shapes) :
    ReadsAs true b ('$' :: name ++ rest) ((.variable, '$' :: name) :: shapes) :=
  single (lexes_variable b hname hrest) rfl h

theorem word (htext : isIdent text) (hrest : nextIs isIdentChar rest = false)
    (hseparator : nextIs (· == '\\') rest = false) (h : ReadsAs true {} rest shapes) :
    ReadsAs true {} (text ++ rest) ((wordKind {} text [], text) :: shapes) := by
  cases hword : Keyword.ofWord? text with
  | none =>
    have hkind : wordKind {} text [] = .identifier := by simp [wordKind, hword]
    rw [hkind]
    exact identifier htext hword hrest h
  | some k =>
    have hkind : wordKind {} text [] = .keyword k := by simp [wordKind, hword, nextIs]
    rw [hkind]
    exact keyword hword hrest hseparator h

end ReadsAs

/-! ## Lists -/

/-- The text is read as these tokens in front of a comma or a closing parenthesis. -/
def Item (text : Text) (shapes : List Shape) : Prop :=
  ∀ rest more, nextIs (fun c => c == ',' || c == ')') rest = true → ReadsAs true {} rest more →
    ReadsAs true {} (text ++ rest) (shapes ++ more)

theorem nextIs_of_listEnd (h : nextIs (fun c => c == ',' || c == ')') rest) :
    nextIs isIdentChar rest = false ∧ nextIs (· == '\\') rest = false := by
  cases rest with
  | nil => cases h
  | cons c rest =>
    simp only [nextIs, Bool.or_eq_true, beq_iff_eq] at h
    rcases h with rfl | rfl <;> exact ⟨rfl, rfl⟩

section

variable {text : α → Text} {shapes : α → List Shape} {items : List α} {more : List Shape}

theorem readsAs_join {last : Text} {lastShapes : List Shape}
    (h : ∀ a ∈ items, Item (text a) (shapes a))
    (hlast : ReadsAs true {} (last ++ rest) (lastShapes ++ more)) :
    ReadsAs true {} (join ", ".toList (items.map text ++ [last]) ++ rest)
      ([mark ","].intercalate (items.map shapes ++ [lastShapes]) ++ more) := by
  induction items with
  | nil => simpa [join, List.intercalate] using hlast
  | cons a items ih =>
    have hlater := ih fun x hx => h x (mem_cons_of_mem a hx)
    have hspace : [' '].all isSpace := rfl
    have ha := h a mem_cons_self _ _ rfl (.comma (.spaces hspace nofun hlater))
    cases items <;> simpa [join, List.intercalate] using ha

theorem item_join (h : ∀ a ∈ items, Item (text a) (shapes a)) :
    Item (join ", ".toList (items.map text)) ([mark ","].intercalate (items.map shapes)) := by
  intro rest more hrest hread
  rcases eq_nil_or_concat items with rfl | ⟨init, last, rfl⟩
  · exact hread
  · rw [concat_eq_append] at h ⊢
    have hlast := h last (by simp) rest more hrest hread
    rw [map_append, map_append]
    exact readsAs_join (fun a ha => h a (mem_append_left _ ha)) hlast

end

/-! ## Captured variables -/

/-- A variable, taken by reference or not. -/
def isCapture : Text → Bool
  | '&' :: '$' :: name => isIdent name
  | '$' :: name => isIdent name
  | _ => false

/-- The tokens of a captured variable. -/
def captureShapes : Text → List Shape
  | '&' :: taken => [mark "&", (.variable, taken)]
  | taken => [(.variable, taken)]

/-- The name of a captured variable. -/
def captureName : Text → Text
  | '&' :: '$' :: name => name
  | '$' :: name => name
  | other => other

theorem isCapture_eq (h : isCapture capture) : isIdent (captureName capture) ∧
      (capture = '&' :: '$' :: captureName capture ∨ capture = '$' :: captureName capture) := by
  unfold isCapture at h
  split at h
  · exact ⟨h, .inl rfl⟩
  · exact ⟨h, .inr rfl⟩
  · cases h

theorem item_capture (h : isCapture capture) : Item capture (captureShapes capture) := by
  intro rest more hrest hread
  obtain ⟨hname, heq⟩ := isCapture_eq h
  have hvariable : ∀ b, ReadsAs true b ('$' :: captureName capture ++ rest)
      ((.variable, '$' :: captureName capture) :: more) := fun b =>
    .dollar hname (nextIs_of_listEnd hrest).1 hread
  rcases heq with heq | heq
  · rw [heq]
    exact .ampersand rfl (hvariable {})
  · rw [heq]
    exact hvariable {}

theorem isIdent_plain (h : isIdent name) : ∀ c ∈ name, isIdentChar c := by
  rw [isIdent, Bool.and_eq_true, all_eq_true] at h
  exact h.2

theorem singleQuoted_of_isIdent (h : isIdent name) : singleQuoted name = name := by
  refine singleQuoted_of_plain fun c hc => ?_
  have hchar := isIdent_plain h c hc
  constructor
  all_goals
    rintro rfl
    cases hchar

theorem trim_of_not_blank (h : ∀ c ∈ text, isBlank c = false) : trim text = text := by
  have hdrop : ∀ {cs : Text}, (∀ c ∈ cs, isBlank c = false) → cs.dropWhile isBlank = cs := by
    intro cs hcs
    cases cs with
    | nil => rfl
    | cons c cs => rw [dropWhile_cons_of_neg (by simp [hcs c mem_cons_self])]
  rw [trim, trimEnd, dropEndWhile, hdrop h, hdrop fun c hc => h c (mem_reverse.1 hc),
    reverse_reverse]

/-- A captured variable is passed under its name. -/
theorem captureEntry_eq (h : isCapture capture) (hblank : ∀ c ∈ capture, isBlank c = false) :
    LiftedClosure.captureEntry capture =
      '\'' :: captureName capture ++ '\'' :: ' ' :: '=' :: '>' :: ' ' :: capture := by
  obtain ⟨hname, heq⟩ := isCapture_eq h
  generalize captureName capture = name at hname heq ⊢
  have hfirst : dropLeading '$' ('$' :: name) = name := by
    cases name with
    | nil => cases hname
    | cons c cs =>
      have hc : isIdentStart c := (Bool.and_eq_true_iff.1 hname).1
      have hne : (c == '$') = false := beq_eq_false_iff_ne.2 fun heq => by rw [heq] at hc; cases hc
      simp [dropLeading, hne]
  have hdrop : dropLeading '&' capture = '$' :: name := by
    rcases heq with rfl | rfl <;> rfl
  have htrim : trim ('$' :: name) = '$' :: name := by
    refine trim_of_not_blank fun c hc => hblank c ?_
    rcases heq with rfl | rfl
    · exact mem_cons_of_mem _ hc
    · exact hc
  rw [LiftedClosure.captureEntry, hdrop, htrim, hfirst]
  simp

/-- The tokens of a captured variable under its name. -/
def entryShapes (capture : Text) : List Shape :=
  quoted (captureName capture) :: mark "=>" :: captureShapes capture

theorem item_entry (h : isCapture capture) (hblank : ∀ c ∈ capture, isBlank c = false) :
    Item (LiftedClosure.captureEntry capture) (entryShapes capture) := by
  intro rest more hrest hread
  have hspace : [' '].all isSpace := rfl
  have hcapture := item_capture h rest more hrest hread
  have hquoted := ReadsAs.singleQuoted (b := {}) (captureName capture)
    (.spaces hspace nofun (.arrow (.spaces hspace nofun hcapture)))
  rw [singleQuoted_of_isIdent (isCapture_eq h).1] at hquoted
  rw [captureEntry_eq h hblank]
  simpa [entryShapes] using hquoted

/-! ## The call of a closure -/

namespace LiftedClosure

/-- The tokens of the call that stands in place of a literal. -/
def callShapes (helper : Text) (c : LiftedClosure) : List Shape :=
  [(wordKind {} helper [], helper), mark "::", (.identifier, "create".toList), mark "(",
    quoted c.name, mark ",", (.keyword .arrayKw, "array".toList), mark "("] ++
  [mark ","].intercalate (c.captures.map entryShapes) ++ [mark ")"] ++
  c.ownParams.flatMap (fun own =>
    [mark ",", quoted (singleQuoted own), mark ",", quoted c.args]) ++ [mark ")"]

end LiftedClosure

theorem readsAs_call {c : LiftedClosure} (hhelper : isIdent helper) (hname : isIdent c.name)
    (hcaptures : ∀ capture ∈ c.captures, isCapture capture)
    (hblank : ∀ capture ∈ c.captures, ∀ d ∈ capture, isBlank d = false)
    (hargs : ∀ d ∈ c.args, d ≠ '\\' ∧ d ≠ '\'') (h : ReadsAs true {} rest shapes) :
    ReadsAs true {} (c.call helper ++ rest) (c.callShapes helper ++ shapes) := by
  have hspace : [' '].all isSpace := rfl
  have hend : ReadsAs true {} (')' :: rest) (mark ")" :: shapes) := .stop rfl h
  have hown : ReadsAs true {} (c.ownParams.flatMap (fun own =>
        ", '".toList ++ singleQuoted own ++ "', '".toList ++ c.args ++ ['\'']) ++ ')' :: rest)
      (c.ownParams.flatMap (fun own =>
        [mark ",", quoted (singleQuoted own), mark ",", quoted c.args]) ++ mark ")" :: shapes) := by
    unfold LiftedClosure.ownParams
    split
    · exact hend
    · have hlast := ReadsAs.singleQuoted (b := {}) c.args hend
      rw [singleQuoted_of_plain hargs] at hlast
      have hfirst := ReadsAs.singleQuoted (b := {}) (trim c.params)
        (.comma (.spaces hspace nofun hlast))
      have hcomma : ReadsAs true {} _ _ := .comma (.spaces hspace nofun hfirst)
      simpa using hcomma
  have hentries := item_join (fun capture hcapture =>
    item_entry (hcaptures capture hcapture) (hblank capture hcapture)) (')' :: _) _ rfl
    (.stop rfl hown)
  have hword : Keyword.ofWord? "array".toList = some .arrayKw := by decide
  have harray := ReadsAs.keyword hword rfl rfl (.opening hentries)
  have hquoted := ReadsAs.singleQuoted (b := {}) c.name (.comma (.spaces hspace nofun harray))
  rw [singleQuoted_of_isIdent hname] at hquoted
  have hident : isIdent "create".toList := by decide
  have hcreate := ReadsAs.identifier (b := { member := true }) hident (by decide) rfl
    (.opening hquoted)
  have hcall := ReadsAs.word hhelper rfl rfl (.single (lexes_colons {} _) rfl hcreate)
  simpa [LiftedClosure.call, LiftedClosure.callShapes, mark] using hcall

theorem LiftedClosure.call_append (helper : Text) (c : LiftedClosure) (rest : Text) :
    ∃ more, c.call helper ++ rest = helper ++ ':' :: more := by
  refine ⟨":create('".toList ++ c.name ++ "', array(".toList ++
    join ", ".toList (c.captures.map captureEntry) ++ [')'] ++
    c.ownParams.flatMap (fun own =>
      ", '".toList ++ singleQuoted own ++ "', '".toList ++ c.args ++ ['\'']) ++ [')'] ++ rest, ?_⟩
  simp [call]

/-! ## The head of a named function -/

theorem ReadsAs.reference {name : Text} (h : ReadsAs true {} (name ++ rest) shapes) (byRef : Bool)
    (hname : isIdent name) :
    ReadsAs true {} ((if byRef then ['&'] else []) ++ (name ++ rest))
      ((if byRef then [mark "&"] else []) ++ shapes) := by
  split
  · refine .ampersand (nextIs_of_isIdent hname (fun c hc => ?_) _) h
    rw [ne_of_class hc (by decide), ne_of_class hc (by decide)]
    rfl
  · exact h

theorem LiftedClosure.declaration_append (c : LiftedClosure) (rest : Text) :
    c.declaration ++ rest = "function".toList ++ (' ' :: ((if c.byRef then ['&'] else []) ++
      (c.name ++ '(' :: (join ", ".toList (c.captures ++ c.ownParams) ++
        ')' :: ' ' :: (c.body ++ rest))))) := by
  have hword : "function ".toList = "function".toList ++ [' '] := by decide
  have hclose : ") ".toList = [')', ' '] := by decide
  unfold declaration
  rewrite [hword, hclose]
  simp only [append_assoc, cons_append, nil_append, -String.reduceToList]

/-! ## Names and arguments -/

theorem isIdentChar_of_isDigit (h : c.isDigit) : isIdentChar c := by
  simp [isIdentChar, Char.isAlphanum, h]

theorem isIdentChar_hexDigit (n : Nat) : isIdentChar (ClosureTable.hexDigit n) := by
  by_cases hn : n < 16
  · have hall : ∀ k < 16, isIdentChar (ClosureTable.hexDigit k) := by decide
    exact hall n hn
  · have hnone : "0123456789abcdef".toList[n]? = none :=
      getElem?_eq_none (Nat.le_of_not_lt hn)
    rw [ClosureTable.hexDigit, List.getD, hnone]
    rfl

/-- The name of a lifted closure is an identifier. -/
theorem isIdent_nameAt (path : Path) (index : Nat) :
    isIdent (ClosureTable.nameAt (ClosureTable.stemOf path) index) := by
  have hdigits : ∀ c ∈ ofNat index, isIdentChar c := fun c hc =>
    isIdentChar_of_isDigit (Nat.isDigit_of_mem_toDigits (by decide) (by decide) hc)
  have hmark : ∀ c ∈ ClosureTable.pathMark path, isIdentChar c := by
    intro c hc
    obtain ⟨shift, _, rfl⟩ := mem_map.1 hc
    exact isIdentChar_hexDigit _
  have hstem : ∀ c ∈ "_lc_".toList, isIdentChar c := forall_mem_of_all (by decide)
  rw [isIdent, Bool.and_eq_true, all_eq_true]
  refine ⟨rfl, fun c hc => ?_⟩
  rw [ClosureTable.nameAt, ClosureTable.stemOf, append_assoc] at hc
  rcases mem_append.1 hc with hc | hc
  · exact hstem c hc
  · rcases mem_append.1 hc with hc | hc
    · exact hmark c hc
    · rcases mem_cons.1 hc with rfl | hc
      · rfl
      · exact hdigits c hc

theorem ofWord?_nameAt (path : Path) (index : Nat) :
    Keyword.ofWord? (ClosureTable.nameAt (ClosureTable.stemOf path) index) = none := by
  cases hword : Keyword.ofWord? (ClosureTable.nameAt (ClosureTable.stemOf path) index) with
  | none => rfl
  | some k =>
    have hfirst : '_'.isAlpha := (isIdent_spellings _ (mem_of_lookup hword)).2
    cases hfirst

theorem Reads.variable_eq (h : Reads inCode b .variable text rest) :
    ∃ name, text = '$' :: name ∧ isIdent name := by
  cases h with
  | @code _ _ _ _ cs _ h =>
    cases scans_of_scanCode h with
    | var hc hstart hrun =>
      refine ⟨cs, by rw [hc], Bool.and_eq_true_iff.2 ⟨?_, all_of_run hrun⟩⟩
      have hne := length_of_nextIs (fun _ => isIdentChar_of_isIdentStart) hstart
      rw [hrun] at hne
      obtain ⟨d, ds, rfl⟩ := exists_cons_of_ne_nil hne
      exact hstart

theorem Reads.variable_plain (h : Reads inCode b .variable text rest) :
    ∀ c ∈ text, c ≠ '\\' ∧ c ≠ '\'' := by
  obtain ⟨name, rfl, hname⟩ := h.variable_eq
  intro d hd
  rcases mem_cons.1 hd with rfl | hd
  · simp
  · have hchar := isIdent_plain hname d hd
    constructor <;>
      · rintro rfl
        cases hchar

theorem forwardedArgs_plain
    (h : ∀ t ∈ params, t.kind = .variable → ∀ c ∈ t.text, c ≠ '\\' ∧ c ≠ '\'') (depth : Nat)
    (byRef named : Bool) :
    ∀ arg ∈ forwardedArgs depth byRef named params, ∀ c ∈ arg, c ≠ '\\' ∧ c ≠ '\'' := by
  induction params generalizing depth byRef named with
  | nil => simp [forwardedArgs]
  | cons t params ih =>
    have hrest := ih fun u hu => h u (mem_cons_of_mem t hu)
    rw [forwardedArgs]
    split
    · exact hrest _ _ _
    split
    · exact hrest _ _ _
    split
    · exact hrest _ _ _
    split
    · exact hrest _ _ _
    split
    · next hvariable =>
      intro arg harg c hc
      rcases mem_cons.1 harg with rfl | harg
      · have hkind : t.kind = .variable := eq_of_beq (Bool.and_eq_true_iff.1 hvariable).2
        rcases mem_append.1 hc with hc | hc
        · cases byRef with
          | true => rw [mem_singleton.1 hc]; simp
          | false => cases hc
        · exact h t mem_cons_self hkind c hc
      · exact hrest _ _ _ arg harg c hc
    · exact hrest _ _ _

theorem mem_intercalate {sep : List α} {parts : List (List α)} {a : α}
    (h : a ∈ sep.intercalate parts) : a ∈ sep ∨ ∃ part ∈ parts, a ∈ part := by
  induction parts with
  | nil => cases h
  | cons part parts ih =>
    cases parts with
    | nil =>
      have ha : a ∈ part := by simpa [List.intercalate] using h
      exact .inr ⟨part, mem_cons_self, ha⟩
    | cons next parts =>
      have ha : a ∈ part ∨ a ∈ sep ∨ a ∈ sep.intercalate (next :: parts) := by
        simpa [List.intercalate] using h
      rcases ha with ha | ha | ha
      · exact .inr ⟨part, mem_cons_self, ha⟩
      · exact .inl ha
      · refine (ih ha).imp_right ?_
        rintro ⟨p, hp, ha⟩
        exact ⟨p, mem_cons_of_mem part hp, ha⟩

theorem forwardedArgsOf_plain
    (h : ∀ t ∈ params, t.kind = .variable → ∀ c ∈ t.text, c ≠ '\\' ∧ c ≠ '\'') :
    ∀ c ∈ forwardedArgsOf params, c ≠ '\\' ∧ c ≠ '\'' := by
  intro c hc
  rcases mem_intercalate hc with hc | ⟨arg, harg, hc⟩
  · have hsep : ∀ d ∈ ", ".toList, d ≠ '\\' ∧ d ≠ '\'' := forall_mem_of_all (by decide)
    exact hsep c hc
  · exact forwardedArgs_plain h _ _ _ arg harg c hc

theorem splitCaptures_not_blank {list : Text} (h : capture ∈ splitCaptures list) :
    ∀ c ∈ capture, isBlank c = false := by
  intro c hc
  obtain ⟨part, _, rfl⟩ := mem_map.1 (mem_filter.1 h).1
  simpa using (mem_filter.1 hc).2

/-! ## The class behind the calls -/

/-- The tokens of a piece of code, read on its own. -/
def codeTokens (text : Text) : List Token := (lexFrom true {} 0 text).toOption.getD []

/-- The piece of code is read on its own, it ends with the given token, it holds no tag, and the
lexer remembers nothing behind it. No closure literal stands in it, and it starts with no parameters
of one. -/
def endsWithToken (text : Text) (last : Shape) : Bool :=
  match lexFrom true {} 0 text with
  | .error _ => false
  | .ok ts => ts.getLast?.map (fun t => (t.kind, t.text)) == some last &&
      ts.all (fun t => !isTag t) && ts.foldl Before.next {} == {} &&
      ((first? ts).isNone && !startsAfter ts)

theorem foldl_inCodeAfter_of_not_tag {ts : List Token} (h : ∀ t ∈ ts, isTag t = false)
    (inCode : Bool) : ts.foldl inCodeAfter inCode = inCode := by
  have hnone : ts.filter isTag = [] := filter_eq_nil_iff.2 fun t ht => by simp [h t ht]
  rw [foldl_inCodeAfter, hnone]
  rfl

/-- Such a piece is read in the same way in front of a text that its last token does not go on
with. -/
theorem readsAs_code (hend : endsWithToken code last) (hlast : goesOn last.1 last.2 rest = false)
    (hrest : nextIs (fun c => c.isDigit || c == '.' || c == '\\') rest = false)
    (h : ReadsAs true {} rest shapes) :
    ReadsAs true {} (code ++ rest) (significant (codeTokens code) ++ shapes) := by
  unfold endsWithToken at hend
  split at hend
  · cases hend
  next ts hts =>
  simp only [Bool.and_eq_true, beq_iff_eq, all_eq_true, Bool.not_eq_true'] at hend
  obtain ⟨⟨⟨hget, htags⟩, hmemory⟩, _⟩ := hend
  have hcode : codeTokens code = ts := by rw [codeTokens, hts]; rfl
  have htext : serialize ts = code := (lexFrom_tiles hts).serialize_eq
  have hchain : Chain true {} ts (serialize []) := by
    rw [← append_nil ts] at hts
    exact chain_of_lexFrom hts
  have hagain : Chain true {} ts rest := by
    refine hchain.of_ends (fun t ht => ?_) (fun _ _ _ => rfl) hrest (.inl fun t ht hkind => ?_)
    · rw [ht, Option.map_some, Option.some.injEq] at hget
      rw [← hget] at hlast
      exact hlast
    · have htag := htags t ht
      simp [isTag, hkind] at htag
  have hread : ReadsAs (ts.foldl inCodeAfter true) (ts.foldl Before.next {}) rest shapes := by
    rwa [foldl_inCodeAfter_of_not_tag htags, hmemory]
  rw [hcode, ← htext]
  exact .of_chain hagain hread

theorem first?_codeTokens (hend : endsWithToken code last) :
    first? (codeTokens code) = none ∧ startsAfter (codeTokens code) = false ∧
      (codeTokens code).getLast?.map (fun t => (t.kind, t.text)) = some last := by
  unfold endsWithToken at hend
  split at hend
  · cases hend
  · next ts hts =>
    simp only [Bool.and_eq_true, beq_iff_eq, Option.isNone_iff_eq_none, Bool.not_eq_true'] at hend
    obtain ⟨⟨⟨hlast, _⟩, _⟩, hfirst, hafter⟩ := hend
    rw [codeTokens, hts]
    exact ⟨hfirst, hafter, hlast⟩

theorem endsWithToken_class : endsWithToken classCheck (mark "(") ∧
    endsWithToken classOpening (.whitespace, [' ']) ∧
    endsWithToken classCreate (.whitespace, [' ']) ∧ endsWithToken classInvoke (mark "\x7d") := by
  -- the kernel reads long literals slowly
  delta classCreate classInvoke
  repeat rw [String.toList_ofList]
  decide +kernel

theorem closureHelperSource_append (helper rest : Text) :
    closureHelperSource helper ++ rest = classCheck ++ ('\'' :: helper ++ '\'' :: (classOpening ++
      (helper ++ (classCreate ++
        ('"' :: classReturn helper ++ '"' :: (classInvoke ++ (['\n'] ++ rest))))))) := by
  simp only [closureHelperSource, append_assoc, cons_append]

/-- The tokens of the class and others behind them. -/
def classShapesThen (helper : Text) (shapes : List Shape) : List Shape :=
  significant (codeTokens classCheck) ++ (quoted helper :: (significant (codeTokens classOpening) ++
    ((wordKind {} helper [], helper) :: (significant (codeTokens classCreate) ++
      ((.stringLiteral, '"' :: classReturn helper ++ ['"']) ::
        (significant (codeTokens classInvoke) ++ shapes))))))

/-- The tokens of the class. -/
def classShapes (helper : Text) : List Shape := classShapesThen helper []

theorem classShapes_append (helper : Text) (shapes : List Shape) :
    classShapes helper ++ shapes = classShapesThen helper shapes := by
  simp only [classShapes, classShapesThen, append_assoc, cons_append, nil_append]

/-- The class is read as it is, whatever its name and whatever follows it. -/
theorem readsAs_class (hhelper : isIdent helper) (h : ReadsAs true {} rest shapes) :
    ReadsAs true {} (closureHelperSource helper ++ rest) (classShapes helper ++ shapes) := by
  have hplain : ∀ c ∈ classReturn helper, c ≠ '\\' ∧ c ≠ '{' ∧ c ≠ '"' := by
    have htext : ∀ c ∈ "return ".toList ++ "::invoke($id, $forward);".toList,
        c ≠ '\\' ∧ c ≠ '{' ∧ c ≠ '"' := forall_mem_of_all (by decide)
    intro c hc
    rcases mem_append.1 hc with hc | hc
    · rcases mem_append.1 hc with hc | hc
      · exact htext c (mem_append_left _ hc)
      · have hchar := isIdent_plain hhelper c hc
        refine ⟨?_, ?_, ?_⟩ <;> (rintro rfl; cases hchar)
    · exact htext c (mem_append_right _ hc)
  have hbreak : ['\n'].all isSpace := rfl
  obtain ⟨hcheck, hopening, hcreate, hinvoke⟩ := endsWithToken_class
  have hend := readsAs_code hinvoke (goesOn_mark (by decide) (by decide) (by decide) _) rfl
    (.spaces hbreak nofun h)
  have hcode := readsAs_code hcreate rfl rfl (.doubleQuoted hplain hend)
  have hname := readsAs_code hopening
    (nextIs_of_isIdent hhelper (fun _ => not_isSpace_of_isIdentStart) _)
    (nextIs_of_isIdent hhelper (fun _ => not_numeral_of_isIdentStart) _)
    (.word hhelper rfl rfl hcode)
  have hquoted := ReadsAs.singleQuoted (b := {}) helper hname
  rw [singleQuoted_of_isIdent hhelper] at hquoted
  have hall := readsAs_code hcheck
    (goesOn_mark (by decide) (by decide) (by decide) _) rfl hquoted
  rw [closureHelperSource_append, classShapes_append]
  exact hall

theorem codeTokens_class (h : isIdent helper) :
    significant (codeTokens (closureHelperSource helper)) = classShapes helper := by
  have hread := readsAs_class h (.nil true {})
  rw [append_nil, append_nil] at hread
  obtain ⟨ts, hts, hshapes⟩ := hread 0
  rw [codeTokens, hts]
  exact hshapes

theorem nextIs_class (helper rest : Text) :
    nextIs isIdentStart (closureHelperSource helper ++ rest) ∧
      (∀ c ∈ (closureHelperSource helper ++ rest).take 2, c.toNat < 0x80) ∧
      nextIs isSpace (closureHelperSource helper ++ rest) = false := by
  have hcheck : classCheck = 'i' :: 'f' :: " (!class_exists(".toList := by decide
  rw [closureHelperSource_append, hcheck]
  exact ⟨rfl, by simp, rfl⟩

end LegacyPhp
