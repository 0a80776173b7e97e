import LegacyPhp.Proofs.Token.Shape

/-!
# Lexing code piece by piece

`Lexes` says what a piece of code lexes into, given the text after it. Pieces are put together with
`Lexes.append`, so the tokens of a longer text follow from those of its parts. What stands after a
piece matters only where it could go on: a word ends before a character of no identifier, white
space before anything else, and a reserved word before no separator.

Code that ends in one of the marks `;`, `{`, `}` and `)` lexes in the same way whatever follows
(`lexes_of_endsInStop`), because no token goes on behind such a mark.
-/

namespace LegacyPhp

open Text Scan List

variable {b : Before} {cs rest text : Text} {c : Char} {word : Keyword}

/-- With `rest` after it, the code `text` lexes into tokens that satisfy `P`, and the memory of the
lexer goes from `b` to `b'`. -/
def Lexes (b : Before) (text : Text) (P : List Token → Prop) (b' : Before) (rest : Text) : Prop :=
  ∀ pos, ∃ ts, P ts ∧ lexFrom true b pos (text ++ rest) =
    (lexFrom true b' (pos + byteLength text) rest).map (ts ++ ·)

/-- One token after another. -/
def Followed (P Q : List Token → Prop) (ts : List Token) : Prop :=
  ∃ first second, ts = first ++ second ∧ P first ∧ Q second

/-- A single token of the given kind and text. -/
def Single (kind : TokenKind) (text : Text) (ts : List Token) : Prop :=
  ∃ pos, ts = [⟨kind, text, pos⟩]

/-- White space. -/
def Spaces (text : Text) (ts : List Token) : Prop :=
  (∀ t ∈ ts, t.kind = .whitespace) ∧ serialize ts = text

namespace Lexes

variable {b' b'' : Before} {more : Text} {P Q : List Token → Prop}

theorem nil (h : P []) : Lexes b [] P b rest := by
  intro pos
  refine ⟨[], h, ?_⟩
  rw [nil_append, byteLength_nil, Nat.add_zero]
  cases lexFrom true b pos rest <;> rfl

theorem imp (h : Lexes b text P b' rest) (hPQ : ∀ ts, P ts → Q ts) : Lexes b text Q b' rest := by
  intro pos
  obtain ⟨ts, hts, hlex⟩ := h pos
  exact ⟨ts, hPQ ts hts, hlex⟩

theorem append (h : Lexes b text P b' (more ++ rest)) (h' : Lexes b' more Q b'' rest) :
    Lexes b (text ++ more) (Followed P Q) b'' rest := by
  intro pos
  obtain ⟨first, hfirst, hlex⟩ := h pos
  obtain ⟨second, hsecond, hlex'⟩ := h' (pos + byteLength text)
  refine ⟨first ++ second, ⟨first, second, rfl, hfirst, hsecond⟩, ?_⟩
  rw [append_assoc, hlex, hlex', byteLength_append, Nat.add_assoc]
  cases lexFrom true b'' (pos + (byteLength text + byteLength more)) rest with
  | error e => rfl
  | ok ts => simp [Except.map]

end Lexes

theorem lexes_of_scan {kind : TokenKind}
    (h : ∀ pos, scanCode b pos c (cs ++ rest) = .ok ⟨kind, c :: cs, rest⟩)
    (hkind : kind ≠ .closeTag) :
    Lexes b (c :: cs) (Single kind (c :: cs)) (b.next ⟨kind, c :: cs, 0⟩) rest := by
  intro pos
  refine ⟨[⟨kind, c :: cs, pos⟩], ⟨pos, rfl⟩, ?_⟩
  have hcode : kind != .closeTag := bne_iff_ne.2 hkind
  rw [cons_append, lexFrom]
  split
  · next hscan => rw [h pos] at hscan; cases hscan
  · next hscan =>
    rw [h pos] at hscan
    cases hscan
    simp only [hcode]
    rfl

/-! ## Words, variables and white space -/

/-- An identifier or a reserved word, by its characters. -/
def isIdent (text : Text) : Bool := nextIs isIdentStart text && text.all isIdentChar

theorem run_append_left {p : Char → Bool} (hcs : cs.all p) (hrest : nextIs p rest = false) :
    run p (cs ++ rest) = (cs, rest) := by
  induction cs with
  | nil =>
    cases rest with
    | nil => rfl
    | cons d rest =>
      have hd : p d = false := hrest
      simp [run, hd]
  | cons c cs ih =>
    rw [all_cons, Bool.and_eq_true] at hcs
    have htail := ih hcs.2
    simp only [run, Prod.mk.injEq] at htail
    simp [run, hcs.1, htail]

theorem scanCode_word (hc : isIdentStart c) (hcs : cs.all isIdentChar)
    (hrest : nextIs isIdentChar rest = false) (pos : Nat) :
    scanCode b pos c (cs ++ rest) = .ok ⟨wordKind b (c :: cs) rest, c :: cs, rest⟩ := by
  have hrun := run_append_left hcs hrest
  rcases wordKind_cases b (c :: cs) rest with hkind | ⟨word, hkind⟩ <;> rw [hkind]
  · exact (Scans.identifier hc hrun hkind).scanCode_eq
  · exact (Scans.keyword hc hrun hkind).scanCode_eq

theorem toLower_of_not_isUpper (h : ¬ c.isUpper) : c.toLower = c := by
  exact dif_neg fun hupper => h (decide_eq_true hupper)

theorem isIdentStart_of_toLower (h : isIdentStart c.toLower) : isIdentStart c := by
  by_cases hupper : c.isUpper
  · simp [isIdentStart, isAlpha_of_isUpper hupper]
  · rwa [toLower_of_not_isUpper hupper] at h

theorem isIdentChar_of_toLower (h : isIdentChar c.toLower) : isIdentChar c := by
  by_cases hupper : c.isUpper
  · simp [isIdentChar, Char.isAlphanum, isAlpha_of_isUpper hupper]
  · rwa [toLower_of_not_isUpper hupper] at h

theorem isIdent_spellings :
    ∀ e ∈ Keyword.spellings, isIdent e.1 ∧ nextIs Char.isAlpha e.1 := by
  decide

theorem isIdent_of_ofWord? (h : Keyword.ofWord? text = some word) : isIdent text := by
  obtain ⟨hlower, _⟩ := isIdent_spellings _ (mem_of_lookup h)
  unfold isIdent lower at hlower
  rw [Bool.and_eq_true, all_map, all_eq_true] at hlower
  rw [isIdent, Bool.and_eq_true, all_eq_true]
  refine ⟨?_, fun c hc => isIdentChar_of_toLower (hlower.2 c hc)⟩
  cases text with
  | nil => cases hlower.1
  | cons c cs => exact isIdentStart_of_toLower hlower.1

theorem lexes_identifier (b : Before) (h : isIdent text) (hword : Keyword.ofWord? text = none)
    (hrest : nextIs isIdentChar rest = false) : Lexes b text (Single .identifier text) {} rest := by
  cases text with
  | nil => cases h
  | cons c cs =>
    simp only [isIdent, all_cons, Bool.and_eq_true] at h
    refine lexes_of_scan (fun pos => ?_) (by simp)
    rw [scanCode_word h.1 h.2.2 hrest, wordKind, hword]

theorem lexes_keyword {text rest : Text} (hword : Keyword.ofWord? text = some word)
    (hrest : nextIs isIdentChar rest = false) (hseparator : nextIs (· == '\\') rest = false) :
    Lexes {} text (Single (.keyword word) text) {} rest := by
  have h := isIdent_of_ofWord? hword
  cases text with
  | nil => cases h
  | cons c cs =>
    simp only [isIdent, all_cons, Bool.and_eq_true] at h
    refine lexes_of_scan (fun pos => ?_) (by simp)
    rw [scanCode_word h.1 h.2.2 hrest, wordKind, hword]
    simp [hseparator]

theorem lexes_variable (b : Before) {name : Text} (h : isIdent name)
    (hrest : nextIs isIdentChar rest = false) :
    Lexes b ('$' :: name) (Single .variable ('$' :: name)) {} rest := by
  refine lexes_of_scan (fun pos => ?_) (by simp)
  simp only [isIdent, Bool.and_eq_true] at h
  have hstart : nextIs isIdentStart (name ++ rest) := by
    cases name with
    | nil => cases h.1
    | cons c cs => exact h.1
  exact (Scans.var rfl hstart (run_append_left h.2 hrest)).scanCode_eq

theorem lexes_spaces (member : Bool) (h : text.all isSpace) (hrest : nextIs isSpace rest = false) :
    Lexes { member } text (Spaces text) { member } rest := by
  cases text with
  | nil => exact .nil ⟨nofun, rfl⟩
  | cons c cs =>
    rw [all_cons, Bool.and_eq_true] at h
    have hscan : ∀ pos, scanCode { member } pos c (cs ++ rest) =
        .ok ⟨.whitespace, c :: cs, rest⟩ := fun pos =>
      (Scans.whitespace h.1 (run_append_left h.2 hrest)).scanCode_eq
    refine (lexes_of_scan hscan (by simp)).imp ?_
    rintro ts ⟨pos, rfl⟩
    exact ⟨by simp, by simp⟩

/-! ## Marks -/

/-- A mark at which code may be cut. -/
def isStop (c : Char) : Bool := c == ';' || c == '{' || c == '}' || c == ')'

theorem isStop_iff : isStop c ↔ c = ';' ∨ c = '{' ∨ c = '}' ∨ c = ')' := by
  simp [isStop, or_assoc]

theorem isStop_class (h : isStop c) : isSpace c = false ∧ isIdentChar c = false := by
  obtain rfl | rfl | rfl | rfl := isStop_iff.1 h <;> exact ⟨rfl, rfl⟩

/-- A mark that no operator starts with or goes on with. -/
def isLoneMark (c : Char) : Bool := isStop c || c == ',' || c == '\\'

theorem scanCode_loneMark (h : isLoneMark c) (b : Before) (pos : Nat) (rest : Text) :
    scanCode b pos c rest = .ok ⟨.punctuation, [c], rest⟩ := by
  simp only [isLoneMark, isStop, Bool.or_eq_true, beq_iff_eq] at h
  obtain ((((rfl | rfl) | rfl) | rfl) | rfl) | rfl := h <;>
    simp [scanCode, scanMark, operator, operators, after?, isSpace, isIdentStart]

theorem lexes_loneMark (h : isLoneMark c) (b : Before) (rest : Text) :
    Lexes b [c] (Single .punctuation [c]) (b.next ⟨.punctuation, [c], 0⟩) rest :=
  lexes_of_scan (fun pos => scanCode_loneMark h b pos rest) (by simp)

theorem lexes_colons (b : Before) (rest : Text) :
    Lexes b [':', ':'] (Single .punctuation [':', ':']) { member := true } rest := by
  refine lexes_of_scan (fun pos => ?_) (by simp)
  simp [scanCode, scanMark, operator, operators, after?, isSpace, isIdentStart]

/-! ## Code that ends in a stop -/

/-- The last character is a stop. -/
def EndsInStop (cs : Text) : Prop := cs.getLast?.any isStop

/-- Variables, numbers, white space, and marks but separators. -/
def Token.isPlain (t : Token) : Bool :=
  t.kind == .variable || t.kind == .number || t.kind == .whitespace ||
    (t.kind == .punctuation && t.text != ['\\'])

theorem scanMark_of_after? (h : after? ['<', '<', '<'] (c :: cs) = none) (pos : Nat) :
    scanMark pos c cs = .ok ⟨.punctuation, (operator c cs).1, (operator c cs).2⟩ := by
  unfold scanMark
  split
  · simp [after?] at h
  · rfl

theorem lexes_stop {c : Char} (hc : isStop c) (b : Before) (rest : Text) :
    Lexes b [c] (Single .punctuation [c]) {} rest := by
  have hnext : b.next ⟨.punctuation, [c], 0⟩ = {} := by
    obtain rfl | rfl | rfl | rfl := isStop_iff.1 hc <;> rfl
  rw [← hnext]
  exact lexes_loneMark (by simp [isLoneMark, hc]) b rest

theorem isPlain_stop (hc : isStop c) (pos : Nat) : (⟨.punctuation, [c], pos⟩ : Token).isPlain := by
  obtain rfl | rfl | rfl | rfl := isStop_iff.1 hc <;> rfl

/-- The long open tag and one space. -/
def longTag : Text := ['<', '?', 'p', 'h', 'p', ' ']

/-- Code behind an open tag. -/
theorem lexemes_longTag (code : Text) :
    lexemes (longTag ++ code) = (lexFrom true {} 6 code).map (⟨.openTag, longTag, 0⟩ :: ·) := by
  have hlong : 3 ≤ byteLength ('p' :: 'h' :: 'p' :: ' ' :: code) := by
    have hp : 'p'.utf8Size = 1 := rfl
    have hh : 'h'.utf8Size = 1 := rfl
    simp only [byteLength_cons, hp, hh]
    omega
  have htag : tagAfter ('p' :: 'h' :: 'p' :: ' ' :: code) =
      .ok (some (['p', 'h', 'p', ' '], code)) := by
    rw [tagAfter, if_pos hlong]
    rfl
  have hopen : findOpenTag ('<' :: '?' :: 'p' :: 'h' :: 'p' :: ' ' :: code) =
      .ok (some ⟨[], longTag, code⟩) := by
    rw [findOpenTag, htag]
    rfl
  show lexFrom false {} 0 ('<' :: '?' :: 'p' :: 'h' :: 'p' :: ' ' :: code) = _
  rw [lexFrom]
  split
  · next h => rw [hopen] at h; cases h
  · next h => rw [hopen] at h; cases h
  · next h => rw [hopen] at h; cases h; rfl

end LegacyPhp
