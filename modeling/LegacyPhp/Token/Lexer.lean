import LegacyPhp.Token.Scan

/-!
# The lexer

`tokenize` cuts a source into tokens and ends them with an empty mark at the end of the input. It
reads text up to an open tag, then code up to a close tag, and so on. A source fails for one of two
reasons: a delimited token is not terminated (`LexFailure.fault`, with the byte offset of that
token), or the search for an open tag meets a `<?` whose next three bytes end inside a character
(`LexFailure.splitCharacter`).

The lexer ends because every scan takes at least one character: `Scanned` carries that fact.
-/

namespace LegacyPhp

open Text Scan

variable {rest cs : Text} {c : Char} {s : Scanned} {pos : Nat} {parts : Text × Text} {t : OpenTag}

/-- What is wrong with a delimited token. -/
inductive LexFault where
  | unterminatedComment
  | unterminatedLiteral
  | malformedHeredocLabel
  | unterminatedHeredoc
  /-- A fault described by whoever reports it. -/
  | other (message : Text)
  deriving DecidableEq, Repr

/-- The wording of a fault. -/
def LexFault.message : LexFault → Text
  | unterminatedComment => "unterminated comment".toList
  | unterminatedLiteral => "unterminated string literal".toList
  | malformedHeredocLabel => "malformed heredoc label".toList
  | unterminatedHeredoc => "unterminated heredoc".toList
  | other message => message

/-- Why a source has no tokens. -/
inductive LexFailure where
  | fault (fault : LexFault) (offset : Nat)
  | splitCharacter
  deriving DecidableEq, Repr

/-- What the lexer remembers of the tokens before the next word. -/
structure Before where
  /-- The last token that is not trivia is `->` or `::`. -/
  member : Bool := false
  /-- The last token is a name separator. -/
  separator : Bool := false
  deriving DecidableEq, Repr

/-- The memory after one more token. -/
def Before.next (b : Before) (t : Token) : Before where
  member := if t.isTrivia then b.member else t.isPunct "->" || t.isPunct "::"
  separator := t.isPunct "\\"

/-- A word is reserved unless it is part of a qualified name or names a member (`classify_word`). -/
def wordKind (b : Before) (word rest : Text) : TokenKind :=
  match Keyword.ofWord? word with
  | none => .identifier
  | some k =>
    if nextIs (· == '\\') rest || b.separator || b.member then .identifier else .keyword k

/-- A scanned token: its kind, its text and what is left. -/
structure Scanned where
  kind : TokenKind
  text : Text
  rest : Text
  deriving Repr

/-- A token made of the character `c` and the first part of a scan. -/
def Scanned.of (kind : TokenKind) (c : Char) (parts : Text × Text) : Scanned :=
  ⟨kind, c :: parts.1, parts.2⟩

/-- A block comment documents when it opens with `/**` and white space. The argument is what
follows `/*`. -/
def blockCommentKind : Text → TokenKind
  | '*' :: c :: _ => if isSpace c then .docComment else .comment
  | _ => .comment

/-- A literal whose opening quote is `c`. -/
def scanLiteral (literal : OpenLiteral) (pos : Nat) (c : Char) (rest : Text) :
    Except LexFailure Scanned :=
  match literalRest literal [] (pos + c.utf8Size) rest with
  | .error start => .error (.fault .unterminatedLiteral start)
  | .ok parts => .ok (.of .stringLiteral c parts)

/-- A block comment, heredoc, operator or single mark that starts with `c`. -/
def scanMark (pos : Nat) (c : Char) (rest : Text) : Except LexFailure Scanned :=
  match c, rest with
  | '<', '<' :: '<' :: left =>
    match heredoc left with
    | .error .malformedLabel => .error (.fault .malformedHeredocLabel pos)
    | .error .unterminated => .error (.fault .unterminatedHeredoc pos)
    | .ok (body, left) => .ok ⟨.stringLiteral, '<' :: '<' :: '<' :: body, left⟩
  | c, rest => .ok ⟨.punctuation, (operator c rest).1, (operator c rest).2⟩

/-- The token that the code `c :: rest` begins with, at the byte offset `pos` (`lex_code`). -/
def scanCode (b : Before) (pos : Nat) (c : Char) (rest : Text) : Except LexFailure Scanned :=
  if c == '?' && nextIs (· == '>') rest then
    .ok (.of .closeTag c (push '>' (lineBreak rest.tail)))
  else if isSpace c then .ok (.of .whitespace c (run isSpace rest))
  else if c == '#' || (c == '/' && nextIs (· == '/') rest) then
    .ok (.of .comment c (lineComment rest))
  else if c == '/' && nextIs (· == '*') rest then
    match blockComment rest.tail with
    | none => .error (.fault .unterminatedComment pos)
    | some parts => .ok (.of (blockCommentKind rest.tail) c (push '*' parts))
  else if c == '$' && nextIs isIdentStart rest then .ok (.of .variable c (run isIdentChar rest))
  else if isIdentStart c then
    let parts := run isIdentChar rest
    .ok (.of (wordKind b (c :: parts.1) parts.2) c parts)
  else if c.isDigit || (c == '.' && nextIs Char.isDigit rest) then
    let hex := c == '0' && nextIs (fun d => d == 'x' || d == 'X') rest
    .ok (.of .number c (numberRest hex c rest))
  else if c == '\'' then scanLiteral (.single false pos) pos c rest
  else if c == '"' || c == '\x60' then scanLiteral (.interpolated c .plain pos) pos c rest
  else scanMark pos c rest

/-! ## Every scan makes progress and loses nothing -/

/-- A scan that took at least one character and lost none. -/
def Scanned.Covers (s : Scanned) (cs : Text) : Prop := s.text ++ s.rest = cs ∧ s.text ≠ []

theorem Scanned.covers_of {kind : TokenKind} (h : parts.1 ++ parts.2 = rest) :
    (Scanned.of kind c parts).Covers (c :: rest) := by
  refine ⟨?_, by simp [Scanned.of]⟩
  simp [Scanned.of, h]

theorem exists_cons_of_nextIs {p : Char → Bool} (h : nextIs p rest) :
    ∃ c left, rest = c :: left := by
  cases rest with
  | nil => cases h
  | cons c left => exact ⟨c, left, rfl⟩

theorem nextIs_tail {d : Char} (h : nextIs (· == d) rest) : d :: rest.tail = rest := by
  obtain ⟨e, rest, rfl⟩ := exists_cons_of_nextIs h
  simp only [nextIs, beq_iff_eq] at h
  simp [h]

theorem scanLiteral_covers {literal : OpenLiteral} (h : scanLiteral literal pos c rest = .ok s) :
    s.Covers (c :: rest) := by
  simp only [scanLiteral] at h
  split at h
  · cases h
  · next parts hp => cases h; exact Scanned.covers_of (literalRest_append hp)

theorem scanMark_covers (h : scanMark pos c rest = .ok s) : s.Covers (c :: rest) := by
  unfold scanMark at h
  split at h
  · split at h
    · cases h
    · cases h
    · next body left hb =>
      cases h
      refine ⟨?_, by simp⟩
      have := heredoc_append hb
      simp_all
  · cases h
    exact ⟨operator_append _ _, operator_ne_nil _ _⟩

theorem scanCode_covers {b : Before} (h : scanCode b pos c rest = .ok s) :
    s.Covers (c :: rest) := by
  unfold scanCode at h
  split at h
  · next hc =>
    cases h
    simp only [Bool.and_eq_true] at hc
    apply Scanned.covers_of
    rw [push_append, lineBreak_append, nextIs_tail hc.2]
  split at h
  · cases h; exact Scanned.covers_of (run_append _ _)
  split at h
  · cases h; exact Scanned.covers_of (lineComment_append _)
  split at h
  · next hc =>
    simp only [Bool.and_eq_true] at hc
    split at h
    · cases h
    · next parts hp =>
      cases h
      apply Scanned.covers_of
      rw [push_append, blockComment_append hp, nextIs_tail hc.2]
  split at h
  · cases h; exact Scanned.covers_of (run_append _ _)
  split at h
  · cases h; exact Scanned.covers_of (run_append _ _)
  split at h
  · cases h; exact Scanned.covers_of (numberRest_append _ _ _)
  split at h
  · exact scanLiteral_covers h
  split at h
  · exact scanLiteral_covers h
  · exact scanMark_covers h

/-- An open tag takes nothing but what follows its `<?`. -/
theorem tagAfter_append (h : tagAfter rest = .ok (some parts)) : parts.1 ++ parts.2 = rest := by
  have hshort : ∀ {cs : Text} {q : Text × Text}, shortTag cs = some q → q.1 ++ q.2 = cs := by
    intro cs q hq
    unfold shortTag at hq
    split at hq
    · cases hq; rfl
    · split at hq
      · cases hq; rfl
      · cases hq
    · cases hq
  have hlong : ∀ {cs : Text} {q : Text × Text}, longTagEnd cs = some q → q.1 ++ q.2 = cs := by
    intro cs q hq
    unfold longTagEnd at hq
    split at hq
    · cases hq; rfl
    · split at hq
      · cases hq; rfl
      · cases hq
    · cases hq; rfl
  unfold tagAfter at h
  split at h
  · split at h
    · cases h
    · next word after hsplit =>
      split at h
      · simp only [Except.ok.injEq] at h
        obtain ⟨q, hq, rfl⟩ := Option.map_eq_some_iff.1 h
        rw [List.append_assoc, hlong hq]
        exact splitBytes?_append hsplit
      · simp only [Except.ok.injEq] at h
        exact hshort h
  · simp only [Except.ok.injEq] at h
    exact hshort h

theorem findOpenTag_append (h : findOpenTag cs = .ok (some t)) :
    t.html ++ t.tag ++ t.rest = cs ∧ t.tag ≠ [] := by
  fun_induction findOpenTag cs generalizing t with
  | case1 => cases h
  | case2 rest ih =>
    cases hta : tagAfter rest with
    | error e => rw [hta] at h; cases h
    | ok found =>
      rw [hta] at h
      cases found with
      | some parts =>
        cases h
        refine ⟨?_, by simp⟩
        have := tagAfter_append hta
        simp [this]
      | none =>
        cases hf : findOpenTag rest with
        | error e => simp only [hf] at h; cases h
        | ok next =>
          simp only [hf] at h
          cases next with
          | none => cases h
          | some u =>
            cases h
            obtain ⟨hu, hne⟩ := ih hf
            refine ⟨?_, hne⟩
            simp [← hu]
  | case3 c rest _ ih =>
    cases hf : findOpenTag rest with
    | error e => simp only [hf] at h; cases h
    | ok next =>
      simp only [hf] at h
      cases next with
      | none => cases h
      | some u =>
        cases h
        obtain ⟨hu, hne⟩ := ih hf
        refine ⟨?_, hne⟩
        simp [← hu]

theorem Scanned.Covers.length_lt (h : s.Covers cs) : s.rest.length < cs.length := by
  have := List.length_pos_iff.2 h.2
  rw [← h.1, List.length_append]
  omega

theorem length_rest_lt_of_findOpenTag (h : findOpenTag cs = .ok (some t)) :
    t.rest.length < cs.length := by
  obtain ⟨hcs, hne⟩ := findOpenTag_append h
  have := List.length_pos_iff.2 hne
  rw [← hcs]
  simp only [List.length_append]
  omega

/-! ## The token sequence -/

/-- The tokens of the text from byte offset `pos` on, inside or outside a code block. -/
def lexFrom (inCode : Bool) (b : Before) (pos : Nat) (cs : Text) :
    Except LexFailure (List Token) :=
  match inCode, cs with
  | _, [] => .ok []
  | true, c :: rest =>
    match _h : scanCode b pos c rest with
    | .error e => .error e
    | .ok s =>
      let token : Token := ⟨s.kind, s.text, pos⟩
      (lexFrom (s.kind != .closeTag) (b.next token) (pos + byteLength s.text) s.rest).map
        (token :: ·)
  | false, c :: rest =>
    match _h : findOpenTag (c :: rest) with
    | .error _ => .error .splitCharacter
    | .ok none => .ok [⟨.inlineHtml, c :: rest, pos⟩]
    | .ok (some t) =>
      let html : List Token := if t.html.isEmpty then [] else [⟨.inlineHtml, t.html, pos⟩]
      let start := pos + byteLength t.html
      (lexFrom true {} (start + byteLength t.tag) t.rest).map
        (html ++ ⟨.openTag, t.tag, start⟩ :: ·)
termination_by cs.length
decreasing_by
  · exact (scanCode_covers (by assumption)).length_lt
  · exact length_rest_lt_of_findOpenTag (by assumption)

/-- The tokens of a source without the mark at its end. -/
def lexemes (source : Text) : Except LexFailure (List Token) := lexFrom false {} 0 source

/-- The tokens of a source, ended by an empty mark at the end of the input. -/
def tokenize (source : Text) : Except LexFailure (List Token) :=
  (lexemes source).map (· ++ [⟨.endOfInput, [], byteLength source⟩])

end LegacyPhp
