import LegacyPhp.Token.Basic

/-!
# Scans of single tokens

Each scan cuts a text in two: what belongs to the token and what is left. A scan that looks for a
terminator fails when the terminator is missing. The `_append` lemmas say that nothing is lost:
the two parts put together are the text that was scanned.

The classes of characters are those of the language's own scanner, which works on bytes: every
byte of a character beyond ASCII may stand in an identifier, and no such byte is a delimiter. So a
character beyond ASCII is an identifier character, and skipping a backslash together with the
character after it is the same as skipping two bytes and then the rest of that character.
-/

namespace LegacyPhp.Scan

open Text

variable {parts : Text × Text} {cs : Text}

/-- May start an identifier. -/
def isIdentStart (c : Char) : Bool := c.isAlpha || c == '_' || 0x80 ≤ c.toNat

/-- May continue an identifier. -/
def isIdentChar (c : Char) : Bool := c.isAlphanum || c == '_' || 0x80 ≤ c.toNat

/-- Whether the next character exists and satisfies the test. -/
def nextIs (p : Char → Bool) : Text → Bool
  | c :: _ => p c
  | [] => false

/-- The longest beginning in a class of characters. -/
def run (p : Char → Bool) (cs : Text) : Text × Text := (cs.takeWhile p, cs.dropWhile p)

theorem run_append (p : Char → Bool) (cs : Text) : (run p cs).1 ++ (run p cs).2 = cs :=
  List.takeWhile_append_dropWhile

/-- Puts a character back in front of the first part. -/
def push (c : Char) (parts : Text × Text) : Text × Text := (c :: parts.1, parts.2)

@[simp] theorem push_append (c : Char) (parts : Text × Text) :
    (push c parts).1 ++ (push c parts).2 = c :: (parts.1 ++ parts.2) := rfl

/-! ## Tags -/

/-- The line break that belongs to a close tag. -/
def lineBreak : Text → Text × Text
  | '\r' :: '\n' :: rest => (['\r', '\n'], rest)
  | '\n' :: rest => (['\n'], rest)
  | rest => ([], rest)

theorem lineBreak_append (cs : Text) : (lineBreak cs).1 ++ (lineBreak cs).2 = cs := by
  unfold lineBreak
  split <;> rfl

/-- The short forms of an open tag: `<?=`, and `<?` before white space. The argument is what
follows `<?`. -/
def shortTag : Text → Option (Text × Text)
  | '=' :: rest => some (['='], rest)
  | c :: rest => if isSpace c then some ([], c :: rest) else none
  | [] => none

/-- What an open tag takes after the word `php`: a line break, one space character, or nothing at
the end of the text. -/
def longTagEnd : Text → Option (Text × Text)
  | '\r' :: '\n' :: rest => some (['\r', '\n'], rest)
  | c :: rest => if isSpace c then some ([c], rest) else none
  | [] => some ([], [])

/-- A `<?` whose next three bytes end inside a character. The search for an open tag compares
those three bytes with the word `php` and cannot go on. -/
inductive SplitCharacter where
  | splitCharacter
  deriving DecidableEq, Repr

/-- The open tag that a `<?` starts, if it starts one. The argument is what follows `<?`. -/
def tagAfter (rest : Text) : Except SplitCharacter (Option (Text × Text)) :=
  if 3 ≤ byteLength rest then
    match splitBytes? 3 rest with
    | none => .error .splitCharacter
    | some (word, after) =>
      if sameWord word ['p', 'h', 'p'] then
        .ok ((longTagEnd after).map fun (taken, left) => (word ++ taken, left))
      else .ok (shortTag rest)
  else .ok (shortTag rest)

/-- An open tag found in text outside the code blocks. -/
structure OpenTag where
  /-- The text before the tag. -/
  html : Text
  tag : Text
  rest : Text

/-- The first open tag. A `<?` that starts none is text. -/
def findOpenTag : Text → Except SplitCharacter (Option OpenTag)
  | [] => .ok none
  | '<' :: '?' :: rest => do
    match ← tagAfter rest with
    | some (taken, left) => return some ⟨[], '<' :: '?' :: taken, left⟩
    | none => return (← findOpenTag rest).map fun t => { t with html := '<' :: '?' :: t.html }
  | c :: rest => do
    return (← findOpenTag rest).map fun t => { t with html := c :: t.html }

/-! ## Comments -/

/-- A line comment: up to a line break, a close tag or the end. -/
def lineComment : Text → Text × Text
  | [] => ([], [])
  | c :: rest =>
    if c == '\n' || c == '\r' || (c == '?' && nextIs (· == '>') rest) then ([], c :: rest)
    else push c (lineComment rest)

theorem lineComment_append (cs : Text) : (lineComment cs).1 ++ (lineComment cs).2 = cs := by
  induction cs with
  | nil => rfl
  | cons c rest ih =>
    unfold lineComment
    split
    · rfl
    · rw [push_append, ih]

/-- A block comment after its opening mark: through the first closing mark. -/
def blockComment : Text → Option (Text × Text)
  | [] => none
  | '*' :: '/' :: rest => some (['*', '/'], rest)
  | c :: rest => (blockComment rest).map (push c)

theorem blockComment_append (h : blockComment cs = some parts) : parts.1 ++ parts.2 = cs := by
  fun_induction blockComment cs generalizing parts with
  | case1 => simp at h
  | case2 rest => simp only [Option.some.injEq] at h; subst h; rfl
  | case3 c rest _ ih =>
    obtain ⟨p, hp, rfl⟩ := Option.map_eq_some_iff.1 h
    rw [push_append, ih hp]

/-! ## Numbers -/

/-- The rest of a number (`lex_number`): letters, digits, underscores and points, and a sign right
after the exponent letter of a number that is not hexadecimal, when a digit follows the sign. -/
def numberRest (hex : Bool) (last : Char) : Text → Text × Text
  | [] => ([], [])
  | c :: rest =>
    if c.isAlphanum || c == '_' || c == '.' then push c (numberRest hex c rest)
    else if (c == '+' || c == '-') && !hex && (last == 'e' || last == 'E') &&
        nextIs Char.isDigit rest then
      push c (numberRest hex c rest)
    else ([], c :: rest)

theorem numberRest_append (hex : Bool) (last : Char) (cs : Text) :
    (numberRest hex last cs).1 ++ (numberRest hex last cs).2 = cs := by
  induction cs generalizing last with
  | nil => rfl
  | cons c rest ih =>
    unfold numberRest
    split
    · rw [push_append, ih]
    · split
      · rw [push_append, ih]
      · rfl

/-! ## Quoted literals -/

/-- Where a scan stands inside a literal with interpolation. -/
inductive LiteralPart where
  | plain
  /-- Right after a backslash. -/
  | escaped
  /-- Right after an opening brace; a `$` here starts embedded code. -/
  | brace
  /-- Inside embedded code, with one brace open and `more` others. -/
  | code (more : Nat)
  deriving DecidableEq, Repr

/-- A literal whose closing quote has not been seen, with the byte offset of its opening quote. -/
inductive OpenLiteral where
  | single (escaped : Bool) (start : Nat)
  | interpolated (quote : Char) (part : LiteralPart) (start : Nat)
  deriving DecidableEq, Repr

/-- The offset of the opening quote. -/
def OpenLiteral.start : OpenLiteral → Nat
  | single _ s => s
  | interpolated _ _ s => s

/-- What one character does to an open literal. -/
inductive LiteralStep where
  | stay (literal : OpenLiteral)
  /-- A literal inside the embedded code opens. -/
  | nest (inner : OpenLiteral)
  | close
  deriving DecidableEq, Repr

/-- The effect of the character `c` at byte offset `pos`. -/
def OpenLiteral.step (pos : Nat) (c : Char) : OpenLiteral → LiteralStep
  | single true s => .stay (single false s)
  | single false s =>
    if c == '\\' then .stay (single true s)
    else if c == '\'' then .close
    else .stay (single false s)
  | interpolated q (.code more) s =>
    if c == '{' then .stay (interpolated q (.code (more + 1)) s)
    else if c == '}' then
      match more with
      | 0 => .stay (interpolated q .plain s)
      | more + 1 => .stay (interpolated q (.code more) s)
    else if c == '\'' then .nest (single false pos)
    else if c == '"' then .nest (interpolated '"' .plain pos)
    else .stay (interpolated q (.code more) s)
  | interpolated q .escaped s => .stay (interpolated q .plain s)
  | interpolated q part s =>
    if c == '\\' then .stay (interpolated q .escaped s)
    else if c == '{' then .stay (interpolated q .brace s)
    else if c == '$' && part == .brace then .stay (interpolated q (.code 0) s)
    else if c == q then .close
    else .stay (interpolated q .plain s)

/-- Reads on until the literal `inner` and all those around it are closed (`lex_interpolated`).
Embedded code may hold literals of its own, so the open literals form a stack. Without a closing
quote the scan fails with the offset of the innermost open literal. -/
def literalRest (inner : OpenLiteral) (outer : List OpenLiteral) (pos : Nat) :
    Text → Except Nat (Text × Text)
  | [] => .error inner.start
  | c :: rest =>
    match inner.step pos c with
    | .stay inner => push c <$> literalRest inner outer (pos + c.utf8Size) rest
    | .nest new => push c <$> literalRest new (inner :: outer) (pos + c.utf8Size) rest
    | .close =>
      match outer with
      | [] => .ok ([c], rest)
      | next :: outer => push c <$> literalRest next outer (pos + c.utf8Size) rest

/-- A successful step behind `push` puts one character in front of a successful scan. -/
theorem append_of_push {c : Char} {rest : Text} {r : Except Nat (Text × Text)}
    (ih : ∀ p, r = .ok p → p.1 ++ p.2 = rest) (h : push c <$> r = .ok parts) :
    parts.1 ++ parts.2 = c :: rest := by
  cases r with
  | error e => cases h
  | ok p =>
    have hp : push c p = parts := by cases h; rfl
    rw [← hp, push_append, ih p rfl]

theorem literalRest_append {inner : OpenLiteral} {outer : List OpenLiteral} {pos : Nat}
    (h : literalRest inner outer pos cs = .ok parts) : parts.1 ++ parts.2 = cs := by
  induction cs generalizing inner outer pos parts with
  | nil => simp [literalRest] at h
  | cons c rest ih =>
    simp only [literalRest] at h
    split at h
    · exact append_of_push (fun p hp => ih hp) h
    · exact append_of_push (fun p hp => ih hp) h
    · split at h
      · cases h; rfl
      · exact append_of_push (fun p hp => ih hp) h

/-! ## Heredocs -/

/-- The body of a heredoc through its closing label: the label at the start of a line, with nothing
after it that could continue it. `lineStart` says whether the text stands at the start of a line. -/
def heredocBody (label : Text) (lineStart : Bool) : Text → Option (Text × Text)
  | [] => none
  | c :: rest =>
    match if lineStart then after? label (c :: rest) else none with
    | some left =>
      if nextIs isIdentChar left then (heredocBody label (c == '\n') rest).map (push c)
      else some (label, left)
    | none => (heredocBody label (c == '\n') rest).map (push c)

theorem heredocBody_append {label : Text} {lineStart : Bool}
    (h : heredocBody label lineStart cs = some parts) : parts.1 ++ parts.2 = cs := by
  induction cs generalizing lineStart parts with
  | nil => simp [heredocBody] at h
  | cons c rest ih =>
    simp only [heredocBody] at h
    split at h
    · next left hl =>
      split at h
      · obtain ⟨p, hp, rfl⟩ := Option.map_eq_some_iff.1 h
        rw [push_append, ih hp]
      · simp only [Option.some.injEq] at h
        subst h
        split at hl
        · exact (after?_eq_some hl).symm
        · simp at hl
    · obtain ⟨p, hp, rfl⟩ := Option.map_eq_some_iff.1 h
      rw [push_append, ih hp]

/-- Why a heredoc cannot be read. -/
inductive HeredocFault where
  | malformedLabel
  | unterminated
  deriving DecidableEq, Repr

/-- A quote around the label of a heredoc. -/
def labelQuote : Text → Text × Text
  | '"' :: rest => (['"'], rest)
  | '\'' :: rest => (['\''], rest)
  | rest => ([], rest)

theorem labelQuote_append (cs : Text) : (labelQuote cs).1 ++ (labelQuote cs).2 = cs := by
  unfold labelQuote
  split <;> rfl

/-- A heredoc after its opening mark `<<<` (`lex_heredoc`): blanks, the label with or without
quotes, the rest of that line, and the body. -/
def heredoc (cs : Text) : Except HeredocFault (Text × Text) :=
  let (blanks, cs) := run (fun c => c == ' ' || c == '\t') cs
  let (quote, cs) := labelQuote cs
  let (label, cs) := run isIdentChar cs
  if label.isEmpty then .error .malformedLabel
  else
    match after? quote cs with
    | none => .error .malformedLabel
    | some cs =>
      match heredocBody label false cs with
      | none => .error .unterminated
      | some (body, rest) => .ok (blanks ++ quote ++ label ++ quote ++ body, rest)

theorem heredoc_append (h : heredoc cs = .ok parts) : parts.1 ++ parts.2 = cs := by
  simp only [heredoc] at h
  split at h
  · cases h
  · split at h
    · cases h
    · next left hq =>
      split at h
      · cases h
      · next body rest hb =>
        cases h
        have h1 := run_append (fun c => c == ' ' || c == '\t') cs
        have h2 := labelQuote_append (run (fun c => c == ' ' || c == '\t') cs).2
        have h3 := run_append isIdentChar
          (labelQuote (run (fun c => c == ' ' || c == '\t') cs).2).2
        have h4 := after?_eq_some hq
        have h5 := heredocBody_append hb
        simp only [List.append_assoc] at h1 h2 h3 h4 h5 ⊢
        rw [h5, ← h4, h3, h2, h1]

/-! ## Operators -/

/-- The operators of more than one character, longer ones first. -/
def operators : List Text :=
  ["<<=".toList, ">>=".toList, "===".toList, "!==".toList, "...".toList, "::".toList,
    "->".toList, "=>".toList, "==".toList, "!=".toList, "<>".toList, "<=".toList, ">=".toList,
    "&&".toList, "||".toList, "++".toList, "--".toList, "+=".toList, "-=".toList, "*=".toList,
    "/=".toList, ".=".toList, "%=".toList, "&=".toList, "|=".toList, "^=".toList, "<<".toList,
    ">>".toList]

/-- The first operator of the table that the text begins with, or else its first character. -/
def operator (c : Char) (rest : Text) : Text × Text :=
  match operators.findSome? fun op => (after? op (c :: rest)).map fun left => (op, left) with
  | some parts => parts
  | none => ([c], rest)

theorem operator_append (c : Char) (rest : Text) :
    (operator c rest).1 ++ (operator c rest).2 = c :: rest := by
  unfold operator
  split
  · next parts h =>
    obtain ⟨op, _, hop⟩ := List.exists_of_findSome?_eq_some h
    obtain ⟨left, hl, rfl⟩ := Option.map_eq_some_iff.1 hop
    exact (after?_eq_some hl).symm
  · rfl

/-- No operator is empty, so the scan of one always makes progress. -/
theorem operator_ne_nil (c : Char) (rest : Text) : (operator c rest).1 ≠ [] := by
  unfold operator
  split
  · next parts h =>
    obtain ⟨op, hmem, hop⟩ := List.exists_of_findSome?_eq_some h
    obtain ⟨left, _, rfl⟩ := Option.map_eq_some_iff.1 hop
    have hall : ∀ op ∈ operators, op ≠ [] := by decide
    exact hall op hmem
  · simp

end LegacyPhp.Scan
