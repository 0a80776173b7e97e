import LegacyPhp.Proofs.Closure.Shapes
import LegacyPhp.Proofs.Token.Totality

/-!
# Where delimited tokens end

A literal, a comment or a heredoc ends as soon as it can. `CodeAt` says that the lexer gets to a
place in code with some tokens behind it, and `EndsFirst` that the token there ends at the first end
that fits, or that the source fails at the start of the token because there is none.
`delimited_shortest` says so of every form that has a mark at its end. Only a literal between double
quotes or backticks may have code in it, with literals of its own, and then the failure may be at
one of these (`FailsAt`); `interpolated_delivered_iff` says when all of it is one token.
-/

namespace LegacyPhp

open Text Scan Closure List

/-! ## Literals between single quotes -/

/-- Whether the character behind a text belongs to a backslash in it. -/
def escapes (escaped : Bool) (body : Text) : Bool :=
  body.foldl (fun escaped c => !escaped && c == '\\') escaped

/-- A single quote that belongs to no backslash. -/
def SingleEnds (escaped : Bool) (taken _left : Text) : Prop :=
  ∃ body, taken = body ++ ['\''] ∧ escapes escaped body = false

theorem singleEnds_cons {escaped : Bool} {c : Char} {taken left : Text}
    (hc : escaped = false → c ≠ '\'') :
    SingleEnds escaped (c :: taken) left ↔ SingleEnds (!escaped && c == '\\') taken left := by
  constructor
  · rintro ⟨body, hbody, hescapes⟩
    rcases cons_eq_append_iff.1 hbody with ⟨rfl, hquote⟩ | ⟨body, rfl, rfl⟩
    · exact absurd (cons.inj hquote).1.symm (hc hescapes)
    · exact ⟨body, rfl, hescapes⟩
  · rintro ⟨body, rfl, hescapes⟩
    exact ⟨c :: body, rfl, hescapes⟩

/-- A scan between single quotes finds the first quote that belongs to no backslash. -/
theorem literalRest_single (escaped : Bool) (start pos : Nat) (cs : Text) :
    ∃ found, Finds (SingleEnds escaped) cs found ∧
      literalRest (.single escaped start) [] pos cs = found.elim (.error start) .ok := by
  induction cs generalizing escaped pos with
  | nil =>
    refine ⟨none, fun taken left heq => ?_, rfl⟩
    rintro ⟨body, rfl, _⟩
    simp at heq
  | cons c cs ih =>
    by_cases hc : escaped = false → c ≠ '\''
    · -- the scan goes on, with the backslash if there is one
      have hstep : (OpenLiteral.single escaped start).step pos c =
          .stay (.single (!escaped && c == '\\') start) := by
        cases escaped <;> grind [OpenLiteral.step]
      obtain ⟨found, hfinds, hscan⟩ := ih (!escaped && c == '\\') (pos + c.utf8Size)
      refine ⟨found.map (push c), hfinds.cons ?_ fun _ _ _ => singleEnds_cons hc, ?_⟩
      · rintro ⟨body, hbody, _⟩
        simp at hbody
      · simp only [literalRest, hstep, hscan]
        cases found <;> rfl
    · obtain ⟨rfl, rfl⟩ : escaped = false ∧ c = '\'' := by simpa using hc
      refine ⟨some (['\''], cs), ⟨rfl, ⟨[], rfl, rfl⟩, ?_⟩, rfl⟩
      rintro taken' left' _ ⟨body, rfl, _⟩
      simp

/-! ## Literals that may have code in them -/

/-- A quote with everything closed before it. -/
def LiteralEnds (quote : Char) (taken _left : Text) : Prop :=
  ∃ body, taken = body ++ [quote] ∧ Whole false (.between quote) body

/-- A literal has no end, and none of those in its code is left open instead. -/
def Unclosed (quote : Char) (start : Nat) (cs : Text) : Prop :=
  Absent (LiteralEnds quote) cs ∧
    literalRest (opened quote start) [] (start + quote.utf8Size) cs = .error start

/-- Where a literal without an end fails: at its own start `first`, or at the quote that opens the
innermost literal left open in its code. That quote stands behind a brace and a `$`. -/
def FailsAt (quote : Char) (first : Nat) (cs : Text) (start : Nat) : Prop :=
  start = first ∧ Unclosed quote first cs ∨
    Absent (LiteralEnds quote) cs ∧
      ∃ before inner left, cs = before ++ inner :: left ∧ (inner = '\'' ∨ inner = '"') ∧
        StandsInCode (opened quote first) (first + quote.utf8Size) before ∧
        ['\x7b', '$'] <:+: before ∧ start = first + byteLength (quote :: before) ∧
        Unclosed inner start left

section LiteralEnds

variable {quote : Char} {pos start first : Nat} {cs taken left : Text}

theorem LiteralEnds.literalRest_eq (hquote : isQuote quote) (h : LiteralEnds quote taken left) :
    literalRest (opened quote start) [] pos (taken ++ left) = .ok (taken, left) := by
  obtain ⟨body, rfl, hwhole⟩ := h
  rw [append_assoc]
  exact (literalRest_between_iff hquote).2 hwhole

theorem shortest_of_literalRest (hquote : isQuote quote)
    (h : literalRest (opened quote start) [] pos cs = .ok (taken, left)) :
    Shortest (LiteralEnds quote) cs taken left := by
  obtain ⟨rfl, body, _, rfl, hwhole, rfl⟩ := (literalRest_opened_iff hquote).1 h
  refine ⟨rfl, ⟨body, rfl, hwhole⟩, fun taken' left' heq hends => ?_⟩
  -- the scan has only one result
  rw [heq, hends.literalRest_eq hquote] at h
  cases h
  exact Nat.le_refl _

theorem absent_of_literalRest (hquote : isQuote quote)
    (h : literalRest (opened quote start) [] pos cs = .error first) :
    Absent (LiteralEnds quote) cs := by
  rintro taken left rfl hends
  rw [hends.literalRest_eq hquote] at h
  cases h

theorem failsAt_of_literalRest (hquote : quote = '"' ∨ quote = '\x60')
    (h : literalRest (opened quote first) [] (first + quote.utf8Size) cs = .error start) :
    FailsAt quote first cs start := by
  have hisQuote := isQuote_of_double hquote
  have habsent := absent_of_literalRest hisQuote h
  rcases literalRest_eq_error h with
    hstart | ⟨before, inner, left, rfl, hstart, hinner, hcode, hopen⟩
  · obtain rfl := hstart.trans (start_opened quote first)
    exact .inl ⟨rfl, habsent, h⟩
  · -- the scan begins outside code, with no brace read
    have hdollar : ['\x7b', '$'] <:+: before := by
      rcases hquote with rfl | rfl <;> exact hcode.brace_dollar rfl
    have hinnerQuote : isQuote inner := by rcases hinner with rfl | rfl <;> rfl
    rw [Nat.add_assoc, ← byteLength_cons] at hstart
    exact .inr ⟨habsent, before, inner, left, rfl, hinner, hcode, hdollar, hstart,
      absent_of_literalRest hinnerQuote hopen, hopen⟩

end LiteralEnds

/-! ## Places in code -/

/-- The lexer gets to `rest` in code, with the tokens `front` behind it. -/
structure CodeAt (source : Text) (front : List Token) (rest : Text) : Prop where
  source_eq : source = serialize front ++ rest
  chain : Chain false {} front rest
  inCode : front.foldl inCodeAfter false = true

/-- The next token in code is this one, also among the tokens of the source if there are any. -/
def Delivers (source : Text) (front : List Token) (kind : TokenKind) (text left : Text) : Prop :=
  CodeAt source (front ++ [⟨kind, text, byteLength (serialize front)⟩]) left ∧
    ∀ tokens, tokenize source = .ok tokens →
      tokens[front.length]? = some ⟨kind, text, byteLength (serialize front)⟩

/-- The next token is its opening and the text up to the first end in `cs`, or there is no end and
the source fails at the start of the token. -/
def EndsFirst (source : Text) (front : List Token) (kind : TokenKind) (opening : Text)
    (P : Text → Text → Prop) (cs : Text) (fault : LexFault) : Prop :=
  (∃ taken left, Shortest P cs taken left ∧ Delivers source front kind (opening ++ taken) left) ∨
    Absent P cs ∧ tokenize source = .error (.fault fault (byteLength (serialize front)))

namespace CodeAt

variable {source rest : Text} {front : List Token} {c : Char} {cs : Text} {kind : TokenKind}

theorem tokenize_eq (h : CodeAt source front rest) :
    ∃ ts, ts.length = front.length ∧ tokenize source =
      (lexFrom true (front.foldl Before.next {}) (byteLength (serialize front)) rest).map
        fun more => ts ++ more ++ [⟨.endOfInput, [], byteLength source⟩] := by
  obtain ⟨ts, hshape, hlex⟩ := h.chain.lexFrom_eq 0
  refine ⟨ts, by simpa using congrArg List.length hshape, ?_⟩
  rw [h.inCode, Nat.zero_add, ← h.source_eq] at hlex
  rw [tokenize, lexemes, hlex]
  cases lexFrom true _ _ rest <;> rfl

theorem fails (h : CodeAt source front (c :: cs)) {e : LexFailure}
    (hscan : scanCode (front.foldl Before.next {}) (byteLength (serialize front)) c cs = .error e) :
    tokenize source = .error e := by
  obtain ⟨ts, _, hlex⟩ := h.tokenize_eq
  rw [hlex, map_eq_error, lexFrom]
  split
  · next hfail =>
    rw [hscan] at hfail
    cases hfail
    rfl
  · next hok =>
    rw [hscan] at hok
    cases hok

theorem delivers (h : CodeAt source front (c :: cs)) {text left : Text}
    (hscan : scanCode (front.foldl Before.next {}) (byteLength (serialize front)) c cs =
      .ok ⟨kind, text, left⟩) (hkind : kind ≠ .closeTag) :
    Delivers source front kind text left := by
  have hread : Reads true (front.foldl Before.next {}) kind text left := .of_scanCode hscan
  have hcs : c :: cs = text ++ left := (scanCode_covers hscan).1.symm
  refine ⟨⟨?_, ?_, ?_⟩, fun tokens htokens => ?_⟩
  · rw [h.source_eq, hcs]
    simp
  · rw [Chain.append_iff, h.inCode]
    refine ⟨?_, hread, trivial⟩
    have hchain := h.chain
    rw [hcs] at hchain
    simpa using hchain
  · rw [foldl_append, h.inCode, foldl_cons, foldl_nil, inCodeAfter_true]
    simpa using hkind
  · obtain ⟨ts, hlength, hlex⟩ := h.tokenize_eq
    rw [hlex, hcs, hread.lexFrom_eq] at htokens
    obtain ⟨more, hmore, rfl⟩ := map_eq_ok htokens
    obtain ⟨more, _, rfl⟩ := map_eq_ok hmore
    rw [← hlength]
    simp

/-- A token whose scan finds the first end. -/
theorem endsFirst (h : CodeAt source front (c :: cs)) {P : Text → Text → Prop} {body opening : Text}
    {found : Option (Text × Text)} {fault : LexFault} (hfinds : Finds P body found)
    (hscan : scanCode (front.foldl Before.next {}) (byteLength (serialize front)) c cs =
      found.elim (.error (.fault fault (byteLength (serialize front))))
        fun parts => .ok ⟨kind, opening ++ parts.1, parts.2⟩)
    (hkind : kind ≠ .closeTag) : EndsFirst source front kind opening P body fault := by
  cases found with
  | none => exact .inr ⟨hfinds, h.fails hscan⟩
  | some parts => exact .inl ⟨parts.1, parts.2, hfinds, h.delivers hscan hkind⟩

/-- A literal between double quotes or backticks ends at the first quote that can end it. Without
one the source fails at its start, or at the start of a literal in its code. -/
theorem quoted {quote : Char} (h : CodeAt source front (quote :: cs))
    (hquote : quote = '"' ∨ quote = '\x60') :
    (∃ taken left, Shortest (LiteralEnds quote) cs taken left ∧
      Delivers source front .stringLiteral (quote :: taken) left) ∨
    ∃ start, tokenize source = .error (.fault .unterminatedLiteral start) ∧
      FailsAt quote (byteLength (serialize front)) cs start := by
  have hisQuote := isQuote_of_double hquote
  have hscan : ∀ b pos, scanCode b pos quote cs = scanLiteral (opened quote pos) pos quote cs := by
    rcases hquote with rfl | rfl <;> exact fun _ _ => rfl
  cases hliteral : literalRest (opened quote (byteLength (serialize front))) []
      (byteLength (serialize front) + quote.utf8Size) cs with
  | ok parts =>
    refine .inl ⟨parts.1, parts.2, shortest_of_literalRest hisQuote hliteral, h.delivers ?_ nofun⟩
    rw [hscan, scanLiteral, hliteral]
    rfl
  | error start =>
    refine .inr ⟨start, h.fails ?_, failsAt_of_literalRest hquote hliteral⟩
    rw [hscan, scanLiteral, hliteral]

end CodeAt

theorem scanCode_block (b : Before) (pos : Nat) (cs : Text) : scanCode b pos '/' ('*' :: cs) =
    match blockComment cs with
    | none => .error (.fault .unterminatedComment pos)
    | some parts => .ok (.of (blockCommentKind cs) '/' (push '*' parts)) :=
  rfl

theorem scanCode_heredoc (b : Before) (pos : Nat) (cs : Text) :
    scanCode b pos '<' ('<' :: '<' :: cs) =
      match heredoc cs with
      | .error .malformedLabel => .error (.fault .malformedHeredocLabel pos)
      | .error .unterminated => .error (.fault .unterminatedHeredoc pos)
      | .ok (body, left) => .ok ⟨.stringLiteral, '<' :: '<' :: '<' :: body, left⟩ :=
  rfl

/-- A delimited token ends as soon as it can. At every place in code: a literal between single
quotes ends at the first quote that belongs to no backslash, a block comment at the first closing
mark, a line comment before the first line break or close tag or at the end, and a heredoc at the
first line behind its opening that starts with the label and does not continue it. Without such an
end the source fails at the start of the token, as it does if the label is malformed. A literal
between double quotes or backticks ends at the first quote before which everything is closed.
Without one the source fails at the start of the token, or, if a literal is left open in its code,
at the start of the innermost of these, which is behind a brace and a `$`. -/
theorem delimited_shortest {source rest : Text} {front : List Token}
    (h : CodeAt source front rest) :
    (∀ cs, rest = '\'' :: cs →
      EndsFirst source front .stringLiteral ['\''] (SingleEnds false) cs .unterminatedLiteral) ∧
    (∀ cs, rest = '/' :: '*' :: cs →
      EndsFirst source front (blockCommentKind cs) ['/', '*'] BlockEnds cs .unterminatedComment) ∧
    (∀ c cs, rest = c :: cs → (c = '#' ∨ c = '/' ∧ nextIs (· == '/') cs) →
      ∃ taken left, Shortest LineEnds cs taken left ∧
        Delivers source front .comment (c :: taken) left) ∧
    (∀ cs, rest = '<' :: '<' :: '<' :: cs →
      (∃ blanks quote label line, HeredocOpens cs blanks quote label line ∧
        EndsFirst source front .stringLiteral ("<<<".toList ++ (blanks ++ quote ++ label ++ quote))
          (HeredocEnds label false) line .unterminatedHeredoc) ∨
      (¬ ∃ blanks quote label line, HeredocOpens cs blanks quote label line) ∧
        tokenize source = .error (.fault .malformedHeredocLabel (byteLength (serialize front)))) ∧
    ∀ quote cs, rest = quote :: cs → (quote = '"' ∨ quote = '\x60') →
      (∃ taken left, Shortest (LiteralEnds quote) cs taken left ∧
        Delivers source front .stringLiteral (quote :: taken) left) ∨
      ∃ start, tokenize source = .error (.fault .unterminatedLiteral start) ∧
        FailsAt quote (byteLength (serialize front)) cs start := by
  refine ⟨?_, ?_, ?_, ?_, ?_⟩
  · rintro cs rfl
    have hscan : ∀ b pos, scanCode b pos '\'' cs = scanLiteral (.single false pos) pos '\'' cs :=
      fun _ _ => rfl
    obtain ⟨found, hfinds, hliteral⟩ := literalRest_single false (byteLength (serialize front))
      (byteLength (serialize front) + '\''.utf8Size) cs
    refine h.endsFirst hfinds ?_ (by simp)
    rw [hscan, scanLiteral, hliteral]
    cases found <;> rfl
  · rintro cs rfl
    refine h.endsFirst (blockComment_finds cs) ?_ ?_
    · rw [scanCode_block]
      cases blockComment cs <;> rfl
    · rcases blockCommentKind_cases cs with hkind | hkind <;> simp [hkind]
  · rintro c cs rfl hc
    exact ⟨_, _, lineComment_finds cs,
      h.delivers (Scans.scanCode_eq (.lineComment hc rfl)) (by simp)⟩
  · rintro cs rfl
    by_cases hopens : ∃ blanks quote label line, HeredocOpens cs blanks quote label line
    · obtain ⟨blanks, quote, label, line, hopens⟩ := hopens
      refine .inl ⟨blanks, quote, label, line, hopens,
        h.endsFirst (heredocBody_finds hopens.label_ne_nil false line) ?_ (by simp)⟩
      rw [scanCode_heredoc, hopens.heredoc_eq]
      cases heredocBody label false line <;> rfl
    · refine .inr ⟨hopens, h.fails ?_⟩
      rw [scanCode_heredoc, (heredoc_opens cs).resolve_left hopens]
  · rintro quote cs rfl hquote
    exact h.quoted hquote

/-- Behind an open tag the lexer is in code. -/
theorem codeAt_openTag (taken : Text) {rest : Text}
    (h : tagAfter (taken ++ rest) = .ok (some (taken, rest))) :
    CodeAt ('<' :: '?' :: (taken ++ rest)) [⟨.openTag, '<' :: '?' :: taken, 0⟩] rest where
  source_eq := by simp
  chain := ⟨.tag h, trivial⟩
  inCode := rfl

/-! ## Code in literals -/

/-- Where no brace stands behind a `$`, code is opened by a brace before one only. -/
theorem Whole.of_no_dollar {zone : Zone} {text : Text} (h : Whole true zone text)
    (hno : ¬ ['$', '\x7b'] <:+: text) : Whole false zone text := by
  -- what a text is made of has no such brace either
  have hleft : ∀ {part rest : Text} {c : Char},
      ['$', '\x7b'] <:+: part → ['$', '\x7b'] <:+: part ++ c :: rest :=
    fun hpart => hpart.trans (prefix_append _ _).isInfix
  have hright : ∀ {part rest : Text} {c : Char},
      ['$', '\x7b'] <:+: rest → ['$', '\x7b'] <:+: part ++ c :: rest :=
    fun hrest => hrest.trans ((suffix_cons _ _).trans (suffix_append _ _)).isInfix
  induction h with
  | nil => exact .nil
  | plain hc _ ih => exact .plain hc (ih fun h => hno (infix_cons h))
  | escape hzone _ ih => exact .escape hzone (ih fun h => hno (infix_cons (infix_cons h)))
  | brace hnext _ ih => exact .brace hnext (ih fun h => hno (infix_cons h))
  | dollar _ _ ih => exact .dollar nofun (ih fun h => hno (infix_cons h))
  | braceCode _ _ ihcode ih =>
    exact .braceCode (ihcode fun h => hno (infix_cons (infix_cons (hleft h))))
      (ih fun h => hno (infix_cons (infix_cons (hright h))))
  | dollarCode => exact absurd (prefix_append ['$', '\x7b'] _).isInfix hno
  | block _ _ ihinner ih =>
    exact .block (ihinner fun h => hno (infix_cons (hleft h)))
      (ih fun h => hno (infix_cons (hright h)))
  | literal hquote _ _ ihbody ih =>
    exact .literal hquote (ihbody fun h => hno (infix_cons (hleft h)))
      (ih fun h => hno (infix_cons (hright h)))

/-- A literal between double quotes is one token exactly if everything in it is closed again, code
being opened by a brace before a `$`. So it is one wherever no brace stands behind a `$`; such a
brace opens no code, and a quote behind it ends the token. -/
theorem interpolated_delivered_iff {source body left : Text} {front : List Token}
    (h : CodeAt source front ('"' :: (body ++ '"' :: left))) :
    (Delivers source front .stringLiteral ('"' :: (body ++ ['"'])) left ↔
      Whole false (.quoted '"') body) ∧
    (Whole true (.quoted '"') body → ¬ ['$', '\x7b'] <:+: body →
      Delivers source front .stringLiteral ('"' :: (body ++ ['"'])) left) := by
  -- the scan takes the whole literal just if the grammar has its body
  have hscan : ∀ b pos, scanCode b pos '"' (body ++ '"' :: left) =
      .ok ⟨.stringLiteral, '"' :: (body ++ ['"']), left⟩ ↔ Whole false (.quoted '"') body := by
    intro b pos
    show scanLiteral (opened '"' pos) pos '"' (body ++ '"' :: left) = _ ↔
      Whole false (.between '"') body
    rw [← @literalRest_between_iff left (pos + '"'.utf8Size) '"' body pos rfl, scanLiteral]
    split
    · next hfail => simp [hfail]
    · next parts hparts => simp [hparts, Scanned.of, Prod.ext_iff]
  have hends : Delivers source front .stringLiteral ('"' :: (body ++ ['"'])) left ↔
      Whole false (.quoted '"') body := by
    constructor
    · rintro ⟨hcode, -⟩
      obtain ⟨-, hread, -⟩ := Chain.append_iff.1 hcode.chain
      rw [h.inCode] at hread
      cases hread with
      | code hread =>
        rw [serialize_nil, nil_append, append_assoc] at hread
        exact (hscan _ _).1 hread
    · exact fun hwhole => h.delivers ((hscan _ _).2 hwhole) (by simp)
  exact ⟨hends, fun hbody hno => hends.2 (hbody.of_no_dollar hno)⟩

/-- A literal in code in a literal. -/
theorem interpolated_delivered_nested :
    CodeAt "<?php \"\x7b$a[\"b\"]\x7d\";".toList [⟨.openTag, "<?php ".toList, 0⟩]
      "\"\x7b$a[\"b\"]\x7d\";".toList ∧
    Whole true (.quoted '"') "\x7b$a[\"b\"]\x7d".toList ∧
    Delivers "<?php \"\x7b$a[\"b\"]\x7d\";".toList [⟨.openTag, "<?php ".toList, 0⟩] .stringLiteral
      "\"\x7b$a[\"b\"]\x7d\"".toList ";".toList := by
  have hcode : CodeAt "<?php \"\x7b$a[\"b\"]\x7d\";".toList [⟨.openTag, "<?php ".toList, 0⟩]
      "\"\x7b$a[\"b\"]\x7d\";".toList := codeAt_openTag "php ".toList rfl
  have hinner : Whole true .code ('"' :: (['b'] ++ '"' :: [']'])) :=
    .literal (.inr rfl) (.plain rfl .nil) (.plain rfl .nil)
  have hwhole : Whole true (.quoted '"') "\x7b$a[\"b\"]\x7d".toList :=
    .braceCode (.plain (c := 'a') rfl (.plain (c := '[') rfl hinner)) .nil
  exact ⟨hcode, hwhole, (@interpolated_delivered_iff _ "\x7b$a[\"b\"]\x7d".toList ";".toList _
    hcode).2 hwhole (by decide +kernel)⟩

/-- The opening mark of a block comment is not its closing mark. -/
theorem delimited_shortest_slash :
    CodeAt "<?php /*/ **/;".toList [⟨.openTag, "<?php ".toList, 0⟩] "/*/ **/;".toList ∧
    ∃ taken left, Shortest BlockEnds "/ **/;".toList taken left ∧
      Delivers "<?php /*/ **/;".toList [⟨.openTag, "<?php ".toList, 0⟩] .comment
        ('/' :: '*' :: taken) left := by
  have hcode : CodeAt "<?php /*/ **/;".toList [⟨.openTag, "<?php ".toList, 0⟩] "/*/ **/;".toList :=
    codeAt_openTag "php ".toList rfl
  refine ⟨hcode,
    ((delimited_shortest hcode).2.1 "/ **/;".toList rfl).resolve_right fun habsent => ?_⟩
  exact habsent.1 "/ **/".toList ";".toList rfl ⟨"/ *".toList, rfl⟩

/-- A literal between double quotes that is not terminated, where the source does not fail at its
start. -/
theorem quoted_fails_inside :
    CodeAt "<?php \"\x7b$a['b".toList [⟨.openTag, "<?php ".toList, 0⟩] "\"\x7b$a['b".toList ∧
    tokenize "<?php \"\x7b$a['b".toList = .error (.fault .unterminatedLiteral 11) ∧
    byteLength (serialize [⟨.openTag, "<?php ".toList, 0⟩]) = 6 := by
  have hcode : CodeAt "<?php \"\x7b$a['b".toList [⟨.openTag, "<?php ".toList, 0⟩]
      "\"\x7b$a['b".toList := codeAt_openTag "php ".toList rfl
  exact ⟨hcode, hcode.fails rfl, rfl⟩

end LegacyPhp
