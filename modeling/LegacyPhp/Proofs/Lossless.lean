import LegacyPhp.Token.Lexer

/-!
# The tokens of a source tile it

A token sequence tiles a text from a byte offset on when every token has some text, starts where the
token before it ends, and nothing of the text is left over (`Tiles`). `lexFrom_tiles` shows that the
lexer only ever returns such sequences, in code and outside of it: each scan covers what it takes
(`scanCode_covers`, `findOpenTag_append`), and none of them makes a mark for the end of the input.

From the tiling follow the facts a reader of the tokens relies on: written one after the other they
are the source, and every offset is the number of bytes before the token.
-/

namespace LegacyPhp

open Text Scan List

variable {pos : Nat} {cs rest : Text} {ts : List Token} {c : Char} {s : Scanned} {ε α : Type}
  {b : Before} {t : Token}

/-- The tokens cover the text without gap or overlap, the first of them at byte offset `pos`. None
is empty, and none marks the end of the input. -/
inductive Tiles : (pos : Nat) → Text → List Token → Prop
  | nil (pos : Nat) : Tiles pos [] []
  | cons {pos : Nat} {rest : Text} {t : Token} {ts : List Token} (hoffset : t.offset = pos)
      (htext : t.text ≠ []) (hkind : t.kind ≠ .endOfInput)
      (htail : Tiles (pos + byteLength t.text) rest ts) : Tiles pos (t.text ++ rest) (t :: ts)

namespace Tiles

theorem serialize_eq (h : Tiles pos cs ts) : serialize ts = cs := by
  induction h with
  | nil => rfl
  | cons _ _ _ _ ih => rw [serialize_cons, ih]

theorem mem (h : Tiles pos cs ts) (ht : t ∈ ts) : t.kind ≠ .endOfInput ∧ t.text ≠ [] := by
  induction h with
  | nil => cases ht
  | cons _ htext hkind _ ih =>
    rcases mem_cons.1 ht with rfl | ht
    · exact ⟨hkind, htext⟩
    · exact ih ht

theorem offset_eq (h : Tiles pos cs ts) {before after : List Token}
    (hts : ts = before ++ t :: after) : t.offset = pos + byteLength (serialize before) := by
  induction h generalizing before with
  | nil => simp at hts
  | cons hoffset _ _ _ ih =>
    cases before with
    | nil =>
      obtain ⟨rfl, _⟩ := cons.inj hts
      simpa using hoffset
    | cons u before =>
      obtain ⟨rfl, htail⟩ := cons.inj hts
      rw [ih htail, serialize_cons, byteLength_append, Nat.add_assoc]

theorem cons_of_append {kind : TokenKind} {text : Text} (hcs : text ++ rest = cs)
    (htext : text ≠ []) (hkind : kind ≠ .endOfInput) (h : Tiles (pos + byteLength text) rest ts) :
    Tiles pos cs (⟨kind, text, pos⟩ :: ts) := by
  subst hcs
  exact .cons (t := ⟨kind, text, pos⟩) rfl htext hkind h

end Tiles

/-! ## Single scans -/

theorem wordKind_cases (b : Before) (word rest : Text) :
    wordKind b word rest = .identifier ∨ ∃ k, wordKind b word rest = .keyword k := by
  unfold wordKind
  split
  · exact .inl rfl
  · split
    · exact .inl rfl
    · exact .inr ⟨_, rfl⟩

theorem blockCommentKind_cases (cs : Text) :
    blockCommentKind cs = .comment ∨ blockCommentKind cs = .docComment := by
  unfold blockCommentKind
  split
  · split
    · exact .inr rfl
    · exact .inl rfl
  · exact .inl rfl

/-- The marks that open something other than a mark. -/
def openings : List Text := [['?', '>'], ['/', '/'], ['/', '*'], ['<', '<', '<']]

/-- What a scan of code gives: the kind and the text of a token, and what is left. A mark is what
nothing else is. -/
inductive Scans (b : Before) (pos : Nat) (c : Char) (rest : Text) : TokenKind → Text → Text → Prop
  | closeTag {tail cs left} (hc : c = '?') (hrest : rest = '>' :: tail)
      (h : lineBreak tail = (cs, left)) : Scans b pos c rest .closeTag (c :: '>' :: cs) left
  | whitespace {cs left} (hc : isSpace c) (h : run isSpace rest = (cs, left)) :
      Scans b pos c rest .whitespace (c :: cs) left
  | lineComment {cs left} (hc : c = '#' ∨ c = '/' ∧ nextIs (· == '/') rest)
      (h : lineComment rest = (cs, left)) : Scans b pos c rest .comment (c :: cs) left
  | comment {tail cs left} (hc : c = '/') (hrest : rest = '*' :: tail)
      (h : blockComment tail = some (cs, left)) (hkind : blockCommentKind tail = .comment) :
      Scans b pos c rest .comment (c :: '*' :: cs) left
  | docComment {tail cs left} (hc : c = '/') (hrest : rest = '*' :: tail)
      (h : blockComment tail = some (cs, left)) (hkind : blockCommentKind tail = .docComment) :
      Scans b pos c rest .docComment (c :: '*' :: cs) left
  | var {cs left} (hc : c = '$') (hnext : nextIs isIdentStart rest)
      (h : run isIdentChar rest = (cs, left)) : Scans b pos c rest .variable (c :: cs) left
  | identifier {cs left} (hc : isIdentStart c) (h : run isIdentChar rest = (cs, left))
      (hkind : wordKind b (c :: cs) left = .identifier) :
      Scans b pos c rest .identifier (c :: cs) left
  | keyword {word cs left} (hc : isIdentStart c) (h : run isIdentChar rest = (cs, left))
      (hkind : wordKind b (c :: cs) left = .keyword word) :
      Scans b pos c rest (.keyword word) (c :: cs) left
  | number {cs left} (hc : (c.isDigit || (c == '.' && nextIs Char.isDigit rest)))
      (h : numberRest (c == '0' && nextIs (fun d => d == 'x' || d == 'X') rest) c rest =
        (cs, left)) : Scans b pos c rest .number (c :: cs) left
  | single {cs left} (hc : c = '\'')
      (h : literalRest (.single false pos) [] (pos + c.utf8Size) rest = .ok (cs, left)) :
      Scans b pos c rest .stringLiteral (c :: cs) left
  | double {cs left} (hc : c = '"' ∨ c = '\x60')
      (h : literalRest (.interpolated c .plain pos) [] (pos + c.utf8Size) rest = .ok (cs, left)) :
      Scans b pos c rest .stringLiteral (c :: cs) left
  | heredoc {tail cs left} (hc : c = '<') (hrest : rest = '<' :: '<' :: tail)
      (h : heredoc tail = .ok (cs, left)) :
      Scans b pos c rest .stringLiteral (c :: '<' :: '<' :: cs) left
  | mark {text left} (h : operator c rest = (text, left)) (hspace : ¬ isSpace c)
      (hword : ¬ isIdentStart c) (hdigit : ¬ c.isDigit)
      (hquote : c ≠ '#' ∧ c ≠ '\'' ∧ c ≠ '"' ∧ c ≠ '\x60')
      (hopens : ∀ opening ∈ openings, ¬ opening <+: c :: rest)
      (hvariable : c = '$' → nextIs isIdentStart rest = false)
      (hpoint : c = '.' → nextIs Char.isDigit rest = false) :
      Scans b pos c rest .punctuation text left

theorem scans_of_scanMark {b : Before} (h : scanMark pos c rest = .ok s)
    (hmark : ∀ text left, operator c rest = (text, left) →
      (∀ left, c = '<' → rest ≠ '<' :: '<' :: left) → Scans b pos c rest .punctuation text left) :
    Scans b pos c rest s.kind s.text s.rest := by
  unfold scanMark at h
  split at h
  · split at h
    · cases h
    · cases h
    · next hbody => cases h; exact .heredoc rfl rfl hbody
  · next hopen => cases h; exact hmark _ _ rfl hopen

theorem scans_of_scanCode (h : scanCode b pos c rest = .ok s) :
    Scans b pos c rest s.kind s.text s.rest := by
  unfold scanCode at h
  split at h
  · next hc =>
    cases h
    obtain ⟨hc, hnext⟩ := Bool.and_eq_true_iff.1 hc
    exact .closeTag (eq_of_beq hc) (nextIs_tail hnext).symm rfl
  split at h
  · next hc => cases h; exact .whitespace hc rfl
  split at h
  · next hc => cases h; exact .lineComment (by simpa using hc) rfl
  split at h
  · next hc =>
    obtain ⟨hc, hnext⟩ := Bool.and_eq_true_iff.1 hc
    have hrest := (nextIs_tail hnext).symm
    split at h
    · cases h
    · next hparts =>
      cases h
      simp only [Scanned.of]
      rcases blockCommentKind_cases rest.tail with hkind | hkind <;> rw [hkind]
      · exact .comment (eq_of_beq hc) hrest hparts hkind
      · exact .docComment (eq_of_beq hc) hrest hparts hkind
  split at h
  · next hc =>
    cases h
    obtain ⟨hc, hnext⟩ := Bool.and_eq_true_iff.1 hc
    exact .var (eq_of_beq hc) hnext rfl
  split at h
  · next hc =>
    cases h
    simp only [Scanned.of]
    rcases wordKind_cases b (c :: (run isIdentChar rest).1) (run isIdentChar rest).2 with
      hkind | ⟨word, hkind⟩ <;> rw [hkind]
    · exact .identifier hc rfl hkind
    · exact .keyword hc rfl hkind
  split at h
  · next hc => cases h; exact .number hc rfl
  split at h
  · next hc =>
    unfold scanLiteral at h
    split at h
    · cases h
    · next hparts => cases h; exact .single (eq_of_beq hc) hparts
  split at h
  · next hc =>
    unfold scanLiteral at h
    split at h
    · cases h
    · next hparts => cases h; exact .double (by simpa using hc) hparts
  · next hclose hspace hline hblock hvariable hword hdigit hsingle hdouble =>
    refine scans_of_scanMark h fun text left hop hopen => ?_
    simp only [Bool.or_eq_true, beq_iff_eq, not_or] at hline hdigit hsingle hdouble
    refine .mark hop hspace hword hdigit.1 ⟨hline.1, hsingle, hdouble⟩ (fun opening hmem => ?_)
      (fun hc => by simpa [hc] using hvariable) fun hc => by simpa [hc] using hdigit.2
    rintro ⟨left, hleft⟩
    simp only [openings, mem_cons, not_mem_nil, or_false] at hmem
    rcases hmem with rfl | rfl | rfl | rfl <;> obtain ⟨rfl, rfl⟩ := cons.inj hleft
    · exact hclose rfl
    · exact hline.2 rfl
    · exact hblock rfl
    · exact hopen left rfl rfl

theorem scanCode_ne_endOfInput (h : scanCode b pos c rest = .ok s) : s.kind ≠ .endOfInput := by
  obtain ⟨kind, text, left⟩ := s
  cases scans_of_scanCode h <;> simp

/-! ## The lexer tiles -/

theorem map_eq_ok {β : Type} {f : α → β} {x : Except ε α} {y : β} (h : x.map f = .ok y) :
    ∃ a, x = .ok a ∧ f a = y := by
  cases x with
  | error e => cases h
  | ok a => exact ⟨a, rfl, by cases h; rfl⟩

theorem map_eq_error {β : Type} {f : α → β} {x : Except ε α} {e : ε} :
    x.map f = .error e ↔ x = .error e := by
  cases x with
  | error | ok => simp [Except.map]

theorem mapError_ok {ε' : Type} (f : ε → ε') (a : α) : (Except.ok a).mapError f = .ok a := rfl

theorem forall_mem_of_all {p : α → Prop} [DecidablePred p] {xs : List α}
    (h : xs.all (fun x => decide (p x))) : ∀ x ∈ xs, p x :=
  fun x hx => of_decide_eq_true (all_eq_true.1 h x hx)

theorem eq_ok_of_toOption {x : Except ε α} {a : α} (h : x.toOption = some a) : x = .ok a := by
  cases x with
  | error e => cases h
  | ok b => cases h; rfl

theorem lexFrom_tiles {inCode : Bool} (h : lexFrom inCode b pos cs = .ok ts) : Tiles pos cs ts := by
  -- the induction follows the lexer: one scan in code, or the text through the next open tag
  fun_induction lexFrom inCode b pos cs generalizing ts with
  | case1 => cases h; exact .nil _
  | case2 => cases h
  | case3 =>
    rename_i hs _ ih
    obtain ⟨more, hmore, rfl⟩ := map_eq_ok h
    obtain ⟨hcover, htext⟩ := scanCode_covers hs
    exact .cons_of_append hcover htext (scanCode_ne_endOfInput hs) (ih hmore)
  | case4 => cases h
  | case5 b pos c rest =>
    cases h
    exact .cons_of_append (append_nil _) (cons_ne_nil _ _) (by simp) (.nil _)
  | case6 =>
    rename_i pos _ _ t ht html start ih
    obtain ⟨more, hmore, rfl⟩ := map_eq_ok h
    obtain ⟨hcover, htag⟩ := findOpenTag_append ht
    have hrest : Tiles start (t.tag ++ t.rest) (⟨.openTag, t.tag, start⟩ :: more) :=
      .cons_of_append rfl htag (by simp) (ih hmore)
    rw [append_assoc] at hcover
    by_cases hempty : t.html = []
    · -- the tag comes first, and there is no token for the text before it
      have hstart : start = pos := by simp [start, hempty]
      have hhtml : html = [] := by simp [html, hempty]
      rw [hempty, nil_append] at hcover
      rw [hhtml, nil_append, ← hcover]
      exact hstart ▸ hrest
    · have hhtml : html = [⟨.inlineHtml, t.html, pos⟩] := by simp [html, hempty]
      rw [hhtml]
      exact .cons_of_append hcover hempty (by simp) hrest

theorem lexemes_tiles {source : Text} (h : lexemes source = .ok ts) :
    Tiles 0 source ts := lexFrom_tiles h

/-- Lexing loses nothing. Written one after the other the tokens are the source, every offset is the
number of bytes before its token, and the empty mark at the end of the input is the last token and
the only one of its kind and the only empty one. -/
theorem tokenize_lossless {source : Text} {tokens : List Token}
    (h : tokenize source = .ok tokens) :
    serialize tokens = source ∧
      (∀ before t after, tokens = before ++ t :: after →
        t.offset = byteLength (serialize before)) ∧
      ∃ body, tokens = body ++ [⟨.endOfInput, [], byteLength source⟩] ∧
        ∀ t ∈ body, t.kind ≠ .endOfInput ∧ t.text ≠ [] := by
  obtain ⟨body, hbody, rfl⟩ := map_eq_ok h
  have htiles := lexemes_tiles hbody
  refine ⟨?_, ?_, body, rfl, fun t ht => htiles.mem ht⟩
  · rw [serialize_append, htiles.serialize_eq]
    simp
  · intro before t after hsplit
    -- the token is the mark, or one of those that tile the source
    rcases List.eq_nil_or_concat after with rfl | ⟨init, last, rfl⟩
    · obtain ⟨rfl, hlast⟩ := List.append_inj' hsplit rfl
      obtain ⟨rfl, _⟩ := cons.inj hlast
      rw [htiles.serialize_eq]
    · rw [List.concat_eq_append, ← List.cons_append, ← List.append_assoc] at hsplit
      have hinit := (List.append_inj' hsplit rfl).1
      simpa using htiles.offset_eq hinit

/-- Text, a tag, a variable, a literal with a character of two bytes behind a backslash, and a
comment that ends at a close tag. -/
theorem tokenize_lossless_mixed :
    ∃ tokens, tokenize "a<?php $b='\\é';//c?>".toList = .ok tokens ∧ tokens.length = 9 ∧
      serialize tokens = "a<?php $b='\\é';//c?>".toList := by
  have hchecked : (tokenize "a<?php $b='\\é';//c?>".toList).toOption.any (·.length == 9) := by
    decide +kernel
  obtain ⟨tokens, hread, hlength⟩ := (Option.any_eq_true _ _).1 hchecked
  have htokens := eq_ok_of_toOption hread
  exact ⟨tokens, htokens, beq_iff_eq.1 hlength, (tokenize_lossless htokens).1⟩

end LegacyPhp
