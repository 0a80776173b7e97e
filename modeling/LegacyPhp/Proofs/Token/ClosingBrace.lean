import LegacyPhp.Proofs.Token.Html
import LegacyPhp.Proofs.Token.Seams

/-!
# A closing brace behind code

Code that is read to its end is read in the same way with a blank and a closing brace behind it, but
for white space and a line comment at its end: the white space grows by the blank, and the comment
takes the blank and the brace (`Chain.exists_closing`). A tag at the end has to be whole, since the
word of a bare one needs the end of the text behind it. At another place the tokens have the same
kinds and texts (`Chain.lexes`).
-/

namespace LegacyPhp

open Text Scan Closure List

variable {t : Token} {b : Before} {rest : Text} {xs : List Token}

/-! ## Blanks at the end -/

/-- A token that is written on by what follows: white space and line comments. -/
def isOpenBlank (t : Token) : Bool :=
  t.kind == .whitespace || (t.kind == .comment && !startsWith t.text ['/', '*'])

theorem scanCode_lineComment {pos : Nat} {c : Char} {cs : Text}
    (h : scanCode b pos c (cs ++ rest) = .ok ⟨.comment, c :: cs, rest⟩)
    (hline : startsWith (c :: cs) ['/', '*'] = false) :
    (c = '#' ∨ c = '/' ∧ nextIs (· == '/') (cs ++ rest)) ∧
      lineComment (cs ++ rest) = (cs, rest) := by
  have hscan : Scans b pos c (cs ++ rest) .comment (c :: cs) rest := scans_of_scanCode h
  cases hscan with
  | lineComment hc hcomment => exact ⟨hc, hcomment⟩
  | comment hc => rw [hc] at hline; cases hline

theorem lineComment_blank {cs more : Text} (h : lineComment cs = (cs, []))
    (hmore : lineComment (' ' :: more) = (' ' :: more, [])) :
    lineComment (cs ++ ' ' :: more) = (cs ++ ' ' :: more, []) := by
  induction cs with
  | nil => exact hmore
  | cons c cs ih =>
    rw [cons_append, lineComment] at *
    split at h
    · cases h
    · next hgo =>
      obtain ⟨htext, hrest⟩ := Prod.mk.inj h
      have hend : lineComment cs = (cs, []) := Prod.ext (cons.inj htext).2 hrest
      -- the blank behind the comment is no `>`
      have hnext : nextIs (· == '>') (cs ++ ' ' :: more) = nextIs (· == '>') cs := by
        cases cs <;> rfl
      rw [hnext, if_neg hgo, ih hend]
      rfl

/-- White space and a line comment at the end take what follows them, up to the closing brace. -/
theorem Reads.more_blank (h : Reads true b t.kind t.text []) (hopen : isOpenBlank t) :
    (t.kind = .whitespace ∧ Reads true b .whitespace (t.text ++ [' ']) ['}']) ∨
      t.kind = .comment ∧ Reads true b .comment (t.text ++ [' ', '}']) [] := by
  simp only [isOpenBlank, Bool.or_eq_true, Bool.and_eq_true, beq_iff_eq, Bool.not_eq_true'] at hopen
  rcases hopen with hkind | ⟨hkind, hline⟩
  · refine .inl ⟨hkind, reads_spaces (by simp) ?_ rfl⟩
    rw [hkind] at h
    rw [all_append, h.all_isSpace]
    rfl
  · refine .inr ⟨hkind, ?_⟩
    rw [hkind] at h
    generalize t.text = text at h hline ⊢
    cases h with
    | @code _ pos _ c cs _ hscan =>
      obtain ⟨hmark, hend⟩ := scanCode_lineComment hscan hline
      rw [append_nil] at hmark hend
      have hlong := lineComment_blank hend (show lineComment [' ', '}'] = _ by decide)
      refine @Reads.code b pos .comment c (cs ++ [' ', '}']) [] ?_
      rw [append_nil]
      refine (Scans.lineComment (hmark.imp_right fun hmark => ⟨hmark.1, ?_⟩) hlong).scanCode_eq
      cases cs with
      | nil => cases hmark.2
      | cons d cs => exact hmark.2

/-- Tokens in front of some text are read as before if a blank and a brace stand behind the text.
The induction is on the tokens; text outside the code ends at the tag behind it, which is read
again. -/
theorem Chain.ahead {inCode : Bool} {u : Text} (h : Chain inCode b xs u) (hu : u ≠ [])
    (hcode : xs.foldl inCodeAfter inCode = true) : Chain inCode b xs (u ++ [' ', '}']) := by
  induction xs generalizing inCode b with
  | nil => trivial
  | cons x xs ih =>
    obtain ⟨hread, hrest⟩ := h
    have hagain := ih hrest hcode
    refine ⟨?_, hagain⟩
    have hne : serialize xs ++ u ≠ [] := append_ne_nil_of_right_ne_nil _ hu
    have hends : goesOn x.kind x.text (serialize xs ++ u ++ [' ', '}']) = false := by
      by_cases hhtml : x.kind = .inlineHtml
      · obtain rfl : inCode = false := hread.inCode_iff.2 (.inr hhtml)
        have hmode : inCodeAfter false x = false := by simp [inCodeAfter, hhtml]
        rw [hmode] at hrest hagain
        cases xs with
        | nil => rw [foldl_cons, hmode] at hcode; cases hcode
        | cons y ys =>
          have hends := hread.not_goesOn
          rw [hhtml] at hends ⊢
          rw [append_assoc]
          exact htmlGoesOn_chain hends hrest.1 hagain.1
      · rw [← append_nil (serialize xs ++ u)] at hread
        exact hread.ends_ahead hhtml hne (fun _ _ _ => forall_mem_of_all (by decide)) fun _ _ =>
          ⟨rfl, fun _ _ => rfl, fun _ => rfl⟩
    rw [← append_assoc]
    refine hread.of_ends_same hends ?_
    obtain ⟨c, cs, hcs⟩ := exists_cons_of_ne_nil hne
    rw [hcs]
    rfl

/-- Without close tags the code does not end. -/
theorem Chain.inCode (h : Chain true b xs rest) (htags : ∀ x ∈ xs, x.kind ≠ .closeTag) :
    xs.foldl inCodeAfter true = true ∧
      ∀ x ∈ xs, x.kind ≠ .openTag ∧ x.kind ≠ .inlineHtml ∧ x.kind ≠ .closeTag := by
  induction xs generalizing b with
  | nil => exact ⟨rfl, nofun⟩
  | cons x xs ih =>
    have htag := htags x mem_cons_self
    have hcode : inCodeAfter true x := by rw [inCodeAfter_true]; exact bne_iff_ne.2 htag
    have htail := h.2
    rw [hcode] at htail
    obtain ⟨hfold, hkinds⟩ := ih htail fun y hy => htags y (mem_cons_of_mem x hy)
    refine ⟨by rw [foldl_cons, hcode, hfold], ?_⟩
    rintro y (_ | ⟨_, hy⟩)
    · obtain ⟨hopen, hhtml⟩ : x.kind ≠ .openTag ∧ x.kind ≠ .inlineHtml := by
        simpa using h.1.inCode_iff
      exact ⟨hopen, hhtml, htag⟩
    · exact hkinds y hy

theorem Chain.lexes (h : Chain true b xs rest) (htags : ∀ x ∈ xs, x.kind ≠ .closeTag) :
    Lexes b (serialize xs) (fun ts => ts.map Token.shape = xs.map Token.shape)
      (xs.foldl Before.next b) rest := by
  intro pos
  have hlex := h.lexFrom_eq pos
  rwa [(h.inCode htags).1] at hlex

/-- A blank shape: white space or a comment. -/
def isBlankShape (x : Shape) : Bool := x.1 == .whitespace || x.1 == .comment

/-- What may stand behind the code of a namespace: blanks, and the closing brace. -/
def ClosesUnit (shapes : List Shape) : Prop :=
  ∃ blanks close, shapes = blanks ++ close ∧ blanks.all isBlankShape ∧
    (close = [] ∨ close = [(.punctuation, ['}'])])

theorem filter_blanks {blanks : List Shape} (h : blanks.all isBlankShape) :
    blanks.filter (!·.1.isTrivia) = [] := by
  refine filter_eq_nil_iff.2 fun x hx => ?_
  have hblank := all_eq_true.1 h x hx
  simp only [isBlankShape, Bool.or_eq_true, beq_iff_eq] at hblank
  rcases hblank with hkind | hkind <;> simp [hkind, TokenKind.isTrivia]

theorem ClosesUnit.kind_ne {shapes : List Shape} (h : ClosesUnit shapes) :
    ∀ x ∈ shapes, x.1 ≠ .closeTag := by
  obtain ⟨blanks, close, rfl, hblanks, hclose⟩ := h
  intro x hx hkind
  rcases mem_append.1 hx with hx | hx
  · have hblank := all_eq_true.1 hblanks x hx
    simp [isBlankShape, hkind] at hblank
  · rcases hclose with rfl | rfl
    · cases hx
    · rw [mem_singleton.1 hx] at hkind
      cases hkind

theorem reads_brace (b : Before) (rest : Text) : Reads true b .punctuation ['}'] rest :=
  .code (scanCode_loneMark rfl b 0 rest)

theorem Reads.goesOn_whole {inCode : Bool} {text : Text} (h : Reads inCode b .openTag text [])
    (hwhole : isWholeTag text) : goesOn .openTag text [' ', '}'] = false := by
  obtain ⟨taken, rfl, hafter⟩ := h.openTag_eq
  rcases tagAfter_eq_some hafter with ⟨word, tail, rfl, hword, hend⟩ | ⟨rfl | ⟨rfl, _⟩, _⟩
  · refine tagGoesOn_eq_false.2
      (tagAfter_long hword (longTagEnd_of_ends hend (fun hnil => ?_) fun _ => rfl))
    rw [hnil, not_isWholeTag (byteLength_of_sameWord hword).1] at hwhole
    cases hwhole
  · refine tagGoesOn_eq_false.2 (?_ : tagAfter (['='] ++ [' ', '}']) = _)
    exact tagAfter_short (.inl rfl) fun _ => rfl
  · cases hwhole

theorem Chain.closed (h : Chain true {} xs []) (hcode : xs.foldl inCodeAfter true = true)
    (htag : ∀ x ∈ xs.getLast?, x.kind = .openTag → isWholeTag x.text)
    (hlast : ∀ x ∈ xs.getLast?, isOpenBlank x = false) :
    Chain true {} (xs ++ [⟨.whitespace, [' '], 0⟩, ⟨.punctuation, ['}'], 0⟩]) [] := by
  refine Chain.append_iff.2 ⟨?_, ?_⟩
  · refine h.of_ends (fun x hx => ?_) (fun _ _ _ => rfl) rfl (.inr (forall_mem_of_all (by decide)))
    obtain ⟨mode, memory, hread, hmode⟩ := h.getLast? hx
    obtain ⟨hhtml, hclose⟩ := hread.kind_of_inCodeAfter (hmode ▸ hcode)
    by_cases hkind : x.kind = .openTag
    · rw [hkind] at hread ⊢
      exact hread.goesOn_whole (htag x hx hkind)
    · have hblank := hlast x hx
      simp only [isOpenBlank, Bool.or_eq_false_iff, beq_eq_false_iff_ne] at hblank
      refine goesOn_before _ _ (.inl rfl) ⟨hkind, hhtml, hclose⟩ (fun heq => absurd heq hblank.1)
        fun heq => .inl ?_
      simpa [heq] using hblank.2
  · rw [hcode]
    exact ⟨reads_spaces (by simp) rfl rfl, reads_brace _ _, trivial⟩

/-- A comment that the end of the line ends. -/
def isLineComment (t : Token) : Bool := t.kind == .comment && !startsWith t.text ['/', '*']

/-- Code with a closing brace behind it is read as before, but for blanks at its end. A line comment
there takes the brace. -/
theorem Chain.exists_closing (h : Chain true {} xs []) (hcode : xs.foldl inCodeAfter true = true)
    (htag : ∀ x ∈ xs.getLast?, x.kind = .openTag → isWholeTag x.text) :
    ∃ mid tail tail' : List Token, xs = mid ++ tail ∧
      (tail.map Token.shape).all isBlankShape ∧
      Chain true {} (mid ++ tail') [] ∧ serialize (mid ++ tail') = serialize xs ++ [' ', '}'] ∧
      ClosesUnit (tail'.map Token.shape) ∧
      significant tail' =
        if xs.getLast?.any isLineComment then [] else [(.punctuation, ['}'])] := by
  by_cases hlast : xs.getLast?.all (!isOpenBlank ·)
  · have hlast : ∀ x ∈ xs.getLast?, isOpenBlank x = false := by
      simpa [Option.all_eq_true] using hlast
    refine ⟨xs, [], _, (append_nil xs).symm, rfl, h.closed hcode htag hlast, ?_, ?_, ?_⟩
    · simp
    · exact ⟨[(.whitespace, [' '])], [(.punctuation, ['}'])], rfl, rfl, .inr rfl⟩
    · rw [if_neg]
      · rfl
      · rw [Option.any_eq_true]
        rintro ⟨x, hx, hline⟩
        have hblank := hlast x hx
        rw [isOpenBlank, Bool.or_eq_false_iff] at hblank
        rw [isLineComment, hblank.2] at hline
        cases hline
  · obtain ⟨x, hx, hopen⟩ : ∃ x, xs.getLast? = some x ∧ isOpenBlank x := by
      simpa [Option.all_eq_true] using hlast
    obtain ⟨init, rfl⟩ := getLast?_eq_some_iff.1 hx
    obtain ⟨hbefore, hread, _⟩ := Chain.append_iff.1 h
    have hblank : isBlankShape x.shape := by
      simp only [isOpenBlank, Bool.or_eq_true, Bool.and_eq_true] at hopen
      simp only [isBlankShape, Token.shape, Bool.or_eq_true]
      exact hopen.imp_right And.left
    have hmode : init.foldl inCodeAfter true = true := by
      refine hread.inCode_eq ?_
      simp only [isBlankShape, Token.shape, Bool.or_eq_true, beq_iff_eq] at hblank
      rcases hblank with hkind | hkind <;> simp [hkind]
    have hlonger := hbefore.ahead (by simpa using hread.text_ne_nil) hmode
    rw [serialize_nil, append_nil, hmode] at hread
    rw [hx, Option.any_some]
    rcases hread.more_blank hopen with ⟨hkind, hlong⟩ | ⟨hkind, hlong⟩
    · refine ⟨init, [x], [⟨.whitespace, x.text ++ [' '], 0⟩, ⟨.punctuation, ['}'], 0⟩], rfl,
        by simp [hblank], ?_, by simp, ?_, by
        simp [isLineComment, hkind, significant, Token.isTrivia, TokenKind.isTrivia]⟩
      · refine Chain.append_iff.2 ⟨by simpa using hlonger, ?_⟩
        rw [hmode]
        exact ⟨hlong, reads_brace _ _, trivial⟩
      · exact ⟨[(.whitespace, x.text ++ [' '])], [(.punctuation, ['}'])], rfl, rfl, .inr rfl⟩
    · have hline : isLineComment x := by simpa [isLineComment, isOpenBlank, hkind] using hopen
      refine ⟨init, [x], [⟨.comment, x.text ++ [' ', '}'], 0⟩], rfl, by simp [hblank], ?_,
        by simp, ?_, by rw [hline]; rfl⟩
      · refine Chain.append_iff.2 ⟨by simpa using hlonger, ?_⟩
        rw [hmode]
        exact ⟨hlong, trivial⟩
      · exact ⟨[(.comment, x.text ++ [' ', '}'])], [], rfl, rfl, .inl rfl⟩

theorem Chain.exists_closed (h : Chain true {} xs []) (htags : ∀ x ∈ xs, x.kind ≠ .closeTag) :
    ∃ mid tail tail' : List Token, xs = mid ++ tail ∧
      (tail.map Token.shape).all isBlankShape ∧
      Chain true {} (mid ++ tail') [] ∧ serialize (mid ++ tail') = serialize xs ++ [' ', '}'] ∧
      ClosesUnit (tail'.map Token.shape) := by
  obtain ⟨hcode, hkinds⟩ := h.inCode htags
  obtain ⟨mid, tail, tail', hsplit, htail, hchain, hserialize, hclosed, _⟩ :=
    h.exists_closing hcode fun x hx hkind => absurd hkind (hkinds x (mem_of_getLast? hx)).1
  exact ⟨mid, tail, tail', hsplit, htail, hchain, hserialize, hclosed⟩

end LegacyPhp
