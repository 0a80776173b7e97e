import LegacyPhp.Proofs.Token.Relex

/-!
# Where texts meet

A text that is put together from others is read as its parts are wherever the parts meet in the
right way. The lemmas of this module are about such places. What stands before a word stands as well
before another word (`Chain.before_word`); a mark that no other mark starts with stops everything
before it (`readsAs_stopped`); at the end of a source line breaks may follow (`readsAs_break`), or a
tag if the source ends outside the code (`readsAs_reopened`); and behind the first open tag a word
may be put unless the tag is the short one (`readsAs_head`).
-/

namespace LegacyPhp

open Text Scan Closure List

variable {x tag : Token} {more name rest : Text} {shapes : List Shape} {inCode : Bool} {b : Before}
  {kind : TokenKind} {last html : List Token} {c : Char} {word : Keyword}

/-! ## In the code and outside it -/

namespace Reads

variable {text : Text}

theorem nextIs_separator (h : Reads inCode b kind text rest) (hhtml : kind ≠ .inlineHtml)
    (hkind : kind ≠ .punctuation ∨ text ≠ ['\\']) : nextIs (· == '\\') (text ++ rest) = false := by
  cases h with
  | @code _ _ _ c cs _ h =>
    refine beq_eq_false_iff_ne.2 fun hc => ?_
    subst hc
    rw [scanCode_loneMark rfl] at h
    have hscanned := Except.ok.inj h
    rcases hkind with hkind | htext
    · exact hkind (congrArg Scanned.kind hscanned).symm
    · exact htext (congrArg Scanned.text hscanned).symm
  | tag _ => rfl
  | html _ => exact absurd rfl hhtml

theorem keyword_eq (h : Reads inCode b (.keyword word) text rest) :
    b = {} ∧ Keyword.ofWord? text = some word := by
  have hkind : wordKind b text rest = .keyword word := h.kindIn_eq
  unfold wordKind at hkind
  split at hkind
  · cases hkind
  · next k hword =>
    split at hkind
    · cases hkind
    · next hmemory =>
      cases hkind
      obtain ⟨member, separator⟩ := b
      simp only [Bool.or_eq_true, not_or, Bool.not_eq_true] at hmemory
      obtain ⟨⟨_, hseparator⟩, hmember⟩ := hmemory
      exact ⟨by rw [hseparator, hmember], hword⟩

theorem nextIs_alpha (h : Reads inCode b (.keyword word) text rest) : nextIs Char.isAlpha text := by
  obtain ⟨_, hlower⟩ := isIdent_spellings _ (mem_of_lookup h.keyword_eq.2)
  cases text with
  | nil => exact absurd rfl h.text_ne_nil
  | cons c text =>
    have hc : c.toLower.isAlpha := hlower
    by_cases hupper : c.isUpper
    · exact isAlpha_of_isUpper hupper
    · rwa [toLower_of_not_isUpper hupper] at hc

theorem all_isSpace (h : Reads inCode b .whitespace text rest) : text.all isSpace := by
  cases h with
  | code hscan => exact (scanCode_wellFormed hscan).1

theorem not_isTrivia {t : Token} (h : Reads false b t.kind t.text rest) :
    t.isTrivia = false ∧ (t.kind = .inlineHtml → inCodeAfter false t = false) := by
  refine ⟨?_, fun hkind => by simp [inCodeAfter, hkind]⟩
  unfold Token.isTrivia
  generalize t.kind = kind at h
  generalize t.text = text at h
  cases h <;> rfl

theorem kind_of_inCodeAfter (h : Reads inCode b x.kind x.text rest)
    (hcode : inCodeAfter inCode x) : x.kind ≠ .inlineHtml ∧ x.kind ≠ .closeTag := by
  constructor
  · intro hkind
    simp [inCodeAfter, hkind, h.inCode_iff.2 (.inr hkind)] at hcode
  · intro hkind
    simp [inCodeAfter, hkind] at hcode

end Reads

theorem foldl_openTag {tag : Token} (htag : tag.kind = .openTag) (html : List Token)
    (inCode : Bool) (b : Before) :
    (html ++ [tag]).foldl inCodeAfter inCode = true ∧ (html ++ [tag]).foldl Before.next b = {} := by
  constructor
  · rw [foldl_append]
    simp [inCodeAfter, htag]
  · rw [foldl_append]
    simp [Before.next, Token.isTrivia, htag, TokenKind.isTrivia, Token.isPunct]

theorem chain_of_lexemes {source : Text} {tokens : List Token} (h : lexemes source = .ok tokens) :
    Chain false {} tokens [] := by
  have hall : lexFrom false {} 0 source = .ok (tokens ++ []) := by
    rw [append_nil]
    exact h
  exact chain_of_lexFrom hall

namespace Chain

variable {xs : List Token}

theorem getLast? (h : Chain inCode b xs rest) (hx : x ∈ xs.getLast?) :
    ∃ mode memory, Reads mode memory x.kind x.text rest ∧
      xs.foldl inCodeAfter inCode = inCodeAfter mode x := by
  obtain ⟨init, rfl⟩ := getLast?_eq_some_iff.1 hx
  have hlast := (append_iff.1 h).2.1
  rw [serialize_nil, nil_append] at hlast
  exact ⟨_, _, hlast, by rw [foldl_append]; rfl⟩

theorem reads_of_mem (h : Chain inCode b xs rest) (hx : x ∈ xs) :
    ∃ mode memory left, Reads mode memory x.kind x.text left := by
  obtain ⟨before, after, rfl⟩ := append_of_mem hx
  exact ⟨_, _, _, (append_iff.1 h).2.1⟩

theorem isEmpty_serialize (h : Chain inCode b xs rest) : (serialize xs).isEmpty = xs.isEmpty := by
  cases xs with
  | nil => rfl
  | cons t xs =>
    obtain ⟨c, text, htext⟩ := exists_cons_of_ne_nil h.1.text_ne_nil
    rw [serialize_cons, htext]
    rfl

/-- Text and then a tag among the tokens that are not trivia stand at the front of the source. -/
theorem tag_of_significant {out : List Token} {tag : Text} {more : List Shape}
    (h : Chain false b out rest) (hhtml : ∀ t ∈ html, t.kind = .inlineHtml)
    (hshapes : significant out = significant html ++ (.openTag, tag) :: more) :
    ∃ memory post, serialize out = serialize html ++ (tag ++ post) ∧
      Reads false memory .openTag tag (post ++ rest) := by
  induction html generalizing out b with
  | nil =>
    cases out with
    | nil => cases hshapes
    | cons t out =>
      obtain ⟨htrivia, _⟩ := h.1.not_isTrivia
      rw [significant_cons, htrivia] at hshapes
      obtain ⟨hshape, _⟩ := cons.inj hshapes
      obtain ⟨hkind, htext⟩ := Prod.mk.inj hshape
      have hread := h.1
      rw [hkind, htext] at hread
      exact ⟨b, serialize out, by rw [serialize_cons, htext]; rfl, hread⟩
  | cons first html ih =>
    have hfirst : first.kind = .inlineHtml := hhtml first mem_cons_self
    have hplain : first.isTrivia = false := by rw [Token.isTrivia, hfirst]; rfl
    rw [significant_cons, hplain] at hshapes
    cases out with
    | nil => cases hshapes
    | cons t out =>
      obtain ⟨htrivia, hmode⟩ := h.1.not_isTrivia
      rw [significant_cons, htrivia] at hshapes
      obtain ⟨hshape, hlater⟩ := cons.inj hshapes
      obtain ⟨hkind, htext⟩ := Prod.mk.inj hshape
      have hrest := h.2
      rw [hmode (hkind.trans hfirst)] at hrest
      obtain ⟨memory, post, hserialize, hread⟩ :=
        ih hrest (fun u hu => hhtml u (mem_cons_of_mem first hu)) hlater
      refine ⟨memory, post, ?_, hread⟩
      rw [serialize_cons, serialize_cons, hserialize, htext, append_assoc]

end Chain

/-! ## Words and marks -/

theorem nextIs_of_isIdent {p : Char → Bool} (h : isIdent name)
    (hp : ∀ c, isIdentStart c → p c = false) (rest : Text) : nextIs p (name ++ rest) = false := by
  cases name with
  | nil => cases h
  | cons c name => exact hp c (Bool.and_eq_true_iff.1 h).1

theorem not_numeral_of_isIdentStart (h : isIdentStart c) :
    (c.isDigit || c == '.' || c == '\\') = false := by
  rw [not_isDigit_of_isIdentStart h, ne_of_class h (by decide), ne_of_class h (by decide)]
  rfl

theorem take_two_append (hname : name ≠ []) (h : ∀ c ∈ name.take 2, c.toNat < 0x80) :
    ∀ c ∈ (name ++ ':' :: more).take 2, c.toNat < 0x80 := by
  obtain _ | ⟨c, _ | ⟨d, name⟩⟩ := name
  · exact absurd rfl hname
  · simpa using h
  · exact h

theorem taken_ne_nil {taken : Text} (h : tagAfter (taken ++ rest) = .ok (some (taken, rest)))
    (hspace : nextIs isSpace rest = false) : taken ≠ [] := by
  rintro rfl
  rcases tagAfter_eq_some h with ⟨word, tail, hword, hsame, _⟩ | ⟨hnil | ⟨_, hwhite⟩, _⟩
  · rw [(append_eq_nil_iff.1 hword.symm).1] at hsame
    cases hsame
  · cases hnil
  · rw [hspace] at hwhite
    cases hwhite

/-- Tokens in front of a word stand as well in front of another one. -/
theorem Chain.before_word {inCode : Bool} {b : Before} {xs : List Token} {rest : Text}
    (h : Chain inCode b xs rest) (halpha : nextIs Char.isAlpha rest)
    (hcode : xs.foldl inCodeAfter inCode = true) (hname : isIdent name)
    (hascii : (∀ x ∈ xs, x.kind = .openTag → 3 < x.text.length) ∨
      ∀ c ∈ (name ++ more).take 2, c.toNat < 0x80) : Chain inCode b xs (name ++ more) := by
  obtain ⟨c, rest, rfl⟩ := exists_cons_of_nextIs halpha
  have hc : isIdentStart c := by
    have hc : c.isAlpha := halpha
    simp [isIdentStart, hc]
  refine h.of_ends (fun x hx => ?_) (fun _ _ _ => ne_of_class hc (by decide))
    (nextIs_of_isIdent hname (fun _ => not_numeral_of_isIdentStart) _) hascii
  obtain ⟨mode, memory, hread, hmode⟩ := h.getLast? hx
  obtain ⟨hhtml, _⟩ := hread.kind_of_inCodeAfter (hmode ▸ hcode)
  obtain ⟨d, name, rfl⟩ : ∃ d left, name = d :: left := by
    cases name with
    | nil => cases hname
    | cons d name => exact ⟨d, name, rfl⟩
  have hd : isIdentStart d := (Bool.and_eq_true_iff.1 hname).1
  by_cases htag : x.kind = .openTag
  · have hlong := hascii.imp_left fun hlong => hlong x (mem_of_getLast? hx) htag
    rw [htag] at hread ⊢
    obtain ⟨taken, htext, hafter⟩ := hread.openTag_eq
    rw [htext] at hlong ⊢
    refine tagGoesOn_eq_false.2 (tagAfter_of_ends hafter
      (taken_ne_nil hafter (not_isSpace_of_isIdentStart hc)) (cons_ne_nil _ _)
      (ne_of_class hd (by decide)) fun hshort => hlong.resolve_left fun hlong => ?_)
    simp only [length_cons] at hlong
    omega
  · exact goesOn_before_word halpha hd ⟨htag, hhtml⟩ hread.not_goesOn

theorem goesOn_mark (hc : ∀ mark ∈ longMarks, mark.head? ≠ some c) (hdollar : c ≠ '$')
    (hpoint : c ≠ '.') (rest : Text) : goesOn .punctuation [c] rest = false := by
  refine markGoesOn_eq_false.2 ⟨fun mark hmark hlength hprefix => hc mark hmark ?_, ?_, ?_⟩
  · obtain ⟨left, hleft⟩ := hprefix
    cases mark with
    | nil => cases hlength
    | cons d mark => rw [(cons.inj hleft).1]; rfl
  · intro heq
    exact absurd (cons.inj heq).1 hdollar
  · intro heq
    exact absurd (cons.inj heq).1 hpoint

/-- The last of the tokens is read as it is in front of the text. -/
def endsBefore (ts : List Token) (text : Text) : Bool :=
  ts.getLast?.all fun t => !goesOn t.kind t.text text

/-- Tokens in front of a mark that stops them, and of what follows the mark. -/
theorem readsAs_stopped {ts : List Token} (hc : isStop c) (hchain : Chain true {} ts rest)
    (hsep : nextIs (· == '\\') rest = false) (hends : endsBefore ts [c])
    (hcode : ts.foldl inCodeAfter true = true)
    (hmore : nextIs (fun d => d.isDigit || d == '.' || d == '\\') more = false)
    (hascii : ∀ d ∈ more.take 2, d.toNat < 0x80) (h : ReadsAs true {} more shapes) :
    ReadsAs true {} (serialize ts ++ c :: more)
      (significant ts ++ (.punctuation, [c]) :: shapes) := by
  have hstop : (c.isDigit || c == '.' || c == '\\') = false ∧ c.toNat < 0x80 ∧
      (∀ long ∈ longMarks, long.head? ≠ some c) ∧ c ≠ '$' ∧ c ≠ '.' ∧
      ∀ b : Before, b.next ⟨.punctuation, [c], 0⟩ = {} := by
    obtain rfl | rfl | rfl | rfl := isStop_iff.1 hc <;>
      exact ⟨by decide, by decide, by decide, by decide, by decide, fun _ => rfl⟩
  obtain ⟨hplain, hlt, hlong, hdollar, hpoint, hnext⟩ := hstop
  have hmark : Chain true {} ts [c] := by
    refine hchain.of_ends (fun t ht => ?_) (fun _ _ _ => hsep) hplain (.inr ?_)
    · rw [endsBefore, ht] at hends
      simpa using hends
    · simpa using hlt
  have hread : ∀ b, Reads true b .punctuation [c] [] := fun b =>
    .code (scanCode_loneMark (by simp [isLoneMark, hc]) b 0 [])
  have hpair : Chain true {} (ts ++ [⟨.punctuation, [c], 0⟩]) [] :=
    Chain.append_iff.2 ⟨hmark, by rw [hcode]; exact ⟨hread _, trivial⟩⟩
  have hagain : Chain true {} (ts ++ [⟨.punctuation, [c], 0⟩]) more := by
    refine hpair.of_ends (fun t ht => ?_) (fun _ _ _ => rfl) hmore (.inr hascii)
    obtain rfl : _ = t := by simpa using ht
    exact goesOn_mark hlong hdollar hpoint more
  have hend : ReadsAs ((ts ++ [(⟨.punctuation, [c], 0⟩ : Token)]).foldl inCodeAfter true)
      ((ts ++ [(⟨.punctuation, [c], 0⟩ : Token)]).foldl Before.next {}) more shapes := by
    rw [foldl_append, foldl_append, hcode, foldl_cons, foldl_cons, hnext]
    exact h
  have hall := ReadsAs.of_chain hagain hend
  rw [serialize_append, append_assoc, significant_append, append_assoc] at hall
  exact hall

/-! ## Line breaks and tags -/

/-- White space and stops end a token of the code, but white space goes on and so does a comment
through its line. -/
theorem goesOn_before (text more : Text) (hc : isSpace c ∨ isStop c)
    (hkind : kind ≠ .openTag ∧ kind ≠ .inlineHtml ∧ kind ≠ .closeTag)
    (hspace : kind = .whitespace → isSpace c = false)
    (hcomment : kind = .comment → startsWith text ['/', '*'] ∨ c = '\n') :
    goesOn kind text (c :: more) = false := by
  obtain ⟨htag, hhtml, hclose⟩ := hkind
  have hclass : isIdentChar c = false ∧ (∀ mark ∈ longMarks, c ∉ mark) ∧ isIdentStart c = false ∧
      c.isDigit = false ∧ (c.isAlphanum || c == '_' || c == '.') = false ∧
      (c == '+' || c == '-') = false := by
    rw [isSpace_iff, isStop_iff] at hc
    obtain (rfl | rfl | rfl | rfl | rfl) | rfl | rfl | rfl | rfl := hc <;> decide
  obtain ⟨hident, hmarks, hstart, hdigit, hnumber, hsign⟩ := hclass
  unfold goesOn
  split
  · exact hspace rfl
  · rcases hcomment rfl with hblock | rfl
    · rw [hblock]
      rfl
    · rw [isEmpty_lineComment]
      exact Bool.and_false _
  · exact hident
  · exact hident
  · exact hident
  · rw [isEmpty_numberRest, hnumber, hsign]
    rfl
  · rw [nextIs, hident, Bool.and_false]
  · exact markGoesOn_of_not_mem hmarks (fun _ => hstart) fun _ => hdigit
  · exact absurd rfl htag
  · exact absurd rfl hclose
  · exact absurd rfl hhtml
  · rfl
  · rfl

theorem ascii_of_isSpace (h : isSpace c) : c.toNat < 0x80 := by
  obtain rfl | rfl | rfl | rfl | rfl := isSpace_iff.1 h <;> decide

theorem not_numeral_of_isSpace (h : isSpace c) : (c.isDigit || c == '.' || c == '\\') = false := by
  obtain rfl | rfl | rfl | rfl | rfl := isSpace_iff.1 h <;> rfl

/-- White space behind a token may be longer, before a line break. -/
theorem goesOn_more_space {white : Text} (h : Reads inCode b x.kind x.text white)
    (hcode : inCodeAfter inCode x) (hwhite : white.all isSpace) (hne : white ≠ [])
    (hbreak : nextIs (· == '\n') more) (hascii : ∀ c ∈ more.take 2, c.toNat < 0x80) :
    goesOn x.kind x.text (white ++ more) = false := by
  obtain ⟨hhtml, hclose⟩ := h.kind_of_inCodeAfter hcode
  have hdigit : nextIs (fun c => c.isDigit || c == '.') more = false := by
    cases more with
    | nil => rfl
    | cons c more => rw [eq_of_beq hbreak]; rfl
  rw [← append_nil white] at h
  refine h.ends_ahead hhtml hne (fun _ _ _ => hascii) fun c hc =>
    ⟨hdigit, ?_, fun heq => absurd heq hclose⟩
  rintro _ rfl
  rw [hc] at hwhite
  cases hwhite

/-- The last token of a unit in front of a line break. An open tag may take the break. -/
def quietEnd (ts : List Token) : Bool :=
  !(ts.foldl Before.next {}).member &&
    ts.getLast?.all fun t => t.kind != .openTag || !goesOn t.kind t.text ['\n', '\n']

/-- A stretch that ends in code, with line breaks and a word behind it. -/
theorem readsAs_break (h : Chain true {} last []) (hcode : last.foldl inCodeAfter true = true)
    (hquiet : quietEnd last) (hmore : ∀ c ∈ more.take 2, c.toNat < 0x80)
    (hread : ∀ b : Before, b.member = false → ReadsAs true b ('\n' :: '\n' :: more) shapes) :
    ReadsAs true {} (serialize last ++ '\n' :: '\n' :: more) (significant last ++ shapes) := by
  obtain ⟨hmember, htag⟩ := Bool.and_eq_true_iff.1 hquiet
  rw [Bool.not_eq_true'] at hmember
  by_cases hwhite : ∃ x ∈ last.getLast?, x.kind = .whitespace
  · -- the white space at the end goes on
    obtain ⟨x, hx, hkind⟩ := hwhite
    obtain ⟨init, rfl⟩ := getLast?_eq_some_iff.1 hx
    obtain ⟨hinit, hlast, _⟩ := Chain.append_iff.1 h
    rw [foldl_append] at hcode hmember
    have hmode : init.foldl inCodeAfter true = true := hlast.inCode_eq (by simp [hkind])
    have htrivia : x.isTrivia := by rw [Token.isTrivia, hkind]; rfl
    rw [serialize_cons, serialize_nil, append_nil, append_nil] at hinit
    have hne := hlast.text_ne_nil
    rw [hkind] at hlast
    have hall := hlast.all_isSpace
    have hagain : Chain true {} init (x.text ++ '\n' :: '\n' :: more) := by
      refine hinit.of_ends (fun y hy => ?_) (fun _ _ _ => ?_) ?_ (.inr ?_)
      · obtain ⟨mode, memory, hy, hafter⟩ := hinit.getLast? hy
        exact goesOn_more_space hy (hafter ▸ hmode) hall hne rfl (by simp)
      all_goals obtain ⟨c, white, htext⟩ := exists_cons_of_ne_nil hne
      all_goals rw [htext, all_cons, Bool.and_eq_true] at hall
      all_goals rw [htext]
      · exact (Bool.or_eq_false_iff.1 (not_numeral_of_isSpace hall.1)).2
      · exact not_numeral_of_isSpace hall.1
      · cases white with
        | nil => simpa using ascii_of_isSpace hall.1
        | cons d white =>
          rw [all_cons, Bool.and_eq_true] at hall
          simpa using ⟨ascii_of_isSpace hall.1, ascii_of_isSpace hall.2.1⟩
    have hspaces : ReadsAs (init.foldl inCodeAfter true) (init.foldl Before.next {})
        (x.text ++ '\n' :: '\n' :: more) shapes := by
      rw [hmode]
      refine .spaces hall hne (hread _ ?_)
      simpa [Before.next, htrivia] using hmember
    have hreads := ReadsAs.of_chain hagain hspaces
    rw [serialize_append, significant_append, significant_cons, htrivia, append_assoc]
    simpa using hreads
  · have hagain : Chain true {} last ('\n' :: '\n' :: more) := by
      refine h.of_ends (fun x hx => ?_) (fun _ _ _ => rfl) rfl (.inr (by simp))
      obtain ⟨mode, memory, hx', hafter⟩ := h.getLast? hx
      obtain ⟨hhtml, hclose⟩ := hx'.kind_of_inCodeAfter (hafter ▸ hcode)
      by_cases hkind : x.kind = .openTag
      · have hends : goesOn x.kind x.text ['\n', '\n'] = false := by
          rw [hx] at htag
          simpa [hkind] using htag
        rw [hkind] at hx' hends ⊢
        obtain ⟨taken, htext, _⟩ := hx'.openTag_eq
        rw [htext] at hends ⊢
        exact tagGoesOn_eq_false.2 (tagAfter_ahead (u := ['\n', '\n']) (by simp)
          (fun _ _ => hmore) (tagGoesOn_eq_false.1 hends))
      · exact goesOn_before _ _ (.inl rfl) ⟨hkind, hhtml, hclose⟩
          (fun heq => absurd ⟨x, hx, heq⟩ hwhite) fun _ => .inr rfl
    refine .of_chain hagain ?_
    rw [hcode]
    exact hread _ hmember

/-- A stretch that ends outside the code, with an open tag behind it. -/
theorem readsAs_reopened (h : Chain true {} last []) (hclosed : last.foldl inCodeAfter true = false)
    (hread : ReadsAs true {} more shapes) :
    ReadsAs true {} (serialize last ++ ("<?php\n".toList ++ more))
      (significant last ++ (.openTag, "<?php\n".toList) :: shapes) := by
  have htag : tagAfter (['p', 'h', 'p'] ++ ['\n'] ++ more) =
      .ok (some (['p', 'h', 'p'] ++ ['\n'], more)) := tagAfter_long rfl (longTagEnd_cons rfl nofun)
  have hagain : Chain true {} last ("<?php\n".toList ++ more) := by
    refine h.of_ends (fun x hx => ?_) (fun _ _ _ => rfl) rfl (.inr (by simp))
    obtain ⟨mode, memory, hx', hafter⟩ := h.getLast? hx
    rw [hclosed] at hafter
    -- a close tag, or text behind one
    by_cases hclose : x.kind = .closeTag
    · rw [hclose]
      exact Bool.and_false _
    · have hopen : x.kind ≠ .openTag := fun hopen => by simp [inCodeAfter, hopen] at hafter
      have hmode : mode = false := by simpa [inCodeAfter, hopen, hclose] using hafter.symm
      have hhtml := (hx'.inCode_iff.1 hmode).resolve_left hopen
      rw [hhtml] at hx' ⊢
      exact htmlGoesOn_of_plain ((plain_of_htmlGoesOn hx'.not_goesOn).ahead rfl) htag
  refine .of_chain hagain ?_
  rw [hclosed]
  exact ReadsAs.cons (.tag htag) hread

/-- The text through the first open tag, with a word of the code behind it. -/
theorem readsAs_head (h : Chain false {} (html ++ [tag]) rest) (htag : tag.kind = .openTag)
    (hrest : rest ≠ []) (hshort : tag.text ≠ ['<', '?']) (hword : nextIs isIdentStart more)
    (hascii : ∀ c ∈ more.take 2, c.toNat < 0x80) (hread : ReadsAs true {} more shapes) :
    ReadsAs false {} (serialize (html ++ [tag]) ++ more)
      (significant (html ++ [tag]) ++ shapes) := by
  obtain ⟨c, more, rfl⟩ := exists_cons_of_nextIs hword
  have hagain : Chain false {} (html ++ [tag]) (c :: more) := by
    refine h.of_ends (fun x hx => ?_) (fun x hx hx' => ?_) (not_numeral_of_isIdentStart hword)
      (.inr hascii)
    all_goals obtain rfl : tag = x := by simpa using hx
    · obtain ⟨mode, memory, hlast, _⟩ := h.getLast? hx
      rw [htag] at hlast ⊢
      obtain ⟨taken, htext, hafter⟩ := hlast.openTag_eq
      rw [htext] at hshort ⊢
      refine tagGoesOn_eq_false.2 (tagAfter_of_ends hafter ?_ hrest
        (ne_of_class (p := isIdentStart) hword (by decide)) fun _ => hascii)
      rintro rfl
      exact hshort rfl
    · simp [Token.isWord, htag] at hx'
  refine .of_chain hagain ?_
  rw [(foldl_openTag htag html false {}).1, (foldl_openTag htag html false {}).2]
  exact hread

end LegacyPhp
