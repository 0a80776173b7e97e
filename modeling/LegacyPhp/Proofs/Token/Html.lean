import LegacyPhp.Proofs.Token.LastCharacter
import LegacyPhp.Proofs.Token.Relex

/-!
# The text outside the code

`html?` is what the lexer takes for text outside the code, put together. Code hardly counts for it:
a character of the code matters only where it opens something that is read as a whole, a close tag,
a comment, a literal or a heredoc (`opensWhole`), and any other one can be left out (`html?_cons`).
So a piece of code may run into what follows it, as `a` into `b`, or `+` into `+`, and nothing is
lost of the text. What must not happen is that two characters open something where they meet
(`meets`).

From this follows what every kind of token does in front of another text: code is passed over
(`Reads.html?_code`), a close tag leads out (`Reads.html?_close`), an open tag leads in
(`StartsWithTag.html?_eq`), and text in front of a tag is added (`Reads.html?_text`).
-/

namespace LegacyPhp

open Text Scan Closure List

variable {pos : Nat} {s : Scanned} {cs rest more text : Text} {kind : TokenKind} {c : Char}
  {inCode : Bool} {b : Before}

/-- The text outside the code among tokens. -/
def htmlOf (ts : List Token) : Text :=
  ts.flatMap fun t => if t.kind == .inlineHtml then t.text else []

@[simp] theorem htmlOf_nil : htmlOf [] = [] := rfl

@[simp] theorem htmlOf_cons (t : Token) (ts : List Token) :
    htmlOf (t :: ts) = (if t.kind == .inlineHtml then t.text else []) ++ htmlOf ts := by
  simp [htmlOf]

@[simp] theorem htmlOf_append (ts us : List Token) :
    htmlOf (ts ++ us) = htmlOf ts ++ htmlOf us := by
  simp [htmlOf]

/-- The text outside the code in a text that starts inside or outside of it, if that can be read. -/
def html? (inCode : Bool) (cs : Text) : Option Text :=
  (lexFrom inCode {} 0 cs).toOption.map htmlOf

theorem toOption_map {ε α β : Type} (f : α → β) (x : Except ε α) :
    (x.map f).toOption = x.toOption.map f := by
  cases x <;> rfl

/-- A text is read with any memory if it is with one, with the same text outside the code. -/
theorem Chain.exists_html {xs : List Token} (h : Chain inCode b xs []) (b' : Before) (pos : Nat) :
    ∃ ts, lexFrom inCode b' pos (serialize xs) = .ok ts ∧ htmlOf ts = htmlOf xs := by
  induction xs generalizing inCode b b' pos with
  | nil => exact ⟨[], by rw [serialize_nil, lexFrom], rfl⟩
  | cons x xs ih =>
    obtain ⟨hread, hrest⟩ := h
    rw [append_nil] at hread
    have hagain : Reads inCode b' (kindIn b' x.text (serialize xs) x.kind) x.text (serialize xs) :=
      hread.of_ends hread.not_goesOn
    -- only the kind of a word may change
    have hsame : ∀ {α : Type} (f : TokenKind → α), (∀ word, f (.keyword word) = f .identifier) →
        f (kindIn b' x.text (serialize xs) x.kind) = f x.kind := fun f hf => kindIn_same f hf ..
    generalize kindIn b' x.text (serialize xs) x.kind = kind at hagain hsame
    obtain ⟨ts, hts, htext⟩ := ih hrest (b'.next ⟨kind, x.text, pos⟩) (pos + byteLength x.text)
    refine ⟨⟨kind, x.text, pos⟩ :: ts, ?_, ?_⟩
    · rw [serialize_cons, hagain.lexFrom_eq,
        hsame (fun kind => inCodeAfter inCode ⟨kind, x.text, pos⟩) fun _ => rfl]
      exact congrArg (Except.map _) hts
    · rw [htmlOf_cons, htmlOf_cons, htext, hsame (· == .inlineHtml) fun _ => rfl]

/-- The text outside the code does not depend on what the lexer remembers or on where it stands. -/
theorem lexFrom_html (inCode : Bool) (b : Before) (pos : Nat) (cs : Text) :
    (lexFrom inCode b pos cs).toOption.map htmlOf = html? inCode cs := by
  have hagain : ∀ {b pos ts}, lexFrom inCode b pos cs = .ok ts → ∀ b' pos',
      ∃ us, lexFrom inCode b' pos' cs = .ok us ∧ htmlOf us = htmlOf ts := by
    intro b pos ts h b' pos'
    have hchain : Chain inCode b ts [] := chain_of_lexFrom (by rw [append_nil]; exact h)
    rw [← (lexFrom_tiles h).serialize_eq]
    exact hchain.exists_html b' pos'
  unfold html?
  cases h : lexFrom inCode b pos cs with
  | ok ts =>
    obtain ⟨us, hus, hsame⟩ := hagain h {} 0
    rw [hus]
    exact congrArg some hsame.symm
  | error e =>
    cases h' : lexFrom inCode {} 0 cs with
    | error e' => rfl
    | ok ts =>
      obtain ⟨us, hus, _⟩ := hagain h' b pos
      rw [h] at hus
      cases hus

@[simp] theorem html?_nil (inCode : Bool) : html? inCode [] = some [] := by
  rw [html?, lexFrom]
  rfl

theorem Reads.html?_eq (h : Reads inCode b kind text rest) :
    html? inCode (text ++ rest) =
      (html? (inCodeAfter inCode ⟨kind, text, 0⟩) rest).map
        ((if kind == .inlineHtml then text else []) ++ ·) := by
  rw [← lexFrom_html inCode b 0, h.lexFrom_eq, toOption_map, Option.map_map,
    ← lexFrom_html _ (b.next ⟨kind, text, 0⟩) (0 + byteLength text), Option.map_map]
  congr 1

/-! ## Characters of the code -/

/-- Whether a character of the code opens what is read as a whole: a close tag, a comment, a literal
or a heredoc. -/
def opensWhole (c : Char) (rest : Text) : Bool :=
  (c == '?' && nextIs (· == '>') rest) || c == '#' ||
    (c == '/' && nextIs (fun d => d == '/' || d == '*') rest) || c == '\'' || c == '"' ||
    c == '\x60' || (c == '<' && startsWith rest ['<', '<'])

/-- The characters that may open something. -/
def openers : Text := ['?', '#', '/', '\'', '"', '\x60', '<']

theorem mem_openers_of_opensWhole (h : opensWhole c rest) : c ∈ openers := by
  simp only [opensWhole, Bool.or_eq_true, Bool.and_eq_true, beq_iff_eq] at h
  simp only [openers, mem_cons, not_mem_nil, or_false]
  grind

/-- None of the characters opens anything, with `rest` behind them. -/
def inert : Text → Text → Bool
  | [], _ => true
  | c :: cs, rest => !opensWhole c (cs ++ rest) && inert cs rest

theorem inert_of_all {p : Char → Bool} (hp : ∀ c ∈ openers, p c = false) (h : cs.all p)
    (rest : Text) : inert cs rest := by
  induction cs with
  | nil => rfl
  | cons c cs ih =>
    rw [all_cons, Bool.and_eq_true] at h
    have hc : opensWhole c (cs ++ rest) = false := by
      refine Bool.eq_false_iff.2 fun hopens => ?_
      rw [hp c (mem_openers_of_opensWhole hopens)] at h
      cases h.1
    simp [inert, hc, ih h.2]

theorem not_isIdentChar_of_mem_openers : ∀ c ∈ openers, isIdentChar c = false :=
  forall_mem_of_all (by decide)

/-- The characters that open something where they meet. -/
def meets : Option Char → Option Char → Bool
  | some c, some d => [('?', '>'), ('/', '/'), ('/', '*'), ('<', '<')].contains (c, d)
  | _, _ => false

theorem exists_of_meets {a b : Option Char} (h : meets a b) : ∃ c d, a = some c ∧ b = some d ∧
      (c, d) ∈ [('?', '>'), ('/', '/'), ('/', '*'), ('<', '<')] := by
  unfold meets at h
  split at h
  · next c d => exact ⟨c, d, rfl, rfl, contains_iff_mem.1 h⟩
  · cases h

theorem not_meets_of_not_mem {d : Char} (h : d ∉ ['>', '/', '*', '<']) (a : Option Char) :
    meets a (some d) = false := by
  refine Bool.eq_false_iff.2 fun hmeets => h ?_
  obtain ⟨c, e, _, hd, hpair⟩ := exists_of_meets hmeets
  have hall : ∀ p ∈ [('?', '>'), ('/', '/'), ('/', '*'), ('<', '<')],
      p.2 ∈ ['>', '/', '*', '<'] := by decide
  rw [Option.some.inj hd]
  exact hall (c, e) hpair

theorem not_meets_of_not_mem_left (h : c ∉ ['?', '/', '<']) (b : Option Char) :
    meets (some c) b = false := by
  refine Bool.eq_false_iff.2 fun hmeets => h ?_
  obtain ⟨e, d, hc, _, hpair⟩ := exists_of_meets hmeets
  have hall : ∀ p ∈ [('?', '>'), ('/', '/'), ('/', '*'), ('<', '<')], p.1 ∈ ['?', '/', '<'] := by
    decide
  rw [Option.some.inj hc]
  exact hall (e, d) hpair

@[simp] theorem meets_none_left (b : Option Char) : meets none b = false := rfl

@[simp] theorem meets_none_right (a : Option Char) : meets a none = false := by
  cases a <;> rfl

/-- An operator opens nothing unless its last character does. -/
theorem inert_operator {op : Text} (hop : op ∈ operators)
    (hmore : meets op.getLast? more.head? = false) : inert op more := by
  -- two angle brackets are the only operator that may open something with what follows
  by_cases hshift : op = ['<', '<']
  · subst hshift
    cases more with
    | nil => rfl
    | cons d more =>
      have hd : '<' ≠ d := by
        rintro rfl
        cases hmore
      simp [inert, opensWhole, startsWith, after?, nextIs, hd]
  · have hall : ∀ op ∈ operators, op ≠ ['<', '<'] → op.all (!openers.contains ·) ∨
        op ∈ [['<', '<', '='], ['<', '>'], ['<', '='], ['/', '=']] := by decide
    rcases hall op hop hshift with hplain | hfew
    · exact inert_of_all (forall_mem_of_all (by decide)) hplain more
    · simp only [mem_cons, not_mem_nil, or_false] at hfew
      rcases hfew with rfl | rfl | rfl | rfl <;> rfl

/-- A character that opens nothing and is no comma. -/
def isInertChar (c : Char) : Bool := !(',' :: openers).contains c

/-- What a token of the code is made of if it is not delimited. -/
inductive Undelimited : TokenKind → Text → Prop
  | plain {kind : TokenKind} {text : Text} (h : text.all isInertChar) :
      Undelimited kind text
  | mark {c : Char} (h : c ≠ '#' ∧ c ≠ '\'' ∧ c ≠ '"' ∧ c ≠ '\x60') :
      Undelimited .punctuation [c]
  | operator {op : Text} (h : op ∈ operators) : Undelimited .punctuation op

/-- A token is delimited if a comment or a literal, a close tag if neither. -/
theorem scanCode_undelimited (h : scanCode b pos c rest = .ok s) :
    Undelimited s.kind s.text ∨ s.kind = .closeTag ∨ s.kind = .comment ∨ s.kind = .docComment ∨
      s.kind = .stringLiteral := by
  have hchars : ∀ {p : Char → Bool} {cs : Text}, (∀ c ∈ ',' :: openers, p c = false) →
      cs.all p → cs.all isInertChar := by
    intro p cs hp hcs
    rw [all_eq_true] at hcs ⊢
    intro d hd
    have hno : d ∉ ',' :: openers := fun hmem => by
      have hpd := hcs d hd
      rw [hp d hmem] at hpd
      cases hpd
    rw [isInertChar, Bool.not_eq_true']
    exact Bool.eq_false_iff.2 fun hmem => hno (contains_iff_mem.1 hmem)
  obtain ⟨kind, text, left⟩ := s
  cases scans_of_scanCode h with
  | closeTag => exact .inr (.inl rfl)
  | lineComment | comment => exact .inr (.inr (.inl rfl))
  | docComment => exact .inr (.inr (.inr (.inl rfl)))
  | single | double | heredoc => exact .inr (.inr (.inr (.inr rfl)))
  | whitespace hc hrun =>
    exact .inl (.plain (hchars (forall_mem_of_all (by decide)) (all_cons_run hc hrun)))
  | var hc _ hrun =>
    refine .inl (.plain ?_)
    rw [all_cons, hchars (forall_mem_of_all (by decide)) (all_of_run hrun), hc]
    rfl
  | identifier hc hrun | keyword hc hrun =>
    have hall := all_cons_run (isIdentChar_of_isIdentStart hc) hrun
    exact .inl (.plain (hchars (forall_mem_of_all (by decide)) hall))
  | number hc hnumber =>
    exact .inl (.plain (hchars (forall_mem_of_all (by decide)) (all_number hc hnumber)))
  | mark hmark _ _ _ hquote =>
    rcases mark_eq_or_mem hmark with rfl | hop
    · exact .inl (.mark hquote)
    · exact .inl (.operator hop)

namespace Undelimited

variable {text : Text}

/-- Such a token opens nothing unless its last character does. -/
theorem inert (h : Undelimited kind text) (hmore : meets text.getLast? more.head? = false) :
    inert text more := by
  cases h with
  | plain hplain => exact inert_of_all (forall_mem_of_all (by decide)) hplain more
  | operator hop => exact inert_operator hop hmore
  | @mark c hc =>
    have hopens : opensWhole c more = false := by
      refine Bool.eq_false_iff.2 fun hopens => ?_
      simp only [opensWhole, hc, Bool.or_eq_true, Bool.and_eq_true, beq_iff_eq, or_false,
        startsWith_iff] at hopens
      cases more with
      | nil => simp [nextIs] at hopens
      | cons d more =>
        simp only [nextIs, Bool.or_eq_true, beq_iff_eq, cons_prefix_cons] at hopens
        rcases hopens with (⟨rfl, rfl⟩ | ⟨rfl, rfl | rfl⟩) | ⟨rfl, rfl, _⟩ <;>
          simp [meets] at hmore
    simp [LegacyPhp.inert, hopens]

/-- It opens nothing with what the lexer leaves behind it. -/
theorem not_meets (h : Undelimited kind text) (hgo : goesOn kind text more = false) :
    meets text.getLast? more.head? = false := by
  refine Bool.eq_false_iff.2 fun hmeets => ?_
  obtain ⟨c, d, hlast, hhead, hpair⟩ := exists_of_meets hmeets
  obtain ⟨more, rfl⟩ : ∃ left, more = d :: left := by
    cases more with
    | nil => cases hhead
    | cons e left => cases hhead; exact ⟨left, rfl⟩
  -- the last character is one of three, and makes a longer mark with the next one
  have hmark : ∀ p ∈ [('?', '>'), ('/', '/'), ('/', '*'), ('<', '<')],
      [p.1, p.2] ∈ longMarks ∧ openers.contains p.1 ∧
        ∀ op ∈ operators, op.getLast? = some p.1 → op = ['<', '<'] ∧ p.2 = '<' := by decide
  obtain ⟨hlong, hopener, hoperator⟩ := hmark _ hpair
  cases h with
  | plain hplain =>
    have hno := all_eq_true.1 hplain c (mem_of_getLast? hlast)
    rw [isInertChar, contains_cons, hopener, Bool.or_true] at hno
    cases hno
  | mark =>
    cases hlast
    exact (markGoesOn_eq_false.1 hgo).1 _ hlong (by simp) ⟨more, rfl⟩
  | operator hop =>
    obtain ⟨rfl, hd⟩ := hoperator _ hop hlast
    obtain rfl : d = '<' := hd
    exact (markGoesOn_eq_false.1 hgo).1 ['<', '<', '<'] (by decide) (by decide) ⟨more, rfl⟩

theorem eq_comma (h : Undelimited kind text) (hlast : text.getLast? = some ',') :
    kind = .punctuation ∧ text = [','] := by
  cases h with
  | plain hplain =>
    have hno := all_eq_true.1 hplain ',' (mem_of_getLast? hlast)
    cases hno
  | mark =>
    cases hlast
    exact ⟨rfl, rfl⟩
  | operator hop =>
    have hall : ∀ op ∈ operators, op.getLast? ≠ some ',' := by decide
    exact absurd hlast (hall _ hop)

end Undelimited

/-- A character that opens nothing is the start of a token that is not delimited. -/
theorem exists_scanCode (h : opensWhole c rest = false) :
    ∃ s, scanCode {} 0 c rest = .ok s ∧ Undelimited s.kind s.text ∧ s.kind ≠ .closeTag ∧
      s.kind ≠ .comment ∧ s.kind ≠ .docComment ∧ s.kind ≠ .stringLiteral := by
  simp only [opensWhole, Bool.or_eq_false_iff] at h
  obtain ⟨⟨⟨⟨⟨⟨hclose, hhash⟩, hslash⟩, hsingle⟩, hdouble⟩, hback⟩, hangle⟩ := h
  have hline : (c == '/' && nextIs (· == '/') rest) = false := by
    cases rest <;> simp_all [nextIs]
  have hblock : (c == '/' && nextIs (· == '*') rest) = false := by
    cases rest <;> simp_all [nextIs]
  have hmark : ∃ s, scanMark 0 c rest = .ok s ∧ s.kind = .punctuation := by
    have hno : after? ['<', '<', '<'] (c :: rest) = none := by
      rw [after?_eq_none]
      intro hstarts
      obtain ⟨hc, hrest⟩ := cons_prefix_cons.1 hstarts
      rw [← hc, startsWith_iff.2 hrest] at hangle
      cases hangle
    exact ⟨_, scanMark_of_after? hno 0, rfl⟩
  -- the kinds that are left are not delimited
  have hkinds : ∃ s, scanCode {} 0 c rest = .ok s ∧ s.kind ≠ .closeTag ∧ s.kind ≠ .comment ∧
      s.kind ≠ .docComment ∧ s.kind ≠ .stringLiteral := by
    simp only [scanCode, hclose, hhash, hline, hblock, hsingle, hdouble, hback, Bool.or_false,
      Bool.false_eq_true, if_false]
    split
    · exact ⟨_, rfl, by simp [Scanned.of]⟩
    split
    · exact ⟨_, rfl, by simp [Scanned.of]⟩
    split
    · refine ⟨_, rfl, ?_⟩
      rcases wordKind_cases {} (c :: (run isIdentChar rest).1) (run isIdentChar rest).2 with
        hkind | ⟨_, hkind⟩ <;> simp [Scanned.of, hkind]
    split
    · exact ⟨_, rfl, by simp [Scanned.of]⟩
    · obtain ⟨s, hs, hkind⟩ := hmark
      exact ⟨s, hs, by simp [hkind]⟩
  obtain ⟨s, hs, hne⟩ := hkinds
  refine ⟨s, hs, ?_, hne⟩
  rcases scanCode_undelimited hs with hund | hkind | hkind | hkind | hkind
  · exact hund
  · exact absurd hkind hne.1
  · exact absurd hkind hne.2.1
  · exact absurd hkind hne.2.2.1
  · exact absurd hkind hne.2.2.2

theorem html?_inert_of {n : Nat} (ih : ∀ c rest, List.length rest < n → opensWhole c rest = false →
      html? true (c :: rest) = html? true rest) {rest : Text} (hlength : (cs ++ rest).length ≤ n)
    (h : inert cs rest) : html? true (cs ++ rest) = html? true rest := by
  induction cs with
  | nil => rfl
  | cons c cs ihcs =>
    simp only [inert, Bool.and_eq_true, Bool.not_eq_true'] at h
    rw [cons_append, length_cons] at hlength
    rw [cons_append, ih c (cs ++ rest) (by omega) h.1]
    exact ihcs (by omega) h.2

/-- A character of the code that opens nothing can be left out. -/
theorem html?_cons (h : opensWhole c rest = false) : html? true (c :: rest) = html? true rest := by
  generalize hn : rest.length = n
  induction n using Nat.strongRecOn generalizing c rest with
  | _ n ih =>
  subst hn
  obtain ⟨s, hs, hund, hkind⟩ := exists_scanCode h
  obtain ⟨hcover, hne⟩ := scanCode_covers hs
  have hread := (Reads.of_scanCode hs).html?_eq
  have hinert := hund.inert (hund.not_meets (goesOn_of_scanCode hs))
  obtain ⟨d, cs, htext⟩ := exists_cons_of_ne_nil hne
  rw [htext] at hcover hinert
  obtain ⟨rfl, rfl⟩ := cons.inj hcover
  simp only [inert, Bool.and_eq_true] at hinert
  -- the rest of the token is shorter, and none of it opens anything
  have hrest : html? true (cs ++ s.rest) = html? true s.rest :=
    html?_inert_of (fun c rest hlt hc => ih _ hlt hc rfl) (Nat.le_refl _) hinert.2
  have hcode : inCodeAfter true ⟨s.kind, d :: cs, 0⟩ := by
    rw [inCodeAfter_true]
    exact bne_iff_ne.2 hkind.1
  rw [htext, hcode, beq_eq_false_iff_ne.2 (scanCode_kind hs).2] at hread
  show html? true (d :: cs ++ s.rest) = html? true (cs ++ s.rest)
  rw [hrest, hread]
  simp

theorem html?_inert (h : inert cs rest) : html? true (cs ++ rest) = html? true rest :=
  html?_inert_of (fun _ _ _ => html?_cons) (Nat.le_refl _) h

/-! ## Tokens of the code -/

/-- The end of a token that may open something with what follows. A literal or a comment is closed
by its own mark. -/
def openEnd (kind : TokenKind) (text : Text) : Option Char :=
  match kind with
  | .stringLiteral | .docComment => none
  | _ => text.getLast?

theorem blockComment_last {parts : Text × Text} (h : blockComment cs = some parts) :
    ∃ inner, parts.1 = inner ++ ['/'] := by
  have hfinds := blockComment_finds cs
  rw [h] at hfinds
  obtain ⟨body, hbody⟩ := hfinds.2.1
  exact ⟨body ++ ['*'], by simp [hbody]⟩

/-- Whether a literal is a heredoc, which ends with a label. -/
def isHeredoc (kind : TokenKind) (text : Text) : Bool :=
  kind == .stringLiteral && startsWith text ['<']

namespace Reads

variable {b : Before} {text : Text}

theorem undelimited (h : Reads true b kind text rest) (hkind : kind ≠ .closeTag ∧ kind ≠ .comment) :
    Undelimited kind text ∨ kind = .docComment ∨ kind = .stringLiteral := by
  cases h with
  | code h =>
    rcases scanCode_undelimited h with hund | hclose | hcomment | hdelimited
    · exact .inl hund
    · exact absurd hclose hkind.1
    · exact absurd hcomment hkind.2
    · exact .inr hdelimited

/-- A token of the code can be left out, wherever it stands. -/
theorem html?_code (h : Reads true b kind text rest) (hkind : kind ≠ .closeTag ∧ kind ≠ .comment)
    (hmeets : meets (openEnd kind text) more.head? = false)
    (hlabel : isHeredoc kind text → nextIs isIdentChar more = false) :
    html? true (text ++ more) = html? true more := by
  have hread : goesOn kind text more = false → kind = .docComment ∨ kind = .stringLiteral →
      html? true (text ++ more) = html? true more := by
    intro hgo hdelimited
    have hagain : Reads true b (kindIn b text more kind) text more := h.of_ends hgo
    rcases hdelimited with rfl | rfl
    all_goals
      rw [hagain.html?_eq]
      simp [kindIn, inCodeAfter]
  rcases h.undelimited hkind with hund | rfl | rfl
  · by_cases hdelimited : kind = .docComment ∨ kind = .stringLiteral
    · rcases hdelimited with rfl | rfl
      · exact hread rfl (.inl rfl)
      · refine hread ?_ (.inr rfl)
        simpa [goesOn, isHeredoc] using hlabel
    · have hend : openEnd kind text = text.getLast? := by
        unfold openEnd
        split
        · exact absurd (.inr rfl) hdelimited
        · exact absurd (.inl rfl) hdelimited
        · rfl
      rw [hend] at hmeets
      exact html?_inert (hund.inert hmeets)
  · exact hread rfl (.inl rfl)
  · refine hread ?_ (.inr rfl)
    simpa [goesOn, isHeredoc] using hlabel

theorem not_meets (h : Reads true b kind text rest) (hkind : kind ≠ .closeTag ∧ kind ≠ .comment) :
    meets (openEnd kind text) rest.head? = false := by
  rcases h.undelimited hkind with hund | rfl | rfl
  · unfold openEnd
    split
    · rfl
    · rfl
    · exact hund.not_meets h.not_goesOn
  · rfl
  · rfl

theorem isQuote_last (h : Reads true b .stringLiteral text rest)
    (hheredoc : isHeredoc .stringLiteral text = false) : text.getLast?.any isQuote := by
  have hstarts : startsWith text ['<'] = false := by simpa [isHeredoc] using hheredoc
  cases h with
  | code h =>
    cases scans_of_scanCode h with
    | single _ hbody =>
      have hquote : isQuote '\'' := rfl
      exact literal_last hquote hbody
    | double hc hbody =>
      rw [← opened_of_double hc] at hbody
      exact literal_last (isQuote_of_double hc) hbody
    | heredoc hc => rw [hc] at hstarts; cases hstarts

theorem not_isIdentChar (h : Reads true b .punctuation text rest) (more : Text) :
    nextIs isIdentChar (text ++ more) = false := by
  cases h with
  | @code _ pos _ c cs _ hscan =>
    cases scans_of_scanCode hscan with
    | mark _ _ hword hdigit =>
      refine Bool.eq_false_iff.2 fun hchar => ?_
      have hchar : isIdentChar c := hchar
      simp only [isIdentChar, isIdentStart, Char.isAlphanum, Bool.or_eq_true] at hchar hword hdigit
      grind

theorem docComment_eq (h : Reads true b .docComment text rest) :
    ∃ inner, text = '/' :: '*' :: (inner ++ ['/']) := by
  cases h with
  | code h =>
    cases scans_of_scanCode h with
    | docComment hc _ hbody =>
      obtain ⟨inner, hinner⟩ := blockComment_last hbody
      exact ⟨inner, by rw [hc, ← hinner]⟩

theorem closeTag_lineBreak (h : Reads true b .closeTag text rest) :
    ∃ tail, text = '?' :: '>' :: tail ∧ lineBreak (tail ++ rest) = (tail, rest) := by
  cases h with
  | code h =>
    cases scans_of_scanCode h with
    | closeTag hc hrest hbreak =>
      obtain rfl := (cons.inj hrest).2
      exact ⟨_, by rw [hc], hbreak⟩

/-! ## Tags and the text between them -/

theorem html?_close (h : Reads true b .closeTag text rest)
    (hbreak : text = ['?', '>'] → (lineBreak more).1 = []) :
    html? true (text ++ more) = html? false more := by
  have hgo : goesOn .closeTag text more = false := by
    by_cases htext : text = ['?', '>']
    · simp [goesOn, hbreak htext]
    · simp [goesOn, htext]
  have hagain : Reads true b (kindIn b text more .closeTag) text more := h.of_ends hgo
  rw [hagain.html?_eq]
  simp [kindIn, inCodeAfter]

end Reads

theorem html?_leave (h : (lineBreak more).1 = []) :
    html? true ('?' :: '>' :: more) = html? false more := by
  have hbreak : lineBreak more = ([], more) := by
    have hsplit := lineBreak_append more
    rw [h, nil_append] at hsplit
    exact Prod.ext h hsplit
  have hscan : scanCode {} 0 '?' (['>'] ++ more) = .ok ⟨.closeTag, ['?', '>'], more⟩ := by
    simp [scanCode, nextIs, Scanned.of, push, hbreak]
  exact (Reads.code hscan).html?_close fun _ => h

/-- An open tag stands at the front, and what follows it is read as `more` is. -/
def StartsWithTag (cs more : Text) : Prop :=
  ∃ taken left, cs = '<' :: '?' :: (taken ++ left) ∧
    tagAfter (taken ++ left) = .ok (some (taken, left)) ∧ html? true left = html? true more

/-- A tag is whole if it does not need what follows it: it takes white space, or prints. -/
def isWholeTag (text : Text) : Bool := 5 < text.length || text == ['<', '?', '=']

theorem not_isWholeTag {word : Text} (h : word.length = 3) :
    isWholeTag ('<' :: '?' :: (word ++ [])) = false := by
  have hne : word ≠ ['='] := by
    rintro rfl
    cases h
  simp [isWholeTag, h, hne]

theorem startsWithTag_long (more : Text) :
    StartsWithTag ('<' :: '?' :: 'p' :: 'h' :: 'p' :: ' ' :: more) more := by
  have hword : sameWord ['p', 'h', 'p'] ['p', 'h', 'p'] := by decide
  have hend : longTagEnd ([' '] ++ more) = some ([' '], more) := rfl
  exact ⟨['p', 'h', 'p', ' '], more, rfl, tagAfter_long hword hend, rfl⟩

/-- A whole tag is read again before any text. What follows a tag that prints has to start with
characters of one byte. -/
theorem Reads.startsWithTag (h : Reads false b .openTag text rest) (hwhole : isWholeTag text)
    (hascii : text = ['<', '?', '='] → ∀ c ∈ more.take 2, c.toNat < 0x80) :
    StartsWithTag (text ++ more) more := by
  cases h with
  | @tag _ taken _ h =>
    rcases tagAfter_eq_some h with ⟨word, tail, rfl, hword, hend⟩ | ⟨rfl | ⟨rfl, _⟩, _⟩
    · have hthree := (byteLength_of_sameWord hword).1
      rcases longTagEnd_eq_some hend with rfl | ⟨c, rfl, hc, _⟩ | ⟨rfl, rfl⟩
      · exact ⟨word ++ ['\r', '\n'], more, by simp, tagAfter_long hword rfl, rfl⟩
      · by_cases hbreak : c = '\r' ∧ nextIs (· == '\n') more
        · -- the tag takes the line feed too, and that is code otherwise
          obtain ⟨rfl, hnext⟩ := hbreak
          obtain ⟨left, rfl⟩ : ∃ left, more = '\n' :: left := ⟨_, (nextIs_tail hnext).symm⟩
          refine ⟨word ++ ['\r', '\n'], left, by simp, tagAfter_long hword rfl, ?_⟩
          exact (html?_cons rfl).symm
        · refine ⟨word ++ [c], more, by simp, tagAfter_long hword ?_, rfl⟩
          refine longTagEnd_cons hc fun heq => Bool.eq_false_iff.2 fun hnext => ?_
          exact hbreak ⟨heq, hnext⟩
      · rw [not_isWholeTag hthree] at hwhole
        cases hwhole
    · refine ⟨['='], more, rfl, tagAfter_short (.inl rfl) fun hbytes => ?_, rfl⟩
      exact isSome_splitBytes?_append (v := ['=']) (by decide) hbytes (hascii rfl)
    · simp [isWholeTag] at hwhole

/-- A whole tag ends in white space, or prints. -/
theorem Reads.tag_last (h : Reads false b .openTag text rest) (hwhole : isWholeTag text) :
    text.getLast?.any (fun c => isSpace c || c == '=') := by
  cases h with
  | @tag _ taken _ h =>
    rcases tagAfter_eq_some h with ⟨word, tail, rfl, hword, hend⟩ | ⟨rfl | ⟨rfl, _⟩, _⟩
    · have hthree := (byteLength_of_sameWord hword).1
      have hlast : ∀ {tail : Text}, tail ≠ [] → tail.all (fun c => isSpace c || c == '=') →
          ('<' :: '?' :: (word ++ tail)).getLast?.any (fun c => isSpace c || c == '=') :=
        fun hne hall => getLast?_any_of_all hne hall ('<' :: '?' :: word)
      rcases longTagEnd_eq_some hend with rfl | ⟨c, rfl, hc, _⟩ | ⟨rfl, rfl⟩
      · exact hlast (cons_ne_nil _ _) rfl
      · exact hlast (cons_ne_nil _ _) (by simp [hc])
      · rw [not_isWholeTag hthree] at hwhole
        cases hwhole
    · rfl
    · simp [isWholeTag] at hwhole

theorem StartsWithTag.html?_eq (h : StartsWithTag cs more) : html? false cs = html? true more := by
  obtain ⟨taken, left, rfl, htag, hleft⟩ := h
  have hread : Reads false {} .openTag ('<' :: '?' :: taken) left := .tag htag
  have heq := hread.html?_eq
  simp only [inCodeAfter] at heq
  rw [← hleft, ← cons_append, ← cons_append, heq]
  simp

theorem Reads.behind_text (h : Reads false b .inlineHtml text rest) :
    rest = [] ∨ ∃ left, StartsWithTag rest left := by
  cases h with
  | html h =>
    rcases htmlGoesOn_eq_false h with ⟨rfl, _⟩ | ⟨taken, left, rfl, htag, _⟩
    · exact .inl rfl
    · exact .inr ⟨left, taken, left, rfl, htag, rfl⟩

/-- Text outside the code is added in front of a tag. -/
theorem Reads.html?_text (h : Reads false b .inlineHtml text rest) (hcs : StartsWithTag cs more) :
    html? false (text ++ cs) = (html? false cs).map (text ++ ·) := by
  obtain ⟨taken, left, rfl, htag, _⟩ := hcs
  cases h with
  | @html _ c text _ h =>
    have hplain : Scan.Plain (c :: text) ('<' :: '?' :: (taken ++ left)) := by
      rcases htmlGoesOn_eq_false h with ⟨rfl, hnone⟩ | ⟨_, _, rfl, _, hplain⟩
      · rw [← append_nil (c :: text)] at hnone
        have hend : Scan.Plain (c :: text) [] :=
          .of_findOpenTag hnone (fun t ht => by cases ht) (.inl rfl)
        exact hend.ahead (nextIs_of_tagAfter htag)
      · exact hplain.ahead (nextIs_of_tagAfter htag)
    have hread : Reads false b .inlineHtml (c :: text) ('<' :: '?' :: (taken ++ left)) :=
      .html (htmlGoesOn_of_plain hplain htag)
    rw [hread.html?_eq]
    simp [inCodeAfter]

end LegacyPhp
