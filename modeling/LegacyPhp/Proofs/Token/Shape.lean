import LegacyPhp.Proofs.Lossless

/-!
# What tokens look like

The kind of a token says something about its characters: identifiers and reserved words are made of
identifier characters, white space of spaces, and a comment holds the mark that opened it
(`Token.WellFormed`). The kinds of neighbours are not independent either: a word ends where no
identifier character follows, so two words never touch.

`Lexed` is what passes over tokens may rely on. It holds of what the lexer returns
(`lexemes_lexed`) and of every end of such a list, which is all that a pass ever sees.
-/

namespace LegacyPhp

open Text Scan List

variable {t : Token} {ts : List Token} {b : Before} {pos : Nat} {cs taken left rest : Text}
  {kind : TokenKind} {c : Char} {p : Char → Bool} {s : Scanned}

theorem mem_of_lookup {α β : Type} [BEq α] [LawfulBEq α] {l : List (α × β)} {k : α} {v : β}
    (h : l.lookup k = some v) : (k, v) ∈ l := by
  obtain ⟨before, after, rfl, _⟩ := lookup_eq_some_iff.1 h
  simp

theorem text_of_isPunct {mark : String} (h : t.isPunct mark) : t.text = mark.toList := by
  simp only [Token.isPunct, Bool.and_eq_true, beq_iff_eq] at h
  exact h.2

/-- A character that opens a comment. -/
def isCommentMark (c : Char) : Bool := c == '/' || c == '#'

namespace Token

/-- An identifier or a reserved word. -/
def isWord (t : Token) : Bool :=
  match t.kind with
  | .identifier | .keyword _ => true
  | _ => false

/-- The characters of a token fit its kind. -/
def WellFormed (t : Token) : Prop :=
  match t.kind with
  | .identifier => t.text.all isIdentChar
  | .keyword word => t.text.all isIdentChar ∧ Keyword.ofWord? t.text = some word
  | .whitespace => t.text.all isSpace ∧ t.text ≠ []
  | .comment | .docComment => t.text.any isCommentMark
  | _ => True

theorem WellFormed.all_isIdentChar (h : t.WellFormed) (hword : t.isWord) :
    t.text.all isIdentChar := by
  unfold isWord at hword
  unfold WellFormed at h
  split at hword
  · next hkind => simpa only [hkind] using h
  · next word hkind =>
    simp only [hkind] at h
    exact h.1
  · cases hword

theorem WellFormed.ofWord {word : Keyword} (h : t.WellFormed) (hword : t.isKeyword word) :
    Keyword.ofWord? t.text = some word := by
  have hkind : t.kind = .keyword word := by simpa [isKeyword] using hword
  simp only [WellFormed, hkind] at h
  exact h.2

end Token

/-- Tokens that fit their kinds, no two words touching. -/
structure Lexed (ts : List Token) : Prop where
  wellFormed : ∀ t ∈ ts, t.WellFormed
  apart : ∀ t u rest, t :: u :: rest <:+ ts → t.isWord → u.isWord = false

namespace Lexed

theorem of_suffix {us : List Token} (h : Lexed ts) (hus : us <:+ ts) : Lexed us where
  wellFormed t ht := h.wellFormed t (hus.subset ht)
  apart t u rest hrest := h.apart t u rest (hrest.trans hus)

theorem tail (h : Lexed (t :: ts)) : Lexed ts :=
  h.of_suffix (suffix_cons t ts)

theorem head (h : Lexed (t :: ts)) : t.WellFormed :=
  h.wellFormed t mem_cons_self

theorem nil : Lexed [] where
  wellFormed t ht := by cases ht
  apart t u rest h := by cases suffix_nil.1 h

theorem cons {t : Token} {ts : List Token} (ht : t.WellFormed) (hts : Lexed ts)
    (happart : t.isWord → ∀ u ∈ ts.head?, u.isWord = false) : Lexed (t :: ts) where
  wellFormed u hu := by
    rcases mem_cons.1 hu with rfl | hu
    · exact ht
    · exact hts.wellFormed u hu
  apart u v rest h hu := by
    rcases suffix_cons_iff.1 h with heq | h
    · obtain ⟨rfl, rfl⟩ := cons.inj heq
      exact happart hu v rfl
    · exact hts.apart u v rest h hu

end Lexed

/-! ## Single scans -/

theorem all_run (p : Char → Bool) (cs : Text) : (run p cs).1.all p :=
  all_takeWhile

theorem all_of_run (h : run p cs = (taken, left)) : taken.all p := by
  have hall := all_run p cs
  rwa [h] at hall

theorem all_cons_run (hc : p c) (h : run p cs = (taken, left)) : (c :: taken).all p := by
  rw [all_cons, hc, all_of_run h]
  rfl

theorem nextIs_dropWhile (p : Char → Bool) (cs : Text) : nextIs p (cs.dropWhile p) = false := by
  cases hdrop : cs.dropWhile p with
  | nil => rfl
  | cons d left =>
    have hne : cs.dropWhile p ≠ [] := by simp [hdrop]
    have hhead := head_dropWhile_not p hne
    simpa [hdrop, nextIs] using hhead

theorem nextIs_of_run (h : run p cs = (taken, left)) : nextIs p left = false := by
  obtain rfl : cs.dropWhile p = left := congrArg Prod.snd h
  exact nextIs_dropWhile p cs

theorem isIdentChar_of_isIdentStart (h : isIdentStart c) : isIdentChar c := by
  simp only [isIdentStart, isIdentChar, Char.isAlphanum, Bool.or_eq_true] at h ⊢
  rcases h with (h | h) | h
  · exact .inl (.inl (.inl h))
  · exact .inl (.inr h)
  · exact .inr h

theorem not_isIdentChar_of_isSpace (h : isSpace c) : isIdentChar c = false := by
  obtain rfl | rfl | rfl | rfl | rfl := isSpace_iff.1 h <;> rfl

theorem not_isSpace_of_isIdentStart (h : isIdentStart c) : isSpace c = false := by
  refine Bool.eq_false_iff.2 fun hspace => ?_
  have hchar := isIdentChar_of_isIdentStart h
  rw [not_isIdentChar_of_isSpace hspace] at hchar
  cases hchar

theorem ne_of_class {d : Char} (h : p c) (hd : p d = false) : (c == d) = false := by
  refine beq_eq_false_iff_ne.2 fun heq => ?_
  rw [heq, hd] at h
  cases h

theorem isAlpha_of_isUpper (h : c.isUpper) : c.isAlpha := Bool.or_eq_true_iff.2 (.inl h)

theorem not_isDigit_of_isIdentStart (h : isIdentStart c) : c.isDigit = false := by
  refine Bool.eq_false_iff.2 fun hdigit => ?_
  by_cases hunder : c = '_'
  · subst hunder
    cases hdigit
  · delta isIdentStart Char.isAlpha Char.isUpper Char.isLower at h
    simp only [Char.isDigit, beq_iff_eq, hunder, or_false, Bool.or_eq_true, Bool.and_eq_true,
      decide_eq_true_eq, ge_iff_le, UInt32.le_iff_toNat_le, Char.toNat] at h hdigit
    have hnine : '9'.val.toNat = 57 := rfl
    have hupper : 'A'.val.toNat = 65 := rfl
    have hlower : 'a'.val.toNat = 97 := rfl
    omega

/-- The characters of a number behind the first. -/
def isNumberChar (c : Char) : Bool := isIdentChar c || c == '.' || c == '+' || c == '-'

theorem all_numberRest (hex : Bool) (last : Char) (cs : Text) :
    (numberRest hex last cs).1.all isNumberChar := by
  induction cs generalizing last with
  | nil => rfl
  | cons c cs ih =>
    rw [numberRest]
    split
    · next hc =>
      simp only [Bool.or_eq_true, beq_iff_eq] at hc
      have hchar : isNumberChar c := by
        simp only [isNumberChar, isIdentChar, Bool.or_eq_true, beq_iff_eq]
        grind
      simpa [push, hchar] using ih c
    · split
      · next hsign =>
        simp only [Bool.and_eq_true, Bool.or_eq_true, beq_iff_eq] at hsign
        have hchar : isNumberChar c := by
          simp only [isNumberChar, Bool.or_eq_true, beq_iff_eq]
          grind
        simpa [push, hchar] using ih c
      · rfl

theorem all_number {hex : Bool} (hc : c.isDigit || (c == '.' && nextIs Char.isDigit rest))
    (h : numberRest hex c rest = (cs, left)) : (c :: cs).all isNumberChar := by
  have hall := all_numberRest hex c rest
  have hfirst : isNumberChar c := by
    simp only [Bool.or_eq_true, Bool.and_eq_true, beq_iff_eq] at hc
    simp only [isNumberChar, isIdentChar, Char.isAlphanum, Bool.or_eq_true, beq_iff_eq]
    grind
  rw [h] at hall
  rw [all_cons, hfirst, hall]
  rfl

/-- What decides for a token makes the scan give it. -/
theorem Scans.scanCode_eq {text : Text} (h : Scans b pos c rest kind text left) :
    scanCode b pos c rest = .ok ⟨kind, text, left⟩ := by
  cases h with
  | closeTag hc hrest h => simp [scanCode, hc, hrest, nextIs, h, Scanned.of, push]
  | whitespace hc h =>
    have hne : (c == '?') = false := ne_of_class hc rfl
    simp [scanCode, hne, hc, h, Scanned.of]
  | lineComment hc h =>
    obtain rfl | ⟨rfl, hnext⟩ := hc
    · simp [scanCode, isSpace, h, Scanned.of]
    · simp [scanCode, isSpace, hnext, h, Scanned.of]
  | comment hc hrest h hkind | docComment hc hrest h hkind =>
    simp [scanCode, hc, hrest, isSpace, nextIs, h, hkind, Scanned.of, push]
  | var hc hnext h => simp [scanCode, hc, isSpace, hnext, h, Scanned.of]
  | identifier hc h hkind | keyword hc h hkind =>
    have hne : ∀ d, isIdentStart d = false → (c == d) = false := fun d => ne_of_class hc
    simp [scanCode, hne '?' rfl, hne '#' rfl, hne '/' rfl, hne '$' rfl,
      not_isSpace_of_isIdentStart hc, hc, h, hkind, Scanned.of]
  | number hc h =>
    have hother : isSpace c = false ∧ isIdentStart c = false ∧
        ∀ d, d ≠ '.' → d.isDigit = false → (c == d) = false := by
      rcases Bool.or_eq_true_iff.1 hc with hdigit | hpoint
      · refine ⟨Bool.eq_false_iff.2 fun hspace => ?_, Bool.eq_false_iff.2 fun hstart => ?_,
          fun d _ hd => ne_of_class hdigit hd⟩
        · have hchar := not_isIdentChar_of_isSpace hspace
          simp [isIdentChar, Char.isAlphanum, hdigit] at hchar
        · rw [not_isDigit_of_isIdentStart hstart] at hdigit
          cases hdigit
      · obtain rfl : c = '.' := eq_of_beq (Bool.and_eq_true_iff.1 hpoint).1
        exact ⟨rfl, rfl, fun d hd _ => beq_eq_false_iff_ne.2 hd.symm⟩
    obtain ⟨hspace, hstart, hne⟩ := hother
    simp only [scanCode, hspace, hstart, hne '?' (by decide) rfl, hne '#' (by decide) rfl,
      hne '/' (by decide) rfl, hne '$' (by decide) rfl, hc, h, Bool.false_and, Bool.or_false,
      Bool.false_eq_true, if_false, if_true]
    rfl
  | single hc h =>
    subst hc
    simp [scanCode, isSpace, isIdentStart, scanLiteral, h, Scanned.of]
  | double hc h =>
    rcases hc with rfl | rfl <;> simp [scanCode, isSpace, isIdentStart, scanLiteral, h, Scanned.of]
  | heredoc hc hrest h => simp [scanCode, hc, hrest, isSpace, isIdentStart, scanMark, h]
  | mark h hspace hword hdigit hquote hopens hvariable hpoint =>
    have hopen : ∀ {d e : Char}, [d, e] ∈ openings → ¬ (c == d && nextIs (· == e) rest) := by
      intro d e hmem hnext
      obtain ⟨hd, he⟩ := Bool.and_eq_true_iff.1 hnext
      refine hopens _ hmem ⟨rest.tail, ?_⟩
      rw [eq_of_beq hd, ← nextIs_tail he]
      rfl
    have hline : ¬ (c == '#' || (c == '/' && nextIs (· == '/') rest)) := by
      simpa [hquote.1] using hopen (d := '/') (e := '/') (by decide)
    rw [scanCode, if_neg (hopen (by decide)), if_neg hspace, if_neg hline,
      if_neg (hopen (by decide)), if_neg (by simpa using hvariable), if_neg hword,
      if_neg (by simpa [hdigit] using hpoint), if_neg (by simpa using hquote.2.1),
      if_neg (by simpa using hquote.2.2), scanMark, h]
    exact fun left hc hrest => hopens ['<', '<', '<'] (by decide) ⟨left, by rw [hc, hrest]; rfl⟩

theorem comment_wellFormed (hkind : kind = .comment ∨ kind = .docComment) (hc : isCommentMark c)
    (cs : Text) (pos : Nat) : (⟨kind, c :: cs, pos⟩ : Token).WellFormed := by
  have hany : (c :: cs).any isCommentMark := by rw [any_cons, hc, Bool.true_or]
  rcases hkind with rfl | rfl <;> exact hany

theorem word_wellFormed {word : Text} (h : word.all isIdentChar) (b : Before) (rest : Text)
    (pos : Nat) : (⟨wordKind b word rest, word, pos⟩ : Token).WellFormed := by
  unfold wordKind
  split
  · exact h
  · next k hword =>
    split
    · exact h
    · exact ⟨h, hword⟩

theorem scanCode_wellFormed (h : scanCode b pos c rest = .ok s) :
    (⟨s.kind, s.text, pos⟩ : Token).WellFormed := by
  obtain ⟨kind, text, left⟩ := s
  cases scans_of_scanCode h with
  | whitespace hc hrun => exact ⟨all_cons_run hc hrun, cons_ne_nil _ _⟩
  | lineComment hc =>
    refine comment_wellFormed (.inl rfl) ?_ _ pos
    rcases hc with rfl | ⟨rfl, _⟩ <;> rfl
  | comment hc => exact comment_wellFormed (.inl rfl) (by rw [hc]; rfl) _ pos
  | docComment hc => exact comment_wellFormed (.inr rfl) (by rw [hc]; rfl) _ pos
  | identifier hc hrun => exact all_cons_run (isIdentChar_of_isIdentStart hc) hrun
  | keyword hc hrun hkind =>
    have hword := word_wellFormed (all_cons_run (isIdentChar_of_isIdentStart hc) hrun) b left pos
    rwa [hkind] at hword
  | _ => trivial

theorem scanCode_word_rest (h : scanCode b pos c rest = .ok s)
    (hword : (⟨s.kind, s.text, pos⟩ : Token).isWord) : nextIs isIdentChar s.rest = false := by
  obtain ⟨kind, text, left⟩ := s
  -- only two branches make words
  cases scans_of_scanCode h with
  | identifier _ hrun | keyword _ hrun => exact nextIs_of_run hrun
  | _ => cases hword

/-! ## The lexer -/

theorem isWord_of_nextIs (hts : Lexed ts) (hne : ∀ t ∈ ts, t.text ≠ [])
    (h : nextIs isIdentChar (serialize ts) = false) : ∀ t ∈ ts.head?, t.isWord = false := by
  intro t ht
  cases ts with
  | nil => cases ht
  | cons v rest =>
    obtain rfl : v = t := by simpa using ht
    refine Bool.eq_false_iff.2 fun hword => ?_
    have hall := hts.head.all_isIdentChar hword
    cases htext : v.text with
    | nil => exact hne v mem_cons_self htext
    | cons c cs =>
      rw [htext, all_cons, Bool.and_eq_true] at hall
      rw [serialize_cons, htext] at h
      exact absurd hall.1 (by simpa [nextIs] using h)

theorem lexFrom_lexed {inCode : Bool} (h : lexFrom inCode b pos cs = .ok ts) : Lexed ts := by
  fun_induction lexFrom inCode b pos cs generalizing ts with
  | case1 => cases h; exact .nil
  | case2 => cases h
  | case3 =>
    rename_i s hs token ih
    obtain ⟨more, hmore, rfl⟩ := map_eq_ok h
    refine .cons (scanCode_wellFormed hs) (ih hmore) fun hword u hu => ?_
    -- the word ends before a character that no word starts with
    have hrest := scanCode_word_rest hs hword
    rw [← (lexFrom_tiles hmore).serialize_eq] at hrest
    refine isWord_of_nextIs (ih hmore) (fun v hv => ((lexFrom_tiles hmore).mem hv).2) hrest u hu
  | case4 => cases h
  | case5 =>
    cases h
    exact .cons trivial .nil fun hword => by cases hword
  | case6 =>
    rename_i pos _ _ _ _ html start ih
    obtain ⟨more, hmore, rfl⟩ := map_eq_ok h
    have htag : ∀ tag : Text, Lexed (⟨.openTag, tag, start⟩ :: more) := fun tag =>
      .cons trivial (ih hmore) fun hword => by cases hword
    by_cases hempty : html = []
    · rw [hempty]
      exact htag _
    · have hhtml : ∃ text, html = [⟨.inlineHtml, text, pos⟩] := by
        simp only [html] at hempty ⊢
        split
        · next hnil => simp [hnil] at hempty
        · exact ⟨_, rfl⟩
      obtain ⟨text, hhtml⟩ := hhtml
      rw [hhtml]
      exact .cons trivial (htag _) fun hword => by cases hword

theorem lexemes_lexed {source : Text} (h : lexemes source = .ok ts) : Lexed ts := lexFrom_lexed h

end LegacyPhp
