import LegacyPhp.Proofs.Bundle.Squeezed
import LegacyPhp.Proofs.Token.LastCharacter
import LegacyPhp.Proofs.Token.Seams
import Mathlib.Data.List.Chain

/-!
# Squeezed code is read as before

A bundle leaves out white space and comments and puts a gap where two tokens would run together. The
gap is chosen by two characters, the last one of a token and the first one of the next, while the
lexer reads on as far as it can. That this is enough is the subject of this module
(`addContent_keeps_tokens`).

Most tokens show by their last character that they are at their end (`isFirm`): a word that ends in
a character that is no separator goes on with no separator, and a mark is longer only with a
character that fuses with its last one, since every mark is made of characters that fuse with one
another (`longMarks_isChain`). So a firm token ends before the gap, if there is one, and before the
next token otherwise (`goesOn_gap`). Tokens that stood next to each other stand there again, but
what follows the second may have moved up; one character is all that a firm token looks at, the
three points of an ellipsis apart (`goesOn_first`).
-/

namespace LegacyPhp

open Text Scan LegacyPhp.Stream LegacyPhp.Bundle List

variable {text more : Text} {kind : TokenKind} {b : Before} {space : Bool} {c : Char}

/-! ## Neighbours -/

theorem ascii_induction {p : Char → Prop} (h : ∀ n : Fin 128, p (Char.ofNat n))
    (hc : c.toNat < 0x80) : p c := by
  have hn := h ⟨c.toNat, hc⟩
  rwa [Char.ofNat_toNat] at hn

theorem not_isSeparator_of_isIdentChar (hc : c.toNat < 0x80) (h : isIdentChar c) :
    isSeparator (some c) = false := by
  revert h
  exact ascii_induction (p := fun c => isIdentChar c = true → isSeparator (some c) = false)
    (by decide) hc

theorem not_isSeparator_of_isDigit (h : c.isDigit) : isSeparator (some c) = false := by
  have hc : c.toNat < 0x80 := by
    simp only [Char.isDigit, Bool.and_eq_true, decide_eq_true_eq, ge_iff_le,
      UInt32.le_iff_toNat_le] at h
    have hnine : '9'.val.toNat = 57 := rfl
    have hval : c.toNat = c.val.toNat := rfl
    omega
  refine not_isSeparator_of_isIdentChar hc ?_
  rw [isIdentChar, Char.isAlphanum, h, Bool.or_true]
  rfl

theorem longMarks_isChain :
    ∀ mark ∈ longMarks, mark.IsChain fun a b => (fusingAfter a).contains b := by
  decide

theorem fusingAfter_of_longer {mark : Text} {a : Char} (hmark : mark ∈ longMarks)
    (hlength : text.length < mark.length) (ha : text.getLast? = some a)
    (h : mark <+: text ++ c :: more) : (fusingAfter a).contains c := by
  obtain ⟨init, rfl⟩ := getLast?_eq_some_iff.1 ha
  have hpair : init ++ [a, c] <+: mark := by
    refine prefix_of_prefix_length_le ⟨more, by simp⟩ h ?_
    simp only [length_append, length_cons, length_nil] at hlength ⊢
    omega
  obtain ⟨left, rfl⟩ := hpair
  have hchain := longMarks_isChain _ hmark
  rw [append_assoc] at hchain
  exact (isChain_append_cons_cons.1 hchain).2.1

/-- Whether a token says by its last character that it is at its end: before a separator that does
not fuse with it, it is not longer. -/
def isFirm (kind : TokenKind) (text : Text) : Bool :=
  match kind with
  | .identifier | .keyword _ | .variable => !isSeparator text.getLast?
  | .number => text.getLast?.any Char.isDigit
  | .stringLiteral => !startsWith text ['<'] || !isSeparator text.getLast?
  | .punctuation => !text.isEmpty
  | _ => false

section Neighbours

variable {rest : Text} {c : Char}

/-- A number that ends in a digit goes on with letters, digits, underscores and points. -/
theorem isEmpty_numberRest_of_digit {hex : Bool} (h : text.getLast?.any Char.isDigit) :
    (numberRest hex (text.getLastD ' ') rest).1.isEmpty =
      !nextIs (fun c => c.isAlphanum || c == '_' || c == '.') rest := by
  have hlast : (text.getLastD ' ' == 'e' || text.getLastD ' ' == 'E') = false := by
    rw [getLastD_eq_getLast?]
    cases hget : text.getLast? with
    | none => rw [hget] at h; cases h
    | some d =>
      rw [hget] at h
      refine Bool.eq_false_iff.2 fun hd => ?_
      simp only [Option.getD_some, Bool.or_eq_true, beq_iff_eq] at hd
      rcases hd with rfl | rfl <;> cases h
  cases rest with
  | nil => rfl
  | cons c rest =>
    rw [isEmpty_numberRest, hlast, Bool.and_false, Bool.false_and, Bool.or_false]
    rfl

/-- What a firm token must not meet. -/
theorem goesOn_of_isFirm (h : isFirm kind text)
    (hword : isSeparator text.getLast? = false → nextIs isIdentChar rest = false)
    (hnumber : text.getLast?.any Char.isDigit →
      nextIs (fun c => c.isAlphanum || c == '_' || c == '.') rest = false)
    (hmark : text ≠ [] → markGoesOn text rest = false) : goesOn kind text rest = false := by
  unfold isFirm at h
  split at h
  · exact hword (Bool.not_eq_true' _ ▸ h)
  · exact hword (Bool.not_eq_true' _ ▸ h)
  · exact hword (Bool.not_eq_true' _ ▸ h)
  · rw [goesOn, isEmpty_numberRest_of_digit h, hnumber h]
    rfl
  · rw [goesOn]
    rcases Bool.or_eq_true_iff.1 h with hquoted | hlabel
    · rw [Bool.not_eq_true'] at hquoted
      rw [hquoted, Bool.false_and]
    · rw [Bool.not_eq_true'] at hlabel
      rw [hword hlabel, Bool.and_false]
  · exact hmark (by simpa using h)
  · cases h

theorem goesOn_nil (h : isFirm kind text) : goesOn kind text [] = false := by
  refine goesOn_of_isFirm h (fun _ => rfl) (fun _ => rfl) fun _ => ?_
  refine markGoesOn_eq_false.2 ⟨fun mark _ hlength hprefix => ?_, fun _ => rfl, fun _ => rfl⟩
  rw [append_nil] at hprefix
  exact absurd hprefix.length_le (Nat.not_le_of_lt hlength)

theorem goesOn_first (h : isFirm kind text)
    (hdots : kind = .punctuation → text = ['.'] → c = '.' → nextIs (· == '.') more = false)
    (hends : goesOn kind text (c :: rest) = false) : goesOn kind text (c :: more) = false := by
  unfold isFirm at h
  split at h
  · exact hends
  · exact hends
  · exact hends
  · rw [goesOn, isEmpty_numberRest_of_digit h] at hends ⊢
    exact hends
  · exact hends
  · exact markGoesOn_ahead_cons (by simpa using h) (hdots rfl) hends
  · cases h

theorem goesOn_before_space (h : isFirm kind text) (hc : isSpace c) :
    goesOn kind text (c :: rest) = false := by
  refine goesOn_before text rest (.inl hc) ⟨?_, ?_, ?_⟩ ?_ ?_
  all_goals
    rintro rfl
    cases h

/-- A firm token ends before a character that does not fuse with it, if one of the two is a
separator. -/
theorem goesOn_of_not_fuse (h : isFirm kind text) (hc : c.toNat < 0x80)
    (hdollar : text = ['$'] → isIdentStart c = false)
    (happart : (!isSeparator text.getLast? && !isSeparator (some c)) = false)
    (hfuse : wouldFuse text.getLast? (some c) = false) : goesOn kind text (c :: rest) = false := by
  have hident : isSeparator text.getLast? = false → isIdentChar c = false := by
    intro hlast
    rw [hlast, Bool.not_false, Bool.true_and, Bool.not_eq_false'] at happart
    refine Bool.eq_false_iff.2 fun hident => ?_
    rw [not_isSeparator_of_isIdentChar hc hident] at happart
    cases happart
  refine goesOn_of_isFirm h hident (fun hdigit => ?_) fun hne => ?_
  · obtain ⟨d, hd, hdigit⟩ := (Option.any_eq_true _ _).1 hdigit
    rw [hd] at hident hfuse
    have hident := hident (not_isSeparator_of_isDigit hdigit)
    rw [isIdentChar, Bool.or_eq_false_iff] at hident
    have hpoint : (c == '.') = false := by
      rw [wouldFuse, Bool.or_eq_false_iff, Bool.or_eq_false_iff, hdigit, Bool.and_true] at hfuse
      exact hfuse.1.2
    show (c.isAlphanum || c == '_' || c == '.') = false
    rw [hident.1, hpoint]
    rfl
  · obtain ⟨a, ha⟩ := Option.isSome_iff_exists.1 (getLast?_isSome.2 hne)
    rw [ha, wouldFuse, Bool.or_eq_false_iff, Bool.or_eq_false_iff] at hfuse
    refine markGoesOn_eq_false.2 ⟨fun mark hmark hlength hprefix => ?_, hdollar, fun hpoint => ?_⟩
    · rw [fusingAfter_of_longer hmark hlength ha hprefix] at hfuse
      cases hfuse.2
    · subst hpoint
      cases ha
      exact hfuse.1.1

theorem goesOn_gap (h : isFirm kind text) (hc : c.toNat < 0x80)
    (hdollar : text = ['$'] → isIdentStart c = false) :
    goesOn kind text (gap text.getLast? (some c) ++ c :: more) = false := by
  unfold gap
  split
  · exact goesOn_before_space h rfl
  · next happart =>
    split
    · exact goesOn_before_space h rfl
    · next hfuse =>
      exact goesOn_of_not_fuse h hc hdollar (Bool.eq_false_iff.2 happart)
        (Bool.eq_false_iff.2 hfuse)

theorem markGoesOn_points (h : markGoesOn ['.'] ('.' :: rest) = false) :
    markGoesOn ['.', '.'] rest = false := by
  refine markGoesOn_eq_false.2 ⟨fun mark hmark hlength hprefix => ?_, nofun, nofun⟩
  have hshort : ['.'].length < mark.length := Nat.lt_of_succ_lt hlength
  exact (markGoesOn_eq_false.1 h).1 mark hmark hshort hprefix

theorem nextIs_of_points (h : markGoesOn ['.', '.'] rest = false) :
    nextIs (· == '.') rest = false := by
  cases rest with
  | nil => rfl
  | cons d rest =>
    refine beq_eq_false_iff_ne.2 fun hd => ?_
    subst hd
    exact (markGoesOn_eq_false.1 h).1 ['.', '.', '.'] (by decide) (by decide) ⟨rest, rfl⟩

end Neighbours

/-! ## Ordinary code -/

/-- A character of one byte. -/
def isAscii (c : Char) : Bool := c.toNat < 0x80

/-- Code that is copied as it is, the words in it and the labels of heredocs being ASCII, and a
number ending in a digit. A heredoc ends in its label, so its last character is one of the label. -/
def isOrdinary (t : Token) : Bool :=
  isPlainCode t &&
    match t.kind with
    | .identifier | .keyword _ | .variable => t.text.all isAscii
    | .number => t.text.getLast?.any Char.isDigit
    | .stringLiteral => !startsWith t.text ['<'] || t.text.getLast?.any isAscii
    | _ => true

/-- Ordinary tokens, and no `$` alone in front of a word. -/
def ordinary : List Token → Bool
  | [] => true
  | t :: ts => isOrdinary t && !(t.isPunct "$" && isNext Token.isWord ts) && ordinary ts

section Ordinary

variable {t : Token} {ts : List Token} {rest : Text}

theorem isOrdinary_of_ordinary (h : ordinary (t :: ts)) :
    isOrdinary t ∧ (t.isPunct "$" → isNext Token.isWord ts = false) ∧
      ordinary ts := by
  rw [ordinary, Bool.and_eq_true, Bool.and_eq_true, Bool.not_eq_true'] at h
  refine ⟨h.1.1, fun hdollar => ?_, h.2⟩
  simpa [hdollar] using h.1.2

theorem isPlainCode_of_isOrdinary (h : isOrdinary t) : isPlainCode t :=
  (Bool.and_eq_true_iff.1 h).1

theorem inCodeAfter_of_isPlainCode (h : isPlainCode t) : Closure.inCodeAfter true t := by
  rw [inCodeAfter_true]
  unfold isPlainCode at h
  cases hkind : t.kind <;> simp_all

theorem Reads.endFits (h : Reads true b t.kind t.text rest) : endFits t.kind t.text := by
  generalize t.kind = kind at h
  generalize t.text = text at h
  cases h with
  | code hscan => exact endFits_of_scanCode hscan

/-- What starts with a letter is a word. -/
theorem Reads.isWord_of_isIdentStart (h : Reads true b t.kind t.text rest)
    (hstart : nextIs isIdentStart t.text) : t.isWord := by
  have hkind : ∀ {word : Text} {left : Text}, t.kind = wordKind b word left → t.isWord := by
    intro word left hkind
    unfold wordKind at hkind
    unfold Token.isWord
    split at hkind
    · rw [hkind]
    · split at hkind <;> rw [hkind]
  generalize hk : t.kind = kind at h
  generalize t.text = text at h hstart
  cases h with
  | @code _ pos _ c cs _ hscan =>
    have hend : nextIs isIdentChar (run isIdentChar (cs ++ rest)).2 = false :=
      nextIs_dropWhile isIdentChar _
    rw [← run_append isIdentChar (cs ++ rest),
      scanCode_word hstart (all_run isIdentChar _) hend pos] at hscan
    exact hkind (hk.trans (congrArg Scanned.kind (Except.ok.inj hscan)).symm)

theorem isAscii_of_isWord (h : isOrdinary t) (hword : t.isWord) : t.text.all isAscii := by
  have hmatch := (Bool.and_eq_true_iff.1 h).2
  unfold Token.isWord at hword
  split at hword
  · next hkind => simpa only [hkind] using hmatch
  · next hkind => simpa only [hkind] using hmatch
  · cases hword

theorem Reads.head_ascii {cs : Text} (h : Reads true b t.kind t.text rest) (ht : isOrdinary t)
    (htext : t.text = c :: cs) : c.toNat < 0x80 := by
  by_cases hstart : isIdentStart c
  · have hall := isAscii_of_isWord ht (h.isWord_of_isIdentStart (by rw [htext]; exact hstart))
    rw [htext, all_cons, Bool.and_eq_true] at hall
    exact of_decide_eq_true hall.1
  · simp only [isIdentStart, Bool.or_eq_true, decide_eq_true_eq, not_or] at hstart
    exact Nat.lt_of_not_le hstart.2

theorem not_isSeparator_getLast? (hident : text.getLast?.any isIdentChar)
    (hascii : text.getLast?.any isAscii) : isSeparator text.getLast? = false := by
  obtain ⟨c, hc, hident⟩ := (Option.any_eq_true _ _).1 hident
  rw [hc] at hascii ⊢
  exact not_isSeparator_of_isIdentChar (of_decide_eq_true hascii) hident

theorem Reads.isFirm (h : Reads true b t.kind t.text rest) (ht : isOrdinary t)
    (htrivia : t.isTrivia = false) : isFirm t.kind t.text := by
  have hends := h.endFits
  have hne := h.text_ne_nil
  obtain ⟨hplain, hmatch⟩ := Bool.and_eq_true_iff.1 ht
  have hword : t.text.all isAscii → t.text.getLast?.any isIdentChar →
      (!isSeparator t.text.getLast?) := fun hall hident => by
    rw [not_isSeparator_getLast? hident (getLast?_any_of_all hne hall [])]
    rfl
  unfold isPlainCode at hplain
  unfold Token.isTrivia TokenKind.isTrivia at htrivia
  unfold LegacyPhp.isFirm
  unfold LegacyPhp.endFits at hends
  cases hkind : t.kind <;> simp only [hkind] at hplain hmatch hends htrivia ⊢
  case identifier => exact hword hmatch hends
  case keyword => exact hword hmatch hends
  case «variable» => exact hword hmatch hends
  case number => exact hmatch
  case stringLiteral =>
    cases hstarts : startsWith t.text ['<'] with
    | false => rfl
    | true =>
      simp only [hstarts] at hmatch hends
      rw [not_isSeparator_getLast? hends hmatch]
      rfl
  case punctuation => simpa using hne
  case comment => cases htrivia
  case whitespace => cases htrivia
  all_goals cases hplain

theorem Reads.endsPlainly (h : Reads true b t.kind t.text rest) (ht : isOrdinary t) :
    endsPlainly t := by
  have hends := h.endFits
  have hempty : t.text.isEmpty = false := isEmpty_eq_false_iff.2 h.text_ne_nil
  unfold Bundle.endsPlainly
  rw [hempty]
  cases htrivia : t.isTrivia with
  | true => rfl
  | false =>
    have hfirm := h.isFirm ht htrivia
    by_cases hlast : t.text.getLast? = some ','
    · -- of the firm tokens only the mark may end in a separator
      have hmark : t.isPunct "," := by
        have hcomma : isSeparator (some ',') := by decide
        unfold LegacyPhp.isFirm at hfirm
        unfold LegacyPhp.endFits at hends
        unfold Token.isPunct
        rw [hlast] at hfirm hends
        cases hkind : t.kind <;> simp only [hkind, hcomma] at hfirm hends ⊢
        case stringLiteral =>
          have hquoted : startsWith t.text ['<'] = false := by simpa using hfirm
          simp [hquoted] at hends
        case punctuation => simpa using hends
        all_goals cases hfirm
      rw [hmark]
      simp
    · have hother : t.text.getLast? != some ',' := bne_iff_ne.2 hlast
      rw [hother]
      rfl

/-- Behind a token that goes without saying a gap is no different from none: a parenthesis needs no
gap, and a word does not touch the one before it. -/
theorem squeezed_of_isNeedless (h : Chain true b (t :: ts) [])
    (hneedless : isNeedless (t.kind, t.text) (significant ts)) (last : Option Char)
    (space : Bool) : squeezed last space ts = squeezed last true ts := by
  rcases Bool.or_eq_true_iff.1 hneedless with hpublic | hcomma
  · obtain ⟨hkind, hfunction⟩ := Bool.and_eq_true_iff.1 hpublic
    have hkind : t.kind = .keyword .publicKw := eq_of_beq hkind
    have hends := h.1.not_goesOn
    rw [hkind] at hends
    cases ts with
    | nil => cases hfunction
    | cons u us =>
      cases hu : u.isTrivia with
      | true => rw [squeezed, squeezed, hu]; rfl
      | false =>
        rw [significant_cons, hu] at hfunction
        obtain ⟨word, hword⟩ : ∃ word, u.kind = .keyword word :=
          keyword_of_declaresFunction hfunction
        have hnext := h.2.1
        rw [hword] at hnext
        have halpha := hnext.nextIs_alpha
        obtain ⟨c, cs, htext⟩ := exists_cons_of_ne_nil hnext.text_ne_nil
        rw [htext] at halpha
        rw [serialize_cons, htext] at hends
        have hc : isIdentChar c := by
          have hc : c.isAlpha := halpha
          simp [isIdentChar, Char.isAlphanum, hc]
        have hends : isIdentChar c = false := hends
        rw [hc] at hends
        cases hends
  · exact squeezed_of_closesNext (Bool.and_eq_true_iff.1 hcomma).2 last space

theorem isNext_word_of_isNeedless (hneedless : isNeedless (t.kind, t.text) (significant ts))
    (hword : t.isWord = false) : isNext Token.isWord ts = false := by
  rcases Bool.or_eq_true_iff.1 hneedless with hpublic | hcomma
  · have hkind : t.kind = .keyword .publicKw := eq_of_beq (Bool.and_eq_true_iff.1 hpublic).1
    rw [Token.isWord, hkind] at hword
    cases hword
  · have hclose := (Bool.and_eq_true_iff.1 hcomma).2
    have hnext := isNext_eq_any (fun s => s == (.punctuation, [')'])) ts
    rw [eq_of_beq hclose] at hnext
    refine isNext_eq_false hnext fun u hu => ?_
    rw [Token.isWord, (Prod.mk.inj (eq_of_beq hu)).1]

/-- A firm token does not go on with what is written behind it. -/
theorem goesOn_squeezed (hchain : Chain true b ts []) (hts : ordinary ts) (hfirm : isFirm kind text)
    (hdollar : text = ['$'] → isNext Token.isWord ts = false)
    (hnext : space = false → goesOn kind text (serialize ts) = false) :
    goesOn kind text (squeezed text.getLast? space ts) = false := by
  induction ts generalizing b kind text space with
  | nil => exact goesOn_nil hfirm
  | cons t ts ih =>
    obtain ⟨ht, _, hts⟩ := isOrdinary_of_ordinary hts
    have htail := hchain.2
    rw [inCodeAfter_of_isPlainCode (isPlainCode_of_isOrdinary ht)] at htail
    rw [squeezed]
    cases htrivia : t.isTrivia with
    | true =>
      refine ih htail hts hfirm (fun htext => ?_) (by simp)
      have hword := hdollar htext
      rwa [isNext_cons, htrivia] at hword
    | false =>
      have hword : text = ['$'] → t.isWord = false := fun htext => by
        have hword := hdollar htext
        rwa [isNext_cons, htrivia] at hword
      simp only [Bool.false_eq_true, if_false]
      split
      · next hneedless =>
        rw [squeezed_of_isNeedless hchain hneedless]
        exact ih htail hts hfirm (fun htext => isNext_word_of_isNeedless hneedless (hword htext))
          (by simp)
      · obtain ⟨c, cs, htext⟩ := exists_cons_of_ne_nil hchain.1.text_ne_nil
        cases space with
        | true =>
          rw [htext]
          refine goesOn_gap hfirm (hchain.1.head_ascii ht htext) fun hmark => ?_
          refine Bool.eq_false_iff.2 fun hstart => ?_
          have hstart := hchain.1.isWord_of_isIdentStart (by rw [htext]; exact hstart)
          rw [hword hmark] at hstart
          cases hstart
        | false =>
          have hends := hnext rfl
          rw [serialize_cons, htext] at hends
          rw [htext]
          refine goesOn_first hfirm ?_ hends
          rintro rfl rfl rfl
          have hpoints := markGoesOn_points hends
          cases cs with
          | cons d cs =>
            have hd : (d == '.') = false := nextIs_of_points hpoints
            exact hd
          | nil =>
            -- a third point is kept away from the two
            have hmore : goesOn .punctuation ['.', '.'] (squeezed (some '.') false ts) = false :=
              ih htail hts rfl (by simp) fun _ => hpoints
            exact nextIs_of_points hmore

/-- A token is read again with the same text in front of what is read in any case. -/
theorem Reads.again {texts : List Text} (h : Reads true b t.kind t.text rest)
    (hplain : isPlainCode t) (htrivia : t.isTrivia = false)
    (hends : goesOn t.kind t.text more = false)
    (hmore : ∀ memory, ∃ shapes, ReadsAs true memory more shapes ∧ shapes.map Prod.snd = texts)
    (memory : Before) : ∃ shapes, ReadsAs true memory (t.text ++ more) shapes ∧
      shapes.map Prod.snd = t.text :: texts := by
  have hread : Reads true memory (kindIn memory t.text more t.kind) t.text more := h.of_ends hends
  have hkind : (kindIn memory t.text more t.kind).isTrivia = false ∧
      kindIn memory t.text more t.kind ≠ .closeTag := by
    refine ⟨(kindIn_same TokenKind.isTrivia (fun _ => rfl) ..).trans htrivia, fun hclose => ?_⟩
    have hsame := kindIn_same (· == .closeTag) (fun _ => rfl) memory t.text more t.kind
    have hclose : t.kind = .closeTag := by simpa [hclose] using hsame
    rw [isPlainCode, hclose] at hplain
    cases hplain
  generalize kindIn memory t.text more t.kind = kind at hread hkind
  obtain ⟨shapes, hshapes, rfl⟩ := hmore (memory.next ⟨kind, t.text, 0⟩)
  refine ⟨(kind, t.text) :: shapes, ?_, rfl⟩
  have hcode : Closure.inCodeAfter true ⟨kind, t.text, 0⟩ := by
    rw [inCodeAfter_true]
    exact bne_iff_ne.2 hkind.2
  have hall := ReadsAs.cons hread (by rw [hcode]; exact hshapes)
  rwa [hkind.1] at hall

theorem Reads.isPunct_dollar (h : Reads true b t.kind t.text rest) (htext : t.text = ['$']) :
    t.isPunct "$" := by
  have hkind : t.kind = .punctuation := by
    rw [htext] at h
    generalize t.kind = kind at h
    cases h with
    | code hscan => exact scanCode_single hscan (.inr rfl)
  rw [Token.isPunct, hkind, htext]
  rfl

theorem gap_eq (last first : Option Char) :
    gap last first = [] ∨ gap last first ≠ [] ∧ (gap last first).all isSpace := by
  unfold gap
  split
  · exact .inr ⟨nofun, rfl⟩
  · split
    · exact .inr ⟨nofun, rfl⟩
    · exact .inl rfl

/-- Squeezed code is read, and its tokens that are not trivia have the texts of those that are
needed. -/
theorem readsAs_squeezed (hchain : Chain true b ts []) (hts : ordinary ts) (memory : Before)
    (last : Option Char) (space : Bool) :
    ∃ shapes, ReadsAs true memory (squeezed last space ts) shapes ∧
      shapes.map Prod.snd = (needed (significant ts)).map Prod.snd := by
  induction ts generalizing b memory last space with
  | nil => exact ⟨[], .nil true memory, rfl⟩
  | cons t ts ih =>
    obtain ⟨ht, hdollar, hts⟩ := isOrdinary_of_ordinary hts
    have hcode := inCodeAfter_of_isPlainCode (isPlainCode_of_isOrdinary ht)
    have htail := hchain.2
    rw [hcode] at htail
    rw [squeezed, significant_cons]
    cases htrivia : t.isTrivia with
    | true => exact ih htail hts memory last true
    | false =>
      simp only [Bool.false_eq_true, if_false, singleton_append, needed]
      split
      · exact ih htail hts memory last space
      · have hread := hchain.1
        rw [append_nil] at hread
        have hends : goesOn t.kind t.text (squeezed t.text.getLast? false ts) = false :=
          goesOn_squeezed htail hts (hread.isFirm ht htrivia)
            (fun htext => hdollar (hread.isPunct_dollar htext)) fun _ => hread.not_goesOn
        have htoken := hread.again (isPlainCode_of_isOrdinary ht) htrivia hends
          fun memory => ih htail hts memory t.text.getLast? false
        obtain hgap | ⟨hne, hspaces⟩ : (if space then gap last t.text.head? else []) = [] ∨
            (if space then gap last t.text.head? else []) ≠ [] ∧
              (if space then gap last t.text.head? else []).all isSpace := by
          cases space with
          | false => exact .inl rfl
          | true => exact gap_eq last t.text.head?
        · rw [hgap]
          exact htoken memory
        · obtain ⟨shapes, hshapes, htexts⟩ := htoken { member := memory.member }
          exact ⟨shapes, .spaces hspaces hne hshapes, htexts⟩

/-! ## Behind the open tag -/

/-- A token that starts with white space is white space. -/
theorem Reads.nextIs_isSpace (h : Reads true b t.kind t.text rest) (htrivia : t.isTrivia = false) :
    nextIs isSpace t.text = false := by
  unfold Token.isTrivia at htrivia
  generalize t.kind = kind at h htrivia
  generalize t.text = text at h
  cases h with
  | @code _ pos _ c cs _ hscan =>
    refine Bool.eq_false_iff.2 fun hspace => ?_
    have hspace : isSpace c := hspace
    have hquestion : (c == '?') = false := by
      refine beq_eq_false_iff_ne.2 fun hc => ?_
      subst hc
      cases hspace
    rw [scanCode, hquestion, hspace] at hscan
    have hkind : .whitespace = kind := congrArg Scanned.kind (Except.ok.inj hscan)
    rw [← hkind] at htrivia
    cases htrivia

theorem gap_of_isSpace (h : isSpace c) (first : Option Char) : gap (some c) first = [] := by
  have hsep : isSeparator (some c) := by simp [isSeparator, isBlank_of_isSpace h]
  have hfuse : wouldFuse (some c) first = false := by
    cases first with
    | none => rfl
    | some d =>
      obtain rfl | rfl | rfl | rfl | rfl := isSpace_iff.1 h <;> simp [wouldFuse, fusingAfter]
  rw [gap, hsep, hfuse]
  rfl

theorem nextIs_squeezed (hc : isSpace c) (hchain : Chain true b ts []) (hts : ordinary ts) :
    nextIs isSpace (squeezed (some c) space ts) = false := by
  induction ts generalizing b space with
  | nil => rfl
  | cons t ts ih =>
    obtain ⟨ht, _, hts⟩ := isOrdinary_of_ordinary hts
    have htail := hchain.2
    rw [inCodeAfter_of_isPlainCode (isPlainCode_of_isOrdinary ht)] at htail
    rw [squeezed]
    cases htrivia : t.isTrivia with
    | true => exact ih htail hts
    | false =>
      simp only [Bool.false_eq_true, if_false]
      split
      · exact ih htail hts
      · rw [gap_of_isSpace hc, ite_self, nil_append, nextIs_append hchain.1.text_ne_nil _ [],
          append_nil]
        exact hchain.1.nextIs_isSpace htrivia

/-- A tag with the word `php` ends in white space, unless it is all there is, and it is read again
before anything that starts with no white space. -/
theorem Reads.longTag (h : Reads false b .openTag text rest)
    (hlong : sameWord (text.take 5) "<?php".toList) :
    (rest = [] ∨ ∃ c, text.getLast? = some c ∧ isSpace c) ∧
      ((rest = [] → more = []) → nextIs isSpace more = false →
        Reads false b .openTag text more) := by
  cases h with
  | tag hafter =>
    rcases tagAfter_eq_some hafter with ⟨word, tail, rfl, hword, hend⟩ | ⟨rfl | ⟨rfl, _⟩, _⟩
    · constructor
      · rcases longTagEnd_eq_some hend with rfl | ⟨c, rfl, hc, _⟩ | ⟨_, hrest⟩
        · have hlast : '<' :: '?' :: (word ++ ['\r', '\n']) =
              '<' :: '?' :: (word ++ ['\r']) ++ ['\n'] := by
            simp
          exact .inr ⟨'\n', getLast?_eq_some_iff.2 ⟨_, hlast⟩, rfl⟩
        · exact .inr ⟨c, getLast?_eq_some_iff.2 ⟨'<' :: '?' :: word, rfl⟩, hc⟩
        · exact .inl hrest
      · intro hnil hspace
        refine .tag (tagAfter_long hword
          (longTagEnd_of_ends hend (fun htail => hnil ?_) fun _ => ?_))
        · subst htail
          rcases longTagEnd_eq_some hend with htail | ⟨_, htail, _⟩ | ⟨_, hrest⟩
          · cases htail
          · cases htail
          · exact hrest
        · cases more with
          | nil => rfl
          | cons d more =>
            refine beq_eq_false_iff_ne.2 fun hd => ?_
            subst hd
            cases hspace
    · cases hlong
    · cases hlong

end Ordinary

/-! ## Units -/

section Units

variable {o : BundleOptions} {tree : FileTree} {origin : Path} {content : Text} {tag : Token}
  {body : List Token}

/-- What a unit of ordinary code leaves in an empty bundle. -/
theorem finish_addContent (ho : o.useNamespaces = false) (h : lexemes content = .ok (tag :: body))
    (htag : tag.kind = .openTag) (hlast : body = [] ∨ tag.text.getLast? ≠ some ',')
    (hne : tag.text ≠ []) (hplain : body.all isPlainCode) (hends : body.all endsPlainly) :
    ∃ b, addContent o tree content origin {} = (b, none) ∧
      b.finish = tag.text ++ squeezed tag.text.getLast? false body := by
  have htokens : tokenizeUnit origin content =
      .ok (tag :: (body ++ [⟨.endOfInput, [], byteLength content⟩])) := by
    rw [tokenizeUnit, tokenize, h]
    rfl
  have hplace : ∀ tokens, placeInNamespace o tokens content = none := fun tokens => by
    simp [placeInNamespace, ho]
  let start : Bundler := Bundler.write { inCode := true } tag.text
  have hstart : start.last? = tag.text.getLast? := last?_write _ hne
  have hsettled : settled (significant body) start = start := by
    unfold settled
    split
    · next hnext =>
      rcases hlast with rfl | hlast
      · cases hnext
      · exact dropComma_eq (hstart ▸ hlast)
    · rfl
  have hcopy : ∀ u, copyTokens u { bundler := start }
      (body ++ [⟨.endOfInput, [], byteLength content⟩]) = _ := fun u =>
    copyTokens_plain rfl ⟨rfl, rfl⟩ hplain hends
  simp only [hsettled, hstart] at hcopy
  refine ⟨start.write (squeezed tag.text.getLast? false body), ?_, ?_⟩
  · rw [addContent, addContentWith, htokens]
    simp only [hplace, copyUnit, Bool.false_eq_true, if_false, copyTokens]
    rw [show stepToken _ _ tag _ = .next _ by
      simp [stepToken, significantToken, plainToken, htag]
      rfl]
    exact hcopy _
  · show (start.write _).output = _
    rw [Bundler.output_write, Bundler.output_write]
    rfl

theorem all_of_ordinary (hchain : Chain true b body []) (hbody : ordinary body) :
    body.all isPlainCode ∧ body.all endsPlainly := by
  induction body generalizing b with
  | nil => exact ⟨rfl, rfl⟩
  | cons t ts ih =>
    obtain ⟨ht, _, hts⟩ := isOrdinary_of_ordinary hbody
    have hplain := isPlainCode_of_isOrdinary ht
    have htail := hchain.2
    rw [inCodeAfter_of_isPlainCode hplain] at htail
    obtain ⟨hall, hends⟩ := ih htail hts
    rw [all_cons, all_cons, hplain, hchain.1.endsPlainly ht, hall, hends]
    exact ⟨rfl, rfl⟩

/-- Leaving out white space and comments changes no token: a unit of ordinary code behind a tag with
the word `php` is copied into an empty bundle, and what is written is read as the tokens of the
unit, less those that go without saying. -/
theorem addContent_keeps_tokens (o : BundleOptions) (tree : FileTree) (origin : Path)
    (ho : o.useNamespaces = false) (h : lexemes content = .ok (tag :: body))
    (htag : tag.kind = .openTag) (hlong : sameWord (tag.text.take 5) "<?php".toList)
    (hbody : ordinary body) :
    ∃ b out, addContent o tree content origin {} = (b, none) ∧ lexemes b.finish = .ok out ∧
      (significant out).map Prod.snd = tag.text :: (needed (significant body)).map Prod.snd := by
  obtain ⟨hread, hchain⟩ := chain_of_lexemes h
  rw [htag] at hread
  have hcode : Closure.inCodeAfter false tag = true := by simp [Closure.inCodeAfter, htag]
  rw [hcode] at hchain
  obtain ⟨hplain, hends⟩ := all_of_ordinary hchain hbody
  have hnil : serialize body ++ [] = [] → body = [] := fun hnil => by
    have hempty := hchain.isEmpty_serialize
    rw [← List.append_nil (serialize body), hnil] at hempty
    exact List.isEmpty_iff.1 hempty.symm
  obtain ⟨hspace, hagain⟩ := hread.longTag hlong
  have hfirst : nextIs isSpace (squeezed tag.text.getLast? false body) = false := by
    rcases hspace with hrest | ⟨c, hc, hspace⟩
    · rw [hnil hrest]
      rfl
    · rw [hc]
      exact nextIs_squeezed hspace hchain hbody
  have hlast : body = [] ∨ tag.text.getLast? ≠ some ',' := by
    rcases hspace with hrest | ⟨c, hc, hspace⟩
    · exact .inl (hnil hrest)
    · refine .inr fun hcomma => ?_
      rw [hc] at hcomma
      cases hcomma
      cases hspace
  obtain ⟨b, hadd, hfinish⟩ :=
    finish_addContent ho h htag hlast hread.text_ne_nil hplain hends
  have hread := hagain (fun hrest => by rw [hnil hrest]; rfl) hfirst
  obtain ⟨shapes, hshapes, htexts⟩ :=
    readsAs_squeezed hchain hbody (Before.next {} ⟨.openTag, tag.text, 0⟩) tag.text.getLast? false
  obtain ⟨out, hout, hsignificant⟩ := ReadsAs.cons hread hshapes 0
  refine ⟨b, out, hadd, ?_, ?_⟩
  · rw [hfinish]
    exact hout
  · rw [hsignificant, ← htexts]
    rfl

/-- Marks that would fuse, numbers next to points, a needless `public` and a needless comma. -/
def squeezablePage : Text :=
  ("<?php\nclass A \x7b\n  public static function f($a, $b,) \x7b // c\n" ++
    "    return $a + + 1 - - $b . .5 . 2 . \"x\" ;\n  \x7d\n\x7d").toList

/-- The tokens that are left of it. -/
def squeezedTexts : List Text :=
  ["<?php\n", "class", "A", "\x7b", "static", "function", "f", "(", "$a", ",", "$b", ")", "\x7b",
    "return", "$a", "+", "+", "1", "-", "-", "$b", ".", ".5", ".", "2", ".", "\"x\"", ";", "\x7d",
    "\x7d"].map String.toList

theorem addContent_keeps_tokens_page :
    ∃ b out, addContent .legacy {} squeezablePage "p.php".toList {} = (b, none) ∧
      lexemes b.finish = .ok out ∧
      (significant out).map Prod.snd = squeezedTexts := by
  have hpage : (lexemes squeezablePage).toOption.any (fun tokens =>
      match tokens with
      | [] => false
      | tag :: body =>
        tag.kind == .openTag && sameWord (tag.text.take 5) "<?php".toList && ordinary body &&
          tag.text :: (needed (significant body)).map Prod.snd == squeezedTexts) := by
    decide +kernel
  obtain ⟨tokens, htokens, hall⟩ := (Option.any_eq_true _ _).1 hpage
  cases tokens with
  | nil => cases hall
  | cons tag body =>
    simp only [Bool.and_eq_true, beq_iff_eq] at hall
    obtain ⟨⟨⟨htag, hlong⟩, hbody⟩, htexts⟩ := hall
    rw [← htexts]
    exact addContent_keeps_tokens .legacy {} "p.php".toList rfl (eq_ok_of_toOption htokens) htag
      hlong hbody

end Units

end LegacyPhp
