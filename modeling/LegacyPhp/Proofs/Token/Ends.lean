import LegacyPhp.Proofs.Token.ScanEnds

/-!
# Where a token ends

`goesOn` says of a token and of a text behind it whether the lexer would not read the token as it is
there: a word before an identifier character, a mark before a character that makes a longer mark of
it, a line comment before anything on its line. What the lexer leaves behind a token never goes on
with it (`goesOn_of_scanCode`), and before a text that does not go on with it the token is read as
it was (`scanCode_of_ends`). So tokens can be taken out of one text and put into another, and all
that has to be looked at are the places where they meet.

How much of the text counts is little: two characters decide (`goesOn_ahead`), and nearly always one
(`goesOn_ahead_cons`).
-/

namespace LegacyPhp

open Text Scan List

variable {text more rest u : Text} {s : Scanned} {kind : TokenKind} {d c : Char}

/-- The marks of more than one character, those that open something else included. -/
def longMarks : List Text := [['?', '>'], ['/', '/'], ['/', '*'], ['<', '<', '<']] ++ operators

/-- Whether a mark is longer, or opens something else, with `rest` behind it. -/
def markGoesOn (text rest : Text) : Bool :=
  (longMarks.any fun mark => text.length < mark.length && startsWith (text ++ rest) mark) ||
    (text == ['$'] && nextIs isIdentStart rest) || (text == ['.'] && nextIs Char.isDigit rest)

/-- Whether a number is hexadecimal. -/
def isHex : Text → Bool
  | '0' :: d :: _ => d == 'x' || d == 'X'
  | _ => false

/-- Whether an open tag is not read as it is with `rest` behind it. -/
def tagGoesOn (text rest : Text) : Bool :=
  match tagAfter (text.drop 2 ++ rest) with
  | .ok (some (taken, _)) => taken != text.drop 2
  | _ => true

/-- Whether text outside the code is not read as it is with `rest` behind it. -/
def htmlGoesOn (text rest : Text) : Bool :=
  match findOpenTag (text ++ rest) with
  | .ok none => !rest.isEmpty
  | .ok (some t) => t.html != text
  | .error _ => true

/-- Whether a token of this kind and text is not read as it is with `rest` behind it. -/
def goesOn (kind : TokenKind) (text rest : Text) : Bool :=
  match kind with
  | .whitespace => nextIs isSpace rest
  | .comment => !startsWith text ['/', '*'] && !(lineComment rest).1.isEmpty
  | .variable | .identifier | .keyword _ => nextIs isIdentChar rest
  | .number => !(numberRest (isHex text) (text.getLastD ' ') rest).1.isEmpty
  | .stringLiteral => startsWith text ['<'] && nextIs isIdentChar rest
  | .punctuation => markGoesOn text rest
  | .openTag => tagGoesOn text rest
  | .closeTag => text == ['?', '>'] && !(lineBreak rest).1.isEmpty
  | .inlineHtml => htmlGoesOn text rest
  | .docComment | .endOfInput => false

section Code

variable {b : Before} {pos : Nat} {c : Char} {cs : Text}

/-- The kind of a token that is read with the memory `b` and `rest` behind it: a word may be
reserved in one place and not in another. -/
def kindIn (b : Before) (text rest : Text) (kind : TokenKind) : TokenKind :=
  match kind with
  | .identifier | .keyword _ => wordKind b text rest
  | kind => kind

theorem markGoesOn_eq_false : markGoesOn text rest = false ↔
      (∀ mark ∈ longMarks, text.length < mark.length → ¬ mark <+: text ++ rest) ∧
      (text = ['$'] → nextIs isIdentStart rest = false) ∧
      (text = ['.'] → nextIs Char.isDigit rest = false) := by
  simp only [markGoesOn, Bool.or_eq_false_iff, any_eq_false, Bool.and_eq_true,
    decide_eq_true_eq, startsWith_iff, not_and, Bool.and_eq_false_imp, beq_iff_eq, and_assoc]

theorem nextIs_of_not_prefix (h : ¬ [c, d] <+: [c] ++ rest) : nextIs (· == d) rest = false := by
  cases rest with
  | nil => rfl
  | cons e rest =>
    refine beq_eq_false_iff_ne.2 fun heq => h ?_
    subst heq
    exact ⟨rest, rfl⟩

theorem length_of_nextIs {p q : Char → Bool} (hq : ∀ c, p c → q c)
    (h : nextIs p rest) : (run q rest).1 ≠ [] := by
  cases rest with
  | nil => cases h
  | cons d rest => simp [run, hq d h]

theorem numberRest_ne_nil (hex : Bool) (last : Char) (h : nextIs Char.isDigit rest) :
    (numberRest hex last rest).1 ≠ [] := by
  cases rest with
  | nil => cases h
  | cons d rest =>
    have hd : d.isDigit := h
    simp [numberRest, Char.isAlphanum, hd, push]

theorem scanCode_single (h : scanCode b pos c rest = .ok ⟨kind, [c], rest⟩)
    (hc : c = '?' ∨ c = '$') : kind = .punctuation := by
  have hscan : Scans b pos c rest kind [c] rest := scans_of_scanCode h
  cases hscan with
  | mark => rfl
  | whitespace hc' | identifier hc' | keyword hc' => rcases hc with rfl | rfl <;> cases hc'
  | lineComment hc' | number hc' | single hc' | double hc' =>
    rcases hc with rfl | rfl <;> simp at hc'
  | var _ hnext hrun =>
    exact absurd (congrArg Prod.fst hrun)
      (length_of_nextIs (fun _ => isIdentChar_of_isIdentStart) hnext)

theorem prefix_append_of_le {mark : Text} (h : mark <+: text ++ more)
    (hlength : mark.length ≤ text.length) : mark <+: text ++ rest :=
  (prefix_of_prefix_length_le h (prefix_append text more) hlength).trans
    (prefix_append text rest)

theorem lineBreak_of_ends (h : lineBreak (cs ++ rest) = (cs, rest))
    (hmore : cs = [] → (lineBreak more).1 = []) : lineBreak (cs ++ more) = (cs, more) := by
  by_cases hcs : cs = []
  · subst hcs
    have hsplit := lineBreak_append more
    rw [hmore rfl, nil_append] at hsplit
    exact Prod.ext (hmore rfl) hsplit
  · unfold lineBreak at h
    split at h
    · obtain ⟨rfl, rfl⟩ := Prod.mk.inj h
      rfl
    · obtain ⟨rfl, rfl⟩ := Prod.mk.inj h
      rfl
    · exact absurd (Prod.mk.inj h).1.symm hcs

theorem blockCommentKind_append (h : 2 ≤ cs.length) (rest more : Text) :
    blockCommentKind (cs ++ rest) = blockCommentKind (cs ++ more) := by
  obtain _ | ⟨c, _ | ⟨d, cs⟩⟩ := cs
  · simp at h
  · simp at h
  · show blockCommentKind (c :: d :: (cs ++ rest)) = blockCommentKind (c :: d :: (cs ++ more))
    by_cases hc : c = '*'
    · subst hc; rfl
    · rw [blockCommentKind.eq_2, blockCommentKind.eq_2]
      · intro e left heq
        exact hc (cons.inj heq).1
      · intro e left heq
        exact hc (cons.inj heq).1

theorem isHex_eq (h : cs = [] → nextIs (fun d => d == 'x' || d == 'X') rest = false) :
    (c == '0' && nextIs (fun d => d == 'x' || d == 'X') (cs ++ rest)) = isHex (c :: cs) := by
  by_cases hc : c = '0'
  · subst hc
    cases cs with
    | nil => simpa [isHex] using h rfl
    | cons d cs => rfl
  · have hne : (c == '0') = false := beq_eq_false_iff_ne.2 hc
    rw [hne, Bool.false_and]
    unfold isHex
    split
    · next heq => exact absurd (cons.inj heq).1 hc
    · rfl

theorem nextIs_hex_of_numberRest {hex : Bool} {last : Char}
    (h : (numberRest hex last rest).1 = []) :
    nextIs (fun d => d == 'x' || d == 'X') rest = false := by
  cases rest with
  | nil => rfl
  | cons d rest =>
    refine Bool.eq_false_iff.2 fun hd => ?_
    have hd : d == 'x' || d == 'X' := hd
    rw [Bool.or_eq_true, beq_iff_eq, beq_iff_eq] at hd
    rcases hd with rfl | rfl <;> simp [numberRest, push] at h

/-- A token is read in the same way before any text that it does not go on with. -/
theorem scanCode_of_ends (h : scanCode b pos c (cs ++ rest) = .ok ⟨kind, c :: cs, rest⟩)
    (hmore : goesOn kind (c :: cs) more = false) (b' : Before) (pos' : Nat) :
    scanCode b' pos' c (cs ++ more) =
      .ok ⟨kindIn b' (c :: cs) more kind, c :: cs, more⟩ := by
  have hscan : Scans b pos c (cs ++ rest) kind (c :: cs) rest := scans_of_scanCode h
  cases hscan with
  | closeTag hc hrest hbreak =>
    obtain rfl := (cons.inj hrest).2
    refine (Scans.closeTag hc rfl (lineBreak_of_ends hbreak ?_)).scanCode_eq
    rintro rfl
    simpa [goesOn, hc] using hmore
  | whitespace hc hrun =>
    exact (Scans.whitespace hc (run_append_left (all_of_run hrun) hmore)).scanCode_eq
  | lineComment hc hcomment =>
    have hslash : startsWith (c :: cs) ['/', '*'] = false := by
      refine Bool.eq_false_iff.2 fun hstarts => ?_
      obtain ⟨left, hleft⟩ := startsWith_iff.1 hstarts
      obtain ⟨rfl, rfl⟩ := cons.inj hleft
      simp [nextIs] at hc
    have hend : (lineComment more).1 = [] := by simpa [goesOn, hslash] using hmore
    refine (Scans.lineComment (hc.imp_right fun hc => ⟨hc.1, ?_⟩)
      (lineComment_of_ends hcomment hend)).scanCode_eq
    rw [nextIs_append ?_ more rest]
    · exact hc.2
    · rintro rfl
      rw [← nextIs_tail hc.2] at hcomment
      simp [lineComment, push] at hcomment
  | comment hc hrest hbody hkind =>
    obtain rfl := (cons.inj hrest).2
    obtain ⟨hread, hlength⟩ := blockComment_ends hbody more
    have hsame := blockCommentKind_append hlength more rest
    exact (Scans.comment hc rfl hread (hsame.trans hkind)).scanCode_eq
  | docComment hc hrest hbody hkind =>
    obtain rfl := (cons.inj hrest).2
    obtain ⟨hread, hlength⟩ := blockComment_ends hbody more
    have hsame := blockCommentKind_append hlength more rest
    exact (Scans.docComment hc rfl hread (hsame.trans hkind)).scanCode_eq
  | var hc hnext hrun =>
    have hcs : cs ≠ [] := by
      have hne := length_of_nextIs (fun _ => isIdentChar_of_isIdentStart) hnext
      rwa [hrun] at hne
    rw [nextIs_append hcs rest more] at hnext
    exact (Scans.var hc hnext (run_append_left (all_of_run hrun) hmore)).scanCode_eq
  | identifier hc hrun | keyword hc hrun => exact scanCode_word hc (all_of_run hrun) hmore pos'
  | number hc hnumber =>
    have hend : (numberRest (isHex (c :: cs)) (cs.getLastD c) more).1 = [] := by
      simpa only [goesOn, getLastD_cons, Bool.not_eq_false', List.isEmpty_iff] using hmore
    have hrest : (c == '0' && nextIs (fun d => d == 'x' || d == 'X') (cs ++ rest)) =
        isHex (c :: cs) := isHex_eq fun hcs => by
      subst hcs
      exact nextIs_hex_of_numberRest (congrArg Prod.fst hnumber)
    have hsame : (c == '0' && nextIs (fun d => d == 'x' || d == 'X') (cs ++ more)) =
        isHex (c :: cs) := isHex_eq fun _ => nextIs_hex_of_numberRest hend
    rw [hrest] at hnumber
    refine (Scans.number ?_ (by rw [hsame, numberRest_of_ends hnumber hend])).scanCode_eq
    refine Bool.or_eq_true_iff.2 ((Bool.or_eq_true_iff.1 hc).imp_right fun hpoint => ?_)
    obtain ⟨hpoint, hnext⟩ := Bool.and_eq_true_iff.1 hpoint
    have hcs : cs ≠ [] := by
      have hne := numberRest_ne_nil (isHex (c :: cs)) c hnext
      rwa [hnumber] at hne
    rwa [hpoint, nextIs_append hcs more rest]
  | single hc hbody =>
    have hquote : isQuote '\'' := rfl
    exact Scans.scanCode_eq (.single hc (literalRest_ends hquote hbody more))
  | double hc hbody =>
    refine Scans.scanCode_eq (.double hc ?_)
    rw [← opened_of_double hc] at hbody ⊢
    exact literalRest_ends (isQuote_of_double hc) hbody more
  | heredoc hc hrest hbody =>
    obtain rfl := (cons.inj (cons.inj hrest).2).2
    refine (Scans.heredoc hc rfl (heredoc_ends hbody ?_)).scanCode_eq
    simpa [goesOn, startsWith, after?, hc] using hmore
  | mark hop hspace hword hdigit hquote hopens hvariable hpoint =>
    obtain ⟨hmarks, hdollar, hdot⟩ := markGoesOn_eq_false.1 hmore
    have hnext : ∀ {p : Char → Bool}, (cs = [] → nextIs p more = false) →
        nextIs p (cs ++ rest) = false → nextIs p (cs ++ more) = false := by
      intro p hnil hrest
      cases cs with
      | nil => exact hnil rfl
      | cons d cs => exact hrest
    refine (Scans.mark (operator_of_ends hop fun op hmem hstart => ?_) hspace hword hdigit hquote
      (fun opening hmem hprefix => ?_)
      (fun hc => hnext (fun hcs => hdollar (by rw [hc, hcs])) (hvariable hc))
      (fun hc => hnext (fun hcs => hdot (by rw [hc, hcs])) (hpoint hc))).scanCode_eq
    · exact Nat.le_of_not_lt fun hlength => hmarks op (mem_append_right _ hmem) hlength hstart
    · by_cases hlength : (c :: cs).length < opening.length
      · exact hmarks opening (mem_append_left _ hmem) hlength hprefix
      · exact hopens opening hmem (prefix_append_of_le hprefix (Nat.le_of_not_lt hlength))

/-- What follows a mark does not go on with it. -/
theorem markGoesOn_of_operator (h : operator c cs = (text, rest))
    (hopens : ∀ opening ∈ openings, ¬ opening <+: c :: cs)
    (hvariable : c = '$' → nextIs isIdentStart cs = false)
    (hpoint : c = '.' → nextIs Char.isDigit cs = false) : markGoesOn text rest = false := by
  have hwhole : text ++ rest = c :: cs := by
    have happend := operator_append c cs
    rwa [h] at happend
  refine markGoesOn_eq_false.2 ⟨fun mark hmark hlength hprefix => ?_, ?_, ?_⟩
  · rcases mem_append.1 hmark with hmark | hmark
    · -- the scan looked for these before it looked for an operator
      exact hopens mark hmark (hwhole ▸ hprefix)
    · have hlongest := (operator_longest c cs).2 mark hmark (hwhole ▸ hprefix)
      rw [h] at hlongest
      exact Nat.not_lt.2 hlongest hlength
  · rintro rfl
    obtain ⟨rfl, rfl⟩ := cons.inj hwhole
    exact hvariable rfl
  · rintro rfl
    obtain ⟨rfl, rfl⟩ := cons.inj hwhole
    exact hpoint rfl

/-- What follows a token does not go on with it. -/
theorem goesOn_of_scanCode (h : scanCode b pos c cs = .ok s) :
    goesOn s.kind s.text s.rest = false := by
  obtain ⟨kind, text, left⟩ := s
  cases scans_of_scanCode h with
  | @closeTag tail _ _ _ _ hbreak =>
    have hsplit := lineBreak_append tail
    rw [hbreak] at hsplit
    refine Bool.eq_false_iff.2 fun hgo => ?_
    simp only [goesOn, Bool.and_eq_true, beq_iff_eq, cons.injEq, true_and,
      Bool.not_eq_true', isEmpty_eq_false_iff] at hgo
    obtain ⟨⟨_, rfl⟩, hgo⟩ := hgo
    obtain rfl : left = tail := hsplit
    exact hgo (by rw [hbreak])
  | whitespace _ hrun => exact nextIs_of_run hrun
  | lineComment _ hcomment =>
    have hrest := lineComment_rest cs
    rw [hcomment] at hrest
    simp only [goesOn, hrest]
    exact Bool.and_false _
  | comment hc => rw [hc]; rfl
  | docComment => rfl
  | var _ _ hrun | identifier _ hrun | keyword _ hrun => exact nextIs_of_run hrun
  | number _ hnumber =>
    simp only [goesOn, getLastD_cons, Bool.not_eq_false', List.isEmpty_iff]
    have hrest := numberRest_rest (c == '0' && nextIs (fun d => d == 'x' || d == 'X') cs) c cs
    have hsplit := numberRest_append (c == '0' && nextIs (fun d => d == 'x' || d == 'X') cs) c cs
    rw [hnumber] at hrest hsplit
    rwa [← isHex_eq fun hnil => ?_, hsplit]
    exact nextIs_hex_of_numberRest hrest
  | single hc => rw [hc]; rfl
  | double hc => rcases hc with rfl | rfl <;> rfl
  | heredoc _ _ hbody => simp only [goesOn, heredoc_rest hbody, Bool.and_false]
  | mark hop _ _ _ _ hopens hvariable hpoint =>
    exact markGoesOn_of_operator hop hopens hvariable hpoint

/-! ## How far a token looks ahead -/

theorem length_le_of_mem_longMarks : ∀ mark ∈ longMarks, mark.length ≤ 3 := by decide

/-- A mark of three characters is reached through one of two, but for the ellipsis. -/
theorem take_mem_longMarks : ∀ mark ∈ longMarks, mark.length = 3 →
    mark.take 2 ∈ longMarks ∨ mark = ['.', '.', '.'] := by decide

theorem markGoesOn_ahead (htext : text ≠ []) (hu : 2 ≤ u.length)
    (h : markGoesOn text (u ++ rest) = false) : markGoesOn text (u ++ more) = false := by
  obtain ⟨hmarks, hdollar, hpoint⟩ := markGoesOn_eq_false.1 h
  have hne : u ≠ [] := fun heq => by simp [heq] at hu
  have hlength := length_pos_iff.2 htext
  refine markGoesOn_eq_false.2 ⟨fun mark hmark hlong hprefix => ?_, fun heq => ?_, fun heq => ?_⟩
  · have hthree := length_le_of_mem_longMarks mark hmark
    rw [← append_assoc] at hprefix
    refine hmarks mark hmark hlong ?_
    rw [← append_assoc]
    refine prefix_append_of_le hprefix ?_
    rw [length_append]
    omega
  · rw [nextIs_append hne more rest]
    exact hdollar heq
  · rw [nextIs_append hne more rest]
    exact hpoint heq

theorem markGoesOn_ahead_cons (htext : text ≠ [])
    (hmore : text = ['.'] → c = '.' → nextIs (· == '.') more = false)
    (h : markGoesOn text (c :: rest) = false) : markGoesOn text (c :: more) = false := by
  obtain ⟨hmarks, hdollar, hpoint⟩ := markGoesOn_eq_false.1 h
  have hlength := length_pos_iff.2 htext
  refine markGoesOn_eq_false.2 ⟨fun mark hmark hlong hprefix => ?_, hdollar, hpoint⟩
  have hthree := length_le_of_mem_longMarks mark hmark
  have hno : ∀ mark ∈ longMarks, text.length < mark.length → mark <+: text ++ c :: more →
      ¬ mark.length ≤ text.length + 1 := by
    intro mark hmark hlong hprefix hshort
    rw [append_cons] at hprefix
    refine hmarks mark hmark hlong ?_
    rw [append_cons]
    exact prefix_append_of_le hprefix (by rwa [length_append, length_singleton])
  have hshort := hno mark hmark hlong hprefix
  rcases take_mem_longMarks mark hmark (by omega) with htwo | rfl
  · have htake : (mark.take 2).length = 2 := by
      rw [length_take]
      omega
    have hstart := take_prefix 2 mark
    exact hno _ htwo (by omega) (hstart.trans hprefix) (by omega)
  · obtain ⟨d, rfl⟩ : ∃ d, text = [d] := length_eq_one_iff.1 (by simp at hshort; omega)
    obtain ⟨left, hleft⟩ := hprefix
    obtain ⟨hd, htail⟩ := cons.inj hleft
    obtain ⟨hc, rfl⟩ := cons.inj htail
    cases hmore (by rw [hd]) hc.symm

theorem isEmpty_lineComment (c : Char) (rest : Text) : (lineComment (c :: rest)).1.isEmpty =
      (c == '\n' || c == '\r' || (c == '?' && nextIs (· == '>') rest)) := by
  rw [lineComment]
  split
  · next h => exact h.symm
  · next h => exact (Bool.eq_false_iff.2 h).symm

theorem isEmpty_numberRest (hex : Bool) (last c : Char) (rest : Text) :
    (numberRest hex last (c :: rest)).1.isEmpty =
      !((c.isAlphanum || c == '_' || c == '.') || ((c == '+' || c == '-') && !hex &&
        (last == 'e' || last == 'E') && nextIs Char.isDigit rest)) := by
  rw [numberRest]
  split
  · next h => rw [h]; rfl
  · next h =>
    rw [Bool.eq_false_iff.2 h]
    split
    · next hsign => rw [hsign]; rfl
    · next hsign => rw [Bool.eq_false_iff.2 hsign]; rfl

theorem isEmpty_lineBreak (c : Char) (rest : Text) :
    (lineBreak (c :: rest)).1.isEmpty = !(c == '\n' || (c == '\r' && nextIs (· == '\n') rest)) := by
  unfold lineBreak
  split
  · next heq => cases heq; rfl
  · next heq => cases heq; rfl
  · next hpair hbreak =>
    have hc : (c == '\n') = false := beq_eq_false_iff_ne.2 fun heq => hbreak rest (by rw [heq])
    rw [hc, Bool.false_or]
    cases rest with
    | nil => rw [nextIs, Bool.and_false]; rfl
    | cons d rest =>
      have hcd : (c == '\r' && d == '\n') = false := by
        refine Bool.eq_false_iff.2 fun heq => ?_
        rw [Bool.and_eq_true, beq_iff_eq, beq_iff_eq] at heq
        exact hpair rest (by rw [heq.1, heq.2])
      rw [nextIs, hcd]
      rfl

/-- Two characters decide whether a token of the code goes on. -/
theorem goesOn_ahead (htext : text ≠ []) (hkind : kind ≠ .openTag ∧ kind ≠ .inlineHtml)
    (hu : 2 ≤ u.length) (h : goesOn kind text (u ++ rest) = false) :
    goesOn kind text (u ++ more) = false := by
  obtain _ | ⟨c, _ | ⟨d, u⟩⟩ := u
  · cases hu
  · exact absurd hu (Nat.not_succ_le_self 1)
  · unfold goesOn at h ⊢
    split
    · exact h
    · simpa only [cons_append, isEmpty_lineComment, nextIs] using h
    · exact h
    · exact h
    · exact h
    · simpa only [cons_append, isEmpty_numberRest, nextIs] using h
    · exact h
    · exact markGoesOn_ahead htext hu h
    · exact absurd rfl hkind.1
    · simpa only [cons_append, isEmpty_lineBreak, nextIs] using h
    · exact absurd rfl hkind.2
    · rfl
    · rfl

/-- One character decides where what follows it could not have been part of a longer mark. -/
theorem goesOn_ahead_cons (htext : text ≠ []) (hkind : kind ≠ .openTag ∧ kind ≠ .inlineHtml)
    (hmore : nextIs (fun d => d.isDigit || d == '.') more = false)
    (hquestion : kind = .comment → c = '?' → nextIs (· == '>') rest = false)
    (hbreak : kind = .closeTag → nextIs (· == '\n') more = false)
    (h : goesOn kind text (c :: rest) = false) : goesOn kind text (c :: more) = false := by
  have hdigit : nextIs Char.isDigit more = false ∧ nextIs (· == '.') more = false := by
    cases more with
    | nil => exact ⟨rfl, rfl⟩
    | cons d more => exact Bool.or_eq_false_iff.1 hmore
  unfold goesOn at h ⊢
  split
  · exact h
  · rw [isEmpty_lineComment] at h ⊢
    have hclose : (c == '?' && nextIs (· == '>') rest) = false := by
      cases hc : c == '?' with
      | false => rfl
      | true => exact hquestion rfl (eq_of_beq hc)
    rw [hclose, Bool.or_false] at h
    rcases Bool.and_eq_false_iff.1 h with hmark | hend
    · rw [hmark, Bool.false_and]
    · rw [Bool.not_eq_false'] at hend
      rw [hend, Bool.true_or, Bool.not_true, Bool.and_false]
  · exact h
  · exact h
  · exact h
  · rw [isEmpty_numberRest, Bool.not_not, Bool.or_eq_false_iff] at h
    rw [isEmpty_numberRest, Bool.not_not, h.1, hdigit.1, Bool.and_false, Bool.or_false]
  · exact h
  · exact markGoesOn_ahead_cons htext (fun _ _ => hdigit.2) h
  · exact absurd rfl hkind.1
  · rw [isEmpty_lineBreak, Bool.not_not] at h ⊢
    rw [hbreak rfl, Bool.and_false, Bool.or_false]
    rcases Bool.and_eq_false_iff.1 h with htag | hend
    · rw [htag, Bool.false_and]
    · rw [(Bool.or_eq_false_iff.1 hend).1, Bool.and_false]
  · exact absurd rfl hkind.2
  · rfl
  · rfl

end Code

/-! ## Words and blanks behind a token -/

theorem markGoesOn_of_not_mem (hd : ∀ mark ∈ longMarks, d ∉ mark)
    (hdollar : text = ['$'] → isIdentStart d = false) (hpoint : text = ['.'] → d.isDigit = false) :
    markGoesOn text (d :: more) = false := by
  refine markGoesOn_eq_false.2 ⟨fun mark hmark hlength hprefix => hd mark hmark ?_, hdollar, hpoint⟩
  have hget := hprefix.getElem hlength
  rw [getElem_append_right (Nat.le_refl _)] at hget
  simp only [Nat.sub_self, getElem_cons_zero] at hget
  exact hget ▸ getElem_mem hlength

theorem not_mem_longMarks_of_isIdentStart (h : isIdentStart c) : ∀ mark ∈ longMarks, c ∉ mark := by
  intro mark hmark hmem
  have hall : ∀ mark ∈ longMarks, mark.all (!isIdentStart ·) := forall_mem_of_all (by decide)
  simpa [h] using all_eq_true.1 (hall mark hmark) c hmem

/-- Where a token of the code ends before a letter, it ends before any other word. -/
theorem goesOn_before_word (hc : c.isAlpha) (hd : isIdentStart d)
    (hkind : kind ≠ .openTag ∧ kind ≠ .inlineHtml) (h : goesOn kind text (c :: rest) = false) :
    goesOn kind text (d :: more) = false := by
  have hstart : isIdentStart c := by simp [isIdentStart, hc]
  have hchar : isIdentChar c := isIdentChar_of_isIdentStart hstart
  have hbreak : ∀ {e}, isIdentStart e → (e == '\n') = false ∧ (e == '\r') = false := fun he =>
    ⟨ne_of_class he (by decide), ne_of_class he (by decide)⟩
  unfold goesOn at h ⊢
  split
  · exact not_isSpace_of_isIdentStart hd
  · rw [isEmpty_lineComment, (hbreak hstart).1, (hbreak hstart).2,
      ne_of_class hstart (by decide)] at h
    rw [Bool.and_eq_false_iff.1 h |>.resolve_right Bool.noConfusion, Bool.false_and]
  · exact absurd hchar (Bool.eq_false_iff.1 h)
  · exact absurd hchar (Bool.eq_false_iff.1 h)
  · exact absurd hchar (Bool.eq_false_iff.1 h)
  · rw [isEmpty_numberRest, Char.isAlphanum, hc] at h
    cases h
  · have hmark := (Bool.and_eq_false_iff.1 h).resolve_right (ne_true_of_eq_false · hchar)
    rw [hmark, Bool.false_and]
  · obtain ⟨_, hdollar, _⟩ := markGoesOn_eq_false.1 h
    exact markGoesOn_of_not_mem (not_mem_longMarks_of_isIdentStart hd)
      (fun htext => absurd hstart (Bool.eq_false_iff.1 (hdollar htext)))
      fun _ => not_isDigit_of_isIdentStart hd
  · exact absurd rfl hkind.1
  · rw [isEmpty_lineBreak, (hbreak hd).1, (hbreak hd).2, Bool.false_and, Bool.or_false,
      Bool.not_false, Bool.not_true, Bool.and_false]
  · exact absurd rfl hkind.2
  · rfl
  · rfl

end LegacyPhp
