import LegacyPhp.Proofs.Token.Literals

/-!
# Where a scan ends

A scan that looks for an end takes the shortest start of the text that ends in a way that fits
(`Finds`): a block comment, a line comment or the body of a heredoc ends as soon as it can.

A scan that took `cs` and left `rest` takes `cs` before any other text too, as long as that text
does not go on with it (`_of_ends`, and `_ends` where the end is marked and nothing is asked of the
text). What a scan leaves never goes on with what it took (`_rest`).
-/

namespace LegacyPhp.Scan

open Text List

variable {start label taken left quote : Text} {lineStart : Bool} {c : Char}

variable {cs rest more : Text} {parts : Text × Text}

theorem after?_eq_none : after? start cs = none ↔ ¬ start <+: cs := by
  induction start generalizing cs with
  | nil => simp [after?]
  | cons p ps ih =>
    cases cs with
    | nil => simp [after?]
    | cons c cs =>
      simp only [after?, cons_prefix_cons, not_and]
      split
      · next h => simp [h, ih]
      · next h => simp [h]

theorem startsWith_iff : startsWith cs start ↔ start <+: cs := by
  rw [startsWith, Option.isSome_iff_ne_none, Ne, after?_eq_none, Decidable.not_not]

theorem eq_of_push {d : Char} (h : push d parts = (c :: cs, rest)) : parts = (cs, rest) := by
  obtain ⟨first, second⟩ := parts
  cases h
  rfl

/-! ## Shortest starts -/

/-- The shortest start of a text with a property of what is taken and what is left. -/
def Shortest (P : Text → Text → Prop) (cs taken left : Text) : Prop :=
  cs = taken ++ left ∧ P taken left ∧
    ∀ taken' left', cs = taken' ++ left' → P taken' left' → taken.length ≤ taken'.length

/-- No start of a text has the property. -/
def Absent (P : Text → Text → Prop) (cs : Text) : Prop :=
  ∀ taken left, cs = taken ++ left → ¬ P taken left

/-- A scan finds the shortest start with a property, or there is none. -/
def Finds (P : Text → Text → Prop) (cs : Text) : Option (Text × Text) → Prop
  | some (taken, left) => Shortest P cs taken left
  | none => Absent P cs

section Finds

variable {P P' : Text → Text → Prop} {c : Char} {found : Option (Text × Text)}

/-- A scan that goes past a character where nothing ends. -/
theorem Finds.cons (hhere : ¬ P [] (c :: cs))
    (hstep : ∀ taken left, cs = taken ++ left → (P (c :: taken) left ↔ P' taken left))
    (h : Finds P' cs found) : Finds P (c :: cs) (found.map (push c)) := by
  cases found with
  | none =>
    intro taken left heq hP
    cases taken with
    | nil =>
      rw [nil_append] at heq
      exact hhere (heq ▸ hP)
    | cons d taken =>
      obtain ⟨rfl, rfl⟩ := cons.inj heq
      exact h taken left rfl ((hstep taken left rfl).1 hP)
  | some parts =>
    obtain ⟨taken, left⟩ := parts
    obtain ⟨rfl, hP, hmin⟩ := h
    refine ⟨rfl, (hstep taken left rfl).2 hP, ?_⟩
    intro taken' left' heq hP'
    cases taken' with
    | nil =>
      rw [nil_append] at heq
      exact absurd (heq ▸ hP') hhere
    | cons d taken' =>
      obtain ⟨rfl, htail⟩ := cons.inj heq
      exact Nat.succ_le_succ (hmin taken' left' htail ((hstep taken' left' htail).1 hP'))

/-- What was found is found before another text too, if it ends before that text and the text makes
no start within it one that ends. -/
theorem Finds.again (h : Finds P (taken ++ left) (some (taken, left)))
    (h' : Finds P (taken ++ more) found) (hP : P taken more)
    (hinside : ∀ u v, v ≠ [] → taken = u ++ v → P u (v ++ more) → P u (v ++ left)) :
    found = some (taken, more) := by
  cases found with
  | none => exact absurd hP (h' taken more rfl)
  | some parts =>
    obtain ⟨u, rest⟩ := parts
    obtain ⟨heq, hu, hmin⟩ := h'
    obtain ⟨v, rfl⟩ : u <+: taken := prefix_of_prefix_length_le ⟨rest, heq.symm⟩
      (prefix_append taken more) (hmin taken more rfl hP)
    rw [append_assoc] at heq
    obtain rfl := append_cancel_left heq
    by_cases hv : v = []
    · simp [hv]
    · have hle := h.2.2 u (v ++ left) (append_assoc ..) (hinside u v hv rfl hu)
      rw [length_append] at hle
      exact absurd (length_pos_iff.2 hv) (by omega)

end Finds

/-! ## Comments and numbers -/

/-- A line break, a close tag or the end of the text. -/
def LineEnds (_taken left : Text) : Prop :=
  left = [] ∨ nextIs (fun c => c == '\n' || c == '\r') left = true ∨ ['?', '>'] <+: left

/-- The closing mark of a block comment. -/
def BlockEnds (taken _left : Text) : Prop := ∃ body, taken = body ++ ['*', '/']

theorem lineEnds_cons : LineEnds taken (c :: cs) ↔
    (c == '\n' || c == '\r' || (c == '?' && nextIs (· == '>') cs)) := by
  have hmark : ['?', '>'] <+: c :: cs ↔ c = '?' ∧ nextIs (· == '>') cs := by
    constructor
    · rintro ⟨left, heq⟩
      obtain ⟨rfl, rfl⟩ := cons.inj heq
      exact ⟨rfl, rfl⟩
    · rintro ⟨rfl, hnext⟩
      exact ⟨cs.tail, congrArg ('?' :: ·) (nextIs_tail hnext)⟩
  simp [LineEnds, hmark, nextIs]

/-- A line comment ends where the scan of one takes nothing. -/
theorem lineEnds_iff : LineEnds taken rest ↔ (lineComment rest).1 = [] := by
  cases rest with
  | nil => exact iff_of_true (.inl rfl) rfl
  | cons c rest =>
    rw [lineEnds_cons, lineComment]
    split
    · next hend => exact iff_of_true hend rfl
    · next hend => exact iff_of_false hend (cons_ne_nil _ _)

theorem lineComment_finds (cs : Text) : Finds LineEnds cs (some (lineComment cs)) := by
  induction cs with
  | nil => exact ⟨rfl, .inl rfl, fun _ _ _ _ => Nat.zero_le _⟩
  | cons c cs ih =>
    unfold lineComment
    split
    · next hend => exact ⟨rfl, lineEnds_cons.2 hend, fun _ _ _ _ => Nat.zero_le _⟩
    · next hend => exact ih.cons (fun hends => hend (lineEnds_cons.1 hends)) fun _ _ _ => Iff.rfl

/-- The scan of a line comment takes all there is. -/
theorem lineComment_rest (cs : Text) : (lineComment (lineComment cs).2).1 = [] :=
  lineEnds_iff.1 (lineComment_finds cs).2.1

/-- A line comment ends before a line break, a close tag or the end. -/
theorem lineComment_of_ends (h : lineComment (cs ++ rest) = (cs, rest))
    (hmore : (lineComment more).1 = []) : lineComment (cs ++ more) = (cs, more) := by
  have hfinds := lineComment_finds (cs ++ rest)
  rw [h] at hfinds
  refine Option.some.inj (hfinds.again (lineComment_finds (cs ++ more)) (lineEnds_iff.2 hmore) ?_)
  rintro u (_ | ⟨c, v⟩) hne _ hends
  · exact absurd rfl hne
  · rw [cons_append, lineEnds_cons] at hends ⊢
    cases v with
    | cons d v => exact hends
    | nil =>
      -- what follows does not complete a close tag
      have hno : nextIs (· == '>') more = false := by
        rcases more with _ | ⟨d, more⟩
        · rfl
        · refine Bool.eq_false_iff.2 fun hd => ?_
          obtain rfl : d = '>' := eq_of_beq hd
          cases hmore
      rw [nil_append, hno, Bool.and_false, Bool.or_false] at hends
      rw [hends, Bool.true_or]

theorem blockComment_finds (cs : Text) : Finds BlockEnds cs (blockComment cs) := by
  fun_induction blockComment cs with
  | case1 =>
    rintro taken left heq ⟨body, rfl⟩
    simp at heq
  | case2 rest =>
    refine ⟨rfl, ⟨[], rfl⟩, ?_⟩
    rintro taken' left' _ ⟨body, rfl⟩
    simp
  | case3 c rest hnot ih =>
    refine ih.cons ?_ ?_
    · rintro ⟨body, hbody⟩
      simp at hbody
    · rintro taken left rfl
      constructor
      · rintro ⟨body, hbody⟩
        rcases cons_eq_append_iff.1 hbody with ⟨rfl, hmark⟩ | ⟨body, rfl, rfl⟩
        · obtain ⟨rfl, rfl⟩ := cons.inj hmark
          exact absurd rfl (hnot left rfl)
        · exact ⟨body, rfl⟩
      · rintro ⟨body, rfl⟩
        exact ⟨c :: body, rfl⟩

/-- A block comment is read the same before every text. -/
theorem blockComment_ends (h : blockComment cs = some parts) (more : Text) :
    blockComment (parts.1 ++ more) = some (parts.1, more) ∧ 2 ≤ parts.1.length := by
  have hfinds := blockComment_finds cs
  rw [h, ← blockComment_append h] at hfinds
  refine ⟨hfinds.again (blockComment_finds _) hfinds.2.1 fun _ _ _ _ => id, ?_⟩
  obtain ⟨body, hbody⟩ := hfinds.2.1
  simp [hbody]

/-- A number ends where no more of it follows. -/
theorem numberRest_of_ends {hex : Bool} {last : Char}
    (h : numberRest hex last (cs ++ rest) = (cs, rest))
    (hmore : (numberRest hex (cs.getLastD last) more).1 = []) :
    numberRest hex last (cs ++ more) = (cs, more) := by
  induction cs generalizing last with
  | nil =>
    have hsplit := numberRest_append hex last more
    change (numberRest hex last more).1 = [] at hmore
    rw [hmore, nil_append] at hsplit
    exact Prod.ext hmore hsplit
  | cons c cs ih =>
    rw [getLastD_cons] at hmore
    rw [cons_append, numberRest] at h ⊢
    split at h
    · next hchar => rw [if_pos hchar, ih (eq_of_push h) hmore]; rfl
    · next hchar =>
      rw [if_neg hchar]
      split at h
      · next hsign =>
        -- a digit follows the sign, and it belongs to the number
        have hdigit : nextIs Char.isDigit (cs ++ more) := by
          cases cs with
          | cons d cs => exact (Bool.and_eq_true_iff.1 hsign).2
          | nil =>
            exfalso
            have hread := eq_of_push h
            cases rest with
            | nil => simp [nextIs] at hsign
            | cons d rest =>
              have hd : d.isDigit := (Bool.and_eq_true_iff.1 hsign).2
              simp [numberRest, Char.isAlphanum, hd, push] at hread
        rw [if_pos, ih (eq_of_push h) hmore]
        · rfl
        · rw [Bool.and_eq_true] at hsign ⊢
          exact ⟨hsign.1, hdigit⟩
      · cases h

/-- The scan of a number takes all there is. -/
theorem numberRest_rest (hex : Bool) (last : Char) (cs : Text) :
    (numberRest hex ((numberRest hex last cs).1.getLastD last) (numberRest hex last cs).2).1 =
      [] := by
  induction cs generalizing last with
  | nil => rfl
  | cons c cs ih =>
    rw [numberRest]
    split
    · simpa only [push, getLastD_cons] using ih c
    · next hchar =>
      split
      · simpa only [push, getLastD_cons] using ih c
      · next hsign =>
        show (numberRest hex last (c :: cs)).1 = []
        rw [numberRest, if_neg hchar, if_neg hsign]

/-! ## Heredocs -/

theorem after?_append_of_le (h : start.length ≤ cs.length) :
    after? start (cs ++ more) = (after? start cs).map (· ++ more) := by
  induction start generalizing cs with
  | nil => rfl
  | cons p ps ih =>
    cases cs with
    | nil => simp at h
    | cons c cs =>
      simp only [cons_append, after?]
      split
      · exact ih (by simpa using h)
      · rfl

theorem after?_self (start : Text) : after? start start = some [] := by
  induction start with
  | nil => rfl
  | cons c start ih => simpa [after?] using ih

theorem nextIs_append {p : Char → Bool} (h : cs ≠ []) (rest more : Text) :
    nextIs p (cs ++ rest) = nextIs p (cs ++ more) := by
  cases cs with
  | nil => exact absurd rfl h
  | cons c cs => rfl

/-- The label at the start of a line, with nothing behind it that could continue it. -/
def HeredocEnds (label : Text) (lineStart : Bool) (taken left : Text) : Prop :=
  ∃ before, taken = before ++ label ∧ before.getLast?.elim lineStart (· == '\n') ∧
    nextIs isIdentChar left = false

/-- Past a character the label is looked for at the start of a line again. -/
theorem heredocEnds_cons (hhere : lineStart → label = c :: taken → nextIs isIdentChar left) :
    HeredocEnds label lineStart (c :: taken) left ↔ HeredocEnds label (c == '\n') taken left := by
  have hlast : ∀ before : Text, (c :: before).getLast?.elim lineStart (· == '\n') =
      before.getLast?.elim (c == '\n') (· == '\n') := by
    intro before
    rw [getLast?_cons]
    cases before.getLast? <;> rfl
  constructor
  · rintro ⟨before, hbefore, hstart, hnext⟩
    rcases cons_eq_append_iff.1 hbefore with ⟨rfl, hlabel⟩ | ⟨before, rfl, rfl⟩
    · rw [hhere hstart hlabel] at hnext
      cases hnext
    · exact ⟨before, rfl, hlast before ▸ hstart, hnext⟩
  · rintro ⟨before, rfl, hstart, hnext⟩
    exact ⟨c :: before, rfl, (hlast before).symm ▸ hstart, hnext⟩

theorem heredocBody_finds (hlabel : label ≠ []) (lineStart : Bool) (cs : Text) :
    Finds (HeredocEnds label lineStart) cs (heredocBody label lineStart cs) := by
  induction cs generalizing lineStart with
  | nil =>
    rintro taken left heq ⟨before, rfl, _⟩
    simp [hlabel] at heq
  | cons c cs ih =>
    have hnil : ¬ HeredocEnds label lineStart [] (c :: cs) := by
      rintro ⟨before, hbefore, _⟩
      simp [hlabel] at hbefore
    -- where the label is not at the start of the line, or goes on
    have hpast : (∀ left, lineStart → after? label (c :: cs) = some left →
        nextIs isIdentChar left) →
        Finds (HeredocEnds label lineStart) (c :: cs)
          ((heredocBody label (c == '\n') cs).map (push c)) := by
      intro hgoes
      refine (ih (c == '\n')).cons hnil fun taken left htaken =>
        heredocEnds_cons fun hstart hhere => hgoes left hstart ?_
      rw [htaken, ← cons_append, ← hhere, after?_append_of_le (Nat.le_refl _), after?_self]
      rfl
    unfold heredocBody
    split
    · next left hleft =>
      obtain ⟨rfl, hafter⟩ : lineStart ∧ after? label (c :: cs) = some left := by
        cases lineStart with
        | false => cases hleft
        | true => exact ⟨rfl, hleft⟩
      split
      · next hnext =>
        refine hpast fun left' _ hleft' => ?_
        rw [hafter] at hleft'
        cases hleft'
        exact hnext
      · next hnext =>
        refine ⟨after?_eq_some hafter, ⟨[], rfl, rfl, Bool.eq_false_iff.2 hnext⟩, ?_⟩
        rintro taken' left' _ ⟨before, rfl, _⟩
        simp
    · next hnone =>
      refine hpast fun left hstart hleft => ?_
      rw [if_pos hstart, hleft] at hnone
      cases hnone

/-- The body of a heredoc is read the same before every text that does not prolong its label. -/
theorem heredocBody_ends (hlabel : label ≠ []) (h : heredocBody label lineStart cs = some parts)
    (hmore : nextIs isIdentChar more = false) :
    heredocBody label lineStart (parts.1 ++ more) = some (parts.1, more) ∧
      label.length ≤ parts.1.length := by
  have hfinds := heredocBody_finds hlabel lineStart cs
  rw [h, ← heredocBody_append h] at hfinds
  obtain ⟨before, hbefore, hstart, _⟩ := hfinds.2.1
  refine ⟨hfinds.again (heredocBody_finds hlabel lineStart _)
    ⟨before, hbefore, hstart, hmore⟩ ?_, ?_⟩
  · rintro u v hv _ ⟨before, rfl, hstart, hnext⟩
    exact ⟨before, rfl, hstart, nextIs_append hv more parts.2 ▸ hnext⟩
  · rw [hbefore, length_append]
    omega

/-- The opening of a heredoc: blanks and the label, between two quotes or bare. -/
structure HeredocOpens (cs blanks quote label line : Text) : Prop where
  cs_eq : cs = blanks ++ (quote ++ (label ++ (quote ++ line)))
  blanks_all : blanks.all (fun c => c == ' ' || c == '\t') = true
  quote_eq : quote = ['"'] ∨ quote = ['\''] ∨ quote = []
  label_ne_nil : label ≠ []
  label_all : label.all isIdentChar
  label_ends : nextIs isIdentChar (quote ++ line) = false

/-- A heredoc has a label, or it is malformed. -/
theorem heredoc_opens (cs : Text) :
    (∃ blanks quote label line, HeredocOpens cs blanks quote label line) ∨
      heredoc cs = .error .malformedLabel := by
  simp only [heredoc]
  generalize hblanks : run (fun c => c == ' ' || c == '\t') cs = blanks
  generalize hquote : labelQuote blanks.2 = quote
  generalize hlabel : run isIdentChar quote.2 = label
  by_cases hne : label.1 = []
  · exact .inr (if_pos (by simp [hne]))
  cases hleft : after? quote.1 label.2 with
  | none => exact .inr (if_neg (by simp [hne]))
  | some line =>
    refine .inl ⟨blanks.1, quote.1, label.1, line, ?_, ?_, ?_, hne, ?_, ?_⟩
    · rw [← after?_eq_some hleft, ← hlabel, run_append, ← hquote, labelQuote_append, ← hblanks,
        run_append]
    · rw [← hblanks]
      exact all_takeWhile
    · rw [← hquote]
      unfold labelQuote
      split
      · exact .inl rfl
      · exact .inr (.inl rfl)
      · exact .inr (.inr rfl)
    · rw [← hlabel]
      exact all_takeWhile
    · rw [← after?_eq_some hleft, ← hlabel]
      exact nextIs_dropWhile isIdentChar quote.2

theorem labelQuote_append_label (hquote : quote = ['"'] ∨ quote = ['\''] ∨ quote = [])
    (hne : label ≠ []) (hlabel : label.all isIdentChar) (rest : Text) :
    labelQuote (quote ++ (label ++ rest)) = (quote, label ++ rest) := by
  obtain ⟨c, label, rfl⟩ := exists_cons_of_ne_nil hne
  rw [all_cons, Bool.and_eq_true] at hlabel
  rcases hquote with rfl | rfl | rfl
  · rfl
  · rfl
  · show labelQuote (c :: (label ++ rest)) = _
    rw [labelQuote.eq_3]
    · rfl
    · intro left hleft
      rw [(cons.inj hleft).1] at hlabel
      cases hlabel.1
    · intro left hleft
      rw [(cons.inj hleft).1] at hlabel
      cases hlabel.1

namespace HeredocOpens

variable {blanks line : Text} (h : HeredocOpens cs blanks quote label line)
include h

/-- Another line behind the opening. -/
theorem of_line {line' : Text} (hends : nextIs isIdentChar (quote ++ line') = false) :
    HeredocOpens (blanks ++ (quote ++ (label ++ (quote ++ line')))) blanks quote label line' :=
  { h with cs_eq := rfl, label_ends := hends }

/-- Behind the label it is up to the body. -/
theorem heredoc_eq : heredoc cs =
    match heredocBody label false line with
    | none => .error .unterminated
    | some (body, rest) => .ok (blanks ++ quote ++ label ++ quote ++ body, rest) := by
  obtain ⟨rfl, hblanks, hquote, hne, hlabel, hnext⟩ := h
  have hfirst : nextIs (fun c => c == ' ' || c == '\t')
      (quote ++ (label ++ (quote ++ line))) = false := by
    obtain ⟨c, label, rfl⟩ := exists_cons_of_ne_nil hne
    rw [all_cons, Bool.and_eq_true] at hlabel
    rcases hquote with rfl | rfl | rfl
    · rfl
    · rfl
    · show (c == ' ' || c == '\t') = false
      rw [Bool.or_eq_false_iff, beq_eq_false_iff_ne, beq_eq_false_iff_ne]
      constructor
      all_goals
        rintro rfl
        cases hlabel.1
  have hclose : after? quote (quote ++ line) = some line := by
    rw [after?_append_of_le (Nat.le_refl _), after?_self]
    rfl
  have hempty : label.isEmpty = false := by simpa using hne
  simp only [heredoc, run_append_left hblanks hfirst, labelQuote_append_label hquote hne hlabel,
    run_append_left hlabel hnext, hempty, hclose]
  rfl

end HeredocOpens

/-- A heredoc that is read consists of its label and its body. -/
theorem heredoc_eq_ok (h : heredoc cs = .ok parts) :
    ∃ blanks quote label body, HeredocOpens cs blanks quote label (body ++ parts.2) ∧
      parts.1 = blanks ++ (quote ++ (label ++ (quote ++ body))) ∧
      heredocBody label false (body ++ parts.2) = some (body, parts.2) := by
  rcases heredoc_opens cs with ⟨blanks, quote, label, line, hopens⟩ | hmalformed
  · rw [hopens.heredoc_eq] at h
    split at h
    · cases h
    · next body rest hbody =>
      cases h
      have hline : body ++ rest = line := heredocBody_append hbody
      rw [← hline] at hopens hbody
      exact ⟨blanks, quote, label, body, hopens, by simp, hbody⟩
  · rw [hmalformed] at h
    cases h

/-- A heredoc is read the same before every text that does not prolong its label. -/
theorem heredoc_ends (h : heredoc cs = .ok parts) (hmore : nextIs isIdentChar more = false) :
    heredoc (parts.1 ++ more) = .ok (parts.1, more) := by
  obtain ⟨blanks, quote, label, body, hopens, hparts, hbody⟩ := heredoc_eq_ok h
  obtain ⟨hread, hlength⟩ := heredocBody_ends hopens.label_ne_nil hbody hmore
  have hne : quote ++ body ≠ [] := by
    have hpos := Nat.lt_of_lt_of_le (length_pos_iff.2 hopens.label_ne_nil) hlength
    exact append_ne_nil_of_right_ne_nil _ (length_pos_iff.1 hpos)
  have hend : nextIs isIdentChar (quote ++ (body ++ more)) = false := by
    rw [← append_assoc, nextIs_append hne more parts.2, append_assoc]
    exact hopens.label_ends
  have hagain := (hopens.of_line hend).heredoc_eq
  rw [hread] at hagain
  rw [hparts]
  simpa using hagain

/-- The label at the end of a heredoc is a whole word. -/
theorem heredoc_rest (h : heredoc cs = .ok parts) : nextIs isIdentChar parts.2 = false := by
  obtain ⟨_, _, label, body, hopens, _, hbody⟩ := heredoc_eq_ok h
  have hfinds := heredocBody_finds hopens.label_ne_nil false (body ++ parts.2)
  rw [hbody] at hfinds
  obtain ⟨_, _, _, hrest⟩ := hfinds.2.1
  exact hrest

/-! ## Operators -/

/-- The scan takes the longest operator that the text begins with, or else its first character. -/
theorem operator_longest (c : Char) (cs : Text) :
    ((operator c cs).1 = [c] ∨ (operator c cs).1 ∈ operators) ∧
      ∀ op ∈ operators, op <+: c :: cs → op.length ≤ (operator c cs).1.length := by
  have hpair : operators.Pairwise fun op later => later.length ≤ op.length := by decide
  have hpast : ∀ {op : Text}, ((after? op (c :: cs)).map fun left => (op, left)) = none →
      ¬ op <+: c :: cs := fun h => after?_eq_none.1 (Option.map_eq_none_iff.1 h)
  unfold operator
  split
  · next parts hfind =>
    obtain ⟨before, found, after, hops, hfound, hbefore⟩ := findSome?_eq_some_iff.1 hfind
    obtain ⟨left, _, rfl⟩ := Option.map_eq_some_iff.1 hfound
    refine ⟨.inr (by simp [hops]), fun op hop hstart => ?_⟩
    rw [hops] at hop hpair
    rcases mem_append.1 hop with hop | hop
    · exact absurd hstart (hpast (hbefore op hop))
    · rcases mem_cons.1 hop with rfl | hop
      · exact Nat.le_refl _
      · exact (pairwise_cons.1 (pairwise_append.1 hpair).2.1).1 op hop
  · next hnone =>
    exact ⟨.inl rfl, fun op hop hstart =>
      absurd hstart (hpast (findSome?_eq_none_iff.1 hnone op hop))⟩

/-- A mark ends where no longer one is spelt. -/
theorem operator_of_ends (h : operator c (cs ++ rest) = (c :: cs, rest))
    (hmore : ∀ op ∈ operators, op <+: c :: cs ++ more → op.length ≤ (c :: cs).length) :
    operator c (cs ++ more) = (c :: cs, more) := by
  obtain ⟨htaken, _⟩ := operator_longest c (cs ++ rest)
  obtain ⟨hfound, hlongest⟩ := operator_longest c (cs ++ more)
  have hne := operator_ne_nil c (cs ++ more)
  have hsplit : _ = (c :: cs) ++ more := operator_append c (cs ++ more)
  rw [h] at htaken
  generalize operator c (cs ++ more) = found at hfound hlongest hne hsplit
  have hle : (c :: cs).length ≤ found.1.length := by
    rcases htaken with hsingle | hop
    · rw [show c :: cs = [c] from hsingle]
      exact length_pos_iff.2 hne
    · exact hlongest _ hop (prefix_append (c :: cs) more)
  have hge : found.1.length ≤ (c :: cs).length := by
    rcases hfound with hsingle | hop
    · rw [hsingle]
      exact Nat.succ_le_succ (Nat.zero_le _)
    · exact hmore _ hop ⟨_, hsplit⟩
  exact Prod.ext_iff.2 (append_inj hsplit (Nat.le_antisymm hge hle))

end LegacyPhp.Scan
