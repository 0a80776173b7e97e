import LegacyPhp.Proofs.Ternary.Pattern
import Mathlib.Data.Nat.Find
import Mathlib.Logic.Function.Iterate

/-!
# Short ternaries are written out in four rounds

A round writes out short ternaries that do not overlap, from the left, so some are left for the next
one. Where they come from is said by `Leftover`: they stand in the argument list of one that was
written out, or they begin with the blank at its end, or they are an operator that has lost the
question mark before it, as the second one in `a ?: ?: b` has. No others appear: the parentheses
that are written stop every operand that would reach over them (`leftover_of_suffix`).

From this follows what each round leaves. After one round no argument list holds a short ternary,
after two none begins where another ends, after three no operator follows another, and after four
nothing is left. So rounds end because nothing changes and not because their number is limited, and
what they end in stays as it is (`expandShortTernaries_settles`).
-/

namespace LegacyPhp.Legacy

open Text Scan List

variable {cs v rest word args u out v' source w : Text} {t s : ShortTernary} {c : Char}

/-! ## One round -/

theorem expandRound_nil : expandRound [] = [] := by
  rw [expandRound]
  rfl

theorem expandRound_of_some (h : shortTernaryAt cs = some t) :
    expandRound cs = t.expanded ++ expandRound t.rest := by
  rw [expandRound]
  split
  · next hsome => rw [h] at hsome; cases hsome; rfl
  · next hnone => rw [h] at hnone; cases hnone

theorem expandRound_cons (h : shortTernaryAt (c :: cs) = none) :
    expandRound (c :: cs) = c :: expandRound cs := by
  rw [expandRound]
  split
  · next hsome => rw [h] at hsome; cases hsome
  · rfl

/-- The part of the written form before the operand. -/
def writtenHead : Text := ['(', '$', 't', 'm', 'p', '=']

/-- The part behind the operand up to the colon. -/
def writtenTest : Text := [')', ' ', '?', ' ', '$', 't', 'm', 'p']

/-- The part of the written form behind the operand. -/
def writtenTail : Text := writtenTest ++ [' ', ':', ' ']

theorem expanded_eq (t : ShortTernary) :
    t.expanded = t.before :: (writtenHead ++ (t.operand ++ writtenTail)) := by
  simp [ShortTernary.expanded, writtenHead, writtenTest, writtenTail]

theorem NoneStarts.expandRound_append (h : NoneStarts v rest) :
    expandRound (v ++ rest) = v ++ expandRound rest := by
  induction v with
  | nil => rfl
  | cons c v ih => rw [cons_append, expandRound_cons h.1, ih h.2, cons_append]

/-- A round keeps the first character, and writes a parenthesis behind it where it writes out. -/
theorem expandRound_eq_cons (h : expandRound cs = c :: out) :
    ∃ rest, cs = c :: rest ∧ (shortTernaryAt cs = none ∧ out = expandRound rest ∨
      ∃ t, shortTernaryAt cs = some t ∧
        out = writtenHead ++ (t.operand ++ (writtenTail ++ expandRound t.rest))) := by
  cases hat : shortTernaryAt cs with
  | none =>
    cases cs with
    | nil => rw [expandRound_nil] at h; cases h
    | cons d rest =>
      rw [expandRound_cons hat] at h
      obtain ⟨rfl, rfl⟩ := cons.inj h
      exact ⟨rest, rfl, .inl ⟨rfl, rfl⟩⟩
  | some t =>
    obtain ⟨word, args, hparts⟩ := isShortTernary_of_eq hat
    rw [expandRound_of_some hat, expanded_eq, cons_append] at h
    obtain ⟨hbefore, rfl⟩ := cons.inj h
    exact ⟨_, hbefore ▸ hparts.text, .inr ⟨t, rfl, by simp only [append_assoc]⟩⟩

/-- Output without written parentheses is input. -/
theorem noneStarts_of_copied (h : expandRound cs = v ++ w) (hv : '(' ∉ v.tail)
    (hw : nextIs (· == '(') w = false) :
    ∃ rest, cs = v ++ rest ∧ w = expandRound rest ∧ NoneStarts v rest := by
  induction v generalizing cs with
  | nil => exact ⟨cs, rfl, h.symm, trivial⟩
  | cons c v ih =>
    obtain ⟨rest, rfl, ⟨hnone, hout⟩ | ⟨t, _, hout⟩⟩ := expandRound_eq_cons h
    · obtain ⟨left, rfl, hleft, hquiet⟩ := ih hout.symm fun hmem => hv (mem_of_mem_tail hmem)
      exact ⟨left, rfl, hleft, hnone, hquiet⟩
    · -- the written parenthesis would be the next character
      cases v with
      | nil =>
        have hwritten : w = writtenHead ++ (t.operand ++ (writtenTail ++ expandRound t.rest)) :=
          hout
        rw [hwritten] at hw
        cases hw
      | cons d v =>
        obtain ⟨rfl, _⟩ := cons.inj hout
        exact absurd mem_cons_self hv

/-- The parenthesis that is written opens no argument list with an operator behind it. -/
theorem written_ne_arguments {inner : Text} (h : shortTernaryAt cs = some t)
    (hinner : inner.all isInner) : writtenHead ++ (t.operand ++ (writtenTail ++ out)) ≠
      '(' :: (inner ++ ')' :: operatorThen rest) := by
  intro heq
  obtain ⟨word, args, hparts⟩ := isShortTernary_of_eq h
  have hword : (['$', 't', 'm', 'p', '='] ++ word).all isInner := by
    rw [all_append, all_eq_true.2 fun c hc =>
      isInner_of_isOperandChar (all_eq_true.1 hparts.word_chars c hc)]
    rfl
  -- the two sides differ behind their first stretch without parentheses
  have hstop : nextIs isInner (args ++ (writtenTail ++ out)) = false := by
    rcases hparts.arguments with rfl | ⟨_, rfl, _⟩ <;> rfl
  have hleft := run_append_left hword hstop
  have hright : run isInner (inner ++ ')' :: operatorThen rest) =
      (inner, ')' :: operatorThen rest) :=
    run_append_left hinner rfl
  rw [hparts.operand] at heq
  have htail : (['$', 't', 'm', 'p', '='] ++ word) ++ (args ++ (writtenTail ++ out)) =
      inner ++ ')' :: operatorThen rest := by
    simpa [writtenHead] using heq
  rw [htail, hright] at hleft
  have hbehind : ')' :: operatorThen rest = args ++ (writtenTail ++ out) := congrArg Prod.snd hleft
  rcases hparts.arguments with rfl | ⟨_, rfl, _⟩
  · simp [operatorThen, writtenTest, writtenTail] at hbehind
  · simp at hbehind

/-- An operand and its operator in the output are copied from the input. -/
theorem operand_copied (hword : word.all isOperandChar) (hargs : IsArguments args)
    (h : expandRound cs = word ++ (args ++ operatorThen rest)) :
    ∃ left, cs = word ++ (args ++ operatorThen left) ∧ ' ' :: rest = expandRound (' ' :: left) ∧
      NoneStarts (word ++ args) (operatorThen left) := by
  induction word generalizing cs with
  | nil =>
    have htail : '(' ∉ (args ++ [' ', '?', ':']).tail := by
      rcases hargs with rfl | ⟨inner, rfl, hinner⟩
      · decide
      · intro hmem
        simp only [cons_append, tail_cons, append_assoc, mem_append] at hmem
        rcases hmem with hmem | hmem
        · exact absurd (all_eq_true.1 hinner _ hmem) (by decide)
        · simp at hmem
    obtain ⟨more, rfl, hmore, hquiet⟩ :=
      noneStarts_of_copied (v := args ++ [' ', '?', ':']) (w := ' ' :: rest)
        (by simpa [operatorThen] using h) htail rfl
    obtain ⟨left, rfl, _⟩ := expandRound_eq_cons hmore.symm
    exact ⟨left, by simp [operatorThen], hmore, (noneStarts_append.1 hquiet).1⟩
  | cons d word ih =>
    simp only [all_cons, Bool.and_eq_true] at hword
    obtain ⟨more, rfl, ⟨hnone, hout⟩ | ⟨t, ht, hout⟩⟩ := expandRound_eq_cons h
    · obtain ⟨left, rfl, hleft, hquiet⟩ := ih hword.2 hout.symm
      refine ⟨left, rfl, hleft, ?_, hquiet⟩
      simpa [append_assoc] using hnone
    · -- a written parenthesis stands behind `d`, which neither a word nor its arguments allow
      cases word with
      | cons e word =>
        obtain ⟨rfl, _⟩ := cons.inj hout
        exact absurd hword.2 (by simp [isOperandChar])
      | nil =>
        rcases hargs with rfl | ⟨inner, rfl, hinner⟩
        · exact absurd (cons.inj hout).1 (by decide)
        · exact absurd (by simpa using hout.symm) (written_ne_arguments ht hinner)

theorem shortTernaryAt_expandRound (cs : Text) : shortTernaryAt (expandRound cs) = none := by
  cases hat : shortTernaryAt (expandRound cs) with
  | none => rfl
  | some s =>
    obtain ⟨word, args, hparts⟩ := isShortTernary_of_eq hat
    obtain ⟨more, rfl, ⟨hnone, hout⟩ | ⟨t, _, hout⟩⟩ := expandRound_eq_cons hparts.text
    · obtain ⟨left, rfl, _⟩ := operand_copied hparts.word_chars hparts.arguments hout.symm
      have hagain : IsShortTernary (s.before :: (word ++ (args ++ operatorThen left)))
          { s with rest := left } word args :=
        ⟨hparts.opens, hparts.word_ne, hparts.word_chars, hparts.arguments, hparts.operand, rfl⟩
      rw [hagain.shortTernaryAt_eq] at hnone
      cases hnone
    · obtain ⟨c, word', rfl⟩ := exists_cons_of_ne_nil hparts.word_ne
      obtain ⟨rfl, _⟩ := cons.inj hout
      exact absurd hparts.word_chars (by simp [isOperandChar])

/-! ## What a round leaves -/

/-- The short ternary stands somewhere in the text. -/
def Stands (t : ShortTernary) (cs : Text) : Prop := ∃ u, u <:+ cs ∧ shortTernaryAt u = some t

theorem Stands.of_suffix (h : Stands t u) (hu : u <:+ cs) : Stands t cs := by
  obtain ⟨v, hv, hat⟩ := h
  exact ⟨v, hv.trans hu, hat⟩

/-- Where a short ternary in the output of a round comes from. -/
inductive Leftover (cs : Text) (s : ShortTernary) : Prop
  /-- From the arguments of one that was written out. -/
  | inner {t : ShortTernary} (stands : Stands t cs) (loud : ¬ NoneStarts t.operand [])
      (word : s.operand.all isOperandChar)
  /-- From an operator that follows another. The colon written for the first is now its operand. -/
  | shared {t : ShortTernary} {left : Text} (stands : Stands t cs)
      (text : t.rest = '?' :: ':' :: ' ' :: left) (colon : s.operand = [':'])
      (rest : ' ' :: s.rest = expandRound (' ' :: left))
  /-- From the blank at the end of one that was written out. -/
  | adjacent {t next : ShortTernary} (stands : Stands t cs)
      (follows : shortTernaryAt (' ' :: t.rest) = some next) (quiet : NoneStarts s.operand [])
      (rest : ' ' :: s.rest = expandRound (' ' :: next.rest))

theorem Leftover.of_suffix (h : Leftover u s) (hu : u <:+ cs) : Leftover cs s := by
  cases h with
  | inner stands loud word => exact .inner (stands.of_suffix hu) loud word
  | shared stands text colon rest => exact .shared (stands.of_suffix hu) text colon rest
  | adjacent stands follows quiet rest => exact .adjacent (stands.of_suffix hu) follows quiet rest

theorem suffix_append_cases (h : u <:+ v ++ w) :
    u <:+ w ∨ ∃ c v', c :: v' <:+ v ∧ u = c :: (v' ++ w) := by
  induction v with
  | nil => exact .inl h
  | cons c v ih =>
    rcases suffix_cons_iff.1 h with rfl | h
    · exact .inr ⟨c, v, suffix_refl _, rfl⟩
    · rcases ih h with h | ⟨d, v', hv', rfl⟩
      · exact .inl h
      · exact .inr ⟨d, v', hv'.trans (suffix_cons _ _), rfl⟩

theorem NoneStarts.shortTernaryAt_eq (h : NoneStarts v rest) (hv : c :: v' <:+ v) :
    shortTernaryAt (c :: (v' ++ rest)) = none := by
  obtain ⟨w, rfl⟩ := hv
  exact (noneStarts_append.1 h).2.1

theorem NoneStarts.ne_some (h : NoneStarts v rest) (hv : c :: v' <:+ v) (t : ShortTernary) :
    shortTernaryAt (c :: (v' ++ rest)) ≠ some t := by
  rw [h.shortTernaryAt_eq hv]
  simp

theorem noneStarts_of_word (h : word.all isOperandChar) : NoneStarts word [] := by
  refine noneStarts_iff.2 fun u hu => ?_
  cases hat : shortTernaryAt u with
  | none => rfl
  | some t =>
    obtain ⟨_, _, hparts⟩ := isShortTernary_of_eq hat
    have hmem : ' ' ∈ u := by rw [hparts.text]; simp [operatorThen]
    exact absurd (all_eq_true.1 h _ (hu.subset hmem)) (by decide)

/-- Before a closing parenthesis that nothing opens, a short ternary ends before it as well. -/
theorem shortTernaryAt_before_close (hv : v.all isInner)
    (h : shortTernaryAt (c :: (v ++ ')' :: rest)) = some s) :
    shortTernaryAt (c :: v) ≠ none ∧ s.operand.all isOperandChar := by
  obtain ⟨word, args, hparts⟩ := isShortTernary_of_eq h
  obtain ⟨hbefore, htext⟩ := cons.inj hparts.text
  have hinner : ∀ d ∈ word, isInner d := fun d hd =>
    isInner_of_isOperandChar (all_eq_true.1 hparts.word_chars d hd)
  have hleft : run isInner (v ++ ')' :: rest) = (v, ')' :: rest) := run_append_left hv rfl
  rw [htext] at hleft
  rcases hparts.arguments with rfl | ⟨args, rfl, _⟩
  · -- all up to the operator's end comes before the parenthesis
    obtain ⟨left, rfl⟩ : ∃ left, v = word ++ ([] ++ operatorThen left) := by
      refine ⟨s.rest.takeWhile isInner, (congrArg Prod.fst hleft).symm.trans ?_⟩
      exact (takeWhile_append_of_pos hinner).trans rfl
    have hagain : IsShortTernary (s.before :: (word ++ ([] ++ operatorThen left)))
        { s with rest := left } word [] :=
      ⟨hparts.opens, hparts.word_ne, hparts.word_chars, .inl rfl, hparts.operand, rfl⟩
    rw [hbefore, hagain.shortTernaryAt_eq, hparts.operand, append_nil]
    exact ⟨by simp, hparts.word_chars⟩
  · -- the first parenthesis is a closing one on the left and an opening one on the right
    have hright : run isInner (word ++ '(' :: (args ++ [')'] ++ operatorThen s.rest)) =
        (word, '(' :: (args ++ [')'] ++ operatorThen s.rest)) :=
      run_append_left (all_eq_true.2 hinner) rfl
    rw [cons_append, hright] at hleft
    simp at hleft

/-- Around the operand nothing starts in what is written before it. -/
theorem noneStarts_writtenHead (hword : word.all isOperandChar) (hargs : IsArguments args)
    (rest : Text) : NoneStarts (writtenHead ++ word) (args ++ ')' :: rest) := by
  have hquiet : ∀ (c : Char) (w : Text), w.all isOperandChar →
      shortTernaryAt (c :: (w ++ (args ++ ')' :: rest))) = none := by
    intro c w hw
    rcases hargs with rfl | ⟨inner, rfl, hinner⟩
    · exact shortTernaryAt_run hw rfl rfl (fun _ _ h => by cases h) c
    · simpa using shortTernaryAt_nested hw hinner c rest
  -- every character but the first belongs to a word that ends before the arguments
  have htail : ∀ w : Text, w.all isOperandChar → NoneStarts w (args ++ ')' :: rest) := by
    intro w hw
    induction w with
    | nil => trivial
    | cons c w ih =>
      simp only [all_cons, Bool.and_eq_true] at hw
      exact ⟨hquiet c w hw.2, ih hw.2⟩
  have hall : (['$', 't', 'm', 'p', '='] ++ word).all isOperandChar := by
    rw [all_append, hword]
    decide
  exact ⟨hquiet '(' _ hall, htail _ hall⟩

/-- A short ternary that starts in the arguments ends in them. -/
theorem leftover_of_arguments (hparts : IsShortTernary cs t word args) (hv : c :: v <:+ args)
    (hs : shortTernaryAt (c :: (v ++ ')' :: rest)) = some s) : Leftover cs s := by
  have hstands : Stands t cs := ⟨cs, suffix_refl _, hparts.shortTernaryAt_eq⟩
  rcases hparts.arguments with rfl | ⟨inner, rfl, hinner⟩
  · simp at hv
  · rcases suffix_append_cases (v := '(' :: inner) (w := [')']) hv with hlast | ⟨d, w, hw, hcons⟩
    · -- the closing parenthesis of the list
      simp only [suffix_cons_iff, cons.injEq, suffix_nil, reduceCtorEq, or_false] at hlast
      rw [hlast.1, shortTernaryAt_of_not_opens (by decide)] at hs
      cases hs
    · obtain ⟨rfl, rfl⟩ := cons.inj hcons
      have hchars : w.all isInner := by
        have hsub : w <:+ inner := (suffix_cons_iff.1 hw).elim
          (fun h => (cons.inj h).2 ▸ suffix_refl _) fun h => (suffix_cons c w).trans h
        exact all_eq_true.2 fun d hd => all_eq_true.1 hinner d (hsub.subset hd)
      rw [append_assoc] at hs
      obtain ⟨hloud, hoperand⟩ := shortTernaryAt_before_close hchars hs
      refine .inner hstands (fun hquiet => hloud ?_) hoperand
      rw [hparts.operand] at hquiet
      have hnone := hquiet.shortTernaryAt_eq (hv.trans (suffix_append word _))
      rw [append_assoc] at hnone
      exact shortTernaryAt_of_append hnone

/-- The operator that follows a colon which was written for another one. -/
theorem leftover_of_colon (ht : Stands t cs)
    (hs : shortTernaryAt (' ' :: ':' :: ' ' :: expandRound t.rest) = some s) : Leftover cs s := by
  obtain ⟨word, args, hparts⟩ := isShortTernary_of_eq hs
  have htext : ':' :: ' ' :: expandRound t.rest = word ++ (args ++ operatorThen s.rest) :=
    (cons.inj hparts.text).2
  have hstop : nextIs isOperandChar (args ++ operatorThen s.rest) = false := by
    rcases hparts.arguments with rfl | ⟨_, rfl, _⟩ <;> rfl
  have hrun := run_append_left hparts.word_chars hstop
  rw [← htext] at hrun
  have hword : word = [':'] := (congrArg Prod.fst hrun).symm
  subst hword
  rcases hparts.arguments with rfl | ⟨_, rfl, _⟩
  · have hout : expandRound t.rest = ['?', ':'] ++ ' ' :: s.rest := by
      simpa [operatorThen] using htext
    obtain ⟨more, hmore, hrest, _⟩ := noneStarts_of_copied hout (by decide) rfl
    obtain ⟨left, rfl, _⟩ := expandRound_eq_cons hrest.symm
    exact .shared ht hmore hparts.operand hrest
  · simp at htext

theorem leftover_of_blank (ht : Stands t cs)
    (hs : shortTernaryAt (' ' :: expandRound t.rest) = some s) : Leftover cs s := by
  obtain ⟨word, args, hparts⟩ := isShortTernary_of_eq hs
  obtain ⟨hbefore, htext⟩ := cons.inj hparts.text
  obtain ⟨left, hleft, hrest, hquiet⟩ := operand_copied hparts.word_chars hparts.arguments htext
  have hnext : IsShortTernary (' ' :: t.rest) { s with rest := left } word args :=
    ⟨hparts.opens, hparts.word_ne, hparts.word_chars, hparts.arguments, hparts.operand,
      by rw [hbefore, hleft]⟩
  refine .adjacent ht hnext.shortTernaryAt_eq ?_ hrest
  rw [hparts.operand]
  exact hquiet.alone

/-- What a round leaves in the form that it writes. -/
theorem leftover_of_written (ht : shortTernaryAt cs = some t)
    (hu : u <:+ writtenHead ++ (t.operand ++ (writtenTail ++ expandRound t.rest)))
    (hs : shortTernaryAt u = some s) : Leftover cs s ∨ u <:+ expandRound t.rest := by
  have hstands : Stands t cs := ⟨cs, suffix_refl _, ht⟩
  obtain ⟨word, args, hparts⟩ := isShortTernary_of_eq ht
  rw [hparts.operand, append_assoc, ← append_assoc] at hu
  rcases suffix_append_cases hu with hu | ⟨c, v, hv, rfl⟩
  · rcases suffix_append_cases hu with hu | ⟨c, v, hv, rfl⟩
    · have hquiet : NoneStarts writtenTest (' ' :: ':' :: ' ' :: expandRound t.rest) :=
        ⟨rfl, rfl, rfl, rfl, rfl, rfl, rfl, rfl, trivial⟩
      rw [writtenTail, append_assoc] at hu
      rcases suffix_append_cases hu with hu | ⟨c, v, hv, rfl⟩
      · simp only [cons_append, nil_append, suffix_cons_iff] at hu
        rcases hu with rfl | rfl | rfl | hu
        · exact .inl (leftover_of_colon hstands hs)
        · rw [shortTernaryAt_of_not_opens (by decide)] at hs
          cases hs
        · exact .inl (leftover_of_blank hstands hs)
        · exact .inr hu
      · exact absurd hs (hquiet.ne_some hv s)
    · exact .inl (leftover_of_arguments hparts hv hs)
  · have hquiet := noneStarts_writtenHead hparts.word_chars hparts.arguments
      (writtenTail.tail ++ expandRound t.rest)
    exact absurd hs (hquiet.ne_some hv s)

theorem suffix_of_expandRound (hs : shortTernaryAt u = some s) (hcs : expandRound cs = c :: v)
    (hu : u <:+ expandRound cs) : u <:+ v := by
  rw [hcs] at hu
  rcases suffix_cons_iff.1 hu with rfl | hu
  · rw [← hcs, shortTernaryAt_expandRound] at hs
    cases hs
  · exact hu

/-- No short ternary in the output of a round comes from elsewhere. -/
theorem leftover_of_suffix (hu : u <:+ expandRound cs) (hs : shortTernaryAt u = some s) :
    Leftover cs s := by
  fun_induction expandRound cs with
  | case1 cs t ht ih =>
    rw [← expandRound_of_some ht] at hu
    have hout : expandRound cs =
        t.before :: (writtenHead ++ (t.operand ++ (writtenTail ++ expandRound t.rest))) := by
      simp [expandRound_of_some ht, expanded_eq]
    rcases leftover_of_written ht (suffix_of_expandRound hs hout hu) hs with hleft | hu
    · exact hleft
    · refine (ih hu).of_suffix ?_
      rw [shortTernaryAt_append ht]
      exact suffix_append _ _
  | case2 =>
    rw [suffix_nil.1 hu, shortTernaryAt_nil] at hs
    cases hs
  | case3 c rest hnone ih =>
    rw [← expandRound_cons hnone] at hu
    have hu := suffix_of_expandRound hs (expandRound_cons hnone) hu
    exact (ih hu).of_suffix (suffix_cons c rest)

/-! ## Four rounds -/

/-- The arguments of short ternaries hold no others. -/
def CalmOperands (cs : Text) : Prop := ∀ t, Stands t cs → NoneStarts t.operand []

/-- None begins with the blank at the end of another. -/
def NoneAdjacent (cs : Text) : Prop := ∀ t, Stands t cs → shortTernaryAt (' ' :: t.rest) = none

/-- No operator follows another. -/
def NoneShared (cs : Text) : Prop := ∀ t, Stands t cs → ∀ left, t.rest ≠ '?' :: ':' :: ' ' :: left

theorem calmOperands_expandRound (cs : Text) : CalmOperands (expandRound cs) := by
  rintro s ⟨u, hu, hs⟩
  cases leftover_of_suffix hu hs with
  | inner _ _ word => exact noneStarts_of_word word
  | shared _ _ colon _ => rw [colon]; exact noneStarts_of_word (by decide)
  | adjacent _ _ quiet _ => exact quiet

theorem noneAdjacent_expandRound (hcalm : CalmOperands cs) : NoneAdjacent (expandRound cs) := by
  rintro s ⟨u, hu, hs⟩
  cases leftover_of_suffix hu hs with
  | inner stands loud _ => exact absurd (hcalm _ stands) loud
  | shared _ _ _ rest | adjacent _ _ _ rest => rw [rest]; exact shortTernaryAt_expandRound _

theorem noneShared_expandRound (hcalm : CalmOperands cs) (hnone : NoneAdjacent cs) :
    NoneShared (expandRound cs) := by
  rintro s ⟨u, hu, hs⟩ more hmore
  cases leftover_of_suffix hu hs with
  | inner stands loud _ => exact loud (hcalm _ stands)
  | @shared t left stands text _ rest =>
    -- the output shows a third operator behind the second, and it stood there before the round
    have hout : expandRound (' ' :: left) = [' ', '?', ':'] ++ ' ' :: more := by
      rw [← rest, hmore]
      rfl
    obtain ⟨third, hthird, hmore, _⟩ := noneStarts_of_copied hout (by decide) rfl
    obtain ⟨last, rfl, _⟩ := expandRound_eq_cons hmore.symm
    have hstood := hnone t stands
    rw [text, (cons.inj hthird).2] at hstood
    cases hstood
  | adjacent stands follows _ _ =>
    rw [hnone _ stands] at follows
    cases follows

theorem not_stands_expandRound (hcalm : CalmOperands cs) (hnone : NoneAdjacent cs)
    (hshared : NoneShared cs) (s : ShortTernary) : ¬ Stands s (expandRound cs) := by
  rintro ⟨u, hu, hs⟩
  cases leftover_of_suffix hu hs with
  | inner stands loud _ => exact loud (hcalm _ stands)
  | shared stands text _ _ => exact hshared _ stands _ text
  | adjacent stands follows _ _ =>
    rw [hnone _ stands] at follows
    cases follows

theorem not_stands_four (cs : Text) (s : ShortTernary) : ¬ Stands s (expandRound^[4] cs) :=
  have hcalm := calmOperands_expandRound
  have hnone := noneAdjacent_expandRound (hcalm cs)
  not_stands_expandRound (hcalm _) (noneAdjacent_expandRound (hcalm _))
    (noneShared_expandRound (hcalm _) hnone) s

/-- Somewhere in the text are an opening character, a word, perhaps its arguments, and the operator.
-/
def HasShortTernary (cs : Text) : Prop :=
  ∃ before u t word args, cs = before ++ u ∧ IsShortTernary u t word args

theorem hasShortTernary_iff : HasShortTernary cs ↔ ∃ t, Stands t cs := by
  constructor
  · rintro ⟨before, u, t, word, args, rfl, hparts⟩
    exact ⟨t, u, suffix_append _ _, hparts.shortTernaryAt_eq⟩
  · rintro ⟨t, u, ⟨before, rfl⟩, hat⟩
    obtain ⟨word, args, hparts⟩ := isShortTernary_of_eq hat
    exact ⟨before, u, t, word, args, rfl, hparts⟩

theorem shortTernaryAt_of_not_has (h : ¬ HasShortTernary cs) (hu : u <:+ cs) :
    shortTernaryAt u = none := by
  cases hat : shortTernaryAt u with
  | none => rfl
  | some t => exact absurd (hasShortTernary_iff.2 ⟨t, u, hu, hat⟩) h

/-- A round changes nothing exactly where there is nothing to write out. -/
theorem expandRound_eq_self_iff : expandRound cs = cs ↔ ¬ HasShortTernary cs := by
  constructor
  · intro hfix hhas
    obtain ⟨t, ht⟩ := hasShortTernary_iff.1 hhas
    refine not_stands_four cs t ?_
    rwa [Function.iterate_fixed hfix]
  · exact fun h => expandRound_of_none fun u hu => shortTernaryAt_of_not_has h hu

/-- The number of rounds that change something is at most four. -/
theorem exists_last_round (source : Text) :
    ∃ n ≤ 4, (∀ m < n, expandRound^[m + 1] source ≠ expandRound^[m] source) ∧
      expandRound^[n + 1] source = expandRound^[n] source := by
  have hfour : expandRound^[4 + 1] source = expandRound^[4] source := by
    rw [Function.iterate_succ_apply', expandRound_eq_self_iff, hasShortTernary_iff]
    exact fun ⟨t, ht⟩ => not_stands_four source t ht
  have hex : ∃ n, expandRound^[n + 1] source = expandRound^[n] source := ⟨4, hfour⟩
  exact ⟨Nat.find hex, Nat.find_min' hex hfour, fun m hm => Nat.find_min hex hm, Nat.find_spec hex⟩

/-- A limit that is not below the number of changing rounds makes no difference. -/
theorem expandRounds_eq_iterate {n limit : Nat} (hlimit : n ≤ limit)
    (hchanges : ∀ m < n, expandRound^[m + 1] source ≠ expandRound^[m] source)
    (hfix : expandRound^[n + 1] source = expandRound^[n] source) :
    expandRounds limit source = expandRound^[n] source := by
  induction limit generalizing n source with
  | zero =>
    rw [Nat.le_zero.1 hlimit]
    rfl
  | succ limit ih =>
    simp only [expandRounds]
    cases n with
    | zero =>
      have hfix : expandRound source = source := hfix
      rw [if_pos (by simpa using hfix)]
      rfl
    | succ n =>
      have hchange : expandRound source ≠ source := hchanges 0 (Nat.succ_pos n)
      rw [if_neg (by simpa using hchange)]
      exact ih (Nat.le_of_succ_le_succ hlimit)
        (fun m hm => hchanges (m + 1) (Nat.succ_lt_succ hm)) hfix

/-- The result is what the last round that changes something gives. -/
theorem exists_rounds (source : Text) :
    ∃ n ≤ 4, expandShortTernaries source = expandRound^[n] source ∧
      (∀ m < n, expandRound^[m + 1] source ≠ expandRound^[m] source) ∧
      expandRound^[n + 1] source = expandRound^[n] source := by
  obtain ⟨n, hn, hchanges, hfix⟩ := exists_last_round source
  have hresult : expandShortTernaries source = expandRound^[n] source :=
    expandRounds_eq_iterate (Nat.le_trans hn (by decide)) hchanges hfix
  exact ⟨n, hn, hresult, hchanges, hfix⟩

theorem not_hasShortTernary_result (source : Text) :
    ¬ HasShortTernary (expandShortTernaries source) := by
  obtain ⟨n, _, hresult, _, hfix⟩ := exists_rounds source
  rw [Function.iterate_succ_apply'] at hfix
  rw [hresult]
  exact expandRound_eq_self_iff.1 hfix

theorem expandShortTernaries_of_not_has (h : ¬ HasShortTernary source) :
    expandShortTernaries source = source :=
  expandRounds_of_none (fun _ hu => shortTernaryAt_of_not_has h hu) maxRounds

/-- A round taken in advance changes nothing in the result. -/
theorem expandShortTernaries_expandRound (source : Text) :
    expandShortTernaries (expandRound source) = expandShortTernaries source := by
  by_cases hhas : HasShortTernary source
  · obtain ⟨n, hn, hchanges, hfix⟩ := exists_last_round source
    cases n with
    | zero => exact absurd hhas (expandRound_eq_self_iff.1 hfix)
    | succ n =>
      -- both take the rounds of `source`, one of them already done on the left
      have hle : n + 1 ≤ maxRounds := Nat.le_trans hn (by decide)
      have hleft : expandRounds maxRounds (expandRound source) =
          expandRound^[n] (expandRound source) :=
        expandRounds_eq_iterate (Nat.le_of_succ_le hle)
          (fun m hm => hchanges (m + 1) (Nat.succ_lt_succ hm)) hfix
      exact hleft.trans (expandRounds_eq_iterate hle hchanges hfix).symm
  · rw [expandRound_eq_self_iff.2 hhas]

/-- Short ternaries are written out until none is left, which at most four rounds achieve. Where
there is none, nothing is written. -/
theorem expandShortTernaries_settles (source : Text) :
    ¬ HasShortTernary (expandShortTernaries source) ∧
    expandShortTernaries (expandShortTernaries source) = expandShortTernaries source ∧
    (expandShortTernaries source = source ↔ ¬ HasShortTernary source) ∧
    ∃ n ≤ 4, expandShortTernaries source = expandRound^[n] source ∧
      (∀ m < n, expandRound^[m + 1] source ≠ expandRound^[m] source) ∧
      expandRound^[n + 1] source = expandRound^[n] source ∧
      ∀ limit ≥ n, expandRounds limit source = expandShortTernaries source := by
  obtain ⟨n, hn, hresult, hchanges, hfix⟩ := exists_rounds source
  have hnone := not_hasShortTernary_result source
  refine ⟨hnone, expandShortTernaries_of_not_has hnone,
    ⟨fun h => h ▸ hnone, expandShortTernaries_of_not_has⟩, n, hn, hresult, hchanges, hfix,
    fun limit hlimit => ?_⟩
  rw [hresult, expandRounds_eq_iterate hlimit hchanges hfix]

/-- Four rounds can be needed. -/
example : expandRounds 3 " f(a ?: ?: ?: b) ?: c".toList ≠
    expandRounds 4 " f(a ?: ?: ?: b) ?: c".toList := by
  decide +kernel

end LegacyPhp.Legacy
