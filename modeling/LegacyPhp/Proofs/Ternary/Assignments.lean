import LegacyPhp.Proofs.Ternary.Rounds
import Mathlib.Data.List.Basic

/-!
# Which operand of an assignment is written out

In `$v=a ?: b;` the operand is `a`, but the first character that can open an operand wins. The sign
of the assignment can, and so can any such character before the variable when no blank or
parenthesis comes between: then the target is taken into the operand (`FirstOpens`). Spaces around
the sign prevent this. The result is given for all prefixes of the assignment and all operands
(`assignment_expanded_iff`).
-/

namespace LegacyPhp.Legacy

open Text Scan List

variable {cs s u r before a stem rest p name more w : Text} {z x c : Char}

/-! ## The end of a text as an operand -/

/-- The text ends in a stretch of operand characters that `x` opens. -/
structure OpensTail (cs before : Text) (x : Char) (word : Text) : Prop where
  text : cs = before ++ x :: word
  opens : opensOperand x
  chars : word.all isOperandChar

/-- The first character that opens the end of the text. -/
structure FirstOpens (cs before : Text) (x : Char) (word : Text) : Prop
    extends OpensTail cs before x word where
  first : ∀ {b y w}, OpensTail cs b y w → before.length ≤ b.length

theorem exists_firstOpens {word : Text} (h : OpensTail cs before x word) :
    ∃ b y w, FirstOpens cs b y w := by
  classical
  have hex : ∃ n b y w, b.length = n ∧ OpensTail cs b y w := ⟨_, before, x, word, rfl, h⟩
  obtain ⟨b, y, w, hlen, hopens⟩ := Nat.find_spec hex
  exact ⟨b, y, w, hopens, fun h' => hlen ▸ Nat.find_min' hex ⟨_, _, _, rfl, h'⟩⟩

theorem OpensTail.cases {word : Text} (h : OpensTail (s ++ z :: a) before x word) :
    s.length ≤ before.length ∨ ∃ w, s = before ++ x :: w ∧ word = w ++ z :: a := by
  rcases append_eq_append_iff.1 h.text with ⟨more, rfl, _⟩ | ⟨more, rfl, hmore⟩
  · exact .inl (by simp)
  · cases more with
    | nil => exact .inl (by simp)
    | cons c more =>
      obtain ⟨rfl, rfl⟩ := cons.inj hmore
      exact .inr ⟨more, rfl, rfl⟩

theorem OpensTail.length_le {word : Text} (h : OpensTail (s ++ z :: a) before x word)
    (hz : isOperandChar z = false) : s.length ≤ before.length := by
  rcases h.cases with hle | ⟨w, _, rfl⟩
  · exact hle
  · have hmem := all_eq_true.1 h.chars z (by simp)
    rw [hz] at hmem
    cases hmem

theorem firstOpens_of_barrier (hz : isOperandChar z = false) (hopens : opensOperand z)
    (ha : a.all isOperandChar) : FirstOpens (s ++ z :: a) s z a :=
  ⟨⟨rfl, hopens, ha⟩, fun h => h.length_le hz⟩

theorem FirstOpens.append {word : Text} (h : FirstOpens s before x word)
    (ha : (z :: a).all isOperandChar) : FirstOpens (s ++ z :: a) before x (word ++ z :: a) := by
  refine ⟨⟨?_, h.opens, ?_⟩, fun h' => ?_⟩
  · rw [h.text, append_assoc, cons_append]
  · rw [all_append, h.chars, ha]
    rfl
  · rcases h'.cases with hle | ⟨w, hs, rfl⟩
    · refine Nat.le_trans ?_ hle
      rw [h.text, length_append]
      exact Nat.le_add_right _ _
    · have hchars := h'.chars
      rw [all_append, Bool.and_eq_true] at hchars
      exact h.first ⟨hs, h'.opens, hchars.1⟩

theorem firstOpens_of_not_opens (hs : ∀ b y w, ¬ OpensTail s b y w) (hopens : opensOperand z)
    (ha : a.all isOperandChar) : FirstOpens (s ++ z :: a) s z a := by
  refine ⟨⟨rfl, hopens, ha⟩, fun h => ?_⟩
  rcases h.cases with hle | ⟨w, htext, rfl⟩
  · exact hle
  · have hchars := h.chars
    rw [all_append, Bool.and_eq_true] at hchars
    exact absurd ⟨htext, h.opens, hchars.1⟩ (hs _ _ w)

theorem OpensTail.getLast?_ne {word : Text} (h : OpensTail cs before x word) (hne : word ≠ []) :
    cs.getLast? ≠ some ')' := by
  intro hlast
  rw [h.text, append_cons, List.getLast?_append_of_ne_nil _ hne] at hlast
  exact absurd (all_eq_true.1 h.chars _ (mem_of_getLast? hlast)) (by decide)

/-! ## Texts with one operator -/

theorem operatorThen_suffix {t : ShortTernary} (h : shortTernaryAt u = some t) :
    operatorThen t.rest <:+ u := by
  obtain ⟨word, args, hparts⟩ := isShortTernary_of_eq h
  refine ⟨t.before :: (word ++ args), ?_⟩
  rw [hparts.text]
  simp

theorem expandRound_of_no_operator (h : ∀ r, ¬ operatorThen r <:+ cs) : expandRound cs = cs := by
  refine expandRound_of_none fun u hu => ?_
  cases hat : shortTernaryAt u with
  | none => rfl
  | some t => exact absurd ((operatorThen_suffix hat).trans hu) (h t.rest)

theorem not_operatorThen_of_no_blank (h : ' ' ∉ cs) (r : Text) : ¬ operatorThen r <:+ cs :=
  fun hr => h (hr.subset mem_cons_self)

/-- The operand of an operator is the stretch before it, when no argument list comes between. -/
theorem opensTail_of_shortTernaryAt {t : ShortTernary} (hend : stem.getLast? ≠ some ')')
    (htext : stem ++ operatorThen t.rest = before ++ u)
    (h : shortTernaryAt u = some t) : OpensTail stem before t.before t.operand := by
  obtain ⟨word, args, hparts⟩ := isShortTernary_of_eq h
  have hstem : stem = before ++ t.before :: (word ++ args) := by
    rw [hparts.text] at htext
    have hassoc : stem ++ operatorThen t.rest =
        (before ++ t.before :: (word ++ args)) ++ operatorThen t.rest := by
      simpa using htext
    exact append_cancel_right hassoc
  rcases hparts.arguments with rfl | ⟨inner, rfl, _⟩
  · rw [hparts.operand, append_nil]
    rw [append_nil] at hstem
    exact ⟨hstem, hparts.opens, hparts.word_chars⟩
  · refine absurd ?_ hend
    rw [hstem]
    simp [getLast?_cons, getLast?_append]

theorem noneStarts_of_forall {v : Text}
    (h : ∀ b c w, v = b ++ c :: w → shortTernaryAt (c :: (w ++ rest)) = none) :
    NoneStarts v rest := by
  induction v with
  | nil => trivial
  | cons c v ih => exact ⟨h [] c v rfl, ih fun b d w hv => h (c :: b) d w (by rw [hv]; rfl)⟩

theorem expandRound_word {word : Text}
    (hquiet : NoneStarts before (x :: (word ++ operatorThen rest))) (hopens : opensOperand x)
    (hne : word ≠ []) (hword : word.all isOperandChar) :
    expandRound (before ++ x :: (word ++ operatorThen rest)) =
      before ++ x :: (writtenHead ++ (word ++ (writtenTail ++ expandRound rest))) := by
  have htaken : shortTernaryAt (x :: (word ++ operatorThen rest)) = some ⟨x, word, rest⟩ :=
    IsShortTernary.shortTernaryAt_eq
      ⟨hopens, hne, hword, .inl rfl, (append_nil _).symm, rfl⟩
  rw [hquiet.expandRound_append, expandRound_of_some htaken, expanded_eq]
  simp

/-- The operator behind the stem is the only one. -/
def OneOperator (stem rest : Text) : Prop :=
  ∀ r, operatorThen r <:+ stem ++ operatorThen rest → r = rest

section OneOperator

variable {word : Text}

theorem OneOperator.opensTail (hone : OneOperator stem rest) (hend : stem.getLast? ≠ some ')')
    {b : Text} {t : ShortTernary} (htext : stem ++ operatorThen rest = b ++ u)
    (hat : shortTernaryAt u = some t) : t.rest = rest ∧ OpensTail stem b t.before t.operand := by
  have hr : t.rest = rest :=
    hone _ (htext ▸ (operatorThen_suffix hat).trans (suffix_append b u))
  exact ⟨hr, opensTail_of_shortTernaryAt hend (hr ▸ htext) hat⟩

/-- One round writes out the first stretch before the operator that a character opens. -/
theorem OneOperator.expandRound_eq (hone : OneOperator stem rest)
    (hfirst : FirstOpens stem before x word) (hne : word ≠ []) (hrest : ' ' ∉ rest) :
    expandRound (stem ++ operatorThen rest) =
      before ++ x :: (writtenHead ++ (word ++ (writtenTail ++ rest))) := by
  have htext : stem ++ operatorThen rest = before ++ x :: (word ++ operatorThen rest) := by
    rw [hfirst.text]
    simp
  have hquiet : NoneStarts before (x :: (word ++ operatorThen rest)) := by
    refine noneStarts_of_forall fun b c w hbefore => ?_
    cases hat : shortTernaryAt (c :: (w ++ x :: (word ++ operatorThen rest))) with
    | none => rfl
    | some t =>
      have hsplit : stem ++ operatorThen rest =
          b ++ (c :: (w ++ x :: (word ++ operatorThen rest))) := by
        rw [htext, hbefore]
        simp
      have hopens := (hone.opensTail (hfirst.getLast?_ne hne) hsplit hat).2
      have hle := hfirst.first hopens
      rw [hbefore, length_append, length_cons] at hle
      omega
  rw [htext, expandRound_word hquiet hfirst.opens hne hfirst.chars,
    expandRound_of_no_operator (not_operatorThen_of_no_blank hrest)]

/-- One round is enough. -/
theorem OneOperator.not_hasShortTernary (hone : OneOperator stem rest)
    (hend : stem.getLast? ≠ some ')') (hrest : ' ' ∉ rest) :
    ¬ HasShortTernary (expandRound (stem ++ operatorThen rest)) := by
  intro hhas
  have hall : ∀ {t}, Stands t (stem ++ operatorThen rest) →
      t.rest = rest ∧ t.operand.all isOperandChar := by
    rintro t ⟨u, ⟨b, hb⟩, hat⟩
    obtain ⟨hr, hopens⟩ := hone.opensTail hend hb.symm hat
    exact ⟨hr, hopens.chars⟩
  obtain ⟨s, u, hu, hs⟩ := hasShortTernary_iff.1 hhas
  cases leftover_of_suffix hu hs with
  | inner stands loud _ => exact loud (noneStarts_of_word (hall stands).2)
  | shared stands text _ _ =>
    rw [(hall stands).1] at text
    exact hrest (text ▸ by simp)
  | adjacent stands follows _ _ =>
    rw [(hall stands).1] at follows
    obtain ⟨_, _, hparts⟩ := isShortTernary_of_eq follows
    rw [(cons.inj hparts.text).2] at hrest
    simp [operatorThen] at hrest

theorem OneOperator.expandShortTernaries_eq (hone : OneOperator stem rest)
    (hfirst : FirstOpens stem before x word) (hne : word ≠ []) (hrest : ' ' ∉ rest) :
    expandShortTernaries (stem ++ operatorThen rest) =
      before ++ x :: (writtenHead ++ (word ++ (writtenTail ++ rest))) := by
  rw [← expandShortTernaries_expandRound, ← hone.expandRound_eq hfirst hne hrest]
  exact expandShortTernaries_of_not_has (hone.not_hasShortTernary (hfirst.getLast?_ne hne) hrest)

end OneOperator

/-! ## Assignments -/

/-- A character of a simple operand. -/
def isSimple (c : Char) : Bool := isOperandChar c && !(c == '=' || c == '[')

/-- A variable is assigned, with `gap` on both sides of the sign. -/
def assigned (p name gap value : Text) : Text :=
  p ++ ('$' :: name ++ (gap ++ '=' :: (gap ++ value)))

/-- The operand `a` or else `b`. -/
def shortForm (a b : Text) : Text := a ++ operatorThen (b ++ [';'])

/-- The same written out. -/
def longForm (a b : Text) : Text := writtenHead ++ (a ++ (writtenTail ++ (b ++ [';'])))

theorem operatorThen_behind_text (hp : ¬ ['?', ':'] <:+: p) (hquestion : c ≠ '?') (hcolon : c ≠ ':')
    (h : operatorThen r <:+ p ++ c :: more) : operatorThen r <:+ c :: more := by
  rcases suffix_append_cases h with h | ⟨d, v, hv, htext⟩
  · exact h
  · obtain ⟨_, htext⟩ := cons.inj htext
    match v, htext with
    | [], htext => exact absurd (cons.inj htext).1.symm hquestion
    | [_], htext => exact absurd (cons.inj (cons.inj htext).2).1.symm hcolon
    | d1 :: d2 :: v, htext =>
      obtain ⟨h1, hmore⟩ := cons.inj htext
      obtain ⟨h2, _⟩ := cons.inj hmore
      subst h1 h2
      exact absurd (List.IsInfix.trans ⟨[d], v, rfl⟩ hv.isInfix) hp

theorem operatorThen_behind_word (hw : ' ' ∉ w) (h : operatorThen r <:+ w ++ more) :
    operatorThen r <:+ more := by
  rcases suffix_append_cases h with h | ⟨d, v, hv, htext⟩
  · exact h
  · obtain ⟨rfl, _⟩ := cons.inj htext
    exact absurd (hv.subset mem_cons_self) hw

theorem oneOperator_nil (hrest : ' ' ∉ rest) : OneOperator [] rest := by
  intro r h
  simp only [nil_append, operatorThen, suffix_cons_iff, cons.injEq, true_and] at h
  rcases h with h | h | h | h | h
  · exact h
  · exact absurd h.1 (by decide)
  · exact absurd h.1 (by decide)
  · exact absurd (by rw [← h]; simp) hrest
  · exact absurd h (not_operatorThen_of_no_blank hrest r)

theorem OneOperator.word (hw : ' ' ∉ w) (hone : OneOperator stem rest) :
    OneOperator (w ++ stem) rest := by
  intro r h
  rw [append_assoc] at h
  exact hone r (operatorThen_behind_word hw h)

theorem OneOperator.behind (hp : ¬ ['?', ':'] <:+: p) (hquestion : c ≠ '?') (hcolon : c ≠ ':')
    (hone : OneOperator (c :: stem) rest) : OneOperator (p ++ c :: stem) rest := by
  intro r h
  rw [append_assoc] at h
  exact hone r (operatorThen_behind_text hp hquestion hcolon h)

theorem OneOperator.blank (hc : c ≠ '?') (hone : OneOperator (c :: stem) rest) :
    OneOperator (' ' :: c :: stem) rest := by
  intro r h
  rcases suffix_cons_iff.1 h with h | h
  · exact absurd (cons.inj (cons.inj h).2).1.symm hc
  · exact hone r h

theorem space_notMem_of_simple (h : a.all isSimple) : ' ' ∉ a := fun hmem =>
  absurd (all_eq_true.1 h _ hmem) (by decide)

theorem operandChars_of_simple (h : a.all isSimple) : a.all isOperandChar :=
  all_eq_true.2 fun c hc => (Bool.and_eq_true_iff.1 (all_eq_true.1 h c hc)).1

theorem space_notMem_name (h : name.all isIdentChar) : ' ' ∉ '$' :: name := by
  intro hmem
  rcases mem_cons.1 hmem with hmem | hmem
  · exact absurd hmem (by decide)
  · exact absurd (all_eq_true.1 h _ hmem) (by decide)

theorem isIdentChar_not_opens (h : isIdentChar c) : opensOperand c = false := by
  cases hopens : opensOperand c with
  | false => rfl
  | true =>
    simp only [opensOperand, Bool.or_eq_true, beq_iff_eq] at hopens
    rcases hopens with ((rfl | rfl) | rfl) | rfl <;> cases h

section Assignment

variable {b : Text} (hp : ¬ ['?', ':'] <:+: p) (hname : name.all isIdentChar)
  (ha : a.all isSimple) (hne : a ≠ []) (hb : b.all isSimple)

include hp hname ha hb

theorem oneOperator_touching : OneOperator ((p ++ '$' :: name) ++ '=' :: a) (b ++ [';']) := by
  have hrest : ' ' ∉ b ++ [';'] := by simpa using space_notMem_of_simple hb
  have hword : ' ' ∉ '$' :: name ++ '=' :: a := by
    have hvariable := space_notMem_name hname
    have hoperand := space_notMem_of_simple ha
    grind
  have hone := OneOperator.word hword (oneOperator_nil hrest)
  rw [append_nil] at hone
  simpa using hone.behind hp (by decide) (by decide)

theorem oneOperator_spaced (hmark : a ≠ ['?', ':']) :
    OneOperator ((p ++ '$' :: name ++ [' ', '=']) ++ ' ' :: a) (b ++ [';']) := by
  have hrest : ' ' ∉ b ++ [';'] := by simpa using space_notMem_of_simple hb
  have hoperand : OneOperator a (b ++ [';']) := by
    simpa using OneOperator.word (space_notMem_of_simple ha) (oneOperator_nil hrest)
  -- the blank before the operand would need the operand to be the mark of the operator
  have hblank : OneOperator (' ' :: a) (b ++ [';']) := by
    intro r h
    rcases suffix_cons_iff.1 h with h | h
    · have hrun : run (· != ' ') (['?', ':'] ++ ' ' :: r) = (['?', ':'], ' ' :: r) := rfl
      have hall : a.all (· != ' ') := all_eq_true.2 fun c hc =>
        bne_iff_ne.2 fun hspace => space_notMem_of_simple ha (hspace ▸ hc)
      have htext : a ++ operatorThen (b ++ [';']) = ['?', ':'] ++ ' ' :: r :=
        (cons.inj h).2.symm
      rw [← htext, run_append_left hall rfl] at hrun
      exact absurd (congrArg Prod.fst hrun) hmark
    · exact hoperand r h
  have hsign : OneOperator (' ' :: '=' :: ' ' :: a) (b ++ [';']) :=
    OneOperator.blank (by decide) (OneOperator.word (w := ['=']) (by decide) hblank)
  have hone := OneOperator.word (space_notMem_name hname) hsign
  simpa using hone.behind hp (by decide) (by decide)

/-- Without spaces, the operand is the first stretch before the operator that a character opens. -/
theorem expandShortTernaries_touching {word : Text}
    (hfirst : FirstOpens ((p ++ '$' :: name) ++ '=' :: a) before x word) (hword : word ≠ []) :
    expandShortTernaries (assigned p name [] (shortForm a b)) = before ++ x :: longForm word b := by
  have hrest : ' ' ∉ b ++ [';'] := by simpa using space_notMem_of_simple hb
  have hresult := (oneOperator_touching hp hname ha hb).expandShortTernaries_eq hfirst hword hrest
  simpa [assigned, shortForm, longForm] using hresult

include hne in
theorem expandShortTernaries_spaced (hmark : a ≠ ['?', ':']) :
    expandShortTernaries (assigned p name [' '] (shortForm a b)) =
      assigned p name [' '] (longForm a b) := by
  have hrest : ' ' ∉ b ++ [';'] := by simpa using space_notMem_of_simple hb
  have hfirst : FirstOpens ((p ++ '$' :: name ++ [' ', '=']) ++ ' ' :: a)
      (p ++ '$' :: name ++ [' ', '=']) ' ' a :=
    firstOpens_of_barrier (by decide) rfl (operandChars_of_simple ha)
  have hresult :=
    (oneOperator_spaced hp hname ha hb hmark).expandShortTernaries_eq hfirst hne hrest
  simpa [assigned, shortForm, longForm] using hresult

end Assignment

/-- Where the mark of the operator is the operand, it is an operator itself. -/
theorem operators_of_mark {p name rest : Text} (hp : ¬ ['?', ':'] <:+: p)
    (hname : name.all isIdentChar) (hrest : ' ' ∉ rest)
    (h : operatorThen r <:+ (p ++ '$' :: name) ++
      ' ' :: '=' :: operatorThen ('?' :: ':' :: ' ' :: rest)) :
    r = '?' :: ':' :: ' ' :: rest ∨ r = rest := by
  rw [append_assoc, cons_append] at h
  have hvariable := operatorThen_behind_text hp (by decide) (by decide) h
  rw [← cons_append] at hvariable
  have hsign := operatorThen_behind_word (space_notMem_name hname) hvariable
  rcases suffix_cons_iff.1 hsign with heq | hsign
  · exact absurd (cons.inj (cons.inj heq).2).1 (by decide)
  · have hmark := operatorThen_behind_word (w := ['=']) (by decide) hsign
    rcases suffix_cons_iff.1 hmark with heq | hmark
    · simp only [operatorThen, cons.injEq, true_and] at heq
      exact .inl heq
    · exact .inr (oneOperator_nil hrest r
        (operatorThen_behind_word (w := ['?', ':']) (by decide) hmark))

/-- Then the first round takes the sign as the operand. -/
theorem expandRound_mark (hp : ¬ ['?', ':'] <:+: p) (hname : name.all isIdentChar)
    (hrest : ' ' ∉ rest) :
    expandRound ((p ++ '$' :: name) ++ ' ' :: '=' :: operatorThen ('?' :: ':' :: ' ' :: rest)) =
      (p ++ '$' :: name) ++
        ' ' :: (writtenHead ++ (['='] ++ (writtenTail ++ '?' :: ':' :: ' ' :: rest))) := by
  have hquiet : NoneStarts (p ++ '$' :: name)
      (' ' :: (['='] ++ operatorThen ('?' :: ':' :: ' ' :: rest))) := by
    refine noneStarts_of_forall fun before c w hbefore => ?_
    cases hat : shortTernaryAt
        (c :: (w ++ ' ' :: (['='] ++ operatorThen ('?' :: ':' :: ' ' :: rest)))) with
    | none => rfl
    | some t =>
      have htext : (p ++ '$' :: name) ++ ' ' :: '=' :: operatorThen ('?' :: ':' :: ' ' :: rest) =
          before ++ c :: (w ++ ' ' :: (['='] ++ operatorThen ('?' :: ':' :: ' ' :: rest))) := by
        rw [hbefore]
        simp
      have hlt : before.length < (p ++ '$' :: name).length := by
        rw [hbefore, length_append, length_cons]
        omega
      -- the blank before the sign keeps either operator from an operand that starts before it
      have hblank : ∀ sign, (' ' :: sign).getLast? ≠ some ')' →
          ((p ++ '$' :: name) ++ ' ' :: sign) ++ operatorThen t.rest =
            (p ++ '$' :: name) ++ ' ' :: '=' :: operatorThen ('?' :: ':' :: ' ' :: rest) →
          False := by
        intro sign hsign hstem
        rw [← getLast?_append_of_ne_nil (p ++ '$' :: name) (cons_ne_nil _ _)] at hsign
        have hopens := opensTail_of_shortTernaryAt hsign (hstem.trans htext) hat
        exact Nat.not_le.2 hlt (hopens.length_le (by decide))
      rcases operators_of_mark hp hname hrest
        (htext ▸ (operatorThen_suffix hat).trans (suffix_append _ _)) with hr | hr
      · exact (hblank ['='] (by decide) (by simp [hr])).elim
      · exact (hblank ['=', ' ', '?', ':'] (by decide) (by simp [hr, operatorThen])).elim
  have hend : ∀ r, ¬ operatorThen r <:+ '?' :: ':' :: ' ' :: rest := by
    intro r h
    have hr := oneOperator_nil hrest r (h.trans (suffix_cons ' ' _))
    have hle := h.length_le
    simp only [hr, operatorThen, length_cons] at hle
    omega
  exact (expandRound_word hquiet rfl (by decide) (by decide)).trans
    (by rw [expandRound_of_no_operator hend])

/-- And the second one the colon that was written for it. -/
theorem expandShortTernaries_mark (hp : ¬ ['?', ':'] <:+: p) (hname : name.all isIdentChar)
    (hrest : ' ' ∉ rest) : expandShortTernaries
        ((p ++ '$' :: name) ++ ' ' :: '=' :: operatorThen ('?' :: ':' :: ' ' :: rest)) =
      (p ++ '$' :: name) ++ ' ' :: (writtenHead ++ (['='] ++ (writtenTest ++
        (' ' :: (writtenHead ++ ([':'] ++ (writtenTail ++ rest))))))) := by
  have hcolon : OneOperator [' ', ':'] rest :=
    OneOperator.blank (by decide)
      (by simpa using OneOperator.word (w := [':']) (by decide) (oneOperator_nil hrest))
  have hwritten :
      OneOperator (' ' :: (writtenHead ++ (['='] ++ (writtenTest ++ [' ', ':'])))) rest :=
    OneOperator.behind (p := ' ' :: (writtenHead ++ (['='] ++ writtenTest)))
      (by decide) (by decide) (by decide) hcolon
  have hone := (OneOperator.word (space_notMem_name hname) hwritten).behind hp
    (by decide) (by decide)
  have hfirst : FirstOpens
      ((p ++ '$' :: name ++ ' ' :: (writtenHead ++ (['='] ++ writtenTest))) ++ ' ' :: [':'])
      (p ++ '$' :: name ++ ' ' :: (writtenHead ++ (['='] ++ writtenTest))) ' ' [':'] :=
    firstOpens_of_barrier (by decide) rfl (by decide)
  have hresult := OneOperator.expandShortTernaries_eq (by simpa using hone) hfirst (by decide) hrest
  rw [← expandShortTernaries_expandRound, expandRound_mark hp hname hrest]
  simpa [writtenTail, operatorThen] using hresult

/-! ## The assignment's operand -/

/-- At the start of the text or of a line nothing opens an operand that the variable belongs to. -/
theorem not_opensTail_variable (hname : name.all isIdentChar) (hp : p = [] ∨ ∃ q, p = q ++ ['\n']) :
    ¬ ∃ before x word, OpensTail (p ++ '$' :: name) before x word := by
  rintro ⟨before, x, word, h⟩
  have hx : x ∈ '\n' :: '$' :: name := by
    rcases hp with rfl | ⟨q, rfl⟩
    · have htext : '$' :: name = before ++ x :: word := h.text
      rw [htext]
      simp
    · rw [append_assoc, singleton_append] at h
      obtain ⟨more, rfl⟩ := prefix_of_prefix_length_le (prefix_append q _)
        (h.text ▸ prefix_append before _) (h.length_le (by decide))
      have htext : '\n' :: '$' :: name = more ++ x :: word := by simpa using h.text
      rw [htext]
      simp
  have hopens := h.opens
  rcases mem_cons.1 hx with rfl | hx
  · cases hopens
  rcases mem_cons.1 hx with rfl | hx
  · cases hopens
  · rw [isIdentChar_not_opens (all_eq_true.1 hname x hx)] at hopens
    cases hopens

theorem firstOpens_variable {q : Text} (hname : name.all isIdentChar)
    (hblank : name.all (!isBlank ·)) :
    FirstOpens (q ++ [' '] ++ '$' :: name) q ' ' ('$' :: name) := by
  rw [append_assoc]
  refine firstOpens_of_barrier (by decide) rfl (all_eq_true.2 fun c hc => ?_)
  rcases mem_cons.1 hc with rfl | hc
  · decide
  · have hchar := all_eq_true.1 hname c hc
    have hnot := all_eq_true.1 hblank c hc
    have hparen : c ≠ '(' ∧ c ≠ ')' := by
      constructor <;> (rintro rfl; cases hchar)
    simpa [isOperandChar, hparen] using hnot

/-- For every text before an assignment to a variable that does not show the operator's mark, and
for all simple operands: with spaces around the sign, the left operand is what is written out,
unless it is that mark itself. Without them this is so exactly if no character before the sign opens
an operand that reaches to it. Else the first one that does takes the target along. None does at the
start of the text and of a line. A space does when the variable's name has no blanks. -/
theorem assignment_expanded_iff {p name a b : Text} (hp : ¬ ['?', ':'] <:+: p)
    (hname : name.all isIdentChar) (ha : a ≠ [] ∧ a.all isSimple)
    (hb : b.all isSimple) :
    (expandShortTernaries (assigned p name [' '] (shortForm a b)) =
        assigned p name [' '] (longForm a b) ↔ a ≠ ['?', ':']) ∧
    (expandShortTernaries (assigned p name [] (shortForm a b)) = assigned p name [] (longForm a b) ↔
        ¬ ∃ before x word, OpensTail (p ++ '$' :: name) before x word) ∧
    (∀ before x word, FirstOpens (p ++ '$' :: name) before x word →
      expandShortTernaries (assigned p name [] (shortForm a b)) =
        before ++ x :: longForm (word ++ '=' :: a) b) ∧
    ((p = [] ∨ ∃ q, p = q ++ ['\n']) →
      ¬ ∃ before x word, OpensTail (p ++ '$' :: name) before x word) ∧
    (∀ q, p = q ++ [' '] → name.all (!isBlank ·) →
      FirstOpens (p ++ '$' :: name) q ' ' ('$' :: name)) := by
  have hchars := operandChars_of_simple ha.2
  have htaken : ∀ before x word, FirstOpens (p ++ '$' :: name) before x word →
      expandShortTernaries (assigned p name [] (shortForm a b)) =
        before ++ x :: longForm (word ++ '=' :: a) b := fun before x word hfirst =>
    expandShortTernaries_touching hp hname ha.2 hb
      (hfirst.append (by rw [List.all_cons, hchars]; rfl)) (by simp)
  refine ⟨⟨?_, expandShortTernaries_spaced hp hname ha.2 ha.1 hb⟩, ⟨?_, fun hnone => ?_⟩, htaken,
    not_opensTail_variable hname, fun q hq hblank => hq ▸ firstOpens_variable hname hblank⟩
  · -- the two texts differ behind the blank before the sign
    rintro heq rfl
    have hrest : ' ' ∉ b ++ [';'] := by simpa using space_notMem_of_simple hb
    have hmark := expandShortTernaries_mark hp hname hrest
    have htext : assigned p name [' '] (shortForm ['?', ':'] b) =
        (p ++ '$' :: name) ++ ' ' :: '=' :: operatorThen ('?' :: ':' :: ' ' :: (b ++ [';'])) := by
      simp [assigned, shortForm, operatorThen]
    rw [htext, hmark] at heq
    simp [assigned, writtenHead] at heq
  · -- the two texts differ behind the opening character
    rintro heq ⟨_, _, _, hopens⟩
    obtain ⟨before, x, word, hfirst⟩ := exists_firstOpens hopens
    have htext : assigned p name [] (longForm a b) =
        before ++ x :: (word ++ '=' :: longForm a b) := by
      have hstem := congrArg (· ++ '=' :: longForm a b) hfirst.text
      simpa [assigned] using hstem
    rw [htaken before x word hfirst, htext] at heq
    have hbehind := (cons.inj (List.append_cancel_left heq)).2
    cases word with
    | nil => exact absurd (cons.inj hbehind).1 (by decide)
    | cons c word =>
      have hc := List.all_eq_true.1 hfirst.chars c List.mem_cons_self
      rw [← (cons.inj hbehind).1] at hc
      cases hc
  · have hfirst := firstOpens_of_not_opens (a := a) (z := '=')
      (fun b y w h => hnone ⟨b, y, w, h⟩) rfl hchars
    rw [expandShortTernaries_touching hp hname ha.2 hb hfirst ha.1]
    simp [assigned]

/-- Behind a space the target is assigned inside the operand. -/
theorem assignment_expanded_iff_space :
    (¬ ['?', ':'] <:+: "<?php ".toList ∧ "x".toList.all isIdentChar ∧
      ("$a".toList ≠ [] ∧ "$a".toList.all isSimple) ∧ "$b".toList.all isSimple) ∧
    expandShortTernaries "<?php $x=$a ?: $b;".toList =
      "<?php ($tmp=$x=$a) ? $tmp : $b;".toList ∧
    expandShortTernaries "<?php $x = $a ?: $b;".toList =
      "<?php $x = ($tmp=$a) ? $tmp : $b;".toList := by
  have hall := @assignment_expanded_iff "<?php ".toList "x".toList "$a".toList "$b".toList
    (by decide) (by decide) (by decide) (by decide)
  exact ⟨by decide, hall.2.2.1 _ _ _ (hall.2.2.2.2 "<?php".toList rfl (by decide)),
    hall.1.2 (by decide)⟩

end LegacyPhp.Legacy
