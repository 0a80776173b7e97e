import LegacyPhp.Proofs.Name.Stable
import LegacyPhp.Proofs.Qualify.Stages
import LegacyPhp.Proofs.Token.ScanEnds

/-!
# A class in a literal and in code

A class can be named by a literal, `'Nette\Object'`, and in code, `new \Nette\Object`. Both are
flattened under a protected root, but what lies under one is decided twice. In code the whole name
is compared with the roots, without regard to case (`ConvertOptions.isProtected`). In a literal a
root counts where it stands exactly as it is spelt, at any place: `respelt` finds the first one and
flattens the name from there on.

So the two agree exactly if a protected name starts with a root in the root's own spelling, and no
root stands anywhere in a name that is not protected (`SpeltAsMeant`).
-/

namespace LegacyPhp

open Text Scan
open List hiding splitOn

variable {w m cs name : Text} {c : Char} {s : Scope} {doubled : Bool}

/-! ## Spelt names -/

/-- A segment of ASCII word characters that starts with a letter. -/
def isClassWord (w : Text) : Bool :=
  nextIs Char.isAlpha w && w.all fun c => decide (c.toNat < 0x80) && isWordChar c

/-- A qualified name of two or more such segments. -/
structure SpeltName where
  words : List Text
  several : 2 ≤ words.length
  classWords : words.all isClassWord

namespace SpeltName

/-- The segments with single separators between them. -/
def text (n : SpeltName) : Text := join ['\\'] n.words

/-- The name behind an opening quote. -/
def opened (n : SpeltName) : Text := '\'' :: n.text

/-- The literal that spells the name. -/
def literal (n : SpeltName) : Text := n.opened ++ ['\'']

end SpeltName

theorem isClassWord_spec (h : isClassWord w) : w.all isWordChar ∧ nextIs isWordChar w := by
  obtain ⟨hstart, hword⟩ := Bool.and_eq_true_iff.1 h
  have hall : ∀ c ∈ w, isWordChar c := fun c hc =>
    (Bool.and_eq_true_iff.1 (all_eq_true.1 hword c hc)).2
  refine ⟨all_eq_true.2 hall, ?_⟩
  cases w with
  | nil => cases hstart
  | cons c cs => exact hall c mem_cons_self

theorem isNameWord_of_isClassWord (h : isClassWord w) : IsNameWord w := by
  obtain ⟨hall, hnext⟩ := isClassWord_spec h
  refine ⟨fun hempty => ?_, all_eq_true.2 fun c hc =>
    isIdentChar_of_isWordChar (all_eq_true.1 hall c hc)⟩
  rw [hempty] at hnext
  cases hnext

/-! ## The ends of a name -/

theorem tail_splitOn_suffix (sep : Char) (a b : Text) :
    (splitOn sep b).tail <:+ (splitOn sep (a ++ b)).tail := by
  induction a with
  | nil => exact suffix_refl _
  | cons c a ih =>
    obtain ⟨part, parts, hparts, hsplit⟩ := splitOn_cons sep c (a ++ b)
    rw [hparts] at ih
    rw [cons_append, hsplit]
    split
    · exact ih.trans (suffix_cons part parts)
    · exact ih

/-- What a proper name ends in is proper, unless it starts with a separator. -/
theorem ProperName.of_suffix {name : Text} (h : ProperName name) (hm : m <:+ name)
    (hhead : nextIs (· != '\\') m) : ProperName m := by
  obtain ⟨a, rfl⟩ := hm
  cases m with
  | nil => cases hhead
  | cons c m =>
    intro hempty
    have hc : ¬ c = '\\' := bne_iff_ne.1 hhead
    have htail := (tail_splitOn_suffix '\\' a (c :: m)).trans (tail_suffix _)
    obtain ⟨part, parts, -, hsplit⟩ := splitOn_cons '\\' c m
    rw [if_neg hc] at hsplit
    rw [segments, hsplit, mem_cons] at hempty
    rw [hsplit] at htail
    rcases hempty with hempty | hempty
    · cases hempty
    · exact h (htail.subset hempty)

theorem ProperName.not_doubled (h : ProperName name) : ¬ ['\\', '\\'] <:+: name := by
  rintro ⟨a, b, rfl⟩
  have hsplit : splitOn '\\' (a ++ ['\\', '\\'] ++ b) =
      splitOn '\\' a ++ [] :: splitOn '\\' b := by
    rw [append_assoc]
    exact splitOn_append_sep '\\' a ('\\' :: b)
  refine h ?_
  rw [segments, hsplit]
  simp

theorem replaceAll_of_single (h : ¬ ['\\', '\\'] <:+: cs) :
    replaceAll ['\\', '\\'] ['\\'] cs = cs := by
  rw [replaceAll, replaceOccurrences]
  split
  · rfl
  · next a b hbreak => exact absurd ⟨a, b, (breakOn?_eq_some hbreak).symm⟩ h

namespace SpeltName

variable (n : SpeltName)

theorem isClassWord_of_mem (hw : w ∈ n.words) : isClassWord w :=
  all_eq_true.1 n.classWords w hw

theorem words_ne_nil : n.words ≠ [] := by
  intro hempty
  have hseveral := n.several
  rw [hempty] at hseveral
  cases hseveral

theorem splitOn_text : splitOn '\\' n.text = n.words := by
  have hword : ∀ w ∈ n.words, splitOn '\\' w = [w] := fun w hw =>
    splitOn_of_not_mem (not_mem_of_all (isNameWord_of_isClassWord (n.isClassWord_of_mem hw)).2)
  rw [text, splitOn_join n.words_ne_nil]
  generalize n.words = words at hword
  induction words with
  | nil => rfl
  | cons w words ih =>
    rw [forall_mem_cons] at hword
    rw [flatMap_cons, hword.1, ih hword.2]
    rfl

theorem proper_text : ProperName n.text := by
  rw [ProperName, segments, splitOn_text]
  intro hempty
  exact (isNameWord_of_isClassWord (n.isClassWord_of_mem hempty)).1 rfl

theorem mem_text : '\\' ∈ n.text := by
  by_contra hflat
  have hwords := n.splitOn_text
  rw [splitOn_of_not_mem hflat] at hwords
  have hseveral := n.several
  rw [← hwords, length_singleton] at hseveral
  cases hseveral with | step h => cases h

theorem nextIs_text : nextIs (· != '\\') n.text := by
  have hproper := n.proper_text
  cases htext : n.text with
  | nil => exact absurd htext hproper.ne_nil
  | cons c m =>
    refine bne_iff_ne.2 fun hc => hproper.head? ?_
    rw [htext, hc]
    rfl

theorem proper_opened : ProperName n.opened := by
  obtain ⟨part, parts, hparts, hsplit⟩ := splitOn_cons '\\' '\'' n.text
  have hproper := n.proper_text
  rw [ProperName, segments, hparts] at hproper
  rw [ProperName, segments, opened, hsplit, if_neg (by decide)]
  intro hempty
  rcases mem_cons.1 hempty with hempty | hempty
  · cases hempty
  · exact hproper (mem_cons_of_mem part hempty)

end SpeltName

/-! ## Reading the literal -/

namespace Qualify

theorem segmentsAt_eq (doubled : Bool) (cs : Text) : segmentsAt doubled cs =
      match separatorAt doubled (Scan.run isWordChar cs).2 with
      | some (sep, rest) => ((Scan.run isWordChar cs).1 ++ sep ++ (segmentsAt doubled rest).1,
          (segmentsAt doubled rest).2)
      | none => Scan.run isWordChar cs := by
  rw [segmentsAt]
  split
  · next hsome => simp only [hsome]
  · next hnone => simp only [hnone]

theorem separatorAt_single (h : nextIs isWordChar cs) :
    separatorAt false ('\\' :: cs) = some (['\\'], cs) := by
  unfold separatorAt
  split
  · next rest heq =>
    -- a separator is no word character
    obtain ⟨-, rfl⟩ := cons.inj heq
    exact absurd h Bool.false_ne_true
  · next rest hdouble heq =>
    obtain ⟨-, rfl⟩ := cons.inj heq
    rw [if_pos h]
  · next hother => exact absurd rfl (hother cs)

/-- Single separators lead to the end of the literal. -/
theorem segmentsAt_join {words : List Text} (hne : words ≠ [])
    (hwords : ∀ w ∈ words, isClassWord w) :
    nextIs isWordChar (join ['\\'] words ++ ['\'']) ∧
      segmentsAt false (join ['\\'] words ++ ['\'']) = (join ['\\'] words, ['\'']) := by
  induction words with
  | nil => exact absurd rfl hne
  | cons w words ih =>
    rw [forall_mem_cons] at hwords
    obtain ⟨hall, hnext⟩ := isClassWord_spec hwords.1
    have hstart : ∀ rest, nextIs isWordChar (w ++ rest) := by
      intro rest
      cases w with
      | nil => cases hnext
      | cons c w => exact hnext
    cases words with
    | nil =>
      rw [join_singleton]
      refine ⟨hstart _, ?_⟩
      rw [segmentsAt_eq, run_append_left hall rfl]
      rfl
    | cons v words =>
      obtain ⟨hmore, hread⟩ := ih (cons_ne_nil v words) hwords.2
      rw [join_cons_cons, append_assoc, append_assoc, singleton_append]
      refine ⟨hstart _, ?_⟩
      rw [segmentsAt_eq, run_append_left hall rfl]
      simp only [separatorAt_single hmore, hread, append_assoc]

/-- Whether a protected root stands at the start of the text as it is spelt, with a separator behind
it. -/
def beginsWithRoot (o : ConvertOptions) (cs : Text) : Bool :=
  o.protectedRoots.any fun root => startsWith cs (dropAround '\\' root ++ ['\\'])

/-- What a literal turns a text into: it is flattened from the first protected root on. Where the
root is nothing but separators, one more is written instead. -/
def respelt (o : ConvertOptions) : Text → Text
  | [] => []
  | c :: cs =>
    if beginsWithRoot o (c :: cs) then
      if c = '\\' then '\\' :: c :: cs else o.flatten (c :: cs)
    else c :: respelt o cs

variable {o : ConvertOptions} {n : SpeltName}

/-- Behind a separator of the name, segments are read to the end of the literal. -/
theorem segmentsAt_behind {x : Text} (h : '\\' :: x <:+ n.opened) :
    nextIs isWordChar (x ++ ['\'']) ∧ segmentsAt false (x ++ ['\'']) = (x, ['\'']) := by
  have htext : '\\' :: x <:+ n.text := by
    rcases suffix_cons_iff.1 h with heq | hsuffix
    · cases heq
    · exact hsuffix
  obtain ⟨a, ha⟩ := htext
  -- the words of the rest are words of the name
  have hwords : splitOn '\\' a ++ splitOn '\\' x = n.words := by
    rw [← n.splitOn_text, ← ha, splitOn_append_sep]
  have hclass : ∀ w ∈ splitOn '\\' x, isClassWord w := fun w hw =>
    n.isClassWord_of_mem (hwords ▸ mem_append_right _ hw)
  have hne : splitOn '\\' x ≠ [] := by
    rw [splitOn_eq]
    exact cons_ne_nil _ _
  have hread := segmentsAt_join hne hclass
  rwa [join_splitOn] at hread

theorem separatorAt_eq_none {root rest : Text} (hafter : after? root (m ++ ['\'']) = some rest)
    (h : ¬ startsWith m (root ++ ['\\'])) : separatorAt false rest = none := by
  cases hsep : separatorAt false rest with
  | none => rfl
  | some parts =>
    obtain ⟨hmark, happend, -⟩ := separatorAt_append hsep
    obtain ⟨left, rfl⟩ : ∃ left, rest = '\\' :: left := by
      rcases hmark with hmark | hmark <;> rw [hmark] at happend <;> exact ⟨_, happend.symm⟩
    have hstart : root ++ ['\\'] <+: m ++ ['\''] := ⟨left, by simp [after?_eq_some hafter]⟩
    rcases prefix_concat_iff.1 hstart with heq | hstart
    · cases append_inj_right' heq rfl
    · exact absurd (startsWith_iff.2 hstart) h

/-- A full name goes from a root to the end of the literal. -/
theorem fullNameUnder_eq (hm : m <:+ n.opened) (root : Text) :
    fullNameUnder false root (m ++ ['\'']) =
      if startsWith m (root ++ ['\\']) then some ⟨m, ['\''], []⟩ else none := by
  unfold fullNameUnder
  split
  · next hstarts =>
    obtain ⟨x, rfl⟩ := startsWith_iff.1 hstarts
    rw [append_assoc, singleton_append] at hm
    obtain ⟨hnext, hread⟩ := segmentsAt_behind ((suffix_append root _).trans hm)
    have hafter : after? root (root ++ '\\' :: (x ++ ['\''])) = some ('\\' :: (x ++ ['\''])) := by
      rw [after?_append_of_le (Nat.le_refl _), after?_self]
      rfl
    simp [hafter, separatorAt_single hnext, hread, nameEnd, isNameEnd]
  · next hstarts =>
    cases hafter : after? root (m ++ ['\'']) with
    | none => rfl
    | some rest => simp [separatorAt_eq_none hafter hstarts]

theorem fullNameAt_eq (hm : m <:+ n.opened) : fullNameAt o.protectedRoots false (m ++ ['\'']) =
      if beginsWithRoot o m then some ⟨m, ['\''], []⟩ else none := by
  unfold fullNameAt beginsWithRoot
  induction o.protectedRoots with
  | nil => rfl
  | cons root roots ih =>
    rw [findSome?_cons, fullNameUnder_eq hm, any_cons, ih]
    cases startsWith m (dropAround '\\' root ++ ['\\']) <;> rfl

theorem fullNameAt_nil (roots : List Text) (doubled : Bool) :
    fullNameAt roots doubled [] = none := by
  refine findSome?_eq_none_iff.2 fun root _ => ?_
  unfold fullNameUnder
  cases hafter : after? (dropAround '\\' root) [] with
  | none => rfl
  | some rest =>
    have hrest : rest = [] := (append_eq_nil_iff.1 (after?_eq_some hafter).symm).2
    rw [hrest]
    rfl

theorem proseName_opened (s : Scope) (hm : c :: m <:+ n.opened) :
    proseName o s ('\\' :: replaceAll ['\\', '\\'] ['\\'] (c :: m)) =
      if c = '\\' then '\\' :: c :: m else o.flatten (c :: m) := by
  rw [replaceAll_of_single fun hdouble => n.proper_opened.not_doubled (hdouble.trans hm.isInfix)]
  unfold proseName
  by_cases hc : c = '\\'
  · -- the segment between the two leading separators is empty
    have hnone : s.resolve? ('\\' :: c :: m) = none := by
      have hempty : Scope.hasEmptySegment (c :: m) := by
        simp [Scope.hasEmptySegment, splitOn, hc]
      simp [Scope.resolve?, isRelativeName, sameWord, lower, hempty]
    rw [hnone, if_pos hc]
  · have hproper : ProperName (c :: m) := n.proper_opened.of_suffix hm (bne_iff_ne.2 hc)
    rw [hproper.resolve?_rooted, if_neg hc]

theorem literalFrom_found {found : FullName}
    (h : fullNameAt o.protectedRoots doubled cs = some found) :
    literalFrom o s doubled cs = found.flat o s ++ literalFrom o s doubled found.rest := by
  rw [literalFrom]
  split
  · next hsome => rw [h] at hsome; cases hsome; rfl
  · next hnone => rw [h] at hnone; cases hnone

theorem literalFrom_cons (h : fullNameAt o.protectedRoots doubled (c :: cs) = none) :
    literalFrom o s doubled (c :: cs) = c :: literalFrom o s doubled cs := by
  rw [literalFrom]
  split
  · next hsome => rw [h] at hsome; cases hsome
  · rfl

theorem not_beginsWithRoot_nil : beginsWithRoot o [] = false := by
  refine any_eq_false.2 fun root _ hstarts => ?_
  have hlength := (startsWith_iff.1 hstarts).length_le
  simp at hlength

/-- A literal that spells a name is respelt up to its closing quote. -/
theorem literalFrom_opened (s : Scope) (hm : m <:+ n.opened) :
    literalFrom o s false (m ++ ['\'']) = respelt o m ++ ['\''] := by
  have hend : literalFrom o s false [] = [] :=
    literalFrom_of_none s fun rest hrest => by rw [suffix_nil.1 hrest, fullNameAt_nil]
  have hat := fullNameAt_eq (o := o) hm
  induction m with
  | nil =>
    rw [not_beginsWithRoot_nil, if_neg Bool.false_ne_true] at hat
    rw [nil_append, literalFrom_cons hat, hend]
    rfl
  | cons c m ih =>
    have hrest : m <:+ n.opened := (suffix_cons c m).trans hm
    rw [respelt]
    split
    · next hbegins =>
      rw [if_pos hbegins] at hat
      rw [literalFrom_found hat, hend, append_nil, FullName.flat, proseName_opened s hm]
    · next hbegins =>
      rw [if_neg hbegins, cons_append] at hat
      rw [cons_append, literalFrom_cons hat, ih hrest (fullNameAt_eq hrest)]
      rfl

theorem literal_eq_respelt (s : Scope) : literal o s n.literal = respelt o n.opened ++ ['\''] :=
  literalFrom_opened s (suffix_refl _)

/-! ## Where the two agree -/

/-- The literal up to its closing quote if it were read as the name is in code. -/
def meant (o : ConvertOptions) (n : SpeltName) : Text :=
  '\'' :: if o.isProtected n.text then o.flatten n.text else n.text

/-- A protected name starts with a root in its own spelling, and no root that starts with a quote
comes before it; in a name that is not protected there is no root at all. -/
def SpeltAsMeant (o : ConvertOptions) (n : SpeltName) : Prop :=
  if o.isProtected n.text then beginsWithRoot o n.text ∧ beginsWithRoot o n.opened = false
  else ∀ m, m <:+ n.opened → beginsWithRoot o m = false

theorem mem_of_beginsWithRoot (h : beginsWithRoot o m) : '\\' ∈ m := by
  obtain ⟨root, -, hstarts⟩ := any_eq_true.1 h
  exact (startsWith_iff.1 hstarts).subset (by simp)

theorem isProtected_of_beginsWithRoot (h : beginsWithRoot o m) : o.isProtected m := by
  obtain ⟨root, hroot, hstarts⟩ := any_eq_true.1 h
  obtain ⟨left, rfl⟩ := startsWith_iff.1 hstarts
  refine Bool.or_eq_true_iff.2 (.inr (any_eq_true.2 ⟨root, hroot, ?_⟩))
  simp [ConvertOptions.liesUnder, sameWord]

/-- The text is kept, or it is flattened from the first root on. -/
theorem respelt_cases (o : ConvertOptions) (cs : Text) :
    (respelt o cs = cs ∧ ∀ m, m <:+ cs → beginsWithRoot o m = false) ∨
      ∃ pre c m, cs = pre ++ c :: m ∧ beginsWithRoot o (c :: m) ∧
        (pre ≠ [] → beginsWithRoot o cs = false) ∧
        respelt o cs = pre ++ if c = '\\' then '\\' :: c :: m else o.flatten (c :: m) := by
  induction cs with
  | nil =>
    refine .inl ⟨rfl, fun m hm => ?_⟩
    rw [suffix_nil.1 hm, not_beginsWithRoot_nil]
  | cons c cs ih =>
    rw [respelt]
    split
    · next hbegins => exact .inr ⟨[], c, cs, rfl, hbegins, fun h => absurd rfl h, rfl⟩
    · next hbegins =>
      rw [Bool.not_eq_true] at hbegins
      rcases ih with ⟨hkept, hnone⟩ | ⟨pre, d, m, hcs, hroot, -, hrespelt⟩
      · refine .inl ⟨by rw [hkept], fun m hm => ?_⟩
        rcases suffix_cons_iff.1 hm with rfl | hm
        · exact hbegins
        · exact hnone m hm
      · exact .inr ⟨c :: pre, d, m, by rw [hcs, cons_append], hroot, fun _ => hbegins,
          by rw [hrespelt, cons_append]⟩

theorem lastSegment_append (a : Text) (h : '\\' ∈ m) : lastSegment (a ++ m) = lastSegment m := by
  have hstop : (m.reverse.takeWhile (· != '\\')).length ≠ m.reverse.length := by
    intro hlength
    have hstart := takeWhile_prefix (· != '\\') (l := m.reverse)
    have hwhole := hstart.eq_of_length hlength
    have hall := all_takeWhile (l := m.reverse) (p := (· != '\\'))
    rw [hwhole] at hall
    have := all_eq_true.1 hall '\\' (mem_reverse.2 h)
    cases this
  rw [lastSegment, lastSegment, reverse_append, takeWhile_append, if_neg hstop]

theorem flatten_of_isProtected (hc : c ≠ '\\') (hsep : '\\' ∈ c :: m)
    (hprotected : o.isProtected (c :: m)) (hrenamed : o.renamed.get? (c :: m) = none) :
    o.flatten (c :: m) = o.withPrefix (lastSegment (c :: m)) := by
  have hdrop : dropLeading '\\' (c :: m) = c :: m := by simp [dropLeading, hc]
  unfold ConvertOptions.flatten
  rw [hdrop, if_neg (not_not.2 hsep), if_pos hprotected, hrenamed]
  rfl

theorem not_mem_withPrefix (hpre : '\\' ∉ o.classPrefix) (name : Text) :
    '\\' ∉ o.withPrefix (lastSegment name) := by
  unfold ConvertOptions.withPrefix
  split
  · simp [hpre, not_mem_lastSegment]
  · exact not_mem_lastSegment name

theorem respelt_of_speltAsMeant (h : SpeltAsMeant o n) : respelt o n.opened = meant o n := by
  unfold SpeltAsMeant at h
  unfold meant
  split at h
  · next hprotected =>
    have hstart := n.nextIs_text
    have hquote : ¬ beginsWithRoot o ('\'' :: n.text) := Bool.eq_false_iff.1 h.2
    rw [if_pos hprotected, SpeltName.opened, respelt, if_neg hquote]
    cases htext : n.text with
    | nil => rw [htext] at hstart; cases hstart
    | cons c m =>
      rw [htext] at h hstart
      rw [respelt, if_pos h.1, if_neg (bne_iff_ne.1 hstart)]
  · next hprotected =>
    rw [if_neg hprotected]
    rcases respelt_cases o n.opened with ⟨hkept, -⟩ | ⟨pre, c, m, hopened, hroot, -⟩
    · exact hkept
    · rw [h _ ⟨pre, hopened.symm⟩] at hroot
      cases hroot

/-- If the options bring in no separators and rename no part of the name, the two agree nowhere
else. -/
theorem speltAsMeant_of_respelt (hpre : '\\' ∉ o.classPrefix)
    (hrenamed : ∀ m, m <:+ n.opened → o.renamed.get? m = none)
    (h : respelt o n.opened = meant o n) : SpeltAsMeant o n := by
  have htext : n.text <:+ n.opened := suffix_cons _ _
  have hsep := not_mem_withPrefix hpre n.text
  -- every protected end of the literal has the same flat form
  have hflat : ∀ m, m <:+ n.opened → nextIs (· != '\\') m → '\\' ∈ m →
      o.isProtected m → o.flatten m = o.withPrefix (lastSegment n.text) := by
    intro m hm hhead hmem hprotected
    have hlast : lastSegment m = lastSegment n.text := by
      obtain ⟨pre, hopened⟩ := hm
      rw [← lastSegment_append pre hmem, hopened]
      exact lastSegment_append ['\''] n.mem_text
    cases m with
    | nil => cases hhead
    | cons c m =>
      rw [flatten_of_isProtected (bne_iff_ne.1 hhead) hmem hprotected (hrenamed _ hm), hlast]
  unfold SpeltAsMeant
  unfold meant at h
  rcases respelt_cases o n.opened with ⟨hkept, hnone⟩ |
    ⟨pre, c, m, hopened, hroot, hfirst, hrespelt⟩
  · split
    · next hprotected =>
      rw [hkept, if_pos hprotected, hflat _ htext n.nextIs_text n.mem_text hprotected] at h
      exact absurd ((cons.inj h).2 ▸ n.mem_text) hsep
    · exact hnone
  · have hmem : '\\' ∈ c :: m := mem_of_beginsWithRoot hroot
    rw [hrespelt] at h
    by_cases hc : c = '\\'
    · -- a root of separators only leaves the separators and adds one
      rw [if_pos hc, hc] at h
      split at h
      · next hprotected =>
        rw [hflat _ htext n.nextIs_text n.mem_text hprotected] at h
        have hquoted : '\\' ∈ '\'' :: o.withPrefix (lastSegment n.text) := h ▸ by simp
        exact absurd ((mem_cons.1 hquoted).resolve_left (by decide)) hsep
      · have hlength := congrArg List.length (h.trans hopened)
        simp at hlength
    · have hform := hflat (c :: m) ⟨pre, hopened.symm⟩ (bne_iff_ne.2 hc) hmem
        (isProtected_of_beginsWithRoot hroot)
      rw [if_neg hc, hform] at h
      split
      · next hprotected =>
        rw [if_pos hprotected, hflat _ htext n.nextIs_text n.mem_text hprotected] at h
        obtain rfl : pre = ['\''] := append_cancel_right h
        have hname : n.text = c :: m := (cons.inj hopened).2
        exact ⟨hname ▸ hroot, hfirst (cons_ne_nil _ _)⟩
      · next hprotected =>
        rw [if_neg hprotected] at h
        have hsame := append_cancel_left (h.trans hopened)
        rw [hsame] at hsep
        exact absurd hmem hsep

/-! ## In a unit -/

/-- The unit fails as the tokens before a place do on their own, or what is written for them is
followed by `text` and by what the tokens after the place turn into. -/
def WritesAt (o : ConvertOptions) (path : Path) (source : Text) (before after : List Token)
    (text : Text) : Prop :=
  match run ⟨path, source, o⟩ {} before with
  | .error e => qualify o path source = .error e
  | .ok (out, scope) => ∃ s : State, s.scope = scope ∧
      qualify o path source =
        (run ⟨path, source, o⟩ s after).map fun r => ⟨out ++ text ++ r.1, r.2.current⟩

/-- A barrier that keeps the scope writes its text wherever it stands. -/
theorem writesAt_of_step {path : Path} {source text : Text} {before rest after : List Token}
    {b : Token} (hlex : lexemes source = .ok (before ++ b :: rest)) (hb : Barrier b)
    (hparen : b.isPunct "(" = false)
    (hstep : ∀ s : State, ∃ state : State, state.scope = s.scope ∧
      step ⟨path, source, o⟩ s b rest = .ok ⟨text, state, after⟩) :
    WritesAt o path source before after text := by
  unfold WritesAt
  rw [qualify_eq_run o path hlex]
  split
  · next e herror =>
    rw [run_error_append hb hparen herror]
    rfl
  · next out scope hrun =>
    obtain ⟨s, hscope, hplace⟩ := @reached_of_run _ _ _ rest hb hparen _ _ hrun
    obtain ⟨state, hstate, hok⟩ := hstep s
    refine ⟨state.wrote text, by rw [← hscope, ← hstate]; rfl, ?_⟩
    rw [(hplace.step hok).run_eq]
    cases run ⟨path, source, o⟩ (state.wrote text) after <;> rfl

/-- Behind `new` a rooted name gives its flat form. -/
theorem step_new (u : Source) (s : State) {new : Token} {space name after : List Token}
    (hnew : new.isKeyword .newKw) (hspace : ∀ t ∈ space, t.kind = .whitespace)
    (hname : ∀ t ∈ name, t.isNamePart) {full : Text} (htext : serialize name = '\\' :: full)
    (hfull : ProperName full) (hafter : Stream.isNext Token.isNamePart after = false) :
    step u s new (space ++ (name ++ after)) =
      .ok ⟨new.text ++ serialize space ++ u.options.flatten full, s.entering new, after⟩ := by
  have hkind : new.kind = .keyword .newKw := eq_of_beq hnew
  have hgather : Stream.gather Token.isNamePart (name ++ after) = (name, after) := by
    refine Stream.gather_append hname ?_
    rw [Stream.isEmpty_gather (fun _ => Token.not_isTrivia_of_isNamePart), hafter]
    rfl
  -- a part of the name ends the white space
  have hspaces : Stream.gather (·.kind == .whitespace) (space ++ (name ++ after)) =
      (space, name ++ after) := by
    refine Stream.gather_append (fun t ht => beq_iff_eq.2 (hspace t ht)) ?_
    cases name with
    | nil => cases htext
    | cons t name =>
      have ht := hname t mem_cons_self
      have hblank : (t.kind == .whitespace) = false := beq_eq_false_iff_ne.2 fun hwhite => by
        have htrivia := Token.not_isTrivia_of_isNamePart ht
        rw [Token.isTrivia, hwhite] at htrivia
        cases htrivia
      rw [cons_append, Stream.gather_cons, hblank, Token.not_isTrivia_of_isNamePart ht]
      rfl
  have hlist : takesList (s.entering new) new = false := by
    simp [takesList, Token.isKeyword, hkind]
  have hclass : className u s.scope new ('\\' :: full) = .ok (u.options.flatten full) := by
    rw [className, hfull.resolve?_rooted]
  rw [step_eq, hlist, classNames_eq]
  simp only [Stream.name, hspaces, hgather, htext, hclass]
  simp [Token.isKeyword, hkind, isClassContext, Except.map]

/-- In every unit, a literal that spells a class is respelt, and the rooted name behind `new` is
flattened. The literal becomes what the name becomes in code if the name is protected, and stays as
it is if not, whenever the name is spelt as the roots are and no root stands elsewhere in it. With
options that bring in no separators and rename no part of the name it does so in no other case. -/
theorem literal_follows_code_iff (o : ConvertOptions) (n : SpeltName) :
    (∀ (path : Path) (source : Text) (before after : List Token) (t : Token),
      lexemes source = .ok (before ++ t :: after) → t.kind = .stringLiteral → t.text = n.literal →
      WritesAt o path source before after (respelt o n.opened ++ ['\''])) ∧
    (∀ (path : Path) (source : Text) (before space name after : List Token) (new : Token),
      lexemes source = .ok (before ++ new :: (space ++ (name ++ after))) →
      new.isKeyword .newKw → (∀ t ∈ space, t.kind = .whitespace) →
      (∀ t ∈ name, t.isNamePart) → serialize name = '\\' :: n.text →
      Stream.isNext Token.isNamePart after = false →
      WritesAt o path source before after (new.text ++ serialize space ++ o.flatten n.text)) ∧
    (SpeltAsMeant o n → respelt o n.opened = meant o n) ∧
    ('\\' ∉ o.classPrefix → (∀ m, m <:+ n.opened → o.renamed.get? m = none) →
      respelt o n.opened = meant o n → SpeltAsMeant o n) := by
  refine ⟨fun path source before after t hlex hkind htext => ?_,
    fun path source before space name after new hlex hnew hspace hname htext hafter => ?_,
    respelt_of_speltAsMeant, speltAsMeant_of_respelt⟩
  · refine writesAt_of_step hlex (barrier_of_kind hkind rfl) (by simp [Token.isPunct, hkind])
      fun s => ⟨s.entering t, s.entering_scope t, ?_⟩
    simp [step_eq, Token.isKeyword, Token.isNamePart, Token.isPunct, isClassContext, copied, hkind,
      htext, literal_eq_respelt]
  · have hkind : new.kind = .keyword .newKw := eq_of_beq hnew
    exact writesAt_of_step hlex (barrier_of_kind hkind rfl) (by simp [Token.isPunct, hkind])
      fun s => ⟨s.entering new, s.entering_scope new,
        step_new _ s hnew hspace hname htext n.proper_text hafter⟩

/-- A class under the default root in three spellings: as the root has it, in another case, and in
another namespace that holds one of the root's name. -/
def rootSpelling : SpeltName := ⟨["Nette".toList, "Object".toList], by decide, by decide⟩

@[inherit_doc rootSpelling]
def otherCase : SpeltName := ⟨["nette".toList, "Object".toList], by decide, by decide⟩

@[inherit_doc rootSpelling]
def innerRoot : SpeltName := ⟨["My".toList, "Nette".toList, "Object".toList], by decide, by decide⟩

theorem literal_follows_code_iff_unlike :
    WritesAt {} [] "<?php 'nette\\Object';".toList [⟨.openTag, "<?php ".toList, 0⟩]
      [⟨.punctuation, [';'], 20⟩] "'nette\\Object'".toList ∧
    WritesAt {} [] "<?php new \\nette\\Object;".toList [⟨.openTag, "<?php ".toList, 0⟩]
      [⟨.punctuation, [';'], 23⟩] "new NObject".toList ∧
    WritesAt {} [] "<?php 'My\\Nette\\Object';".toList [⟨.openTag, "<?php ".toList, 0⟩]
      [⟨.punctuation, [';'], 23⟩] "'My\\NObject'".toList ∧
    ¬ SpeltAsMeant {} otherCase ∧ ¬ SpeltAsMeant {} innerRoot ∧ SpeltAsMeant {} rootSpelling := by
  obtain ⟨hliteral, hnew, hagree, -⟩ := literal_follows_code_iff {} otherCase
  obtain ⟨hinner, -, hinnerAgree, -⟩ := literal_follows_code_iff {} innerRoot
  obtain ⟨-, -, -, hroot⟩ := literal_follows_code_iff {} rootSpelling
  refine ⟨hliteral [] _ _ _ ⟨.stringLiteral, "'nette\\Object'".toList, 6⟩
      (eq_ok_of_toOption (by decide +kernel)) rfl (by decide +kernel),
    hnew [] _ _ [⟨.whitespace, [' '], 9⟩]
      [⟨.punctuation, ['\\'], 10⟩, ⟨.identifier, "nette".toList, 11⟩, ⟨.punctuation, ['\\'], 16⟩,
        ⟨.identifier, "Object".toList, 17⟩] _ ⟨.keyword .newKw, "new".toList, 6⟩
      (eq_ok_of_toOption (by decide +kernel)) rfl (forall_mem_of_all (by decide))
      (forall_mem_of_all (by decide)) (by decide +kernel) rfl,
    hinner [] _ _ _ ⟨.stringLiteral, "'My\\Nette\\Object'".toList, 6⟩
      (eq_ok_of_toOption (by decide +kernel)) rfl (by decide +kernel),
    fun h => absurd (hagree h) (by decide +kernel),
    fun h => absurd (hinnerAgree h) (by decide +kernel),
    hroot (by decide) (fun _ _ => rfl) (by decide +kernel)⟩

end Qualify

end LegacyPhp
