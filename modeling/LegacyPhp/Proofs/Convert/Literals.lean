import LegacyPhp.Proofs.Convert.Names
import LegacyPhp.Qualify.Literal

/-!
# Names in literals

A full name in a literal spells the words of a protected root and of its own segments, with one or
two separators between them (`fullNameAt_spells`). None of its segments is empty, so it resolves in
every scope, and its flat form has no separators. A literal therefore keeps its text exactly if no
full name starts anywhere in it (`literalFrom_of_none`, `literalFrom_sheds`).
-/

namespace LegacyPhp.Qualify

open Text Scan Drift List

variable {words : List Text} {t cs needle new : Text} {doubled : Bool} {c : Char} {n : FullName}

variable {o : ConvertOptions} {s : Scope}

/-! ## Spelt names -/

/-- The text spells the words, with one or two separators between any two of them. -/
inductive Spells : List Text → Text → Prop where
  | one (w : Text) : Spells [w] w
  | cons {w sep : Text} {words : List Text} {t : Text} (hsep : sep = ['\\'] ∨ sep = ['\\', '\\'])
      (h : Spells words t) : Spells (w :: words) (w ++ sep ++ t)

theorem Spells.append {more : List Text} {u sep : Text} (h : Spells words t)
    (hsep : sep = ['\\'] ∨ sep = ['\\', '\\']) (h' : Spells more u) :
    Spells (words ++ more) (t ++ sep ++ u) := by
  induction h with
  | one w => exact .cons hsep h'
  | @cons w sep' words t hsep' _ ih =>
    have hassoc : w ++ sep' ++ t ++ sep ++ u = w ++ sep' ++ (t ++ sep ++ u) := by
      simp only [append_assoc]
    rw [hassoc]
    exact .cons hsep' ih

theorem spells_join (h : words ≠ []) : Spells words (join ['\\'] words) := by
  induction words with
  | nil => exact absurd rfl h
  | cons w words ih =>
    cases words with
    | nil =>
      rw [show join ['\\'] [w] = w by simp [join, List.intercalate, List.intersperse]]
      exact .one w
    | cons v words =>
      rw [join_cons_cons, ← append_assoc]
      exact .cons (.inl rfl) (ih (cons_ne_nil _ _))

theorem Spells.ne_nil (h : Spells words t) : words ≠ [] := by
  cases h <;> simp

theorem Spells.plain (h : Spells words t) (hwords : ∀ w ∈ words, IsNameWord w) : Plain t := by
  induction h with
  | one w => exact .of_all (hwords w mem_cons_self).2
  | @cons w sep words t hsep _ ih =>
    have hmarks : Plain sep := by
      intro c hc
      have hc' : c = '\\' := by
        rcases hsep with rfl | rfl <;> simpa using hc
      rw [hc']
      rfl
    exact ((Plain.of_all (hwords _ mem_cons_self).2).append hmarks).append
      (ih fun w hw => hwords w (mem_cons_of_mem _ hw))

/-- Where the text looked for does not stand, nothing is replaced. -/
theorem replaceOccurrences_cons {d : Char} (h : after? (c :: needle) (d :: cs) = none) :
    replaceOccurrences c needle new (d :: cs) = d :: replaceOccurrences c needle new cs := by
  have hbreak := breakOn?_cons h
  rw [replaceOccurrences]
  split
  · -- it stands nowhere behind the first character either
    next hnone =>
    rw [hbreak, Option.map_eq_none_iff] at hnone
    rw [replaceOccurrences]
    split
    · rfl
    · next hsome => rw [hnone] at hsome; cases hsome
  · next a b hsome =>
    rw [hbreak] at hsome
    obtain ⟨⟨a', b'⟩, hrest, hparts⟩ := Option.map_eq_some_iff.1 hsome
    obtain ⟨rfl, rfl⟩ := Prod.mk.inj hparts
    have hunfold : replaceOccurrences c needle new cs =
        a' ++ new ++ replaceOccurrences c needle new b' := by
      rw [replaceOccurrences]
      split
      · next hnone => rw [hrest] at hnone; cases hnone
      · next hsome' => rw [hrest] at hsome'; cases hsome'; rfl
    rw [hunfold]
    rfl

theorem replaceOccurrences_after {rest : Text} (h : after? (c :: needle) cs = some rest) :
    replaceOccurrences c needle new cs = new ++ replaceOccurrences c needle new rest := by
  have hbreak : breakOn? (c :: needle) cs = some ([], rest) := by
    cases cs with
    | nil => cases h
    | cons d cs => simp only [breakOn?, h]
  rw [replaceOccurrences]
  split
  · next hnone => rw [hbreak] at hnone; cases hnone
  · next hsome => rw [hbreak] at hsome; cases hsome; rfl

theorem replaceAll_word {w : Text} (h : '\\' ∉ w) (rest : Text) :
    replaceAll ['\\', '\\'] ['\\'] (w ++ rest) =
      w ++ replaceAll ['\\', '\\'] ['\\'] rest := by
  induction w with
  | nil => rfl
  | cons c w ih =>
    have hc : ¬ '\\' = c := fun hc => h (by rw [hc]; exact mem_cons_self)
    rw [cons_append, replaceAll, replaceOccurrences_cons (by simp [after?, hc])]
    exact congrArg (c :: ·) (ih fun hmem => h (mem_cons_of_mem c hmem))

/-- Doubled separators become single ones. -/
theorem replaceAll_spells (h : Spells words t) (hwords : ∀ w ∈ words, IsNameWord w) :
    replaceAll ['\\', '\\'] ['\\'] t = join ['\\'] words := by
  induction h with
  | one w =>
    have hw := not_mem_of_all (hwords w mem_cons_self).2
    have := replaceAll_word hw []
    rw [append_nil] at this
    rw [this]
    simp [join, List.intercalate, List.intersperse, replaceAll, replaceOccurrences, breakOn?]
  | @cons w sep words t hsep hrest ih =>
    have hw := not_mem_of_all (hwords w mem_cons_self).2
    have hmore : ∀ v ∈ words, IsNameWord v := fun v hv => hwords v (mem_cons_of_mem w hv)
    -- the rest starts with a word, so a single separator is not the start of a doubled one
    have hhead : ∃ c cs, t = c :: cs ∧ c ≠ '\\' := by
      have hword : ∃ v more, v ∈ words ∧ t = v ++ more := by
        cases hrest with
        | one => exact ⟨t, [], mem_cons_self, (append_nil t).symm⟩
        | cons _ _ => exact ⟨_, _, mem_cons_self, append_assoc _ _ _⟩
      obtain ⟨v, more, hv, rfl⟩ := hword
      obtain ⟨hne, hall⟩ := hmore v hv
      cases v with
      | nil => exact absurd rfl hne
      | cons c v =>
        refine ⟨c, v ++ more, rfl, fun hc => not_mem_of_all hall (by simp [hc])⟩
    have hsingle : replaceAll ['\\', '\\'] ['\\'] (sep ++ t) =
        '\\' :: replaceAll ['\\', '\\'] ['\\'] t := by
      rcases hsep with rfl | rfl
      · obtain ⟨c, cs, rfl, hc⟩ := hhead
        have hc' : ¬ '\\' = c := fun h => hc h.symm
        exact replaceOccurrences_cons (by simp [after?, hc'])
      · exact replaceOccurrences_after rfl
    rw [append_assoc, replaceAll_word hw, hsingle, ih hmore]
    cases words with
    | nil => exact absurd rfl hrest.ne_nil
    | cons v words => rw [join_cons_cons]; rfl

theorem hasEmptySegment_join (hne : words ≠ []) (hwords : ∀ w ∈ words, IsNameWord w) :
    Scope.hasEmptySegment (join ['\\'] words) = false := by
  rw [Scope.hasEmptySegment, splitOn_join hne, any_eq_false]
  intro part hpart
  obtain ⟨w, hw, hpart⟩ := mem_flatMap.1 hpart
  rw [splitOn_of_not_mem (not_mem_of_all (hwords w hw).2), mem_singleton] at hpart
  simpa [hpart] using (hwords w hw).1

theorem isNameWord_run (h : nextIs isWordChar cs) : IsNameWord (run isWordChar cs).1 := by
  refine ⟨?_, all_eq_true.2 fun c hc => ?_⟩
  · cases cs with
    | nil => cases h
    | cons c cs =>
      have hc : isWordChar c := h
      simp [run, hc]
  · exact isIdentChar_of_isWordChar (all_eq_true.1 (all_run _ _) c hc)

/-- The segments at a word character spell words. -/
theorem segmentsAt_spells {doubled : Bool} {cs : Text} (h : nextIs isWordChar cs) :
    ∃ words, Spells words (segmentsAt doubled cs).1 ∧ ∀ w ∈ words, IsNameWord w := by
  fun_induction segmentsAt doubled cs with
  | case1 cs word sep rest hsep more ih =>
    obtain ⟨hmarks, -, hnext⟩ := separatorAt_append hsep
    obtain ⟨words, hspells, hwords⟩ := ih hnext
    refine ⟨word.1 :: words, .cons hmarks hspells, fun w hw => ?_⟩
    rcases mem_cons.1 hw with rfl | hw
    · exact isNameWord_run h
    · exact hwords w hw
  | case2 cs word hnone =>
    refine ⟨[word.1], .one _, fun w hw => ?_⟩
    rw [mem_singleton.1 hw]
    exact isNameWord_run h

/-- A class spelt out in a literal spells words with a separator among them. -/
theorem fullNameAt_spells (ho : PlainOptions o)
    (h : fullNameAt o.protectedRoots doubled cs = some n) :
    '\\' ∈ n.name ∧ ∃ words, Spells words n.name ∧ ∀ w ∈ words, IsNameWord w := by
  -- a protected root, a separator, the segments, and what ends the name
  obtain ⟨root, hroot, hn⟩ := exists_of_findSome?_eq_some h
  obtain ⟨rootWords, hne, hrootWords, hspelt⟩ := ho.roots root hroot
  unfold fullNameUnder at hn
  obtain ⟨afterRoot, hafter, hn⟩ := Option.bind_eq_some_iff.1 hn
  obtain ⟨sep, hsep, hn⟩ := Option.bind_eq_some_iff.1 hn
  obtain ⟨tail, htail, hn⟩ := Option.bind_eq_some_iff.1 hn
  cases hn
  obtain ⟨hmarks, -, hnext⟩ := separatorAt_append hsep
  obtain ⟨words, hspells, hwords⟩ := @segmentsAt_spells doubled sep.2 hnext
  refine ⟨?_, rootWords ++ words, ?_, fun w hw => ?_⟩
  · have hmem : '\\' ∈ sep.1 := by rcases hmarks with hmarks | hmarks <;> simp [hmarks]
    exact mem_append_left _ (mem_append_right _ hmem)
  · rw [hspelt]
    exact (spells_join hne).append hmarks hspells
  · rcases mem_append.1 hw with hw | hw
    · exact hrootWords w hw
    · exact hwords w hw

/-- A full name in a literal resolves, and its flat form has no separators. -/
theorem fullName_sheds (ho : PlainOptions o) (s : Scope) (hspells : Spells words n.name)
    (hwords : ∀ w ∈ words, IsNameWord w) (hsep : '\\' ∈ n.name) :
    Sheds (n.name ++ n.tail) (n.flat o s) := by
  have hrooted := replaceAll_spells hspells hwords
  -- a rooted name without empty segments resolves whatever the scope is
  have hresolve : s.resolve? ('\\' :: replaceAll ['\\', '\\'] ['\\'] n.name) =
      some (join ['\\'] words) := by
    rw [hrooted, Scope.resolve?]
    have hrelative : isRelativeName ('\\' :: join ['\\'] words) = false := by
      simp [isRelativeName, sameWord, lower]
    simp only [isEmpty_cons, hrelative, Bool.or_self, Bool.false_eq_true, if_false,
      hasEmptySegment_join hspells.ne_nil hwords]
  have hplain : Plain (join ['\\'] words) := (spells_join hspells.ne_nil).plain hwords
  obtain ⟨hflatPlain, hflat⟩ := flatten_plain ho hplain
  have hname : Sheds n.name (o.flatten (join ['\\'] words)) :=
    (hspells.plain hwords).sheds hflatPlain hsep hflat
  unfold FullName.flat proseName
  rw [hresolve]
  exact hname.append_keeps (.refl _)

/-! ## Literals -/

theorem literalFrom_of_none (s : Scope)
    (h : ∀ rest, rest <:+ cs → fullNameAt o.protectedRoots doubled rest = none) :
    literalFrom o s doubled cs = cs := by
  fun_induction literalFrom o s doubled cs with
  | case1 cs n hn ih =>
    rw [h cs (suffix_refl _)] at hn
    cases hn
  | case2 => rfl
  | case3 c rest hnone ih =>
    rw [ih fun rest' hrest => h rest' (hrest.trans (suffix_cons c rest))]

theorem literalFrom_sheds (ho : PlainOptions o) (s : Scope) (doubled : Bool) (cs : Text) :
    Sheds cs (literalFrom o s doubled cs) ∨
      literalFrom o s doubled cs = cs ∧
        ∀ rest, rest <:+ cs → fullNameAt o.protectedRoots doubled rest = none := by
  fun_induction literalFrom o s doubled cs with
  | case1 cs n hn ih =>
    obtain ⟨happend, -⟩ := fullNameAt_append hn
    obtain ⟨hsep, words, hspells, hwords⟩ := fullNameAt_spells ho hn
    have hsheds := fullName_sheds ho s hspells hwords hsep
    have hkeeps : Keeps n.rest (literalFrom o s doubled n.rest) :=
      keeps_of_sheds_or_eq (ih.imp id And.left)
    have hall := hsheds.append_keeps hkeeps
    rw [happend] at hall
    exact .inl hall
  | case2 hnone =>
    refine .inr ⟨rfl, fun rest hrest => ?_⟩
    rw [suffix_nil.1 hrest]
    exact hnone
  | case3 c rest hnone ih =>
    rcases ih with ih | ⟨ih, hrest⟩
    · exact .inl ((Keeps.refl [c]).append_sheds ih)
    · refine .inr ⟨by rw [ih], fun rest' hsuffix => ?_⟩
      rcases suffix_cons_iff.1 hsuffix with rfl | hsuffix
      · exact hnone
      · exact hrest rest' hsuffix

end LegacyPhp.Qualify
