import LegacyPhp.Convert
import LegacyPhp.Proofs.Convert.Drift

/-!
# What the passes of a conversion leave alone

For each pass but qualification two facts: the condition on the tokens under which the pass changes
nothing, and that a text without the condition moves forward in the order of `Drift`. Together they
say that a pass is idle exactly under its condition, and more: when a text comes back to itself
through several passes, each of them was idle.

The conditions are `Unmarked` for version marks, `Substituted` for substitutions, no short ternary
at any place, and no closure literal. Cutting blank lines needs none here, since what it returns it
leaves alone (`cutBlankLines_cutBlankLines`).
-/

namespace LegacyPhp.Legacy

open Text Scan Drift List

variable {word spelling cs opening : Text} {before ts rest : List Token} {t : Token}

/-! ## Version marks -/

/-- No comment holds code for the legacy target, and no pair of delimiters encloses anything. -/
structure Unmarked (opening : Text) (ts : List Token) : Prop where
  code : ∀ t ∈ ts, t.kind = .comment → markedCode? opening t.text = none
  delimiters : ts.countP isDelimiter ≤ 1

theorem trim_sublist (cs : Text) : (trim cs).Sublist cs := by
  unfold trim trimEnd dropEndWhile
  refine List.Sublist.trans ?_ (dropWhile_sublist isBlank)
  rw [← reverse_sublist, reverse_reverse]
  exact dropWhile_sublist isBlank

theorem afterDelimiter?_eq_none : afterDelimiter? ts = none ↔ ts.countP isDelimiter = 0 := by
  induction ts with
  | nil => simp [afterDelimiter?]
  | cons t ts ih =>
    unfold afterDelimiter?
    split
    · next ht => simp [ht]
    · next ht => rw [ih, countP_cons_of_neg ht]

/-- Opened up, a comment has lost its mark. -/
theorem sheds_markedCode {marker comment code : Text}
    (h : markedCode? (markOpening marker) comment = some code) : Sheds comment code := by
  unfold markedCode? at h
  split at h
  · next rest hrest =>
    split at h
    · cases h
      have hle : commentMarks (trim (rest.take (rest.length - 2))) ≤ commentMarks rest :=
        ((trim_sublist _).trans (take_sublist _ _)).countP_le
      have hopening : 0 < commentMarks (markOpening marker) :=
        countP_pos_iff.2 ⟨'/', by simp [markOpening], rfl⟩
      refine .inl ?_
      rw [after?_eq_some hrest, commentMarks_append]
      omega
    · cases h
  · cases h

theorem commentMarks_suffix {us : List Token} (h : us <:+ ts) :
    commentMarks (serialize us) ≤ commentMarks (serialize ts) := by
  obtain ⟨pre, rfl⟩ := h
  rw [serialize_append, commentMarks_append]
  exact Nat.le_add_left _ _

theorem Unmarked.cons (h : Unmarked opening ts)
    (hcode : t.kind = .comment → markedCode? opening t.text = none)
    (hdelimiter : isDelimiter t → ts.countP isDelimiter = 0) :
    Unmarked opening (t :: ts) where
  code u hu hkind := by
    rcases mem_cons.1 hu with rfl | hu
    · exact hcode hkind
    · exact h.code u hu hkind
  delimiters := by
    by_cases ht : isDelimiter t
    · have hzero := hdelimiter ht
      rw [countP_cons_of_pos ht]
      omega
    · rw [countP_cons_of_neg ht]
      exact h.delimiters

theorem activate_advances (marker : Text) (ts : List Token) :
    Advances (serialize ts) (activate (markOpening marker) ts) ∨
      activate (markOpening marker) ts = serialize ts ∧ Unmarked (markOpening marker) ts := by
  fun_induction activate (markOpening marker) ts with
  | case1 => exact .inr ⟨rfl, fun t ht => absurd ht not_mem_nil, Nat.zero_le _⟩
  | case2 t rest code hcode ih =>
    have hsheds : Sheds t.text code := by
      split at hcode
      · exact sheds_markedCode hcode
      · cases hcode
    refine .inl (.inl (hsheds.append_keeps ?_))
    rcases ih with ih | ⟨ih, _⟩
    · exact ih.keeps
    · rw [ih]; exact .refl _
  | case3 =>
    -- the delimiter goes with everything through its partner
    rename_i t rest _ left hleft ih
    split at hleft
    · next hdelimiter =>
      have htext : t.text = "/**/".toList := by
        simp only [isDelimiter, Bool.and_eq_true, beq_iff_eq] at hdelimiter
        exact hdelimiter.2
      have hsuffix : left.dropWhile (·.kind == .whitespace) <:+ rest :=
        (dropWhile_suffix _).trans (suffix_afterDelimiter? hleft)
      have hsheds : Sheds (serialize (t :: rest))
          (serialize (left.dropWhile (·.kind == .whitespace))) := by
        have hle := commentMarks_suffix hsuffix
        have hmarks : commentMarks t.text = 2 := by rw [htext]; rfl
        refine .inl ?_
        rw [serialize_cons, commentMarks_append]
        omega
      refine .inl (.inl (hsheds.trans_keeps ?_))
      rcases ih with ih | ⟨ih, _⟩
      · exact ih.keeps
      · rw [ih]; exact .refl _
    · cases hleft
  | case4 =>
    rename_i t rest hcode hnone ih
    rcases ih with ih | ⟨ih, hunmarked⟩
    · exact .inl (ih.append_left t.text)
    · refine .inr ⟨by rw [ih, serialize_cons], hunmarked.cons (fun hkind => ?_) fun hmark => ?_⟩
      · simpa [hkind] using hcode
      · rw [dif_pos hmark] at hnone
        exact afterDelimiter?_eq_none.1 hnone

theorem activate_of_unmarked (h : Unmarked opening ts) : activate opening ts = serialize ts := by
  fun_induction activate opening ts with
  | case1 => rfl
  | case2 t rest code hcode ih =>
    split at hcode
    · next hkind =>
      rw [h.code t mem_cons_self (by simpa using hkind)] at hcode
      cases hcode
    · cases hcode
  | case3 =>
    rename_i t rest _ left hleft ih
    split at hleft
    · next hdelimiter =>
      have hcount := h.delimiters
      rw [countP_cons_of_pos hdelimiter] at hcount
      have hzero : rest.countP isDelimiter = 0 := by omega
      rw [afterDelimiter?_eq_none.2 hzero] at hleft
      cases hleft
    · cases hleft
  | case4 =>
    rename_i t rest _ _ ih
    have hrest : Unmarked opening rest := by
      refine ⟨fun u hu => h.code u (mem_cons_of_mem t hu), ?_⟩
      exact Nat.le_trans (List.Sublist.countP_le (sublist_cons_self t rest)) h.delimiters
    rw [ih hrest, serialize_cons]

/-! ## Substitutions -/

/-- Whether the last of the tokens that is not trivia is `new`. -/
def followsNew (before : List Token) : Bool := Stream.isNext (·.isKeyword .newKw) before.reverse

theorem followsNew_append_singleton (before : List Token) (t : Token) :
    followsNew (before ++ [t]) = if t.isTrivia then followsNew before else t.isKeyword .newKw := by
  unfold followsNew Stream.isNext Stream.peek Stream.peekBy
  rw [reverse_append, reverse_singleton, singleton_append, dropWhile_cons]
  split <;> rfl

/-- The tokens, which follow `before`, hold none of the constructs that have a substitute. -/
structure Substituted (before ts : List Token) : Prop where
  words : ∀ t ∈ ts, t.kind = .identifier → identifierFor t.text = t.text
  calls : ∀ t rest, t :: rest <:+ ts → isCalledClass t → afterNoArguments? rest = none
  statics : ∀ mid t rest, ts = mid ++ t :: rest → t.isKeyword .staticKw →
    Stream.isNext (·.isPunct "::") rest = false ∧ followsNew (before ++ mid) = false

theorem Substituted.tail (h : Substituted before (t :: ts)) : Substituted (before ++ [t]) ts where
  words u hu := h.words u (mem_cons_of_mem t hu)
  calls u rest hrest := h.calls u rest (hrest.trans (suffix_cons t ts))
  statics mid u rest hts hu := by
    have := h.statics (t :: mid) u rest (by rw [hts]; rfl) hu
    simpa using this

theorem Substituted.cons (h : Substituted (before ++ [t]) ts)
    (hword : t.kind = .identifier → identifierFor t.text = t.text)
    (hcall : isCalledClass t → afterNoArguments? ts = none)
    (hstatic : t.isKeyword .staticKw →
      Stream.isNext (·.isPunct "::") ts = false ∧ followsNew before = false) :
    Substituted before (t :: ts) where
  words u hu := by
    rcases mem_cons.1 hu with rfl | hu
    · exact hword
    · exact h.words u hu
  calls u rest hsuffix hcalled := by
    rcases suffix_cons_iff.1 hsuffix with hhead | hsuffix
    · obtain ⟨rfl, rfl⟩ := cons.inj hhead
      exact hcall hcalled
    · exact h.calls u rest hsuffix hcalled
  statics mid u rest hsplit hu := by
    cases mid with
    | nil =>
      obtain ⟨rfl, rfl⟩ := cons.inj hsplit
      simpa using hstatic hu
    | cons v mid =>
      obtain ⟨rfl, htail⟩ := cons.inj hsplit
      simpa using h.statics mid u rest htail hu

theorem countP_of_sameWord {p q : Char → Bool} (h : sameWord word spelling)
    (hpq : ∀ c, p c → q c.toLower) : word.countP p ≤ (lower spelling).countP q := by
  have heq : lower word = lower spelling := by simpa [sameWord] using h
  rw [← heq, lower, countP_map]
  exact countP_mono_left fun c _ hc => hpq c hc

/-- A letter of a substitute, in lower case. -/
def isFreshLower (c : Char) : Bool := c == 'w' || c == 'f' || c == '_'

theorem isFreshLower_toLower {c : Char} (h : isFresh c) : isFreshLower c.toLower := by
  simp only [isFresh, Bool.or_eq_true, beq_iff_eq] at h
  obtain ((rfl | rfl) | rfl) | rfl := h <;> decide

theorem freshLetters_of_sameWord (h : sameWord word spelling) :
    freshLetters word ≤ (lower spelling).countP isFreshLower :=
  countP_of_sameWord h fun _ => isFreshLower_toLower

theorem advances_of_fresh {a b : Text} (ha : Inert a) (hb : Inert b)
    (h : freshLetters a < freshLetters b) : Advances a b :=
  .inr ⟨ha.sameMarks hb, .inl h⟩

theorem identifierFor_advances (h : word.all isIdentChar) :
    Advances word (identifierFor word) ∨ identifierFor word = word := by
  have hinert := inert_of_isIdentChar h
  unfold identifierFor
  split
  · next hdir =>
    have hfresh : freshLetters word ≤ 4 := freshLetters_of_sameWord hdir
    have hnew : freshLetters "dirname(__FILE__)".toList = 5 := by decide
    exact .inl (advances_of_fresh hinert ⟨by decide, by decide, by decide⟩ (by omega))
  · split
    · next hword =>
      have hword : word = "E_USER_DEPRECATED".toList := by simpa using hword
      subst hword
      exact .inl (advances_of_fresh hinert ⟨by decide, by decide, by decide⟩ (by decide))
    · exact .inr rfl

theorem sameWord_of_ofWord {k : Keyword} (h : Keyword.ofWord? word = some k)
    (hone : ∀ e ∈ Keyword.spellings, e.2 = k → e.1 = lower spelling) : sameWord word spelling := by
  simpa [sameWord] using hone _ (mem_of_lookup h) rfl

/-- A substitute moves forward. One that is the word itself was not called for. -/
theorem substituteFor_advances (hform : t.WellFormed) :
    Advances t.text (substituteFor (followsNew before) t rest) ∨
      substituteFor (followsNew before) t rest = t.text ∧
        (t.kind = .identifier → identifierFor t.text = t.text) ∧
        (t.isKeyword .staticKw →
          Stream.isNext (·.isPunct "::") rest = false ∧ followsNew before = false) := by
  unfold substituteFor
  split
  · next hkind =>
    have hkind : t.kind = .identifier := by simpa using hkind
    have hall : t.text.all isIdentChar := by
      simpa only [Token.WellFormed, hkind] using hform
    have hstatic : t.isKeyword .staticKw = false := by simp [Token.isKeyword, hkind]
    rcases identifierFor_advances hall with hadvance | heq
    · exact .inl hadvance
    · exact .inr ⟨heq, fun _ => heq, fun h => by rw [hstatic] at h; cases h⟩
  · next hkind =>
    have hkind : t.kind ≠ .identifier := by simpa using hkind
    split
    · next hstatic =>
      rw [Bool.and_eq_true] at hstatic
      have hspelling : sameWord t.text "static".toList :=
        sameWord_of_ofWord (hform.ofWord hstatic.1) (by decide)
      have hall : t.text.all isIdentChar := by
        refine hform.all_isIdentChar ?_
        have hword : t.kind = .keyword .staticKw := by simpa [Token.isKeyword] using hstatic.1
        simp [Token.isWord, hword]
      have hfresh : freshLetters t.text ≤ 0 := freshLetters_of_sameWord hspelling
      have hnew : freshLetters "self".toList = 1 := by decide
      exact .inl (advances_of_fresh (inert_of_isIdentChar hall) ⟨by decide, by decide, by decide⟩
        (by omega))
    · next hstatic =>
      refine .inr ⟨rfl, fun h => absurd h hkind, fun h => ?_⟩
      simpa [h] using hstatic

theorem afterNoArguments?_eq_some (h : afterNoArguments? ts = some rest) :
    ∃ left right, left.isPunct "(" ∧ right.isPunct ")" ∧
      Drops ts (left :: right :: rest) ∧ rest <:+ ts := by
  unfold afterNoArguments? at h
  split at h
  · next left mid hleft =>
    obtain ⟨⟨right, found⟩, hright, rfl⟩ := Option.map_eq_some_iff.1 h
    exact ⟨left, right, fetch_holds hleft, fetch_holds hright,
      (drops_fetch hleft).trans (.keep left (drops_fetch hright)),
      (Stream.suffix_fetch hright).trans (Stream.suffix_fetch hleft)⟩
  · cases h

/-- The call of the function for the called class, without trivia, and what is put for it. -/
theorem calledClass_advances {left right : Token} (hform : t.WellFormed)
    (ht : isCalledClass t)
    (hleft : left.isPunct "(") (hright : right.isPunct ")") :
    Advances (t.text ++ (left.text ++ right.text)) "__CLASS__".toList := by
  simp only [isCalledClass, Bool.and_eq_true, beq_iff_eq] at ht
  have hall : t.text.all isIdentChar := by
    simpa only [Token.WellFormed, ht.1] using hform
  have hfresh : freshLetters t.text ≤ 2 := freshLetters_of_sameWord ht.2
  have hinert : Inert ("(".toList ++ ")".toList) := ⟨by decide, by decide, by decide⟩
  rw [text_of_isPunct hleft, text_of_isPunct hright]
  refine advances_of_fresh ((inert_of_isIdentChar hall).append hinert)
    ⟨by decide, by decide, by decide⟩ ?_
  have hmarks : freshLetters ("(".toList ++ ")".toList) = 0 := by decide
  have hnew : freshLetters "__CLASS__".toList = 4 := by decide
  rw [freshLetters_append]
  omega

theorem substitute_advances (hts : Lexed ts) :
    Advances (serialize ts) (substitute (followsNew before) ts) ∨
      substitute (followsNew before) ts = serialize ts ∧ Substituted before ts := by
  generalize hnew : followsNew before = afterNew
  fun_induction substitute afterNew ts generalizing before with
  | case1 =>
    exact .inr ⟨rfl, fun t ht => absurd ht not_mem_nil,
      fun t rest h => absurd (suffix_nil.1 h) (by simp), fun mid t rest h => by simp at h⟩
  | case2 =>
    rename_i afterNew t rest left hcall ih
    split at hcall
    · next hcalled =>
      obtain ⟨lp, rp, hlp, hrp, hdrops, hsuffix⟩ := afterNoArguments?_eq_some hcall
      have hword := calledClass_advances hts.head hcalled hlp hrp
      have hrest := ih (hts.tail.of_suffix hsuffix) (rfl : followsNew [] = false)
      have htail : Advances (serialize left) (substitute false left) ∨
          substitute false left = serialize left := hrest.imp id And.left
      -- without the trivia the call is followed at once by its argument list
      have hplain : Advances (t.text ++ serialize (lp :: rp :: left))
          ("__CLASS__".toList ++ substitute false left) := by
        have := hword.append htail
        simpa using this
      refine .inl ?_
      rw [serialize_cons]
      rcases hdrops.sheds hts.tail.wellFormed with hsheds | heq
      · exact .inl (((Keeps.refl t.text).append_sheds hsheds).trans_keeps hplain.keeps)
      · rw [← heq]; exact hplain
    · cases hcall
  | case3 =>
    rename_i afterNew t rest hcall ih
    subst hnew
    simp only [dite_eq_ite] at ih
    have hstep := ih hts.tail (followsNew_append_singleton before t)
    rcases @substituteFor_advances before rest t hts.head with hadvance | hsame
    · exact .inl (hadvance.append (hstep.imp id And.left))
    · obtain ⟨htext, hword, hstatic⟩ := hsame
      rw [htext]
      rcases hstep with hadvance | ⟨heq, hrest⟩
      · exact .inl (hadvance.append_left t.text)
      · refine .inr ⟨by rw [heq, serialize_cons], hrest.cons hword (fun hcalled => ?_) hstatic⟩
        simpa [hcalled] using hcall

theorem substitute_of_substituted (h : Substituted before ts) :
    substitute (followsNew before) ts = serialize ts := by
  generalize hnew : followsNew before = afterNew
  fun_induction substitute afterNew ts generalizing before with
  | case1 => rfl
  | case2 =>
    rename_i afterNew t rest left hcall ih
    split at hcall
    · next hcalled =>
      rw [h.calls t rest (suffix_refl _) hcalled] at hcall
      cases hcall
    · cases hcall
  | case3 =>
    rename_i afterNew t rest hcall ih
    subst hnew
    simp only [dite_eq_ite] at ih
    rw [ih h.tail (followsNew_append_singleton before t), serialize_cons]
    congr 1
    unfold substituteFor
    split
    · next hkind => exact h.words t mem_cons_self (by simpa using hkind)
    · split
      · next hstatic =>
        rw [Bool.and_eq_true] at hstatic
        have hnot := h.statics [] t rest rfl hstatic.1
        rw [append_nil] at hnot
        rw [hnot.1, hnot.2] at hstatic
        cases hstatic.2
      · rfl

/-! ## Short ternaries -/

theorem sheds_expanded (t : ShortTernary) :
    Sheds (t.before :: t.operand ++ " ?: ".toList) t.expanded := by
  have hcons : t.before :: t.operand = [t.before] ++ t.operand := rfl
  have hexpanded : t.expanded =
      [t.before] ++ ("($tmp=".toList ++ t.operand ++ ") ? $tmp : ".toList) := by
    simp [ShortTernary.expanded]
  have hmarks : commentMarks " ?: ".toList = 0 ∧ commentMarks "($tmp=".toList = 0 ∧
      commentMarks ") ? $tmp : ".toList = 0 := ⟨by decide, by decide, by decide⟩
  have hadded : addedMarks " ?: ".toList = 0 ∧ addedMarks "($tmp=".toList = 1 ∧
      addedMarks ") ? $tmp : ".toList = 0 := ⟨by decide, by decide, by decide⟩
  refine .inr ?_
  rw [hexpanded, hcons]
  simp only [commentMarks_append, addedMarks_append]
  omega

theorem expandRound_advances (cs : Text) : Advances cs (expandRound cs) ∨
      expandRound cs = cs ∧ ∀ rest, rest <:+ cs → shortTernaryAt rest = none := by
  fun_induction expandRound cs with
  | case1 cs t ht ih =>
    refine .inl (.inl ?_)
    rw [shortTernaryAt_append ht]
    refine (sheds_expanded t).append_keeps ?_
    rcases ih with ih | ⟨ih, _⟩
    · exact ih.keeps
    · rw [ih]; exact .refl _
  | case2 hnone =>
    refine .inr ⟨rfl, fun rest hrest => ?_⟩
    rw [suffix_nil.1 hrest]
    rfl
  | case3 c rest hnone ih =>
    rcases ih with ih | ⟨ih, hall⟩
    · exact .inl (ih.append_left [c])
    · refine .inr ⟨by rw [ih], fun tail htail => ?_⟩
      rcases suffix_cons_iff.1 htail with rfl | htail
      · exact hnone
      · exact hall tail htail

theorem expandRound_of_none (h : ∀ rest, rest <:+ cs → shortTernaryAt rest = none) :
    expandRound cs = cs := by
  fun_induction expandRound cs with
  | case1 cs t ht ih =>
    rw [h cs (suffix_refl _)] at ht
    cases ht
  | case2 => rfl
  | case3 c rest hnone ih =>
    rw [ih fun tail htail => h tail (htail.trans (suffix_cons c rest))]

theorem expandRounds_advances (n : Nat) (cs : Text) :
    Advances cs (expandRounds n cs) ∨ expandRounds n cs = cs := by
  induction n generalizing cs with
  | zero => exact .inr rfl
  | succ n ih =>
    simp only [expandRounds]
    split
    · exact .inr rfl
    · next hne =>
      rcases expandRound_advances cs with hround | ⟨heq, _⟩
      · exact advances_or_eq_trans (.inl hround) (ih _)
      · exact absurd (by simpa using heq) hne

/-- With one round or more, the rounds end where nothing is left to write out, or further on. -/
theorem expandRounds_succ_advances (n : Nat) (cs : Text) : Advances cs (expandRounds (n + 1) cs) ∨
      expandRounds (n + 1) cs = cs ∧ ∀ rest, rest <:+ cs → shortTernaryAt rest = none := by
  simp only [expandRounds]
  rcases expandRound_advances cs with hround | ⟨heq, hnone⟩
  · -- the first round moves forward, so it is not the last, and no later one goes back
    have hne : ¬ (expandRound cs == cs) := by
      intro heq
      rw [eq_of_beq heq] at hround
      exact Advances.irrefl cs hround
    rw [if_neg hne]
    rcases expandRounds_advances n (expandRound cs) with hrest | hrest
    · exact .inl (hround.trans hrest)
    · rw [hrest]; exact .inl hround
  · rw [if_pos (by simpa using heq)]
    exact .inr ⟨rfl, hnone⟩

theorem expandShortTernaries_advances (cs : Text) : Advances cs (expandShortTernaries cs) ∨
      expandShortTernaries cs = cs ∧ ∀ rest, rest <:+ cs → shortTernaryAt rest = none :=
  expandRounds_succ_advances 63 cs

theorem expandRounds_of_none (h : ∀ rest, rest <:+ cs → shortTernaryAt rest = none) (n : Nat) :
    expandRounds n cs = cs := by
  cases n with
  | zero => rfl
  | succ n =>
    simp only [expandRounds]
    rw [if_pos (by simpa using expandRound_of_none h)]

end LegacyPhp.Legacy
