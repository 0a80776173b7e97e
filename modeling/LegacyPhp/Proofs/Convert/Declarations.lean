import LegacyPhp.Proofs.Convert.Names
import LegacyPhp.Proofs.Convert.Passes

/-!
# Imports and namespace declarations

What reading an import or a namespace declaration does to a unit, in the order of `Drift`. Both are
left out of the flat unit, with their names, aliases and marks, so they never bring marks back
(`imports_keeps`, `enterNamespace_keeps`).

Outside all namespaces more is needed: whatever changes the scope must shed marks. Right behind a
reserved word no other word can stand, so a name there takes trivia or a separator along
(`name_after_word`), and a declaration that sheds nothing declares nothing
(`imports_after_word`, `enterNamespace_after_word`).
-/

namespace LegacyPhp.Qualify

open Text Scan Drift Legacy List LegacyPhp.Stream

variable {t : Token} {ts rest : List Token} {word : Keyword} {a b c name : Text} {p : Token → Bool}
  {mark : String} {s : Scope}

/-! ## Words, names and marks -/

theorem inert_of_isWord (hform : t.WellFormed) (h : t.isWord) : Inert t.text :=
  inert_of_isIdentChar (hform.all_isIdentChar h)

theorem isWord_of_isKeyword (h : t.isKeyword word) : t.isWord := by
  have hkind : t.kind = .keyword word := by simpa [Token.isKeyword] using h
  simp [Token.isWord, hkind]

theorem keeps_of_inert (ha : Inert a) (h : Keeps b c) : Keeps (a ++ b) c := by
  have hnil : Keeps a [] := (ha.sameMarks ⟨rfl, rfl, rfl⟩).keeps
  exact hnil.append h

theorem sheds_of_inert (ha : Inert a) (h : Sheds b c) : Sheds (a ++ b) c :=
  (keeps_of_inert ha (.refl b)).trans_sheds h

/-- A reserved word without fresh letters can be left out, which makes the text shorter. -/
theorem advances_of_keyword (spelling : Text) (hform : t.WellFormed) (hkey : t.isKeyword word)
    (hone : ∀ e ∈ Keyword.spellings, e.2 = word → e.1 = lower spelling)
    (hfresh : (lower spelling).countP isFreshLower = 0) (hne : lower spelling ≠ []) :
    Advances t.text [] := by
  have hsame := sameWord_of_ofWord (hform.ofWord hkey) hone
  have hletters : freshLetters t.text ≤ 0 := by
    rw [← hfresh]
    exact freshLetters_of_sameWord hsame
  have htext : t.text ≠ [] := by
    intro hnil
    rw [hnil] at hsame
    exact hne (by simpa [sameWord, lower] using hsame.symm)
  have hinert := inert_of_isWord hform (isWord_of_isKeyword hkey)
  refine .inr ⟨hinert.sameMarks ⟨rfl, rfl, rfl⟩, .inr ?_⟩
  exact ⟨(Nat.le_zero.1 hletters).symm, length_pos_iff.2 htext⟩

theorem plain_serialize (hform : ∀ t ∈ ts, t.WellFormed) (h : ∀ t ∈ ts, t.isNamePart) :
    Plain (serialize ts) := by
  intro c hc
  obtain ⟨t, ht, hc⟩ := mem_flatMap.1 hc
  have hpart := h t ht
  simp only [Token.isNamePart, Token.isPunct, Bool.or_eq_true, Bool.and_eq_true, beq_iff_eq]
    at hpart
  rcases hpart with hkind | ⟨_, htext⟩
  · have hall := (hform t ht).all_isIdentChar (by simp [Token.isWord, hkind])
    exact Plain.of_all hall c hc
  · rw [htext] at hc
    rw [mem_singleton.1 hc]
    rfl

theorem name_plain (hform : ∀ t ∈ ts, t.WellFormed) : Plain (Stream.name ts).1 :=
  plain_serialize (fun t ht => hform t (mem_gather ht).1) fun _ ht => (mem_gather ht).2

theorem plain_nil : Plain [] := fun _ hc => absurd hc not_mem_nil

theorem name_left_out (hform : ∀ t ∈ ts, t.WellFormed) :
    Keeps ((Stream.name ts).1 ++ serialize (Stream.name ts).2) (serialize (Stream.name ts).2) :=
  ((name_plain hform).keeps plain_nil not_mem_nil).append (.refl _)

theorem name_keeps (hform : ∀ t ∈ ts, t.WellFormed) :
    Keeps (serialize ts) (serialize (Stream.name ts).2) := by
  have hgather := (drops_gather Token.isNamePart ts).keeps hform
  rw [serialize_append] at hgather
  exact hgather.trans (name_left_out hform)

/-- Right behind a word no other word stands, so reading a name there takes trivia or a separator
along. -/
theorem name_after_word (hts : Lexed (t :: ts)) (hword : t.isWord) :
    Sheds (serialize ts) (serialize (Stream.name ts).2) ∨ Stream.name ts = ([], ts) := by
  have hform := hts.tail.wellFormed
  have hplain := name_plain hform
  rcases (drops_gather Token.isNamePart ts).sheds hform with hsheds | htogether
  · rw [serialize_append] at hsheds
    exact .inl (hsheds.trans_keeps (name_left_out hform))
  · cases hparts : (gather Token.isNamePart ts).1 with
    | nil =>
      rw [hparts, nil_append] at htogether
      exact .inr (by rw [Stream.name, hparts, htogether]; rfl)
    | cons u parts =>
      -- the first part touches the word, so it is a separator
      have hu : u.isNamePart := (mem_gather (by rw [hparts]; exact mem_cons_self)).2
      have hnotWord : u.isWord = false := by
        refine hts.apart t u (parts ++ (gather Token.isNamePart ts).2) ⟨[], ?_⟩ hword
        rw [nil_append, ← cons_append, ← hparts, htogether]
      have hsep : '\\' ∈ (Stream.name ts).1 := by
        simp only [Token.isNamePart, Token.isPunct, Bool.or_eq_true, Bool.and_eq_true,
          beq_iff_eq] at hu
        rcases hu with hkind | ⟨_, htext⟩
        · simp [Token.isWord, hkind] at hnotWord
        · rw [Stream.name, hparts, serialize_cons, htext]
          exact mem_append_left _ mem_cons_self
      refine .inl ?_
      have hsheds := (hplain.sheds plain_nil hsep not_mem_nil).append_keeps
        (.refl (serialize (Stream.name ts).2))
      have hserialize : (Stream.name ts).1 ++ serialize (Stream.name ts).2 = serialize ts := by
        rw [Stream.name, ← serialize_append, htogether]
      rwa [hserialize] at hsheds

theorem fetch_sheds (hform : ∀ t ∈ ts, t.WellFormed) (h : fetch p ts = some (t, rest)) :
    Sheds (serialize ts) (t.text ++ serialize rest) ∨ ts = t :: rest :=
  ((drops_fetch h).sheds hform).imp id Eq.symm

theorem sheds_mark (h : t.isPunct mark) (hmark : Sheds mark.toList []) : Sheds t.text [] := by
  rw [text_of_isPunct h]
  exact hmark

theorem sheds_comma : Sheds ",".toList [] := .inr ⟨rfl, .inr ⟨rfl, by decide⟩⟩

theorem sheds_semicolon : Sheds ";".toList [] := .inr ⟨rfl, .inr ⟨rfl, by decide⟩⟩

theorem fetch_mark_sheds (hmark : Sheds mark.toList []) (hform : ∀ t ∈ ts, t.WellFormed)
    (h : fetch (·.isPunct mark) ts = some (t, rest)) : Sheds (serialize ts) (serialize rest) := by
  have hdropped : Sheds (t.text ++ serialize rest) (serialize rest) :=
    (sheds_mark (fetch_holds h) hmark).append_keeps (.refl _)
  rcases fetch_sheds hform h with hsheds | rfl
  · exact hsheds.trans_keeps hdropped.keeps
  · exact hdropped

theorem dropIf_semicolon_sheds (hform : ∀ t ∈ ts, t.WellFormed) :
    Sheds (serialize ts) (serialize (dropIf (·.isPunct ";") ts)) ∨
      dropIf (·.isPunct ";") ts = ts := by
  unfold dropIf
  split
  · next h => exact .inl (fetch_mark_sheds sheds_semicolon hform h)
  · exact .inr rfl

/-! ## Imports and namespaces -/

theorem dropAround_sublist (c : Char) (cs : Text) : (dropAround c cs).Sublist cs := by
  have hend : ∀ cs : Text, (dropEndWhile (· == c) cs).Sublist cs := by
    intro cs
    unfold dropEndWhile
    rw [← reverse_sublist, reverse_reverse]
    exact dropWhile_sublist _
  exact (hend _).trans (dropWhile_sublist _)

theorem enter_plain (s : Scope) (h : Plain name) : (s.enter name).Plain where
  current := h.of_sublist (dropAround_sublist _ _)
  aliases e he := by cases he

theorem addImport_plain (hs : s.Plain) (h : Plain name) (short : Option Text) :
    (s.addImport name short).Plain where
  current := hs.current
  aliases e he := by
    rcases mem_cons.1 he with rfl | he
    · exact h.of_sublist (dropWhile_sublist _)
    · exact hs.aliases e he

theorem fetched_word_keeps (hp : ∀ t, p t → t.isWord) (hform : ∀ t ∈ ts, t.WellFormed)
    (h : fetch p ts = some (t, rest)) : Keeps (t.text ++ serialize rest) (serialize rest) := by
  have ht : t ∈ ts := (suffix_cons_fetch h).subset mem_cons_self
  exact keeps_of_inert (inert_of_isWord (hform t ht) (hp t (fetch_holds h))) (.refl _)

theorem importAlias_of_as {as : Token} (hform : ∀ t ∈ ts, t.WellFormed)
    (h : fetch (·.isKeyword .asKw) ts = some (as, rest)) :
    Keeps (as.text ++ serialize rest) (serialize (importAlias ts).2) := by
  have hkeyword := fetched_word_keeps (fun _ => isWord_of_isKeyword) hform h
  have hform' : ∀ t ∈ rest, t.WellFormed := fun t ht => hform t ((suffix_fetch h).subset ht)
  simp only [importAlias, h]
  split
  · exact hkeyword
  · next name left hname =>
    have hword : ∀ t : Token, (t.kind == .identifier) → t.isWord := by
      intro t ht
      have hkind : t.kind = .identifier := by simpa using ht
      simp [Token.isWord, hkind]
    exact hkeyword.trans (((drops_fetch hname).keeps hform').trans
      (fetched_word_keeps hword hform' hname))

theorem importAlias_keeps (hform : ∀ t ∈ ts, t.WellFormed) :
    Keeps (serialize ts) (serialize (importAlias ts).2) := by
  cases has : fetch (·.isKeyword .asKw) ts with
  | none => rw [importAlias, has]; exact .refl _
  | some found => exact ((drops_fetch has).keeps hform).trans (importAlias_of_as hform has)

theorem importAlias_after_word (hts : Lexed (t :: ts)) (hword : t.isWord) :
    Sheds (serialize ts) (serialize (importAlias ts).2) ∨ importAlias ts = (none, ts) := by
  have hform := hts.tail.wellFormed
  cases has : fetch (·.isKeyword .asKw) ts with
  | none => exact .inr (by rw [importAlias, has])
  | some found =>
    obtain ⟨as, rest⟩ := found
    have hkeeps := importAlias_of_as hform has
    rcases fetch_sheds hform has with hsheds | rfl
    · exact .inl (hsheds.trans_keeps hkeeps)
    · have hasWord : as.isWord := isWord_of_isKeyword (fetch_holds has)
      rw [hts.apart t as rest (suffix_refl _) hword] at hasWord
      cases hasWord

theorem imports_eq (s : Scope) (ts : List Token) : imports s ts =
      let name := Stream.name ts
      let short := importAlias name.2
      let scope := if name.1.isEmpty then s else s.addImport name.1 short.1
      match fetch (·.isPunct ",") short.2 with
      | some (_, rest) => imports scope rest
      | none => (scope, short.2) := by
  rw [imports]
  split <;> simp only [*]

theorem imports_plain (hs : s.Plain) (hform : ∀ t ∈ ts, t.WellFormed) : (imports s ts).1.Plain := by
  have hscope : ∀ (s : Scope), s.Plain → ∀ ts : List Token, (∀ t ∈ ts, t.WellFormed) →
      ∀ short, (if (Stream.name ts).1.isEmpty then s
        else s.addImport (Stream.name ts).1 short).Plain := by
    intro s hs ts hform short
    split
    · exact hs
    · exact addImport_plain hs (name_plain hform) short
  fun_induction imports s ts with
  | case1 s ts name short scope _ rest h ih =>
    have hrest : rest <:+ ts :=
      (suffix_fetch h).trans ((suffix_importAlias _).trans (suffix_gather _ ts))
    exact ih (hscope s hs ts hform _) fun t ht => hform t (hrest.subset ht)
  | case2 s ts name short scope h => exact hscope s hs ts hform _

theorem imports_keeps (s : Scope) (hform : ∀ t ∈ ts, t.WellFormed) :
    Keeps (serialize ts) (serialize (imports s ts).2) := by
  have hshort : ∀ ts : List Token, (∀ t ∈ ts, t.WellFormed) →
      Keeps (serialize ts) (serialize (importAlias (Stream.name ts).2).2) := by
    intro ts hform
    refine (name_keeps hform).trans (importAlias_keeps fun t ht => hform t ?_)
    exact (suffix_gather _ ts).subset ht
  fun_induction imports s ts with
  | case1 s ts name short scope _ rest h ih =>
    have hform' : ∀ t ∈ short.2, t.WellFormed := fun t ht =>
      hform t (((suffix_importAlias _).trans (suffix_gather _ ts)).subset ht)
    have hcomma := fetch_mark_sheds sheds_comma hform' h
    exact (hshort ts hform).trans (hcomma.keeps.trans
      (ih fun t ht => hform' t ((suffix_fetch h).subset ht)))
  | case2 s ts name short scope h => exact hshort ts hform

/-- Right behind a word nothing is imported, unless marks are shed. -/
theorem imports_after_word (s : Scope) (hts : Lexed (t :: ts)) (hword : t.isWord) :
    Sheds (serialize ts) (serialize (imports s ts).2) ∨ imports s ts = (s, ts) := by
  have hform := hts.tail.wellFormed
  have hform₁ : ∀ t ∈ (Stream.name ts).2, t.WellFormed := fun t ht =>
    hform t ((suffix_gather _ ts).subset ht)
  have hform₂ : ∀ t ∈ (importAlias (Stream.name ts).2).2, t.WellFormed := fun t ht =>
    hform₁ t ((suffix_importAlias _).subset ht)
  -- what follows the first name and its alias only sheds more
  have hmore : Keeps (serialize (importAlias (Stream.name ts).2).2)
      (serialize (imports s ts).2) := by
    rw [imports_eq]
    simp only
    split
    · next comma rest hcomma =>
      exact (fetch_mark_sheds sheds_comma hform₂ hcomma).keeps.trans
        (imports_keeps _ fun t ht => hform₂ t ((suffix_fetch hcomma).subset ht))
    · exact .refl _
  rcases name_after_word hts hword with hname | hname
  · exact .inl (hname.trans_keeps ((importAlias_keeps hform₁).trans hmore))
  · rcases importAlias_after_word hts hword with halias | halias
    · rw [hname] at hmore
      exact .inl (halias.trans_keeps hmore)
    · rw [imports_eq]
      simp only [hname, halias]
      cases hcomma : fetch (·.isPunct ",") ts with
      | none => exact .inr rfl
      | some found =>
        refine .inl ((fetch_mark_sheds sheds_comma hform hcomma).trans_keeps ?_)
        exact imports_keeps _ fun t ht => hform t ((suffix_fetch hcomma).subset ht)

theorem enterNamespace_plain (s : State) (hform : ∀ t ∈ ts, t.WellFormed) :
    (enterNamespace s ts).state.scope.Plain := by
  have hscope := enter_plain s.scope (name_plain hform)
  unfold enterNamespace
  simp only
  split <;> exact hscope

/-- A declaration keeps the brace that opens its block and leaves out the rest. -/
theorem enterNamespace_of_name (s : State) (hform : ∀ t ∈ ts, t.WellFormed) :
    let r := enterNamespace s ts
    Sheds (serialize (Stream.name ts).2) (r.text ++ serialize r.rest) ∨
      r.text ++ serialize r.rest = serialize (Stream.name ts).2 := by
  have hform' : ∀ t ∈ (Stream.name ts).2, t.WellFormed := fun t ht =>
    hform t ((suffix_gather _ ts).subset ht)
  unfold enterNamespace
  simp only
  split
  · next mark rest h =>
    have hmark : mark.isPunct ";" ∨ mark.isPunct "\x7b" := by
      simpa using fetch_holds h
    have hsemicolon : mark.isPunct "\x7b" = false →
        Sheds (mark.text ++ serialize rest) (serialize rest) := by
      intro hbrace
      rw [hbrace] at hmark
      exact (sheds_mark (hmark.resolve_right Bool.false_ne_true) sheds_semicolon).append_keeps
        (.refl _)
    cases hbrace : mark.isPunct "\x7b" with
    | true =>
      have htext : mark.text = ['{'] := text_of_isPunct hbrace
      rcases fetch_sheds hform' h with hsheds | hfront
      · rw [htext] at hsheds
        exact .inl hsheds
      · rw [hfront, serialize_cons, htext]
        exact .inr rfl
    | false =>
      refine .inl ?_
      rcases fetch_sheds hform' h with hsheds | hfront
      · exact hsheds.trans_keeps (hsemicolon hbrace).keeps
      · rw [hfront, serialize_cons]
        exact hsemicolon hbrace
  · exact .inr rfl

theorem enterNamespace_keeps (s : State) (hform : ∀ t ∈ ts, t.WellFormed) :
    Keeps (serialize ts) ((enterNamespace s ts).text ++ serialize (enterNamespace s ts).rest) := by
  exact (name_keeps hform).trans (keeps_of_sheds_or_eq (enterNamespace_of_name s hform))

theorem enterNamespace_after_word (s : State) (hts : Lexed (t :: ts)) (hword : t.isWord) :
    let r := enterNamespace s ts
    Sheds (serialize ts) (r.text ++ serialize r.rest) ∨
      r.text ++ serialize r.rest = serialize ts ∧ r.state.scope = {} := by
  have hform := hts.tail.wellFormed
  rcases name_after_word hts hword with hname | hname
  · exact .inl (hname.trans_keeps (keeps_of_sheds_or_eq (enterNamespace_of_name s hform)))
  · have hscope : (enterNamespace s ts).state.scope = {} := by
      unfold enterNamespace
      simp only [hname]
      split <;> rfl
    have hrest := enterNamespace_of_name s hform
    rw [hname] at hrest
    exact hrest.imp id fun h => ⟨h, hscope⟩

/-! ## Whole declarations -/

theorem enterNamespace_advances (s : State) (hts : Lexed (t :: ts))
    (hkey : t.isKeyword .namespaceKw) : let r := enterNamespace s ts
    Sheds (serialize (t :: ts)) (r.text ++ serialize r.rest) ∨
      r.state.scope = {} ∧ Advances (serialize (t :: ts)) (r.text ++ serialize r.rest) := by
  have hword := isWord_of_isKeyword hkey
  rcases enterNamespace_after_word s hts hword with hsheds | ⟨heq, hscope⟩
  · exact .inl (sheds_of_inert (inert_of_isWord hts.head hword) hsheds)
  · have hbare : Advances t.text [] :=
      advances_of_keyword "namespace".toList hts.head hkey (by decide) (by decide) (by decide)
    refine .inr ⟨hscope, ?_⟩
    rw [heq]
    exact hbare.append (.inr rfl)

/-- Imports shed marks, or they are a bare word that is left out. -/
theorem imports_advances (s : Scope) (hts : Lexed (t :: ts)) (hkey : t.isKeyword .useKw) :
    let rest := dropIf (·.isPunct ";") (imports s ts).2
    Sheds (serialize (t :: ts)) (serialize rest) ∨
      (imports s ts).1 = s ∧ Advances (serialize (t :: ts)) (serialize rest) := by
  have hword := isWord_of_isKeyword hkey
  have hinert := inert_of_isWord hts.head hword
  have hfound : ∀ u ∈ (imports s ts).2, u.WellFormed := fun u hu =>
    hts.tail.wellFormed u ((suffix_imports _ _).subset hu)
  have hsemicolon := dropIf_semicolon_sheds hfound
  rcases imports_after_word s hts hword with hsheds | himports
  · refine .inl (sheds_of_inert hinert (hsheds.trans_keeps ?_))
    exact keeps_of_sheds_or_eq (hsemicolon.imp id (congrArg serialize))
  · rw [himports] at hsemicolon ⊢
    rcases hsemicolon with hsheds | heq
    · exact .inl (sheds_of_inert hinert hsheds)
    · have hbare : Advances t.text [] :=
        advances_of_keyword "use".toList hts.head hkey (by decide) (by decide) (by decide)
      refine .inr ⟨rfl, ?_⟩
      simp only [heq]
      exact hbare.append (.inr rfl)

end LegacyPhp.Qualify
