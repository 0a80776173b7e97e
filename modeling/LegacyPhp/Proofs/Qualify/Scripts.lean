import LegacyPhp.Proofs.Convert.Declarations
import LegacyPhp.Proofs.Convert.Flat
import LegacyPhp.Proofs.Convert.Layout
import LegacyPhp.Proofs.Qualify.Reading

/-!
# Qualification of scripts

The pass takes a script to its flat form (`qualify_script`). `Writes` says what the pass does with
some tokens and in which state it goes on behind them. The lemmas follow the grammar, as those on
reading do: what a clause writes depends on the scope and on whether a list may follow, a reference
leaves the scope as it is, and an item changes it as `Item.scope` says. Look-ahead never reaches
beyond the mark that ends an item, so items can be put one after the other.
-/

namespace LegacyPhp.Grammar

open Text Scan Qualify LegacyPhp.Stream List

variable {s' : State} {rest ts spaces : List Token} {text gap : Text} {name : Name} {word : Keyword}
  {more : List (Gap × Import)} {t : Token} {n : Name} {us : List Token}
  {clause : Option (Clause word)}

variable {u : Source} {s : State}

/-! ## Tokens that are copied -/

/-- With `rest` after them, the tokens are written as `text`, and the pass goes on in the state
`s'`. -/
def Writes (u : Source) (s : State) (ts rest : List Token) (text : Text) (s' : State) : Prop :=
  run u s (ts ++ rest) = (run u s' rest).map fun r => (text ++ r.1, r.2)

theorem writes_nil (u : Source) (s : State) (rest : List Token) : Writes u s [] rest [] s := by
  unfold Writes
  rw [nil_append]
  cases run u s rest <;> rfl

theorem Writes.append {s'' : State} {first second : List Token} {more : Text}
    (h : Writes u s first (second ++ rest) text s') (h' : Writes u s' second rest more s'') :
    Writes u s (first ++ second) rest (text ++ more) s'' := by
  unfold Writes at h h' ⊢
  rw [append_assoc, h, h']
  cases run u s'' rest with
  | error e => rfl
  | ok r => simp [Except.map]

theorem writes_of_step (h : step u s t (ts ++ rest) = .ok ⟨text, s', rest⟩) :
    Writes u s (t :: ts) rest text (s'.wrote text) := by
  unfold Writes
  rw [cons_append, run_cons h]

theorem writes_token (h : step u s t rest = .ok ⟨text, s', rest⟩) :
    Writes u s [t] rest text (s'.wrote text) :=
  writes_of_step h

variable (u s)

theorem not_isNamePart_of_isPlain (ht : t.isPlain) : t.isNamePart = false := by
  refine Bool.eq_false_iff.2 fun hname => ?_
  rcases Bool.or_eq_true_iff.1 hname with hkind | hmark
  · simp [Token.isPlain, eq_of_beq hkind] at ht
  · simp only [Token.isPunct, Bool.and_eq_true, beq_iff_eq] at hmark
    simp [Token.isPlain, hmark.1, hmark.2] at ht

theorem step_plain (ht : t.isPlain) (rest : List Token) :
    step u s t rest = .ok ⟨t.text, s.entering t, rest⟩ := by
  rw [step_eq, not_isNamePart_of_isPlain ht]
  simp only [Token.isPlain, Bool.or_eq_true, Bool.and_eq_true, beq_iff_eq] at ht
  obtain ((hkind | hkind) | hkind) | ⟨hkind, _⟩ := ht <;>
    simp [Token.isKeyword, isClassContext, copied, hkind]

theorem writes_plain (h : ∀ t ∈ ts, t.isPlain) (rest : List Token) :
    ∃ s', s'.scope = s.scope ∧ Writes u s ts rest (serialize ts) s' := by
  induction ts generalizing s with
  | nil => exact ⟨s, rfl, writes_nil u s rest⟩
  | cons t ts ih =>
    rw [forall_mem_cons] at h
    have hfirst := writes_token (step_plain u s h.1 (ts ++ rest))
    obtain ⟨s', hscope, hrest⟩ := ih ((s.entering t).wrote t.text) h.2
    refine ⟨s', hscope.trans (s.entering_scope t), ?_⟩
    exact hfirst.append hrest

theorem writes_spaces (h : Spaces text ts) (rest : List Token) :
    ∃ s', s'.scope = s.scope ∧ s'.inInterfaceHeader = s.inInterfaceHeader ∧
      Writes u s ts rest text s' := by
  obtain ⟨hkind, rfl⟩ := h
  induction ts generalizing s with
  | nil => exact ⟨s, rfl, rfl, writes_nil u s rest⟩
  | cons t ts ih =>
    rw [forall_mem_cons] at hkind
    have hplain : t.isPlain := by simp [Token.isPlain, hkind.1]
    have htrivia : t.isTrivia := by simp [Token.isTrivia, hkind.1, TokenKind.isTrivia]
    have hstep := step_plain u s hplain (ts ++ rest)
    rw [State.entering_trivia s htrivia] at hstep
    obtain ⟨s', hscope, hheader, hrest⟩ := ih (s.wrote t.text) hkind.2
    exact ⟨s', hscope, hheader, (writes_token hstep).append hrest⟩

/-! ## Names and clauses -/

/-- A class name as the pass writes it. -/
def flatName (u : Source) (s : Scope) (n : Name) : Text := u.options.flatten (n.full s)

theorem className_eq (s : Scope) (place : Token) (n : Name) :
    className u s place n.text = .ok (flatName u s n) := by
  rw [className, n.resolve?_eq s]
  rfl

theorem isTrivia_of_spaces (h : Spaces text ts) : ∀ t ∈ ts, t.isTrivia := by
  intro t ht
  simp [Token.isTrivia, h.1 t ht, TokenKind.isTrivia]

theorem Name.text_ne_nil (n : Name) : n.text ≠ [] := by
  intro hempty
  have hhead := nextIs_isSpace_name n [' ']
  rw [hempty] at hhead
  cases hhead

theorem NameTokens.ne_nil (h : NameTokens n.text ts) : ts ≠ [] := by
  intro hempty
  rw [hempty] at h
  exact n.text_ne_nil h.2.symm

theorem gather_name (h : ∀ t ∈ ts, t.isNamePart) (hrest : isNext Token.isNamePart rest = false) :
    gather Token.isNamePart (ts ++ rest) = (ts, rest) := by
  refine gather_append h ?_
  rw [isEmpty_gather (fun _ => Token.not_isTrivia_of_isNamePart), hrest]
  rfl

theorem name_append (hspaces : Spaces gap spaces) (h : NameTokens n.text ts)
    (hrest : isNext Token.isNamePart rest = false) :
    Stream.name (spaces ++ (ts ++ rest)) = (n.text, rest) := by
  have hname := gather_name h.1 hrest
  have hgather : gather Token.isNamePart (spaces ++ (ts ++ rest)) = (ts, rest) := by
    rw [gather_append_trivia, hname]
    · intro t ht
      refine ⟨isTrivia_of_spaces hspaces t ht, ?_⟩
      simp [Token.isNamePart, Token.isPunct, hspaces.1 t ht]
    · rw [hname]
      simpa using h.ne_nil
  rw [Stream.name, hgather, h.2]

/-- Neither a name nor a comma comes next. -/
structure Ends (rest : List Token) : Prop where
  not_name : isNext Token.isNamePart rest = false
  not_comma : isNext (·.isPunct ",") rest = false

theorem Ends.append_spaces (hts : Spaces text ts) (h : Ends rest) : Ends (ts ++ rest) where
  not_name := by rw [isNext_append_trivia (isTrivia_of_spaces hts), h.not_name]
  not_comma := by rw [isNext_append_trivia (isTrivia_of_spaces hts), h.not_comma]

theorem ends_keyword (word : Keyword) (text : Text) (pos : Nat) (rest : List Token) :
    Ends (⟨.keyword word, text, pos⟩ :: rest) where
  not_name := rfl
  not_comma := rfl

theorem gather_spaces {n : Name} (hspaces : Spaces gap spaces) (hts : NameTokens n.text ts)
    (rest : List Token) :
    gather (·.kind == .whitespace) (spaces ++ (ts ++ rest)) = (spaces, ts ++ rest) := by
  refine gather_append (fun t ht => by simp [hspaces.1 t ht]) ?_
  cases ts with
  | nil => exact absurd rfl hts.ne_nil
  | cons t ts =>
    have hname := hts.1 t mem_cons_self
    have hkind : (t.kind == .whitespace) = false := by
      refine Bool.eq_false_iff.2 fun hkind => ?_
      simp [Token.isNamePart, Token.isPunct, eq_of_beq hkind] at hname
    rw [cons_append, gather_cons, hkind, Token.not_isTrivia_of_isNamePart hname]
    rfl

theorem fetch_comma (pos : Nat) (rest : List Token) :
    fetch (·.isPunct ",") (⟨.punctuation, [','], pos⟩ :: rest) =
      some (⟨.punctuation, [','], pos⟩, rest) := rfl

theorem spaces_nil : Spaces [] [] := ⟨nofun, rfl⟩

/-- The names after a keyword or a comma, up to where neither a name nor a comma follows. -/
theorem classNames_of_tokens (σ : Scope) {list : Bool} {gap : Gap} {more : List (Gap × Name)}
    (head : Token) (hspaces : Spaces gap.text spaces) (hts : NameTokens name.text ts)
    (hus : MoreTokens more us) (hlist : more ≠ [] → list) (hrest : Ends rest) :
    classNames u σ list head (spaces ++ (ts ++ (us ++ rest))) =
      .ok ⟨head.text ++ gap.text ++ (flatName u σ name ++ moreText (flatName u σ) more), rest⟩ := by
  induction more generalizing head gap name spaces ts us with
  | nil =>
    obtain rfl : us = [] := hus
    have hname : Stream.name (ts ++ rest) = (name.text, rest) :=
      name_append spaces_nil hts hrest.not_name
    have hcomma : (if list then fetch (·.isPunct ",") rest else none) = none := by
      split
      · exact fetch_eq_none hrest.not_comma
      · rfl
    rw [classNames_eq, nil_append, gather_spaces hspaces hts, hname, className_eq]
    simp only [hcomma, hspaces.2, moreText, flatMap_nil, append_nil]
  | cons entry more ih =>
    obtain ⟨gap', name'⟩ := entry
    obtain ⟨_, us, rfl, ⟨_, _, rfl, ⟨pos, rfl⟩, spaces', ts', rfl, hspaces', hts'⟩, hus⟩ := hus
    obtain rfl : list := hlist (cons_ne_nil _ _)
    simp only [append_assoc, cons_append, nil_append]
    generalize hleft : spaces' ++ (ts' ++ (us ++ rest)) = left
    have hname : Stream.name (ts ++ ⟨.punctuation, [','], pos⟩ :: left) =
        (name.text, ⟨.punctuation, [','], pos⟩ :: left) := name_append spaces_nil hts rfl
    have hmore := ih ⟨.punctuation, [','], pos⟩ hspaces' hts' hus (fun _ => rfl)
    rw [hleft] at hmore
    rw [classNames_eq, gather_spaces hspaces hts, hname, className_eq]
    simp only [if_true, fetch_comma, hmore, hspaces.2, moreText]
    simp [Except.map]

/-- A class keyword with the names after it. -/
theorem writes_clause {head : Head word} {names : Names} (hword : isClassContext (.keyword word))
    (hts : ClauseTokens head names ts)
    (hlist : names.more ≠ [] → word = .implementsKw ∨ word = .extendsKw ∧ s.inInterfaceHeader)
    (hrest : Ends rest) : ∃ s', s'.scope = s.scope ∧ (word = .interfaceKw → s'.inInterfaceHeader) ∧
      Writes u s ts rest (head.text ++ names.text (flatName u s.scope)) s' := by
  obtain ⟨_, _, rfl, ⟨_, spaces, rfl, ⟨pos, rfl⟩, hspaces⟩, nameTs, moreTs, rfl, hname, hmore⟩ :=
    hts
  generalize hkey : (⟨.keyword word, head.keyword.text, pos⟩ : Token) = key
  have hkind : key.kind = .keyword word := by rw [← hkey]
  have hcontext : isClassContext key.kind := by rw [hkind, hword]
  obtain ⟨hnamespace, huse⟩ := isKeyword_of_isClassContext hcontext
  have hbrace : key.isPunct "\x7b" = false := by simp [Token.isPunct, hkind]
  have hheader := s.entering_header key
  rw [hbrace, Bool.not_false, Bool.true_and] at hheader
  have htakes : names.more ≠ [] → takesList (s.entering key) key := by
    intro hne
    rcases hlist hne with rfl | ⟨rfl, hopen⟩
    · simp [takesList, Token.isKeyword, hkind]
    · simp [takesList, Token.isKeyword, hkind, hheader, hopen]
  have hnames := classNames_of_tokens u s.scope key hspaces hname hmore htakes hrest
  have hstep : step u s key (spaces ++ (nameTs ++ moreTs) ++ rest) =
      .ok ⟨head.text ++ names.text (flatName u s.scope), s.entering key, rest⟩ := by
    have htext : key.text = head.keyword.text := by rw [← hkey]
    rw [step_eq, hnamespace, huse, hcontext, append_assoc, append_assoc, hnames, htext]
    rfl
  refine ⟨(s.entering key).wrote _, s.entering_scope key, ?_, writes_of_step hstep⟩
  rintro rfl
  show (s.entering key).inInterfaceHeader
  simp [hheader, Token.isKeyword, hkind]

/-- A clause that may be left out. -/
theorem writes_optional {clause : Option (Clause word)}
    (hword : isClassContext (.keyword word)) (hts : OptionTokens clause ts)
    (hlist : ∀ c ∈ clause, c.names.more ≠ [] →
      word = .implementsKw ∨ word = .extendsKw ∧ s.inInterfaceHeader) (hrest : Ends rest) :
    ∃ s', s'.scope = s.scope ∧
      Writes u s ts rest (clauseText (flatName u s.scope) clause) s' := by
  cases clause with
  | none =>
    obtain rfl : ts = [] := hts
    exact ⟨s, rfl, writes_nil u s rest⟩
  | some c =>
    obtain ⟨spaces, clauseTs, rfl, hspaces, hclause⟩ := hts
    obtain ⟨s₁, hscope₁, hheader₁, hfirst⟩ := writes_spaces u s hspaces (clauseTs ++ rest)
    have hlist₁ := hlist c rfl
    rw [← hheader₁] at hlist₁
    obtain ⟨s₂, hscope₂, _, hsecond⟩ := writes_clause u s₁ hword hclause hlist₁ hrest
    rw [hscope₁] at hscope₂ hsecond
    exact ⟨s₂, hscope₂, hfirst.append hsecond⟩

theorem Ends.append_optional (h : Ends rest) (hts : OptionTokens clause ts) :
    Ends (ts ++ rest) := by
  cases clause with
  | none =>
    obtain rfl : ts = [] := hts
    exact h
  | some c =>
    obtain ⟨spaces, _, rfl, hspaces, _, more, rfl, ⟨_, _, rfl, ⟨pos, rfl⟩, _⟩, _⟩ := hts
    rw [append_assoc]
    exact .append_spaces hspaces (ends_keyword _ _ pos _)

/-! ## References -/

theorem writes_headName {head : Head word} (hword : isClassContext (.keyword word))
    (hts : ClauseTokens head ⟨name, []⟩ ts) (hrest : Ends rest) :
    ∃ s', s'.scope = s.scope ∧ (word = .interfaceKw → s'.inInterfaceHeader) ∧
      Writes u s ts rest (head.text ++ flatName u s.scope name) s' := by
  have hclause := writes_clause u s hword hts (fun hne => absurd rfl hne) hrest
  rwa [Names.text, moreText, flatMap_nil, append_nil] at hclause

/-- What shows that the name before it means a class. -/
def marksClass (t : Token) : Bool := t.isPunct "::" || t.kind == .variable

theorem isPlain_of_marksClass (h : marksClass t) : t.isPlain ∧ t.isTrivia = false := by
  rw [marksClass, Bool.or_eq_true] at h
  rcases h with hcolons | hkind
  · simp only [Token.isPunct, Bool.and_eq_true, beq_iff_eq] at hcolons
    simp [Token.isPlain, Token.isTrivia, TokenKind.isTrivia, hcolons.1, hcolons.2]
  · simp [Token.isPlain, Token.isTrivia, TokenKind.isTrivia, eq_of_beq hkind]

/-- A name that no keyword precedes. -/
theorem writes_name (hts : NameTokens n.text ts) (hrest : isNext marksClass rest) :
    ∃ s', s'.scope = s.scope ∧ Writes u s ts rest (flatName u s.scope n) s' := by
  cases ts with
  | nil => exact absurd rfl hts.ne_nil
  | cons t ts =>
    obtain ⟨hparts, htext⟩ := hts
    rw [forall_mem_cons] at hparts
    obtain ⟨hname, hmore⟩ := hparts
    obtain ⟨hnamespace, hcontext⟩ := isKeyword_of_isNamePart hname .namespaceKw
    have huse := (isKeyword_of_isNamePart hname .useKw).1
    have hgather := gather_name hmore <| isNext_eq_false hrest fun _ ht =>
      not_isNamePart_of_isPlain (isPlain_of_marksClass ht).1
    have hstep : step u s t (ts ++ rest) = .ok ⟨flatName u s.scope n, s, rest⟩ := by
      rw [step_eq, hnamespace, huse, hcontext, hname]
      simp only [Bool.false_and, Bool.false_eq_true, if_false, if_true, nameStep, Stream.name,
        hgather]
      rw [← serialize_cons, htext, className_eq]
      have hmarks : isNext (fun n => n.isPunct "::" || n.kind == .variable) rest := hrest
      rw [hmarks]
      rfl
    exact ⟨s.wrote _, rfl, writes_of_step hstep⟩

theorem writes_marked {gap : Gap} {kind : TokenKind} {mark : Text}
    (hmark : ∀ pos, marksClass ⟨kind, mark, pos⟩)
    (hts : Followed (Followed (NameTokens name.text) (Spaces gap.text)) (Single kind mark) ts)
    (rest : List Token) : ∃ s', s'.scope = s.scope ∧
      Writes u s ts rest (flatName u s.scope name ++ gap.text ++ mark) s' := by
  obtain ⟨_, _, rfl, ⟨nameTs, spaces, rfl, hname, hspaces⟩, pos, rfl⟩ := hts
  obtain ⟨hplain, htrivia⟩ := isPlain_of_marksClass (hmark pos)
  have hnext : isNext marksClass (spaces ++ ([⟨kind, mark, pos⟩] ++ rest)) :=
    (isNext_append_cons (isTrivia_of_spaces hspaces) htrivia _).trans (hmark pos)
  obtain ⟨s₁, hscope₁, hfirst⟩ := writes_name u s hname hnext
  obtain ⟨s₂, hscope₂, _, hsecond⟩ := writes_spaces u s₁ hspaces ([⟨kind, mark, pos⟩] ++ rest)
  have hthird := writes_token (step_plain u s₂ hplain rest)
  refine ⟨_, ?_, (hfirst.append hsecond).append hthird⟩
  exact (s₂.entering_scope _).trans (hscope₂.trans hscope₁)

/-- A class reference, up to where neither a name nor a comma follows. -/
theorem writes_reference {r : Reference} (hts : ReferenceTokens r ts) (hrest : Ends rest) :
    ∃ s', s'.scope = s.scope ∧ Writes u s ts rest (r.text (flatName u s.scope)) s' := by
  cases r with
  | new | instanceOf =>
    obtain ⟨s', hscope, _, hwrites⟩ := writes_headName u s rfl hts hrest
    exact ⟨s', hscope, hwrites⟩
  | classDecl head name parent interfaces =>
    obtain ⟨_, interfaceTs, rfl, ⟨nameTs, parentTs, rfl, hname, hparent⟩, hinterfaces⟩ := hts
    have hends := hrest.append_optional hinterfaces
    obtain ⟨s₁, hscope₁, _, hfirst⟩ :=
      writes_headName u s rfl hname (hends.append_optional hparent)
    -- a class extends one other class, so there is no list to read
    have hone : ∀ c ∈ parent.map Parent.clause, c.names.more ≠ [] →
        Keyword.extendsKw = .implementsKw ∨
          Keyword.extendsKw = .extendsKw ∧ s₁.inInterfaceHeader := by
      intro c hc hne
      obtain ⟨p, _, rfl⟩ := Option.map_eq_some_iff.1 hc
      exact absurd rfl hne
    obtain ⟨s₂, hscope₂, hsecond⟩ := writes_optional u s₁ rfl hparent hone hends
    obtain ⟨s₃, hscope₃, hthird⟩ :=
      writes_optional u s₂ rfl hinterfaces (fun _ _ _ => .inl rfl) hrest
    rw [hscope₁] at hscope₂ hsecond
    rw [hscope₂] at hscope₃ hthird
    exact ⟨s₃, hscope₃, (hfirst.append hsecond).append hthird⟩
  | interfaceDecl head name parents =>
    obtain ⟨nameTs, parentTs, rfl, hname, hparents⟩ := hts
    obtain ⟨s₁, hscope₁, hheader₁, hfirst⟩ :=
      writes_headName u s rfl hname (hrest.append_optional hparents)
    obtain ⟨s₂, hscope₂, hsecond⟩ :=
      writes_optional u s₁ rfl hparents (fun _ _ _ => .inr ⟨rfl, hheader₁ rfl⟩) hrest
    rw [hscope₁] at hscope₂ hsecond
    exact ⟨s₂, hscope₂, hfirst.append hsecond⟩
  | member | typed => exact writes_marked u s (fun _ => rfl) hts rest

/-! ## Declarations -/

/-- What stands behind an import. -/
def endsImport (t : Token) : Bool := t.isPunct "," || t.isPunct ";"

theorem not_isNamePart_of_endsImport (h : endsImport t) :
    t.isNamePart = false ∧ t.isKeyword .asKw = false := by
  simp only [endsImport, Token.isPunct, Bool.or_eq_true, Bool.and_eq_true, beq_iff_eq] at h
  rcases h with ⟨hkind, htext⟩ | ⟨hkind, htext⟩ <;>
    simp [Token.isNamePart, Token.isKeyword, Token.isPunct, hkind, htext]

theorem importAlias_of_tokens {alias? : Option (Blank × Head .asKw × Segment)}
    (hts : AliasTokens alias? ts) (hrest : isNext endsImport rest) :
    importAlias (ts ++ rest) = (alias?.map fun (_, _, short) => short.text, rest) := by
  cases alias? with
  | none =>
    obtain rfl : ts = [] := hts
    have hnone : fetch (·.isKeyword .asKw) rest = none :=
      fetch_eq_none (isNext_eq_false hrest fun _ ht => (not_isNamePart_of_endsImport ht).2)
    rw [nil_append, importAlias, hnone]
    rfl
  | some entry =>
    obtain ⟨space, head, short⟩ := entry
    obtain ⟨spaces, _, rfl, hspaces, _, _, rfl, ⟨_, blanks, rfl, ⟨pos, rfl⟩, hblanks⟩, pos', rfl⟩ :=
      hts
    let as : Token := ⟨.keyword .asKw, head.keyword.text, pos⟩
    let name : Token := ⟨.identifier, short.text, pos'⟩
    have has : fetch (·.isKeyword .asKw) (spaces ++ as :: (blanks ++ name :: rest)) =
        some (as, blanks ++ name :: rest) :=
      fetch_append_cons (isTrivia_of_spaces hspaces) rfl rfl
    have hname : fetch (·.kind == .identifier) (blanks ++ name :: rest) = some (name, rest) :=
      fetch_append_cons (isTrivia_of_spaces hblanks) rfl rfl
    have hparts : spaces ++ ([as] ++ blanks ++ [name]) ++ rest =
        spaces ++ as :: (blanks ++ name :: rest) := by simp
    rw [hparts, importAlias, has]
    simp only [hname]
    rfl

theorem isNext_namePart_alias {alias? : Option (Blank × Head .asKw × Segment)}
    (hts : AliasTokens alias? ts) (hrest : isNext endsImport rest) :
    isNext Token.isNamePart (ts ++ rest) = false := by
  cases alias? with
  | none =>
    obtain rfl : ts = [] := hts
    exact isNext_eq_false hrest fun _ ht => (not_isNamePart_of_endsImport ht).1
  | some entry =>
    obtain ⟨spaces, _, rfl, hspaces, _, _, rfl, ⟨_, _, rfl, ⟨pos, rfl⟩, _⟩, _⟩ := hts
    rw [append_assoc]
    exact (Ends.append_spaces hspaces (ends_keyword _ _ pos _)).not_name

theorem imports_cons (σ : Scope) {i : Import} (hspaces : Spaces gap spaces)
    (hts : ImportTokens i ts) (hrest : isNext endsImport rest) :
    imports σ (spaces ++ (ts ++ rest)) =
      match fetch (·.isPunct ",") rest with
      | some (_, rest) => imports (i.scope σ) rest
      | none => (i.scope σ, rest) := by
  obtain ⟨nameTs, aliasTs, rfl, hname, halias⟩ := hts
  have hread := name_append hspaces hname (isNext_namePart_alias halias hrest)
  have hne : i.name.text.isEmpty = false := by simpa using i.name.text_ne_nil
  rw [imports_eq, append_assoc, hread]
  simp only [importAlias_of_tokens halias hrest, hne, Bool.false_eq_true, if_false]
  rfl

/-- All imports of a declaration are read. -/
theorem imports_of_tokens (σ : Scope) {i : Import} (hspaces : Spaces gap spaces)
    (hts : ImportTokens i ts) (hus : ImportsTokens more us) (hrest : isNext endsImport rest)
    (hlast : isNext (·.isPunct ",") rest = false) :
    imports σ (spaces ++ (ts ++ (us ++ rest))) =
      ((i :: more.map Prod.snd).foldl Import.scope σ, rest) := by
  induction more generalizing σ gap i spaces ts us with
  | nil =>
    obtain rfl : us = [] := hus
    rw [nil_append, imports_cons σ hspaces hts hrest, fetch_eq_none hlast]
    rfl
  | cons entry more ih =>
    obtain ⟨gap', i'⟩ := entry
    obtain ⟨_, us, rfl, ⟨_, _, rfl, ⟨pos, rfl⟩, spaces', ts', rfl, hspaces', hts'⟩, hus⟩ := hus
    simp only [append_assoc, cons_append, nil_append]
    have hends : isNext endsImport
        (⟨.punctuation, [','], pos⟩ :: (spaces' ++ (ts' ++ (us ++ rest)))) := rfl
    rw [imports_cons σ hspaces hts hends, fetch_comma]
    exact ih (i.scope σ) hspaces' hts' hus

/-! ## Items -/

theorem ends_stop {c : Char} (hc : isStop c) (pos : Nat) (rest : List Token) :
    Ends (⟨.punctuation, [c], pos⟩ :: rest) := by
  rcases isStop_iff.1 hc with rfl | rfl | rfl | rfl <;> exact ⟨rfl, rfl⟩

/-- A `namespace` declaration is dropped. -/
theorem writes_enter {head : Head .namespaceKw} {gap : Gap}
    (hts : ItemTokens (.enter head name gap) ts) (rest : List Token) :
    ∃ s', s'.scope = s.scope.enter name.text ∧ Writes u s ts rest [] s' := by
  obtain ⟨_, _, rfl, ⟨_, gapTs, rfl, ⟨_, nameTs, rfl, ⟨_, blanks, rfl, ⟨pos, rfl⟩, hblanks⟩, hname⟩,
    hgap⟩, end_, rfl⟩ := hts
  let semicolon : Token := ⟨.punctuation, [';'], end_⟩
  have hends : Ends (gapTs ++ semicolon :: rest) := .append_spaces hgap (ends_stop rfl end_ rest)
  have hread := name_append hblanks hname hends.not_name
  have hmark : fetch (fun t => t.isPunct ";" || t.isPunct "\x7b") (gapTs ++ semicolon :: rest) =
      some (semicolon, rest) := fetch_append_cons (isTrivia_of_spaces hgap) rfl rfl
  have hparts : blanks ++ nameTs ++ gapTs ++ [semicolon] ++ rest =
      blanks ++ (nameTs ++ (gapTs ++ semicolon :: rest)) := by simp
  have hstep : step u s ⟨.keyword .namespaceKw, head.keyword.text, pos⟩
      (blanks ++ nameTs ++ gapTs ++ [semicolon] ++ rest) =
        .ok ⟨[], { s with scope := s.scope.enter name.text }, rest⟩ := by
    rw [step_eq, hparts]
    simp only [enterNamespace, hread, hmark]
    rfl
  exact ⟨_, rfl, writes_of_step hstep⟩

theorem isNext_paren_name {blank : Text} {blanks nameTs : List Token}
    (hblanks : Spaces blank blanks) (hname : NameTokens name.text nameTs) (rest : List Token) :
    isNext (·.isPunct "(") (blanks ++ (nameTs ++ rest)) = false := by
  cases nameTs with
  | nil => exact absurd rfl hname.ne_nil
  | cons t ts =>
    have hpart := hname.1 t mem_cons_self
    refine (isNext_append_cons (isTrivia_of_spaces hblanks)
      (Token.not_isTrivia_of_isNamePart hpart) _).trans ?_
    simp only [Token.isNamePart, Token.isPunct, Bool.or_eq_true, Bool.and_eq_true, beq_iff_eq]
      at hpart
    rcases hpart with hkind | ⟨_, htext⟩
    · simp [Token.isPunct, hkind]
    · simp [Token.isPunct, htext]

/-- A `use` declaration is dropped. -/
theorem writes_use {head : Head .useKw} {first : Import} {gap : Gap}
    (hts : ItemTokens (.use head first more gap) ts) (rest : List Token) :
    ∃ s', s'.scope = (first :: more.map Prod.snd).foldl Import.scope s.scope ∧
      Writes u s ts rest [] s' := by
  obtain ⟨_, _, rfl, ⟨_, gapTs, rfl, ⟨_, moreTs, rfl, ⟨_, firstTs, rfl, ⟨_, blanks, rfl, ⟨pos, rfl⟩,
    hblanks⟩, hfirst⟩, hmore⟩, hgap⟩, end_, rfl⟩ := hts
  let semicolon : Token := ⟨.punctuation, [';'], end_⟩
  have htrivia := isTrivia_of_spaces hgap
  have hends : isNext endsImport (gapTs ++ semicolon :: rest) :=
    isNext_append_cons htrivia rfl _
  have hlast : isNext (·.isPunct ",") (gapTs ++ semicolon :: rest) = false :=
    isNext_append_cons htrivia rfl _
  have hread := imports_of_tokens s.scope hblanks hfirst hmore hends hlast
  have hmark : fetch (·.isPunct ";") (gapTs ++ semicolon :: rest) = some (semicolon, rest) :=
    fetch_append_cons htrivia rfl rfl
  have hparen : isNext (·.isPunct "(")
      (blanks ++ (firstTs ++ (moreTs ++ (gapTs ++ semicolon :: rest)))) = false := by
    obtain ⟨nameTs, aliasTs, rfl, hname, _⟩ := hfirst
    rw [append_assoc]
    exact isNext_paren_name hblanks hname _
  have hparts : blanks ++ firstTs ++ moreTs ++ gapTs ++ [semicolon] ++ rest =
      blanks ++ (firstTs ++ (moreTs ++ (gapTs ++ semicolon :: rest))) := by simp
  have hstep : step u s ⟨.keyword .useKw, head.keyword.text, pos⟩
      (blanks ++ firstTs ++ moreTs ++ gapTs ++ [semicolon] ++ rest) =
        .ok ⟨[], { s with scope := (first :: more.map Prod.snd).foldl Import.scope s.scope },
          rest⟩ := by
    rw [step_eq, hparts, hparen, hread]
    simp only [dropIf, hmark]
    rfl
  exact ⟨_, rfl, writes_of_step hstep⟩

/-- An item is written in its flat form and changes the scope as it says. -/
theorem writes_item {item : Item} (hts : ItemTokens item ts) (rest : List Token) :
    ∃ s', s'.scope = item.scope s.scope ∧ Writes u s ts rest (item.flat u.options s.scope) s' := by
  cases item with
  | enter head name gap => exact writes_enter u s hts rest
  | use head first more gap => exact writes_use u s hts rest
  | reference r gap stop =>
    obtain ⟨_, _, rfl, ⟨referenceTs, gapTs, rfl, hreference, hgap⟩, pos, rfl⟩ := hts
    let mark : Token := ⟨.punctuation, [stop.val], pos⟩
    have hends : Ends (gapTs ++ ([mark] ++ rest)) :=
      .append_spaces hgap (ends_stop stop.property pos rest)
    obtain ⟨s₁, hscope₁, hfirst⟩ := writes_reference u s hreference hends
    obtain ⟨s₂, hscope₂, _, hsecond⟩ := writes_spaces u s₁ hgap ([mark] ++ rest)
    have hthird := writes_token (step_plain u s₂ (isPlain_stop stop.property pos) rest)
    refine ⟨_, ?_, (hfirst.append hsecond).append hthird⟩
    exact (s₂.entering_scope _).trans (hscope₂.trans hscope₁)
  | code c =>
    obtain ⟨hplain, htext⟩ := hts
    have hwrites := writes_plain u s hplain rest
    rwa [htext] at hwrites

/-- Items are written in their flat form, each in the scope that those before it leave. -/
theorem writes_items {items : List (Gap × Item)} (hts : ItemsTokens items ts) (rest : List Token) :
    ∃ s', s'.scope = scopeAfter s.scope items ∧
      Writes u s ts rest (flatItems u.options s.scope items) s' := by
  induction items generalizing s ts with
  | nil =>
    obtain rfl : ts = [] := hts
    exact ⟨s, rfl, writes_nil u s rest⟩
  | cons entry items ih =>
    obtain ⟨gap, item⟩ := entry
    obtain ⟨_, moreTs, rfl, ⟨gapTs, itemTs, rfl, hgap, hitem⟩, hmore⟩ := hts
    obtain ⟨s₁, hscope₁, _, hfirst⟩ := writes_spaces u s hgap (itemTs ++ (moreTs ++ rest))
    obtain ⟨s₂, hscope₂, hsecond⟩ := writes_item u s₁ hitem (moreTs ++ rest)
    obtain ⟨s₃, hscope₃, hthird⟩ := ih s₂ hmore
    rw [hscope₁] at hscope₂ hsecond
    rw [hscope₂] at hscope₃ hthird
    exact ⟨s₃, hscope₃, (hfirst.append hsecond).append hthird⟩

/-- The open tag is copied, and so is the white space behind the last item. -/
theorem run_script (script : Script)
    (hts : Followed (ItemsTokens script.items) (Spaces script.last.text) ts) :
    run u {} (⟨.openTag, longTag, 0⟩ :: ts) =
      .ok (script.flat u.options, scopeAfter {} script.items) := by
  obtain ⟨itemTs, lastTs, rfl, hitems, hlast⟩ := hts
  let tag : Token := ⟨.openTag, longTag, 0⟩
  have htag : step u {} tag (itemTs ++ (lastTs ++ [])) =
      .ok ⟨tag.text, {}, itemTs ++ (lastTs ++ [])⟩ := rfl
  obtain ⟨s₁, hscope₁, hfirst⟩ :=
    writes_items u (State.wrote {} tag.text) hitems (lastTs ++ [])
  obtain ⟨s₂, hscope₂, _, hsecond⟩ := writes_spaces u s₁ hlast []
  have hwrites := ((writes_token htag).append hfirst).append hsecond
  have hend : run u s₂ [] = .ok ([], scopeAfter {} script.items) := by
    rw [Qualify.run, hscope₂, hscope₁]
    rfl
  unfold Writes at hwrites
  rw [hend, append_nil] at hwrites
  rw [← singleton_append, ← append_assoc, hwrites, Except.map, append_nil]
  rfl

end LegacyPhp.Grammar

namespace LegacyPhp

open Grammar

/-- Every script is taken to its flat form, and the namespace left at its end is the last one that
the script entered. -/
theorem qualify_script (o : ConvertOptions) (path : Path) (u : Script) :
    qualify o path u.text = .ok ⟨u.flat o, (scopeAfter {} u.items).current⟩ := by
  obtain ⟨ts, hts, hlex⟩ := lexemes_script u
  rw [qualify, lexemesOf_eq_ok.2 hlex]
  have hrun := run_script ⟨path, u.text, o⟩ u hts
  simp only [bind, Except.bind, hrun]
  rfl

/-- Two namespaces, imports, a list of interfaces, a name before `::`, one before a variable, and
code. -/
def formScript : Script :=
  let none : Gap := ⟨[], rfl⟩
  let space : Blank := ⟨⟨[' '], by decide⟩, by decide⟩
  let nette : Segment := ⟨"Nette".toList, rfl, rfl⟩
  let html : Segment := ⟨"Html".toList, rfl, rfl⟩
  let page : Segment := ⟨"Page".toList, rfl, rfl⟩
  let root : Segment := ⟨"Root".toList, rfl, rfl⟩
  let aliased : Import :=
    ⟨⟨false, html, [⟨"Base".toList, rfl, rfl⟩]⟩, some (space, ⟨⟨"as".toList, rfl⟩, space⟩, root)⟩
  let form : Reference := .classDecl ⟨⟨"class".toList, rfl⟩, space⟩ ⟨"Form".toList, rfl, rfl⟩
    (some ⟨space, ⟨⟨"extends".toList, rfl⟩, space⟩, root.name⟩)
    (some ⟨space, ⟨⟨"implements".toList, rfl⟩, space⟩,
      ⟨page.name, [(space.toGap, ⟨true, ⟨"Box".toList, rfl, rfl⟩, []⟩)]⟩⟩)
  let code : Code :=
    { text := "$x;".toList
      tokens := [⟨.variable, "$x".toList, 0⟩, ⟨.punctuation, [';'], 2⟩]
      lexed := eq_ok_of_toOption (by decide +kernel)
      plain := by decide
      starts := rfl
      ends := rfl }
  { items :=
      [(none, .enter ⟨⟨"namespace".toList, rfl⟩, space⟩ nette.name none),
        (none, .use ⟨⟨"USE".toList, rfl⟩, space⟩ aliased
          [(space.toGap, ⟨⟨true, html, [page]⟩, .none⟩)] none),
        (space.toGap, .reference form none ⟨'{', rfl⟩),
        (none, .reference (.member root.name none) none ⟨'}', rfl⟩),
        (space.toGap, .enter ⟨⟨"namespace".toList, rfl⟩, space⟩ html.name none),
        (space.toGap, .reference (.typed root.name space.toGap ⟨['x'], rfl⟩) none ⟨';', rfl⟩),
        (space.toGap, .code code)]
    last := none }

def formText : Text :=
  "<?php namespace Nette;USE Html\\Base as Root, \\Html\\Page; class Form extends Root ".toList ++
    "implements Page, \\Box\x7bRoot::\x7d namespace Html; Root $x; $x;".toList

def formFlat : Text :=
  "<?php  class NForm extends Base implements Page, Box\x7bBase::\x7d  Root $x; $x;".toList

/-- The import of `Root` ends with its namespace. -/
theorem qualify_script_form :
    formScript.text = formText ∧ qualify {} [] formText = .ok ⟨formFlat, "Html".toList⟩ := by
  have htext : formScript.text = formText := rfl
  have hflat : formScript.flat {} = formFlat := by decide
  refine ⟨htext, ?_⟩
  rw [← htext, qualify_script, hflat]
  rfl

end LegacyPhp
