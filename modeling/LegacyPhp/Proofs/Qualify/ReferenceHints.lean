import LegacyPhp.Proofs.Qualify.Stages
import LegacyPhp.Proofs.Token.Html
import LegacyPhp.Proofs.Token.Seams
import Mathlib.Data.List.Induction

/-!
# Names in front of a reference

In front of `&$x` a name is the type of a parameter taken by reference, or an operand. The pass
tells them apart by what it has written last: behind an opening parenthesis or a comma the name
means a class, and elsewhere it is copied (`endsInMark`). The language goes by where the name
stands: in the list of parameters of a function, right behind what opens the list or separates two
parameters, trivia apart (`isHint`).

The two differ in both directions. The arguments of a call stand behind the same marks as
parameters, and a comment before a parameter hides the mark, or, if it ends in one, is taken for it.
`reference_flattened_iff` says what the pass does, for every name of every unit, and from which
tokens it follows.
-/

namespace LegacyPhp.Qualify

open Text Scan Drift List LegacyPhp.Stream

variable {text source b shown : Text} {c : Char} {σ : Scope} {first l t : Token}
  {place pre white : List Token} {o : ConvertOptions} {path : Path}

/-! ## The last character -/

/-- The last character that is not blank. -/
def ink (text : Text) : Option Char := text.reverse.find? (!isBlank ·)

/-- Whether a text ends in an opening parenthesis or a comma, blanks apart. -/
def endsInMark (text : Text) : Bool := ink text == some '(' || ink text == some ','

theorem ink_append (a b : Text) : ink (a ++ b) = (ink b).or (ink a) := by
  rw [ink, reverse_append, find?_append]
  rfl

theorem ink_eq_none : ink text = none ↔ text.all isBlank := by
  simp [ink]

theorem mem_of_ink (h : ink text = some c) : c ∈ text :=
  mem_reverse.1 (mem_of_find?_eq_some h)

theorem endsInMark_append (a : Text) (hb : b.all isBlank = false) :
    endsInMark (a ++ b) = endsInMark b := by
  rw [endsInMark, ink_append]
  cases hink : ink b with
  | none => rw [ink_eq_none.1 hink] at hb; cases hb
  | some c => rw [endsInMark, hink]; rfl

theorem endsInMark_of_not_mem (hparen : '(' ∉ text) (hcomma : ',' ∉ text) :
    endsInMark text = false := by
  rw [endsInMark, Bool.or_eq_false_iff, beq_eq_false_iff_ne, beq_eq_false_iff_ne]
  exact ⟨fun h => hparen (mem_of_ink h), fun h => hcomma (mem_of_ink h)⟩

/-! ## The name and the reference -/

/-- Whether `&` and a variable that touches it come next. -/
def referenceAhead (ts : List Token) : Bool :=
  match fetch (·.isPunct "&") ts with
  | some (_, v :: _) => v.kind == .variable
  | _ => false

/-- What is written for a name found at the token `first`, either as a class or as it is. -/
def writtenName (u : Source) (s : Scope) (first : Token) (name : Text) (isClass : Bool) :
    Except Failure Text :=
  if isClass then className u s first name else .ok name

theorem writtenName_eq_iff {u : Source} {name : Text} (h : className u σ first name ≠ .ok name)
    (a b : Bool) : writtenName u σ first name a = writtenName u σ first name b ↔ a = b := by
  cases a with
  | true =>
    cases b with
    | true => simp
    | false => simpa [writtenName] using h
  | false =>
    cases b with
    | true => simpa [writtenName] using h.symm
    | false => simp

/-- In front of a reference only the last character decides. -/
theorem nameStep_reference {u : Source} {s : State} {rest : List Token} {out : Text}
    (hink : s.lastInk = ink out) (href : referenceAhead (Stream.name rest).2) :
    nameStep u s first rest =
      (writtenName u s.scope first (first.text ++ (Stream.name rest).1) (endsInMark out)).map
        fun text => ⟨text, s, (Stream.name rest).2⟩ := by
  have hnext : isNext (·.isPunct "&") (Stream.name rest).2 := by
    rw [← isSome_fetch]
    unfold referenceAhead at href
    cases hfetch : fetch (·.isPunct "&") (Stream.name rest).2 with
    | none => rw [hfetch] at href; cases href
    | some found => rfl
  -- an ampersand comes next, so neither colons nor a variable do
  have hother : isNext (fun n => n.isPunct "::" || n.kind == .variable)
      (Stream.name rest).2 = false := by
    refine isNext_eq_false hnext fun t ht => ?_
    simp only [Token.isPunct, Bool.and_eq_true, beq_iff_eq] at ht
    simp [Token.isPunct, ht.1, ht.2]
  have hclass : isByRefParam s.lastInk (Stream.name rest).2 = endsInMark out := by
    have hsplit : isByRefParam s.lastInk (Stream.name rest).2 =
        ((s.lastInk == some '(' || s.lastInk == some ',') &&
          referenceAhead (Stream.name rest).2) := rfl
    rw [hsplit, href, hink, Bool.and_true]
    rfl
  unfold nameStep writtenName
  simp only [hother, hclass, Bool.false_or]
  split <;> rfl

/-! ## Behind a declaration -/

/-- What a dropped declaration may end in if a name comes next. -/
def endsDeclaration (t : Token) : Bool :=
  t.isPunct ";" || t.kind == .identifier || t.isKeyword .asKw

theorem isNext_name (ts : List Token) : isNext Token.isNamePart (Stream.name ts).2 = false :=
  isNext_gather (fun _ => Token.not_isTrivia_of_isNamePart) ts

theorem enterNamespace_end {s : State} {ts : List Token}
    (h : isNext Token.isNamePart (enterNamespace s ts).rest) :
    ∃ mid l, ts = mid ++ l :: (enterNamespace s ts).rest ∧
      (endsDeclaration l ∧ (enterNamespace s ts).text = [] ∨
        l.isPunct "\x7b" ∧ (enterNamespace s ts).text = ['{']) := by
  unfold enterNamespace at h ⊢
  simp only at h ⊢
  cases hfetch : fetch (fun t => t.isPunct ";" || t.isPunct "\x7b") (Stream.name ts).2 with
  | none =>
    rw [hfetch, isNext_name] at h
    cases h
  | some found =>
    obtain ⟨mark, rest⟩ := found
    obtain ⟨mid, hmid⟩ := (suffix_cons_fetch hfetch).trans (suffix_gather _ ts)
    refine ⟨mid, mark, hmid.symm, ?_⟩
    cases hbrace : mark.isPunct "\x7b" with
    | true => exact .inr ⟨rfl, if_pos hbrace⟩
    | false =>
      have hstop := fetch_holds hfetch
      simp only [hbrace, Bool.or_false] at hstop
      exact .inl ⟨by simp [endsDeclaration, hstop], if_neg (Bool.eq_false_iff.1 hbrace)⟩

theorem importAlias_end {ts : List Token} (hts : isNext Token.isNamePart ts = false)
    (h : isNext Token.isNamePart (importAlias ts).2) :
    ∃ mid l, ts = mid ++ l :: (importAlias ts).2 ∧ endsDeclaration l := by
  unfold importAlias at h ⊢
  cases has : fetch (·.isKeyword .asKw) ts with
  | none =>
    rw [has, hts] at h
    cases h
  | some found =>
    obtain ⟨as, rest⟩ := found
    have hsuffix := suffix_cons_fetch has
    simp only
    cases hname : fetch (·.kind == .identifier) rest with
    | none =>
      obtain ⟨mid, hmid⟩ := hsuffix
      have hkey : as.isKeyword .asKw := fetch_holds has
      exact ⟨mid, as, hmid.symm, by simp [endsDeclaration, hkey]⟩
    | some found =>
      obtain ⟨name, left⟩ := found
      obtain ⟨mid, hmid⟩ :=
        (suffix_cons_fetch hname).trans ((suffix_cons as rest).trans hsuffix)
      have hkind : name.kind == .identifier := fetch_holds hname
      exact ⟨mid, name, hmid.symm, by simp [endsDeclaration, hkind]⟩

theorem imports_end {ts : List Token} (h : isNext Token.isNamePart (imports σ ts).2) :
    ∃ mid l, ts = mid ++ l :: (imports σ ts).2 ∧ endsDeclaration l := by
  fun_induction imports σ ts with
  | case1 σ ts name short scope _ rest hcomma ih =>
    obtain ⟨mid, l, hrest, hl⟩ := ih h
    obtain ⟨before, hbefore⟩ :=
      (suffix_fetch hcomma).trans ((suffix_importAlias _).trans (suffix_gather _ ts))
    refine ⟨before ++ mid, l, ?_, hl⟩
    rw [append_assoc, ← hrest, hbefore]
  | case2 σ ts name short scope hnone =>
    obtain ⟨mid, l, hname, hl⟩ := importAlias_end (isNext_name ts) h
    obtain ⟨before, hbefore⟩ := suffix_gather Token.isNamePart ts
    refine ⟨before ++ mid, l, ?_, hl⟩
    rw [append_assoc, ← hname]
    exact hbefore.symm

theorem dropImports_end {ts : List Token}
    (h : isNext Token.isNamePart (dropIf (·.isPunct ";") (imports σ ts).2)) :
    ∃ mid l, ts = mid ++ l :: dropIf (·.isPunct ";") (imports σ ts).2 ∧
      endsDeclaration l := by
  unfold dropIf at h ⊢
  cases hfetch : fetch (·.isPunct ";") (imports σ ts).2 with
  | none =>
    rw [hfetch] at h
    exact imports_end h
  | some found =>
    obtain ⟨stop, rest⟩ := found
    obtain ⟨mid, hmid⟩ := (suffix_cons_fetch hfetch).trans (suffix_imports σ ts)
    have hstop : stop.isPunct ";" := fetch_holds hfetch
    exact ⟨mid, stop, hmid.symm, by simp [endsDeclaration, hstop]⟩

theorem isNext_classNames {u : Source} {list : Bool} {head : Token} {ts : List Token} {p : Piece}
    (h : classNames u σ list head ts = .ok p) : isNext Token.isNamePart p.rest = false := by
  fun_induction classNames u σ list head ts generalizing p with
  | case1 => cases h
  | case2 head ts space name flat text => cases h; exact isNext_name _
  | case3 =>
    rename_i comma rest _ ih
    obtain ⟨more, hmore, rfl⟩ := map_eq_ok h
    exact ih (p := more) hmore

/-! ## The step before a name -/

variable {u : Source} {ts : List Token} {out : Text} {s : State}

/-- How the pass comes from the token `l` to what follows it, a name being next: it copied the
token, or dropped a declaration that ends there. -/
inductive Behind (u : Source) (ts : List Token) (l : Token) (place : List Token) (out : Text)
    (s : State) : Prop where
  | copied {shown : Text} {s' : State} (h : Reached u ts shown s' (l :: place))
      (hname : l.isNamePart = false) (hscope : s.scope = s'.scope)
      (hout : out = shown ++ copied u.options s.scope l)
  | dropped {shown : Text} {s' : State} {key : Token} {mid : List Token}
      (h : Reached u ts shown s' (key :: (mid ++ l :: place)))
      (hkey : key.isKeyword .namespaceKw ∨ key.isKeyword .useKw)
      (hend : endsDeclaration l ∧ out = shown ∨
        l.isPunct "\x7b" ∧ out = shown ++ ['{'])

theorem Reached.behind (h : Reached u ts out s place) (hnext : isNext Token.isNamePart place)
    (hts : ts = pre ++ l :: place) : Behind u ts l place out s := by
  -- the tokens before the place are known, so the last of them is `l`
  have hlast : ∀ {shown s' t mid x}, Reached u ts shown s' (t :: (mid ++ x :: place)) → x = l := by
    intro shown s' t mid x hplace
    have hx : x :: place <:+ ts :=
      ((suffix_append mid _).trans (suffix_cons t _)).trans hplace.suffix
    have hl : l :: place <:+ ts := ⟨pre, hts.symm⟩
    have heq := (suffix_of_suffix_length_le hx hl (by simp)).eq_of_length (by simp)
    exact (cons.inj heq).1
  cases h with
  | start =>
    have hlength := congrArg List.length hts
    simp only [length_append, length_cons] at hlength
    omega
  | @step shown s' t rest r h hstep =>
    rcases step_cases hstep with ⟨ht, rfl⟩ | ⟨ht, _, rfl⟩ | ⟨_, p, hp, rfl⟩ | ⟨_, hname⟩ |
      ⟨_, _, _, hname, rfl⟩
    · obtain ⟨mid, x, hrest, hx⟩ := enterNamespace_end hnext
      rw [hrest] at h
      obtain rfl := hlast h
      refine .dropped h (.inl ht) (hx.imp (fun hend => ⟨hend.1, ?_⟩) fun hend => ⟨hend.1, ?_⟩)
      · rw [hend.2, append_nil]
      · rw [hend.2]
    · obtain ⟨mid, x, hrest, hx⟩ := dropImports_end hnext
      rw [hrest] at h
      obtain rfl := hlast h
      exact .dropped h (.inr ht) (.inl ⟨hx, append_nil _⟩)
    · rw [isNext_classNames hp] at hnext
      cases hnext
    · rw [(nameStep_eq_ok hname).2.1, isNext_name] at hnext
      cases hnext
    · have heq := (suffix_of_suffix_length_le h.suffix ⟨pre, hts.symm⟩
        (by simp)).eq_of_length (by simp)
      obtain rfl := (cons.inj heq).1
      have hscope : ((s'.entering t).wrote (copied u.options s'.scope t)).scope = s'.scope :=
        s'.entering_scope t
      exact .copied h hname hscope (by rw [hscope])

/-- White space between the token and the name is copied and shows nothing. -/
theorem Reached.behind_white (h : Reached u ts out s place) (hnext : isNext Token.isNamePart place)
    (hwhite : ∀ t ∈ white, t.kind = .whitespace ∧ t.text.all isBlank)
    (hts : ts = pre ++ l :: (white ++ place)) :
    ∃ shown blank s', out = shown ++ blank ∧ blank.all isBlank ∧ s.scope = s'.scope ∧
      Behind u ts l (white ++ place) shown s' := by
  induction white using List.reverseRecOn generalizing place out s with
  | nil => exact ⟨out, [], s, (append_nil out).symm, rfl, rfl, h.behind hnext hts⟩
  | append_singleton white w ih =>
    obtain ⟨hkind, hblank⟩ := hwhite w (by simp)
    have hts' : ts = (pre ++ l :: white) ++ w :: place := by simp [hts]
    have htrivia : w.isTrivia := by rw [Token.isTrivia, hkind]; rfl
    cases h.behind hnext hts' with
    | @copied shown s' hplace hname hscope hout =>
      have hnext' : isNext Token.isNamePart (w :: place) := by
        rw [isNext_cons, htrivia, if_pos rfl, hnext]
      obtain ⟨first, blank, s'', hshown, hall, hscope', hbehind⟩ :=
        ih hplace hnext' (fun t ht => hwhite t (by simp [ht])) (by simp [hts])
      have hcopied : Qualify.copied u.options s.scope w = w.text := by
        simp [Qualify.copied, hkind]
      refine ⟨first, blank ++ w.text, s'', ?_, ?_, hscope.trans hscope', by simpa using hbehind⟩
      · rw [hout, hshown, hcopied, append_assoc]
      · rw [all_append, hall, hblank]
        rfl
    | dropped _ _ hend =>
      -- no declaration ends in white space
      simp [endsDeclaration, Token.isPunct, Token.isKeyword, hkind] at hend

/-! ## The tokens before a name -/

/-- What opens a list of parameters or arguments, or separates two of them. -/
def isListMark (t : Token) : Bool := t.isPunct "(" || t.isPunct ","

/-- A token whose text is whatever the source has there: a comment or a literal. -/
def isFreeText : TokenKind → Bool
  | .comment | .docComment | .stringLiteral => true
  | _ => false

theorem isFreeText_eq_false (h : t.isTrivia = false) (hliteral : t.kind ≠ .stringLiteral) :
    isFreeText t.kind = false := by
  rw [Token.isTrivia] at h
  unfold isFreeText
  split
  · next hkind => rw [hkind] at h; cases h
  · next hkind => rw [hkind] at h; cases h
  · next hkind => exact absurd hkind hliteral
  · rfl

theorem copied_eq_text (o : ConvertOptions) (σ : Scope) (h : isFreeText t.kind = false) :
    copied o σ t = t.text := by
  have hother : ∀ kind, isFreeText kind → t.kind ≠ kind := by
    rintro kind hkind heq
    rw [heq, hkind] at h
    cases h
  simp [copied, hother .comment rfl, hother .docComment rfl, hother .stringLiteral rfl]

theorem not_mem_of_free {p : Char → Bool} {cs : Text} (hparen : p '(' = false)
    (hcomma : p ',' = false) (hall : cs.all p) : '(' ∉ cs ∧ ',' ∉ cs := by
  rw [all_eq_true] at hall
  refine ⟨fun hmem => ?_, fun hmem => ?_⟩
  · exact absurd (hall _ hmem) (by simp [hparen])
  · exact absurd (hall _ hmem) (by simp [hcomma])

/-- In the code only the marks themselves hold a parenthesis or a comma, comments and literals
apart. -/
theorem scanCode_listMark {b : Before} {pos : Nat} {rest : Text} {scanned : Scanned}
    (h : scanCode b pos c rest = .ok scanned) (hfree : isFreeText scanned.kind = false)
    (hclose : scanned.kind ≠ .closeTag) : isListMark ⟨scanned.kind, scanned.text, pos⟩ ∨
      '(' ∉ scanned.text ∧ ',' ∉ scanned.text := by
  obtain ⟨kind, text, left⟩ := scanned
  cases scans_of_scanCode h with
  | closeTag => exact absurd rfl hclose
  | lineComment | comment | docComment | single | double | heredoc => cases hfree
  | whitespace hc hrun => exact .inr (not_mem_of_free rfl rfl (all_cons_run hc hrun))
  | var hc _ hrun =>
    obtain ⟨hparen, hcomma⟩ := not_mem_of_free rfl rfl (all_of_run hrun)
    simp [hc, hparen, hcomma]
  | identifier hc hrun | keyword hc hrun =>
    exact .inr (not_mem_of_free rfl rfl (all_cons_run (isIdentChar_of_isIdentStart hc) hrun))
  | number hc hnumber => exact .inr (not_mem_of_free rfl rfl (all_number hc hnumber))
  | mark hmark =>
    rcases mark_eq_or_mem hmark with rfl | hop
    · by_cases hparen : c = '('
      · exact .inl (by rw [hparen]; rfl)
      by_cases hcomma : c = ','
      · exact .inl (by rw [hcomma]; rfl)
      · exact .inr ⟨by simpa using Ne.symm hparen, by simpa using Ne.symm hcomma⟩
    · have hall : ∀ op ∈ operators, '(' ∉ op ∧ ',' ∉ op := by decide
      exact .inr (hall _ hop)

theorem tagAfter_free {rest taken left : Text} (h : tagAfter rest = .ok (some (taken, left))) :
    '(' ∉ taken ∧ ',' ∉ taken := by
  obtain rfl : taken ++ left = rest := tagAfter_append h
  rcases tagAfter_eq_some h with ⟨word, tail, rfl, hword, hend⟩ | ⟨rfl | ⟨rfl, _⟩, _⟩
  · -- the word in lower case is known, and so are the characters behind it
    have hfree : ∀ c : Char, c.toLower = c → c ∉ ['p', 'h', 'p'] → c ∉ word := by
      intro c hc hno hmem
      have hlower : c ∈ lower word := mem_map.2 ⟨c, hmem, hc⟩
      rw [show lower word = ['p', 'h', 'p'] from eq_of_beq hword] at hlower
      exact hno hlower
    have hspaces : tail.all isSpace := by
      rcases longTagEnd_eq_some hend with rfl | ⟨c, rfl, hc, _⟩ | ⟨rfl, _⟩
      · rfl
      · simp [hc]
      · rfl
    obtain ⟨hparen, hcomma⟩ := not_mem_of_free rfl rfl hspaces
    exact ⟨by simp [hfree '(' rfl (by decide), hparen],
      by simp [hfree ',' rfl (by decide), hcomma]⟩
  · decide
  · exact ⟨not_mem_nil, not_mem_nil⟩

/-- A token in front of code, as the lexer makes it. -/
theorem lexeme_listMark {more : List Token} {next : Token}
    (hlex : lexemes source = .ok (pre ++ l :: next :: more))
    (hnext : next.kind ≠ .openTag ∧ next.kind ≠ .inlineHtml) (hfree : isFreeText l.kind = false) :
    isListMark l ∨ '(' ∉ l.text ∧ ',' ∉ l.text := by
  obtain ⟨-, hread, hreadNext, -⟩ := Chain.append_iff.1 (chain_of_lexemes hlex)
  generalize pre.foldl Closure.inCodeAfter false = mode at hread hreadNext
  have hcode : Closure.inCodeAfter mode l := by
    generalize Closure.inCodeAfter mode l = mode' at hreadNext
    obtain ⟨kind, text, pos⟩ := next
    cases hreadNext with
    | code => rfl
    | tag => exact absurd rfl hnext.1
    | html => exact absurd rfl hnext.2
  have hkinds := hread.kind_of_inCodeAfter hcode
  obtain ⟨kind, text, pos⟩ := l
  cases hread with
  | code hscan => exact scanCode_listMark hscan hfree hkinds.2
  | tag htag =>
    obtain ⟨hparen, hcomma⟩ := tagAfter_free htag
    exact .inr ⟨by simpa using hparen, by simpa using hcomma⟩
  | html => exact absurd rfl hkinds.1

theorem exists_next_code (hfirst : first.isNamePart) (hwhite : ∀ t ∈ white, t.kind = .whitespace)
    (rest : List Token) : ∃ next more, white ++ first :: rest = next :: more ∧
      next.kind ≠ .openTag ∧ next.kind ≠ .inlineHtml := by
  cases white with
  | nil =>
    refine ⟨first, rest, rfl, ?_⟩
    simp only [Token.isNamePart, Token.isPunct, Bool.or_eq_true, Bool.and_eq_true, beq_iff_eq]
      at hfirst
    rcases hfirst with hkind | ⟨hkind, -⟩ <;> simp [hkind]
  | cons w white =>
    refine ⟨w, white ++ first :: rest, rfl, ?_⟩
    simp [hwhite w mem_cons_self]

/-! ## Comments -/

/-- The characters that open comments are in no name, so they are kept. -/
theorem mem_proseFrom {last : Option Char} {cs : Text} (hc : isCommentMark c) (h : c ∈ cs) :
    c ∈ proseFrom o σ last cs := by
  fun_induction proseFrom o σ last cs with
  | case1 last cs m hm ih =>
    obtain ⟨happend, hplain⟩ := mentionAt_plain hm
    have hname : c ∉ m.name := fun hmem => by
      rw [(isPlainChar_not_mark (hplain c hmem)).1] at hc
      cases hc
    rw [← happend] at h
    rcases mem_append.1 h with hwritten | hrest
    · refine mem_append_left _ ?_
      unfold Mention.flat
      split
      · exact hwritten
      split
      · exact hwritten
      split
      · exact hwritten
      · simp only [Mention.written, mem_append] at hwritten ⊢
        rcases hwritten with (htag | hmem) | hcolons
        · exact .inl (.inl htag)
        · exact absurd hmem hname
        · exact .inr hcolons
    · exact mem_append_right _ (ih hrest)
  | case2 => cases h
  | case3 _ d rest hnone ih =>
    rcases mem_cons.1 h with rfl | h
    · exact mem_cons_self
    · exact mem_cons_of_mem _ (ih h)

theorem not_blank_prose (o : ConvertOptions) (σ : Scope) (h : text.any isCommentMark) :
    (prose o σ text).all isBlank = false := by
  obtain ⟨c, hmem, hc⟩ := any_eq_true.1 h
  have hblank : isBlank c = false := by
    simp only [isCommentMark, Bool.or_eq_true, beq_iff_eq] at hc
    rcases hc with rfl | rfl <;> rfl
  refine Bool.eq_false_iff.2 fun hall => ?_
  rw [all_eq_true.1 hall c (mem_proseFrom hc hmem)] at hblank
  cases hblank

/-! ## Parameters -/

/-- The innermost bracket that is open where the tokens end, and what stands before it. The tokens
are given last first, and `depth` counts the brackets that were closed on the way. -/
def openBracket : Nat → List Token → Option (Token × List Token)
  | _, [] => none
  | depth, t :: earlier =>
    if t.isClosing then openBracket (depth + 1) earlier
    else if t.isOpening then
      match depth with
      | 0 => some (t, earlier)
      | depth + 1 => openBracket depth earlier
    else openBracket depth earlier

/-- Drops a token that satisfies `p` from the front. -/
def dropOne (p : Token → Bool) : List Token → List Token
  | t :: ts => if p t then ts else t :: ts
  | [] => []

/-- Whether the tokens, given last first, are the head of a function up to its parameters:
`function`, then `&` if it returns a reference, then its name if it has one. -/
def endsInFunctionHead (earlier : List Token) : Bool :=
  let unnamed := dropOne (fun t => t.isWord && !t.isKeyword .functionKw) earlier
  (dropOne (·.isPunct "&") unnamed).head?.any (·.isKeyword .functionKw)

/-- Whether the type of a parameter may stand behind the tokens: what comes last, trivia apart, is
the parenthesis that opens the parameters of a function, or a comma between two of them. -/
def isHint (before : List Token) : Bool :=
  let earlier := (before.filter (!·.isTrivia)).reverse
  earlier.head?.any isListMark &&
    (openBracket 0 earlier).any fun found => found.1.isPunct "(" && endsInFunctionHead found.2

/-- No type stands behind a token that is neither trivia nor a mark of the list. -/
theorem not_isHint (hwhite : ∀ t ∈ white, t.isTrivia) (hl : l.isTrivia = false)
    (hmark : isListMark l = false) : isHint (pre ++ l :: white) = false := by
  have hfilter : white.filter (!·.isTrivia) = [] :=
    filter_eq_nil_iff.2 fun t ht => by simp [hwhite t ht]
  simp [isHint, filter_append, hl, hfilter, hmark]

section places

variable {rest : List Token} {l first : Token}

/-- Behind a mark of a list, white space apart, the text ends in the mark. -/
theorem endsInMark_of_listMark (hl : isListMark l) (h : Behind u ts l place shown s) :
    endsInMark shown := by
  have hend : endsDeclaration l = false ∧ l.isPunct "\x7b" = false := by
    simp only [isListMark, Token.isPunct, Bool.or_eq_true, Bool.and_eq_true, beq_iff_eq] at hl
    rcases hl with ⟨hkind, htext⟩ | ⟨hkind, htext⟩ <;>
      simp [endsDeclaration, Token.isPunct, Token.isKeyword, hkind, htext]
  cases h with
  | copied _ _ _ hout =>
    simp only [isListMark, Token.isPunct, Bool.or_eq_true, Bool.and_eq_true, beq_iff_eq] at hl
    rw [hout]
    rcases hl with ⟨hkind, htext⟩ | ⟨hkind, htext⟩
    all_goals
      rw [copied, hkind, htext, endsInMark_append _ rfl]
      rfl
  | dropped _ _ hends =>
    rcases hends with ⟨hends, -⟩ | ⟨hends, -⟩
    · rw [hend.1] at hends; cases hends
    · rw [hend.2] at hends; cases hends

theorem endsInMark_of_comment (hl : l.kind = .comment ∨ l.kind = .docComment) (hform : l.WellFormed)
    (h : Behind u ts l place shown s) :
    endsInMark shown = endsInMark (prose u.options s.scope l.text) := by
  have hany : l.text.any isCommentMark := by
    rcases hl with hkind | hkind <;> simpa [Token.WellFormed, hkind] using hform
  cases h with
  | copied _ _ _ hout =>
    have hcopied : copied u.options s.scope l = prose u.options s.scope l.text := by
      rcases hl with hkind | hkind <;> simp [copied, hkind]
    rw [hout, hcopied, endsInMark_append _ (not_blank_prose u.options s.scope hany)]
  | dropped _ _ hends =>
    rcases hl with hkind | hkind <;>
      simp [endsDeclaration, Token.isPunct, Token.isKeyword, hkind] at hends

/-- A declaration is dropped in front of the place `rest` or up to it, and what was written before
it ends in a mark. -/
def MarkBeforeDeclaration (u : Source) (ts rest : List Token) : Prop :=
  ∃ shown s key mid, Reached u ts shown s (key :: (mid ++ rest)) ∧
    (key.isKeyword .namespaceKw ∨ key.isKeyword .useKw) ∧ endsInMark shown

/-- Behind any other token the text ends in no mark, unless the token shows nothing or ends a
declaration in front of which it does. -/
theorem not_endsInMark (hfree : '(' ∉ l.text ∧ ',' ∉ l.text) (hl : isFreeText l.kind = false)
    {shown : Text} (h : Behind u ts l place shown s) (hmark : endsInMark shown) :
    l.text.all isBlank ∨ MarkBeforeDeclaration u ts (l :: place) := by
  cases h with
  | copied _ _ _ hout =>
    refine .inl ?_
    by_contra hblank
    rw [Bool.not_eq_true] at hblank
    rw [hout, copied_eq_text _ _ hl, endsInMark_append _ hblank,
      endsInMark_of_not_mem hfree.1 hfree.2] at hmark
    cases hmark
  | @dropped before s' key mid hplace hkey hends =>
    refine .inr ⟨before, s', key, mid, hplace, hkey, ?_⟩
    rcases hends with ⟨-, rfl⟩ | ⟨-, rfl⟩
    · exact hmark
    · rw [endsInMark_append _ rfl] at hmark
      cases hmark

end places

/-! ## What becomes of the name -/

/-- The unit from the name on. -/
theorem qualify_reference {rest : List Token} (hlex : lexemes source = .ok ts)
    (hfirst : first.isNamePart) (href : referenceAhead (Stream.name rest).2)
    (h : Reached ⟨path, source, o⟩ ts out s (first :: rest)) : qualify o path source =
      (writtenName ⟨path, source, o⟩ s.scope first (first.text ++ (Stream.name rest).1)
        (endsInMark out)).bind fun text =>
          (run ⟨path, source, o⟩ (s.wrote text) (Stream.name rest).2).map fun r =>
            ⟨out ++ text ++ r.1, r.2.current⟩ := by
  have hstep : step ⟨path, source, o⟩ s first rest = nameStep ⟨path, source, o⟩ s first rest := by
    obtain ⟨hnamespace, hcontext⟩ := isKeyword_of_isNamePart hfirst .namespaceKw
    have huse := (isKeyword_of_isNamePart hfirst .useKw).1
    simp only [step_eq, hnamespace, huse, hcontext, hfirst, Bool.false_and, Bool.false_eq_true,
      if_false, if_true]
  rw [nameStep_reference h.lastInk_eq href] at hstep
  rw [qualify_eq_run o path hlex, h.run_eq]
  cases hname : writtenName ⟨path, source, o⟩ s.scope first (first.text ++ (Stream.name rest).1)
      (endsInMark out) with
  | error e =>
    rw [hname] at hstep
    rw [run_error hstep]
    rfl
  | ok text =>
    rw [hname] at hstep
    rw [run_cons hstep]
    simp only [Except.bind]
    cases run ⟨path, source, o⟩ (s.wrote text) (Stream.name rest).2 with
    | error e => rfl
    | ok more => simp [Except.map]

/-- What becomes of a name in front of a reference, in every unit. The pass comes to the name,
unless it fails before or takes the name along with an earlier token. It then means a class exactly
if what is written ends in a mark, and this agrees with its being the type of a parameter exactly if
both are so or neither is. Behind a mark the text ends in it, behind a comment the comment counts,
and behind any other token no type stands and the text ends in no mark, literals, blanks and dropped
declarations apart. -/
theorem reference_flattened_iff (o : ConvertOptions) (path : Path) {source : Text}
    {before rest : List Token} {first : Token}
    (hlex : lexemes source = .ok (before ++ first :: rest)) (hfirst : first.isNamePart)
    (href : referenceAhead (Stream.name rest).2) :
    let u : Source := ⟨path, source, o⟩
    let name := first.text ++ (Stream.name rest).1
    ComesTo u (before ++ first :: rest) (first :: rest) ∧
    ∀ out s, Reached u (before ++ first :: rest) out s (first :: rest) →
      (qualify o path source =
        (writtenName u s.scope first name (endsInMark out)).bind fun text =>
          (run u (s.wrote text) (Stream.name rest).2).map fun r =>
            ⟨out ++ text ++ r.1, r.2.current⟩) ∧
      (className u s.scope first name ≠ .ok name →
        (writtenName u s.scope first name (endsInMark out) =
            writtenName u s.scope first name (isHint before) ↔
          endsInMark out = isHint before)) ∧
      ∀ pre l white, before = pre ++ l :: white → (∀ t ∈ white, t.kind = .whitespace) →
        (isListMark l → endsInMark out) ∧
        (l.kind = .comment ∨ l.kind = .docComment →
          endsInMark out = endsInMark (prose o s.scope l.text)) ∧
        (l.isTrivia = false → isListMark l = false →
          isHint before = false ∧
          (endsInMark out →
            l.kind = .stringLiteral ∨ l.text.all isBlank ∨
              MarkBeforeDeclaration u (before ++ first :: rest)
                (l :: (white ++ first :: rest)))) := by
  intro u name
  refine ⟨comesTo u before (first :: rest), fun out s hplace =>
    ⟨qualify_reference hlex hfirst href hplace, fun hclass => writtenName_eq_iff hclass _ _,
      fun pre l white hbefore hwhite => ?_⟩⟩
  subst hbefore
  have hform := (lexemes_lexed hlex).wellFormed
  have hnext : Stream.isNext Token.isNamePart (first :: rest) := by
    rw [Stream.isNext_cons, Token.not_isTrivia_of_isNamePart hfirst]
    exact hfirst
  have hblanks : ∀ t ∈ white, t.kind = .whitespace ∧ t.text.all isBlank := by
    intro t ht
    have hspaces := hform t (by simp [ht])
    simp only [Token.WellFormed, hwhite t ht, List.all_eq_true] at hspaces
    exact ⟨hwhite t ht, List.all_eq_true.2 fun c hc => isBlank_of_isSpace (hspaces.1 c hc)⟩
  obtain ⟨shown, blank, s', hout, hblank, hscope, hbehind⟩ :=
    hplace.behind_white hnext hblanks (List.append_assoc pre (l :: white) (first :: rest))
  have hsame : endsInMark out = endsInMark shown := by
    rw [hout, endsInMark, ink_append, ink_eq_none.2 hblank]
    rfl
  rw [hsame, hscope]
  refine ⟨fun hl => endsInMark_of_listMark hl hbehind,
    fun hl => endsInMark_of_comment hl (hform l (by simp)) hbehind, fun hl hmark => ⟨?_, ?_⟩⟩
  · refine not_isHint (fun t ht => ?_) hl hmark
    rw [Token.isTrivia, hwhite t ht]
    rfl
  · intro hends
    by_cases hliteral : l.kind = .stringLiteral
    · exact .inl hliteral
    · have hfree := isFreeText_eq_false hl hliteral
      obtain ⟨next, more, hmore, hkinds⟩ := exists_next_code hfirst hwhite rest
      rw [List.append_assoc, List.cons_append, hmore] at hlex
      have htext := (lexeme_listMark hlex hkinds hfree).resolve_left (Bool.eq_false_iff.1 hmark)
      exact .inr (not_endsInMark htext hfree hbehind hends)

/-- A constant as the argument of a call, and a type with a comment in front of it. -/
def callUnit : Text := "<?php namespace Nette; f(MASK &$z);".toList

@[inherit_doc callUnit]
def commentedUnit : Text :=
  "<?php namespace Nette; function f(/* c */ Foo &$x) \x7b\x7d".toList

/-- The declaration both units start with. -/
def inNette : List Token :=
  [⟨.openTag, "<?php ".toList, 0⟩, ⟨.keyword .namespaceKw, "namespace".toList, 6⟩,
    ⟨.whitespace, [' '], 15⟩, ⟨.identifier, "Nette".toList, 16⟩, ⟨.punctuation, [';'], 21⟩,
    ⟨.whitespace, [' '], 22⟩]

def beforeConstant : List Token :=
  inNette ++ [⟨.identifier, ['f'], 23⟩, ⟨.punctuation, ['('], 24⟩]

/-- The constant. -/
def mask : Token := ⟨.identifier, "MASK".toList, 25⟩

def afterConstant : List Token :=
  [⟨.whitespace, [' '], 29⟩, ⟨.punctuation, ['&'], 30⟩, ⟨.variable, "$z".toList, 31⟩,
    ⟨.punctuation, [')'], 33⟩, ⟨.punctuation, [';'], 34⟩]

def beforeType : List Token :=
  inNette ++ [⟨.keyword .functionKw, "function".toList, 23⟩, ⟨.whitespace, [' '], 31⟩,
    ⟨.identifier, ['f'], 32⟩, ⟨.punctuation, ['('], 33⟩, ⟨.comment, "/* c */".toList, 34⟩,
    ⟨.whitespace, [' '], 41⟩]

/-- The type. -/
def foo : Token := ⟨.identifier, "Foo".toList, 42⟩

def afterType : List Token :=
  [⟨.whitespace, [' '], 45⟩, ⟨.punctuation, ['&'], 46⟩, ⟨.variable, "$x".toList, 47⟩,
    ⟨.punctuation, [')'], 49⟩, ⟨.whitespace, [' '], 50⟩, ⟨.punctuation, ['{'], 51⟩,
    ⟨.punctuation, ['}'], 52⟩]

theorem reached_constant : ∃ out s, s.scope = ⟨"Nette".toList, []⟩ ∧
    Reached ⟨[], callUnit, {}⟩ (beforeConstant ++ mask :: afterConstant) out s
      (mask :: afterConstant) := by
  have htag := @Reached.start ⟨[], callUnit, {}⟩ (beforeConstant ++ mask :: afterConstant)
  have hnamespace := htag.step rfl
  have hspace := hnamespace.step rfl
  have hname := hspace.step rfl
  have hparen := hname.step rfl
  exact ⟨_, _, by decide +kernel, hparen.step rfl⟩

theorem reached_type : ∃ out s, s.scope = ⟨"Nette".toList, []⟩ ∧
    Reached ⟨[], commentedUnit, {}⟩ (beforeType ++ foo :: afterType) out s (foo :: afterType) := by
  have htag := @Reached.start ⟨[], commentedUnit, {}⟩ (beforeType ++ foo :: afterType)
  have hnamespace := htag.step rfl
  have hspace := hnamespace.step rfl
  have hfunction := hspace.step rfl
  have hspace' := hfunction.step rfl
  have hname := hspace'.step rfl
  have hparen := hname.step rfl
  have hcomment := hparen.step rfl
  have hspace'' := hcomment.step rfl
  exact ⟨_, _, by decide +kernel, hspace''.step rfl⟩

/-- The argument is taken for a class, and the type is not. -/
theorem reference_flattened_iff_unlike :
    (∃ out s, Reached ⟨[], callUnit, {}⟩ (beforeConstant ++ mask :: afterConstant) out s
        (mask :: afterConstant) ∧
      isHint beforeConstant = false ∧
      writtenName ⟨[], callUnit, {}⟩ s.scope mask "MASK".toList (endsInMark out) =
        .ok "NMASK".toList) ∧
    (∃ out s, Reached ⟨[], commentedUnit, {}⟩ (beforeType ++ foo :: afterType) out s
        (foo :: afterType) ∧
      isHint beforeType ∧
      writtenName ⟨[], commentedUnit, {}⟩ s.scope foo "Foo".toList (endsInMark out) =
        .ok "Foo".toList) := by
  constructor
  · obtain ⟨out, s, hscope, hplace⟩ := reached_constant
    have hlex : lexemes callUnit = .ok (beforeConstant ++ mask :: afterConstant) :=
      eq_ok_of_toOption (by decide +kernel)
    obtain ⟨-, hplaces⟩ := reference_flattened_iff {} [] hlex rfl rfl
    obtain ⟨-, -, hbefore⟩ := hplaces out s hplace
    have hmark := (hbefore (inNette ++ [⟨.identifier, ['f'], 23⟩]) _ [] rfl nofun).1 rfl
    refine ⟨out, s, hplace, rfl, ?_⟩
    rw [hmark, hscope]
    rfl
  · obtain ⟨out, s, hscope, hplace⟩ := reached_type
    have hlex : lexemes commentedUnit = .ok (beforeType ++ foo :: afterType) :=
      eq_ok_of_toOption (by decide +kernel)
    obtain ⟨-, hplaces⟩ := reference_flattened_iff {} [] hlex rfl rfl
    obtain ⟨-, -, hbefore⟩ := hplaces out s hplace
    have hcomment := (hbefore (inNette ++ [⟨.keyword .functionKw, "function".toList, 23⟩,
      ⟨.whitespace, [' '], 31⟩, ⟨.identifier, ['f'], 32⟩, ⟨.punctuation, ['('], 33⟩])
      ⟨.comment, "/* c */".toList, 34⟩ [⟨.whitespace, [' '], 41⟩] rfl
      (forall_mem_of_all (by decide))).2.1 (.inl rfl)
    have hmark : endsInMark out = false := by
      rw [hcomment, hscope]
      decide +kernel
    refine ⟨out, s, hplace, rfl, ?_⟩
    rw [hmark]
    rfl

end LegacyPhp.Qualify
