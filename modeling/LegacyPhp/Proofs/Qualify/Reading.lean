import LegacyPhp.Proofs.Qualify.Grammar
import LegacyPhp.Proofs.Token.ClosingBrace

/-!
# The tokens of a script

Each piece of the grammar lexes into tokens of a known form, whatever follows it as long as that
does not go on where the piece ends. The lemmas follow the grammar: a name is a sequence of name
parts, a clause a keyword with white space, names and commas, and an item ends in a mark after which
anything may come.
-/

namespace LegacyPhp.Grammar

open Text Scan Qualify Closure List

variable {p : Char → Bool} {rest : Text} {word : Keyword} {ts : List Token}

/-! ## What a piece starts with -/

theorem nextIs_append_gap (hp : ∀ c, isSpace c → p c = false) (g : Gap)
    (h : nextIs p rest = false) : nextIs p (g.text ++ rest) = false := by
  cases htext : g.text with
  | nil => exact h
  | cons c cs =>
    have hspaces := g.spaces
    rw [htext, all_cons, Bool.and_eq_true] at hspaces
    exact hp c hspaces.1

theorem nextIs_append_blank (hp : ∀ c, isSpace c → p c = false) (g : Blank) (rest : Text) :
    nextIs p (g.text ++ rest) = false := by
  cases htext : g.text with
  | nil => exact absurd htext g.nonempty
  | cons c cs =>
    have hspaces := g.spaces
    rw [htext, all_cons, Bool.and_eq_true] at hspaces
    exact hp c hspaces.1

theorem not_separator_of_isSpace (c : Char) (h : isSpace c) : (c == '\\') = false := by
  refine beq_eq_false_iff_ne.2 fun heq => ?_
  rw [heq] at h
  cases h

theorem nextIs_isSpace_of_isIdent {text : Text} (h : isIdent text) (rest : Text) :
    nextIs isSpace (text ++ rest) = false := by
  cases text with
  | nil => cases h
  | cons c cs =>
    rw [isIdent, Bool.and_eq_true] at h
    exact not_isSpace_of_isIdentStart h.1

theorem nextIs_isSpace_head (h : Head word) (rest : Text) :
    nextIs isSpace (h.text ++ rest) = false := by
  rw [Head.text, append_assoc]
  exact nextIs_isSpace_of_isIdent (isIdent_of_ofWord? h.keyword.spells) _

theorem words_text_cons (n : Name) : ∃ tail, join ['\\'] n.words = n.first.text ++ tail := by
  cases hmore : n.more with
  | nil => exact ⟨[], by simp [Name.words, hmore, join, List.intercalate]⟩
  | cons s more => exact ⟨_, by rw [Name.words, hmore]; exact join_cons_cons _ _ _ _⟩

theorem nextIs_isSpace_name (n : Name) (rest : Text) : nextIs isSpace (n.text ++ rest) = false := by
  obtain ⟨tail, htail⟩ := words_text_cons n
  rw [Name.text, htail]
  cases n.rooted with
  | true => rfl
  | false =>
    rw [if_neg Bool.false_ne_true, nil_append, append_assoc]
    exact nextIs_isSpace_of_isIdent n.first.ident _

/-! ## Names -/

/-- The parts of a name. -/
def NameTokens (text : Text) (ts : List Token) : Prop :=
  (∀ t ∈ ts, t.isNamePart) ∧ serialize ts = text

theorem nameTokens_append {a b : Text} (h : Followed (NameTokens a) (NameTokens b) ts) :
    NameTokens (a ++ b) ts := by
  obtain ⟨first, second, rfl, ⟨hfirst, rfl⟩, ⟨hsecond, rfl⟩⟩ := h
  refine ⟨fun t ht => ?_, serialize_append _ _⟩
  rcases mem_append.1 ht with ht | ht
  · exact hfirst t ht
  · exact hsecond t ht

theorem lexes_segment (b : Before) (s : Segment) (hrest : nextIs isIdentChar rest = false) :
    Lexes b s.text (NameTokens s.text) {} rest := by
  refine (lexes_identifier b s.ident s.unreserved hrest).imp ?_
  rintro ts ⟨pos, rfl⟩
  exact ⟨by simp [Token.isNamePart], by simp⟩

theorem lexes_separator (b : Before) (rest : Text) :
    Lexes b ['\\'] (NameTokens ['\\']) { separator := true } rest := by
  refine (lexes_loneMark rfl b rest).imp ?_
  rintro ts ⟨pos, rfl⟩
  exact ⟨by simp [Token.isNamePart, Token.isPunct], by simp⟩

theorem lexes_words (b : Before) (first : Segment) (more : List Segment)
    (hrest : nextIs isIdentChar rest = false) :
    Lexes b (join ['\\'] ((first :: more).map Segment.text))
      (NameTokens (join ['\\'] ((first :: more).map Segment.text))) {} rest := by
  induction more generalizing b first with
  | nil =>
    have htext : join ['\\'] ([first].map Segment.text) = first.text := by
      simp [join, List.intercalate]
    rw [htext]
    exact lexes_segment b first hrest
  | cons second more ih =>
    rw [map_cons, map_cons, join_cons_cons]
    have htail := ((lexes_separator {} _).append (ih _ second)).imp fun _ => nameTokens_append
    exact ((lexes_segment b first rfl).append htail).imp fun _ => nameTokens_append

theorem lexes_name (n : Name) (hrest : nextIs isIdentChar rest = false) :
    Lexes {} n.text (NameTokens n.text) {} rest := by
  unfold Name.text
  cases n.rooted with
  | false => exact lexes_words {} n.first n.more hrest
  | true =>
    exact ((lexes_separator {} _).append (lexes_words _ n.first n.more hrest)).imp
      fun _ => nameTokens_append

/-! ## Clauses -/

section

/-- A reserved word and white space. -/
def HeadTokens (h : Head word) : List Token → Prop :=
  Followed (Single (.keyword word) h.keyword.text) (Spaces h.blank.text)

theorem lexes_head (h : Head word) (hrest : nextIs isSpace rest = false) :
    Lexes {} h.text (HeadTokens h) {} rest :=
  (lexes_keyword h.keyword.spells
    (nextIs_append_blank (fun _ => not_isIdentChar_of_isSpace) h.blank rest)
    (nextIs_append_blank not_separator_of_isSpace h.blank rest)).append
    (lexes_spaces false h.blank.spaces hrest)

theorem lexes_gap (g : Gap) (hrest : nextIs isSpace rest = false) :
    Lexes {} g.text (Spaces g.text) {} rest := lexes_spaces false g.spaces hrest

theorem lexes_comma (rest : Text) : Lexes {} [','] (Single .punctuation [',']) {} rest :=
  lexes_loneMark rfl {} rest

/-- The commas and names behind a first name. -/
def MoreTokens : List (Gap × Name) → List Token → Prop
  | [] => fun ts => ts = []
  | (gap, name) :: more =>
    Followed (Followed (Single .punctuation [','])
      (Followed (Spaces gap.text) (NameTokens name.text))) (MoreTokens more)

theorem nextIs_append_moreText (hp : p ',' = false) (write : Name → Text) (more : List (Gap × Name))
    (h : nextIs p rest = false) : nextIs p (moreText write more ++ rest) = false := by
  cases more with
  | nil => exact h
  | cons entry more => exact hp

theorem lexes_more (more : List (Gap × Name)) (hrest : nextIs isIdentChar rest = false) :
    Lexes {} (moreText Name.text more) (MoreTokens more) {} rest := by
  induction more with
  | nil => exact .nil rfl
  | cons entry more ih =>
    obtain ⟨gap, name⟩ := entry
    have hname := lexes_name name (nextIs_append_moreText rfl Name.text more hrest)
    have hgap := lexes_gap gap (nextIs_isSpace_name name (moreText Name.text more ++ rest))
    exact ((lexes_comma _).append (hgap.append hname)).append ih

/-- A reserved word with class names. -/
def ClauseTokens (head : Head word) (names : Names) : List Token → Prop :=
  Followed (HeadTokens head) (Followed (NameTokens names.first.text) (MoreTokens names.more))

theorem lexes_clause (head : Head word) (names : Names) (hrest : nextIs isIdentChar rest = false) :
    Lexes {} (head.text ++ names.text Name.text) (ClauseTokens head names) {} rest := by
  have hfirst := lexes_name names.first (nextIs_append_moreText rfl Name.text names.more hrest)
  have hnames := hfirst.append (lexes_more names.more hrest)
  refine (lexes_head head ?_).append hnames
  rw [Names.text, append_assoc]
  exact nextIs_isSpace_name _ _

theorem lexes_headName (head : Head word) (name : Name) (hrest : nextIs isIdentChar rest = false) :
    Lexes {} (head.text ++ name.text) (ClauseTokens head ⟨name, []⟩) {} rest := by
  have hclause := lexes_clause head ⟨name, []⟩ hrest
  rwa [Names.text, moreText, flatMap_nil, append_nil] at hclause

/-- A clause that may be left out. -/
def OptionTokens : Option (Clause word) → List Token → Prop
  | none => fun ts => ts = []
  | some c => Followed (Spaces c.space.text) (ClauseTokens c.head c.names)

theorem nextIs_append_clauseText (write : Name → Text) (clause : Option (Clause word))
    (h : nextIs isIdentChar rest = false) :
    nextIs isIdentChar (clauseText write clause ++ rest) = false := by
  cases clause with
  | none => exact h
  | some c =>
    show nextIs isIdentChar (c.space.text ++ (c.head.text ++ c.names.text write) ++ rest) = false
    rw [append_assoc]
    exact nextIs_append_blank (fun _ => not_isIdentChar_of_isSpace) c.space _

theorem lexes_clauseText (clause : Option (Clause word)) (hrest : nextIs isIdentChar rest = false) :
    Lexes {} (clauseText Name.text clause) (OptionTokens clause) {} rest := by
  cases clause with
  | none => exact .nil rfl
  | some c =>
    refine (lexes_gap c.space.toGap ?_).append (lexes_clause c.head c.names hrest)
    rw [append_assoc]
    exact nextIs_isSpace_head c.head _

end

/-! ## Items -/

/-- The tokens of a class reference. -/
def ReferenceTokens : Reference → List Token → Prop
  | .new head name => ClauseTokens head ⟨name, []⟩
  | .instanceOf head name => ClauseTokens head ⟨name, []⟩
  | .classDecl head name parent interfaces =>
    Followed (Followed (ClauseTokens head ⟨name.name, []⟩)
      (OptionTokens (parent.map Parent.clause))) (OptionTokens interfaces)
  | .interfaceDecl head name parents =>
    Followed (ClauseTokens head ⟨name.name, []⟩) (OptionTokens parents)
  | .member name gap =>
    Followed (Followed (NameTokens name.text) (Spaces gap.text)) (Single .punctuation [':', ':'])
  | .typed name gap var =>
    Followed (Followed (NameTokens name.text) (Spaces gap.text))
      (Single .variable ('$' :: var.name))

theorem lexes_reference (r : Reference) (hrest : nextIs isIdentChar rest = false) :
    ∃ member, Lexes {} (r.text Name.text) (ReferenceTokens r) { member } rest := by
  cases r with
  | new head name | instanceOf head name => exact ⟨false, lexes_headName head name hrest⟩
  | classDecl head name parent interfaces =>
    have hinterfaces := lexes_clauseText interfaces hrest
    have hafter := nextIs_append_clauseText Name.text interfaces hrest
    have hparent := lexes_clauseText (parent.map Parent.clause) hafter
    have hname := lexes_headName head name.name
      (nextIs_append_clauseText Name.text (parent.map Parent.clause) hafter)
    exact ⟨false, (hname.append hparent).append hinterfaces⟩
  | interfaceDecl head name parents =>
    have hname := lexes_headName head name.name (nextIs_append_clauseText Name.text parents hrest)
    exact ⟨false, hname.append (lexes_clauseText parents hrest)⟩
  | member name gap =>
    have hcolons : nextIs isIdentChar ([':', ':'] ++ rest) = false := rfl
    have hname := lexes_name name
      (nextIs_append_gap (fun _ => not_isIdentChar_of_isSpace) gap hcolons)
    exact ⟨true, (hname.append (lexes_gap gap rfl)).append (lexes_colons {} rest)⟩
  | typed name gap var =>
    have hvar : nextIs isIdentChar ('$' :: var.name ++ rest) = false := rfl
    have hname := lexes_name name
      (nextIs_append_gap (fun _ => not_isIdentChar_of_isSpace) gap hvar)
    exact ⟨false, (hname.append (lexes_gap gap rfl)).append (lexes_variable {} var.ident hrest)⟩

/-- The tokens of an alias that may be left out. -/
def AliasTokens : Option (Blank × Head .asKw × Segment) → List Token → Prop
  | none => fun ts => ts = []
  | some (space, head, short) =>
    Followed (Spaces space.text) (Followed (HeadTokens head) (Single .identifier short.text))

def ImportTokens (i : Import) : List Token → Prop :=
  Followed (NameTokens i.name.text) (AliasTokens i.alias?)

theorem lexes_import (i : Import) (hrest : nextIs isIdentChar rest = false) :
    Lexes {} i.text (ImportTokens i) {} rest := by
  unfold Import.text ImportTokens
  cases i.alias? with
  | none => exact (lexes_name i.name hrest).append (.nil rfl)
  | some entry =>
    obtain ⟨space, head, short⟩ := entry
    have hshort := lexes_identifier {} short.ident short.unreserved hrest
    have hhead := lexes_head head (nextIs_isSpace_of_isIdent short.ident rest)
    have hspace : Lexes {} space.text (Spaces space.text) {} (head.text ++ short.text ++ rest) := by
      refine lexes_gap space.toGap ?_
      rw [append_assoc]
      exact nextIs_isSpace_head head _
    refine (lexes_name i.name ?_).append (hspace.append (hhead.append hshort))
    rw [append_assoc]
    exact nextIs_append_blank (fun _ => not_isIdentChar_of_isSpace) space _

/-- The commas and imports behind a first one. -/
def ImportsTokens : List (Gap × Import) → List Token → Prop
  | [] => fun ts => ts = []
  | (gap, i) :: more =>
    Followed (Followed (Single .punctuation [',']) (Followed (Spaces gap.text) (ImportTokens i)))
      (ImportsTokens more)

theorem nextIs_append_importsText (more : List (Gap × Import))
    (h : nextIs isIdentChar rest = false) :
    nextIs isIdentChar (importsText more ++ rest) = false := by
  cases more with
  | nil => exact h
  | cons entry more => rfl

theorem nextIs_isSpace_import (i : Import) (rest : Text) :
    nextIs isSpace (i.text ++ rest) = false := by
  rw [Import.text, append_assoc]
  exact nextIs_isSpace_name _ _

theorem lexes_imports (more : List (Gap × Import)) (hrest : nextIs isIdentChar rest = false) :
    Lexes {} (importsText more) (ImportsTokens more) {} rest := by
  induction more with
  | nil => exact .nil rfl
  | cons entry more ih =>
    obtain ⟨gap, i⟩ := entry
    have himport := lexes_import i (nextIs_append_importsText more hrest)
    have hgap := lexes_gap gap (nextIs_isSpace_import i (importsText more ++ rest))
    exact ((lexes_comma _).append (hgap.append himport)).append ih

/-! ## Code that ends in a stop -/

section Stops

variable {b : Before} {t : Token} (more : Text)

/-- Of the plain tokens only the stops end in one. -/
theorem eq_stop_of_plain (h : Reads true b t.kind t.text rest) (ht : t.isPlain)
    (hends : EndsInStop t.text) : t.kind = .punctuation ∧ ∃ c, t.text = [c] ∧ isStop c := by
  obtain ⟨kind, text, pos⟩ := t
  have hno : ∀ {p : Char → Bool}, (∀ c, isStop c → p c = false) →
      text.getLast?.any p → False := by
    intro p hp hlast
    rw [EndsInStop] at hends
    cases hget : text.getLast? with
    | none => rw [hget] at hlast; cases hlast
    | some c =>
      rw [hget] at hlast hends
      rw [Option.any_some, hp c hends] at hlast
      cases hlast
  cases h with
  | @code _ _ _ c cs _ hscan =>
    cases scans_of_scanCode hscan with
    | whitespace hc hrun =>
      exact (hno (fun _ h => (isStop_class h).1)
        (getLast?_any_of_all (cons_ne_nil _ _) (all_cons_run hc hrun) [])).elim
    | var => exact (hno (fun _ h => (isStop_class h).2) (endFits_of_scanCode hscan)).elim
    | number hc hnumber =>
      refine (hno (fun c h => ?_)
        (getLast?_any_of_all (cons_ne_nil _ _) (all_number hc hnumber) [])).elim
      obtain rfl | rfl | rfl | rfl := isStop_iff.1 h <;> rfl
    | mark hop =>
      rcases mark_eq_or_mem hop with htext | hmem
      · obtain ⟨_, rfl⟩ := cons.inj htext
        exact ⟨rfl, c, rfl, hends⟩
      · have hall : ∀ op ∈ operators, op.getLast?.any isStop = false := by decide
        rw [EndsInStop, hall _ hmem] at hends
        cases hends
    | _ => cases ht

/-- Plain tokens up to a stop are read whatever follows, and leave nothing to remember. -/
theorem chain_before_any (h : Chain true b ts []) (hplain : ∀ t ∈ ts, t.isPlain)
    (hends : EndsInStop (serialize ts)) : Chain true b ts more ∧ ts.foldl Before.next b = {} := by
  induction ts generalizing b with
  | nil => cases hends
  | cons t ts ih =>
    have ht := hplain t mem_cons_self
    have hkinds : t.kind ≠ .openTag ∧ t.kind ≠ .inlineHtml ∧ t.kind ≠ .closeTag ∧
        t.kind ≠ .comment := by
      refine ⟨?_, ?_, ?_, ?_⟩ <;> intro hkind <;> simp [Token.isPlain, hkind] at ht
    obtain ⟨hopen, hhtml, hclose, hcomment⟩ := hkinds
    have hmode : inCodeAfter true t := by rwa [inCodeAfter_true, bne_iff_ne]
    obtain ⟨hread, htail⟩ := h
    rw [Chain, hmode]
    rw [hmode] at htail
    cases ts with
    | nil =>
      rw [serialize_cons, serialize_nil, append_nil] at hends
      obtain ⟨hkind, c, htext, hc⟩ := eq_stop_of_plain hread ht hends
      rw [hkind, htext] at hread
      simp only [foldl_cons, foldl_nil, Before.next, Token.isTrivia, Token.isPunct, hkind, htext]
      obtain rfl | rfl | rfl | rfl := isStop_iff.1 hc <;>
        exact ⟨⟨hread.of_ends (goesOn_mark (by decide) (by decide) (by decide) _), trivial⟩, rfl⟩
    | cons u us =>
      have hne : serialize (u :: us) ≠ [] := by
        rw [serialize_cons]
        exact append_ne_nil_of_left_ne_nil htail.1.text_ne_nil _
      have hends : EndsInStop (serialize (u :: us)) := by
        rwa [EndsInStop, serialize_cons, getLast?_append,
          Option.or_of_isSome (getLast?_isSome.2 hne)] at hends
      obtain ⟨hagain, hmemory⟩ := ih htail (fun v hv => hplain v (mem_cons_of_mem t hv)) hends
      refine ⟨⟨hread.of_ends_same ?_ (nextIs_append hne _ _), hagain⟩, hmemory⟩
      have hends' := hread.not_goesOn
      generalize serialize (u :: us) = text at hne hends hends'
      obtain _ | ⟨c, _ | ⟨d, text⟩⟩ := text
      · exact absurd rfl hne
      · exact goesOn_before _ more (.inr hends) ⟨hopen, hhtml, hclose⟩
          (fun _ => (isStop_class hends).1) fun hkind => absurd hkind hcomment
      · exact goesOn_ahead hread.text_ne_nil ⟨hopen, hhtml⟩ (by simp) hends'

/-- Code of variables, numbers, white space and marks that ends in a stop. -/
theorem lexes_of_endsInStop {pos : Nat} {cs : Text} (h : EndsInStop cs)
    (hlex : lexFrom true b pos cs = .ok ts) (hplain : ∀ t ∈ ts, t.isPlain) :
    Lexes b cs (fun us => (∀ t ∈ us, t.isPlain) ∧ serialize us = cs) {} more := by
  obtain rfl : serialize ts = cs := (lexFrom_tiles hlex).serialize_eq
  have hchain : Chain true b ts [] := chain_of_lexFrom (by rw [append_nil]; exact hlex)
  obtain ⟨hagain, hmemory⟩ := chain_before_any more hchain hplain h
  rw [← hmemory]
  refine (hagain.lexes fun t ht hkind => ?_).imp fun us hus => ⟨fun u hu => ?_, ?_⟩
  · have hplain := hplain t ht
    simp [Token.isPlain, hkind] at hplain
  · obtain ⟨t, ht, hshape⟩ := mem_map.1 (hus ▸ mem_map_of_mem hu)
    have hsame : t.isPlain = u.isPlain :=
      congrArg (fun x : Shape => (⟨x.1, x.2, 0⟩ : Token).isPlain) hshape
    rw [← hsame]
    exact hplain t ht
  · have htexts : ∀ xs : List Token, serialize xs = (xs.map Token.shape).flatMap Prod.snd := by
      intro xs
      rw [flatMap_map]
      rfl
    rw [htexts us, hus, ← htexts]

end Stops

/-- The tokens of an item. -/
def ItemTokens : Item → List Token → Prop
  | .enter head name gap =>
    Followed (Followed (Followed (HeadTokens head) (NameTokens name.text)) (Spaces gap.text))
      (Single .punctuation [';'])
  | .use head first more gap =>
    Followed (Followed (Followed (Followed (HeadTokens head) (ImportTokens first))
      (ImportsTokens more)) (Spaces gap.text)) (Single .punctuation [';'])
  | .reference r gap stop =>
    Followed (Followed (ReferenceTokens r) (Spaces gap.text)) (Single .punctuation [stop.val])
  | .code c => fun ts => (∀ t ∈ ts, t.isPlain = true) ∧ serialize ts = c.text

/-- Behind an item anything may follow. -/
theorem lexes_item (item : Item) (rest : Text) : Lexes {} item.text (ItemTokens item) {} rest := by
  cases item with
  | enter head name gap =>
    have hstop : nextIs isIdentChar ([';'] ++ rest) = false := rfl
    have hname := lexes_name name
      (nextIs_append_gap (fun _ => not_isIdentChar_of_isSpace) gap hstop)
    exact (((lexes_head head (nextIs_isSpace_name name _)).append hname).append
      (lexes_gap gap rfl)).append (lexes_stop rfl {} rest)
  | use head first more gap =>
    have hstop : nextIs isIdentChar ([';'] ++ rest) = false := rfl
    have hgap := nextIs_append_gap (fun _ => not_isIdentChar_of_isSpace) gap hstop
    have hfirst := lexes_import first (nextIs_append_importsText more hgap)
    exact ((((lexes_head head (nextIs_isSpace_import first _)).append hfirst).append
      (lexes_imports more hgap)).append (lexes_gap gap rfl)).append (lexes_stop rfl {} rest)
  | reference r gap stop =>
    have hstop := isStop_class stop.property
    obtain ⟨member, hreference⟩ := lexes_reference r
      (nextIs_append_gap (fun _ => not_isIdentChar_of_isSpace) gap
        (show nextIs isIdentChar ([stop.val] ++ rest) = false from hstop.2))
    have hgap : Lexes { member } gap.text (Spaces gap.text) { member } ([stop.val] ++ rest) :=
      lexes_spaces member gap.spaces hstop.1
    exact (hreference.append hgap).append (lexes_stop stop.property _ rest)
  | code c => exact lexes_of_endsInStop rest c.ends c.lexed c.plain

/-- No item starts with white space. -/
theorem nextIs_isSpace_item (item : Item) (rest : Text) :
    nextIs isSpace (item.text ++ rest) = false := by
  cases item with
  | enter head name gap | use head first more gap =>
    simp only [Item.text, append_assoc]
    exact nextIs_isSpace_head head _
  | reference r gap stop =>
    cases r <;> simp only [Item.text, Reference.text, append_assoc]
    case member | typed => exact nextIs_isSpace_name _ _
    all_goals exact nextIs_isSpace_head _ _
  | code c =>
    have hne : c.text ≠ [] := fun hnil => by
      have hends := c.ends
      rw [hnil] at hends
      cases hends
    show nextIs isSpace (c.text ++ rest) = false
    rw [nextIs_append hne rest [], append_nil]
    exact c.starts

/-- The tokens of items, each with the white space in front of it. -/
def ItemsTokens : List (Gap × Item) → List Token → Prop
  | [] => fun ts => ts = []
  | (gap, item) :: items =>
    Followed (Followed (Spaces gap.text) (ItemTokens item)) (ItemsTokens items)

theorem lexes_items (items : List (Gap × Item)) (rest : Text) :
    Lexes {} (itemsText items) (ItemsTokens items) {} rest := by
  induction items with
  | nil => exact .nil rfl
  | cons entry items ih =>
    obtain ⟨gap, item⟩ := entry
    have hgap := lexes_gap gap (nextIs_isSpace_item item (itemsText items ++ rest))
    exact (hgap.append (lexes_item item _)).append ih

theorem lexemes_script (u : Script) : ∃ ts, Followed (ItemsTokens u.items) (Spaces u.last.text) ts ∧
      lexemes u.text = .ok (⟨.openTag, longTag, 0⟩ :: ts) := by
  have hlast : Lexes {} u.last.text (Spaces u.last.text) {} [] := lexes_gap u.last rfl
  obtain ⟨ts, hts, hlex⟩ := (lexes_items u.items _).append hlast 6
  refine ⟨ts, hts, ?_⟩
  rw [append_nil] at hlex
  rw [Script.text, append_assoc, lexemes_longTag, hlex, lexFrom]
  simp [Except.map]

end LegacyPhp.Grammar
