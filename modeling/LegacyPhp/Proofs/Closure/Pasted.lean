import LegacyPhp.Proofs.Closure.Shapes
import Mathlib.Data.List.DropRight

/-!
# Lifted code is code

What closure extraction makes of a unit is read again. A unit is cut behind its first open tag and
at its literals (`dissect`). `Laid` says how its stretches are read: in front of a literal the lexer
is in code and remembers nothing, and behind it as well (`laid_of_cut`). So a call can stand in
place of each literal (`Laid.readsAs`), and the parameters and the body of the literal can stand in
the named function (`readsAs_declaration`), where the places at which they meet the pasted code
allow it (`Parts.Pastable`).

`lexemes_lifted` puts this together. The text that comes out has the tokens of the unit with the
literals replaced, the class behind the first open tag and the named functions at the end, except
where that tag is the short one.
-/

namespace LegacyPhp

open Text Scan Closure LegacyPhp.Stream List

variable {path : Path} {source : Text} {e : Extraction} {tokens : List Token} {t : Token}
  {m : String} {inCode : Bool} {b : Before} {first ts : List Token}
  {literals : List (Literal × List Token)} {rest helper : Text} {l : Literal}

/-! ## Behind a mark -/

theorem next_of_isPunct (h : t.isPunct m)
    (hm : m.toList ≠ ['-', '>'] ∧ m.toList ≠ [':', ':'] ∧ m.toList ≠ ['\\']) (b : Before) :
    b.next t = {} := by
  have htrivia : t.isTrivia = false := Token.not_isTrivia_of_isPunct h
  have htext := text_of_isPunct h
  simp [Before.next, htrivia, Token.isPunct, htext, hm]

theorem kind_of_isClosing (h : t.isClosing) :
    t.kind = .punctuation ∧ t.text ≠ ['\\'] ∧ ∀ b : Before, b.next t = {} := by
  simp only [Token.isClosing, Bool.or_eq_true] at h
  rcases h with (h | h) | h <;>
    exact ⟨eq_of_beq (Bool.and_eq_true_iff.1 h).1, by rw [text_of_isPunct h]; decide,
      next_of_isPunct h (by decide)⟩

namespace Chain

variable {xs ys marked : List Token}

theorem of_marked (hmarked : Marked (·.isPunct m) marked)
    (hm : m.toList ≠ ['-', '>'] ∧ m.toList ≠ [':', ':'] ∧ m.toList ≠ ['\\'])
    (h : Chain inCode b (xs ++ marked ++ ys) rest) : Chain true {} ys rest := by
  obtain ⟨gap, t, rfl, _, ht⟩ := hmarked
  rw [← append_assoc, append_assoc, singleton_append] at h
  have hkind : t.kind = .punctuation := eq_of_beq (Bool.and_eq_true_iff.1 ht).1
  obtain ⟨hread, hys⟩ := (append_iff.1 h).2
  have hmode := hread.inCode_eq (by simp [hkind])
  rw [hmode, inCodeAfter_true, next_of_isPunct ht hm, hkind] at hys
  exact hys

/-- A mark and the trivia before it are read in code, and start with no separator. -/
theorem before_marked (hmarked : Marked (·.isPunct m) marked) (hm : m.toList ≠ ['\\'])
    (h : Chain inCode b (marked ++ ys) rest) :
    inCode ∧ nextIs (· == '\\') (serialize (marked ++ ys) ++ rest) = false := by
  obtain ⟨gap, t, rfl, hgap, ht⟩ := hmarked
  cases gap with
  | nil =>
    have hkind : t.kind = .punctuation := eq_of_beq (Bool.and_eq_true_iff.1 ht).1
    refine ⟨h.1.inCode_eq (by simp [hkind]), ?_⟩
    have hsep := h.1.nextIs_separator (by simp [hkind])
      (.inr (by rw [text_of_isPunct ht]; exact hm))
    rwa [← append_assoc, ← serialize_cons] at hsep
  | cons g gap =>
    have htrivia : g.kind.isTrivia := hgap g mem_cons_self
    have hkind : g.kind ≠ .openTag ∧ g.kind ≠ .inlineHtml ∧ g.kind ≠ .punctuation := by
      refine ⟨?_, ?_, ?_⟩ <;> (intro heq; rw [heq] at htrivia; cases htrivia)
    refine ⟨h.1.inCode_eq ⟨hkind.1, hkind.2.1⟩, ?_⟩
    have hsep := h.1.nextIs_separator hkind.2.1 (.inl hkind.2.2)
    rwa [← append_assoc, ← serialize_cons] at hsep

theorem of_isClosing (h : Chain true b xs rest)
    (hclosing : ∀ t ∈ xs.head?, t.isClosing) : Chain true {} xs rest := by
  cases xs with
  | nil => trivial
  | cons t xs =>
    obtain ⟨hkind, _, hnext⟩ := kind_of_isClosing (hclosing t rfl)
    refine ⟨?_, by rw [hnext]; exact hnext b ▸ h.2⟩
    have hread := h.1
    rw [hkind] at hread ⊢
    exact hread.of_ends hread.not_goesOn

end Chain

namespace Closure

theorem declarations_cons (c : LiftedClosure) (closures : List LiftedClosure) (rest : Text) :
    declarations (c :: closures) ++ rest =
      '\n' :: '\n' :: (c.declaration ++ (declarations closures ++ rest)) := by
  simp [declarations]

/-! ## The parts of a literal in its unit -/

/-- The parts of a literal can be read where its parentheses and braces stand. -/
structure Parts.Readable (p : Parts) : Prop where
  params : ∃ rest, Chain true {} p.params rest ∧ nextIs (· == '\\') rest = false
  params_code : p.params.foldl inCodeAfter true = true
  body : ∃ rest, Chain true {} p.body rest ∧ nextIs (· == '\\') rest = false

namespace Literal

variable {after : List Token}

theorem chain_params (h : Chain inCode b (l.tokens ++ after) []) :
    (∃ rest, Chain true {} l.params rest ∧ nextIs (· == '\\') rest = false) ∧
      l.params.foldl inCodeAfter true = true := by
  have hsplit : l.tokens ++ after = (l.keyword :: l.reference) ++ l.opening ++ (l.params ++
      (l.closing ++
        (clauseTokens l.clause ++ l.bodyOpening ++ l.body ++ l.bodyClosing ++ after))) := by
    simp [tokens, tail]
  rw [hsplit] at h
  obtain ⟨hparams, hclosing⟩ := Chain.append_iff.1 (h.of_marked l.opening_marked (by decide))
  obtain ⟨hmode, hsep⟩ := hclosing.before_marked l.closing_marked (by decide)
  exact ⟨⟨_, hparams, hsep⟩, hmode⟩

theorem chain_behind (h : Chain inCode b (l.tokens ++ after) []) :
    Chain true {} (l.body ++ (l.bodyClosing ++ after)) [] := by
  have hsplit : l.tokens ++ after = (l.keyword :: (l.reference ++ l.opening ++ l.params ++
      l.closing ++ clauseTokens l.clause)) ++ l.bodyOpening ++
      (l.body ++ (l.bodyClosing ++ after)) := by
    simp [tokens, tail]
  rw [hsplit] at h
  exact h.of_marked l.bodyOpening_marked (by decide)

theorem chain_body (h : Chain inCode b (l.tokens ++ after) []) (hends : l.EndsBefore after)
    (hcode : l.body.foldl inCodeAfter true = true) :
    (∃ rest, Chain true {} l.body rest ∧ nextIs (· == '\\') rest = false) ∧
      Chain true {} after [] := by
  have hbehind := chain_behind h
  obtain ⟨hbody, hrest⟩ := Chain.append_iff.1 hbehind
  rw [hcode] at hrest
  rcases l.bodyClosing_marked with hempty | hmarked
  · -- the brace is left out, and the unit ends or another bracket closes
    rw [hempty, nil_append] at hbody hrest
    have hclosing : ∀ t ∈ after.head?, t.isClosing := fun t ht => (hends hempty t ht).1
    refine ⟨⟨_, hbody, ?_⟩, hrest.of_isClosing hclosing⟩
    cases after with
    | nil => rfl
    | cons t after =>
      obtain ⟨hkind, htext, _⟩ := kind_of_isClosing (hclosing t rfl)
      have hsep := hrest.1.nextIs_separator (by simp [hkind]) (.inr htext)
      rwa [← append_assoc, ← serialize_cons] at hsep
  · refine ⟨⟨_, hbody, (hrest.before_marked hmarked (by decide)).2⟩, ?_⟩
    rw [← append_assoc] at hbehind
    exact hbehind.of_marked hmarked (by decide)

theorem readable (h : Chain inCode b (l.tokens ++ after) []) (hends : l.EndsBefore after)
    (hcode : l.body.foldl inCodeAfter true = true) : l.parts.Readable :=
  ⟨(chain_params h).1, (chain_params h).2, (chain_body h hends hcode).1⟩

end Literal

/-- The text of the literals, each with the tokens that follow it. -/
def remaining (literals : List (Literal × List Token)) : Text :=
  literals.flatMap fun q => serialize q.1.tokens ++ serialize q.2

/-- The stretches of a cut are read one after the other. In front of a literal the lexer is in code
and remembers nothing, and behind it too. -/
def Laid (inCode : Bool) (b : Before) (first : List Token) : List (Literal × List Token) → Prop
  | [] => Chain inCode b first []
  | (l, stretch) :: more =>
    Chain inCode b first (remaining ((l, stretch) :: more)) ∧
      first.foldl inCodeAfter inCode = true ∧ first.foldl Before.next b = {} ∧
      nextIs Char.isAlpha (remaining ((l, stretch) :: more)) ∧ l.parts.Readable ∧
      Laid true {} stretch more

theorem Laid.cons {inCode : Bool} {b : Before} {t : Token} {first : List Token}
    {literals : List (Literal × List Token)}
    (hread : Reads inCode b t.kind t.text (serialize first ++ remaining literals))
    (h : Laid (inCodeAfter inCode t) (b.next t) first literals) :
    Laid inCode b (t :: first) literals := by
  cases literals with
  | nil => exact ⟨hread, h⟩
  | cons q more => exact ⟨⟨hread, h.1⟩, h.2⟩

theorem laid_of_cut (hcut : Cut ts first literals) (h : Chain inCode b ts [])
    (hcode : ∀ q ∈ literals, q.1.body.foldl inCodeAfter true = true) :
    Laid inCode b first literals := by
  induction hcut generalizing inCode b with
  | nil => trivial
  | token _ hrest ih =>
    have hread := h.1
    rw [append_nil, hrest.serialize_eq] at hread
    exact .cons hread (ih h.2 hcode)
  | @literal l rest first literals hstarts hends hrest ih =>
    have hbody := hcode _ mem_cons_self
    have hkind : l.keyword.kind = .keyword .functionKw :=
      eq_of_beq (Bool.and_eq_true_iff.1 hstarts).1
    have hread : Reads inCode b (.keyword .functionKw) l.keyword.text _ := hkind ▸ h.1
    refine ⟨trivial, hread.inCode_eq (by simp), hread.keyword_eq.1, ?_,
      l.readable h hends hbody, ih (l.chain_body h hends hbody).2 fun q hq =>
        hcode q (mem_cons_of_mem _ hq)⟩
    have halpha := hread.nextIs_alpha
    obtain ⟨c, text, htext⟩ := exists_cons_of_ne_nil hread.text_ne_nil
    rw [remaining, flatMap_cons, Literal.tokens, serialize_cons, htext]
    rwa [htext] at halpha

/-! ## The named function -/

/-- A token of white space. -/
def isWhite (t : Token) : Bool := t.kind == .whitespace

/-- The tokens without the white space around them. -/
def core (ts : List Token) : List Token := (ts.dropWhile isWhite).rdropWhile isWhite

/-- The parts are read in the named function and in the call as they are read in the literal:
trimming the parameters takes white space off them and nothing else, they end before a parenthesis,
what is captured are variables, and the body ends in code and before a brace. -/
structure Parts.Pastable (p : Parts) : Prop where
  params : trim (serialize p.params) = serialize (core p.params)
  params_end : endsBefore (core p.params) [')']
  captures : ∀ capture ∈ p.captures, isCapture capture
  body_code : p.body.foldl inCodeAfter true = true
  body_end : endsBefore p.body ['}']

instance (p : Parts) : Decidable p.Pastable :=
  decidable_of_iff (trim (serialize p.params) = serialize (core p.params) ∧
      endsBefore (core p.params) [')'] ∧ (∀ capture ∈ p.captures, isCapture capture) ∧
      p.body.foldl inCodeAfter true = true ∧ endsBefore p.body ['}'] = true)
    ⟨fun ⟨h₁, h₂, h₃, h₄, h₅⟩ => ⟨h₁, h₂, h₃, h₄, h₅⟩,
      fun ⟨h₁, h₂, h₃, h₄, h₅⟩ => ⟨h₁, h₂, h₃, h₄, h₅⟩⟩

/-- The tokens of the named function. -/
def Parts.declarationShapes (name : Text) (p : Parts) : List Shape :=
  (.keyword .functionKw, "function".toList) :: ((if p.byRef then [mark "&"] else []) ++
    [(.identifier, name), mark "("] ++
    [mark ","].intercalate (p.captures.map captureShapes ++
      if (core p.params).isEmpty then [] else [significant p.params]) ++
    [mark ")", mark "\x7b"] ++ significant p.body ++ [mark "\x7d"])

theorem core_split (ts : List Token) :
    ∃ before after, ts = before ++ (core ts ++ after) ∧ (∀ t ∈ before, isWhite t) ∧
      ∀ t ∈ after, isWhite t := by
  refine ⟨ts.takeWhile isWhite, (ts.dropWhile isWhite).rtakeWhile isWhite, ?_, ?_, ?_⟩
  · rw [core, rdropWhile_append_rtakeWhile, takeWhile_append_dropWhile]
  · exact fun t ht => mem_takeWhile_imp ht
  · exact fun t ht => mem_rtakeWhile_imp ht

theorem foldl_white (h : ∀ t ∈ ts, isWhite t) (inCode : Bool) :
    ts.foldl inCodeAfter inCode = inCode ∧ ts.foldl Before.next {} = {} ∧ significant ts = [] := by
  induction ts with
  | nil => exact ⟨rfl, rfl, rfl⟩
  | cons t ts ih =>
    have hkind : t.kind = .whitespace := eq_of_beq (h t mem_cons_self)
    have htrivia : t.isTrivia := by rw [Token.isTrivia, hkind]; rfl
    obtain ⟨hmode, hmemory, hshapes⟩ := ih fun u hu => h u (mem_cons_of_mem t hu)
    have hthis : inCodeAfter inCode t = inCode := by simp [inCodeAfter, hkind]
    have hnext : Before.next {} t = {} := by simp [Before.next, htrivia, Token.isPunct, hkind]
    refine ⟨by rw [foldl_cons, hthis, hmode], by rw [foldl_cons, hnext, hmemory], ?_⟩
    rw [significant_cons, htrivia, hshapes]
    rfl

/-- The parameters without the white space around them are read as they are read with it. -/
theorem Parts.Readable.core {p : Parts} (h : p.Readable) :
    (∃ rest, Chain true {} (core p.params) rest ∧ nextIs (· == '\\') rest = false) ∧
      (Closure.core p.params).foldl inCodeAfter true = true ∧
      significant p.params = significant (Closure.core p.params) := by
  obtain ⟨rest, hchain, hsep⟩ := h.params
  have hmode := h.params_code
  obtain ⟨before, after, hsplit, hbefore, hafter⟩ := core_split p.params
  generalize Closure.core p.params = inner at hsplit ⊢
  rw [hsplit] at hchain hmode ⊢
  obtain ⟨hfold, hmemory, hnone⟩ := foldl_white hbefore true
  have hinner := (Chain.append_iff.1 hchain).2
  rw [hfold, hmemory] at hinner
  obtain ⟨hinner, hend⟩ := Chain.append_iff.1 hinner
  refine ⟨⟨_, hinner, ?_⟩, ?_, ?_⟩
  · cases after with
    | nil => exact hsep
    | cons t after =>
      have hkind : t.kind = .whitespace := eq_of_beq (hafter t mem_cons_self)
      have hnext := hend.1.nextIs_separator (by simp [hkind]) (.inl (by simp [hkind]))
      rwa [← append_assoc, ← serialize_cons] at hnext
  · rwa [foldl_append, foldl_append, hfold, (foldl_white hafter _).1] at hmode
  · rw [significant_append, significant_append, hnone, (foldl_white hafter true).2.2,
      nil_append, append_nil]

/-- The named function is read as it is in front of a line break. -/
theorem readsAs_declaration {name : Text} {p : Parts} (hname : isIdent name)
    (hword : Keyword.ofWord? name = none) (hread : p.Readable) (hp : p.Pastable) {rest : Text}
    {shapes : List Shape}
    (hrest : nextIs (fun d => d.isDigit || d == '.' || d == '\\') rest = false)
    (hascii : ∀ d ∈ rest.take 2, d.toNat < 0x80) (h : ReadsAs true {} rest shapes) :
    ReadsAs true {} ((p.closure name).declaration ++ rest)
      (p.declarationShapes name ++ shapes) := by
  have hspace : [' '].all isSpace := rfl
  obtain ⟨body, hbody, hbodySep⟩ := hread.body
  obtain ⟨⟨params, hparams, hparamsSep⟩, hcode, hshapes⟩ := hread.core
  have hbraces : ReadsAs true {} (' ' :: '{' :: (serialize p.body ++ '}' :: rest))
      (mark "\x7b" :: (significant p.body ++ mark "\x7d" :: shapes)) :=
    .spaces hspace nofun (.stop rfl
      (readsAs_stopped rfl hbody hbodySep hp.body_end hp.body_code hrest hascii h))
  have hlist : ReadsAs true {}
      (join ", ".toList (p.captures ++ (p.closure name).ownParams) ++
        ')' :: ' ' :: '{' :: (serialize p.body ++ '}' :: rest))
      ([mark ","].intercalate (p.captures.map captureShapes ++
        if (core p.params).isEmpty then [] else [significant p.params]) ++
        mark ")" :: mark "\x7b" :: (significant p.body ++ mark "\x7d" :: shapes)) := by
    have hitems : ∀ capture ∈ p.captures, Item (id capture) (captureShapes capture) :=
      fun capture hcapture => item_capture (hp.captures capture hcapture)
    have hown : (p.closure name).ownParams =
        if (core p.params).isEmpty then [] else [serialize (core p.params)] := by
      rw [LiftedClosure.ownParams, Parts.closure, hp.params, hparams.isEmpty_serialize]
    rw [hown]
    split
    · have hparen : ReadsAs true {} (')' :: ' ' :: '{' :: _) (mark ")" :: _) := .stop rfl hbraces
      have hjoin := item_join hitems _ _ rfl hparen
      rw [map_id] at hjoin
      rw [append_nil, append_nil]
      exact hjoin
    · have hlast := readsAs_stopped (c := ')') rfl hparams hparamsSep hp.params_end hcode rfl
        (by simp) hbraces
      have hjoin := readsAs_join hitems hlast
      rw [map_id] at hjoin
      rw [hshapes]
      exact hjoin
  have hheader := ReadsAs.identifier (b := {}) hname hword rfl (.opening hlist)
  have hkeyword : Keyword.ofWord? "function".toList = some .functionKw := by decide
  have hbodyText : (p.closure name).body ++ rest = '{' :: (serialize p.body ++ '}' :: rest) := by
    simp [Parts.closure]
  rw [LiftedClosure.declaration_append, hbodyText]
  have hspaced : ReadsAs true {} (' ' :: _) _ :=
    .spaces hspace nofun (hheader.reference p.byRef hname)
  have hall := ReadsAs.keyword hkeyword rfl rfl hspaced
  simp only [Parts.declarationShapes, append_assoc, cons_append, nil_append]
  exact hall

/-! ## The text with the literals replaced -/

/-- The last stretch of a cut. -/
def lastStretch (first : List Token) : List (Parts × List Token) → List Token
  | [] => first
  | (_, stretch) :: parts => lastStretch stretch parts

/-- The tokens of the calls that stand in place of the literals, and of the stretches between. -/
def replacedShapes (helper stem : Text) (index : Nat) : List (Parts × List Token) → List Shape
  | [] => []
  | (p, stretch) :: parts =>
    (p.closure (ClosureTable.nameAt stem index)).callShapes helper ++
      (significant stretch ++ replacedShapes helper stem (index + 1) parts)

/-- The tokens of the named functions. -/
def declarationsShapes (stem : Text) (index : Nat) : List (Parts × List Token) → List Shape
  | [] => []
  | (p, _) :: parts =>
    p.declarationShapes (ClosureTable.nameAt stem index) ++
      declarationsShapes stem (index + 1) parts

section

theorem Laid.readable (h : Laid inCode b first literals) : ∀ q ∈ literals, q.1.parts.Readable := by
  induction literals generalizing inCode b first with
  | nil => exact fun q hq => absurd hq not_mem_nil
  | cons q more ih =>
    intro r hr
    rcases mem_cons.1 hr with rfl | hr
    · exact h.2.2.2.2.1
    · exact ih h.2.2.2.2.2 r hr

theorem Laid.last (h : Laid true {} first literals) :
    Chain true {} (lastStretch first (partsOf literals)) [] ∧
      (lastStretch first (partsOf literals)).foldl inCodeAfter true =
        (outside first literals).foldl inCodeAfter true := by
  induction literals generalizing first with
  | nil => exact ⟨h, by simp [outside, partsOf, lastStretch]⟩
  | cons q more ih =>
    obtain ⟨_, hcode, _, _, _, hmore⟩ := h
    obtain ⟨hlast, hfold⟩ := ih hmore
    refine ⟨hlast, hfold.trans ?_⟩
    simp only [outside, flatMap_cons, foldl_append, hcode]

/-- A call is read as it is wherever the literal stood. -/
theorem readsAs_replacement {name : Text} (hhelper : isIdent helper)
    (hname : isIdent name) (hread : l.parts.Readable) (hp : l.parts.Pastable)
    {shapes : List Shape} (h : ReadsAs true {} rest shapes) :
    ReadsAs true {} ((l.closure name).call helper ++ rest)
      ((l.parts.closure name).callShapes helper ++ shapes) := by
  refine readsAs_call hhelper hname hp.captures (fun capture hcapture => ?_) ?_ h
  · change capture ∈ clauseCaptures l.clause at hcapture
    unfold clauseCaptures at hcapture
    cases hclause : l.clause with
    | none => rw [hclause] at hcapture; cases hcapture
    | some clause => rw [hclause] at hcapture; exact splitCaptures_not_blank hcapture
  · obtain ⟨params, hparams, _⟩ := hread.params
    refine forwardedArgsOf_plain fun t ht hkind => ?_
    obtain ⟨mode, memory, left, hvariable⟩ := hparams.reads_of_mem ht
    rw [hkind] at hvariable
    exact hvariable.variable_plain

theorem Laid.readsAs (path : Path) (h : Laid true {} first literals) (hhelper : isIdent helper)
    (hp : ∀ q ∈ literals, q.1.parts.Pastable)
    (hascii : (∀ t ∈ outside first literals, t.kind = .openTag → 3 < t.text.length) ∨
      ∀ c ∈ helper.take 2, c.toNat < 0x80) (index : Nat) {tail : Text} {shapes : List Shape}
    (htail : ReadsAs true {} (serialize (lastStretch first (partsOf literals)) ++ tail)
      (significant (lastStretch first (partsOf literals)) ++ shapes)) :
    ReadsAs true {}
      (serialize first ++ (replaced helper (ClosureTable.stemOf path) index literals ++ tail))
      (significant first ++
        (replacedShapes helper (ClosureTable.stemOf path) index (partsOf literals) ++ shapes)) := by
  induction literals generalizing first index with
  | nil => exact htail
  | cons q more ih =>
    obtain ⟨l, stretch⟩ := q
    obtain ⟨hchain, hcode, hmemory, halpha, hread, hmore⟩ := h
    have houtside : (∀ t ∈ outside stretch more, t.kind = .openTag → 3 < t.text.length) ∨
        ∀ c ∈ helper.take 2, c.toNat < 0x80 := by
      refine hascii.imp_left fun hlong t ht => hlong t ?_
      rw [outside, flatMap_cons]
      exact mem_append_right _ ht
    have hrest := ih hmore (fun r hr => hp r (mem_cons_of_mem _ hr)) houtside (index + 1) htail
    have hcall := readsAs_replacement hhelper (isIdent_nameAt path index) hread
      (hp _ mem_cons_self) hrest
    obtain ⟨text, htext⟩ := LiftedClosure.call_append helper
      (l.closure (ClosureTable.nameAt (ClosureTable.stemOf path) index))
      (serialize stretch ++ (replaced helper (ClosureTable.stemOf path) (index + 1) more ++ tail))
    rw [htext] at hcall
    have hagain : Chain true {} first (helper ++ ':' :: text) := by
      refine hchain.before_word halpha hcode hhelper (hascii.imp (fun hlong t ht =>
        hlong t (mem_append_left _ ht)) (take_two_append ?_))
      rintro rfl
      cases hhelper
    have hall := ReadsAs.of_chain hagain (by rw [hcode, hmemory]; exact hcall)
    rw [← htext] at hall
    have hparts : partsOf ((l, stretch) :: more) = (l.parts, stretch) :: partsOf more := rfl
    rw [hparts, replaced, replacedShapes]
    simp only [append_assoc]
    exact hall

/-- The named functions are read one after the other. -/
theorem readsAs_declarations (path : Path) (hread : ∀ q ∈ literals, q.1.parts.Readable)
    (hp : ∀ q ∈ literals, q.1.parts.Pastable) (index : Nat) (hb : b.member = false) :
    ReadsAs true b
      (declarations (closuresOf (ClosureTable.stemOf path) index literals) ++ ['\n'])
      (declarationsShapes (ClosureTable.stemOf path) index (partsOf literals)) := by
  have hbreak : ['\n'].all isSpace := rfl
  have hbreaks : ['\n', '\n'].all isSpace := rfl
  obtain ⟨member, separator⟩ := b
  obtain rfl : member = false := hb
  induction literals generalizing index separator with
  | nil =>
    change ReadsAs true _ (['\n'] ++ []) []
    exact .spaces hbreak (by simp) (.nil true _)
  | cons q more ih =>
    obtain ⟨l, stretch⟩ := q
    have hlater := ih (fun r hr => hread r (mem_cons_of_mem _ hr))
      (fun r hr => hp r (mem_cons_of_mem _ hr)) (index + 1) false
    have hthis := readsAs_declaration (isIdent_nameAt path index) (ofWord?_nameAt path index)
      (hread _ mem_cons_self) (hp _ mem_cons_self) (by cases more <;> rfl)
      (by cases more <;> simp [declarations, closuresOf]) hlater
    have hparts : partsOf ((l, stretch) :: more) = (l.parts, stretch) :: partsOf more := rfl
    rw [hparts, declarationsShapes, closuresOf, declarations, flatMap_cons, append_assoc,
      append_assoc]
    exact .spaces hbreaks (by simp) hthis

/-- The class, the code with its literals replaced, and the named functions. -/
theorem readsAs_lifted (path : Path) (h : Laid true {} first literals) (hne : literals ≠ [])
    (hhelper : isIdent helper) (hp : ∀ q ∈ literals, q.1.parts.Pastable)
    (hquiet : (outside first literals).foldl inCodeAfter true = true →
      quietEnd (lastStretch first (partsOf literals)))
    (hascii : (∀ t ∈ outside first literals, t.kind = .openTag → 3 < t.text.length) ∨
      ∀ c ∈ helper.take 2, c.toNat < 0x80) :
    ReadsAs true {}
      (closureHelperSource helper ++ '\n' :: (serialize first ++
        (replaced helper (ClosureTable.stemOf path) 0 literals ++
          ((if (outside first literals).foldl inCodeAfter true then [] else "<?php\n".toList) ++
            (declarations (closuresOf (ClosureTable.stemOf path) 0 literals) ++ ['\n'])))))
      (classShapes helper ++ (significant first ++
        (replacedShapes helper (ClosureTable.stemOf path) 0 (partsOf literals) ++
          ((if (outside first literals).foldl inCodeAfter true then []
              else [(.openTag, "<?php\n".toList)]) ++
            declarationsShapes (ClosureTable.stemOf path) 0 (partsOf literals))))) := by
  have hbreak : ['\n'].all isSpace := rfl
  obtain ⟨hlast, hfold⟩ := h.last
  have hdeclarations : ∀ b : Before, b.member = false → ReadsAs true b
      (declarations (closuresOf (ClosureTable.stemOf path) 0 literals) ++ ['\n'])
      (declarationsShapes (ClosureTable.stemOf path) 0 (partsOf literals)) := fun b hb =>
    readsAs_declarations path h.readable hp 0 hb
  refine readsAs_class hhelper (.spaces hbreak nofun (h.readsAs path hhelper hp hascii 0 ?_))
  cases hcode : (outside first literals).foldl inCodeAfter true with
  | false =>
    exact readsAs_reopened hlast (hfold.trans hcode) (hdeclarations {} rfl)
  | true =>
    obtain ⟨more, htext, hmore⟩ : ∃ more,
        declarations (closuresOf (ClosureTable.stemOf path) 0 literals) ++ ['\n'] =
          '\n' :: '\n' :: more ∧ ∀ c ∈ more.take 2, c.toNat < 0x80 := by
      obtain ⟨q, more, rfl⟩ := exists_cons_of_ne_nil hne
      refine ⟨_, declarations_cons _ _ _, ?_⟩
      rw [LiftedClosure.declaration_append]
      simp
    rw [htext] at hdeclarations ⊢
    exact readsAs_break hlast (hfold.trans hcode) (hquiet hcode) hmore hdeclarations

end

/-! ## A unit and what is made of it -/

/-- A unit cut behind its first open tag and at its closure literals. -/
structure Dissected where
  /-- The tokens through the first open tag. -/
  head : List Token
  /-- The tokens before the first literal. -/
  code : List Token
  /-- The parts of each literal with the tokens that follow it. -/
  parts : List (Parts × List Token)

/-- Cuts a unit. -/
def dissect (tokens : List Token) : Dissected where
  head := (throughOpenTag tokens).1
  code := (cut (throughOpenTag tokens).2).1
  parts := (cut (throughOpenTag tokens).2).2

namespace Dissected

/-- The tokens behind the first open tag that belong to no literal. -/
def between (d : Dissected) : List Token := d.code ++ d.parts.flatMap Prod.snd

theorem between_eq {d : Dissected} (h : partsOf literals = d.parts) :
    d.between = outside d.code literals := by
  rw [between, ← h, partsOf, flatMap_map]
  rfl

/-- Whether the unit ends in code. -/
def endsInCode (d : Dissected) : Bool := d.between.foldl inCodeAfter true

/-- The unit can be put together from what is lifted and what is left. The end of the unit counts if
it is code: neither an arrow nor an open tag without its white space may stand there. A short open
tag needs two characters behind it to be told from a long one, and the name of the class may follow
it. -/
structure Pastable (helper : Text) (d : Dissected) : Prop where
  helper_ident : isIdent helper
  parts : ∀ q ∈ d.parts, q.1.Pastable
  quiet : d.endsInCode → quietEnd (lastStretch d.code d.parts)
  ascii : (∀ t ∈ d.between, t.kind = .openTag → 3 < t.text.length) ∨
    ∀ c ∈ helper.take 2, c.toNat < 0x80

instance (helper : Text) (d : Dissected) : Decidable (d.Pastable helper) :=
  decidable_of_iff (isIdent helper ∧ (∀ q ∈ d.parts, q.1.Pastable) ∧
      (d.endsInCode → quietEnd (lastStretch d.code d.parts)) ∧
      ((∀ t ∈ d.between, t.kind = .openTag → 3 < t.text.length) ∨
        (helper.take 2).all (·.toNat < 0x80)))
    ⟨fun ⟨h₁, h₂, h₃, h₄⟩ => ⟨h₁, h₂, h₃, h₄.imp_right forall_mem_of_all⟩,
      fun ⟨h₁, h₂, h₃, h₄⟩ => ⟨h₁, h₂, h₃, h₄.imp_right fun h =>
        all_eq_true.2 fun c hc => decide_eq_true (h c hc)⟩⟩

/-- The tokens behind the first open tag: the class, the code with calls in place of the literals,
and the named functions, behind a new open tag if the unit does not end in code. -/
def codeShapes (path : Path) (helper : Text) (d : Dissected) : List Shape :=
  significant (codeTokens (closureHelperSource helper)) ++
    (significant d.code ++ (replacedShapes helper (ClosureTable.stemOf path) 0 d.parts ++
      ((if d.endsInCode then [] else [(.openTag, "<?php\n".toList)]) ++
        declarationsShapes (ClosureTable.stemOf path) 0 d.parts)))

/-- The tokens of the unit with its closures lifted. -/
def shapes (path : Path) (helper : Text) (d : Dissected) : List Shape :=
  significant d.head ++ d.codeShapes path helper

end Dissected

theorem extractClosures_dissect (h : extractClosures path helper source = .ok e)
    (hlex : lexemes source = .ok tokens) :
    ∃ literals, Cut (throughOpenTag tokens).2 (dissect tokens).code literals ∧
      partsOf literals = (dissect tokens).parts ∧
      e.table = ⟨ClosureTable.stemOf path, closuresOf (ClosureTable.stemOf path) 0 literals⟩ ∧
      (literals ≠ [] → e.text = serialize (dissect tokens).head ++ (closureHelperSource helper ++
        '\n' :: (serialize (dissect tokens).code ++
          (replaced helper (ClosureTable.stemOf path) 0 literals ++
            ((if (dissect tokens).endsInCode then [] else "<?php\n".toList) ++
              (declarations e.table.entries ++ ['\n'])))))) := by
  obtain ⟨_, r, hlex', hr, rfl⟩ := extractClosures_eq_ok h
  cases hlex.symm.trans hlex'
  obtain ⟨literals, hcut, hparts, hclosures, htext, hcode⟩ := liftAll_eq_cut hr
  refine ⟨literals, hcut, hparts, by rw [← hclosures], fun hne => ?_⟩
  have hsome : r.closures.isEmpty = false := by
    obtain ⟨q, more, rfl⟩ := exists_cons_of_ne_nil hne
    rw [hclosures]
    rfl
  have hbetween := Dissected.between_eq (d := dissect tokens) hparts
  have hmode : r.inCode = (dissect tokens).endsInCode := by
    rw [hcode, Dissected.endsInCode, hbetween]
    rfl
  rw [← hmode]
  simp only [assemble, hsome, htext, dissect, append_assoc]
  rfl

end Closure

/-- The first open tag of a unit with closures, and what stands behind it when they are lifted. -/
theorem extracted_code (h : extractClosures path helper source = .ok e)
    (hsome : e.table.entries ≠ []) (hlex : lexemes source = .ok tokens)
    (hpaste : (dissect tokens).Pastable helper) :
    ∃ html tag rest more, (dissect tokens).head = html ++ [tag] ∧ tag.kind = .openTag ∧
      (∀ t ∈ html, t.kind = .inlineHtml) ∧ Chain false {} (html ++ [tag]) rest ∧ rest ≠ [] ∧
      e.text = serialize (html ++ [tag]) ++ (closureHelperSource helper ++ more) ∧
      ReadsAs true {} (closureHelperSource helper ++ more)
        ((dissect tokens).codeShapes path helper) := by
  obtain ⟨literals, hcut, hparts, htable, htext⟩ := extractClosures_dissect h hlex
  have hne : literals ≠ [] := by
    rintro rfl
    rw [htable] at hsome
    exact hsome rfl
  rcases lexemes_throughOpenTag hlex with ⟨hnone, _⟩ | ⟨html, tag, hhead, htag, hhtml⟩
  · exact absurd (Cut.parts_of_nil (hnone ▸ hcut)) hne
  have hwhole := chain_of_lexemes hlex
  rw [← throughOpenTag_append tokens, hhead] at hwhole
  obtain ⟨hbefore, hbehind⟩ := Chain.append_iff.1 hwhole
  rw [(foldl_openTag htag html false {}).1, (foldl_openTag htag html false {}).2] at hbehind
  have hp : ∀ q ∈ literals, q.1.parts.Pastable := fun q hq =>
    hpaste.parts (q.1.parts, q.2) (hparts ▸ mem_map_of_mem hq)
  have hlaid := laid_of_cut hcut hbehind fun q hq => (hp q hq).body_code
  have hbetween := Dissected.between_eq hparts
  have hread := readsAs_lifted path hlaid hne hpaste.helper_ident hp
    (hbetween ▸ hparts ▸ hpaste.quiet) (hbetween ▸ hpaste.ascii)
  rw [← codeTokens_class hpaste.helper_ident, ← hbetween, hparts] at hread
  have htext := htext hne
  rw [htable, show (dissect tokens).head = html ++ [tag] from hhead] at htext
  refine ⟨html, tag, _, _, hhead, htag, hhtml, hbefore, fun hnil => ?_, htext, hread⟩
  rw [append_nil, ← List.isEmpty_iff, hbehind.isEmpty_serialize, List.isEmpty_iff] at hnil
  exact hne (Cut.parts_of_nil (hnil ▸ hcut))

theorem lexemes_of_pastable (h : extractClosures path helper source = .ok e)
    (hsome : e.table.entries ≠ []) (hlex : lexemes source = .ok tokens)
    (hpaste : (dissect tokens).Pastable helper)
    (hshort : ∀ tag ∈ (dissect tokens).head.getLast?, tag.text ≠ "<?".toList) :
    ∃ out, lexemes e.text = .ok out ∧ significant out = (dissect tokens).shapes path helper := by
  obtain ⟨html, tag, rest, more, hhead, htag, _, hchain, hrest, htext, hread⟩ :=
    extracted_code h hsome hlex hpaste
  obtain ⟨hword, hascii, _⟩ := nextIs_class helper more
  have hall := readsAs_head hchain htag hrest (hshort tag (by rw [hhead, getLast?_concat]; rfl))
    hword hascii hread
  rw [← htext, ← hhead] at hall
  exact hall 0

/-- Lifted code is code, unless the class follows a short open tag. Where the parts of the literals
can be pasted, the text is read again, as the tokens of the unit with calls in place of the
literals, the class behind the first open tag and the named functions at the end, if that tag is not
`<?` alone, and only then: a short tag has to stand before white space, and the class takes its
place. -/
theorem lexemes_lifted {path : Path} {helper source : Text} {e : Extraction}
    {tokens : List Token} (h : extractClosures path helper source = .ok e)
    (hsome : e.table.entries ≠ []) (hlex : lexemes source = .ok tokens)
    (hpaste : (dissect tokens).Pastable helper) :
    (∃ out, lexemes e.text = .ok out ∧ significant out = (dissect tokens).shapes path helper) ↔
      ∀ tag ∈ (dissect tokens).head.getLast?, tag.text ≠ "<?".toList := by
  refine ⟨fun ⟨out, hout, hshapes⟩ tag htag hshort => ?_, lexemes_of_pastable h hsome hlex hpaste⟩
  obtain ⟨html, last, rest, more, hhead, hkind, hhtml, _, _, htext, _⟩ :=
    extracted_code h hsome hlex hpaste
  obtain rfl : last = tag := by
    rw [hhead, List.getLast?_concat] at htag
    exact Option.some.inj htag
  have htokens : significant [last] = [(.openTag, last.text)] := by
    simp [significant, Token.isTrivia, hkind, TokenKind.isTrivia]
  rw [Dissected.shapes, hhead, significant_append, htokens, List.append_assoc] at hshapes
  obtain ⟨memory, post, hserialize, hread⟩ :=
    (chain_of_lexemes hout).tag_of_significant hhtml hshapes
  -- the class stands right behind the tag, and it does not start with white space
  have hpost : post = closureHelperSource helper ++ more := by
    rw [(lexemes_tiles hout).serialize_eq, htext, serialize_append, serialize_cons, serialize_nil,
      List.append_nil, List.append_assoc] at hserialize
    exact (List.append_cancel_left (List.append_cancel_left hserialize)).symm
  rw [List.append_nil, hpost, hshort] at hread
  cases hread with
  | tag hafter => exact taken_ne_nil hafter (nextIs_class helper more).2.2 rfl

theorem lexemes_lifted_page :
    ∃ e tokens, extractClosures "p.php".toList "H".toList closurePage = .ok e ∧
      lexemes closurePage = .ok tokens ∧ (dissect tokens).parts.length = 2 ∧
      ∃ out, lexemes e.text = .ok out ∧
        significant out = (dissect tokens).shapes "p.php".toList "H".toList := by
  have hpage : (lexemes closurePage).toOption.any (fun tokens =>
      (dissect tokens).parts.length == 2 && decide ((dissect tokens).Pastable "H".toList) &&
        (dissect tokens).head.getLast?.all (·.text != "<?".toList)) := by decide +kernel
  obtain ⟨e, he, hpair⟩ := Option.map_eq_some_iff.1 extractClosures_closurePage
  obtain ⟨tokens, htokens, hall⟩ := (Option.any_eq_true _ _).1 hpage
  simp only [Bool.and_eq_true, beq_iff_eq, decide_eq_true_eq] at hall
  obtain ⟨⟨hlength, hpaste⟩, htag⟩ := hall
  have hok := eq_ok_of_toOption he
  have hlex := eq_ok_of_toOption htokens
  obtain ⟨_, hcount⟩ := Prod.mk.inj hpair
  have hsome : e.table.entries ≠ [] := fun hnil => by rw [hnil] at hcount; cases hcount
  refine ⟨e, tokens, hok, hlex, hlength,
    (lexemes_lifted hok hsome hlex hpaste).2 fun tag hmem => ?_⟩
  rw [hmem] at htag
  simpa using htag

end LegacyPhp
