import LegacyPhp.Proofs.Bundle.GlobalBlock
import LegacyPhp.Proofs.Bundle.Squeezed
import LegacyPhp.Proofs.Qualify.Reading

/-!
# Namespaces with and without braces

A namespace can be declared with braces around its code or without. The bundle leaves the braces of
a declaration out, so both forms should come out alike. The closing brace is told from others by a
stack of the braces that are open, and that works if every brace of the code reaches the stack:
`braced_alike`. It fails where an inclusion or an import takes a closing brace into its own text
(`braced_differs`).

The proof runs the two units side by side. Between the declaration and the closing brace they are in
the same state, but for one mark at the bottom of the stack (`UnitState.inside`,
`stepToken_inside`).
-/

namespace LegacyPhp.Bundle

open Text Scan Closure List

variable {ts : List Token} {text name gap : Text} {mark : Char}

/-! ## The directives of a code -/

/-- Whether every directive ends, and none at an opening brace. -/
def directivesEnd : Option Directive → List Shape → Bool
  | pending, [] => pending.isNone
  | pending, s :: rest =>
    !(pending.isSome && (unplaced s).isPunct "\x7b") && directivesEnd (pendingAfter pending s) rest

/-- Whether a directive reaches over a closing brace. -/
def takesClosing : Option Directive → List Shape → Bool
  | _, [] => false
  | pending, s :: rest =>
    (pending.isSome && (unplaced s).isPunct "\x7d") || takesClosing (pendingAfter pending s) rest

/-- Code for a namespace: without tags, without further namespaces, with its braces balanced and its
directives ended. -/
structure IsNamespaceCode (shapes : List Shape) : Prop where
  tags : ∀ s ∈ shapes, s.1 ≠ .closeTag
  namespaces : ∀ s ∈ shapes, s.1 ≠ .keyword .namespaceKw
  balanced : follow 0 (bracesOf (shapes.map unplaced)) = some 0
  ended : directivesEnd none shapes

instance (shapes : List Shape) : Decidable (IsNamespaceCode shapes) :=
  decidable_of_iff ((∀ s ∈ shapes, s.1 ≠ .closeTag) ∧ (∀ s ∈ shapes, s.1 ≠ .keyword .namespaceKw) ∧
      follow 0 (bracesOf (shapes.map unplaced)) = some 0 ∧ directivesEnd none shapes)
    ⟨fun ⟨htags, hspaces, hbalanced, hended⟩ => ⟨htags, hspaces, hbalanced, hended⟩,
      fun h => ⟨h.tags, h.namespaces, h.balanced, h.ended⟩⟩

/-! ## One token in both units -/

/-- The state inside a namespace with braces. -/
def UnitState.inside (s : UnitState) : UnitState := { s with braces := s.braces ++ [true] }

/-- The second verdict is the first one, inside a namespace with braces. -/
def Verdict.Inside : Verdict → Verdict → Prop
  | next s, next s' => s' = s.inside
  | stop b, stop b' => b' = b
  | fail b _, fail b' _ => b' = b
  | _, _ => False

theorem isPunct_congr {t t' : Token} (hkind : t'.kind = t.kind) (htext : t'.text = t.text)
    (mark : String) : t'.isPunct mark = t.isPunct mark := by
  unfold Token.isPunct
  rw [hkind, htext]

section

variable {u : UnitContext} {source : Text} {s : UnitState} {t t' : Token} {rest rest' : List Token}

/-- A token outside directives, if it is no close tag and closes no brace that is not open. -/
theorem plainToken_inside (hkind : t'.kind = t.kind) (htext : t'.text = t.text)
    (htag : t.kind ≠ .closeTag) (hfalse : s.braces.all (!·))
    (hclose : t.isPunct "\x7d" → s.braces ≠ []) :
    (plainToken s t rest).Inside (plainToken s.inside t' rest') := by
  have htag' : (t.kind == .closeTag) = false := beq_eq_false_iff_ne.2 htag
  unfold plainToken
  simp only [hkind, htext, htag', isPunct_congr hkind htext, Bool.false_eq_true, if_false]
  split
  · rfl
  split
  · rfl
  split
  · next hbrace =>
    -- the brace on top was opened by the code itself
    obtain ⟨top, braces, hbraces⟩ := exists_cons_of_ne_nil (hclose hbrace)
    rw [hbraces, all_cons, Bool.and_eq_true, Bool.not_eq_true'] at hfalse
    rw [hfalse.1] at hbraces
    simp only [UnitState.inside, hbraces]
    rfl
  split <;> rfl

/-- The effect of a directive, but for what a failure tells. -/
theorem runDirective_inside (hkind : t'.kind = t.kind) (htext : t'.text = t.text) (d : Directive) :
    ((runDirective { u with source } s.inside d t').1 = (runDirective u s d t).1.inside) ∧
      (runDirective { u with source } s.inside d t').2.isSome =
        (runDirective u s d t).2.isSome := by
  cases d with
  | enter =>
    simp only [runDirective, isPunct_congr hkind htext]
    cases t.isPunct "\x7b" <;> exact ⟨rfl, trivial⟩
  | use =>
    simp only [runDirective, isPunct_congr hkind htext]
    split <;> exact ⟨rfl, rfl⟩
  | inclusion word =>
    simp only [runDirective, inclusion, UnitState.inside, hkind]
    rcases Include.target? (trim s.collected) u.origin with ⟨_⟩ | ⟨_ | target⟩
    · exact ⟨rfl, rfl⟩
    · exact ⟨rfl, rfl⟩
    · simp only
      cases u.tree.isFile target with
      | false => exact ⟨rfl, rfl⟩
      | true =>
        simp only [if_true]
        rcases u.inlineFile target s.bundler with ⟨after, _ | f⟩ <;> exact ⟨rfl, rfl⟩

theorem significantToken_inside (hkind : t'.kind = t.kind) (htext : t'.text = t.text)
    (htag : t.kind ≠ .closeTag) (hfalse : s.braces.all (!·))
    (hclose : s.pending = none → t.isPunct "\x7d" → s.braces ≠ []) :
    (significantToken u s t rest).Inside
      (significantToken { u with source } s.inside t' rest') := by
  have htag' : (t.kind == .closeTag) = false := beq_eq_false_iff_ne.2 htag
  unfold significantToken
  have hpending : s.inside.pending = s.pending := rfl
  rw [hpending]
  cases hd : s.pending with
  | none => exact plainToken_inside hkind htext htag hfalse (hclose hd)
  | some d =>
    simp only [endsDirective, isPunct_congr hkind htext, hkind, htext, htag',
      Bool.false_eq_true, if_false]
    split
    · obtain ⟨hstate, hfailure⟩ := @runDirective_inside u source s t t' hkind htext d
      rcases hrun : runDirective u s d t with ⟨after, _ | f⟩
      · rw [hrun] at hstate hfailure
        rcases hrun' : runDirective { u with source } s.inside d t' with ⟨after', _ | f'⟩
        · rw [hrun'] at hstate
          show { after' with collected := [], pending := _ } = _
          rw [show after' = after.inside from hstate]
          rfl
        · rw [hrun'] at hfailure
          cases hfailure
      · rw [hrun] at hstate hfailure
        rcases hrun' : runDirective { u with source } s.inside d t' with ⟨after', _ | f'⟩
        · rw [hrun'] at hfailure
          cases hfailure
        · rw [hrun'] at hstate
          show after'.bundler = after.bundler
          rw [show after' = after.inside from hstate]
          rfl
    · rfl

/-- One token does the same in both units. -/
theorem stepToken_inside (hkind : t'.kind = t.kind) (htext : t'.text = t.text)
    (hrest : dropsPublic rest' = dropsPublic rest) (htag : t.kind ≠ .closeTag)
    (hfalse : s.braces.all (!·))
    (hclose : s.pending = none → t.isPunct "\x7d" → s.braces ≠ []) :
    (stepToken u s t rest).Inside (stepToken { u with source } s.inside t' rest') := by
  have hrole : role { u with source }.options s.inside.bundler t' rest' =
      role u.options s.bundler t rest := by
    unfold role
    rw [hkind, htext, hrest]
    rfl
  rw [stepToken_eq, stepToken_eq, hrole]
  cases role u.options s.bundler t rest with
  | blank =>
    have hsame : s.inside.pending = s.pending := rfl
    simp only [hsame]
    by_cases hpending : s.pending.isSome
    · rw [if_pos hpending, if_pos hpending]
      rfl
    · rw [if_neg hpending, if_neg hpending]
      rfl
  | banner =>
    simp only [htext]
    rfl
  | significant => exact significantToken_inside hkind htext htag hfalse hclose
  | _ => rfl

/-! ## The code of both units -/

/-- What is known in the middle of the code of a namespace, with `shapes` to come. -/
structure UnitState.Within (s : UnitState) (shapes : List Shape) : Prop where
  tags : ∀ x ∈ shapes, x.1 ≠ .closeTag
  namespaces : ∀ x ∈ shapes, x.1 ≠ .keyword .namespaceKw
  /-- Every brace that is open was opened by the code. -/
  own : s.braces.all (!·)
  balanced : follow s.braces.length (bracesOf (shapes.map unplaced)) = some 0
  pending : s.pending ≠ some .enter
  ended : directivesEnd s.pending shapes
  kept : takesClosing s.pending shapes = false

theorem UnitState.Within.done (hs : s.Within []) : s.pending = none ∧ s.braces = [] := by
  have hended := hs.ended
  have hbalanced := hs.balanced
  rw [directivesEnd, Option.isNone_iff_eq_none] at hended
  rw [map_nil, bracesOf, filterMap_nil, follow, Option.some.injEq] at hbalanced
  exact ⟨hended, length_eq_zero_iff.1 hbalanced⟩

/-- The braces of the code go onto the stack and off again. -/
theorem UnitState.Within.bracesAfter {shapes : List Shape}
    (hs : s.Within ((t.kind, t.text) :: shapes)) :
    (bracesAfter s t).all (!·) ∧
      follow (bracesAfter s t).length (bracesOf (shapes.map unplaced)) = some 0 := by
  have hown := hs.own
  have hbalanced := hs.balanced
  have hended := hs.ended
  have hkept := hs.kept
  have hpunct : ∀ mark, (unplaced (t.kind, t.text)).isPunct mark = t.isPunct mark :=
    fun mark => rfl
  rw [directivesEnd, Bool.and_eq_true, hpunct] at hended
  rw [takesClosing, Bool.or_eq_false_iff, hpunct] at hkept
  rw [map_cons] at hbalanced
  unfold Bundle.bracesAfter
  cases hopen : t.isPunct "\x7b" with
  | true =>
    have hnone : s.pending.isSome = false := by simpa [hopen] using hended.1
    rw [@bracesOf_cons_up (unplaced (t.kind, t.text)) hopen, follow] at hbalanced
    rw [hnone, if_neg Bool.false_ne_true, if_pos rfl]
    exact ⟨by simpa using hown, hbalanced⟩
  | false =>
    cases hclose : t.isPunct "\x7d" with
    | true =>
      have hnone : s.pending.isSome = false := by simpa [hclose] using hkept.1
      rw [@bracesOf_cons_down (unplaced (t.kind, t.text)) hclose] at hbalanced
      rw [hnone, if_neg Bool.false_ne_true, if_neg Bool.false_ne_true, if_pos rfl]
      cases hbraces : s.braces with
      | nil =>
        rw [hbraces, length_nil, follow] at hbalanced
        cases hbalanced
      | cons top braces =>
        rw [hbraces, length_cons, follow] at hbalanced
        rw [hbraces, all_cons, Bool.and_eq_true] at hown
        exact ⟨hown.2, hbalanced⟩
    | false =>
      rw [@bracesOf_cons_of_none (unplaced (t.kind, t.text)) (brace?_eq_none hopen hclose)]
        at hbalanced
      rw [if_neg Bool.false_ne_true, if_neg Bool.false_ne_true, ite_self]
      exact ⟨hown, hbalanced⟩

/-- A token leads on within the code. -/
theorem UnitState.Within.next {s' : UnitState} (hs : s.Within (significant (t :: ts)))
    (h : stepToken u s t rest = .next s') : s'.Within (significant ts) := by
  obtain ⟨hpending, hbraces⟩ := stepToken_next h
  have hbraces := hbraces hs.pending
  rw [significant_cons] at hs
  cases ht : t.isTrivia with
  | true =>
    rw [ht, if_pos rfl, nil_append] at hs
    obtain ⟨hmark, hstarted, hends⟩ := quiet_of_passed (.inl ht)
    rw [pendingAfter_of_quiet hstarted hends] at hpending
    rw [bracesAfter_of_not_mark hmark] at hbraces
    exact {
      tags := hs.tags
      namespaces := hs.namespaces
      own := hbraces ▸ hs.own
      balanced := hbraces ▸ hs.balanced
      pending := hpending ▸ hs.pending
      ended := hpending ▸ hs.ended
      kept := hpending ▸ hs.kept }
  | false =>
    rw [ht, if_neg Bool.false_ne_true, singleton_append] at hs
    have hended := hs.ended
    have hkept := hs.kept
    rw [directivesEnd, Bool.and_eq_true] at hended
    rw [takesClosing, Bool.or_eq_false_iff] at hkept
    exact {
      tags := fun x hx => hs.tags x (mem_cons_of_mem _ hx)
      namespaces := fun x hx => hs.namespaces x (mem_cons_of_mem _ hx)
      own := hbraces ▸ hs.bracesAfter.1
      balanced := hbraces ▸ hs.bracesAfter.2
      pending := hpending ▸ pendingAfter_ne_enter hs.pending (hs.namespaces _ mem_cons_self)
      ended := hpending ▸ hended.2
      kept := hpending ▸ hkept.2 }

theorem UnitState.Within.closes (hs : s.Within (significant (t :: ts)))
    (hclose : t.isPunct "\x7d") : s.braces ≠ [] := by
  intro hbraces
  have hbalanced := hs.balanced
  rw [significant_cons, Token.not_isTrivia_of_isPunct hclose, if_neg Bool.false_ne_true,
    singleton_append, map_cons, @bracesOf_cons_down (unplaced (t.kind, t.text)) hclose,
    hbraces, length_nil, follow] at hbalanced
  cases hbalanced

theorem UnitState.Within.kind_ne (hs : s.Within (significant (t :: ts))) : t.kind ≠ .closeTag := by
  intro hkind
  have ht : t.isTrivia = false := by rw [Token.isTrivia, hkind]; rfl
  refine hs.tags (t.kind, t.text) ?_ hkind
  rw [significant_cons, ht]
  exact mem_cons_self

/-- Two units leave the same bundle, and both of them fail or none does. -/
def SameOutcome (p p' : Progress) : Prop := p'.1 = p.1 ∧ p'.2.isSome = p.2.isSome

/-- The tokens start with no reserved word. -/
def WordlessStart (ts : List Token) : Prop :=
  ∀ x ∈ (significant ts).head?, ∀ word, x.1 ≠ .keyword word

/-- The code of a namespace does the same in both units, if what follows it does. -/
theorem copyTokens_inside {zs ys after after' : List Token} (hs : s.Within (significant zs))
    (hshapes : ys.map Token.shape = zs.map Token.shape) (hstart : WordlessStart after)
    (hstart' : WordlessStart after')
    (hafter : ∀ s : UnitState, s.pending = none → s.braces = [] →
      SameOutcome (copyTokens u s after) (copyTokens { u with source } s.inside after')) :
    SameOutcome (copyTokens u s (zs ++ after))
      (copyTokens { u with source } s.inside (ys ++ after')) := by
  induction zs generalizing s ys with
  | nil =>
    rw [map_nil, map_eq_nil_iff] at hshapes
    rw [hshapes]
    exact hafter s hs.done.1 hs.done.2
  | cons z zs ih =>
    obtain ⟨y, ys, rfl, hy, hshapes⟩ := map_eq_cons_iff.1 hshapes
    have hkind : y.kind = z.kind := congrArg Prod.fst hy
    have htext : y.text = z.text := congrArg Prod.snd hy
    have hsame : significant ys = significant zs := by
      rw [significant_eq, significant_eq, hshapes]
    have hrest : dropsPublic (ys ++ after') = dropsPublic (zs ++ after) := by
      rw [dropsPublic_eq, dropsPublic_eq, significant_append, significant_append,
        declaresFunction_append _ hstart, declaresFunction_append _ hstart', hsame]
    have hstep := @stepToken_inside u source s z y (zs ++ after) (ys ++ after') hkind htext hrest
      hs.kind_ne hs.own fun _ => hs.closes
    rw [cons_append, cons_append, copyTokens, copyTokens]
    rcases hz : stepToken u s z (zs ++ after) with s₁ | b | ⟨b, f⟩ <;>
      rcases hy' : stepToken { u with source } s.inside y (ys ++ after') with s₂ | b' | ⟨b', f'⟩ <;>
      rw [hz, hy'] at hstep <;> try cases hstep
    · exact ih (hs.next hz) hshapes
    · exact ⟨rfl, rfl⟩
    · exact ⟨rfl, rfl⟩

end

/-! ## The ends of both units -/

section

variable {u : UnitContext} {s : UnitState}

/-- Blanks and the closing brace of a namespace write nothing. -/
theorem copyTokens_closes {ts : List Token} {fin : Token} (hts : ClosesUnit (ts.map Token.shape))
    (hfin : fin.kind = .endOfInput) (hpending : s.pending = none)
    (hbraces : s.braces.head? = some true ∨ (ts.map Token.shape).all isBlankShape) :
    copyTokens u s (ts ++ [fin]) = (s.bundler, none) := by
  obtain ⟨blanks, close, hshapes, hblanks, hclose⟩ := hts
  induction blanks generalizing ts s with
  | nil =>
    rcases hclose with rfl | rfl
    · rw [append_nil, map_eq_nil_iff] at hshapes
      subst hshapes
      simp [copyTokens, stepToken, hfin]
    · obtain ⟨brace, ts, rfl, hbrace, hts⟩ := map_eq_cons_iff.1 hshapes
      rw [map_eq_nil_iff] at hts
      subst hts
      have hkind : brace.kind = .punctuation := congrArg Prod.fst hbrace
      have htext : brace.text = ['}'] := congrArg Prod.snd hbrace
      have hhead : s.braces.head? = some true := hbraces.resolve_right (by
        simp [Token.shape, hkind, isBlankShape])
      obtain ⟨braces, hstack⟩ : ∃ braces, s.braces = true :: braces := by
        cases hstack : s.braces with
        | nil => rw [hstack] at hhead; cases hhead
        | cons top braces =>
          rw [hstack] at hhead
          exact ⟨braces, by rw [Option.some.inj hhead]⟩
      have hstep : stepToken u s brace [fin] = .next { s with braces } := by
        simp [stepToken, hkind, significantToken, hpending, plainToken, Token.isPunct, htext,
          hstack]
      rw [singleton_append, copyTokens, hstep]
      simp [copyTokens, stepToken, hfin]
  | cons blank blanks ih =>
    obtain ⟨t, ts, rfl, ht, hts⟩ := map_eq_cons_iff.1 hshapes
    rw [all_cons, Bool.and_eq_true] at hblanks
    have hkind : t.kind = .whitespace ∨ t.kind = .comment := by
      have hblank := hblanks.1
      rw [← ht] at hblank
      simpa [isBlankShape, Token.shape] using hblank
    have hstep : stepToken u s t (ts ++ [fin]) = .next { s with space := true } := by
      rcases hkind with hkind | hkind <;> simp [stepToken, hkind, hpending]
    rw [cons_append, copyTokens, hstep]
    refine ih hpending (hbraces.imp_right fun hall => ?_) hts hblanks.2
    rw [map_cons, all_cons, Bool.and_eq_true] at hall
    exact hall.2

theorem wordlessStart_closes {fin : Token} (hts : ClosesUnit (ts.map Token.shape))
    (hfin : fin.kind = .endOfInput) : WordlessStart (ts ++ [fin]) := by
  obtain ⟨blanks, close, hshapes, hblanks, hclose⟩ := hts
  unfold WordlessStart
  rw [significant_append, significant_eq ts, hshapes, filter_append, filter_blanks hblanks]
  rcases hclose with rfl | rfl
  · simp [significant, Token.isTrivia, hfin, TokenKind.isTrivia]
  · simp [TokenKind.isTrivia]

/-! ## The declarations of both units -/

/-- What a token of a declaration adds to its name. -/
def collectedOf (t : Token) : Text := if t.kind == .whitespace then [' '] else t.text

/-- White space and the parts of a name are collected. -/
theorem copyTokens_collect {rest : List Token} (hs : s.pending = some .enter)
    (hts : ∀ t ∈ ts, t.kind = .whitespace ∨ t.isNamePart) :
    copyTokens u s (ts ++ rest) =
      copyTokens u { s with collected := s.collected ++ ts.flatMap collectedOf } rest := by
  induction ts generalizing s with
  | nil => simp
  | cons t ts ih =>
    have hstep : stepToken u s t (ts ++ rest) =
        .next { s with collected := s.collected ++ collectedOf t } := by
      rcases hts t mem_cons_self with hkind | hpart
      · simp [stepToken, hkind, hs, collectedOf]
      · rw [Token.isNamePart, Bool.or_eq_true, beq_iff_eq] at hpart
        rcases hpart with hkind | hmark
        · simp [stepToken, hkind, significantToken, hs, endsDirective, Token.isPunct, collectedOf]
        · have hkind := kind_of_isPunct hmark
          have hsemicolon : t.isPunct ";" = false := isPunct_eq_false hmark (by decide)
          have hbrace : t.isPunct "\x7b" = false := isPunct_eq_false hmark (by decide)
          have hcomma : t.isPunct "," = false := isPunct_eq_false hmark (by decide)
          simp [stepToken, hkind, significantToken, hs, endsDirective, hsemicolon, hbrace, hcomma,
            collectedOf]
    rw [cons_append, copyTokens, hstep]
    rw [flatMap_cons, ← append_assoc]
    exact @ih { s with collected := s.collected ++ collectedOf t } hs fun x hx =>
      hts x (mem_cons_of_mem t hx)

theorem trim_append_right {blanks : Text} (h : blanks.all isBlank) :
    trim (text ++ blanks) = trim text := by
  have hall := all_eq_true.1 h
  unfold trim trimEnd dropEndWhile
  rw [dropWhile_append]
  split
  · next hempty =>
    have hnil : blanks.dropWhile isBlank = [] := by
      have hpos := @dropWhile_append_of_pos _ isBlank blanks [] hall
      rwa [append_nil] at hpos
    rw [hnil, List.isEmpty_iff.1 hempty]
  · rw [reverse_append, dropWhile_append_of_pos fun c hc => hall c (mem_reverse.1 hc)]

theorem trim_append_left {blanks : Text} (h : blanks.all isBlank) :
    trim (blanks ++ text) = trim text := by
  unfold trim
  rw [dropWhile_append_of_pos (all_eq_true.1 h)]

theorem flatMap_collectedOf_spaces (h : Spaces text ts) :
    (ts.flatMap collectedOf).all isBlank := by
  rw [all_eq_true]
  intro c hc
  obtain ⟨t, ht, hmem⟩ := mem_flatMap.1 hc
  rw [collectedOf, h.1 t ht] at hmem
  rw [mem_singleton.1 hmem]
  rfl

theorem flatMap_collectedOf_name (h : Grammar.NameTokens text ts) :
    ts.flatMap collectedOf = text := by
  rw [← h.2, serialize, flatMap_def, flatMap_def]
  refine congrArg List.flatten (map_congr_left fun t ht => ?_)
  have hpart := h.1 t ht
  have hkind : t.kind ≠ .whitespace := by
    intro hkind
    simp [Token.isNamePart, Token.isPunct, hkind] at hpart
  simp [collectedOf, hkind]

/-- The tokens of a namespace declaration up to the mark behind the name. -/
def DeclarationTokens (name gap : Text) (mark : Char) (ts : List Token) : Prop :=
  ∃ word blanks parts more stop, ts = word :: (blanks ++ parts ++ more ++ [stop]) ∧
    word.kind = .keyword .namespaceKw ∧ (∃ white, Spaces white blanks) ∧
    Grammar.NameTokens name parts ∧ Spaces gap more ∧ stop.kind = .punctuation ∧ stop.text = [mark]

/-- A declaration switches to its namespace. A brace is remembered. -/
theorem copyTokens_declaration (hts : DeclarationTokens name gap mark ts)
    (hmark : mark = ';' ∨ mark = '{') (rest : List Token) :
    copyTokens u s (ts ++ rest) = copyTokens u {
      s with
      bundler := s.bundler.switchNamespace (trim name)
      braces := if mark = '{' then true :: s.braces else s.braces
      pending := none
      collected := [] } rest := by
  obtain ⟨word, blanks, parts, more, stop, rfl, hword, ⟨white, hblanks⟩, hparts, hmore, hkind,
    htext⟩ := hts
  have hcollected : ∀ t ∈ blanks ++ parts ++ more, t.kind = .whitespace ∨ t.isNamePart := by
    intro t ht
    rcases mem_append.1 ht with ht | ht
    · exact (mem_append.1 ht).imp (hblanks.1 t) (hparts.1 t)
    · exact .inl (hmore.1 t ht)
  have hname : trim ((blanks ++ parts ++ more).flatMap collectedOf) = trim name := by
    rw [flatMap_append, flatMap_append, flatMap_collectedOf_name hparts,
      trim_append_right (flatMap_collectedOf_spaces hmore),
      trim_append_left (flatMap_collectedOf_spaces hblanks)]
  have hstop : stop.isPunct ";" ∨ stop.isPunct "\x7b" := by
    rcases hmark with rfl | rfl
    · exact .inl (by simp [Token.isPunct, hkind, htext])
    · exact .inr (by simp [Token.isPunct, hkind, htext])
  have hbrace : stop.isPunct "\x7b" = decide (mark = '{') := by
    rcases hmark with rfl | rfl <;> simp [Token.isPunct, hkind, htext]
  rw [cons_append, copyTokens, (stepToken_namespace hword u s _).1, append_assoc]
  simp only
  rw [copyTokens_collect rfl hcollected, singleton_append, copyTokens,
    (stepToken_enter rfl hstop u rest).1]
  simp only [UnitState.collect, nil_append, hname, hbrace, decide_eq_true_eq]

end

/-- The word of a declaration with a blank behind it. -/
def declarationHead : Grammar.Head .namespaceKw :=
  ⟨⟨"namespace".toList, by decide⟩, ⟨⟨[' '], rfl⟩, by simp⟩⟩

/-- A declaration as it is written. -/
def declaration (name : Grammar.Name) (gap : Text) (mark : Char) : Text :=
  declarationHead.text ++ (name.text ++ (gap ++ [mark]))

theorem lexes_declaration (name : Grammar.Name) (hgap : gap.all isSpace)
    (hmark : mark = ';' ∨ mark = '{') (rest : Text) :
    Lexes {} (declaration name gap mark) (DeclarationTokens name.text gap mark) {} rest := by
  have hclass : isLoneMark mark ∧ isSpace mark = false ∧ isIdentChar mark = false ∧
      Before.next {} ⟨.punctuation, [mark], 0⟩ = {} := by
    rcases hmark with rfl | rfl <;> decide
  obtain ⟨hlone, hspace, hident, hnext⟩ := hclass
  have hstop : Lexes {} [mark] (Single .punctuation [mark]) {} rest := by
    have hlexes := lexes_loneMark hlone {} rest
    rwa [hnext] at hlexes
  have hgapped : Lexes {} gap (Spaces gap) {} ([mark] ++ rest) :=
    Grammar.lexes_gap ⟨gap, hgap⟩ hspace
  have hend : nextIs isIdentChar (gap ++ [mark] ++ rest) = false := by
    rw [append_assoc]
    exact Grammar.nextIs_append_gap (fun _ => not_isIdentChar_of_isSpace) ⟨gap, hgap⟩ hident
  have hname := (Grammar.lexes_name name hend).append (hgapped.append hstop)
  have hstart : nextIs isSpace (name.text ++ (gap ++ [mark]) ++ rest) = false := by
    rw [append_assoc]
    exact Grammar.nextIs_isSpace_name name _
  refine ((Grammar.lexes_head declarationHead hstart).append hname).imp ?_
  rintro ts ⟨_, _, rfl, ⟨_, blanks, rfl, ⟨pos, rfl⟩, hblanks⟩, parts, _, rfl, hparts, more, _, rfl,
    hmore, pos', rfl⟩
  exact ⟨⟨.keyword .namespaceKw, declarationHead.keyword.text, pos⟩, blanks, parts, more,
    ⟨.punctuation, [mark], pos'⟩, by simp, rfl, ⟨_, hblanks⟩, hparts, hmore, rfl, rfl⟩

/-! ## Both units -/

variable {o : BundleOptions} {tree : FileTree} {origin : Path} {b : Bundler}

/-- A unit that starts with a declaration goes on in the code, without its tag. -/
theorem addContent_declared {code : Text} {front ys : List Token}
    (hlex : lexFrom true {} 6 code = .ok (front ++ ys))
    (hfront : DeclarationTokens name gap mark front) (hmark : mark = ';' ∨ mark = '{')
    (hb : b.inCode) :
    addContent o tree (longTag ++ code) origin b =
      copyTokens
        { options := o, tree, origin, source := longTag ++ code, inlineFile := addFile o tree }
        { bundler := b.switchNamespace (trim name)
          braces := if mark = '{' then [true] else []
          space := true }
        (ys ++ [⟨.endOfInput, [], byteLength (longTag ++ code)⟩]) := by
  have hlexemes : lexemes (longTag ++ code) = .ok (⟨.openTag, longTag, 0⟩ :: (front ++ ys)) := by
    rw [lexemes_longTag, hlex]
    rfl
  have htokens : tokenizeUnit origin (longTag ++ code) = .ok
      (⟨.openTag, longTag, 0⟩ :: (front ++ ys) ++
        [⟨.endOfInput, [], byteLength (longTag ++ code)⟩]) :=
    tokenizeUnit_eq_ok.2 ⟨_, hlexemes, rfl⟩
  have hplaced : placedTokens o origin (longTag ++ code) = .ok (longTag ++ code,
      ⟨.openTag, longTag, 0⟩ :: (front ++ ys) ++
        [⟨.endOfInput, [], byteLength (longTag ++ code)⟩]) := by
    have hdeclares : declaresNamespace (⟨.openTag, longTag, 0⟩ :: (front ++ ys) ++
        [⟨.endOfInput, [], byteLength (longTag ++ code)⟩]) := by
      obtain ⟨word, _, _, _, _, rfl, hword, _⟩ := hfront
      simp [declaresNamespace, Token.isKeyword, hword]
    exact placedTokens_of_stays htokens (by rw [placeInNamespace, hdeclares]; simp)
  have hcopied : addContent o tree (longTag ++ code) origin b =
      copyTokens
        { options := o, tree, origin, source := longTag ++ code, inlineFile := addFile o tree }
        { bundler := b, space := true }
        (front ++ ys ++ [⟨.endOfInput, [], byteLength (longTag ++ code)⟩]) := by
    unfold addContent
    rw [addContentWith_eq, hplaced]
    simp only [unitStart, unitTokens, startMoves, leavesCode, joinsCode, hb]
    rfl
  rw [hcopied, append_assoc, copyTokens_declaration hfront hmark]

/-- The unit `<?php namespace A; body`. -/
def unbracedUnit (name : Grammar.Name) (body : Text) : Text :=
  longTag ++ (declaration name [] ';' ++ ([' '] ++ body))

/-- The unit `<?php namespace A { body }`. -/
def bracedUnit (name : Grammar.Name) (body : Text) : Text :=
  longTag ++ (declaration name [' '] '{' ++ ([' '] ++ body ++ [' ', '}']))

theorem exists_code {body : Text} (hlex : lexFrom true {} 0 body = .ok ts)
    (htags : ∀ x ∈ significant ts, x.1 ≠ .closeTag) :
    ∃ xs, serialize xs = [' '] ++ body ∧ Chain true {} xs [] ∧ significant xs = significant ts ∧
      ∀ x ∈ xs, x.kind ≠ .closeTag := by
  have hchain : ∀ {cs : Text} {us : List Token}, lexFrom true {} 0 cs = .ok us →
      Chain true {} us [] := fun h => @chain_of_lexFrom true {} 0 _ _ [] (by rwa [append_nil])
  have hbody : ReadsAs true {} (serialize ts ++ []) (significant ts ++ []) :=
    .of_chain (hchain hlex) (.nil _ _)
  rw [append_nil, append_nil, (lexFrom_tiles hlex).serialize_eq] at hbody
  have hspaced : ReadsAs true {} ([' '] ++ body) (significant ts) := .spaces rfl (by simp) hbody
  obtain ⟨xs, hxs, hsame⟩ := hspaced 0
  refine ⟨xs, (lexFrom_tiles hxs).serialize_eq, hchain hxs, hsame, fun x hx hkind => ?_⟩
  refine htags (x.kind, x.text) ?_ hkind
  rw [← hsame]
  refine mem_map.2 ⟨x, mem_filter.2 ⟨hx, ?_⟩, rfl⟩
  simp [Token.isTrivia, hkind, TokenKind.isTrivia]

theorem lexFrom_declared (name : Grammar.Name) {gap : Text} {mark : Char}
    (hgap : gap.all isSpace) (hmark : mark = ';' ∨ mark = '{') {xs : List Token}
    (h : Chain true {} xs []) (htags : ∀ x ∈ xs, x.kind ≠ .closeTag) :
    ∃ front ys, lexFrom true {} 6 (declaration name gap mark ++ serialize xs) = .ok (front ++ ys) ∧
      DeclarationTokens name.text gap mark front ∧ ys.map Token.shape = xs.map Token.shape := by
  have hall := (lexes_declaration name hgap hmark (serialize xs ++ [])).append (h.lexes htags)
  obtain ⟨_, ⟨front, ys, rfl, hfront, hys⟩, hlex⟩ := hall 6
  refine ⟨front, ys, ?_, hfront, hys⟩
  rw [append_nil] at hlex
  rw [hlex, lexFrom]
  simp [Except.map]

/-- A namespace with braces around its code and one without them come out alike, if no directive
reaches over a closing brace. -/
theorem braced_alike (o : BundleOptions) (tree : FileTree) (origin : Path) {b : Bundler}
    (hb : b.inCode) (name : Grammar.Name) {body : Text} {ts : List Token}
    (hlex : lexFrom true {} 0 body = .ok ts) (hcode : IsNamespaceCode (significant ts))
    (hkept : takesClosing none (significant ts) = false) :
    SameOutcome (addContent o tree (unbracedUnit name body) origin b)
      (addContent o tree (bracedUnit name body) origin b) := by
  obtain ⟨xs, hxs, hchain, hsame, htags⟩ := exists_code hlex hcode.tags
  obtain ⟨mid, tail, tail', rfl, htail, hchain', hserialize, hclosed'⟩ :=
    hchain.exists_closed htags
  have hclosed : ClosesUnit (tail.map Token.shape) :=
    ⟨_, [], (List.append_nil _).symm, htail, .inl rfl⟩
  have htags' : ∀ x ∈ mid ++ tail', x.kind ≠ .closeTag := fun x hx =>
    (List.mem_append.1 hx).elim (fun hx => htags x (List.mem_append_left _ hx)) fun hx =>
      hclosed'.kind_ne x.shape (List.mem_map_of_mem hx)
  have hmid : significant mid = significant ts := by
    rw [← hsame, significant_append, significant_eq tail, filter_blanks htail, List.append_nil]
  -- the tokens of both units
  obtain ⟨front, ys, hunit, hfront, hys⟩ :=
    @lexFrom_declared name [] ';' rfl (.inl rfl) _ hchain htags
  obtain ⟨front', ys', hunit', hfront', hys'⟩ :=
    @lexFrom_declared name [' '] '{' rfl (.inr rfl) _ hchain' htags'
  rw [hxs] at hunit
  rw [hserialize, hxs] at hunit'
  rw [List.map_append] at hys hys'
  obtain ⟨zs, last, rfl, hzs, hlast⟩ := List.map_eq_append_iff.1 hys
  obtain ⟨zs', last', rfl, hzs', hlast'⟩ := List.map_eq_append_iff.1 hys'
  rw [← hlast] at hclosed htail
  rw [← hlast'] at hclosed'
  -- behind the declarations both are in the code, one of them inside braces
  rw [unbracedUnit, bracedUnit, addContent_declared hunit hfront (.inl rfl) hb,
    addContent_declared hunit' hfront' (.inr rfl) hb, List.append_assoc zs, List.append_assoc zs']
  have hshapes : significant zs = significant ts := by
    rw [← hmid, significant_eq, significant_eq, hzs]
  refine copyTokens_inside ?_ (hzs'.trans hzs.symm) (wordlessStart_closes hclosed rfl)
    (wordlessStart_closes hclosed' rfl) fun s hpending hbraces => ?_
  · rw [hshapes]
    exact {
      tags := hcode.tags
      namespaces := hcode.namespaces
      own := rfl
      balanced := hcode.balanced
      pending := nofun
      ended := hcode.ended
      kept := hkept }
  · have hstack : s.inside.braces.head? = some true := by rw [UnitState.inside, hbraces]; rfl
    rw [copyTokens_closes hclosed rfl hpending (.inr htail),
      @copyTokens_closes _ s.inside _ _ hclosed' rfl hpending (.inl hstack)]
    exact ⟨rfl, rfl⟩

/-- The tokens of a code, if it can be read. -/
def readCode (body : Text) : List Token := ((lexFrom true {} 0 body).toOption).getD []

/-- The name `A`. -/
def nameA : Grammar.Name := ⟨false, ⟨['A'], rfl, rfl⟩, []⟩

/-- Code with a block and an import. -/
theorem braced_alike_block :
    let body := "use B; if (f()) \x7b g(); \x7d".toList
    (addContent {} {} (bracedUnit nameA body) [] { inCode := true }).1.output =
      "namespace A\x7buse\nB;if(f())\x7bg();\x7d".toList := by
  intro body
  have hrun : (lexFrom true {} 0 body).toOption = some (readCode body) ∧
      IsNamespaceCode (significant (readCode body)) ∧
      takesClosing none (significant (readCode body)) = false ∧
      (addContent {} {} (unbracedUnit nameA body) [] { inCode := true }).1.output =
        "namespace A\x7buse\nB;if(f())\x7bg();\x7d".toList := by
    decide +kernel
  obtain ⟨hlex, hcode, hkept, houtput⟩ := hrun
  have hsame := @braced_alike {} {} [] { inCode := true } rfl nameA _ _ (eq_ok_of_toOption hlex)
    hcode hkept
  rw [hsame.1]
  exact houtput

/-- An inclusion that takes a closing brace. The brace that is left closes the namespace in one unit
and not in the other. -/
theorem braced_differs :
    let body := "if (1) \x7b include $x \x7d ;".toList
    lexFrom true {} 0 body = .ok (readCode body) ∧
      IsNamespaceCode (significant (readCode body)) ∧
      ¬ SameOutcome (addContent {} {} (unbracedUnit nameA body) [] { inCode := true })
        (addContent {} {} (bracedUnit nameA body) [] { inCode := true }) := by
  intro body
  refine ⟨eq_ok_of_toOption (by decide +kernel), by decide +kernel, fun h => ?_⟩
  have houtput := congrArg Bundler.output h.1
  revert houtput
  decide +kernel

end LegacyPhp.Bundle
