import LegacyPhp.Proofs.Bundle.HtmlCode

/-!
# What a token shows

A token of a unit shows its text if it stands outside the code, and nothing otherwise. That is said
of every token here, for a unit that does no harm: `stepToken_stands` for tokens that inline no
file, and `afterInline_stands` for the others, once the file has been inlined.

The tokens of a directive are collected, and what comes of them is written by the bundle itself, so
that the output rests there (`runDirective_rests`). A close tag leads out of the code without taking
a line break that is text (`closeTag_leaves`), text is copied as it is (`html_stands`), and an open
tag leads in again (`openTag_stands`).
-/

namespace LegacyPhp.Bundle

open Text Scan Closure List

variable {d : Directive} {b : Before} {more word text : Text} {last : Option Char}
  {o : BundleOptions} {after : Bundler}

section Steps

variable {u : UnitContext} {s s' : UnitState} {t : Token} {rest : List Token} {html : Text}

/-! ## Directives -/

theorem UnitState.Framed.plain (h : s.Framed (t :: rest)) (hd : s.pending = some d) :
    t.kind ≠ .docComment ∧ isHeredoc t.kind t.text = false := by
  obtain ⟨_, horderly, _⟩ := h.orderly
  rw [LegacyPhp.Bundle.orderly, Bool.and_eq_true, Bool.and_eq_true, isOrderly, hd] at horderly
  have hone := horderly.1.1
  refine ⟨fun hkind => ?_, Bool.eq_false_iff.2 fun hheredoc => ?_⟩
  · rw [hkind] at hone
    cases hone
  · have hkind : t.kind = .stringLiteral := by
      rw [isHeredoc, Bool.and_eq_true, beq_iff_eq] at hheredoc
      exact hheredoc.1
    rw [hkind] at hone hheredoc
    simp [hheredoc] at hone

theorem not_meets_of_isQuote (h : last.any isQuote) (next : Option Char) :
    meets last next = false := by
  cases last with
  | none => rfl
  | some c =>
    refine not_meets_of_not_mem_left (fun hmem => ?_) next
    have hall : ∀ d ∈ ['?', '/', '<'], isQuote d = false := forall_mem_of_all (by decide)
    rw [Option.any_some, hall c hmem] at h
    cases h

/-- A token of a directive is collected. -/
theorem UnitState.Stands.collected (h : s.Stands (t :: rest) html) (hframed : s.Framed (t :: rest))
    (hd : s.pending = some d) (hkind : t.kind ≠ .closeTag ∧ t.kind ≠ .comment)
    (htrivia : t.isTrivia = false) (hread : Reads true b t.kind t.text (serialize rest)) :
    ({ s with collected := s.collected ++ t.text } : UnitState).Stands rest html := by
  have hcode := hframed.tagged.inCode hd
  obtain ⟨hdoc, hheredoc⟩ := hframed.plain hd
  obtain ⟨last, label, ascii, hawaits, hshows⟩ := h.code hcode
  obtain ⟨rfl, rfl⟩ := hawaits.of_pending hd
  have hpending : ({ s with collected := s.collected ++ t.text } : UnitState).pending ≠ none := by
    rw [show _ = some d from hd]
    exact Option.some_ne_none d
  refine stands_of_code hcode (awaits_plain hawaits.behind fun hnone => absurd hnone hpending)
    hshows fun _ => ⟨?_, fun x hx _ => ?_⟩
  · have hcollects := h.collects hpending
    exact hcollects.collected.token hread ⟨hkind.1, hkind.2, hdoc⟩ hheredoc
      (hcollects.seam t rfl htrivia)
  · show meets (s.collected ++ t.text).getLast? x.text.head? = false
    rw [getLast?_append_of_ne_nil _ hread.text_ne_nil]
    by_cases hliteral : t.kind = .stringLiteral
    · rw [hliteral] at hread hheredoc
      exact not_meets_of_isQuote (hread.isQuote_last hheredoc) _
    · have hmeets := hread.not_meets hkind
      have hend : openEnd t.kind t.text = t.text.getLast? := by
        unfold openEnd
        split
        · contradiction
        · contradiction
        · rfl
      rw [hend] at hmeets
      rcases hframed.readable.2.head?_serialize hx with hnil | hhead
      · rw [hnil]
        exact meets_none_right _
      · rwa [hhead] at hmeets

theorem UnitState.Stands.rests (h : s.Stands rest html) (hcode : s.bundler.inCode)
    (hd : s.pending = some d) : Rests s.bundler html := by
  obtain ⟨last, label, ascii, hawaits, hshows⟩ := h.code hcode
  exact hawaits.rests hcode hshows (hawaits.of_pending hd)

theorem UnitState.Stands.rests_nil (h : s.Stands [] html) : Rests s.bundler html := by
  cases hcode : s.bundler.inCode with
  | true =>
    obtain ⟨last, label, ascii, hawaits, hshows⟩ := h.code hcode
    refine hawaits.rests hcode hshows ⟨Bool.eq_false_iff.2 fun hlabel => ?_, ?_⟩
    · cases (hawaits.label hlabel).2
    · by_contra hzero
      exact hzero (beq_iff_eq.1 (hawaits.ascii hzero).2.1)
  | false =>
    rw [Rests, if_neg (by rw [hcode]; exact Bool.false_ne_true)]
    exact (h.outside hcode).2

theorem UnitState.Stands.rests_last (h : s.Stands (t :: rest) html) (hkind : t.kind = .endOfInput) :
    Rests s.bundler html := by
  cases hcode : s.bundler.inCode with
  | true =>
    obtain ⟨last, label, ascii, hawaits, hshows⟩ := h.code hcode
    refine hawaits.rests hcode hshows
      (hawaits.of_left_out ?_ (by simp [hkind]) ?_ (by simp [hkind]))
    · rw [Token.isTrivia, hkind]
      rfl
    · simp [isSurelyCopied, isCodeToken, hkind]
  | false =>
    rw [Rests, if_neg (by rw [hcode]; exact Bool.false_ne_true)]
    refine (h.outside hcode).2.imp fun more hmore => ?_
    simpa [Expects, hkind] using hmore

theorem skips_keptDirective {expression : Text} (hword : word.all isIdentChar)
    (hexpression : Passes expression) : Skips (keptDirective word expression) := by
  refine @skips_named ([' '] ++ word ++ [' ']) expression ';' ?_ rfl hexpression
  have hall : word.all (!openers.contains ·) := by
    rw [all_eq_true] at hword ⊢
    intro c hc
    cases hmem : openers.contains c with
    | false => rfl
    | true =>
      have hno := not_isIdentChar_of_mem_openers c (contains_iff_mem.1 hmem)
      rw [hword c hc] at hno
      cases hno
  rw [all_append, all_append, hall]
  rfl

theorem use_of_parenthesis (hends : endsDirective d t) (hmark : t.isPunct "(") :
    d = .use := by
  have hother : ∀ mark : String, "(".toList ≠ mark.toList → t.isPunct mark = false :=
    fun _ => isPunct_eq_false hmark
  simpa [endsDirective, kind_of_isPunct hmark, hother ";" (by decide), hother "\x7b" (by decide),
    hother "," (by decide), hmark] using hends

theorem not_parenthesis (hends : endsDirective d t) (hd : d ≠ .use) : t.isPunct "(" = false :=
  Bool.eq_false_iff.2 fun hmark => hd (use_of_parenthesis hends hmark)

/-- An inclusion that neither fails nor inlines a file is kept. -/
theorem inclusion_kept (hd : s.pending = some (.inclusion word))
    (hends : endsDirective (.inclusion word) t) (hcall : inlineCall? u.tree u.origin s t = none)
    (h : inclusion u word (trim s.collected) t s.bundler = (after, none)) :
    after = s.bundler.write (keptDirective word (trim s.collected)) := by
  simp only [inlineCall?, hd, hends, if_true] at hcall
  unfold inclusion at h
  split at h
  · cases h
  · exact (Prod.mk.inj h).1.symm
  · next target htarget =>
    rw [htarget] at hcall
    split at h
    · next hfile =>
      simp only [hfile, if_true] at hcall
      cases hcall
    · cases h

/-- What comes of a directive that inlines no file. -/
theorem runDirective_rests {after : UnitState} (h : Rests s.bundler html) (hcode : s.bundler.inCode)
    (hd : s.pending = some d) (hends : endsDirective d t) (hpasses : Passes (trim s.collected))
    (hword : ∀ word, d = .inclusion word → word.all isIdentChar)
    (hcall : inlineCall? u.tree u.origin s t = none) (hrun : runDirective u s d t = (after, none)) :
    Rests after.bundler html ∧ after.bundler.inCode ∧
      (t.isPunct "(" → after.bundler.last? = some '(') := by
  cases d with
  | enter =>
    obtain ⟨hrests, hin⟩ := h.switchNamespace hcode hpasses
    have hmark := not_parenthesis hends (by simp)
    rw [hmark]
    simp only [runDirective, Prod.mk.injEq, and_true] at hrun
    subst hrun
    split <;> exact ⟨hrests, hin, by simp⟩
  | use =>
    simp only [runDirective] at hrun
    split at hrun
    · cases hrun
      have hskips : Skips "use(".toList :=
        skips_of_all (p := (!openers.contains ·)) (forall_mem_of_all (by decide)) rfl
      refine ⟨h.write hcode rfl (by decide) hskips rfl, hcode, fun _ => ?_⟩
      exact last?_write _ (by decide)
    · next hmark =>
      cases hrun
      obtain ⟨hrests, hin⟩ := h.addImport hcode hpasses
      exact ⟨hrests, hin, fun hparen => absurd hparen hmark⟩
  | inclusion word =>
    have hmark := not_parenthesis hends (by simp)
    rw [hmark]
    simp only [runDirective] at hrun
    split at hrun
    · cases hrun
    · next b hb =>
      cases hrun
      have hkept := inclusion_kept hd hends hcall hb
      have hrests : Rests b html := by
        rw [hkept]
        refine h.write hcode rfl (by decide) (skips_keptDirective (hword word rfl) hpasses) ?_
        rw [keptDirective, getLast?_append_of_ne_nil _ (cons_ne_nil _ _)]
        rfl
      have hin : b.inCode := by rw [hkept]; exact hcode
      simp only
      split
      · exact ⟨hrests, hin, by simp⟩
      · exact ⟨hrests.enterCode.1, hrests.enterCode.2, by simp⟩

/-- What follows a directive. -/
theorem stands_behind_directive (hframed : s.Framed (t :: rest)) (hd : s.pending = some d)
    (hends : endsDirective d t) (hclose : t.kind ≠ .closeTag)
    (hrests : Rests s'.bundler html) (hcode : s'.bundler.inCode)
    (hpending : s'.pending = if t.isPunct "," then some d else none)
    (hcollected : s'.collected = []) (hparen : t.isPunct "(" → s'.bundler.last? = some '(') :
    s'.Stands rest html := by
  obtain ⟨last, hbehind, hshows⟩ := hrests.code hcode
  refine stands_of_code hcode (awaits_plain hbehind fun hnone _ x hx hx' => ?_) hshows fun _ => ?_
  · by_cases hmark : t.isPunct "("
    · refine hbehind _ ?_
      rw [hparen hmark]
      exact not_meets_of_not_mem_left (by decide) _
    · -- nothing that could open something with what was written before
      obtain ⟨_, horderly, _⟩ := hframed.orderly
      rw [orderly, Bool.and_eq_true, Bool.and_eq_true] at horderly
      refine not_meets_of_completes ?_ hx hx' last
      have hcomma : t.isPunct "," = false := by
        refine Bool.eq_false_iff.2 fun hcomma => ?_
        rw [hpending, hcomma] at hnone
        cases hnone
      have hunseen : ∀ declared, endsUnseen declared s.pending t := by
        intro declared
        have hmarks : t.isPunct ";" || t.isPunct "\x7b" := by
          simpa [endsDirective, hclose, hcomma, hmark] using hends
        rw [endsUnseen, hd, hmarks]
        rfl
      simpa [hunseen] using horderly.1.2
  · rw [hcollected]
    exact ⟨collected_nil, fun _ _ _ => rfl⟩

/-! ## Tags and the text between them -/

theorem lineBreak_append_eq_nil {left : Text} (hne : text ≠ [])
    (h : (lineBreak (text ++ left)).1 = []) (hmore : nextIs (· == '\n') more = false) :
    (lineBreak (text ++ more)).1 = [] := by
  obtain ⟨c, cs, rfl⟩ := exists_cons_of_ne_nil hne
  have hbefore : (lineBreak (c :: (cs ++ left))).1.isEmpty := List.isEmpty_iff.2 h
  have hafter : (lineBreak (c :: (cs ++ more))).1.isEmpty := by
    rw [isEmpty_lineBreak] at hbefore ⊢
    cases cs with
    | nil =>
      rw [nil_append, hmore, Bool.and_false, Bool.or_false]
      rw [Bool.not_or, Bool.and_eq_true] at hbefore
      exact hbefore.1
    | cons d cs => exact hbefore
  exact List.isEmpty_iff.1 hafter

theorem Ends.nextIs_eq (h : Ends more) {p : Char → Bool} (hp : p '<' = false) :
    nextIs p more = false := by
  rcases h with rfl | ⟨_, _, _, rfl, _⟩
  · rfl
  · exact hp

theorem Ends.lineBreak (h : Ends more) : (lineBreak more).1 = [] := by
  rcases h with rfl | ⟨_, _, _, rfl, _⟩ <;> rfl

theorem Expects.cases (h : Expects rest more) : Ends more ∨ ∃ x ∈ rest.head?, x.kind = .inlineHtml ∧
      ∃ left, more = x.text ++ left ∧ nextIs (· == '\n') left = false := by
  unfold Expects at h
  split at h
  · next x hx =>
    split at h
    · next hhtml => exact .inr ⟨x, hx, hhtml, h⟩
    · split at h
      · exact .inl (.inr h)
      · exact .inl h
  · exact .inl h

theorem Expects.lineBreak (h : Expects rest more) (hbreak : ∀ x ∈ rest.head?, x.kind = .inlineHtml →
      x.text ≠ [] ∧ ∃ left, (lineBreak (x.text ++ left)).1 = []) : (lineBreak more).1 = [] := by
  rcases h.cases with hends | ⟨x, hx, hhtml, left, rfl, hleft⟩
  · exact hends.lineBreak
  · obtain ⟨hne, _, hnone⟩ := hbreak x hx hhtml
    exact lineBreak_append_eq_nil hne hnone hleft

/-- A close tag leads out of the code. -/
theorem closeTag_leaves {label : Bool} {ascii : Nat} (hkind : t.kind = .closeTag)
    (hend : isUnitEnd rest = false) (hcode : s.bundler.inCode) (hbehind : Behind s.bundler last)
    (hshows : Shows s.bundler (Admits last label ascii) html) (hascii : ascii ≤ 2)
    (hpending : s.pending = none) (hread : Reads true b t.kind t.text (serialize rest))
    (hreadable : Readable rest) : (plainToken s t rest).Stands rest html := by
  rw [plainToken_closeTag hkind, hend, if_neg Bool.false_ne_true]
  rw [hkind] at hread
  refine ⟨(nomatch ·), fun _ => ⟨rfl, ?_⟩, fun hne => absurd hpending hne⟩
  have hbundler : ((s.change fun b => { b with inCode := false }).emit t.text).bundler =
      { s.bundler.write (gapBefore s t.text ++ t.text) with inCode := false } := rfl
  rw [hbundler, ← append_nil html]
  refine shows_write hshows.leads hshows.names (fun more hmore => ⟨?_, ?_⟩) nofun
  · obtain ⟨tail, htext, _⟩ := hread.closeTag_lineBreak
    have hmeets : meets last (gapBefore s t.text ++ '?' :: '>' :: (tail ++ more)).head? =
        false := by
      have hfirst : meets last (gapBefore s t.text ++ t.text).head? = false := by
        unfold gapBefore
        split
        · exact hbehind _ (not_meets_gap _ _)
        · rw [htext]
          exact not_meets_of_not_mem (by decide) last
      generalize gapBefore s t.text = white at hfirst ⊢
      cases white <;> simpa [htext] using hfirst
    have hadmits := @admits_marks last label ascii _ _ _ _ (all_gapBefore s t.text) (by decide)
      (by decide) hmeets hascii
    rw [htext] at hadmits ⊢
    simpa using hadmits
  · rw [hcode, html?_gap, map_nil_append]
    refine hread.html?_close fun htext => hmore.lineBreak fun x hx hhtml => ?_
    -- what stood behind the tag in the unit was no line break
    have hgo := hread.not_goesOn
    rw [goesOn, htext] at hgo
    obtain ⟨left, rfl⟩ : ∃ left, rest = x :: left := by
      cases rest with
      | nil => cases hx
      | cons y left => exact ⟨left, by rw [show y = x by simpa using hx]⟩
    obtain ⟨_, hx⟩ := hreadable.text (.inr hhtml)
    exact ⟨hx.text_ne_nil, serialize left, by simpa [serialize_cons] using hgo⟩

theorem closeTag_stands (hkind : t.kind = .closeTag) (hrests : Rests s.bundler html)
    (hpending : s.pending = none) (hread : Reads true b t.kind t.text (serialize rest))
    (hreadable : Readable rest) (hin : isUnitEnd rest = false → s.bundler.inCode) :
    (plainToken s t rest).Stands rest html := by
  cases hend : isUnitEnd rest with
  | true =>
    rw [plainToken_closeTag hkind, hend]
    exact hrests
  | false =>
    have hcode := hin hend
    obtain ⟨last, hbehind, hshows⟩ := hrests.code hcode
    exact closeTag_leaves hkind hend hcode hbehind hshows (Nat.zero_le 2) hpending hread hreadable

/-- Behind text outside the code a tag is expected, if there is anything. -/
theorem Expects.behind_text (h : Expects rest more)
    (hread : Reads false b .inlineHtml text (serialize rest)) (hreadable : Readable rest)
    (htagged : tagged false rest) :
    serialize rest = [] ∧ Ends more ∨ ∃ left, StartsWithTag more left := by
  cases rest with
  | nil => exact .inl ⟨rfl, h⟩
  | cons x rest =>
    simp only [tagged, Bool.false_eq_true, if_false, Bool.and_eq_true, Bool.or_eq_true,
      beq_iff_eq] at htagged
    simp only [Expects, head?_cons] at h
    rcases htagged.1 with (htag | hhtml) | hend
    · exact .inr (by simpa [htag] using h)
    · -- two pieces of text would be one
      exfalso
      obtain ⟨_, hx⟩ := hreadable.text (.inr hhtml)
      rw [serialize_cons] at hread
      rcases hread.behind_text with hnil | ⟨_, taken, left, hstarts, htag, _⟩
      · exact hx.text_ne_nil (append_eq_nil_iff.1 hnil).1
      · have hkind := hx.not_html_of_tag hstarts htag
        rw [hhtml] at hkind
        cases hkind
    · refine .inl ⟨?_, by simpa [hend] using h⟩
      obtain ⟨htext, rfl⟩ := hreadable.last hend
      rw [serialize_cons, htext]
      rfl

/-! ## Every token -/

theorem htmlOf_of_ne (h : t.kind ≠ .inlineHtml) : htmlOf [t] = [] := by
  simp [h]

theorem UnitState.Framed.inCode (h : s.Framed (t :: rest)) (hopen : t.kind ≠ .openTag)
    (hhtml : t.kind ≠ .inlineHtml) (hend : t.kind ≠ .endOfInput) : s.bundler.inCode :=
  inCode_of_tagged h.tagged.tokens hopen hhtml hend

theorem UnitState.Framed.outside (h : s.Framed (t :: rest))
    (hkind : t.kind = .openTag ∨ t.kind = .inlineHtml) : s.bundler.inCode = false := by
  have htokens := h.tagged.tokens
  cases hcode : s.bundler.inCode with
  | false => rfl
  | true =>
    rw [hcode, LegacyPhp.Bundle.tagged, Bool.and_eq_true] at htokens
    rcases hkind with hkind | hkind <;> simp [hkind] at htokens

theorem UnitState.Framed.not_html (h : s.Framed (t :: rest)) (hcode : s.bundler.inCode) :
    t.kind ≠ .inlineHtml := fun hkind => by
  rw [h.outside (.inr hkind)] at hcode
  cases hcode

theorem UnitState.Framed.closing (h : s.Framed (t :: rest)) (hbrace : true ∈ s.braces)
    (hmark : t.isPunct "\x7d") : rest.head?.any completes = false := by
  obtain ⟨declared, horderly, hdeclared⟩ := h.orderly
  rw [LegacyPhp.Bundle.orderly, Bool.and_eq_true, Bool.and_eq_true, hdeclared (.inl hbrace)]
    at horderly
  simpa [endsUnseen, hmark] using horderly.1.2

/-- White space and other comments play no part. -/
theorem kind_of_isTrivia (h : t.isTrivia) :
    t.kind = .docComment ∨ ∀ o b rest, role o b t rest = .blank := by
  unfold Token.isTrivia at h
  unfold role
  generalize t.kind = kind at h
  cases kind with
  | docComment => exact .inl rfl
  | whitespace | comment => exact .inr fun _ _ _ => rfl
  | _ => cases h

theorem kind_of_documented {b : Bundler}
    (h : role o b t rest = .banner ∨ role o b t rest = .dropped) : t.kind = .docComment :=
  (kind_of_isTrivia (isTrivia_of_role (.inr h))).resolve_right fun hblank => by simp [hblank] at h

theorem UnitState.Framed.pending (h : s.Framed (t :: rest)) (hkind : t.kind = .docComment) :
    s.pending = none := by
  cases hd : s.pending with
  | none => rfl
  | some d => exact absurd hkind (h.plain hd).1

theorem UnitState.Framed.documented (h : s.Framed (t :: rest)) (hkind : t.kind = .docComment) :
    s.bundler.inCode ∧ ∃ b, Reads true b .docComment t.text (serialize rest) := by
  have hcode : t.kind ≠ .endOfInput ∧ t.kind ≠ .openTag ∧ t.kind ≠ .inlineHtml := by simp [hkind]
  rw [← hkind]
  exact ⟨h.inCode hcode.2.1 hcode.2.2 hcode.1, h.readable.code hcode.1 hcode.2.1 hcode.2.2⟩

/-- A token that has inlined a file. -/
theorem afterInline_stands {tree : FileTree} {origin target : Path} (hframed : s.Framed (t :: rest))
    (hcall : inlineCall? tree origin s t = some target) (hnames : Named s.bundler)
    (hrests : Rests after html) (hfits : fitAll after (inlinedMoves s t rest after)) :
    (afterInline s t rest after).Stands rest html := by
  obtain ⟨word, hpending, hends, _⟩ := pending_of_inlineCall? hcall
  have hrestored := hrests.restore hnames
  unfold afterInline
  split
  · next hclose =>
    have hclose : t.kind = .closeTag := beq_iff_eq.1 hclose
    have hbundler : (s.inlined t after).bundler = after.restore s.bundler := by
      simp [UnitState.inlined, hclose]
    have hnone : (s.inlined t after).pending = none := by
      simp [UnitState.inlined, Token.isPunct, hclose]
    obtain ⟨_, hread⟩ := hframed.readable.code (by simp [hclose]) (by simp [hclose])
      (by simp [hclose])
    refine closeTag_stands hclose (by rwa [hbundler]) hnone hread hframed.readable.2 fun hend => ?_
    -- the close tag fits only in the code
    have htake : applyAll (s.pending.toList.map (.take · t)) after = after := by
      rw [hpending]
      rfl
    rw [inlinedMoves, fitAll_append, applyAll_append, htake, applyAll_restoreMoves,
      if_pos (by simp [hclose]), plainMoves_closeTag hclose, hend, if_neg Bool.false_ne_true,
      Bool.and_eq_true, fitAll, Bool.and_eq_true] at hfits
    rw [hbundler]
    exact hfits.2.1
  · next hclose =>
    have hclose : t.kind ≠ .closeTag := fun hkind => hclose (by simp [hkind])
    obtain ⟨hentered, hcode⟩ := hrestored.enterCode
    have hbundler : (s.inlined t after).bundler = (after.restore s.bundler).enterCode := by
      simp [UnitState.inlined, hclose]
    refine stands_behind_directive hframed hpending hends hclose (by rwa [hbundler])
      (by rwa [hbundler]) ?_ rfl fun hmark => by cases use_of_parenthesis hends hmark
    simp [UnitState.inlined, hpending]

variable (h : s.Stands (t :: rest) html) (hframed : s.Framed (t :: rest))

include h hframed

/-- The text between tags is copied as it is. -/
theorem html_stands (hkind : t.kind = .inlineHtml) (hout : s.bundler.inCode = false) :
    (s.emit t.text).Stands rest (html ++ t.text) := by
  obtain ⟨hspace, hshows⟩ := h.outside hout
  obtain ⟨_, hread⟩ := hframed.readable.text (.inr hkind)
  rw [hkind] at hread
  have hgap : gapBefore s t.text = [] := by rw [gapBefore, hspace]; rfl
  have hbundler : (s.emit t.text).bundler = { s.bundler.write t.text with inCode := false } := by
    rw [emit_bundler, hgap, ← hout]
    rfl
  have hpending : (s.emit t.text).pending = none := hframed.tagged.pending hout
  have htagged : tagged false rest := by
    have htokens := tagged_tail hframed.tagged.tokens (by simp [hkind]) (by simp [hkind])
    rwa [hout] at htokens
  refine ⟨fun hin => ?_, fun _ => ⟨rfl, ?_⟩, fun hne => absurd hpending hne⟩
  · rw [hbundler] at hin
    cases hin
  rw [hbundler]
  refine shows_write hshows.leads hshows.names (fun more hmore => ?_) nofun
  have hnext := hmore.behind_text hread hframed.readable.2 htagged
  have hends : Ends more := by
    rcases hnext with ⟨_, hends⟩ | htag
    · exact hends
    · exact .inr htag
  rw [hout]
  constructor
  · simp only [Expects, head?_cons, hkind, if_true]
    exact ⟨more, rfl, hends.nextIs_eq rfl⟩
  · rcases hends with rfl | ⟨left, htag⟩
    · rcases hnext with ⟨hnil, _⟩ | ⟨_, _, _, hnil, _⟩
      · rw [hnil] at hread
        exact hread.html?_eq
      · cases hnil
    · exact hread.html?_text htag

/-- An open tag leads into the code. -/
theorem openTag_stands (hkind : t.kind = .openTag) (hout : s.bundler.inCode = false) :
    (plainToken s t rest).Stands rest html := by
  rw [plainToken_openTag hkind]
  obtain ⟨hspace, hshows⟩ := h.outside hout
  obtain ⟨_, hread⟩ := hframed.readable.text (.inl hkind)
  rw [hkind] at hread
  obtain ⟨_, horderly, _⟩ := hframed.orderly
  rw [orderly, Bool.and_eq_true, Bool.and_eq_true, isOrderly, hkind] at horderly
  obtain ⟨hwhole, hascii⟩ := Bool.and_eq_true_iff.1 horderly.1.1
  have hpending : s.pending = none := hframed.tagged.pending hout
  have hbundler : ((s.change fun b => { b with inCode := true }).emit t.text).bundler =
      { s.bundler.write t.text with inCode := true } := by
    rw [emit_bundler, gapBefore, show (s.change _).space = false from hspace]
    rfl
  -- a tag that prints looks at what follows
  have hawaits : Awaits ((s.change fun b => { b with inCode := true }).emit t.text) rest none false
      (if t.text = ['<', '?', '='] then 2 else 0) := by
    refine ⟨fun _ _ => rfl, by simp, fun hzero => ⟨hpending, ?_⟩, fun _ _ _ _ _ => rfl⟩
    split at hzero
    · next htext =>
      rw [if_pos htext]
      exact ⟨by simpa [htext] using hascii, Nat.le_refl 2⟩
    · exact absurd rfl hzero
  refine stands_of_code (by rw [hbundler]) hawaits ?_ fun hne => absurd hpending hne
  rw [hbundler, ← append_nil html]
  refine shows_write hshows.leads hshows.names (fun more hmore => ?_) fun _ => ?_
  · have htag : StartsWithTag (t.text ++ more) more := by
      refine hread.startsWithTag hwhole fun htext => ?_
      simpa [htext] using hmore.ascii
    rw [hout, map_nil_append]
    refine ⟨?_, htag.html?_eq⟩
    simp only [Expects, head?_cons, hkind]
    exact ⟨more, htag⟩
  · have hlast := hread.tag_last hwhole
    cases hc : t.text.getLast? with
    | none => rw [hc] at hlast; cases hlast
    | some c =>
      rw [hc] at hlast
      rw [Option.any_some, bne_iff_ne]
      rintro rfl
      cases hlast

/-- A token of the code outside directives. -/
theorem codeToken_stands (hpending : s.pending = none) (hcode : isCodeToken t) :
    (plainToken s t rest).Stands rest html := by
  simp only [isCodeToken, Bool.and_eq_true, Bool.not_eq_true', bne_iff_ne] at hcode
  obtain ⟨⟨⟨⟨htrivia, hhtml⟩, hopen⟩, hclose⟩, hend⟩ := hcode
  have hin := hframed.inCode hopen hhtml hend
  obtain ⟨_, hread⟩ := hframed.readable.code hend hopen hhtml
  have hkind : t.kind ≠ .closeTag ∧ t.kind ≠ .comment :=
    ⟨hclose, fun hkind => by rw [Token.isTrivia, hkind] at htrivia; cases htrivia⟩
  have hemitted : ∀ braces : List Bool,
      (({ s with braces } : UnitState).emit t.text).Stands rest html := fun braces =>
    h.emitted hin hframed hpending hkind htrivia hread rfl hpending
  unfold plainToken
  rw [beq_eq_false_iff_ne.2 hopen, beq_eq_false_iff_ne.2 hclose, if_neg Bool.false_ne_true,
    if_neg Bool.false_ne_true]
  split
  · exact hemitted _
  split
  · next hmark =>
    split
    · next braces hbraces =>
      exact h.closing hin hpending hmark (hframed.closing (by simp [hbraces]) hmark)
    · exact hemitted _
  split
  · next hmark => exact h.parenthesis hin hframed hpending hmark hread
  · exact hemitted s.braces

/-- A documentation comment that is kept. -/
theorem retained_stands (hpending : s.pending = none) (hkind : t.kind = .docComment)
    (hfits : (emitMove s t).fits s.bundler) : (plainToken s t rest).Stands rest html := by
  obtain ⟨hin, b, hread⟩ := hframed.documented hkind
  have hplain : plainToken s t rest = .next (s.emit t.text) := by
    simp [plainToken, Token.isPunct, hkind]
  rw [hplain]
  refine @UnitState.Stands.documented s (s.emit t.text) t rest html b (gapBefore s t.text) []
    s.bundler.firstComment h hin hread (all_gapBefore s t.text) rfl ?_ ?_ hpending
  · unfold gapBefore
    split
    · exact not_meets_gap _ _
    · next hspace =>
      obtain ⟨inner, htext⟩ := hread.docComment_eq
      have hlast : s.bundler.last? ≠ some '/' := by
        simpa [emitMove, hspace, Move.fits, hkind] using hfits
      rw [nil_append, htext]
      exact not_meets_comment hlast
  · rw [append_nil]
    rfl

/-- A token outside directives. -/
theorem plainToken_stands (hpending : s.pending = none) (hend : t.kind ≠ .endOfInput)
    (htrivia : t.isTrivia → t.kind = .docComment) (hfits : fitAll s.bundler (plainMoves s t rest)) :
    (plainToken s t rest).Stands rest (html ++ htmlOf [t]) := by
  by_cases hhtml : t.kind = .inlineHtml
  · have hplain : plainToken s t rest = .next (s.emit t.text) := by
      simp [plainToken, Token.isPunct, hhtml]
    have hown : htmlOf [t] = t.text := by simp [hhtml]
    rw [hplain, hown]
    exact html_stands h hframed hhtml (hframed.outside (.inr hhtml))
  rw [htmlOf_of_ne hhtml, append_nil]
  by_cases hopen : t.kind = .openTag
  · exact openTag_stands h hframed hopen (hframed.outside (.inl hopen))
  have hin := hframed.inCode hopen hhtml hend
  by_cases hclose : t.kind = .closeTag
  · obtain ⟨_, hread⟩ := hframed.readable.code hend hopen hhtml
    obtain ⟨last, label, ascii, hawaits, hshows⟩ := h.code hin
    cases hfinal : isUnitEnd rest with
    | true =>
      rw [plainToken_closeTag hclose, hfinal]
      exact hawaits.rests hin hshows (hawaits.of_unitEnd hclose hfinal)
    | false =>
      exact closeTag_leaves hclose hfinal hin hawaits.behind hshows hawaits.ascii_le hpending hread
        hframed.readable.2
  by_cases hdoc : t.kind = .docComment
  · refine retained_stands h hframed hpending hdoc ?_
    simpa [plainMoves, Token.isPunct, hdoc, fitAll] using hfits
  · have hcode : isCodeToken t := by
      have htrivia : t.isTrivia = false := Bool.eq_false_iff.2 fun htrue => hdoc (htrivia htrue)
      simp [isCodeToken, htrivia, hhtml, hopen, hclose, hend]
    exact codeToken_stands h hframed hpending hcode

/-- A token that is not skipped and starts no directive. -/
theorem significantToken_stands (hend : t.kind ≠ .endOfInput)
    (htrivia : t.isTrivia → t.kind = .docComment) (hcall : inlineCall? u.tree u.origin s t = none)
    (hfits : fitAll s.bundler (significantMoves u s t rest)) :
    (significantToken u s t rest).Stands rest (html ++ htmlOf [t]) := by
  unfold significantToken
  cases hpending : s.pending with
  | none =>
    simp only [significantMoves, hpending] at hfits
    exact plainToken_stands h hframed hpending hend htrivia hfits
  | some d =>
    have hin := hframed.tagged.inCode hpending
    have hopen : t.kind ≠ .openTag := fun hkind => by
      rw [hframed.outside (.inl hkind)] at hin
      cases hin
    have hhtml := hframed.not_html hin
    obtain ⟨_, hread⟩ := hframed.readable.code hend hopen hhtml
    have hcollects := h.collects (by simp [hpending])
    rw [htmlOf_of_ne hhtml, append_nil]
    simp only
    split
    · next hends =>
      split
      · trivial
      · next after hrun =>
        obtain ⟨hrests, hcode, hparen⟩ := runDirective_rests (h.rests hin hpending) hin hpending
          hends hcollects.collected.passes
          (fun word hd => hframed.word word (by rw [hpending, hd])) hcall hrun
        split
        · next hclose =>
          have hclose : t.kind = .closeTag := beq_iff_eq.1 hclose
          have hmark : t.isPunct "," = false := by simp [Token.isPunct, hclose]
          exact closeTag_stands hclose hrests (by simp [hmark]) hread hframed.readable.2
            fun _ => hcode
        · next hclose =>
          exact stands_behind_directive hframed hpending hends (by simpa using hclose) hrests hcode
            rfl rfl hparen
    · next hends =>
      have hclose : t.kind ≠ .closeTag := fun hclose => hends (by simp [endsDirective, hclose])
      have hplain : t.isTrivia = false := Bool.eq_false_iff.2 fun htrue =>
        (hframed.plain hpending).1 (htrivia htrue)
      have hcomment : t.kind ≠ .comment := fun hcomment => by
        rw [Token.isTrivia, hcomment] at hplain
        cases hplain
      have hcollected := h.collected hframed hpending ⟨hclose, hcomment⟩ hplain hread
      rw [hpending] at hcollected
      exact hcollected

theorem banner_stands (hkind : t.kind = .docComment) (hfits : (Move.banner t.text).fits s.bundler) :
    ({ s with bundler := (Move.banner t.text).apply s.bundler, space := true } : UnitState).Stands
      rest html := by
  obtain ⟨hin, b, hread⟩ := hframed.documented hkind
  refine @UnitState.Stands.documented s _ t rest html b [] ['\n'] (some t.text) h hin hread rfl rfl
    ?_ rfl (hframed.pending hkind)
  obtain ⟨inner, htext⟩ := hread.docComment_eq
  rw [nil_append, htext]
  exact not_meets_comment (by simpa [Move.fits] using hfits)

/-- A token that inlines no file. -/
theorem stepToken_stands (hcall : inlineCall? u.tree u.origin s t = none)
    (hfits : fitAll s.bundler (stepMoves u s t rest)) :
    (stepToken u s t rest).Stands rest (html ++ htmlOf [t]) := by
  rw [stepToken_eq]
  unfold stepMoves at hfits
  have hpassed : ∀ {r}, role u.options s.bundler t rest = r → r ≠ .significant → r ≠ .last →
      s.bundler.inCode ∧ htmlOf [t] = [] := by
    rintro r rfl hsignificant hlast
    obtain ⟨hopen, _, hhtml, hend⟩ := role_kind hsignificant hlast
    exact ⟨hframed.inCode hopen hhtml hend, htmlOf_of_ne hhtml⟩
  cases hrole : role u.options s.bundler t rest with
  | last =>
    have hkind := kind_of_role_last hrole
    rw [htmlOf_of_ne (by simp [hkind]), append_nil]
    exact h.rests_last hkind
  | significant =>
    rw [hrole] at hfits
    exact significantToken_stands h hframed (fun hend => by simp [role, hend] at hrole)
      (fun htrivia => (kind_of_isTrivia htrivia).resolve_right fun hblank => by
        simp [hblank] at hrole) hcall hfits
  | blank =>
    obtain ⟨hin, hown⟩ := hpassed hrole (by simp) (by simp)
    have htrivia := isTrivia_of_role (.inl hrole)
    rw [hown, append_nil]
    simp only
    split
    · next hsome =>
      exact h.passed hin htrivia rfl rfl (fun hnone => by simp [hnone] at hsome)
        fun hne => .blank (h.collects hne).collected
    · next hnone =>
      exact h.passed hin htrivia rfl rfl (fun _ => rfl) fun hne => by
        simp [Option.isSome_iff_ne_none] at hnone
        exact absurd hnone hne
  | banner =>
    obtain ⟨_, hown⟩ := hpassed hrole (by simp) (by simp)
    rw [hrole] at hfits
    rw [hown, append_nil]
    exact banner_stands h hframed (kind_of_documented (.inl hrole)) (by simpa [fitAll] using hfits)
  | dropped =>
    obtain ⟨hin, hown⟩ := hpassed hrole (by simp) (by simp)
    rw [hown, append_nil]
    have hnone := hframed.pending (kind_of_documented (.inr hrole))
    exact h.passed hin (isTrivia_of_role (.inr (.inr hrole))) rfl rfl (fun _ => rfl)
      fun hne => absurd hnone hne
  | needless =>
    obtain ⟨hin, hown⟩ := hpassed hrole (by simp) (by simp)
    rw [hown, append_nil]
    have hkind := kind_of_needless hrole
    have hdrops : dropsPublic rest := by
      simp only [role, hkind] at hrole
      split at hrole
      · next hdrops => exact hdrops
      · cases hrole
    exact h.needless hin hkind hdrops hframed.readable
  | starts d =>
    obtain ⟨hin, hown⟩ := hpassed hrole (by simp) (by simp)
    rw [hown, append_nil]
    exact h.collect hin (role_starts_iff.1 hrole)

end Steps

end LegacyPhp.Bundle
