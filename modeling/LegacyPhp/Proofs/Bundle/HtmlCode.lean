import LegacyPhp.Proofs.Bundle.HtmlOutput
import LegacyPhp.Proofs.Bundle.OrderlyUnits
import LegacyPhp.Proofs.Bundle.Spacing

/-!
# Copied code shows nothing

In the middle of a unit the output shows some text outside the code already, and more is to come.
`UnitState.Stands` says what may come without changing what is shown. In the code that depends on
the last token, which may have left an opening character at its end, or the label of a heredoc, or
a tag that prints and looks at two characters; `Awaits` says that the tokens that are left keep to
it. Outside the code the next token has to be copied as it is (`Expects`). What has been collected
of a directive can be left out as it stands (`Collects`).

The lemmas here are about tokens of the code outside directives. Some are left out, and then the
next one has to fit the one before (`UnitState.Stands.passed`, `UnitState.Stands.needless`,
`UnitState.Stands.closing`). The others are written behind a gap, which keeps characters apart that
would open something (`not_meets_gap`): a token is `UnitState.Stands.emitted`, a parenthesis takes
a comma back (`UnitState.Stands.parenthesis`), and a documentation comment may stand where no other
token does (`UnitState.Stands.documented`).
-/

namespace LegacyPhp

variable {d : Directive} {x : Token}

/-- A token that is no comma does not end in one. -/
theorem Reads.last_ne_comma {b : Before} {t : Token} {rest : Text}
    (h : Reads true b t.kind t.text rest) (hkind : t.kind ≠ .closeTag ∧ t.kind ≠ .comment)
    (htrivia : t.isTrivia = false) (hcomma : t.isPunct "," = false) :
    t.text.getLast?.any (· != ',') := by
  obtain ⟨c, hlast⟩ : ∃ c, t.text.getLast? = some c :=
    ⟨_, List.getLast?_eq_some_getLast h.text_ne_nil⟩
  rw [hlast, Option.any_some, bne_iff_ne]
  rintro rfl
  rcases h.undelimited hkind with hund | hdoc | hliteral
  · obtain ⟨hmark, htext⟩ := hund.eq_comma hlast
    rw [Token.isPunct, hmark, htext] at hcomma
    cases hcomma
  · rw [Token.isTrivia, hdoc] at htrivia
    cases htrivia
  · have hends := h.endFits
    rw [hliteral, LegacyPhp.endFits, hlast, Option.any_some] at hends
    split at hends <;> cases hends

end LegacyPhp

namespace LegacyPhp.Bundle

open Text Scan Closure List

section Steps

variable {u : UnitContext} {s s' : UnitState} {t : Token} {rest : List Token} {html : Text}

/-! ## Where the output stands in the middle of a unit -/

/-- What follows outside the code is what the tokens say. -/
def Expects (ts : List Token) (more : Text) : Prop :=
  match ts.head? with
  | some t =>
    if t.kind = .inlineHtml then ∃ left, more = t.text ++ left ∧ nextIs (· == '\n') left = false
    else if t.kind = .openTag then ∃ left, StartsWithTag more left
    else Ends more
  | none => Ends more

/-- The tokens that are left are fit to follow code that ends in `last`. -/
structure Awaits (s : UnitState) (ts : List Token) (last : Option Char) (label : Bool)
    (ascii : Nat) : Prop where
  behind : Behind s.bundler last
  label : label → s.pending = none ∧ markComesNext ts
  ascii : ascii ≠ 0 → s.pending = none ∧ startsAscii ascii ts ∧ ascii ≤ 2
  seam : s.pending = none → s.space = false → ∀ t ∈ ts.head?, t.isTrivia = false →
    meets last t.text.head? = false

/-- The tokens that are left are fit to follow what is collected of a directive. -/
structure Collects (cs : Text) (ts : List Token) : Prop where
  collected : Collected cs
  seam : ∀ t ∈ ts.head?, t.isTrivia = false → meets cs.getLast? t.text.head? = false

/-- The output shows `html`, and the tokens that are left are fit to follow. -/
structure UnitState.Stands (s : UnitState) (ts : List Token) (html : Text) : Prop where
  code : s.bundler.inCode → ∃ last label ascii, Awaits s ts last label ascii ∧
    Shows s.bundler (Admits last label ascii) html
  outside : s.bundler.inCode = false → s.space = false ∧ Shows s.bundler (Expects ts) html
  collects : s.pending ≠ none → Collects s.collected ts

/-- What is left after a token: a unit goes on, or comes to rest. -/
def Verdict.Stands (ts : List Token) (html : Text) : Verdict → Prop
  | next s => s.Stands ts html
  | stop b => Rests b html
  | fail _ _ => True

theorem stands_of_code {last : Option Char} {label : Bool} {ascii : Nat}
    (hcode : s.bundler.inCode) (hawaits : Awaits s rest last label ascii)
    (hshows : Shows s.bundler (Admits last label ascii) html)
    (hcollects : s.pending ≠ none → Collects s.collected rest) : s.Stands rest html where
  code _ := ⟨last, label, ascii, hawaits, hshows⟩
  outside hout := by rw [hcode] at hout; cases hout
  collects := hcollects

section Awaiting

variable {last : Option Char} {label : Bool} {ascii : Nat}

theorem markComesNext_cons (h : t.isTrivia = false) (hclose : t.kind ≠ .closeTag) :
    markComesNext (t :: rest) = (t.kind == .punctuation && t.text != ['}']) := by
  rw [markComesNext, h, beq_eq_false_iff_ne.2 hclose]
  rfl

theorem startsAscii_cons (h : t.isTrivia = false) (hclose : t.kind ≠ .closeTag)
    (hascii : ascii ≠ 0) :
    startsAscii ascii (t :: rest) = (isSurelyCopied t &&
      (t.text.take ascii).all (·.toNat < 0x80) && startsAscii (ascii - t.text.length) rest) := by
  rw [startsAscii, h, beq_eq_false_iff_ne.2 hclose, beq_eq_false_iff_ne.2 hascii]
  rfl

theorem awaits_plain (hbehind : Behind s.bundler last)
    (hseam : s.pending = none → s.space = false → ∀ t ∈ rest.head?, t.isTrivia = false →
      meets last t.text.head? = false) : Awaits s rest last false 0 :=
  ⟨hbehind, nofun, fun h => absurd rfl h, hseam⟩

theorem Awaits.of_pending (h : Awaits s rest last label ascii) (hd : s.pending = some d) :
    label = false ∧ ascii = 0 := by
  constructor
  · refine Bool.eq_false_iff.2 fun hlabel => ?_
    rw [(h.label hlabel).1] at hd
    cases hd
  · by_contra hascii
    rw [(h.ascii hascii).1] at hd
    cases hd

theorem Awaits.of_left_out (h : Awaits s (t :: rest) last label ascii)
    (htrivia : t.isTrivia = false) (hclose : t.kind ≠ .closeTag)
    (hcopied : isSurelyCopied t = false)
    (hmark : (t.kind == .punctuation && t.text != ['}']) = false) : label = false ∧ ascii = 0 := by
  constructor
  · refine Bool.eq_false_iff.2 fun hlabel => ?_
    have hnext := (h.label hlabel).2
    rw [markComesNext_cons htrivia hclose, hmark] at hnext
    cases hnext
  · by_contra hascii
    have hnext := (h.ascii hascii).2.1
    rw [startsAscii_cons htrivia hclose hascii, hcopied] at hnext
    cases hnext

theorem Awaits.of_unitEnd (h : Awaits s (t :: rest) last label ascii) (hkind : t.kind = .closeTag)
    (hend : isUnitEnd rest) : label = false ∧ ascii = 0 := by
  have htrivia : t.isTrivia = false := by rw [Token.isTrivia, hkind]; rfl
  constructor
  · refine Bool.eq_false_iff.2 fun hlabel => ?_
    have hnext := (h.label hlabel).2
    simp [markComesNext, htrivia, hkind, hend] at hnext
  · by_contra hascii
    have hnext := (h.ascii hascii).2.1
    simp [startsAscii, htrivia, hkind, hend, hascii] at hnext

theorem Awaits.ascii_le (h : Awaits s rest last label ascii) : ascii ≤ 2 := by
  by_cases hzero : ascii = 0
  · omega
  · exact (h.ascii hzero).2.2

theorem Awaits.rests (h : Awaits s rest last label ascii) (hcode : s.bundler.inCode)
    (hshows : Shows s.bundler (Admits last label ascii) html) (hplain : label = false ∧ ascii = 0) :
    Rests s.bundler html := by
  obtain ⟨rfl, rfl⟩ := hplain
  exact rests_of_code hcode h.behind hshows

theorem Awaits.passed (h : Awaits s (t :: rest) last label ascii) (htrivia : t.isTrivia)
    (hbundler : s'.bundler = s.bundler) (hpending : s'.pending = s.pending)
    (hspace : s.pending = none → s'.space) : Awaits s' rest last label ascii where
  behind := by rw [hbundler]; exact h.behind
  label hlabel := by
    obtain ⟨hnone, hnext⟩ := h.label hlabel
    rw [markComesNext, htrivia, if_pos rfl] at hnext
    exact ⟨hpending.trans hnone, hnext⟩
  ascii hascii := by
    obtain ⟨hnone, hnext, hle⟩ := h.ascii hascii
    rw [startsAscii, htrivia, beq_eq_false_iff_ne.2 hascii] at hnext
    exact ⟨hpending.trans hnone, hnext, hle⟩
  seam hnone hout := by
    rw [hspace (hpending.symm.trans hnone)] at hout
    cases hout

end Awaiting

/-! ## Tokens that write nothing -/

theorem UnitState.Stands.passed (h : s.Stands (t :: rest) html) (hcode : s.bundler.inCode)
    (htrivia : t.isTrivia) (hbundler : s'.bundler = s.bundler)
    (hpending : s'.pending = s.pending) (hspace : s.pending = none → s'.space)
    (hcollects : s.pending ≠ none → Collects s'.collected rest) : s'.Stands rest html := by
  obtain ⟨last, label, ascii, hawaits, hshows⟩ := h.code hcode
  refine stands_of_code (by rw [hbundler]; exact hcode)
    (hawaits.passed htrivia hbundler hpending hspace) (by rw [hbundler]; exact hshows) ?_
  rw [hpending]
  exact hcollects

theorem Collects.blank {cs : Text} (h : Collected cs) : Collects (cs ++ [' ']) rest where
  collected := h.blank
  seam t _ _ := by
    rw [getLast?_append_of_ne_nil _ (cons_ne_nil _ _)]
    exact not_meets_of_not_mem_left (by decide) _

theorem UnitState.Stands.collect (h : s.Stands (t :: rest) html) (hcode : s.bundler.inCode)
    (hstarted : started? (t.kind, t.text) = some d) : (s.collect d).Stands rest html := by
  obtain ⟨word, hkind⟩ := keyword_of_started hstarted
  have hkind : t.kind = .keyword word := hkind
  obtain ⟨last, label, ascii, hawaits, hshows⟩ := h.code hcode
  obtain ⟨rfl, rfl⟩ := hawaits.of_left_out (by rw [Token.isTrivia, hkind]; rfl) (by simp [hkind])
    (by simp [isSurelyCopied, hstarted]) (by simp [hkind])
  have hpending : (s.collect d).pending ≠ none := by simp [UnitState.collect]
  exact stands_of_code hcode (awaits_plain hawaits.behind fun h => absurd h hpending) hshows
    fun _ => ⟨collected_nil, fun _ _ _ => rfl⟩

theorem Readable.isTrivia_of_needless (h : Readable (t :: rest))
    (hkind : t.kind = .keyword .publicKw) (hdrops : dropsPublic rest) (hx : x ∈ rest.head?) :
    x.isTrivia := by
  have hword := h.not_isWord (by rw [Token.isWord, hkind]) x hx
  cases rest with
  | nil => cases hx
  | cons y rest =>
    obtain rfl : y = x := by simpa using hx
    have hnot : ∀ k : Keyword, y.isKeyword k = false := fun k => by
      refine Bool.eq_false_iff.2 fun hk => ?_
      rw [Token.isWord, eq_of_beq hk] at hword
      cases hword
    by_contra htrivia
    simp [dropsPublic, Stream.isNext_cons, Stream.fetch_cons, htrivia, isFunctionModifier, hnot]
      at hdrops

theorem UnitState.Stands.needless (h : s.Stands (t :: rest) html) (hcode : s.bundler.inCode)
    (hkind : t.kind = .keyword .publicKw) (hdrops : dropsPublic rest)
    (hread : Readable (t :: rest)) : s.Stands rest html := by
  obtain ⟨last, label, ascii, hawaits, hshows⟩ := h.code hcode
  have htrivia : t.isTrivia = false := by rw [Token.isTrivia, hkind]; rfl
  have hnext : ∀ {p : Prop} {x : Token}, x ∈ rest.head? → x.isTrivia = false → p := by
    intro p x hx hx'
    rw [hread.isTrivia_of_needless hkind hdrops hx] at hx'
    cases hx'
  obtain ⟨rfl, rfl⟩ := hawaits.of_left_out htrivia (by simp [hkind])
    (by simp [isSurelyCopied, hkind]) (by simp [hkind])
  exact stands_of_code hcode (awaits_plain hawaits.behind fun _ _ x => hnext) hshows fun hne =>
    ⟨(h.collects hne).collected, fun _ => hnext⟩

theorem not_meets_of_completes (h : rest.head?.any completes = false) (hx : x ∈ rest.head?)
    (htrivia : x.isTrivia = false) (last : Option Char) : meets last x.text.head? = false := by
  rw [Option.mem_def.1 hx] at h
  have h : completes x = false := h
  rw [completes, htrivia, Bool.not_false, Bool.true_and] at h
  cases htext : x.text.head? with
  | none => exact meets_none_right last
  | some c =>
    rw [htext] at h
    exact not_meets_of_not_mem (fun hmem => by
      rw [Option.any_some, contains_iff_mem.2 hmem] at h
      cases h) last

theorem UnitState.Stands.closing {braces : List Bool} (h : s.Stands (t :: rest) html)
    (hcode : s.bundler.inCode) (hpending : s.pending = none)
    (hmark : t.isPunct "\x7d") (hnext : rest.head?.any completes = false) :
    ({ s with braces } : UnitState).Stands rest html := by
  obtain ⟨last, label, ascii, hawaits, hshows⟩ := h.code hcode
  obtain ⟨rfl, rfl⟩ := hawaits.of_left_out (Token.not_isTrivia_of_isPunct hmark)
    (by simp [kind_of_isPunct hmark]) (by simp [isSurelyCopied, hmark])
    (by simp [text_of_isPunct hmark])
  exact stands_of_code hcode (awaits_plain hawaits.behind fun _ _ x hx hx' =>
    not_meets_of_completes hnext hx hx' last) hshows fun hne => absurd hpending hne

/-! ## Tokens of the code -/

theorem not_meets_gap (last : Option Char) (text : Text) :
    meets last (gap last text.head? ++ text).head? = false := by
  unfold gap
  split
  · exact not_meets_of_not_mem (by decide) last
  split
  · exact not_meets_of_not_mem (by decide) last
  · next hfuse =>
    refine Bool.eq_false_iff.2 fun hmeets => hfuse ?_
    rw [nil_append] at hmeets
    obtain ⟨c, d, hc, hd, hpair⟩ := exists_of_meets hmeets
    rw [hc, hd]
    have hall : ∀ p ∈ [('?', '>'), ('/', '/'), ('/', '*'), ('<', '<')],
        wouldFuse (some p.1) (some p.2) := by decide
    exact hall _ hpair

/-- What is put in front of a token. -/
def gapBefore (s : UnitState) (text : Text) : Text :=
  if s.space then gap s.bundler.last? text.head? else []

theorem all_gapBefore (s : UnitState) (text : Text) : (gapBefore s text).all isSpace := by
  unfold gapBefore
  split
  · rcases gap_eq s.bundler.last? text.head? with hgap | hgap
    · rw [hgap]
      rfl
    · exact hgap.2
  · rfl

theorem emit_bundler (s : UnitState) (text : Text) :
    (s.emit text).bundler = s.bundler.write (gapBefore s text ++ text) := rfl

theorem html?_gap (s : UnitState) (text more : Text) :
    html? true (gapBefore s text ++ text ++ more) = html? true (text ++ more) := by
  rw [append_assoc]
  exact html?_inert (inert_of_all (forall_mem_of_all (by decide)) (all_gapBefore s text) _)

section Copied

variable {last : Option Char} {label : Bool} {ascii : Nat} {b : Before}

/-- The token that comes next may follow, with a gap in front of it. -/
theorem Awaits.admits (h : Awaits s (t :: rest) last label ascii) (hpending : s.pending = none)
    (htrivia : t.isTrivia = false) (hclose : t.kind ≠ .closeTag)
    (hread : Reads true b t.kind t.text (serialize rest)) {more : Text}
    (hmore : ∀ c ∈ more.take (ascii - t.text.length), c.toNat < 0x80) :
    Admits last label ascii (gapBefore s t.text ++ t.text ++ more) where
  meets := by
    have hne : gapBefore s t.text ++ t.text ≠ [] :=
      append_ne_nil_of_right_ne_nil _ hread.text_ne_nil
    rw [head?_append_of_ne_nil _ hne]
    unfold gapBefore
    split
    · exact h.behind _ (not_meets_gap _ _)
    · next hspace => exact h.seam hpending (Bool.eq_false_iff.2 hspace) t rfl htrivia
  label hlabel := by
    have hmark := (h.label hlabel).2
    rw [markComesNext_cons htrivia hclose, Bool.and_eq_true, beq_iff_eq] at hmark
    rw [hmark.1] at hread
    have hgap := all_gapBefore s t.text
    cases hg : gapBefore s t.text with
    | nil => exact hread.not_isIdentChar more
    | cons c cs =>
      rw [hg, all_cons, Bool.and_eq_true] at hgap
      exact not_isIdentChar_of_isSpace hgap.1
  ascii c hc := by
    by_cases hzero : ascii = 0
    · rw [hzero] at hc
      cases hc
    have hascii := (h.ascii hzero).2.1
    rw [startsAscii_cons htrivia hclose hzero, Bool.and_eq_true, Bool.and_eq_true] at hascii
    rw [append_assoc, take_append, take_append] at hc
    rcases mem_append.1 hc with hgap | hc
    · have hspace := all_gapBefore s t.text
      exact ascii_of_isSpace (all_eq_true.1 hspace c (mem_of_mem_take hgap))
    rcases mem_append.1 hc with htext | hrest
    · have hmem : c ∈ t.text.take ascii :=
        take_subset_take_left _ (Nat.sub_le _ _) htext
      simpa using all_eq_true.1 hascii.1.2 c hmem
    · refine hmore c (take_subset_take_left _ ?_ hrest)
      omega

/-- What a token of the code awaits behind it. -/
theorem Awaits.emitted (h : Awaits s (t :: rest) last label ascii) (hframed : s.Framed (t :: rest))
    (hkind : t.kind ≠ .closeTag ∧ t.kind ≠ .comment) (htrivia : t.isTrivia = false)
    (hread : Reads true b t.kind t.text (serialize rest))
    (hbundler : s'.bundler = s.bundler.write (gapBefore s t.text ++ t.text))
    (hpending : s'.pending = none) :
    Awaits s' rest (openEnd t.kind t.text) (isHeredoc t.kind t.text) (ascii - t.text.length) where
  behind d hd := by
    rw [hbundler, last?_write _ (append_ne_nil_of_right_ne_nil _ hread.text_ne_nil),
      getLast?_append_of_ne_nil _ hread.text_ne_nil] at hd
    unfold openEnd
    split
    · rfl
    · rfl
    · exact hd
  label hlabel := by
    obtain ⟨_, horderly, _⟩ := hframed.orderly
    rw [orderly, Bool.and_eq_true, Bool.and_eq_true] at horderly
    have hliteral : t.kind = .stringLiteral := by
      rw [isHeredoc, Bool.and_eq_true, beq_iff_eq] at hlabel
      exact hlabel.1
    have hone := horderly.1.1
    rw [isOrderly, hliteral] at hone
    rw [hliteral] at hlabel
    simp only [hlabel, Bool.not_true, Bool.false_or, Bool.and_eq_true] at hone
    exact ⟨hpending, hone.2⟩
  ascii hascii := by
    have hzero : ascii ≠ 0 := fun hzero => hascii (by rw [hzero, Nat.zero_sub])
    obtain ⟨_, hnext, hle⟩ := h.ascii hzero
    rw [startsAscii_cons htrivia hkind.1 hzero, Bool.and_eq_true] at hnext
    exact ⟨hpending, hnext.2, Nat.le_trans (Nat.sub_le _ _) hle⟩
  seam _ _ x hx _ := by
    have hmeets := hread.not_meets hkind
    rcases hframed.readable.2.head?_serialize hx with hnil | hhead
    · rw [hnil]
      exact meets_none_right _
    · rwa [hhead] at hmeets

/-- A token of the code is written. -/
theorem UnitState.Stands.emitted (h : s.Stands (t :: rest) html) (hcode : s.bundler.inCode)
    (hframed : s.Framed (t :: rest)) (hnone : s.pending = none)
    (hkind : t.kind ≠ .closeTag ∧ t.kind ≠ .comment) (htrivia : t.isTrivia = false)
    (hread : Reads true b t.kind t.text (serialize rest))
    (hbundler : s'.bundler = s.bundler.write (gapBefore s t.text ++ t.text))
    (hpending : s'.pending = none) : s'.Stands rest html := by
  obtain ⟨last, label, ascii, hawaits, hshows⟩ := h.code hcode
  have hcode' : s'.bundler.inCode := by rw [hbundler]; exact hcode
  refine stands_of_code hcode' (hawaits.emitted hframed hkind htrivia hread hbundler hpending) ?_
    fun hne => absurd hpending hne
  have hmore : ∀ more, Admits (openEnd t.kind t.text) (isHeredoc t.kind t.text)
      (ascii - t.text.length) more →
      Admits last label ascii (gapBefore s t.text ++ t.text ++ more) ∧
        html? true (gapBefore s t.text ++ t.text ++ more) = html? true more := by
    intro more hmore
    refine ⟨hawaits.admits hnone htrivia hkind.1 hread hmore.ascii, ?_⟩
    rw [html?_gap]
    exact hread.html?_code hkind hmore.meets hmore.label
  rw [hbundler]
  cases hcomma : t.isPunct "," with
  | false =>
    refine shows_code hcode hshows.leads hshows.names hmore ?_
    rw [getLast?_append_of_ne_nil _ hread.text_ne_nil]
    exact hread.last_ne_comma hkind htrivia hcomma
  | true =>
    -- the comma may be taken back
    have htext : t.text = [','] := text_of_isPunct hcomma
    have hgap : gapBefore s t.text = [] := by
      unfold gapBefore
      split
      · rw [htext]
        exact gap_eq_nil (.inl rfl) _
      · rfl
    have hzero : ascii = 0 := by
      by_contra hzero
      have hnext := (hawaits.ascii hzero).2.1
      rw [startsAscii_cons htrivia hkind.1 hzero, isSurelyCopied, hcomma] at hnext
      simp at hnext
    refine ⟨hshows.leads.code hcode hmore, hshows.names, fun _ out hout more hparen => ?_⟩
    rw [hgap, htext, nil_append, Bundler.output_write] at hout
    rw [← append_cancel_right hout, hshows.leads more, hcode]
    obtain ⟨d, more, rfl⟩ : ∃ d left, more = d :: left := by
      cases more with
      | nil => cases hparen
      | cons d left => exact ⟨d, left, rfl⟩
    obtain rfl : d = ')' := by simpa [nextIs] using hparen
    exact ⟨not_meets_of_not_mem (by decide) last, fun _ => rfl, by simp [hzero]⟩

/-- A closing parenthesis is written. It takes back a comma before it. -/
theorem UnitState.Stands.parenthesis (h : s.Stands (t :: rest) html)
    (hcode : s.bundler.inCode) (hframed : s.Framed (t :: rest)) (hnone : s.pending = none)
    (hmark : t.isPunct ")") (hread : Reads true b t.kind t.text (serialize rest)) :
    ((s.change (·.dropComma)).emit t.text).Stands rest html := by
  have hkind := kind_of_isPunct hmark
  by_cases hcomma : s.bundler.last? = some ','
  · obtain ⟨last, label, ascii, hawaits, hshows⟩ := h.code hcode
    have htext : t.text = [')'] := text_of_isPunct hmark
    obtain ⟨out, hout⟩ : ∃ out, s.bundler.reversed = ',' :: out := by
      unfold Bundler.last? at hcomma
      cases hrev : s.bundler.reversed with
      | nil => rw [hrev] at hcomma; cases hcomma
      | cons c out => rw [hrev] at hcomma; cases hcomma; exact ⟨out, rfl⟩
    have hdrop : s.bundler.dropComma = { s.bundler with reversed := out } := by
      simp [Bundler.dropComma, hout]
    have hgap : gapBefore (s.change (·.dropComma)) t.text = [] := by
      unfold gapBefore
      split
      · rw [htext]
        exact gap_eq_nil (.inr rfl) _
      · rfl
    have hbundler : ((s.change (·.dropComma)).emit t.text).bundler =
        ({ s.bundler with reversed := out } : Bundler).write [')'] := by
      rw [emit_bundler, hgap, htext, ← hdrop]
      rfl
    refine stands_of_code (by rw [hbundler]; exact hcode) (@awaits_plain _ _ none (fun _ _ => rfl)
      fun _ _ _ _ _ => rfl) ?_ fun hne => absurd hnone hne
    rw [hbundler]
    refine ⟨fun more _ => ?_, hshows.names, fun _ out hout => absurd hout (output_ne_comma rfl out)⟩
    have hback := hshows.comma hcode out.reverse (by simp [Bundler.output, hout]) (')' :: more) rfl
    rw [html?_cons (by simp [opensWhole])] at hback
    rw [Bundler.output_write, append_assoc]
    have hin : (({ s.bundler with reversed := out } : Bundler).write [')']).inCode := hcode
    rw [hin]
    exact hback
  · have hchange : s.change (·.dropComma) = s := by
      show ({ s with bundler := s.bundler.dropComma } : UnitState) = s
      rw [dropComma_eq hcomma]
    rw [hchange]
    exact h.emitted hcode hframed hnone (by simp [hkind]) (Token.not_isTrivia_of_isPunct hmark)
      hread rfl hnone

theorem not_meets_comment {inner : Text} (h : last ≠ some '/') :
    meets last ('/' :: inner).head? = false := by
  refine Bool.eq_false_iff.2 fun hmeets => ?_
  obtain ⟨c, d, rfl, hd, hpair⟩ := exists_of_meets hmeets
  have hall : ∀ p ∈ [('?', '>'), ('/', '/'), ('/', '*'), ('<', '<')], p.2 = '/' → p.1 = '/' := by
    decide
  exact h (congrArg some (hall _ hpair (Option.some.inj hd).symm))

/-- Two marks may follow whatever is awaited, with white space in front of them. -/
theorem admits_marks {white more : Text} {d e : Char} (hwhite : white.all isSpace)
    (hd : isIdentChar d = false ∧ d.toNat < 0x80) (he : e.toNat < 0x80)
    (hmeets : meets last (white ++ d :: e :: more).head? = false) (hascii : ascii ≤ 2) :
    Admits last label ascii (white ++ d :: e :: more) where
  meets := hmeets
  label _ := by
    cases white with
    | nil => exact hd.1
    | cons c white =>
      rw [all_cons, Bool.and_eq_true] at hwhite
      exact not_isIdentChar_of_isSpace hwhite.1
  ascii c hc := by
    rw [take_append] at hc
    rcases mem_append.1 hc with hgap | hc
    · exact ascii_of_isSpace (all_eq_true.1 hwhite c (mem_of_mem_take hgap))
    · have htwo := take_subset_take_left _ (Nat.le_trans (Nat.sub_le _ _) hascii) hc
      have hmarks : c = d ∨ c = e := by simpa using htwo
      rcases hmarks with rfl | rfl
      · exact hd.2
      · exact he

/-- A documentation comment is written. -/
theorem UnitState.Stands.documented {white tail : Text} {firstComment : Option Text}
    (h : s.Stands (t :: rest) html) (hcode : s.bundler.inCode)
    (hread : Reads true b .docComment t.text (serialize rest))
    (hwhite : white.all isSpace) (htail : tail.all isSpace)
    (hfirst : meets s.bundler.last? (white ++ t.text).head? = false)
    (hbundler : s'.bundler = { s.bundler.write (white ++ t.text ++ tail) with firstComment })
    (hpending : s'.pending = none) : s'.Stands rest html := by
  obtain ⟨last, label, ascii, hawaits, hshows⟩ := h.code hcode
  obtain ⟨inner, htext⟩ := hread.docComment_eq
  have hspace : ∀ c ∈ openers, isSpace c = false := forall_mem_of_all (by decide)
  refine stands_of_code (by rw [hbundler]; exact hcode) (@awaits_plain _ _ none (fun _ _ => rfl)
      fun _ _ _ _ _ => rfl) ?_ fun hne => absurd hpending hne
  have hwritten : Shows (s.bundler.write (white ++ t.text ++ tail)) (Admits none false 0) html := by
    refine shows_code hcode hshows.leads hshows.names (fun more _ => ⟨?_, ?_⟩) ?_
    · have hfirst' : meets last (white ++ '/' :: '*' :: (inner ++ ['/'] ++ (tail ++ more))).head? =
          false := by
        have hsame := hawaits.behind _ hfirst
        cases white <;> simpa [htext] using hsame
      have hadmits := @admits_marks last label ascii _ _ _ _ hwhite (by decide) (by decide) hfirst'
        hawaits.ascii_le
      simpa [htext] using hadmits
    · rw [append_assoc, append_assoc, html?_inert (inert_of_all hspace hwhite _),
        hread.html?_code (by simp) rfl (by simp [isHeredoc]),
        html?_inert (inert_of_all hspace htail _)]
    · have hlast := getLast?_any_of_all (p := (· != ',')) (u := '/' :: tail) (cons_ne_nil _ _)
        ?_ (white ++ '/' :: '*' :: inner)
      · simpa [htext] using hlast
      · rw [all_cons, Bool.and_eq_true]
        refine ⟨rfl, all_eq_true.2 fun c hc => bne_iff_ne.2 ?_⟩
        rintro rfl
        cases all_eq_true.1 htail ',' hc
  rw [hbundler]
  exact ⟨hwritten.leads, hwritten.names, hwritten.comma⟩

end Copied

end Steps

end LegacyPhp.Bundle
