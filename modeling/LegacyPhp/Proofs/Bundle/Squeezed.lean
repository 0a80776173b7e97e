import LegacyPhp.Proofs.Bundle.Run
import LegacyPhp.Proofs.Token.Relex

/-!
# What is written of plain code

A unit without directives, tags and documentation comments is copied token by token, and what is
written depends on little: the last character that was written, and whether something was left out
since. `squeezed` says what it is. A comma before a closing parenthesis is the one thing that is
written and taken back later; for the text it is as if it had never been there
(`copyTokens_plain`), so that the tokens that are left are those that `needed` lists.
-/

namespace LegacyPhp.Bundle

open Text Scan LegacyPhp.Stream List

/-! ## Tokens that go without saying -/

/-- The reserved word `function`, or a modifier in front of it. -/
def declaresFunction (shapes : List Shape) : Bool :=
  shapes.head?.any (·.1 == .keyword .functionKw) ||
    (shapes.head?.any (fun s => s.1 == .keyword .staticKw || s.1 == .keyword .abstractKw ||
      s.1 == .keyword .finalKw) && shapes.tail.head?.any (·.1 == .keyword .functionKw))

/-- Whether a closing parenthesis comes next. -/
def closesNext (shapes : List Shape) : Bool := shapes.head? == some (.punctuation, [')'])

/-- Whether a token goes without saying in front of others: `public` before a function, a comma
before a closing parenthesis. -/
def isNeedless (s : Shape) (rest : List Shape) : Bool :=
  (s.1 == .keyword .publicKw && declaresFunction rest) ||
    (s == (.punctuation, [',']) && closesNext rest)

/-- The tokens without those that go without saying. -/
def needed : List Shape → List Shape
  | [] => []
  | s :: rest => if isNeedless s rest then needed rest else s :: needed rest

theorem dropsPublic_eq (ts : List Token) : dropsPublic ts = declaresFunction (significant ts) := by
  have hfunction : ∀ us, isNext (·.isKeyword .functionKw) us =
      (significant us).head?.any (·.1 == .keyword .functionKw) :=
    isNext_eq_any (·.1 == .keyword .functionKw)
  have hmodifier := isNext_eq_any (fun s => s.1 == .keyword .staticKw ||
    s.1 == .keyword .abstractKw || s.1 == .keyword .finalKw) ts
  unfold dropsPublic declaresFunction
  rw [hfunction, ← hmodifier]
  cases hfetch : fetch isFunctionModifier ts with
  | none =>
    have hnot : isNext isFunctionModifier ts = false := by rw [← isSome_fetch, hfetch]; rfl
    have hnot : isNext (fun t => t.kind == .keyword .staticKw || t.kind == .keyword .abstractKw ||
      t.kind == .keyword .finalKw) ts = false := hnot
    rw [hnot]
    rfl
  | some entry =>
    have hnext : isNext isFunctionModifier ts := by rw [← isSome_fetch, hfetch]; rfl
    have hnext : isNext (fun t => t.kind == .keyword .staticKw || t.kind == .keyword .abstractKw ||
      t.kind == .keyword .finalKw) ts := hnext
    rw [hnext, significant_of_fetch hfetch]
    simp only [hfunction]
    rfl

theorem keyword_of_declaresFunction {s : Shape} {shapes : List Shape}
    (h : declaresFunction (s :: shapes)) : ∃ word, s.1 = .keyword word := by
  simp only [declaresFunction, head?_cons, Option.any_some, Bool.or_eq_true, Bool.and_eq_true,
    beq_iff_eq] at h
  rcases h with hword | ⟨(hword | hword) | hword, _⟩
  all_goals exact ⟨_, hword⟩

theorem declaresFunction_append (shapes : List Shape) {more : List Shape}
    (h : ∀ s ∈ more.head?, ∀ word, s.1 ≠ .keyword word) :
    declaresFunction (shapes ++ more) = declaresFunction shapes := by
  cases more with
  | nil => rw [append_nil]
  | cons s more =>
    have hs := h s rfl
    obtain _ | ⟨s', _ | ⟨s'', shapes⟩⟩ := shapes
    · simp [declaresFunction, hs]
    · simp [declaresFunction, hs]
    · rfl

/-! ## The text of plain code -/

/-- What is written for tokens, behind a text that ends in `last`. -/
def squeezed (last : Option Char) (space : Bool) : List Token → Text
  | [] => []
  | t :: ts =>
    if t.isTrivia then squeezed last true ts
    else if isNeedless (t.kind, t.text) (significant ts) then squeezed last space ts
    else
      (if space then gap last t.text.head? else []) ++ (t.text ++ squeezed t.text.getLast? false ts)

/-- Whether a token is copied as it is: it starts no directive, and it is neither a tag nor text
outside the code nor documentation. -/
def isPlainCode (t : Token) : Bool :=
  match t.kind with
  | .keyword word => !(word == .namespaceKw || word == .useKw || word.isInclusion)
  | .inlineHtml | .openTag | .closeTag | .docComment | .endOfInput => false
  | _ => true

theorem gap_eq_nil {c : Char} (hc : c = ',' ∨ c = ')') (last : Option Char) :
    gap last (some c) = [] := by
  have hfuse : wouldFuse last (some c) = false := by
    cases last with
    | none => rfl
    | some a =>
      have hnot : (fusingAfter a).contains c = false := by
        unfold fusingAfter
        rcases hc with rfl | rfl <;> split <;> decide
      have hdigit : c.isDigit = false ∧ (c == '.') = false := by rcases hc with rfl | rfl <;> decide
      rw [wouldFuse, hnot, hdigit.1, hdigit.2, Bool.and_false, Bool.false_and]
      rfl
  have hsep : isSeparator (some c) := by rcases hc with rfl | rfl <;> decide
  rw [gap, hfuse, hsep]
  simp

/-- Nothing is put in front of a closing parenthesis. -/
theorem squeezed_of_closesNext {ts : List Token} (h : closesNext (significant ts))
    (last : Option Char) (space : Bool) : squeezed last space ts = squeezed last true ts := by
  cases ts with
  | nil => cases h
  | cons t ts =>
    rw [squeezed, squeezed]
    cases ht : t.isTrivia with
    | true => rfl
    | false =>
      rw [significant_cons, ht] at h
      have hshape : (t.kind, t.text) = (.punctuation, [')']) := by simpa [closesNext] using h
      obtain ⟨hkind, htext⟩ := Prod.mk.inj hshape
      have hneeded : isNeedless (t.kind, t.text) (significant ts) = false := by
        rw [hshape]
        simp [isNeedless]
      have hgap : gap last t.text.head? = [] := by
        rw [htext]
        exact gap_eq_nil (.inr rfl) last
      rw [hneeded, hgap]
      simp

/-! ## Copying plain code -/

theorem write_write (b : Bundler) (first second : Text) :
    (b.write first).write second = b.write (first ++ second) := by
  simp [Bundler.write]

theorem last?_write (b : Bundler) {text : Text} (h : text ≠ []) :
    (b.write text).last? = text.getLast? := by
  have hsome : text.getLast?.isSome := getLast?_isSome.2 h
  rw [Bundler.last?, Bundler.write, head?_append, head?_reverse]
  exact Option.or_of_isSome hsome

theorem dropComma_eq {b : Bundler} (h : b.last? ≠ some ',') : b.dropComma = b := by
  unfold Bundler.dropComma
  split
  · next rest hrev =>
    rw [Bundler.last?, hrev] at h
    exact absurd rfl h
  · rfl

/-- The bundle without the comma that the next token takes back. -/
def settled (shapes : List Shape) (b : Bundler) : Bundler :=
  if closesNext shapes then b.dropComma else b

/-- The state in the middle of plain code: no directive is pending and no namespace was opened. -/
structure UnitState.Plain (s : UnitState) : Prop where
  pending : s.pending = none
  braces : s.braces.all (!·)

/-- The text that is written for a token. -/
def emitted (s : UnitState) (b : Bundler) (text : Text) : Text :=
  (if s.space then gap b.last? text.head? else []) ++ text

variable {u : UnitContext} {s : UnitState} {t : Token} {rest : List Token}

theorem stepToken_trivia (hs : s.Plain) (hplain : isPlainCode t) (ht : t.isTrivia) :
    stepToken u s t rest = .next { s with space := true } := by
  have hkind : t.kind = .whitespace ∨ t.kind = .comment := by
    unfold isPlainCode at hplain
    unfold Token.isTrivia at ht
    cases hkind : t.kind <;> simp_all [TokenKind.isTrivia]
  have hpending : s.pending.isSome = false := by rw [hs.pending]; rfl
  rcases hkind with hkind | hkind <;> simp [stepToken, hkind, hpending]

theorem stepToken_needless (hpublic : t.kind = .keyword .publicKw)
    (hdrops : dropsPublic rest) : stepToken u s t rest = .next s := by
  simp [stepToken, hpublic, hdrops]

theorem stepToken_significant (hs : s.Plain) (hplain : isPlainCode t)
    (ht : t.isTrivia = false) (hpublic : t.kind = .keyword .publicKw → dropsPublic rest = false) :
    stepToken u s t rest = plainToken s t rest := by
  have hsignificant : significantToken u s t rest = plainToken s t rest := by
    simp only [significantToken, hs.pending]
  rw [← hsignificant]
  unfold stepToken
  unfold isPlainCode at hplain
  unfold Token.isTrivia at ht
  split
  · next hkind => simp [hkind] at hplain
  · next hkind => rw [hkind] at ht; cases ht
  · next hkind => rw [hkind] at ht; cases ht
  · next hkind => rw [hkind] at ht; cases ht
  · next hkind => rw [hpublic hkind]; rfl
  · next hkind => simp [hkind] at hplain
  · next hkind => simp [hkind] at hplain
  · next word _ _ _ hkind =>
    simp only [hkind, Bool.not_eq_true', Bool.or_eq_false_iff] at hplain
    rw [hplain.2]
    rfl
  · rfl

/-- A token of plain code is written, and a comma before a parenthesis is taken back. -/
theorem plainToken_eq (hs : s.Plain) (hplain : isPlainCode t) :
    ∃ after : UnitState, plainToken s t rest = .next after ∧ after.Plain ∧ after.space = false ∧
      after.bundler = (settled [(t.kind, t.text)] s.bundler).write
        (emitted s (settled [(t.kind, t.text)] s.bundler) t.text) := by
  obtain ⟨hpending, hbraces⟩ := hs
  have hopen : (t.kind == .openTag) = false ∧ (t.kind == .closeTag) = false := by
    unfold isPlainCode at hplain
    cases hkind : t.kind <;> simp_all
  have hparen : closesNext [(t.kind, t.text)] = t.isPunct ")" := by
    rw [Token.isPunct, closesNext, head?_cons]
    rfl
  unfold plainToken settled
  rw [hopen.1, hopen.2, hparen]
  simp only [Bool.false_eq_true, if_false]
  split
  · next hbrace =>
    rw [isPunct_eq_false hbrace (by decide)]
    exact ⟨_, rfl, ⟨hpending, by simpa [UnitState.emit] using hbraces⟩, rfl, rfl⟩
  split
  · next hbrace =>
    rw [isPunct_eq_false hbrace (by decide)]
    split
    · next braces hopened =>
      rw [hopened] at hbraces
      cases hbraces
    · refine ⟨_, rfl, ⟨hpending, ?_⟩, rfl, rfl⟩
      exact all_eq_true.2 fun x hx => all_eq_true.1 hbraces x (mem_of_mem_tail hx)
  split <;> exact ⟨_, rfl, ⟨hpending, hbraces⟩, rfl, rfl⟩

/-- Nothing but a comma ends in one. -/
def endsPlainly (t : Token) : Bool :=
  t.isTrivia || (!t.text.isEmpty && (t.text.getLast? != some ',' || t.isPunct ","))

/-- A comma that is taken back leaves nothing, and any other token stays. -/
theorem write_settled
    (hpublic : ¬ (t.kind == .keyword .publicKw && declaresFunction (significant rest)))
    (ht : t.isTrivia = false) (hends : endsPlainly t) (b : Bundler) (s : UnitState) :
    (settled (significant rest) (b.write (emitted s b t.text))).write
        (squeezed (settled (significant rest) (b.write (emitted s b t.text))).last? false rest) =
      b.write (if isNeedless (t.kind, t.text) (significant rest) then squeezed b.last? s.space rest
        else (if s.space then gap b.last? t.text.head? else []) ++
          (t.text ++ squeezed t.text.getLast? false rest)) := by
  rw [endsPlainly, ht, Bool.false_or, Bool.and_eq_true, Bool.not_eq_true',
    isEmpty_eq_false_iff] at hends
  obtain ⟨hne, hends⟩ := hends
  have hcomma : ((t.kind, t.text) == (.punctuation, [','])) = t.isPunct "," := rfl
  rw [isNeedless, Bool.eq_false_iff.2 hpublic, Bool.false_or, hcomma]
  cases hmark : t.isPunct "," && closesNext (significant rest) with
  | true =>
    obtain ⟨hmark, hnext⟩ := Bool.and_eq_true_iff.1 hmark
    have hwritten : emitted s b t.text = [','] := by
      rw [text_of_isPunct hmark]
      show (if s.space then gap b.last? (some ',') else []) ++ [','] = [',']
      rw [gap_eq_nil (.inl rfl)]
      cases s.space <;> rfl
    have hdrop : (b.write [',']).dropComma = b := rfl
    rw [settled, hnext, hwritten, if_pos rfl, if_pos rfl, hdrop,
      squeezed_of_closesNext hnext _ s.space, squeezed_of_closesNext hnext _ false]
  | false =>
    have hwritten : emitted s b t.text ≠ [] := append_ne_nil_of_right_ne_nil _ hne
    have hlast : (b.write (emitted s b t.text)).last? = t.text.getLast? := by
      rw [last?_write b hwritten, emitted, getLast?_append]
      exact Option.or_of_isSome (getLast?_isSome.2 hne)
    have hstay : settled (significant rest) (b.write (emitted s b t.text)) =
        b.write (emitted s b t.text) := by
      unfold settled
      split
      · next hnext =>
        rw [hnext, Bool.and_true] at hmark
        rw [hmark, Bool.or_false, bne_iff_ne] at hends
        exact dropComma_eq (hlast ▸ hends)
      · rfl
    rw [hstay, hlast, write_write, emitted, append_assoc]
    rfl

/-- Plain code is copied as it is squeezed. -/
theorem copyTokens_plain {fin : Token} (hfin : fin.kind = .endOfInput) {ts : List Token}
    (hs : s.Plain) (hplain : ts.all isPlainCode) (hends : ts.all endsPlainly) :
    copyTokens u s (ts ++ [fin]) =
      ((settled (significant ts) s.bundler).write
        (squeezed (settled (significant ts) s.bundler).last? s.space ts), none) := by
  induction ts generalizing s with
  | nil => simp [copyTokens, stepToken, hfin, settled, closesNext, squeezed, Bundler.write]
  | cons t ts ih =>
    rw [all_cons, Bool.and_eq_true] at hplain hends
    have hsignificant : significant (ts ++ [fin]) =
        significant ts ++ [(.endOfInput, fin.text)] := by
      rw [significant_append, significant_cons, ← hfin]
      simp [Token.isTrivia, hfin, TokenKind.isTrivia]
    have hdrops : dropsPublic (ts ++ [fin]) = declaresFunction (significant ts) := by
      rw [dropsPublic_eq, hsignificant, declaresFunction_append _ (by simp)]
    rw [cons_append, copyTokens, significant_cons, squeezed]
    cases ht : t.isTrivia with
    | true =>
      rw [stepToken_trivia hs hplain.1 ht]
      exact ih ⟨hs.pending, hs.braces⟩ hplain.2 hends.2
    | false =>
      simp only [Bool.false_eq_true, if_false, singleton_append]
      by_cases hpublic : (t.kind == .keyword .publicKw && declaresFunction (significant ts))
      · -- what follows `public` is no parenthesis, and neither is `public`
        obtain ⟨hkind, hfunction⟩ := Bool.and_eq_true_iff.1 hpublic
        have hnext : closesNext (significant ts) = false := by
          refine Bool.eq_false_iff.2 fun hnext => ?_
          rw [declaresFunction, eq_of_beq hnext] at hfunction
          cases hfunction
        have hstay : closesNext ((t.kind, t.text) :: significant ts) = false := by
          rw [eq_of_beq hkind]
          simp [closesNext]
        have hneedless : isNeedless (t.kind, t.text) (significant ts) := by
          rw [isNeedless, hpublic]
          rfl
        have hmore := ih hs hplain.2 hends.2
        rw [settled, hnext] at hmore
        rw [stepToken_needless (eq_of_beq hkind) (hdrops.trans hfunction), hneedless, settled,
          hstay]
        exact hmore
      · have hstep := @stepToken_significant u s t (ts ++ [fin]) hs hplain.1 ht
          fun hkind => by simpa [hdrops, hkind] using hpublic
        obtain ⟨after, hafter, hplainAfter, hspace, hbundler⟩ :=
          @plainToken_eq s t (ts ++ [fin]) hs hplain.1
        have hmore := ih hplainAfter hplain.2 hends.2
        have hsettled : settled ((t.kind, t.text) :: significant ts) s.bundler =
            settled [(t.kind, t.text)] s.bundler := rfl
        rw [hstep, hafter, hsettled]
        simp only
        rw [hmore, hspace, hbundler]
        generalize settled [(t.kind, t.text)] s.bundler = b
        exact congrArg (·, none) (write_settled hpublic ht hends.1 b s)

end LegacyPhp.Bundle
