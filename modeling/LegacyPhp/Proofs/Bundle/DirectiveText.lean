import LegacyPhp.Proofs.Bundle.GlobalBlock
import LegacyPhp.Proofs.Token.Html

/-!
# The text of a directive

The tokens of a directive are collected, without comments and with single blanks for white space,
and what comes of it is written somewhere: the name of a namespace, an import, or the expression of
an inclusion that is kept. For the text outside the code it does not matter (`Passes`). The tokens
stand in the collected text as they did in the unit, so they open nothing with one another
(`Collects`), and the blanks that are cut off at the ends are no part of anything.

This takes two conditions. There are no documentation comments in the directive, since two marks
that had one between them would meet; and no heredocs, since a label may end in a character that is
cut off as a blank.
-/

namespace LegacyPhp.Bundle

open Text Scan Closure List

variable {v cs u : Text}

/-- Code that can be left out in front of anything that opens nothing with its end. -/
def Skips (cs : Text) : Prop :=
  ∀ more, meets cs.getLast? more.head? = false → html? true (cs ++ more) = html? true more

/-- A name or an expression that can be left out before the marks that are written behind it. -/
def Passes (name : Text) : Prop :=
  ∀ more, nextIs (fun c => c == ';' || c == '{' || c == ',') more = true →
    html? true (name ++ more) = html? true more

theorem getLast?_append_of_ne_nil (u : Text) (h : v ≠ []) : (u ++ v).getLast? = v.getLast? := by
  rw [getLast?_append, Option.or_of_isSome (getLast?_isSome.2 h)]

theorem skips_of_all {p : Char → Bool} (hp : ∀ c ∈ openers, p c = false) (h : cs.all p) :
    Skips cs :=
  fun more _ => html?_inert (inert_of_all hp h more)

theorem Skips.append (hu : Skips u) (hv : Skips v) (hmeets : meets u.getLast? v.head? = false) :
    Skips (u ++ v) := by
  cases v with
  | nil => rwa [append_nil]
  | cons c v =>
    intro more hmore
    rw [getLast?_append_of_ne_nil u (cons_ne_nil c v)] at hmore
    have hfirst : html? true (u ++ (c :: v ++ more)) = html? true (c :: v ++ more) := hu _ hmeets
    rw [append_assoc, hfirst, hv _ hmore]

theorem not_isBlank_of_mem_openers : ∀ c ∈ openers, isBlank c = false :=
  forall_mem_of_all (by decide)

theorem not_meets_blank {c : Char} (h : isBlank c) (a : Option Char) :
    meets a (some c) = false := by
  refine not_meets_of_not_mem (fun hmem => ?_) a
  have hall : ∀ d ∈ ['>', '/', '*', '<'], isBlank d = false := forall_mem_of_all (by decide)
  rw [hall c hmem] at h
  cases h

/-! ## Tokens without blanks at their ends -/

variable {b : Before} {kind : TokenKind} {text rest : Text}

/-- A token of a directive can be left out, with the blanks at its end or without some of them. -/
theorem skips_of_blanks (h : Reads true b kind text rest)
    (hkind : kind ≠ .closeTag ∧ kind ≠ .comment ∧ kind ≠ .docComment)
    (hheredoc : isHeredoc kind text = false) (htext : text = u ++ v) (hv : v.all isBlank) :
    Skips u := by
  by_cases hnil : v = []
  · intro more hmore
    subst hnil
    rw [append_nil] at htext
    subst htext
    refine h.html?_code ⟨hkind.1, hkind.2.1⟩ ?_ fun hlabel => by
      rw [hheredoc] at hlabel
      cases hlabel
    unfold openEnd
    split
    · rfl
    · rfl
    · exact hmore
  · -- a token that ends in a blank is a word or a single blank
    obtain ⟨c, hlast, hblank⟩ : ∃ c, text.getLast? = some c ∧ isBlank c := by
      refine ⟨v.getLast hnil, ?_, all_eq_true.1 hv _ (getLast_mem hnil)⟩
      rw [htext, getLast?_append_of_ne_nil u hnil, getLast?_eq_some_getLast hnil]
    have hplain : text.all isInertChar := by
      rcases h.undelimited ⟨hkind.1, hkind.2.1⟩ with hund | hdoc | hliteral
      · cases hund with
        | plain hplain => exact hplain
        | @mark d _ =>
          obtain rfl : d = c := by simpa using hlast
          have hall : ∀ c ∈ ',' :: openers, isBlank c = false := forall_mem_of_all (by decide)
          have hno : d ∉ ',' :: openers := fun hmem => by
            rw [hall d hmem] at hblank
            cases hblank
          simpa [isInertChar] using hno
        | operator hop =>
          have hall : ∀ op ∈ operators, op.getLast?.any isBlank = false := by decide
          have hno := hall _ hop
          rw [hlast] at hno
          exact absurd hblank (Bool.eq_false_iff.1 hno)
      · exact absurd hdoc hkind.2.2
      · subst hliteral
        have hquote := h.isQuote_last hheredoc
        rw [hlast] at hquote
        have hquote : isQuote c := hquote
        rcases isQuote_iff.1 hquote with rfl | rfl | rfl <;> cases hblank
    rw [htext, all_append, Bool.and_eq_true] at hplain
    exact skips_of_all (forall_mem_of_all (by decide)) hplain.1

/-! ## What is collected -/

/-- What is collected of a directive can be left out, with the blanks at its end or without some of
them. -/
def Collected (cs : Text) : Prop :=
  ∀ u v, cs = u ++ v → v.all isBlank → Skips u

theorem collected_nil : Collected [] := by
  intro u v h _
  rw [(append_eq_nil_iff.1 h.symm).1]
  exact fun _ _ => rfl

theorem Collected.skips (h : Collected cs) : Skips cs :=
  h cs [] (append_nil cs).symm rfl

theorem Collected.append {piece : Text} (h : Collected cs)
    (hpiece : ∀ u v, piece = u ++ v → v.all isBlank → Skips u)
    (hmeets : meets cs.getLast? piece.head? = false) : Collected (cs ++ piece) := by
  intro u v heq hv
  rcases append_eq_append_iff.1 heq with ⟨w, rfl, hw⟩ | ⟨w, rfl, rfl⟩
  · -- the cut lies in the piece
    cases w with
    | nil => rw [append_nil]; exact h.skips
    | cons c w =>
      refine h.skips.append (hpiece _ _ hw hv) ?_
      rwa [hw] at hmeets
  · -- the piece is blank
    rw [all_append, Bool.and_eq_true] at hv
    exact h u w rfl hv.1

theorem Collected.blank (h : Collected cs) : Collected (cs ++ [' ']) := by
  refine h.append (fun u v heq _ => ?_) (not_meets_blank rfl _)
  have hall : (u ++ v).all isBlank := by rw [← heq]; rfl
  rw [all_append, Bool.and_eq_true] at hall
  exact skips_of_all not_isBlank_of_mem_openers hall.1

theorem Collected.token {cs : Text} (h : Collected cs) (hread : Reads true b kind text rest)
    (hkind : kind ≠ .closeTag ∧ kind ≠ .comment ∧ kind ≠ .docComment)
    (hheredoc : isHeredoc kind text = false) (hmeets : meets cs.getLast? text.head? = false) :
    Collected (cs ++ text) :=
  h.append (fun _ _ => skips_of_blanks hread hkind hheredoc) hmeets

theorem exists_trim (cs : Text) :
    ∃ u v, cs = u ++ (trim cs ++ v) ∧ u.all isBlank ∧ v.all isBlank := by
  refine ⟨cs.takeWhile isBlank, ((cs.dropWhile isBlank).reverse.takeWhile isBlank).reverse, ?_,
    all_takeWhile, ?_⟩
  · rw [trim, trimEnd, dropEndWhile, ← reverse_append, takeWhile_append_dropWhile,
      reverse_reverse, takeWhile_append_dropWhile]
  · rw [all_reverse, all_takeWhile]

theorem Collected.passes (h : Collected cs) : Passes (trim cs) := by
  obtain ⟨u, v, hcs, hu, hv⟩ := exists_trim cs
  rw [← append_assoc] at hcs
  intro more hmore
  have hmark : meets (u ++ trim cs).getLast? more.head? = false := by
    cases more with
    | nil => exact meets_none_right _
    | cons d more =>
      refine not_meets_of_not_mem (fun hmem => ?_) _
      have hall : ∀ d ∈ ['>', '/', '*', '<'], (d == ';' || d == '{' || d == ',') = false := by
        exact forall_mem_of_all (by decide)
      exact absurd hmore (Bool.eq_false_iff.1 (hall d hmem))
  have hskip := h _ _ hcs hv more hmark
  rwa [append_assoc, html?_inert (inert_of_all not_isBlank_of_mem_openers hu _)] at hskip

end LegacyPhp.Bundle
