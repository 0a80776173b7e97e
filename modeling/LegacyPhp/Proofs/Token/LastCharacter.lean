import LegacyPhp.Proofs.Token.Ends

/-!
# The last character of a token

Whatever is written behind a token meets its last character. For most kinds of tokens it is of one
class: a word ends in an identifier character and so does a heredoc, since it ends in its label; a
quoted literal ends in a quote. `endFits` says so, and it holds of every token that is scanned
(`endFits_of_scanCode`).
-/

namespace LegacyPhp

open Text Scan List

variable {pos start : Nat} {cs body rest : Text} {parts : Text × Text} {s : Scanned}
  {l : OpenLiteral} {c : Char}

/-- The last character fits the kind of the token: words and heredocs end in an identifier
character, and only the comma ends in a comma. -/
def endFits (kind : TokenKind) (text : Text) : Bool :=
  match kind with
  | .identifier | .keyword _ | .variable => text.getLast?.any isIdentChar
  | .stringLiteral =>
    text.getLast?.any fun c => if startsWith text ['<'] then isIdentChar c else c != ','
  | .punctuation => text.getLast? != some ',' || text == [',']
  | _ => true

theorem getLast?_any_of_all {p : Char → Bool} {u : Text} (hu : u ≠ []) (hall : u.all p)
    (before : Text) : (before ++ u).getLast?.any p := by
  rw [getLast?_append, Option.or_of_isSome (getLast?_isSome.2 hu), getLast?_eq_some_getLast hu]
  exact all_eq_true.1 hall _ (getLast_mem hu)

theorem heredoc_last (h : heredoc cs = .ok parts) :
    ∃ before label, parts.1 = before ++ label ∧ label ≠ [] ∧ label.all isIdentChar := by
  obtain ⟨blanks, quote, label, body, hopens, hparts, hbody⟩ := heredoc_eq_ok h
  have hfinds := heredocBody_finds hopens.label_ne_nil false (body ++ parts.2)
  rw [hbody] at hfinds
  obtain ⟨before, rfl, _⟩ := hfinds.2.1
  exact ⟨blanks ++ (quote ++ (label ++ (quote ++ before))), label, by simp [hparts],
    hopens.label_ne_nil, hopens.label_all⟩

theorem literal_last {quote : Char} (hquote : isQuote quote)
    (h : literalRest (opened quote start) [] pos cs = .ok (body, rest)) :
    (c :: body).getLast?.any isQuote := by
  rw [getLast?_cons, literalRest_last hquote h]
  exact hquote

theorem endFits_of_quoted (hc : isQuote c) (hlast : (c :: body).getLast?.any isQuote) :
    endFits .stringLiteral (c :: body) := by
  have hstarts : startsWith (c :: body) ['<'] = false := Bool.eq_false_iff.2 fun hstarts => by
    obtain rfl := (cons_prefix_cons.1 (startsWith_iff.1 hstarts)).1
    cases hc
  simp only [endFits, hstarts]
  -- a quote is no comma
  cases hget : (c :: body).getLast? with
  | none => rw [hget] at hlast; cases hlast
  | some d =>
    rw [hget] at hlast
    refine bne_iff_ne.2 fun hd => ?_
    rw [hd] at hlast
    cases hlast

/-- A mark is a single character or an operator of the table. -/
theorem mark_eq_or_mem {text : Text} (h : operator c cs = (text, rest)) :
    text = [c] ∨ text ∈ operators := by
  have hmark := (operator_longest c cs).1
  rwa [h] at hmark

/-- The last character of a token fits its kind. -/
theorem endFits_of_scanCode {b : Before} (h : scanCode b pos c cs = .ok s) :
    endFits s.kind s.text := by
  obtain ⟨kind, text, left⟩ := s
  cases scans_of_scanCode h with
  | var _ hnext hrun =>
    have hne := length_of_nextIs (fun _ => isIdentChar_of_isIdentStart) hnext
    rw [hrun] at hne
    exact getLast?_any_of_all hne (all_of_run hrun) [c]
  | identifier hc hrun | keyword hc hrun =>
    have hall := all_cons_run (isIdentChar_of_isIdentStart hc) hrun
    exact getLast?_any_of_all (cons_ne_nil _ _) hall []
  | single hc hbody =>
    have hquote : isQuote '\'' := rfl
    exact endFits_of_quoted (by rwa [hc]) (literal_last hquote hbody)
  | double hc hbody =>
    have hquote := isQuote_of_double hc
    rw [← opened_of_double hc] at hbody
    exact endFits_of_quoted hquote (literal_last hquote hbody)
  | @heredoc _ body _ hc _ hbody =>
    obtain ⟨before, label, hsplit, hne, hall⟩ := heredoc_last hbody
    obtain rfl : body = before ++ label := hsplit
    rw [hc]
    exact getLast?_any_of_all hne hall ('<' :: '<' :: '<' :: before)
  | mark hop =>
    have hall : ∀ op ∈ operators, (op.getLast? != some ',') := by decide
    rcases mark_eq_or_mem hop with rfl | hmem
    · by_cases hc : c = ','
      · subst hc; rfl
      · simp [endFits, hc]
    · simp only [endFits, hall _ hmem, Bool.true_or]
  | _ => rfl

end LegacyPhp
