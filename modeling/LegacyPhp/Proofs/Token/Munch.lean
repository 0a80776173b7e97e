import LegacyPhp.Proofs.Token.BreakRuns

/-!
# Tokens in their places

The tokens of a source are in order (`InOrder`): text and open tags stand outside the code and all
others in it, and every token goes as far as it can, so what follows it could not have been a part
of it (`EndsBefore`). A run of the lexer is a chain of tokens that were each read before the rest of
the source, and a token that was read does not go on with what follows (`Reads.not_goesOn`); by
induction over the chain this holds of all tokens of a source.
-/

namespace LegacyPhp

open Text Scan Closure List

/-- A letter, digit, underscore or point. -/
def goesOnWithNumber (c : Char) : Bool := c.isAlphanum || c == '_' || c == '.'

/-- What may follow a token. -/
structure EndsBefore (t : Token) (rest : List Token) : Prop where
  html : t.kind = .inlineHtml →
    ∃ next ∈ rest.head?, next.kind = .openTag ∨ next.kind = .endOfInput
  white : t.kind = .whitespace → ∀ next ∈ rest.head?, next.kind ≠ .whitespace
  word : t.isWord ∨ t.kind = .variable →
    ∀ next ∈ rest.head?, nextIs isIdentChar next.text = false
  number : t.kind = .number → ∀ next ∈ rest.head?, nextIs goesOnWithNumber next.text = false
  mark : t.kind = .punctuation →
    ∀ op ∈ operators, t.text.length < op.length → ¬ op <+: t.text ++ serialize rest

/-- Every token stands where its kind may stand and is followed by what may follow it. -/
def InOrder : Bool → List Token → Prop
  | _, [] => True
  | inCode, t :: rest =>
    (t.kind ≠ .endOfInput → ((t.kind = .inlineHtml ∨ t.kind = .openTag) ↔ inCode = false)) ∧
      EndsBefore t rest ∧ InOrder (inCodeAfter inCode t) rest

section Chains

variable {inCode : Bool} {b : Before} {t last : Token} {ts : List Token}

/-- The characters that follow are those of the next token, if there is one. -/
theorem Chain.nextIs_head (h : Chain inCode b ts []) (hlast : last.text = []) {p : Char → Bool}
    (hp : nextIs p (serialize ts) = false) :
    ∀ next ∈ (ts ++ [last]).head?, nextIs p next.text = false := by
  cases ts with
  | nil =>
    rintro next hnext
    obtain rfl : last = next := by simpa using hnext
    rw [hlast]
    rfl
  | cons t ts =>
    rintro next hnext
    obtain rfl : t = next := by simpa using hnext
    rw [← hp, serialize_cons, ← nextIs_append h.1.text_ne_nil [], append_nil]

theorem Chain.endsBefore (h : Chain inCode b (t :: ts) []) (hlast : last.text = [])
    (hend : last.kind = .endOfInput) : EndsBefore t (ts ++ [last]) := by
  obtain ⟨hread, hrest⟩ := h
  rw [append_nil] at hread
  have hgo := hread.not_goesOn
  refine ⟨fun hkind => ?_, fun hkind => ?_, fun hkind => ?_, fun hkind => ?_, fun hkind => ?_⟩
  · cases ts with
    | nil => exact ⟨last, rfl, .inr hend⟩
    | cons next ts =>
      have hnext := hrest.1
      have hmode : inCodeAfter inCode t = inCode := by simp [inCodeAfter, hkind]
      rw [hmode, append_nil] at hnext
      rw [hkind] at hread
      exact ⟨next, rfl, .inl (hread.openTag_behind hnext (serialize_cons next ts))⟩
  · rw [hkind] at hgo
    intro next hnext hwhite
    have hno := hrest.nextIs_head hlast hgo next hnext
    cases ts with
    | nil =>
      obtain rfl : last = next := by simpa using hnext
      rw [hend] at hwhite
      cases hwhite
    | cons x ts =>
      obtain rfl : x = next := by simpa using hnext
      have hx := hrest.1
      rw [hwhite] at hx
      have hall := hx.all_isSpace
      cases htext : x.text with
      | nil => exact hx.text_ne_nil htext
      | cons c cs =>
        rw [htext, all_cons, Bool.and_eq_true] at hall
        rw [htext, nextIs, hall.1] at hno
        cases hno
  · refine hrest.nextIs_head hlast ?_
    unfold Token.isWord at hkind
    rcases hkind with hword | hkind
    · split at hword
      · next hkind => rwa [hkind] at hgo
      · next hkind => rwa [hkind] at hgo
      · cases hword
    · rwa [hkind] at hgo
  · refine hrest.nextIs_head hlast ?_
    rw [hkind, goesOn] at hgo
    cases htext : serialize ts with
    | nil => rfl
    | cons c cs =>
      rw [htext, numberRest] at hgo
      refine Bool.eq_false_iff.2 fun hc => ?_
      rw [if_pos (show c.isAlphanum || c == '_' || c == '.' from hc)] at hgo
      cases hgo
  · rw [hkind] at hgo
    intro op hop hlength
    rw [serialize_append, serialize_cons, hlast, serialize_nil, append_nil, append_nil]
    exact (markGoesOn_eq_false.1 hgo).1 op (mem_append_right _ hop) hlength

theorem Chain.inOrder (h : Chain inCode b ts []) (hlast : last.text = [])
    (hend : last.kind = .endOfInput) : InOrder inCode (ts ++ [last]) := by
  induction ts generalizing inCode b with
  | nil =>
    refine ⟨fun hkind => absurd hend hkind, ?_, trivial⟩
    constructor <;> simp [Token.isWord, hend]
  | cons t ts ih =>
    exact ⟨fun _ => or_comm.trans h.1.inCode_iff.symm, h.endsBefore hlast hend, ih h.2⟩

end Chains

/-- The tokens of a source are in order, each in its place and each as long as it can be. -/
theorem tokenize_inOrder {source : Text} {tokens : List Token} (h : tokenize source = .ok tokens) :
    InOrder false tokens := by
  obtain ⟨ts, hlex, rfl⟩ := map_eq_ok h
  exact (chain_of_lexemes hlex).inOrder rfl rfl

/-- A number with an exponent and a mark, between text, tags and blanks. -/
theorem tokenize_inOrder_mixed :
    ∃ tokens, tokenize "a<?php $b<<=1e+5 .c?>\nd".toList = .ok tokens ∧ tokens.length = 11 ∧
      InOrder false tokens := by
  have hchecked : (tokenize "a<?php $b<<=1e+5 .c?>\nd".toList).toOption.any (·.length == 11) =
      true := by decide +kernel
  obtain ⟨tokens, hread, hlength⟩ := (Option.any_eq_true _ _).1 hchecked
  have htokens := eq_ok_of_toOption hread
  exact ⟨tokens, htokens, beq_iff_eq.1 hlength, tokenize_inOrder htokens⟩

end LegacyPhp
