import LegacyPhp.Proofs.Convert.Failures
import LegacyPhp.Proofs.Token.BreakRuns

/-!
# The native dialect

A conversion to the native dialect that makes no replacements reads the unit and then only cuts long
runs of line breaks. Every cut takes one line break out of a run of five (`Shortened`), and such a
cut keeps the kinds of the tokens (`lexemes_shorten`). What is left has no run of five (`Capped`),
so a second conversion finds nothing to cut. `convert_native_shortens` puts this together.
-/

namespace LegacyPhp

open Text Legacy List

/-- The text is the source with line breaks deleted, each of them from a run of five. -/
inductive Shortened (source : Text) : Text → Prop
  | refl : Shortened source source
  | cut {brk u v : Text} (hbrk : IsLineBreak brk)
      (h : Shortened source (u ++ (breaks brk (maxBreaks + 1) ++ v))) :
      Shortened source (u ++ (breaks brk maxBreaks ++ v))

/-- Behind `count` line breaks no run of five is completed, and none lies further on. -/
def Capped (brk : Text) (count : Nat) (cs : Text) : Prop :=
  ¬ breaks brk (maxBreaks + 1 - count) <+: cs ∧ ¬ breaks brk (maxBreaks + 1) <:+: cs

theorem breaks_append (brk cs : Text) (n : Nat) :
    breaks brk n ++ (brk ++ cs) = breaks brk (n + 1) ++ cs := by
  rw [breaks_succ', append_assoc]

theorem breaks_prefix_of_le (brk : Text) {m n : Nat} (h : m ≤ n) :
    breaks brk m <+: breaks brk n := by
  induction h with
  | refl => exact prefix_rfl
  | step _ ih => exact ih.trans ⟨brk, (breaks_succ' brk _).symm⟩

namespace Shortened

variable {source u cs : Text} {count : Nat}

theorem lexemes_kinds {t : Text} {tokens : List Token} (h : Shortened source t)
    (hlex : lexemes source = .ok tokens) :
    ∃ tokens', lexemes t = .ok tokens' ∧ tokens'.map Token.kind = tokens.map Token.kind := by
  induction h with
  | refl => exact ⟨tokens, hlex, rfl⟩
  | cut hbrk _ ih =>
    obtain ⟨found, hfound, hkinds⟩ := ih
    obtain ⟨tokens', hlex', hkinds'⟩ := lexemes_shorten hbrk (Nat.le_refl 3) hfound
    exact ⟨tokens', hlex', hkinds'.trans hkinds⟩

theorem cutCrLf (hcount : count ≤ maxBreaks)
    (h : Shortened source (u ++ (breaks ['\r', '\n'] count ++ cs))) :
    Shortened source (u ++ (breaks ['\r', '\n'] count ++ Legacy.cutCrLf count cs)) := by
  fun_induction Legacy.cutCrLf count cs generalizing u with
  | case1 => exact h
  | case2 count rest hlt ih =>
    have hkept := ih hlt (u := u) (by rwa [← breaks_append])
    rwa [← breaks_append] at hkept
  | case3 count rest hmany ih =>
    obtain rfl : count = maxBreaks := Nat.le_antisymm hcount (Nat.not_lt.1 hmany)
    refine ih hcount (.cut (.inr rfl) ?_)
    rwa [← breaks_append]
  | case4 count c rest _ ih =>
    have hrest := ih (Nat.zero_le _) (u := u ++ (breaks ['\r', '\n'] count ++ [c]))
    simpa [breaks] using hrest (by simpa [breaks] using h)

theorem cutLf (hcount : count ≤ maxBreaks)
    (h : Shortened source (u ++ (breaks ['\n'] count ++ cs))) :
    Shortened source (u ++ (breaks ['\n'] count ++ Legacy.cutLf count cs)) := by
  fun_induction Legacy.cutLf count cs generalizing u with
  | case1 => exact h
  | case2 count c rest hbreak hlt ih =>
    obtain rfl : c = '\n' := eq_of_beq hbreak
    have hkept := ih hlt (u := u) (by rwa [← breaks_append])
    rwa [← breaks_append] at hkept
  | case3 count c rest hbreak hmany ih =>
    obtain rfl : c = '\n' := eq_of_beq hbreak
    obtain rfl : count = maxBreaks := Nat.le_antisymm hcount (Nat.not_lt.1 hmany)
    refine ih hcount (.cut (.inl rfl) ?_)
    rwa [← breaks_append]
  | case4 count c rest _ ih =>
    have hrest := ih (Nat.zero_le _) (u := u ++ (breaks ['\n'] count ++ [c]))
    simpa [breaks] using hrest (by simpa [breaks] using h)

theorem cutBlankLines (source : Text) : Shortened source (cutBlankLines source) :=
  have hpairs : Shortened source (Legacy.cutCrLf 0 source) :=
    cutCrLf (u := []) (Nat.zero_le _) .refl
  cutLf (u := []) (Nat.zero_le _) hpairs

end Shortened

namespace Capped

variable {brk cs : Text} {count : Nat}

theorem nil (hbrk : IsLineBreak brk) (hcount : count ≤ maxBreaks) : Capped brk count [] := by
  constructor
  · rw [prefix_nil, Nat.sub_add_comm hcount]
    exact hbrk.breaks_ne_nil _
  · rw [infix_nil]
    exact hbrk.breaks_ne_nil _

/-- A line break that is counted. -/
theorem keep (h : Capped brk (count + 1) cs) (hbrk : IsLineBreak brk) (hcount : count < maxBreaks) :
    Capped brk count (brk ++ cs) := by
  have hfirst : ¬ breaks brk (maxBreaks + 1 - count) <+: brk ++ cs := by
    rw [show maxBreaks + 1 - count = maxBreaks + 1 - (count + 1) + 1 by omega, breaks,
      prefix_append_right_inj]
    exact h.1
  have hrun : ¬ breaks brk (maxBreaks + 1) <+: brk ++ cs := fun hrun =>
    hfirst ((breaks_prefix_of_le brk (Nat.sub_le _ _)).trans hrun)
  refine ⟨hfirst, fun hany => ?_⟩
  rcases hbrk with rfl | rfl
  · exact (infix_cons_iff.1 hany).elim hrun h.2
  · rcases infix_cons_iff.1 hany with hhere | hlater
    · exact hrun hhere
    · -- a run does not start with the second half of a line break
      rcases infix_cons_iff.1 hlater with ⟨_, hhalf⟩ | hlater
      · cases hhalf
      · exact h.2 hlater

theorem other {c : Char} (h : Capped brk 0 cs) (hc : ¬ brk <+: c :: cs)
    (hcount : count ≤ maxBreaks) : Capped brk count (c :: cs) := by
  have hfirst : ∀ n, ¬ breaks brk (n + 1) <+: c :: cs := fun n hrun =>
    hc ((prefix_append brk _).trans hrun)
  refine ⟨?_, fun hany => (infix_cons_iff.1 hany).elim (hfirst _) h.2⟩
  rw [Nat.sub_add_comm hcount]
  exact hfirst _

theorem cutCrLf (cs : Text) (hcount : count ≤ maxBreaks) :
    Capped ['\r', '\n'] count (Legacy.cutCrLf count cs) := by
  fun_induction Legacy.cutCrLf count cs with
  | case1 => exact nil (.inr rfl) hcount
  | case2 count rest hlt ih => exact (ih hlt).keep (.inr rfl) hlt
  | case3 count rest hmany ih => exact ih hcount
  | case4 count c rest hnot ih =>
    refine (ih (Nat.zero_le _)).other ?_ hcount
    rintro ⟨tail, htail⟩
    obtain ⟨rfl, hcut⟩ := cons.inj htail
    -- the first line break behind the character was there before the cut
    have hhead := head?_cutCrLf_zero rest
    rw [← hcut] at hhead
    cases rest with
    | nil => cases hhead
    | cons d rest =>
      obtain rfl := Option.some.inj hhead
      exact hnot rest rfl rfl

theorem cutLf (cs : Text) (hcount : count ≤ maxBreaks) :
    Capped ['\n'] count (Legacy.cutLf count cs) := by
  fun_induction Legacy.cutLf count cs with
  | case1 => exact nil (.inl rfl) hcount
  | case2 count c rest hbreak hlt ih =>
    obtain rfl : c = '\n' := eq_of_beq hbreak
    exact (ih hlt).keep (.inl rfl) hlt
  | case3 count c rest hbreak hmany ih => exact ih hcount
  | case4 count c rest hother ih =>
    refine (ih (Nat.zero_le _)).other ?_ hcount
    rintro ⟨tail, htail⟩
    obtain ⟨rfl, _⟩ := cons.inj htail
    exact hother rfl

end Capped

/-- What is left after the cuts has no run of five line breaks of either kind. -/
theorem not_run_cutBlankLines {brk : Text} (hbrk : IsLineBreak brk) (source : Text) :
    ¬ breaks brk (maxBreaks + 1) <:+: cutBlankLines source := by
  rcases hbrk with rfl | rfl
  · exact (Capped.cutLf _ (Nat.zero_le _)).2
  · -- cutting runs of one kind leaves those of the other cut
    have hstill : Legacy.cutCrLf 0 (cutBlankLines source) = cutBlankLines source :=
      cutCrLf_cutLf (cutCrLf_cutCrLf 0 source) fun h => absurd h (Nat.lt_irrefl 0)
    rw [← hstill]
    exact (Capped.cutCrLf _ (Nat.zero_le _)).2

/-- Without replacements, the native dialect fails with the lexical failure of the source and only
with it. Otherwise the source becomes a text with tokens of the same kinds, which is the source with
line breaks deleted from runs of five, has no such run, and is converted to itself. -/
theorem convert_native_shortens {o : ConvertOptions} (hdialect : o.dialect = .native)
    (hreplacements : o.replacements = []) (path : Path) (source : Text) :
    (∀ f, convert o path source = .error f ↔ ∃ e, tokenize source = .error e ∧ f = .ofLex path e) ∧
      ∀ tokens, tokenize source = .ok tokens → ∃ text tokens',
        convert o path source = .ok (.converted text 0) ∧ tokenize text = .ok tokens' ∧
          tokens'.map Token.kind = tokens.map Token.kind ∧ Shortened source text ∧
          (∀ brk, IsLineBreak brk → ¬ breaks brk 5 <:+: text) ∧
          convert o path text = .ok (.converted text 0) := by
  have hnative : ∀ text, convert o path text = convertNative path text := fun _ => by
    rw [convert, hdialect, hreplacements]
    rfl
  refine ⟨fun f => ?_, fun tokens htokens => ?_⟩
  · simp only [hnative, convertNative, tokenize, map_eq_error, lexemesOf_eq_error]
  · obtain ⟨body, hlex, rfl⟩ := map_eq_ok htokens
    have hshort := Shortened.cutBlankLines source
    obtain ⟨body', hlex', hkinds⟩ := hshort.lexemes_kinds hlex
    have hconvert : ∀ {text : Text} {ts : List Token}, lexemes text = .ok ts →
        convert o path text = .ok (.converted (cutBlankLines text) 0) := fun hts => by
      rw [hnative, convertNative, lexemesOf_eq_ok.2 hts]
      rfl
    refine ⟨_, _, hconvert hlex, congrArg (Except.map _) hlex', ?_, hshort,
      fun brk hbrk => not_run_cutBlankLines hbrk source, ?_⟩
    · simp [hkinds]
    · rw [hconvert hlex', cutBlankLines_cutBlankLines]

/-- Runs of line breaks behind an open tag, in a literal and behind a close tag. -/
theorem convert_native_shortens_everywhere :
    ∃ source text tokens tokens',
      source = "<?php\n\n\n\n\n\n'\r\n\r\n\r\n\r\n\r\n'?>\n\n\n\n\n\n".toList ∧
      text = "<?php\n\n\n\n'\r\n\r\n\r\n\r\n'?>\n\n\n\n".toList ∧
      tokenize source = .ok tokens ∧ tokens.map Token.kind =
        [.openTag, .whitespace, .stringLiteral, .closeTag, .inlineHtml, .endOfInput] ∧
      convert { dialect := .native } "u.php".toList source = .ok (.converted text 0) ∧
      tokenize text = .ok tokens' ∧ tokens'.map Token.kind = tokens.map Token.kind ∧
      Shortened source text := by
  obtain ⟨tokens, htokens⟩ : ∃ tokens, (tokenize
      "<?php\n\n\n\n\n\n'\r\n\r\n\r\n\r\n\r\n'?>\n\n\n\n\n\n".toList).toOption = some tokens :=
    Option.isSome_iff_exists.1 (by decide +kernel)
  have hkinds : some (tokens.map Token.kind) =
      some [.openTag, .whitespace, .stringLiteral, .closeTag, .inlineHtml, .endOfInput] :=
    (congrArg (Option.map (List.map Token.kind)) htokens).symm.trans (by decide +kernel)
  obtain ⟨text, tokens', hconvert, htext, hsame, hshort, _⟩ :=
    (convert_native_shortens (o := { dialect := .native }) rfl rfl "u.php".toList _).2 tokens
      (eq_ok_of_toOption htokens)
  refine ⟨_, text, tokens, tokens', rfl, ?_, eq_ok_of_toOption htokens, Option.some.inj hkinds,
    hconvert, htext, hsame, hshort⟩
  refine (Outcome.converted.inj (Except.ok.inj (hconvert.symm.trans
    (eq_ok_of_toOption (a := Outcome.converted _ 0) ?_)))).1
  decide +kernel

end LegacyPhp
