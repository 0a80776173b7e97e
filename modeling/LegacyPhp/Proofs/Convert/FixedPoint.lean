import LegacyPhp.Proofs.Convert.Flattening
import LegacyPhp.Proofs.Convert.Layout

/-!
# Converting a converted unit

A unit that has been converted is not always left alone by a second conversion. Code in a version
mark can hold a version mark again, a closure among the parameters of another one is found only when
that has been lifted, and a substitution can put tokens next to each other that a later pass reads
as one construct.

`Settled` says of a text that no pass finds anything to do in it, in terms of the text alone. The
main statement, `convert_converted`, is that a second conversion leaves the text as it is if it is
settled, and that there is no other way: since all passes move a text in the same direction, no two
of them can cancel out (`settled_of_convertLegacy`).
-/

namespace LegacyPhp

open Text Drift Legacy

variable {o : ConvertOptions} {text : Text} {path : Path}

/-- A text, with its tokens, in which a conversion to the legacy dialect finds nothing to do. -/
structure Settled (o : ConvertOptions) (text : Text) (tokens : List Token) : Prop where
  lexed : lexemes text = .ok tokens
  /-- The text does not say that it is for newer targets. -/
  anyTarget : isNewerOnly o.newerOnlyVersions text = false
  unmarked : Unmarked (markOpening o.legacyMarker) tokens
  substituted : Substituted [] tokens
  noTernary : ∀ rest, rest <:+ text → shortTernaryAt rest = none
  flat : Qualify.FlatUnit o {} tokens
  noClosure : Closure.first? (Closure.throughOpenTag tokens).2 = none

/-! ## A settled text stays -/

theorem convertLegacy_of_settled (path : Path) {tokens : List Token} (h : Settled o text tokens) :
    convertLegacy o path text = .ok (.converted (cutBlankLines text) 0) := by
  have hlex : ∀ path, lexemesOf path text = .ok tokens := fun path => lexemesOf_eq_ok.2 h.lexed
  have hserialize : serialize tokens = text := (lexemes_tiles h.lexed).serialize_eq
  have hactivate : activateVersionMarks path o.legacyMarker text = .ok text := by
    rw [activateVersionMarks, hlex]
    show Except.ok _ = _
    rw [activate_of_unmarked h.unmarked, hserialize]
  have hsubstitute : substituteConstructs path text = .ok text := by
    rw [substituteConstructs, hlex]
    show Except.ok _ = _
    rw [show false = followsNew [] from rfl, substitute_of_substituted h.substituted, hserialize]
  have hternary : expandShortTernaries text = text := expandRounds_of_none h.noTernary _
  have hqualify : qualify o path text = .ok ⟨text, []⟩ := by
    simp only [qualify, hlex, bind, Except.bind,
      Qualify.run_of_flat h.flat rfl (u := ⟨path, text, o⟩) rfl, hserialize]
    rfl
  obtain ⟨e, hextract, htext, hentries⟩ :=
    extractClosures_of_first? path o.closureHelper h.lexed h.noClosure
  have hannotate : annotatePackage [] text = text := rfl
  simp only [convertLegacy, hactivate, hsubstitute, hternary, hqualify, hextract, htext, hentries,
    hannotate, bind, Except.bind, ite_self]
  rfl

/-! ## A text that stays is settled -/

section passes

variable {path : Path} {a b : Text}

/-- A pass over tokens, seen as one over the text that is read into them. -/
theorem advances_of_pass {pass : List Token → Text} {Φ : List Token → Prop}
    (h : (lexemesOf path a).map pass = .ok b) (hpass : ∀ ts, Lexed ts →
      Advances (serialize ts) (pass ts) ∨ pass ts = serialize ts ∧ Φ ts) :
    Advances a b ∨ b = a ∧ ∃ tokens, lexemes a = .ok tokens ∧ Φ tokens := by
  obtain ⟨tokens, hlex, rfl⟩ := map_eq_ok h
  have hlexemes := lexemesOf_eq_ok.1 hlex
  have hadvances := hpass tokens (lexemes_lexed hlexemes)
  rw [(lexemes_tiles hlexemes).serialize_eq] at hadvances
  exact hadvances.imp id fun h => ⟨h.1, tokens, hlexemes, h.2⟩

theorem qualify_advances (ho : PlainOptions o) {flat : Qualify.Flat}
    (h : qualify o path a = .ok flat) : (Advances a flat.text ∨
      flat.text = a ∧ ∃ tokens, lexemes a = .ok tokens ∧ Qualify.FlatUnit o {} tokens) ∧
    commentMarks flat.lastNamespace = 0 := by
  simp only [qualify, bind, Except.bind] at h
  cases hlex : lexemesOf path a with
  | error e => rw [hlex] at h; cases h
  | ok tokens =>
    have hlexemes := lexemesOf_eq_ok.1 hlex
    have hserialize : serialize tokens = a := (lexemes_tiles hlexemes).serialize_eq
    have hlexed := lexemes_lexed hlexemes
    simp only [hlex] at h
    split at h
    · cases h
    · next result hrun =>
      cases h
      obtain ⟨_, hscope⟩ := Qualify.run_keeps ho Scope.plain_empty hlexed.wellFormed hrun
      refine ⟨?_, hscope.current.commentMarks_eq⟩
      rw [← hserialize]
      refine (Qualify.run_advances ho rfl hlexed hrun).imp id fun h => ⟨h.1, tokens, ?_, h.2⟩
      rw [hserialize]
      exact hlexemes

end passes

/-- The passes of a conversion, with the text that each leaves to the next. -/
theorem convertLegacy_eq_ok {source : Text} {lifted : Nat}
    (h : convertLegacy o path source = .ok (.converted text lifted)) :
    ∃ activated substituted flat extraction,
      activateVersionMarks path o.legacyMarker source = .ok activated ∧
      substituteConstructs path activated = .ok substituted ∧
      qualify o path (expandShortTernaries substituted) = .ok flat ∧
      extractClosures path o.closureHelper flat.text = .ok extraction ∧
      text = cutBlankLines (if o.annotatePackage then
        annotatePackage flat.lastNamespace extraction.text else extraction.text) ∧
      lifted = extraction.table.entries.length := by
  simp only [convertLegacy, bind, Except.bind] at h
  split at h
  · cases h
  next activated hactivate =>
  split at h
  · cases h
  next substituted hsubstitute =>
  split at h
  · cases h
  next flat hqualify =>
  split at h
  · cases h
  next extraction hextract =>
  cases h
  exact ⟨activated, substituted, flat, extraction, hactivate, hsubstitute, hqualify, hextract, rfl,
    rfl⟩

/-- No two passes cancel out: a conversion that returns its source found nothing to do in it. -/
theorem settled_of_convertLegacy (ho : PlainOptions o)
    (hnewer : isNewerOnly o.newerOnlyVersions text = false)
    (h : convertLegacy o path text = .ok (.converted text 0)) :
    ∃ tokens, Settled o text tokens := by
  obtain ⟨a, b, flat, e, hactivate, hsubstitute, hqualify, hextract, htext, hlifted⟩ :=
    convertLegacy_eq_ok h
  have hentries : e.table.entries = [] := List.length_eq_zero_iff.1 hlifted.symm
  obtain ⟨hsame, htokens⟩ := extractClosures_of_entries hextract hentries
  obtain ⟨hflat, hns⟩ := qualify_advances ho hqualify
  -- the text after each pass, up to the text itself again
  have h₁ := advances_of_pass hactivate fun ts _ => activate_advances o.legacyMarker ts
  have h₂ := advances_of_pass hsubstitute fun _ hts => @substitute_advances [] _ hts
  have h₃ := expandShortTernaries_advances b
  have h₄ : Advances flat.text text ∨ text = flat.text := by
    have hcut := cutBlankLines_advances (if o.annotatePackage then
      annotatePackage flat.lastNamespace e.text else e.text)
    rw [← htext] at hcut
    refine advances_or_eq_trans ?_ hcut
    rw [hsame]
    split
    · unfold annotatePackage
      split
      · exact .inr rfl
      · exact replaceDocEnds_advances hns true flat.text
    · exact .inr rfl
  have hafterTernary := advances_or_eq_trans (hflat.imp id And.left) h₄
  have hafterSubstitute := advances_or_eq_trans (h₃.imp id And.left) hafterTernary
  have hafterActivate := advances_or_eq_trans (h₂.imp id And.left) hafterSubstitute
  -- so each of them returned the text it was given
  obtain rfl : a = text := eq_of_cycle (h₁.imp id And.left) hafterActivate
  obtain rfl : b = a := eq_of_cycle (h₂.imp id And.left) hafterSubstitute
  have hternary : expandShortTernaries b = b := eq_of_cycle (h₃.imp id And.left) hafterTernary
  rw [hternary] at h₃ hflat hafterTernary
  have hflatText : flat.text = b := eq_of_cycle (hflat.imp id And.left) h₄
  rw [hflatText] at hflat htokens
  -- and what each found nothing to do in are the same tokens
  obtain ⟨tokens, hlex, hunmarked⟩ := (h₁.resolve_left (Advances.irrefl b)).2
  obtain ⟨_, hlex₂, hsubstituted⟩ := (h₂.resolve_left (Advances.irrefl b)).2
  obtain ⟨_, hlex₃, hunit⟩ := (hflat.resolve_left (Advances.irrefl b)).2
  obtain ⟨_, hlex₄, hnoClosure⟩ := htokens
  rw [hlex] at hlex₂ hlex₃ hlex₄
  cases hlex₂
  cases hlex₃
  cases hlex₄
  exact ⟨tokens, hlex, hnewer, hunmarked, hsubstituted, (h₃.resolve_left (Advances.irrefl b)).2,
    hunit, hnoClosure⟩

/-- The unit that a conversion returns stays as it is in a second conversion if it is settled, and
only then. -/
theorem convert_converted {o : ConvertOptions} (hdialect : o.dialect = .legacy)
    (hreplacements : o.replacements = []) {path : Path} {source text : Text} {lifted : Nat}
    (h : convert o path source = .ok (.converted text lifted)) :
    ((∃ tokens, Settled o text tokens) → convert o path text = .ok (.converted text 0)) ∧
    (PlainOptions o → convert o path text = .ok (.converted text 0) →
      ∃ tokens, Settled o text tokens) := by
  have hconvert : ∀ source, convert o path source =
      if isNewerOnly o.newerOnlyVersions source then .ok .dropped
      else convertLegacy o path source := by
    intro source
    simp only [convert, hdialect, hreplacements, applyReplacements, List.foldl_nil]
  refine ⟨?_, ?_⟩
  · rintro ⟨tokens, hsettled⟩
    -- blank lines were cut by the first conversion
    have hcut : cutBlankLines text = text := by
      rw [hconvert] at h
      split at h
      · cases h
      · obtain ⟨_, _, _, _, _, _, _, _, rfl, _⟩ := convertLegacy_eq_ok h
        exact cutBlankLines_cutBlankLines _
    rw [hconvert, hsettled.anyTarget, if_neg Bool.false_ne_true,
      convertLegacy_of_settled path hsettled, hcut]
  · intro ho hagain
    rw [hconvert] at hagain
    split at hagain
    · cases hagain
    · next hnewer =>
      exact settled_of_convertLegacy ho (by simpa using hnewer) hagain

/-- A unit that leaves its namespace is settled after that. A version mark inside another one comes
out as a version mark, and the second conversion opens it up. -/
theorem convert_converted_nested_marks :
    let unit := "<?php namespace Nette\\Forms; class Form extends \\Nette\\Html { }".toList
    let flat := "<?php  class NForm extends NHtml { }".toList
    let nested := "<?php /*5.2* /*5.2* f(); */ */".toList
    let marked := "<?php /*5.2* f(); */".toList
    (convert {} "a.php".toList unit = .ok (.converted flat 0) ∧
      (∃ tokens, Settled {} flat tokens) ∧
      convert {} "a.php".toList flat = .ok (.converted flat 0)) ∧
    convert {} "a.php".toList nested = .ok (.converted marked 0) ∧
      ¬ (∃ tokens, Settled {} marked tokens) ∧
      convert {} "a.php".toList marked = .ok (.converted "<?php f();".toList 0) := by
  intro unit flat nested marked
  have hrun : (convert {} "a.php".toList unit).toOption = some (.converted flat 0) ∧
      (convert {} "a.php".toList flat).toOption = some (.converted flat 0) ∧
      (convert {} "a.php".toList nested).toOption = some (.converted marked 0) ∧
      (convert {} "a.php".toList marked).toOption = some (.converted "<?php f();".toList 0) := by
    decide +kernel
  obtain ⟨hunit, hflat, hnested, hmarked⟩ := hrun
  have hunit := eq_ok_of_toOption hunit
  have hflat := eq_ok_of_toOption hflat
  have hnested := eq_ok_of_toOption hnested
  have hmarked := eq_ok_of_toOption hmarked
  refine ⟨⟨hunit, (convert_converted rfl rfl hunit).2 plainOptions_default hflat, hflat⟩, hnested,
    fun hsettled => ?_, hmarked⟩
  have hagain := (convert_converted rfl rfl hnested).1 hsettled
  rw [hmarked] at hagain
  injection hagain with hagain
  injection hagain with htext
  exact absurd htext (by decide)

end LegacyPhp
