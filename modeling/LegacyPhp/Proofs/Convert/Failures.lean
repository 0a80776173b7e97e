import LegacyPhp.Proofs.Convert.Flattening
import LegacyPhp.Proofs.Convert.Layout

/-!
# The failures of a conversion

A conversion reads the unit several times: the source with its replacements made, and then what the
passes make of it (`IsRead`). Each pass fails for one of four reasons, all of them found in the text
it reads (`Cause`): the text has no tokens, a name has an empty segment, a closure has no body, or a
closure stands in the body of another. `convert_failure_at_unit` says that nothing else can go wrong
and that every such failure names the unit that is being converted, whichever text it was found in.

The one failure that names no unit is the cut inside a character (`Failure.splitCharacter`), which a
search for an open tag meets before there is any token.
-/

namespace LegacyPhp

open Text Drift List
open LegacyPhp.Stream (suffix_cons_fetch suffix_gather)

variable {path : Path} {text name : Text} {f : Failure} {u : Source} {ts rest us : List Token}
  {s : Scope} {t : Token} {o : ConvertOptions}

theorem bind_eq_error {ε α β : Type} {x : Except ε α} {next : α → Except ε β} {e : ε}
    (h : (x >>= next) = .error e) : x = .error e ∨ ∃ a, x = .ok a ∧ next a = .error e := by
  cases x with
  | error e' => cases h; exact .inl rfl
  | ok a => exact .inr ⟨a, rfl, h⟩

/-- The failure of what fails. -/
def failure? {ε α : Type} : Except ε α → Option ε
  | .error e => some e
  | .ok _ => none

theorem eq_error_of_failure? {ε α : Type} {x : Except ε α} {e : ε} (h : failure? x = some e) :
    x = .error e := by
  cases x with
  | error e' => cases h; rfl
  | ok a => cases h

theorem lexemesOf_eq_error :
    lexemesOf path text = .error f ↔ ∃ e, lexemes text = .error e ∧ f = .ofLex path e := by
  unfold lexemesOf
  cases lexemes text with
  | error e =>
    show Except.error (Failure.ofLex path e) = _ ↔ _
    simp [eq_comm]
  | ok tokens =>
    show Except.ok tokens = _ ↔ _
    simp

/-! ## Names -/

namespace Qualify

/-- A name that no scope resolves, met at one of the tokens. -/
def Unresolved (u : Source) (ts : List Token) (f : Failure) : Prop :=
  ∃ t ∈ ts, ∃ name, (∀ s : Scope, s.resolve? name = none) ∧
    f = .resolution u.path name (.emptySegmentNear (excerpt u.text t.offset))

theorem Unresolved.of_suffix (h : Unresolved u us f) (hus : us <:+ ts) : Unresolved u ts f := by
  obtain ⟨t, ht, cause⟩ := h
  exact ⟨t, hus.subset ht, cause⟩

theorem resolve?_eq_none (h : s.resolve? name = none) (s' : Scope) : s'.resolve? name = none := by
  unfold Scope.resolve? at h ⊢
  split at h
  · cases h
  next hnamed =>
  rw [if_neg hnamed]
  split at h <;> split at h
  · next hempty => exact if_pos hempty
  · cases h
  · next hempty => exact if_pos hempty
  · cases h

theorem className_eq_error {place : Token} (h : className u s place name = .error f)
    (hplace : place ∈ ts) : Unresolved u ts f := by
  unfold className at h
  split at h
  · cases h
  · next hnone =>
    cases h
    exact ⟨place, hplace, name, resolve?_eq_none hnone, rfl⟩

theorem classNames_eq_error {list : Bool} {head : Token}
    (h : classNames u s list head ts = .error f) : Unresolved u (head :: ts) f := by
  fun_induction classNames u s list head ts generalizing f with
  | case1 =>
    rename_i he
    cases h
    exact className_eq_error he mem_cons_self
  | case2 => cases h
  | case3 =>
    -- the list goes on behind a comma, which is one of the tokens
    rename_i head ts space name flat _ text comma rest hfetch ih
    split at hfetch
    · have hcomma : comma :: rest <:+ ts := (suffix_cons_fetch hfetch).trans
        ((suffix_gather _ _).trans (suffix_gather _ ts))
      exact (ih (map_eq_error.1 h)).of_suffix (hcomma.trans (suffix_cons head ts))
    · cases hfetch

theorem nameStep_eq_error {s : State} (h : nameStep u s t rest = .error f) :
    Unresolved u (t :: rest) f := by
  unfold nameStep at h
  simp only at h
  split at h
  · exact className_eq_error (map_eq_error.1 h) mem_cons_self
  · cases h

theorem step_eq_error {s : State} (h : step u s t rest = .error f) :
    Unresolved u (t :: rest) f := by
  unfold step at h
  simp only at h
  generalize (if t.isPunct "\x7b" then { s with inInterfaceHeader := false } else s : State) = s
    at h
  split at h
  · cases h
  split at h
  · split at h <;> cases h
  split at h
  · exact classNames_eq_error (map_eq_error.1 h)
  split at h
  · exact nameStep_eq_error h
  split at h
  · cases h
  split at h <;> cases h

theorem run_eq_error {s : State} (h : run u s ts = .error f) : Unresolved u ts f := by
  fun_induction run u s ts generalizing f with
  | case1 => cases h
  | case2 s t rest e he => cases h; exact step_eq_error he
  | case3 s t rest r hr ih =>
    exact (ih (map_eq_error.1 h)).of_suffix ((suffix_step hr).trans (suffix_cons t rest))

end Qualify

/-! ## Closures -/

namespace Closure

/-- A closure literal without a body at one of the tokens, or one in the body of another. -/
def Unliftable (u : Source) (ts : List Token) (f : Failure) : Prop :=
  ∃ t ∈ ts, t.isKeyword .functionKw ∧
    (f = .structural u.path (.closureWithoutBody (excerpt u.text t.offset)) ∨
      f = .unsupported u.path .nestedClosure (excerpt u.text t.offset))

theorem Unliftable.of_suffix (h : Unliftable u us f) (hus : us <:+ ts) : Unliftable u ts f := by
  obtain ⟨t, ht, cause⟩ := h
  exact ⟨t, hus.subset ht, cause⟩

theorem first?_eq_some (h : first? ts = some t) : t ∈ ts ∧ t.isKeyword .functionKw := by
  induction ts with
  | nil => cases h
  | cons u rest ih =>
    unfold first? at h
    split at h
    · next hstart =>
      cases h
      exact ⟨mem_cons_self, (Bool.and_eq_true_iff.1 hstart).1⟩
    · exact ⟨mem_cons_of_mem u (ih h).1, (ih h).2⟩

theorem upTo_subset (stop : Token → Bool) (depth : Nat) (ts : List Token) :
    (Stream.upTo stop depth ts).1 ⊆ ts := by
  intro t ht
  rw [← Stream.upTo_append stop depth ts]
  exact mem_append_left _ ht

theorem lift_eq_error {keyword : Token} (hkeyword : keyword.isKeyword .functionKw)
    (h : lift u name keyword ts = .error f) : Unliftable u (keyword :: ts) f := by
  unfold lift at h
  simp only at h
  split at h
  · cases h
    exact ⟨keyword, mem_cons_self, hkeyword, .inl rfl⟩
  · next hbody =>
    split at h
    · next nested hnested =>
      cases h
      obtain ⟨hmem, hfunction⟩ := first?_eq_some hnested
      have hts := (suffix_body hbody).subset (upTo_subset _ _ _ hmem)
      exact ⟨nested, mem_cons_of_mem keyword hts, hfunction, .inr rfl⟩
    · cases h

theorem liftAll_eq_error {stem : Text} {index : Nat} {inCode : Bool}
    (h : liftAll u stem index inCode ts = .error f) : Unliftable u ts f := by
  fun_induction liftAll u stem index inCode ts generalizing f with
  | case1 => cases h
  | case2 index inCode t rest hstart e he =>
    cases h
    exact lift_eq_error (Bool.and_eq_true_iff.1 hstart).1 he
  | case3 index inCode t rest hstart l hl ih =>
    exact (ih (map_eq_error.1 h)).of_suffix ((suffix_lift hl).trans (suffix_cons t rest))
  | case4 index inCode t rest hstart ih =>
    exact (ih (map_eq_error.1 h)).of_suffix (suffix_cons t rest)

theorem suffix_throughOpenTag (ts : List Token) : (throughOpenTag ts).2 <:+ ts := by
  induction ts with
  | nil => exact suffix_refl _
  | cons t ts ih =>
    unfold throughOpenTag
    split
    · exact suffix_cons t ts
    · exact ih.trans (suffix_cons t ts)

end Closure

/-! ## The passes -/

/-- Why a pass fails that reads a text as the unit at a path. -/
inductive Cause (path : Path) (text : Text) : Failure → Prop
  | lexical {e : LexFailure} (h : lexemes text = .error e) : Cause path text (.ofLex path e)
  | name {tokens : List Token} {o : ConvertOptions} {f : Failure} (h : lexemes text = .ok tokens)
      (hf : Qualify.Unresolved ⟨path, text, o⟩ tokens f) : Cause path text f
  | closure {tokens : List Token} {helper : Text} {f : Failure} (h : lexemes text = .ok tokens)
      (hf : Closure.Unliftable ⟨path, text, helper⟩ tokens f) : Cause path text f

theorem Cause.of_lexemesOf (h : lexemesOf path text = .error f) : Cause path text f := by
  obtain ⟨e, he, rfl⟩ := lexemesOf_eq_error.1 h
  exact .lexical he

theorem qualify_eq_error (h : qualify o path text = .error f) : Cause path text f := by
  rcases bind_eq_error h with hlex | ⟨tokens, htokens, hrun⟩
  · exact .of_lexemesOf hlex
  · rcases bind_eq_error hrun with hname | ⟨_, _, hdone⟩
    · exact .name (lexemesOf_eq_ok.1 htokens) (Qualify.run_eq_error hname)
    · cases hdone

theorem extractClosures_eq_error {helper : Text} (h : extractClosures path helper text = .error f) :
    Cause path text f := by
  rcases bind_eq_error h with hlex | ⟨tokens, htokens, hlift⟩
  · exact .of_lexemesOf hlex
  · rcases bind_eq_error hlift with hclosure | ⟨_, _, hdone⟩
    · exact .closure (lexemesOf_eq_ok.1 htokens) ((Closure.liftAll_eq_error hclosure).of_suffix
        (Closure.suffix_throughOpenTag tokens))
    · cases hdone

/-- The texts that the conversion of a unit reads. -/
inductive IsRead (o : ConvertOptions) (path : Path) (source : Text) : Text → Prop
  | replaced : IsRead o path source (applyReplacements o.replacements source)
  | activated {text : Text} (hdialect : o.dialect = .legacy)
      (h : Legacy.activateVersionMarks path o.legacyMarker
        (applyReplacements o.replacements source) = .ok text) : IsRead o path source text
  | expanded {activated text : Text} (hdialect : o.dialect = .legacy)
      (hactivated : Legacy.activateVersionMarks path o.legacyMarker
        (applyReplacements o.replacements source) = .ok activated)
      (h : Legacy.substituteConstructs path activated = .ok text) :
      IsRead o path source (Legacy.expandShortTernaries text)
  | flat {activated substituted : Text} {flat : Qualify.Flat} (hdialect : o.dialect = .legacy)
      (hactivated : Legacy.activateVersionMarks path o.legacyMarker
        (applyReplacements o.replacements source) = .ok activated)
      (hsubstituted : Legacy.substituteConstructs path activated = .ok substituted)
      (h : qualify o path (Legacy.expandShortTernaries substituted) = .ok flat) :
      IsRead o path source flat.text

/-- A conversion fails for a cause in one of the texts it reads. -/
theorem convert_cause {source : Text} (h : convert o path source = .error f) :
    ∃ text, IsRead o path source text ∧ Cause path text f := by
  unfold convert at h
  cases hdialect : o.dialect with
  | native =>
    rw [hdialect] at h
    exact ⟨_, .replaced, .of_lexemesOf (map_eq_error.1 h)⟩
  | legacy =>
    rw [hdialect] at h
    simp only at h
    split at h
    · cases h
    unfold convertLegacy at h
    rcases bind_eq_error h with hf | ⟨activated, hactivated, h⟩
    · exact ⟨_, .replaced, .of_lexemesOf (map_eq_error.1 hf)⟩
    rcases bind_eq_error h with hf | ⟨substituted, hsubstituted, h⟩
    · exact ⟨_, .activated hdialect hactivated, .of_lexemesOf (map_eq_error.1 hf)⟩
    rcases bind_eq_error h with hf | ⟨flat, hflat, h⟩
    · exact ⟨_, .expanded hdialect hactivated hsubstituted, qualify_eq_error hf⟩
    rcases bind_eq_error h with hf | ⟨extraction, _, h⟩
    · exact ⟨_, .flat hdialect hactivated hsubstituted hflat, extractClosures_eq_error hf⟩
    · cases h

/-- The failures that a unit can have. The others are about files and configurations. -/
def Failure.isOfUnit : Failure → Bool
  | lex .. | unsupported .. | resolution .. | structural .. => true
  | io .. | config _ | splitCharacter => false

/-- Whatever its cause, a failure names the unit. -/
theorem Cause.names_unit (h : Cause path text f) :
    f = .splitCharacter ∧ lexemes text = .error .splitCharacter ∨
      f.isOfUnit ∧ f.path? = some path := by
  cases h with
  | @lexical e h =>
    cases e with
    | fault fault offset => exact .inr ⟨rfl, rfl⟩
    | splitCharacter => exact .inl ⟨rfl, h⟩
  | name _ hf =>
    obtain ⟨_, _, _, _, rfl⟩ := hf
    exact .inr ⟨rfl, rfl⟩
  | closure _ hf =>
    obtain ⟨_, _, _, rfl | rfl⟩ := hf <;> exact .inr ⟨rfl, rfl⟩

/-- A conversion that fails does so for a cause in one of the texts it reads, with a lexical
failure, an unresolved name, a closure without a body or a construct without a legacy form, and the
failure names the unit. The exception is the cut inside a character, which one of the texts makes.
-/
theorem convert_failure_at_unit {o : ConvertOptions} {path : Path} {source : Text} {f : Failure}
    (h : convert o path source = .error f) :
    ∃ text, IsRead o path source text ∧ Cause path text f ∧
      (f = .splitCharacter ∧ lexemes text = .error .splitCharacter ∨
        f.isOfUnit ∧ f.path? = some path) := by
  obtain ⟨text, hread, hcause⟩ := convert_cause h
  exact ⟨text, hread, hcause, hcause.names_unit⟩

/-- The source has tokens, and so has every text up to the one that the version mark is opened in; a
closure in the body of another is found in the last text that is read. -/
theorem convert_failure_at_unit_mark_and_closure :
    (lexemes "<?php /*5.2* ' */".toList).toOption.isSome ∧
      (∃ text, IsRead {} "u.php".toList "<?php /*5.2* ' */".toList text ∧
        Cause "u.php".toList text (.lex "u.php".toList .unterminatedLiteral 6)) ∧
      ∃ text, IsRead {} "u.php".toList
          "<?php f(function () \x7b function () \x7b\x7d; \x7d);".toList text ∧
        Cause "u.php".toList text (.unsupported "u.php".toList .nestedClosure
          "<?php f(function () \x7b function () \x7b\x7d; \x7d);".toList) := by
  have hrun : (lexemes "<?php /*5.2* ' */".toList).toOption.isSome ∧
      failure? (convert {} "u.php".toList "<?php /*5.2* ' */".toList) =
        some (.lex "u.php".toList .unterminatedLiteral 6) ∧
      failure? (convert {} "u.php".toList
          "<?php f(function () \x7b function () \x7b\x7d; \x7d);".toList) =
        some (.unsupported "u.php".toList .nestedClosure
          "<?php f(function () \x7b function () \x7b\x7d; \x7d);".toList) := by
    decide +kernel
  obtain ⟨hlex, hmark, hclosure⟩ := hrun
  obtain ⟨first, hfirst, hcause, _⟩ := convert_failure_at_unit (eq_error_of_failure? hmark)
  obtain ⟨last, hlast, hcause', _⟩ := convert_failure_at_unit (eq_error_of_failure? hclosure)
  exact ⟨hlex, ⟨first, hfirst, hcause⟩, last, hlast, hcause'⟩

end LegacyPhp
