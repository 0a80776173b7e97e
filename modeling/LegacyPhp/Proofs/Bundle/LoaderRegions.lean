import LegacyPhp.Bundle.Loader
import LegacyPhp.Proofs.Token.ScanEnds

/-!
# Loading lines of a loader

A loader is a text, then a loading line, then a text, and so on; any of the texts may be empty
(`Cut`). Where two texts are not empty, the loader is split into them, and all the loading lines are
dropped. `splitLoader_cut` says which lines those are: one region between the two texts, but also
one at the very start and one at the very end, if the loader has them. No loading line is left in
the two texts, except that one may begin with what has lost its line start to the blanks behind a
line.
-/

namespace LegacyPhp.Bundle

open Text Scan List

variable {call cs text first rest more : Text} {start : Bool} {pairs : List (Text × Text)}
  {c : Char}

/-- Whether a text begins with a loading line. -/
def opensLine (call cs : Text) : Bool := (afterLoadingLine? call cs).isSome

/-- Whether what follows a text stands at the start of a line. -/
def startsLine (start : Bool) (cs : Text) : Bool := cs.foldl (fun _ c => c == '\n') start

/-- A text has a loading line. -/
def Contains (call text : Text) : Prop :=
  ∃ front back, text = front ++ back ∧ startsLine true front ∧ opensLine call back

/-- No loading line starts in a text that `rest` follows. -/
def Untouched (call : Text) (start : Bool) (text rest : Text) : Prop :=
  ∀ front back, text = front ++ back → back ≠ [] → startsLine start front →
    opensLine call (back ++ rest) = false

/-- A text and loading lines, each with the text behind it. -/
def joined (first : Text) (pairs : List (Text × Text)) : Text :=
  first ++ pairs.flatMap fun p => p.1 ++ p.2

/-- The loading lines are where they are looked for: at the starts of lines, each as far as it goes,
and nowhere in the texts between them. -/
def Cut (call : Text) : Bool → Text → List (Text × Text) → Prop
  | start, first, [] => Untouched call start first []
  | start, first, (line, next) :: pairs =>
    Untouched call start first (line ++ joined next pairs) ∧ startsLine start first ∧
      afterLoadingLine? call (line ++ joined next pairs) = some (joined next pairs) ∧ line ≠ [] ∧
      Cut call (startsLine true line) next pairs

/-- The texts that are not empty. -/
def keptTexts (first : Text) (pairs : List (Text × Text)) : List Text :=
  (first :: pairs.map Prod.snd).filter (!·.isEmpty)

theorem joined_cons (first line next : Text) (pairs : List (Text × Text)) :
    joined first ((line, next) :: pairs) = first ++ (line ++ joined next pairs) := by
  simp [joined]

theorem Cut.untouched (h : Cut call start first pairs) :
    Untouched call start first (joined [] pairs) := by
  cases pairs with
  | nil => exact h
  | cons p pairs => simpa [joined] using h.1

theorem Untouched.cons (h : Untouched call (c == '\n') text rest)
    (hnone : start → opensLine call (c :: text ++ rest) = false) :
    Untouched call start (c :: text) rest := by
  intro front back heq hback hstart
  rcases cons_eq_append_iff.1 heq with ⟨rfl, rfl⟩ | ⟨front, rfl, htext⟩
  · exact hnone hstart
  · exact h front back htext hback hstart

theorem Cut.cons (h : Cut call (c == '\n') first pairs)
    (hnone : start → opensLine call (c :: joined first pairs) = false) :
    Cut call start (c :: first) pairs := by
  cases pairs with
  | nil => exact Untouched.cons h (by simpa [joined] using hnone)
  | cons p pairs =>
    refine ⟨h.1.cons ?_, h.2⟩
    rwa [joined_cons] at hnone

theorem endsLine_append (c : Char) (m rest : Text) :
    endsLine (c :: m ++ rest) rest = startsLine true (c :: m) := by
  have htake : (c :: m ++ rest).take ((c :: m ++ rest).length - rest.length) = c :: m := by
    rw [length_append, Nat.add_sub_cancel, take_left]
  have hlast : startsLine true ((c :: m).dropLast ++ [(c :: m).getLast (cons_ne_nil c m)]) =
      ((c :: m).getLast (cons_ne_nil c m) == '\n') := by
    rw [startsLine, foldl_append]
    rfl
  rw [dropLast_concat_getLast] at hlast
  rw [endsLine, htake, hlast, getLast?_eq_some_getLast (cons_ne_nil c m)]
  rfl

/-- The parts of a loader are the texts between its loading lines. -/
theorem exists_cut (call : Text) (start : Bool) (part cs : Text) :
    ∃ first pairs, cs = joined first pairs ∧ Cut call start first pairs ∧
      loaderParts call start part cs = (part.reverse ++ first) :: pairs.map Prod.snd := by
  fun_induction loaderParts call start part cs with
  | case1 start part cs rest h ih =>
    split at h
    · next hstart =>
      obtain ⟨next, pairs, hrest, hcut, hparts⟩ := ih
      obtain ⟨c, m, rfl⟩ := afterLoadingLine?_eq_some h
      rw [endsLine_append] at hcut
      subst hrest
      refine ⟨[], (c :: m, next) :: pairs, by rw [joined_cons]; rfl,
        ⟨?_, hstart, h, nofun, hcut⟩, ?_⟩
      · intro front back heq hback
        exact absurd (append_eq_nil_iff.1 heq.symm).2 hback
      · rw [hparts, append_nil]
        rfl
    · cases h
  | case2 start part h =>
    refine ⟨[], [], rfl, fun front back heq hback => ?_, by simp⟩
    exact absurd (append_eq_nil_iff.1 heq.symm).2 hback
  | case3 start part c rest h ih =>
    obtain ⟨first, pairs, rfl, hcut, hparts⟩ := ih
    refine ⟨c :: first, pairs, rfl, hcut.cons fun hstart => ?_, by simp [hparts]⟩
    rw [if_pos hstart] at h
    rw [opensLine, h]
    rfl

/-! ## The texts that are kept -/

theorem joined_of_keptTexts_nil (h : keptTexts first pairs = []) :
    joined first pairs = (pairs.map Prod.fst).flatten := by
  have hempty := filter_eq_nil_iff.1 h
  have hnil : ∀ x ∈ first :: pairs.map Prod.snd, x = [] := by
    intro x hx
    simpa using hempty x hx
  obtain ⟨rfl, hpairs⟩ := forall_mem_cons.1 hnil
  clear h hempty hnil
  induction pairs with
  | nil => rfl
  | cons p pairs ih =>
    obtain ⟨line, next⟩ := p
    obtain ⟨rfl, hrest⟩ := forall_mem_cons.1 hpairs
    rw [joined_cons, ih hrest]
    rfl

/-- Up to the first text that is not empty there are only loading lines. -/
theorem Cut.first_kept {texts : List Text} (h : Cut call start first pairs)
    (hkept : keptTexts first pairs = text :: texts) :
    ∃ lines start' behind, joined first pairs = lines.flatten ++ joined text behind ∧
      pairs.map Prod.fst = lines ++ behind.map Prod.fst ∧ Cut call start' text behind ∧
      (lines = [] → start' = start) ∧ (behind.map Prod.snd).filter (!·.isEmpty) = texts := by
  induction pairs generalizing start first with
  | nil =>
    have hne : first ≠ [] := by
      rintro rfl
      cases hkept
    simp only [keptTexts, map_nil, filter_cons, filter_nil] at hkept
    obtain ⟨rfl, rfl⟩ : first = text ∧ texts = [] := by simpa [hne] using hkept
    exact ⟨[], start, [], rfl, rfl, h, fun _ => rfl, rfl⟩
  | cons p pairs ih =>
    obtain ⟨line, next⟩ := p
    cases first with
    | cons c first =>
      obtain ⟨rfl, htexts⟩ := cons.inj hkept
      exact ⟨[], start, (line, next) :: pairs, rfl, rfl, h, fun _ => rfl, htexts⟩
    | nil =>
      obtain ⟨lines, start', behind, hjoined, hlines, hcut, _, htexts⟩ := ih h.2.2.2.2 hkept
      refine ⟨line :: lines, start', behind, ?_, ?_, hcut, nofun, htexts⟩
      · rw [joined_cons, hjoined]
        simp
      · simp [hlines]

/-! ## Loading lines of a text of its own -/

theorem afterLastSemicolon?_append (h : (afterLastSemicolon? cs).isSome) (more : Text) :
    (afterLastSemicolon? (cs ++ more)).isSome := by
  induction cs with
  | nil => cases h
  | cons c cs ih =>
    rw [afterLastSemicolon?] at h
    rw [cons_append, afterLastSemicolon?]
    split at h
    · cases h
    · next hc =>
      rw [if_neg hc]
      cases hlater : afterLastSemicolon? (cs ++ more) with
      | some left => rfl
      | none =>
        cases hshort : afterLastSemicolon? cs with
        | some left =>
          rw [hshort, hlater] at ih
          cases ih rfl
        | none =>
          rw [hshort] at h
          dsimp only at h ⊢
          split at h
          · next hmark => rw [if_pos hmark]; rfl
          · cases h

theorem bind_append {mark : Text} (h : ((after? mark cs).bind afterLastSemicolon?).isSome)
    (more : Text) : ((after? mark (cs ++ more)).bind afterLastSemicolon?).isSome := by
  cases hafter : after? mark cs with
  | none => rw [hafter] at h; cases h
  | some left =>
    rw [hafter] at h
    have hle : mark.length ≤ cs.length := by
      rw [after?_eq_some hafter, length_append]
      omega
    rw [after?_append_of_le hle, hafter]
    exact afterLastSemicolon?_append h more

theorem afterLoaderCall?_append (h : (afterLoaderCall? call cs).isSome) (more : Text) :
    (afterLoaderCall? call (cs ++ more)).isSome := by
  induction cs with
  | nil => cases h
  | cons c cs ih =>
    rw [afterLoaderCall?, Option.isSome_or, Bool.or_eq_true] at h
    rw [cons_append, afterLoaderCall?, Option.isSome_or, Bool.or_eq_true]
    refine h.imp (fun hlater => ?_) fun hhere => bind_append hhere more
    split at hlater
    · cases hlater
    · next hc =>
      rw [if_neg hc]
      exact ih hlater

theorem opensLine_append (h : opensLine call cs) (more : Text) : opensLine call (cs ++ more) := by
  rw [opensLine, afterLoadingLine?, Option.isSome_map, Option.isSome_or, Bool.or_eq_true] at h ⊢
  exact h.imp (bind_append · more) (afterLoaderCall?_append · more)

/-- A text between loading lines has none, unless it begins with one. -/
theorem Cut.contains_iff (h : Cut call start text pairs) :
    (Contains call text ↔ opensLine call text) ∧ (start → opensLine call text = false) := by
  have hback : ∀ {back}, opensLine call back → back ≠ [] := by
    rintro _ hopens rfl
    cases hopens
  refine ⟨⟨?_, fun hopens => ⟨[], text, rfl, rfl, hopens⟩⟩, fun hstart => ?_⟩
  · rintro ⟨front, back, rfl, hline, hopens⟩
    cases front with
    | nil => exact hopens
    | cons c front =>
      have hnone := h.untouched (c :: front) back rfl (hback hopens) hline
      rw [opensLine_append hopens] at hnone
      cases hnone
  · refine Bool.eq_false_iff.2 fun hopens => ?_
    have hnone := h.untouched [] text rfl (hback hopens) hstart
    rw [opensLine_append hopens] at hnone
    cases hnone

/-- A loader is texts and loading lines, one behind the other. It is split if and only if two of the
texts are not empty; otherwise the failure gives their number. The two stand around a region of
loading lines, with perhaps another region at the very start and one at the very end, and all these
lines are dropped. So if there are none at the start and at the end, the loader is the two texts
around one region, and neither has a loading line unless the second begins with one. -/
theorem splitLoader_cut (o : BundleOptions) (path : Path) (loader : Text) :
    ∃ first pairs, loader = joined first pairs ∧
      Cut (o.loaderClass ++ "::".toList) true first pairs ∧
      (∀ head tail, splitLoader o path loader = .ok (head, tail) ↔
        keptTexts first pairs = [head, tail]) ∧
      ((keptTexts first pairs).length ≠ 2 → splitLoader o path loader =
        .error (.structural path (.loaderParts (keptTexts first pairs).length))) ∧
      ∀ head tail, splitLoader o path loader = .ok (head, tail) →
        ∃ atStart between atEnd, pairs.map Prod.fst = atStart ++ between ++ atEnd ∧ between ≠ [] ∧
          loader = atStart.flatten ++ head ++ between.flatten ++ tail ++ atEnd.flatten ∧
          (Contains (o.loaderClass ++ "::".toList) head ↔
            atStart ≠ [] ∧ opensLine (o.loaderClass ++ "::".toList) head) ∧
          (Contains (o.loaderClass ++ "::".toList) tail ↔
            opensLine (o.loaderClass ++ "::".toList) tail) := by
  obtain ⟨first, pairs, hloader, hcut, hparts⟩ :=
    exists_cut (o.loaderClass ++ "::".toList) true [] loader
  have hkept : (loaderParts (o.loaderClass ++ "::".toList) true [] loader).filter (!·.isEmpty) =
      keptTexts first pairs := by
    rw [hparts]
    rfl
  have hok : ∀ head tail, splitLoader o path loader = .ok (head, tail) ↔
      keptTexts first pairs = [head, tail] := by
    intro head tail
    rw [splitLoader, hkept]
    split
    · next heq => simp [heq]
    · next hother => exact ⟨nofun, fun heq => absurd heq (hother head tail)⟩
  refine ⟨first, pairs, hloader, hcut, hok, fun hlength => ?_, fun head tail hsplit => ?_⟩
  · rw [splitLoader, hkept]
    split
    · next heq => exact absurd (congrArg List.length heq) hlength
    · rfl
  -- the texts come one after the other, with loading lines only up to each and behind the last
  obtain ⟨atStart, start, behind, hjoined, hlines, hhead, hstart, htail⟩ :=
    hcut.first_kept ((hok head tail).1 hsplit)
  cases behind with
  | nil => cases htail
  | cons p behind =>
    obtain ⟨line, next⟩ := p
    obtain ⟨between, _, last, hjoined', hlines', htail', _, hlast⟩ :=
      hhead.2.2.2.2.first_kept htail
    refine ⟨atStart, line :: between, last.map Prod.fst, ?_, nofun, ?_, ?_, htail'.contains_iff.1⟩
    · simp [hlines, hlines']
    · have hend : joined tail last = tail ++ (last.map Prod.fst).flatten := by
        rw [← @joined_of_keptTexts_nil [] last hlast]
        rfl
      rw [hloader, hjoined, joined_cons, hjoined', hend]
      simp
    · obtain ⟨hiff, hnone⟩ := hhead.contains_iff
      refine hiff.trans ⟨fun hopens => ⟨?_, hopens⟩, And.right⟩
      rintro rfl
      rw [hnone (hstart rfl)] at hopens
      cases hopens

/-- A loader with a loading line between two texts and another one at its end. -/
example : splitLoader {} [] "<?php\nrequire 'a.php';\necho 1;\nrequire 'b.php';\n".toList =
    .ok ("<?php\n".toList, "echo 1;\n".toList) :=
  eq_ok_of_toOption (by decide +kernel)

end LegacyPhp.Bundle
