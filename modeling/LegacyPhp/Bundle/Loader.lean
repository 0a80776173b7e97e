import LegacyPhp.Failure
import LegacyPhp.Options.Basic

/-!
# Splitting a loader

A loader is the unit that a package starts with. It loads the other files in a line that starts with
`require` or uses the loader class; with a bundle that line has no place. `splitLoader` takes such
lines out, through the last semicolon in them and the blanks after it, and returns the two parts
around them.
-/

namespace LegacyPhp.Bundle

open Text

variable {cs rest call : Text}

/-- What follows the last semicolon of the line. -/
def afterLastSemicolon? : Text → Option Text
  | [] => none
  | c :: rest =>
    if c == '\n' then none
    else
      match afterLastSemicolon? rest with
      | some left => some left
      | none => if c == ';' then some rest else none

/-- What follows the last semicolon of the line, behind a mention of the loader class in it. The
mention nearest to the end of the line is tried first. -/
def afterLoaderCall? (call : Text) : Text → Option Text
  | [] => none
  | c :: rest =>
    let later := if c == '\n' then none else afterLoaderCall? call rest
    later.or ((after? call (c :: rest)).bind afterLastSemicolon?)

/-- What follows a loading line that the text begins with, the blanks after it included. -/
def afterLoadingLine? (call : Text) (cs : Text) : Option Text :=
  let plain := (after? "require".toList cs).bind afterLastSemicolon?
  (plain.or (afterLoaderCall? call cs)).map (·.dropWhile isBlank)

theorem afterLastSemicolon?_eq_some (h : afterLastSemicolon? cs = some rest) :
    ∃ c m, cs = c :: m ++ rest := by
  induction cs with
  | nil => cases h
  | cons c cs ih =>
    unfold afterLastSemicolon? at h
    split at h
    · cases h
    · split at h
      · next left hl =>
        cases h
        obtain ⟨d, m, rfl⟩ := ih hl
        exact ⟨c, d :: m, rfl⟩
      · split at h
        · cases h; exact ⟨c, [], rfl⟩
        · cases h

theorem eq_append_of_bind {start : Text}
    (h : (after? start cs).bind afterLastSemicolon? = some rest) : ∃ c m, cs = c :: m ++ rest := by
  obtain ⟨left, ha, hs⟩ := Option.bind_eq_some_iff.1 h
  obtain ⟨c, m, rfl⟩ := afterLastSemicolon?_eq_some hs
  rw [after?_eq_some ha]
  cases start with
  | nil => exact ⟨c, m, rfl⟩
  | cons d start => exact ⟨d, start ++ c :: m, by simp⟩

theorem afterLoaderCall?_eq_some (h : afterLoaderCall? call cs = some rest) :
    ∃ c m, cs = c :: m ++ rest := by
  induction cs with
  | nil => cases h
  | cons c cs ih =>
    unfold afterLoaderCall? at h
    rcases Option.or_eq_some_iff.1 h with hlater | ⟨_, hhere⟩
    · split at hlater
      · cases hlater
      · obtain ⟨d, m, rfl⟩ := ih hlater
        exact ⟨c, d :: m, rfl⟩
    · exact eq_append_of_bind hhere

/-- A loading line is not empty, and what follows it is the rest of the text. -/
theorem afterLoadingLine?_eq_some (h : afterLoadingLine? call cs = some rest) :
    ∃ c m, cs = c :: m ++ rest := by
  obtain ⟨left, hl, rfl⟩ := Option.map_eq_some_iff.1 h
  obtain ⟨c, m, rfl⟩ : ∃ c m, cs = c :: m ++ left := by
    rcases Option.or_eq_some_iff.1 hl with hplain | ⟨_, hcall⟩
    · exact eq_append_of_bind hplain
    · exact afterLoaderCall?_eq_some hcall
  exact ⟨c, m ++ left.takeWhile isBlank, by simp⟩

theorem length_afterLoadingLine? (h : afterLoadingLine? call cs = some rest) :
    rest.length < cs.length := by
  obtain ⟨c, m, rfl⟩ := afterLoadingLine?_eq_some h
  simp only [List.length_append, List.length_cons]
  omega

/-- Whether the text after a part of the loader stands at the start of a line, that part being what
`cs` has in front of `rest`. -/
def endsLine (cs rest : Text) : Bool := (cs.take (cs.length - rest.length)).getLast? == some '\n'

/-- The stretches around the loading lines; `part` is the one being read, in reverse. -/
def loaderParts (call : Text) (lineStart : Bool) (part : Text) (cs : Text) : List Text :=
  match _h : if lineStart then afterLoadingLine? call cs else none with
  | some rest => part.reverse :: loaderParts call (endsLine cs rest) [] rest
  | none =>
    match cs with
    | [] => [part.reverse]
    | c :: rest => loaderParts call (c == '\n') (c :: part) rest
termination_by cs.length
decreasing_by
  · split at _h
    · exact length_afterLoadingLine? _h
    · cases _h
  · simp

/-- The two parts of a loader around its loading lines. -/
def splitLoader (o : BundleOptions) (path : Path) (loader : Text) : Except Failure (Text × Text) :=
  match (loaderParts (o.loaderClass ++ "::".toList) true [] loader).filter (!·.isEmpty) with
  | [head, tail] => .ok (head, tail)
  | parts => .error (.structural path (.loaderParts parts.length))

end LegacyPhp.Bundle
