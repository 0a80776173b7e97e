import LegacyPhp.Qualify.Prose

/-!
# Class names in string literals

A string literal spells a class out in full. `literal` puts the flat name for every name that starts
with a protected root and is followed by a character that ends it. In a single-quoted literal one
separator stands between segments, elsewhere one or two, since there a backslash may be escaped.
-/

namespace LegacyPhp.Qualify

open Text Scan
open List hiding splitOn

variable {doubled : Bool} {cs : Text} {parts : Text × Text} {roots : List Text} {n : FullName}

/-- A separator before a segment; `doubled` says whether it may be written twice. -/
def separatorAt (doubled : Bool) : Text → Option (Text × Text)
  | '\\' :: '\\' :: rest =>
    if doubled && nextIs isWordChar rest then some (['\\', '\\'], rest) else none
  | '\\' :: rest => if nextIs isWordChar rest then some (['\\'], rest) else none
  | _ => none

theorem separatorAt_append (h : separatorAt doubled cs = some parts) :
    (parts.1 = ['\\'] ∨ parts.1 = ['\\', '\\']) ∧ parts.1 ++ parts.2 = cs ∧
      nextIs isWordChar parts.2 := by
  unfold separatorAt at h
  split at h
  · split at h
    · next hword =>
      cases h
      rw [Bool.and_eq_true] at hword
      exact ⟨.inr rfl, rfl, hword.2⟩
    · cases h
  · split at h
    · next hword => cases h; exact ⟨.inl rfl, rfl, hword⟩
    · cases h
  · cases h

theorem length_separatorAt (h : separatorAt doubled cs = some parts) :
    parts.2.length < cs.length := by
  obtain ⟨hmarks, happend, -⟩ := separatorAt_append h
  rw [← happend, length_append]
  rcases hmarks with hmarks | hmarks <;> simp [hmarks]

/-- A segment and those that separators join to it. -/
def segmentsAt (doubled : Bool) (cs : Text) : Text × Text :=
  let word := run isWordChar cs
  match _h : separatorAt doubled word.2 with
  | some (sep, rest) =>
    let more := segmentsAt doubled rest
    (word.1 ++ sep ++ more.1, more.2)
  | none => word
termination_by cs.length
decreasing_by
  exact Nat.lt_of_lt_of_le (length_separatorAt (by assumption)) (dropWhile_sublist _).length_le

theorem segmentsAt_append (doubled : Bool) (cs : Text) :
    (segmentsAt doubled cs).1 ++ (segmentsAt doubled cs).2 = cs := by
  fun_induction segmentsAt doubled cs with
  | case1 cs word sep rest hsep more ih =>
    have happend : sep ++ rest = word.2 := (separatorAt_append hsep).2.1
    simp only [append_assoc]
    rw [ih, happend, run_append]
  | case2 cs word hnone => exact run_append _ _

/-- The characters that end a name in a literal. -/
def isNameEnd (c : Char) : Bool :=
  c == ' ' || c == ',' || c == '.' || c == ':' || c == '\'' || c == '"' || c == '(' || c == ')'

/-- The end of a name in a literal: one character, or an escaped quote. -/
def nameEnd : Text → Option (Text × Text)
  | '\\' :: '\'' :: rest => some (['\\', '\''], rest)
  | c :: rest => if isNameEnd c then some ([c], rest) else none
  | [] => none

theorem nameEnd_append (h : nameEnd cs = some parts) : parts.1 ++ parts.2 = cs ∧ parts.1 ≠ [] := by
  unfold nameEnd at h
  split at h
  · cases h; simp
  · split at h
    · cases h; simp
    · cases h
  · cases h

/-- A class spelt out in a literal. -/
structure FullName where
  name : Text
  /-- What ends the name. -/
  tail : Text
  rest : Text
  deriving Repr

/-- The name under the given root that the text begins with. -/
def fullNameUnder (doubled : Bool) (root cs : Text) : Option FullName := do
  let afterRoot ← after? root cs
  let sep ← separatorAt doubled afterRoot
  let segments := segmentsAt doubled sep.2
  let tail ← nameEnd segments.2
  return ⟨root ++ sep.1 ++ segments.1, tail.1, tail.2⟩

/-- The name under one of the roots that the text begins with. -/
def fullNameAt (roots : List Text) (doubled : Bool) (cs : Text) : Option FullName :=
  roots.findSome? fun root => fullNameUnder doubled (dropAround '\\' root) cs

theorem fullNameAt_append (h : fullNameAt roots doubled cs = some n) :
    n.name ++ n.tail ++ n.rest = cs ∧ n.tail ≠ [] := by
  obtain ⟨root, _, hn⟩ := exists_of_findSome?_eq_some h
  unfold fullNameUnder at hn
  obtain ⟨afterRoot, hafter, hn⟩ := Option.bind_eq_some_iff.1 hn
  obtain ⟨sep, hsep, hn⟩ := Option.bind_eq_some_iff.1 hn
  obtain ⟨tail, htail, hn⟩ := Option.bind_eq_some_iff.1 hn
  cases hn
  obtain ⟨htailAppend, hne⟩ := nameEnd_append htail
  refine ⟨?_, hne⟩
  simp only [append_assoc]
  rw [htailAppend, segmentsAt_append, (separatorAt_append hsep).2.1, ← after?_eq_some hafter]

theorem length_fullNameAt (h : fullNameAt roots doubled cs = some n) :
    n.rest.length < cs.length := by
  obtain ⟨happend, hne⟩ := fullNameAt_append h
  have htail := length_pos_iff.2 hne
  rw [← happend]
  simp only [length_append]
  omega

/-- The flat form of a name in a literal. -/
def FullName.flat (o : ConvertOptions) (s : Scope) (n : FullName) : Text :=
  proseName o s ('\\' :: replaceAll ['\\', '\\'] ['\\'] n.name) ++ n.tail

/-- Puts flat names into the text of a literal. -/
def literalFrom (o : ConvertOptions) (s : Scope) (doubled : Bool) (cs : Text) : Text :=
  match _h : fullNameAt o.protectedRoots doubled cs with
  | some n => n.flat o s ++ literalFrom o s doubled n.rest
  | none =>
    match cs with
    | [] => []
    | c :: rest => c :: literalFrom o s doubled rest
termination_by cs.length
decreasing_by
  · exact length_fullNameAt (by assumption)
  · simp

/-- Puts flat names into a literal (`rewrite_string`). -/
def literal (o : ConvertOptions) (s : Scope) (text : Text) : Text :=
  literalFrom o s (!nextIs (· == '\'') text) text

end LegacyPhp.Qualify
