import LegacyPhp.Name.Flat
import LegacyPhp.Text.Word
import LegacyPhp.Token.Scan

/-!
# Class names in comments

Comments mention classes after a documentation tag (`@var Foo|Bar`), before `::`, or with separators
in them. `prose` puts the flat name for each such mention. A mention is a capital with at least one
more character of a name, and the leftmost mention wins; at one place a tag is preferred to none,
and the tags are tried in a fixed order. Words without tag, colons or separator are left alone, and
so are the arguments of exempt tags.
-/

namespace LegacyPhp.Qualify

open Text Scan

/-- A class mentioned in a comment, and what follows the mention. -/
structure Mention where
  /-- The tag in front of the name with the blanks after it; empty without a tag. -/
  tag : Text
  name : Text
  /-- The `::` right after the name, or nothing. -/
  colons : Text
  rest : Text
  deriving Repr

/-- The mention as it is written. -/
def Mention.written (m : Mention) : Text := m.tag ++ m.name ++ m.colons

/-- A character that continues the name of a mention; `|` joins alternatives. -/
def isMentionChar (c : Char) : Bool := isWordChar c || c == '\\' || c == '|'

/-- One or more blanks. -/
def someBlanks (cs : Text) : Option (Text × Text) :=
  if nextIs isBlank cs then some (run isBlank cs) else none

/-- A separator that roots a name. -/
def rootMark : Text → Text × Text
  | '\\' :: rest => (['\\'], rest)
  | rest => ([], rest)

/-- The name of a mention: a capital and at least one character after it, with or without a leading
separator. -/
def mentionName (cs : Text) : Option (Text × Text) :=
  match (rootMark cs).2 with
  | c :: rest =>
    if c.isUpper && nextIs isMentionChar rest then
      some ((rootMark cs).1 ++ c :: (run isMentionChar rest).1, (run isMentionChar rest).2)
    else none
  | [] => none

/-- A fixed word at the front of the text. -/
def wordAt (word : Text) (cs : Text) : List (Text × Text) :=
  match after? word cs with
  | some rest => [(word, rest)]
  | none => []

/-- The tag `@var`, preferably with `array of` after it. -/
def varTag (cs : Text) : List (Text × Text) :=
  (wordAt "@var".toList cs).flatMap fun (word, rest) =>
    let longer := (someBlanks rest).bind fun (blanks, left) =>
      (after? "array of".toList left).map fun left =>
        (word ++ blanks ++ "array of".toList, left)
    longer.toList ++ [(word, rest)]

/-- The word `property` with whatever word characters and hyphens follow it. -/
def propertyTag (cs : Text) : List (Text × Text) :=
  (wordAt "property".toList cs).map fun (word, rest) =>
    let parts := run (fun c => isWordChar c || c == '-') rest
    (word ++ parts.1, parts.2)

/-- The tags that the text may begin with, in order of preference. -/
def tagsAt (exempt : List Text) (cs : Text) : List (Text × Text) :=
  varTag cs ++ wordAt "returns".toList cs ++ wordAt "return".toList cs ++
    wordAt "param".toList cs ++ wordAt "throws".toList cs ++ wordAt "@link".toList cs ++
    propertyTag cs ++ exempt.flatMap (wordAt · cs)

/-- A `::` at the front of the text. -/
def colonsAt : Text → Text × Text
  | ':' :: ':' :: rest => ([':', ':'], rest)
  | rest => ([], rest)

/-- A mention with the given tag, the text being what follows the tag. -/
def untagged (tag : Text) (cs : Text) : Option Mention :=
  (mentionName cs).map fun (name, rest) =>
    { tag, name, colons := (colonsAt rest).1, rest := (colonsAt rest).2 }

/-- The mention that the text begins with. -/
def mentionAt (exempt : List Text) (cs : Text) : Option Mention :=
  let tagged := (tagsAt exempt cs).findSome? fun (tag, left) =>
    (someBlanks left).bind fun (blanks, left) => untagged (tag ++ blanks) left
  tagged.or (untagged [] cs)

/-- The flat form of a name in prose; one that does not resolve stays as it is. -/
def proseName (o : ConvertOptions) (s : Scope) (name : Text) : Text :=
  match s.resolve? name with
  | some full => o.flatten full
  | none => name

/-- Alternatives with a small letter are classes; the others are constants such as `NULL`. -/
def flatAlternatives (o : ConvertOptions) (s : Scope) (name : Text) : Text :=
  join ['|'] ((splitOn '|' name).map fun part =>
    if part.any Char.isLower then proseName o s part else part)

/-- Whether a mention without a tag is the rest of a longer word, `last` being the character before
it. -/
def continuesWord : Option Char → Bool
  | some c => c.isAlphanum || c == '_'
  | none => true

/-- The text put for a mention, `last` being the character before it. -/
def Mention.flat (o : ConvertOptions) (s : Scope) (last : Option Char) (m : Mention) : Text :=
  if m.tag.isEmpty && continuesWord last then m.written
  else if o.exemptTags.any (startsWith m.tag) then m.written
  else if m.tag.isEmpty && m.colons.isEmpty && !m.name.contains '\\' then m.written
  else m.tag ++ flatAlternatives o s m.name ++ m.colons

/-! ## A mention is cut off the front of the text -/

section Cut

open List

variable {cs : Text} {parts : Text × Text} {m : Mention} {exempt : List Text}

theorem someBlanks_append (h : someBlanks cs = some parts) : parts.1 ++ parts.2 = cs := by
  unfold someBlanks at h
  split at h
  · cases h; exact run_append _ _
  · cases h

theorem rootMark_append (cs : Text) : (rootMark cs).1 ++ (rootMark cs).2 = cs := by
  unfold rootMark
  split <;> rfl

theorem mentionName_append (h : mentionName cs = some parts) :
    parts.1 ++ parts.2 = cs ∧ parts.1 ≠ [] := by
  have hroot := rootMark_append cs
  unfold mentionName at h
  split at h
  · next c rest hrest =>
    split at h
    · cases h
      refine ⟨?_, by simp⟩
      rw [append_assoc, cons_append, run_append, ← hrest, hroot]
    · cases h
  · cases h

theorem wordAt_append {word : Text} (h : parts ∈ wordAt word cs) : parts.1 ++ parts.2 = cs := by
  unfold wordAt at h
  split at h
  · next rest hrest =>
    cases mem_singleton.1 h
    exact (after?_eq_some hrest).symm
  · cases h

theorem tagsAt_append (h : parts ∈ tagsAt exempt cs) : parts.1 ++ parts.2 = cs := by
  have hvar : parts ∈ varTag cs → parts.1 ++ parts.2 = cs := by
    intro hvar
    obtain ⟨⟨word, rest⟩, hword, hparts⟩ := mem_flatMap.1 hvar
    have hcs : word ++ rest = cs := wordAt_append hword
    simp only [mem_append, Option.mem_toList, mem_singleton] at hparts
    -- with `array of` behind the tag, or without
    rcases hparts with hlong | rfl
    · obtain ⟨⟨blanks, left⟩, hblanks, hlong⟩ := Option.bind_eq_some_iff.1 hlong
      obtain ⟨after, hafter, rfl⟩ := Option.map_eq_some_iff.1 hlong
      have hrest : blanks ++ left = rest := someBlanks_append hblanks
      have hleft : left = "array of".toList ++ after := after?_eq_some hafter
      simp only [append_assoc]
      rw [← hleft, hrest, hcs]
    · exact hcs
  have hproperty : parts ∈ propertyTag cs → parts.1 ++ parts.2 = cs := by
    intro hproperty
    obtain ⟨⟨word, rest⟩, hword, rfl⟩ := mem_map.1 hproperty
    have hcs : word ++ rest = cs := wordAt_append hword
    simp only [append_assoc]
    rw [run_append, hcs]
  unfold tagsAt at h
  simp only [mem_append, mem_flatMap] at h
  obtain ((((((h | h) | h) | h) | h) | h) | h) | ⟨_, _, h⟩ := h
  · exact hvar h
  · exact wordAt_append h
  · exact wordAt_append h
  · exact wordAt_append h
  · exact wordAt_append h
  · exact wordAt_append h
  · exact hproperty h
  · exact wordAt_append h

theorem untagged_append {tag : Text} (h : untagged tag cs = some m) :
    m.written ++ m.rest = tag ++ cs ∧ ∃ rest, mentionName cs = some (m.name, rest) := by
  obtain ⟨⟨name, rest⟩, hname, rfl⟩ := Option.map_eq_some_iff.1 h
  have hcolons : (colonsAt rest).1 ++ (colonsAt rest).2 = rest := by
    unfold colonsAt
    split <;> rfl
  refine ⟨?_, rest, hname⟩
  simp only [Mention.written, append_assoc]
  rw [hcolons, (mentionName_append hname).1]

/-- A mention stands at the front of the text, and its name is the one read behind its tag. -/
theorem mentionAt_append (h : mentionAt exempt cs = some m) :
    m.written ++ m.rest = cs ∧ ∃ left rest, mentionName left = some (m.name, rest) := by
  unfold mentionAt at h
  rcases Option.or_eq_some_iff.1 h with htagged | ⟨_, hplain⟩
  · obtain ⟨⟨tag, left⟩, htag, hfound⟩ := exists_of_findSome?_eq_some htagged
    obtain ⟨⟨blanks, after⟩, hblanks, huntagged⟩ := Option.bind_eq_some_iff.1 hfound
    have hcs : tag ++ left = cs := tagsAt_append htag
    have hleft : blanks ++ after = left := someBlanks_append hblanks
    obtain ⟨hwritten, hname⟩ := untagged_append huntagged
    refine ⟨?_, after, hname⟩
    rw [hwritten, append_assoc, hleft, hcs]
  · obtain ⟨hwritten, hname⟩ := untagged_append hplain
    exact ⟨hwritten, cs, hname⟩

theorem length_mentionAt (h : mentionAt exempt cs = some m) : m.rest.length < cs.length := by
  obtain ⟨happend, left, rest, hname⟩ := mentionAt_append h
  have hne : 0 < m.name.length := length_pos_iff.2 (mentionName_append hname).2
  rw [← happend]
  simp only [Mention.written, length_append]
  omega

end Cut

/-- Puts flat names into the text of a comment, `last` being the character before it. -/
def proseFrom (o : ConvertOptions) (s : Scope) (last : Option Char) (cs : Text) : Text :=
  match _h : mentionAt o.exemptTags cs with
  | some m => m.flat o s last ++ proseFrom o s m.written.getLast? m.rest
  | none =>
    match cs with
    | [] => []
    | c :: rest => c :: proseFrom o s (some c) rest
termination_by cs.length
decreasing_by
  · exact length_mentionAt (by assumption)
  · simp

/-- Puts flat names into a comment (`rewrite_comment`). -/
def prose (o : ConvertOptions) (s : Scope) (comment : Text) : Text := proseFrom o s none comment

end LegacyPhp.Qualify
