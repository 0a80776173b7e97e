/-!
# Text as a list of characters

Every scan of the library is a recursion on a list of characters, so texts are such lists and not
packed strings. Offsets that a reader of the output sees count the bytes of the UTF-8 form, and
`byteLength` is that measure. The functions below are the handful of list operations the rest of the
library shares: cutting a known beginning off, finding a first occurrence, replacing every
occurrence, splitting at a character, and comparing without regard to the case of ASCII letters.
-/

namespace LegacyPhp

variable {cs needle a b : Text}

/-- Text is a list of characters. -/
abbrev Text := List Char

namespace Text

/-- The number of bytes of the UTF-8 form. -/
def byteLength : Text → Nat
  | [] => 0
  | c :: cs => c.utf8Size + byteLength cs

@[simp] theorem byteLength_nil : byteLength [] = 0 := rfl

@[simp] theorem byteLength_cons (c : Char) (cs : Text) :
    byteLength (c :: cs) = c.utf8Size + byteLength cs := rfl

@[simp] theorem byteLength_append (a b : Text) :
    byteLength (a ++ b) = byteLength a + byteLength b := by
  induction a with
  | nil => simp
  | cons c cs ih => simp [ih, Nat.add_assoc]

/-- The text cut at a byte position; `none` when the position lies inside a character or past the
end. -/
def splitBytes? : Nat → Text → Option (Text × Text)
  | 0, cs => some ([], cs)
  | _ + 1, [] => none
  | n + 1, c :: cs =>
    if c.utf8Size ≤ n + 1 then
      (splitBytes? (n + 1 - c.utf8Size) cs).map fun (a, b) => (c :: a, b)
    else none

theorem splitBytes?_append {n : Nat} {parts : Text × Text} (h : splitBytes? n cs = some parts) :
    parts.1 ++ parts.2 = cs := by
  fun_induction splitBytes? n cs generalizing parts with
  | case1 cs => cases h; rfl
  | case2 => cases h
  | case3 n c cs _ ih =>
    obtain ⟨p, hp, rfl⟩ := Option.map_eq_some_iff.1 h
    simp [ih hp]
  | case4 => cases h

/-- The shortest beginning that holds at least the given number of bytes (the whole text if it is
shorter). -/
def takeBytesUp : Nat → Text → Text
  | 0, _ => []
  | _ + 1, [] => []
  | n + 1, c :: cs => c :: takeBytesUp (n + 1 - c.utf8Size) cs

/-- What is left after the longest beginning that holds at most the given number of bytes. -/
def dropBytesDown (n : Nat) : Text → Text
  | [] => []
  | c :: cs => if c.utf8Size ≤ n then dropBytesDown (n - c.utf8Size) cs else c :: cs

/-- What follows `start` in a text that begins with it. -/
def after? : (start : Text) → Text → Option Text
  | [], cs => some cs
  | _ :: _, [] => none
  | p :: ps, c :: cs => if p = c then after? ps cs else none

theorem after?_eq_some {start rest : Text} (h : after? start cs = some rest) :
    cs = start ++ rest := by
  induction start generalizing cs with
  | nil => simp only [after?, Option.some.injEq] at h; simp [h]
  | cons p ps ih =>
    cases cs with
    | nil => simp [after?] at h
    | cons c cs =>
      simp only [after?] at h
      split at h
      · next hpc => rw [hpc, ih h]; rfl
      · simp at h

/-- Whether the text begins with `start`. -/
def startsWith (cs start : Text) : Bool := (after? start cs).isSome

/-- The parts around the first occurrence of `needle`. -/
def breakOn? (needle : Text) : Text → Option (Text × Text)
  | [] => if needle.isEmpty then some ([], []) else none
  | c :: cs =>
    match after? needle (c :: cs) with
    | some rest => some ([], rest)
    | none => (breakOn? needle cs).map fun (a, b) => (c :: a, b)

/-- Whether `needle` occurs somewhere in the text. -/
def hasInfix (cs needle : Text) : Bool := (breakOn? needle cs).isSome

/-- An occurrence that is not at the front is looked for behind the first character. -/
theorem breakOn?_cons {c : Char} (h : after? needle (c :: cs) = none) :
    breakOn? needle (c :: cs) = (breakOn? needle cs).map fun (a, b) => (c :: a, b) := by
  simp only [breakOn?, h]

theorem breakOn?_eq_some (h : breakOn? needle cs = some (a, b)) : cs = a ++ needle ++ b := by
  induction cs generalizing a with
  | nil =>
    simp only [breakOn?] at h
    split at h
    · next hn => simp_all
    · simp at h
  | cons c cs ih =>
    simp only [breakOn?] at h
    split at h
    · next rest hr =>
      obtain ⟨rfl, rfl⟩ := by simpa using h
      simpa using after?_eq_some hr
    · obtain ⟨⟨x, y⟩, hxy, he⟩ := Option.map_eq_some_iff.1 h
      obtain ⟨rfl, rfl⟩ := by simpa using he
      simp [ih hxy]

/-- What follows an occurrence of a non-empty text is shorter than the whole. -/
theorem length_of_breakOn? (hn : needle ≠ []) (h : breakOn? needle cs = some (a, b)) :
    b.length < cs.length := by
  have hl : 0 < needle.length := List.length_pos_iff.2 hn
  rw [breakOn?_eq_some h]
  simp only [List.length_append]
  omega

/-- Every occurrence of the non-empty text `c :: needle`, taken from the left without overlap. -/
def replaceOccurrences (c : Char) (needle new : Text) (cs : Text) : Text :=
  match _h : breakOn? (c :: needle) cs with
  | none => cs
  | some (a, b) => a ++ new ++ replaceOccurrences c needle new b
termination_by cs.length
decreasing_by exact length_of_breakOn? (List.cons_ne_nil c needle) (by assumption)

/-- Puts `new` for every occurrence of `old`. The empty text occurs before every character and at
the end. -/
def replaceAll (old new : Text) (cs : Text) : Text :=
  match old with
  | [] => cs.flatMap (fun c => new ++ [c]) ++ new
  | c :: needle => replaceOccurrences c needle new cs

/-- The stretches between the occurrences of a character; never empty. -/
def splitOn (sep : Char) : Text → List Text
  | [] => [[]]
  | c :: cs =>
    if c = sep then [] :: splitOn sep cs
    else
      match splitOn sep cs with
      | [] => [[c]]
      | part :: parts => (c :: part) :: parts

/-- Parts written one after the other with `sep` between them. -/
def join (sep : Text) (parts : List Text) : Text := sep.intercalate parts

/-- ASCII letters in lower case, all else as it is. -/
def lower (cs : Text) : Text := cs.map Char.toLower

/-- Equality that disregards the case of ASCII letters. -/
def sameWord (a b : Text) : Bool := lower a == lower b

/-- Drops the characters of a class at the end. -/
def dropEndWhile (p : Char → Bool) (cs : Text) : Text := (cs.reverse.dropWhile p).reverse

/-- Drops every leading occurrence of a character. -/
def dropLeading (c : Char) (cs : Text) : Text := cs.dropWhile (· == c)

/-- Drops every leading and every trailing occurrence of a character. -/
def dropAround (c : Char) (cs : Text) : Text := dropEndWhile (· == c) (dropLeading c cs)

/-- Lexicographic order by code point, which is also the order of the UTF-8 bytes. -/
def compare : Text → Text → Ordering
  | [], [] => .eq
  | [], _ :: _ => .lt
  | _ :: _, [] => .gt
  | a :: as, b :: bs => (Ord.compare a.toNat b.toNat).then (compare as bs)

/-- A natural number in decimal digits. -/
def ofNat (n : Nat) : Text := Nat.toDigits 10 n

end Text

end LegacyPhp
