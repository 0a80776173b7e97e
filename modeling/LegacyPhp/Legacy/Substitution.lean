import LegacyPhp.Failure
import LegacyPhp.Token.Stream

/-!
# Substitutions

Constructs that the legacy target lacks, with the closest it has: the directory constant, the level
of deprecation notices, the called class and late static binding.
-/

namespace LegacyPhp.Legacy

open Text

/-- What follows an empty argument list. -/
def afterNoArguments? (ts : List Token) : Option (List Token) :=
  match Stream.fetch (·.isPunct "(") ts with
  | some (_, rest) => (Stream.fetch (·.isPunct ")") rest).map (·.2)
  | none => none

theorem length_afterNoArguments? {ts rest : List Token} (h : afterNoArguments? ts = some rest) :
    rest.length < ts.length := by
  unfold afterNoArguments? at h
  split at h
  · next hopen =>
    obtain ⟨⟨_, _⟩, hclose, rfl⟩ := Option.map_eq_some_iff.1 h
    exact Nat.lt_trans (Stream.length_fetch hclose) (Stream.length_fetch hopen)
  · cases h

/-- The word put for an identifier. -/
def identifierFor (word : Text) : Text :=
  if sameWord word "__DIR__".toList then "dirname(__FILE__)".toList
  else if word == "E_USER_DEPRECATED".toList then "E_USER_WARNING".toList
  else word

/-- A call of the function that gives the called class, up to its argument list. -/
def isCalledClass (t : Token) : Bool :=
  t.kind == .identifier && sameWord t.text "get_called_class".toList

/-- The text put for a token, `afterNew` saying whether the token before it is `new`. -/
def substituteFor (afterNew : Bool) (t : Token) (rest : List Token) : Text :=
  if t.kind == .identifier then identifierFor t.text
  else if t.isKeyword .staticKw && (Stream.isNext (·.isPunct "::") rest || afterNew) then
    "self".toList
  else t.text

/-- The text of the tokens after substitution. `afterNew` says whether the last token that is not
trivia is `new`. -/
def substitute (afterNew : Bool) (ts : List Token) : Text :=
  match ts with
  | [] => []
  | t :: rest =>
    match _h : if isCalledClass t then afterNoArguments? rest else none with
    | some left => "__CLASS__".toList ++ substitute false left
    | none =>
      substituteFor afterNew t rest ++
        substitute (if t.isTrivia then afterNew else t.isKeyword .newKw) rest
termination_by ts.length
decreasing_by
  · split at _h
    · exact Nat.lt_succ_of_lt (length_afterNoArguments? _h)
    · cases _h
  · exact Nat.lt_succ_self _

/-- Replaces constructs that the legacy target lacks (`substitute_legacy_constructs`). -/
def substituteConstructs (path : Path) (source : Text) : Except Failure Text :=
  (lexemesOf path source).map (substitute false)

end LegacyPhp.Legacy
