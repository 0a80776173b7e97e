import LegacyPhp.Failure
import LegacyPhp.Qualify.Literal
import LegacyPhp.Token.Stream

/-!
# Qualification

The pass that takes a unit out of its namespaces. It drops `namespace` and `use` declarations and
keeps what they say in a `Scope`, and it puts the flat name for every class name in a place where a
class is meant: after `class`, `interface`, `extends`, `implements`, `new` and `instanceof`, before
`::` and before a variable, with `&` between them only where a parameter starts. Comments and string
literals are treated as `Prose` and `Literal` say. Everything else is copied.

`step` handles the next token and whatever it takes with it, `run` repeats it to the end.
-/

namespace LegacyPhp.Qualify

open Text

/-- The unit that is being qualified. -/
structure Source where
  path : Path
  text : Text
  options : ConvertOptions

/-- What the pass carries from token to token. -/
structure State where
  scope : Scope := {}
  /-- Between the keyword `interface` and the body. -/
  inInterfaceHeader : Bool := false
  /-- The last character written that is not blank. -/
  lastInk : Option Char := none

/-- The state after `text` has been written. -/
def State.wrote (s : State) (text : Text) : State :=
  { s with lastInk := (text.reverse.find? (!isBlank ·)).or s.lastInk }

/-- The flat form of a class name in code, found at the token `place` (`replace_class`). -/
def className (u : Source) (s : Scope) (place : Token) (name : Text) : Except Failure Text :=
  match s.resolve? name with
  | some full => .ok (u.options.flatten full)
  | none =>
    .error (.resolution u.path name (.emptySegmentNear (excerpt u.text place.offset)))

/-- The alias that `as` introduces, if there is one. -/
def importAlias (ts : List Token) : Option Text × List Token :=
  match Stream.fetch (·.isKeyword .asKw) ts with
  | none => (none, ts)
  | some (_, rest) =>
    match Stream.fetch (·.kind == .identifier) rest with
    | none => (none, rest)
    | some (name, rest) => (some name.text, rest)

open LegacyPhp.Stream List in
theorem suffix_importAlias (ts : List Token) : (importAlias ts).2 <:+ ts := by
  unfold importAlias
  split
  · exact suffix_refl _
  · next has =>
    split
    · exact suffix_fetch has
    · next hname => exact (suffix_fetch hname).trans (suffix_fetch has)

/-- The imports of one `use` declaration, separated by commas. -/
def imports (s : Scope) (ts : List Token) : Scope × List Token :=
  let name := Stream.name ts
  let short := importAlias name.2
  let scope := if name.1.isEmpty then s else s.addImport name.1 short.1
  match _h : Stream.fetch (·.isPunct ",") short.2 with
  | some (_, rest) => imports scope rest
  | none => (scope, short.2)
termination_by ts.length
decreasing_by
  exact Nat.lt_of_lt_of_le (Stream.length_fetch (by assumption))
    ((suffix_importAlias _).trans (Stream.suffix_gather _ ts)).length_le

open LegacyPhp.Stream in
theorem suffix_imports (s : Scope) (ts : List Token) : (imports s ts).2 <:+ ts := by
  have hshort : ∀ ts, (importAlias (Stream.name ts).2).2 <:+ ts := fun ts =>
    (suffix_importAlias _).trans (suffix_gather _ ts)
  fun_induction imports s ts with
  | case1 s ts name short scope _ rest h ih =>
    exact ih.trans ((suffix_fetch h).trans (hshort ts))
  | case2 s ts name short scope h => exact hshort ts

/-- Text and what follows it. -/
structure Piece where
  text : Text
  rest : List Token

/-- The class name after `head` with the white space before it, and, in a list, those after commas.
Comments in between are dropped. -/
def classNames (u : Source) (s : Scope) (list : Bool) (head : Token) (ts : List Token) :
    Except Failure Piece :=
  let space := Stream.gather (·.kind == .whitespace) ts
  let name := Stream.name space.2
  match className u s head name.1 with
  | .error e => .error e
  | .ok flat =>
    let text := head.text ++ serialize space.1 ++ flat
    match _h : if list then Stream.fetch (·.isPunct ",") name.2 else none with
    | none => .ok ⟨text, name.2⟩
    | some (comma, rest) =>
      (classNames u s list comma rest).map fun more => ⟨text ++ more.text, more.rest⟩
termination_by ts.length
decreasing_by
  split at _h
  · exact Nat.lt_of_lt_of_le (Stream.length_fetch (by assumption))
      ((Stream.suffix_gather _ _).trans (Stream.suffix_gather _ ts)).length_le
  · cases _h

open LegacyPhp.Stream in
theorem suffix_classNames {u : Source} {s : Scope} {list : Bool} {head : Token} {ts : List Token}
    {p : Piece} (h : classNames u s list head ts = .ok p) : p.rest <:+ ts := by
  have hname : ∀ ts, (Stream.name (gather (·.kind == .whitespace) ts).2).2 <:+ ts :=
    fun ts => (suffix_gather _ _).trans (suffix_gather _ ts)
  fun_induction classNames u s list head ts generalizing p with
  | case1 => cases h
  | case2 head ts space name flat text => cases h; exact hname ts
  | case3 =>
    rename_i head ts space name flat _ text comma rest hfetch ih
    cases hmore : classNames u s list comma rest with
    | error e => rw [hmore] at h; cases h
    | ok more =>
      rw [hmore] at h
      cases h
      split at hfetch
      · exact (ih hmore).trans ((suffix_fetch hfetch).trans (hname ts))
      · cases hfetch

/-- The keywords that a class name follows. -/
def isClassContext : TokenKind → Bool
  | .keyword .instanceOfKw | .keyword .extendsKw | .keyword .implementsKw | .keyword .newKw
  | .keyword .classKw | .keyword .interfaceKw => true
  | _ => false

/-- Whether `&` and a variable that touches it follow, right where a parameter starts. -/
def isByRefParam (lastInk : Option Char) (ts : List Token) : Bool :=
  (lastInk == some '(' || lastInk == some ',') &&
    match Stream.fetch (·.isPunct "&") ts with
    | some (_, v :: _) => v.kind == .variable
    | _ => false

/-- What a token and the tokens it takes with it turn into. -/
structure Step where
  text : Text
  state : State
  rest : List Token

/-- Leaves a namespace behind and enters the declared one. A braced declaration keeps its brace. -/
def enterNamespace (s : State) (ts : List Token) : Step :=
  let name := Stream.name ts
  let state := { s with scope := s.scope.enter name.1 }
  match Stream.fetch (fun t => t.isPunct ";" || t.isPunct "\x7b") name.2 with
  | some (mark, rest) => ⟨if mark.isPunct "\x7b" then ['{'] else [], state, rest⟩
  | none => ⟨[], state, name.2⟩

/-- A name that no class keyword precedes. -/
def nameStep (u : Source) (s : State) (t : Token) (ts : List Token) : Except Failure Step :=
  let more := Stream.name ts
  let name := t.text ++ more.1
  if Stream.isNext (fun n => n.isPunct "::" || n.kind == .variable) more.2 ||
      isByRefParam s.lastInk more.2 then
    (className u s.scope t name).map fun flat => ⟨flat, s, more.2⟩
  else .ok ⟨name, s, more.2⟩

/-- The effect of the token `t` with `rest` after it. -/
def step (u : Source) (s : State) (t : Token) (rest : List Token) : Except Failure Step :=
  let s := if t.isPunct "\x7b" then { s with inInterfaceHeader := false } else s
  if t.isKeyword .namespaceKw then .ok (enterNamespace s rest)
  else if t.isKeyword .useKw then
    if Stream.isNext (·.isPunct "(") rest then .ok ⟨t.text, s, rest⟩
    else
      let found := imports s.scope rest
      .ok ⟨[], { s with scope := found.1 }, Stream.dropIf (·.isPunct ";") found.2⟩
  else if isClassContext t.kind then
    let s := if t.isKeyword .interfaceKw then { s with inInterfaceHeader := true } else s
    let list := t.isKeyword .implementsKw || (s.inInterfaceHeader && t.isKeyword .extendsKw)
    (classNames u s.scope list t rest).map fun p => ⟨p.text, s, p.rest⟩
  else if t.isNamePart then nameStep u s t rest
  else if t.kind == .comment || t.kind == .docComment then
    .ok ⟨prose u.options s.scope t.text, s, rest⟩
  else if t.kind == .stringLiteral then .ok ⟨literal u.options s.scope t.text, s, rest⟩
  else .ok ⟨t.text, s, rest⟩

section

open LegacyPhp.Stream List

variable {u : Source} {s : State} {t : Token} {ts : List Token} {r : Step}

theorem suffix_enterNamespace (s : State) (ts : List Token) :
    (enterNamespace s ts).rest <:+ ts := by
  unfold enterNamespace
  simp only
  split
  · next h => exact (suffix_fetch h).trans (suffix_gather _ ts)
  · exact suffix_gather _ ts

theorem suffix_nameStep (h : nameStep u s t ts = .ok r) : r.rest <:+ ts := by
  unfold nameStep at h
  simp only at h
  split at h
  · cases hname : className u s.scope t (t.text ++ (Stream.name ts).1) with
    | error e => rw [hname] at h; cases h
    | ok flat => rw [hname] at h; cases h; exact suffix_gather _ ts
  · cases h; exact suffix_gather _ ts

theorem suffix_step (h : step u s t ts = .ok r) : r.rest <:+ ts := by
  unfold step at h
  simp only at h
  generalize (if t.isPunct "\x7b" then { s with inInterfaceHeader := false } else s : State) = s
    at h
  split at h
  · cases h; exact suffix_enterNamespace _ _
  split at h
  · split at h
    · cases h; exact suffix_refl _
    · cases h; exact (suffix_dropIf _ _).trans (suffix_imports _ _)
  split at h
  · generalize
      (if t.isKeyword .interfaceKw then { s with inInterfaceHeader := true } else s : State) = s
      at h
    cases hp : classNames u s.scope
        (t.isKeyword .implementsKw || (s.inInterfaceHeader && t.isKeyword .extendsKw)) t ts with
    | error e => rw [hp] at h; cases h
    | ok p => rw [hp] at h; cases h; exact suffix_classNames hp
  split at h
  · exact suffix_nameStep h
  split at h
  · cases h; exact suffix_refl _
  split at h
  · cases h; exact suffix_refl _
  · cases h; exact suffix_refl _

end

/-- The text of the tokens after qualification, and the scope at their end. -/
def run (u : Source) (s : State) (ts : List Token) : Except Failure (Text × Scope) :=
  match ts with
  | [] => .ok ([], s.scope)
  | t :: rest =>
    match _h : step u s t rest with
    | .error e => .error e
    | .ok r =>
      (run u (r.state.wrote r.text) r.rest).map fun (more, scope) => (r.text ++ more, scope)
termination_by ts.length
decreasing_by exact Nat.lt_succ_of_le (suffix_step (by assumption)).length_le

/-- A unit without namespaces. -/
structure Flat where
  text : Text
  /-- The namespace in effect at the end of the unit. -/
  lastNamespace : Text
  deriving DecidableEq, Repr

end LegacyPhp.Qualify

namespace LegacyPhp

/-- Takes a unit out of its namespaces. -/
def qualify (o : ConvertOptions) (path : Path) (source : Text) : Except Failure Qualify.Flat := do
  let tokens ← lexemesOf path source
  let (text, scope) ← Qualify.run ⟨path, source, o⟩ {} tokens
  return ⟨text, scope.current⟩

end LegacyPhp
