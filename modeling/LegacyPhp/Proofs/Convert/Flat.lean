import LegacyPhp.Proofs.Convert.Literals
import LegacyPhp.Proofs.Convert.Mentions
import LegacyPhp.Qualify.Basic

/-!
# Units that qualification leaves alone

`FlatUnit` is the grammar of units outside all namespaces whose class names are flat: no
`namespace`, no `use` but that of a closure, no separator in a name that means a class, nothing
between the parts of a name that would be left out, and comments and literals without names to
flatten.

`run_of_flat` says that such a unit is copied. That any other unit moves forward in the order of
`Drift` is the subject of `Flattening`.
-/

namespace LegacyPhp.Qualify

open Text Scan Drift List LegacyPhp.Stream

variable {s : State} {rest : List Token} {t : Token} {u : Source}

/-! ## The grammar -/

/-- The state in which a token is handled: an interface header starts at its keyword and ends at a
brace. -/
def State.entering (s : State) (t : Token) : State :=
  if t.isPunct "\x7b" then { s with inInterfaceHeader := false }
  else if t.isKeyword .interfaceKw then { s with inInterfaceHeader := true }
  else s

/-- Whether several class names may follow a keyword. -/
def takesList (s : State) (t : Token) : Bool :=
  t.isKeyword .implementsKw || (s.inInterfaceHeader && t.isKeyword .extendsKw)

/-- Whether a name that no class keyword precedes means a class, `rest` being what follows it. -/
def meansClass (lastInk : Option Char) (rest : List Token) : Bool :=
  isNext (fun n => n.isPunct "::" || n.kind == .variable) rest || isByRefParam lastInk rest

/-- The tokens are what comes next of their sort in front of `rest`, and nothing stands between
them. -/
def Together (p : Token → Bool) (taken rest : List Token) : Prop :=
  gather p (taken ++ rest) = (taken, rest)

/-- White space and a class name without separators, and, in a list, more of them after commas. The
second list is what follows. -/
inductive FlatNames (list : Bool) : List Token → List Token → Prop where
  | one {space name rest : List Token}
      (hspace : Together (·.kind == .whitespace) space (name ++ rest))
      (hname : Together Token.isNamePart name rest) (hflat : '\\' ∉ serialize name)
      (hlast : list → fetch (·.isPunct ",") rest = none) :
      FlatNames list (space ++ name) rest
  | more {space name used rest : List Token} {comma : Token} (hlist : list)
      (hspace : Together (·.kind == .whitespace) space (name ++ comma :: (used ++ rest)))
      (hname : Together Token.isNamePart name (comma :: (used ++ rest)))
      (hflat : '\\' ∉ serialize name) (hcomma : comma.isPunct ",")
      (hmore : FlatNames list used rest) : FlatNames list (space ++ name ++ comma :: used) rest

/-- A string literal in which no full name starts anywhere. -/
def FlatLiteral (o : ConvertOptions) (text : Text) : Prop :=
  ∀ rest, rest <:+ text → fullNameAt o.protectedRoots (!nextIs (· == '\'') text) rest = none

/-- Tokens that qualification copies, from a state outside all namespaces. -/
inductive FlatUnit (o : ConvertOptions) : State → List Token → Prop where
  | nil {s : State} : FlatUnit o s []
  /-- A token that is neither a name nor in front of one. -/
  | copy {s : State} {t : Token} {rest : List Token} (hnamespace : t.isKeyword .namespaceKw = false)
      (huse : t.isKeyword .useKw → isNext (·.isPunct "(") rest)
      (hcontext : isClassContext t.kind = false) (hname : t.isNamePart = false)
      (hcomment : t.kind = .comment ∨ t.kind = .docComment → FlatProse o none t.text)
      (hliteral : t.kind = .stringLiteral → FlatLiteral o t.text)
      (hrest : FlatUnit o ((s.entering t).wrote t.text) rest) : FlatUnit o s (t :: rest)
  /-- A keyword with the class names after it. -/
  | reference {s : State} {t : Token} {used rest : List Token}
      (hcontext : isClassContext t.kind)
      (hnames : FlatNames (takesList (s.entering t) t) used rest)
      (hrest : FlatUnit o ((s.entering t).wrote (serialize (t :: used))) rest) :
      FlatUnit o s (t :: (used ++ rest))
  /-- Any other name. -/
  | name {s : State} {t : Token} {more rest : List Token} (hname : t.isNamePart)
      (hmore : Together Token.isNamePart more rest)
      (hflat : meansClass s.lastInk rest → '\\' ∉ serialize (t :: more))
      (hrest : FlatUnit o (s.wrote (serialize (t :: more))) rest) :
      FlatUnit o s (t :: (more ++ rest))

/-! ## A flat unit is copied -/

theorem className_of_not_mem (u : Source) (place : Token) {name : Text} (h : '\\' ∉ name) :
    className u {} place name = .ok name := by
  simp only [className, Scope.resolve?_empty h, flatten_of_not_mem u.options h]

theorem classNames_eq (u : Source) (s : Scope) (list : Bool) (head : Token) (ts : List Token) :
    classNames u s list head ts =
      match className u s head
        (Stream.name (gather (·.kind == .whitespace) ts).2).1 with
      | .error e => .error e
      | .ok flat =>
        let text := head.text ++ serialize (gather (·.kind == .whitespace) ts).1 ++ flat
        let rest := (Stream.name (gather (·.kind == .whitespace) ts).2).2
        match if list then fetch (·.isPunct ",") rest else none with
        | none => .ok ⟨text, rest⟩
        | some (comma, rest) =>
          (classNames u s list comma rest).map fun more => ⟨text ++ more.text, more.rest⟩ := by
  rw [classNames]
  cases className u s head (Stream.name (gather (·.kind == .whitespace) ts).2).1 with
  | error e => rfl
  | ok flat =>
    simp only
    split
    · next hnone => simp only [hnone]
    · next hsome => simp only [hsome]

theorem classNames_of_flat (u : Source) {list : Bool} {used : List Token}
    (h : FlatNames list used rest) (head : Token) :
    classNames u {} list head (used ++ rest) = .ok ⟨head.text ++ serialize used, rest⟩ := by
  induction h generalizing head with
  | @one space name rest hspace hname hflat hlast =>
    have hnone : (if list then fetch (·.isPunct ",") rest else none) = none := by
      split
      · next hlist => exact hlast hlist
      · rfl
    unfold Together at hspace hname
    rw [classNames_eq, append_assoc]
    simp only [Stream.name, hspace, hname, className_of_not_mem u head hflat, hnone,
      serialize_append, append_assoc]
  | @more space name used rest comma hlist hspace hname hflat hcomma hmore ih =>
    have hfetch : (if list then fetch (·.isPunct ",") (comma :: (used ++ rest)) else none) =
        some (comma, used ++ rest) := by
      -- a comma is no trivia, so it is the token that is fetched
      have htrivia : comma.isTrivia = false := by
        simp only [Token.isPunct, Bool.and_eq_true, beq_iff_eq] at hcomma
        simp [Token.isTrivia, hcomma.1, TokenKind.isTrivia]
      simp [hlist, fetch, fetchBy, htrivia, hcomma]
    unfold Together at hspace hname
    rw [classNames_eq]
    simp only [append_assoc, cons_append]
    simp only [Stream.name, hspace, hname, className_of_not_mem u head hflat, hfetch, ih,
      serialize_append, serialize_cons]
    rfl

theorem run_cons {r : Step} (h : step u s t rest = .ok r) : run u s (t :: rest) =
      (run u (r.state.wrote r.text) r.rest).map fun (more, scope) => (r.text ++ more, scope) := by
  rw [run]
  split
  · next hstep => rw [h] at hstep; cases hstep
  · next hstep => rw [h] at hstep; cases hstep; rfl

theorem State.entering_scope (s : State) (t : Token) : (s.entering t).scope = s.scope := by
  unfold State.entering
  split
  · rfl
  · split <;> rfl

theorem State.entering_eq (hbrace : t.isPunct "\x7b" = false)
    (hkeyword : t.isKeyword .interfaceKw = false) : s.entering t = s := by
  simp [State.entering, hbrace, hkeyword]

theorem State.entering_header (s : State) (t : Token) : (s.entering t).inInterfaceHeader =
      (!t.isPunct "\x7b" && (s.inInterfaceHeader || t.isKeyword .interfaceKw)) := by
  unfold State.entering
  cases t.isPunct "\x7b" with
  | true => rfl
  | false => cases hkey : t.isKeyword .interfaceKw <;> simp

theorem State.entering_trivia (s : State) (ht : t.isTrivia) : s.entering t = s := by
  refine State.entering_eq (Bool.eq_false_iff.2 fun hbrace => ?_)
    (Bool.eq_false_iff.2 fun hkey => ?_)
  · rw [Token.not_isTrivia_of_isPunct hbrace] at ht
    cases ht
  · rw [Token.isTrivia, eq_of_beq hkey] at ht
    cases ht

/-- What is written for a token that is no name and in front of none. -/
def copied (o : ConvertOptions) (s : Scope) (t : Token) : Text :=
  if t.kind == .comment || t.kind == .docComment then prose o s t.text
  else if t.kind == .stringLiteral then literal o s t.text
  else t.text

theorem isKeyword_of_isClassContext (h : isClassContext t.kind) :
    t.isKeyword .namespaceKw = false ∧ t.isKeyword .useKw = false := by
  unfold isClassContext at h
  split at h <;> simp_all [Token.isKeyword]

theorem isKeyword_of_isNamePart (h : t.isNamePart) (word : Keyword) :
    t.isKeyword word = false ∧ isClassContext t.kind = false := by
  simp only [Token.isNamePart, Token.isPunct, Bool.or_eq_true, Bool.and_eq_true, beq_iff_eq] at h
  rcases h with hkind | ⟨hkind, _⟩ <;> simp [Token.isKeyword, hkind, isClassContext]

/-- The step at a token, by what the token is. -/
theorem step_eq (u : Source) (s : State) (t : Token) (rest : List Token) : step u s t rest =
      if t.isKeyword .namespaceKw then .ok (enterNamespace s rest)
      else if t.isKeyword .useKw && !Stream.isNext (·.isPunct "(") rest then
        .ok ⟨[], { s with scope := (imports s.scope rest).1 },
          dropIf (·.isPunct ";") (imports s.scope rest).2⟩
      else if isClassContext t.kind then
        (classNames u s.scope (takesList (s.entering t) t) t rest).map fun p =>
          ⟨p.text, s.entering t, p.rest⟩
      else if t.isNamePart then nameStep u s t rest
      else .ok ⟨copied u.options s.scope t, s.entering t, rest⟩ := by
  by_cases hbrace : t.isPunct "\x7b"
  · -- a brace is copied, and ends the header of an interface
    have hbrace' := hbrace
    simp only [Token.isPunct, Bool.and_eq_true, beq_iff_eq] at hbrace'
    obtain ⟨hkind, htext⟩ := hbrace'
    have hname : t.isNamePart = false := by
      simp [Token.isNamePart, Token.isPunct, hkind, htext]
    simp [step, copied, Token.isKeyword, hkind, isClassContext, hname, State.entering, hbrace]
  · rw [Bool.not_eq_true] at hbrace
    simp only [step, hbrace, Bool.false_eq_true, if_false]
    by_cases hnamespace : t.isKeyword .namespaceKw
    · simp only [hnamespace, if_true]
    by_cases huse : t.isKeyword .useKw
    · -- the `use` of a closure falls through all tests and is copied
      have hkind : t.kind = .keyword .useKw := by simpa [Token.isKeyword] using huse
      have hname : t.isNamePart = false := by simp [Token.isNamePart, Token.isPunct, hkind]
      have hsame : s.entering t = s := State.entering_eq hbrace (by simp [Token.isKeyword, hkind])
      cases hparen : isNext (·.isPunct "(") rest with
      | false => simp [hnamespace, huse]
      | true => simp [hnamespace, huse, hkind, isClassContext, hname, copied, hsame]
    by_cases hcontext : isClassContext t.kind
    · cases hinterface : t.isKeyword .interfaceKw <;>
        simp [hnamespace, huse, hcontext, State.entering, hbrace, takesList, hinterface]
    by_cases hname : t.isNamePart
    · simp [hnamespace, huse, hcontext, hname]
    · -- `interface` is followed by a class name, so this is another token
      have hinterface : t.isKeyword .interfaceKw = false := by
        cases hkey : t.isKeyword .interfaceKw with
        | false => rfl
        | true =>
          have hkind : t.kind = .keyword .interfaceKw := by simpa [Token.isKeyword] using hkey
          rw [hkind] at hcontext
          exact absurd rfl hcontext
      simp only [hnamespace, huse, hcontext, hname, Bool.false_eq_true, if_false, Bool.false_and,
        State.entering_eq hbrace hinterface, copied]
      split
      · rfl
      · split <;> rfl

/-- A flat unit is copied. -/
theorem run_of_flat {o : ConvertOptions} {ts : List Token} (h : FlatUnit o s ts) (hs : s.scope = {})
    (hu : u.options = o) : run u s ts = .ok (serialize ts, {}) := by
  induction h with
  | nil => rw [run, hs]; rfl
  | @copy s t rest hnamespace huse hcontext hname hcomment hliteral hrest ih =>
    have hstep : step u s t rest = .ok ⟨t.text, s.entering t, rest⟩ := by
      have htext : copied u.options s.scope t = t.text := by
        simp only [copied, hu, hs, Bool.or_eq_true, beq_iff_eq]
        split
        · next hkind => exact proseFrom_of_flat (hcomment hkind)
        · split
          · next hkind => exact literalFrom_of_none _ (hliteral hkind)
          · rfl
      have hparen : (t.isKeyword .useKw && !Stream.isNext (·.isPunct "(") rest) = false := by
        cases hkey : t.isKeyword .useKw with
        | false => rfl
        | true => simp [huse hkey]
      simp only [step_eq, hnamespace, hparen, hcontext, hname, Bool.false_eq_true, if_false, htext]
    rw [run_cons hstep, ih (by simpa [State.wrote, State.entering_scope] using hs)]
    rfl
  | @reference s t used rest hcontext hnames hrest ih =>
    have hstep : step u s t (used ++ rest) =
        .ok ⟨serialize (t :: used), s.entering t, rest⟩ := by
      obtain ⟨hnamespace, huse⟩ := isKeyword_of_isClassContext hcontext
      simp only [step_eq, hnamespace, huse, hcontext, Bool.false_and, Bool.false_eq_true, if_false,
        if_true, hs, classNames_of_flat u hnames t]
      rfl
    rw [run_cons hstep, ih (by simpa [State.wrote, State.entering_scope] using hs)]
    simp [Except.map]
  | @name s t more rest hname hmore hflat hrest ih =>
    have hstep : step u s t (more ++ rest) = .ok ⟨serialize (t :: more), s, rest⟩ := by
      obtain ⟨hnamespace, hcontext⟩ := isKeyword_of_isNamePart hname .namespaceKw
      have huse := (isKeyword_of_isNamePart hname .useKw).1
      have hgather : gather Token.isNamePart (more ++ rest) = (more, rest) := hmore
      simp only [step_eq, hnamespace, huse, hcontext, hname, Bool.false_and, Bool.false_eq_true,
        if_false, if_true, nameStep, Stream.name, hgather]
      split
      · next hmeans =>
        have hplain : '\\' ∉ t.text ++ serialize more := hflat hmeans
        rw [hs, className_of_not_mem u t hplain]
        rfl
      · rfl
    rw [run_cons hstep, ih (by simpa [State.wrote] using hs)]
    simp [Except.map]

end LegacyPhp.Qualify
