import LegacyPhp.Proofs.Convert.Literals
import LegacyPhp.Proofs.Token.Lexes

/-!
# Scripts and what they mean

A grammar of units, piece by piece, each with the text that it is written as. A `Script` is an open
tag and a sequence of items: namespace declarations, imports, class references, and code without
words. Every piece carries the proof that it is well formed, so a script is always one that can be
read back.

The meaning of a script is said of its pieces and not of its text: `Item.scope` is what an item does
to the names after it, and `Script.flat` is the script without its declarations, every class name
written in its flat form. The names themselves are looked up by `Scope.resolve?`, which knows each
of them (`Name.isSome_resolve?`).
-/

namespace LegacyPhp.Grammar

open Text Scan Qualify

/-! ## Names -/

/-- White space, if any. -/
structure Gap where
  text : Text
  spaces : text.all isSpace

/-- Some white space. -/
structure Blank extends Gap where
  nonempty : text ≠ []

/-- An identifier that is no reserved word. -/
structure Segment where
  text : Text
  ident : isIdent text
  unreserved : Keyword.ofWord? text = none

/-- A reserved word in any mixture of cases. -/
structure Spelling (word : Keyword) where
  text : Text
  spells : Keyword.ofWord? text = some word

/-- A reserved word and the white space after it. -/
structure Head (word : Keyword) where
  keyword : Spelling word
  blank : Blank

def Head.text {word : Keyword} (h : Head word) : Text := h.keyword.text ++ h.blank.text

/-- A qualified name. -/
structure Name where
  rooted : Bool
  first : Segment
  more : List Segment

namespace Name

def words (n : Name) : List Text := (n.first :: n.more).map Segment.text

def text (n : Name) : Text := (if n.rooted then ['\\'] else []) ++ join ['\\'] n.words

end Name

/-- The name of one segment. -/
def Segment.name (s : Segment) : Name := ⟨false, s, []⟩

theorem Segment.isNameWord (s : Segment) : IsNameWord s.text := by
  have h := s.ident
  rw [isIdent, Bool.and_eq_true] at h
  refine ⟨fun hempty => ?_, h.2⟩
  rw [hempty] at h
  cases h.1

theorem Name.hasEmptySegment (n : Name) : Scope.hasEmptySegment (join ['\\'] n.words) = false := by
  refine hasEmptySegment_join (List.cons_ne_nil _ _) fun w hw => ?_
  obtain ⟨s, _, rfl⟩ := List.mem_map.1 hw
  exact s.isNameWord

/-- Every name stands for a class in every scope. -/
theorem Name.isSome_resolve? (s : Scope) (n : Name) : (s.resolve? n.text).isSome := by
  have hsegments := n.hasEmptySegment
  unfold Scope.resolve?
  split
  · rfl
  · cases hrooted : n.rooted with
    | true => simp [Name.text, hrooted, hsegments]
    | false =>
      have htext : n.text = join ['\\'] n.words := by simp [Name.text, hrooted]
      rw [htext]
      split
      · next rest hrest =>
        -- a leading separator would have an empty segment before it
        rw [hrest] at hsegments
        simp [Scope.hasEmptySegment, splitOn] at hsegments
      · simp [hsegments]

/-- The class that a name stands for. -/
def Name.full (s : Scope) (n : Name) : Text := (s.resolve? n.text).get (n.isSome_resolve? s)

theorem Name.resolve?_eq (s : Scope) (n : Name) : s.resolve? n.text = some (n.full s) :=
  (Option.some_get _).symm

/-! ## Class references -/

/-- Class names separated by commas. -/
structure Names where
  first : Name
  more : List (Gap × Name)

/-- The names behind the first one, given how a name is written. -/
def moreText (write : Name → Text) (more : List (Gap × Name)) : Text :=
  more.flatMap fun (gap, name) => ',' :: (gap.text ++ write name)

def Names.text (write : Name → Text) (ns : Names) : Text :=
  write ns.first ++ moreText write ns.more

/-- A further reserved word in a declaration, with class names after it. -/
structure Clause (word : Keyword) where
  space : Blank
  head : Head word
  names : Names

def Clause.text {word : Keyword} (write : Name → Text) (c : Clause word) : Text :=
  c.space.text ++ (c.head.text ++ c.names.text write)

/-- The text of a clause that may be left out. -/
def clauseText {word : Keyword} (write : Name → Text) (clause : Option (Clause word)) : Text :=
  (clause.map (Clause.text write)).getD []

/-- The class that another one extends. -/
structure Parent where
  space : Blank
  head : Head .extendsKw
  name : Name

def Parent.clause (p : Parent) : Clause .extendsKw := ⟨p.space, p.head, ⟨p.name, []⟩⟩

structure Variable where
  name : Text
  ident : isIdent name

/-- A place where a class is meant. -/
inductive Reference where
  | new (head : Head .newKw) (name : Name)
  | instanceOf (head : Head .instanceOfKw) (name : Name)
  | classDecl (head : Head .classKw) (name : Segment) (parent : Option Parent)
      (interfaces : Option (Clause .implementsKw))
  | interfaceDecl (head : Head .interfaceKw) (name : Segment)
      (parents : Option (Clause .extendsKw))
  /-- A name before `::`. -/
  | member (name : Name) (gap : Gap)
  /-- A name before a variable. -/
  | typed (name : Name) (gap : Gap) (var : Variable)

def Reference.text (write : Name → Text) : Reference → Text
  | .new head name => head.text ++ write name
  | .instanceOf head name => head.text ++ write name
  | .classDecl head name parent interfaces =>
    head.text ++ write name.name ++ clauseText write (parent.map Parent.clause) ++
      clauseText write interfaces
  | .interfaceDecl head name parents => head.text ++ write name.name ++ clauseText write parents
  | .member name gap => write name ++ gap.text ++ [':', ':']
  | .typed name gap var => write name ++ gap.text ++ '$' :: var.name

/-! ## Items and scripts -/

/-- One import of a `use` declaration. -/
structure Import where
  name : Name
  alias? : Option (Blank × Head .asKw × Segment)

namespace Import

def text (i : Import) : Text :=
  i.name.text ++
    match i.alias? with
    | none => []
    | some (space, head, short) => space.text ++ (head.text ++ short.text)

/-- The scope after an import. -/
def scope (s : Scope) (i : Import) : Scope :=
  s.addImport i.name.text (i.alias?.map fun (_, _, short) => short.text)

end Import

/-- The imports behind the first one. -/
def importsText (more : List (Gap × Import)) : Text :=
  more.flatMap fun (gap, i) => ',' :: (gap.text ++ i.text)

/-- Variables, numbers, white space, and marks but separators, up to a stop. White space in front
belongs to the gap before the code. -/
structure Code where
  text : Text
  tokens : List Token
  lexed : lexFrom true {} 0 text = .ok tokens
  plain : ∀ t ∈ tokens, t.isPlain
  starts : nextIs isSpace text = false
  ends : EndsInStop text

inductive Item where
  | enter (head : Head .namespaceKw) (name : Name) (gap : Gap)
  | use (head : Head .useKw) (first : Import) (more : List (Gap × Import)) (gap : Gap)
  /-- A class reference with a stop after it. -/
  | reference (reference : Reference) (gap : Gap) (stop : { c : Char // isStop c = true })
  | code (code : Code)

namespace Item

def text : Item → Text
  | enter head name gap => head.text ++ name.text ++ gap.text ++ [';']
  | use head first more gap => head.text ++ first.text ++ importsText more ++ gap.text ++ [';']
  | reference r gap stop => r.text Name.text ++ gap.text ++ [stop.val]
  | code c => c.text

/-- The scope after an item. -/
def scope (s : Scope) : Item → Scope
  | enter _ name _ => s.enter name.text
  | use _ first more _ => (first :: more.map Prod.snd).foldl Import.scope s
  | reference .. | code _ => s

/-- An item without declarations, its class names in their flat form. -/
def flat (o : ConvertOptions) (s : Scope) : Item → Text
  | enter .. | use .. => []
  | reference r gap stop =>
    r.text (fun name => o.flatten (name.full s)) ++ gap.text ++ [stop.val]
  | code c => c.text

end Item

def itemsText (items : List (Gap × Item)) : Text :=
  items.flatMap fun (gap, item) => gap.text ++ item.text

/-- Items in their flat form, each in the scope that those before it leave. -/
def flatItems (o : ConvertOptions) (s : Scope) : List (Gap × Item) → Text
  | [] => []
  | (gap, item) :: items => gap.text ++ item.flat o s ++ flatItems o (item.scope s) items

/-- The scope after items. -/
def scopeAfter (s : Scope) (items : List (Gap × Item)) : Scope :=
  items.foldl (fun s item => item.2.scope s) s

/-- A unit of code. -/
structure Script where
  items : List (Gap × Item)
  last : Gap

namespace Script

def text (u : Script) : Text := longTag ++ itemsText u.items ++ u.last.text

/-- The script without declarations, its class names in their flat form. -/
def flat (o : ConvertOptions) (u : Script) : Text :=
  longTag ++ flatItems o {} u.items ++ u.last.text

end Script

end LegacyPhp.Grammar
