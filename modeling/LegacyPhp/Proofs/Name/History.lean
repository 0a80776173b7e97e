import LegacyPhp.Name.Scope
import LegacyPhp.Proofs.Text.Split
import Mathlib.Data.List.Induction
import Mathlib.Data.List.TakeWhile

/-!
# Names and the history of a scope

A scope remembers the namespace that a unit is in and the imports made in it, and forgets how they
came about. `History.resolve?` reads the same off the declarations themselves, on the segments of a
name: the first segment is looked up among the imports since the last namespace declaration, from
the latest back, and a name that none of them binds is put under the namespace declared last.

`current_ofHistory` and `alias?_ofHistory` say what a scope holds of its history, by induction on
the last declaration; `qualify_eq_join` turns the cut of a name at its first separator into one of
its segments. Together they make the two readings agree (`resolves_by_history`). Two scopes with the
same view (`Scope.Agree`) stay so under every further declaration and resolve every name alike,
which gives what can be exchanged in a history and what an entry makes forgotten.
-/

namespace LegacyPhp

open Text
open List hiding splitOn

/-- A declaration that changes what names stand for. -/
inductive ScopeChange where
  | enter (name : Text)
  | addImport (name : Text) (alias? : Option Text)
  deriving DecidableEq, Repr

/-- The scope after one more declaration. -/
def Scope.change (s : Scope) : ScopeChange → Scope
  | .enter name => s.enter name
  | .addImport name alias? => s.addImport name alias?

/-- The scope after declarations, the first of them made outside all namespaces. -/
def Scope.ofHistory (history : List ScopeChange) : Scope := history.foldl Scope.change {}

theorem Scope.ofHistory_append (history more : List ScopeChange) :
    Scope.ofHistory (history ++ more) = more.foldl Scope.change (Scope.ofHistory history) :=
  foldl_append

/-! ## Segments -/

/-- The segments of a qualified name. -/
def segments (name : Text) : List Text := splitOn '\\' name

/-- The name without one leading separator. -/
def unrooted : Text → Text
  | '\\' :: rest => rest
  | name => name

theorem unrooted_of_head? {name : Text} (h : name.head? ≠ some '\\') : unrooted name = name := by
  unfold unrooted
  split
  · exact absurd rfl h
  · rfl

theorem hasEmptySegment_iff {name : Text} : Scope.hasEmptySegment name ↔ [] ∈ segments name := by
  simp [Scope.hasEmptySegment, segments]

/-- A class for the first segment of a name. -/
theorem append_drop_firstSegment (full name : Text) :
    full ++ name.drop (firstSegment name).length = join ['\\'] (full :: (segments name).tail) := by
  have hname : firstSegment name ++ name.dropWhile (· != '\\') = name :=
    takeWhile_append_dropWhile
  have hdrop : name.drop (firstSegment name).length = name.dropWhile (· != '\\') := by
    have hleft : (firstSegment name ++ name.dropWhile (· != '\\')).drop (firstSegment name).length =
        name.dropWhile (· != '\\') := drop_left
    rwa [hname] at hleft
  rw [hdrop, segments, splitOn_eq, tail_cons]
  cases hrest : name.dropWhile (· != '\\') with
  | nil => simp
  | cons c rest =>
    have hc : c = '\\' := by
      have hhead := head?_dropWhile_not (· != '\\') name
      rw [hrest] at hhead
      simpa using hhead
    rw [hc]
    exact (join_cons_splitOn '\\' full rest).symm

theorem head?_segments (name : Text) : (segments name).head? = some (firstSegment name) := by
  rw [segments, splitOn_eq]
  rfl

theorem getLast?_segments (name : Text) : (segments name).getLast? = some (lastSegment name) := by
  unfold segments lastSegment
  by_cases hmem : '\\' ∈ name
  · obtain ⟨after, before, hreverse, hfree⟩ :=
      eq_append_cons_of_mem (mem_reverse.2 hmem)
    have hname : name = before.reverse ++ '\\' :: after.reverse := by
      rw [← reverse_reverse name, hreverse]
      simp
    have htake : name.reverse.takeWhile (· != '\\') = after := by
      rw [hreverse, takeWhile_append_of_pos fun c hc => ?_]
      · simp
      · exact bne_iff_ne.2 fun heq => hfree (heq ▸ hc)
    have hlast : splitOn '\\' after.reverse = [after.reverse] :=
      splitOn_of_not_mem fun hc => hfree (mem_reverse.1 hc)
    rw [htake, hname, splitOn_append_sep, hlast]
    simp
  · have htake : name.reverse.takeWhile (· != '\\') = name.reverse := by
      refine takeWhile_eq_self_iff.2 fun c hc => bne_iff_ne.2 fun heq => hmem ?_
      rw [← heq]
      exact mem_reverse.1 hc
    rw [htake, splitOn_of_not_mem hmem]
    simp

/-! ## What a history says about a name -/

namespace History

/-- The namespace that a declaration enters. -/
def entered? : ScopeChange → Option Text
  | .enter name => some name
  | .addImport .. => none

/-- The short name of an import: its alias, or else the last segment of the class. -/
def shortName (name : Text) (alias? : Option Text) : Text :=
  alias?.getD ((segments (dropLeading '\\' name)).getLast?.getD [])

/-- The class that a declaration binds to a short name, in any case of letters. -/
def bound? (short : Text) : ScopeChange → Option Text
  | .enter _ => none
  | .addImport name alias? =>
    if sameWord (shortName name alias?) short then some (dropLeading '\\' name) else none

/-- The declarations since the last entry of a namespace, the latest first. -/
def sinceEntry (history : List ScopeChange) : List ScopeChange :=
  history.reverse.takeWhile fun c => (entered? c).isNone

/-- The class that the latest of these binds to a short name. -/
def binding? (history : List ScopeChange) (short : Text) : Option Text :=
  (sinceEntry history).findSome? (bound? short)

/-- The namespace entered last, without separators around it. -/
def lastNamespace (history : List ScopeChange) : Text :=
  dropAround '\\' ((history.reverse.findSome? entered?).getD [])

/-- What a name stands for after a history. -/
def resolve? (history : List ScopeChange) (name : Text) : Option Text :=
  if name = [] ∨ lower name ∈ ["self".toList, "parent".toList, "static".toList] then some name
  else if [] ∈ segments (unrooted name) then none
  else if name.head? = some '\\' then some (unrooted name)
  else
    match binding? history ((segments name).head?.getD []) with
    | some full => some (join ['\\'] (full :: (segments name).tail))
    | none =>
      if lastNamespace history = [] then some name
      else some (join ['\\'] [lastNamespace history, name])

variable (history : List ScopeChange) (name : Text) (alias? : Option Text)

theorem binding?_enter (short : Text) : binding? (history ++ [.enter name]) short = none := by
  simp [binding?, sinceEntry, entered?]

theorem binding?_addImport (short : Text) : binding? (history ++ [.addImport name alias?]) short =
      if sameWord (shortName name alias?) short then some (dropLeading '\\' name)
      else binding? history short := by
  have hsince : sinceEntry (history ++ [.addImport name alias?]) =
      .addImport name alias? :: sinceEntry history := by
    simp [sinceEntry, entered?]
  rw [binding?, hsince, findSome?_cons, bound?]
  cases sameWord (shortName name alias?) short <;> rfl

end History

namespace Scope

open History

variable (history : List ScopeChange)

theorem current_ofHistory : (ofHistory history).current = lastNamespace history := by
  induction history using List.reverseRecOn with
  | nil => rfl
  | append_singleton history c ih =>
    rw [ofHistory_append]
    cases c with
    | enter name => simp [lastNamespace, findSome?_cons, entered?, change, enter]
    | addImport name alias? =>
      simpa [lastNamespace, findSome?_cons, entered?, change, addImport] using ih

theorem alias?_addImport (s : Scope) (name : Text) (alias? : Option Text) (short : Text) :
    (s.addImport name alias?).alias? short =
      if sameWord (shortName name alias?) short then some (dropLeading '\\' name)
      else s.alias? short := by
  rw [shortName, getLast?_segments, sameWord, BEq.comm]
  simp only [Option.getD_some, Scope.alias?, addImport, lookup_cons]
  split <;> simp_all

/-- A scope knows the short names that were bound since then, each for the class bound last. -/
theorem alias?_ofHistory (short : Text) :
    (ofHistory history).alias? short = binding? history short := by
  induction history using List.reverseRecOn with
  | nil => rfl
  | append_singleton history c ih =>
    rw [ofHistory_append]
    cases c with
    | enter name => exact (binding?_enter history name short).symm
    | addImport name alias? =>
      rw [binding?_addImport, ← ih]
      exact alias?_addImport _ name alias? short

/-- A full name is made of the segments of what it is made from. -/
theorem qualify_eq_join (s : Scope) (name : Text) : s.qualify name =
      match s.alias? ((segments name).head?.getD []) with
      | some full => join ['\\'] (full :: (segments name).tail)
      | none => if s.current = [] then name else join ['\\'] [s.current, name] := by
  rw [head?_segments, Option.getD_some, qualify]
  cases s.alias? (firstSegment name) with
  | some full => exact append_drop_firstSegment full name
  | none =>
    dsimp only
    cases s.current with
    | nil => rfl
    | cons c rest =>
      simp only [isEmpty_cons, reduceCtorEq, if_false, Bool.false_eq_true]
      rw [join_cons_cons, join_singleton]
      rfl

theorem isRelativeName_iff {name : Text} : isRelativeName name ↔
    lower name ∈ ["self".toList, "parent".toList, "static".toList] := by
  have hself : lower "self".toList = "self".toList := by decide
  have hparent : lower "parent".toList = "parent".toList := by decide
  have hstatic : lower "static".toList = "static".toList := by decide
  simp only [isRelativeName, sameWord, hself, hparent, hstatic, Bool.or_eq_true, beq_iff_eq,
    mem_cons, not_mem_nil, or_false, or_assoc]

theorem resolve?_verbatim (s : Scope) {name : Text}
    (hname : name = [] ∨ lower name ∈ ["self".toList, "parent".toList, "static".toList]) :
    s.resolve? name = some name := by
  unfold resolve?
  refine if_pos ?_
  rwa [Bool.or_eq_true, List.isEmpty_iff, isRelativeName_iff]

/-- Other names lose their leading separator, or are looked up. -/
theorem resolve?_eq (s : Scope) {name : Text}
    (hname : ¬ (name = [] ∨ lower name ∈ ["self".toList, "parent".toList, "static".toList])) :
    s.resolve? name =
      if [] ∈ segments (unrooted name) then none
      else if name.head? = some '\\' then some (unrooted name) else some (s.qualify name) := by
  have hplain : ¬ (name.isEmpty || isRelativeName name) := by
    rwa [Bool.or_eq_true, List.isEmpty_iff, isRelativeName_iff]
  unfold resolve?
  rw [if_neg hplain]
  split
  · next rooted => simp only [hasEmptySegment_iff, unrooted, head?_cons, if_true]
  · next hunrooted =>
    have hhead : name.head? ≠ some '\\' := by
      cases name with
      | nil => simp
      | cons c rest =>
        intro hc
        obtain rfl : c = '\\' := by simpa using hc
        exact hunrooted rest rfl
    rw [unrooted_of_head? hhead, if_neg hhead]
    simp only [hasEmptySegment_iff]

/-! ## Scopes with the same view -/

/-- Two scopes that hold the same namespace and know the same short names. -/
structure Agree (s s' : Scope) : Prop where
  current : s.current = s'.current
  alias? : ∀ short, s.alias? short = s'.alias? short

namespace Agree

variable {s s' : Scope}

theorem change (h : Agree s s') (c : ScopeChange) : Agree (s.change c) (s'.change c) := by
  cases c with
  | enter name => exact ⟨rfl, fun _ => rfl⟩
  | addImport name alias? =>
    refine ⟨h.current, fun short => ?_⟩
    show (s.addImport name alias?).alias? short = (s'.addImport name alias?).alias? short
    rw [alias?_addImport, alias?_addImport, h.alias?]

theorem foldl (h : Agree s s') (more : List ScopeChange) :
    Agree (more.foldl Scope.change s) (more.foldl Scope.change s') := by
  induction more generalizing s s' with
  | nil => exact h
  | cons c more ih => exact ih (h.change c)

theorem resolve? (h : Agree s s') (name : Text) : s.resolve? name = s'.resolve? name := by
  have hqualify : ∀ name, s.qualify name = s'.qualify name := fun name => by
    rw [qualify, qualify, h.alias?, h.current]
  unfold Scope.resolve?
  simp only [hqualify]

theorem addImport_comm (s : Scope) {a b : Text} {a? b? : Option Text}
    (h : sameWord (shortName a a?) (shortName b b?) = false) :
    Agree ((s.addImport a a?).addImport b b?) ((s.addImport b b?).addImport a a?) := by
  refine ⟨rfl, fun short => ?_⟩
  simp only [alias?_addImport]
  -- a short name cannot be that of both imports
  have hboth :
      ¬ (sameWord (shortName a a?) short ∧ sameWord (shortName b b?) short) := by
    rintro ⟨ha, hb⟩
    rw [sameWord, beq_iff_eq] at ha hb
    rw [sameWord, ha, hb, BEq.rfl] at h
    cases h
  cases ha : sameWord (shortName a a?) short <;> cases hb : sameWord (shortName b b?) short <;>
    simp_all

end Agree

end Scope

/-- What a name stands for is what the history says. In particular two imports in a row under
different short names can change places, no alias is left by an entry of a namespace, and whatever
was declared before it plays no part any more. -/
theorem resolves_by_history (history : List ScopeChange) (name : Text) :
    (Scope.ofHistory history).resolve? name = History.resolve? history name ∧
    (∀ before a a? b b? after,
      history = before ++ .addImport a a? :: .addImport b b? :: after →
      sameWord (History.shortName a a?) (History.shortName b b?) = false →
      (Scope.ofHistory (before ++ .addImport b b? :: .addImport a a? :: after)).resolve? name =
        (Scope.ofHistory history).resolve? name) ∧
    (∀ space short, (Scope.ofHistory (history ++ [.enter space])).alias? short = none) ∧
    ∀ before space after, history = before ++ .enter space :: after →
      (Scope.ofHistory (.enter space :: after)).resolve? name =
        (Scope.ofHistory history).resolve? name := by
  refine ⟨?_, ?_, fun space short => ?_, ?_⟩
  · rw [History.resolve?]
    split
    · next hname => exact Scope.resolve?_verbatim _ hname
    · next hname =>
      rw [Scope.resolve?_eq _ hname, Scope.qualify_eq_join, Scope.alias?_ofHistory,
        Scope.current_ofHistory]
      split
      · rfl
      split
      · rfl
      cases History.binding? history ((segments name).head?.getD []) with
      | some full => rfl
      | none => exact apply_ite some _ _ _
  · rintro before a a? b b? after rfl hshort
    have hagree := (Scope.Agree.addImport_comm (Scope.ofHistory before) hshort).foldl after
    rw [Scope.ofHistory_append, Scope.ofHistory_append]
    exact (hagree.resolve? name).symm
  · rw [Scope.alias?_ofHistory, History.binding?_enter]
  · rintro before space after rfl
    rw [Scope.ofHistory_append]
    rfl

/-- Two imports that have changed places, behind a namespace that had an alias of the same name. -/
theorem resolves_by_history_exchanged :
    (Scope.ofHistory [.addImport "A\\Http".toList none, .enter "\\Foo".toList,
        .addImport "\\Nette\\Http".toList none,
        .addImport "Bar\\Baz".toList (some "B".toList)]).resolve? "HTTP\\Request".toList =
      some "Nette\\Http\\Request".toList := by
  let imports : List ScopeChange :=
    [.addImport "Bar\\Baz".toList (some "B".toList), .addImport "\\Nette\\Http".toList none]
  have hentered : (Scope.ofHistory (.enter "\\Foo".toList :: imports)).resolve?
      "HTTP\\Request".toList = some "Nette\\Http\\Request".toList :=
    (resolves_by_history _ _).1.trans (by decide)
  have hforgotten := (resolves_by_history
    (.addImport "A\\Http".toList none :: .enter "\\Foo".toList :: imports)
    "HTTP\\Request".toList).2.2.2 [.addImport "A\\Http".toList none] _ _ rfl
  have hexchanged := (resolves_by_history
    (.addImport "A\\Http".toList none :: .enter "\\Foo".toList :: imports)
    "HTTP\\Request".toList).2.1
      [.addImport "A\\Http".toList none, .enter "\\Foo".toList] _ _ _ _ [] rfl (by decide)
  exact hexchanged.trans (hforgotten.symm.trans hentered)

end LegacyPhp
