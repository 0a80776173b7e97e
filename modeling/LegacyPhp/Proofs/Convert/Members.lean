import LegacyPhp.Proofs.Convert.Passes
import LegacyPhp.Proofs.Qualify.Stages

/-!
# Substitution behind the marks of members

Substitution goes by the text of a token. Of what stands before it only `new` counts, so a member or
a declared function with the name of a construct is replaced like the construct. `member_copied_iff`
says which tokens behind `->`, `::` and `function` are copied.
-/

namespace LegacyPhp.Legacy

open Text List LegacyPhp.Stream

variable {t m : Token} {ts rest before gap : List Token} {afterNew : Bool}

theorem substitute_cons (afterNew : Bool) (t : Token) (rest : List Token) :
    substitute afterNew (t :: rest) =
      match if isCalledClass t then afterNoArguments? rest else none with
      | some left => "__CLASS__".toList ++ substitute false left
      | none => substituteFor afterNew t rest ++
          substitute (if t.isTrivia then afterNew else t.isKeyword .newKw) rest := by
  rw [substitute]
  split <;> simp only [*]

theorem called_eq_some {left : List Token}
    (h : (if isCalledClass t then afterNoArguments? rest else none) = some left) :
    isCalledClass t ∧ afterNoArguments? rest = some left := by
  split at h
  · next ht => exact ⟨ht, h⟩
  · cases h

/-- Other tokens than identifiers and `static` are copied. -/
theorem substitute_other (hkind : t.kind ≠ .identifier) (hstatic : t.isKeyword .staticKw = false)
    (afterNew : Bool) (rest : List Token) : substitute afterNew (t :: rest) =
      t.text ++ substitute (if t.isTrivia then afterNew else t.isKeyword .newKw) rest := by
  have hcalled : isCalledClass t = false := by simp [isCalledClass, hkind]
  simp [substitute_cons, hcalled, substituteFor, hkind, hstatic]

theorem substitute_trivia (hgap : ∀ g ∈ gap, g.isTrivia) (afterNew : Bool) (rest : List Token) :
    substitute afterNew (gap ++ rest) = serialize gap ++ substitute afterNew rest := by
  induction gap with
  | nil => rfl
  | cons g gap ih =>
    have hg := hgap g mem_cons_self
    have hkind : ∀ kind, kind.isTrivia = false → g.kind ≠ kind := by
      rintro _ hkind rfl
      rw [Token.isTrivia, hkind] at hg
      cases hg
    rw [cons_append, substitute_other (hkind _ rfl) (beq_eq_false_iff_ne.2 (hkind _ rfl)), hg,
      if_pos rfl, ih fun u hu => hgap u (mem_cons_of_mem g hu), serialize_cons, append_assoc]

/-- A token in front of the name of a member or of a declared function. -/
def marksMember (m : Token) : Bool := m.isPunct "->" || m.isPunct "::" || m.isKeyword .functionKw

/-- A mark that is copied, and that no argument list is made of. -/
theorem marksMember_facts (hm : marksMember m) : m.kind ≠ .identifier ∧
    m.isKeyword .staticKw = false ∧ m.isKeyword .newKw = false ∧ m.isTrivia = false ∧
    m.isPunct "(" = false ∧ m.isPunct ")" = false := by
  simp only [marksMember, Token.isPunct, Token.isKeyword, Bool.or_eq_true, Bool.and_eq_true,
    beq_iff_eq] at hm
  obtain ((⟨hkind, htext⟩ | ⟨hkind, htext⟩) | hkind) := hm
  · simp [Token.isPunct, Token.isKeyword, Token.isTrivia, TokenKind.isTrivia, hkind, htext]
  · simp [Token.isPunct, Token.isKeyword, Token.isTrivia, TokenKind.isTrivia, hkind, htext]
  · simp [Token.isPunct, Token.isKeyword, Token.isTrivia, TokenKind.isTrivia, hkind]

/-- Nothing before the mark of a member looks or reaches beyond it. -/
theorem substitute_mark (hm : marksMember m) (afterNew : Bool) (before : List Token) :
    ∃ head, ∀ rest, substitute afterNew (before ++ m :: rest) = head ++ substitute false rest := by
  obtain ⟨hkind, hstatic, hnew, htrivia, hopen, hclose⟩ := marksMember_facts hm
  have hcall : ∀ ts rest, afterNoArguments? (ts ++ m :: rest) =
      (afterNoArguments? ts).map (· ++ m :: rest) := by
    intro ts rest
    unfold afterNoArguments?
    rw [fetch_before _ htrivia hopen]
    cases fetch (·.isPunct "(") ts with
    | none => rfl
    | some found =>
      simp only [Option.map_some, fetch_before (·.isPunct ")") htrivia hclose]
      cases fetch (·.isPunct ")") found.2 <;> rfl
  have hnext : ∀ q ts rest, isNext q (ts ++ m :: rest) = isNext q (ts ++ [m]) := by
    intro q ts rest
    induction ts with
    | nil => simp only [nil_append, isNext_cons, htrivia, Bool.false_eq_true, if_false]
    | cons t ts ih => simp only [cons_append, isNext_cons, ih]
  induction hlength : before.length using Nat.strongRecOn generalizing afterNew before with
  | ind n ih =>
    cases before with
    | nil =>
      refine ⟨m.text, fun rest => ?_⟩
      rw [nil_append, substitute_other hkind hstatic, htrivia, hnew, if_neg Bool.false_ne_true]
    | cons u before =>
      rw [length_cons] at hlength
      cases hcalled : if isCalledClass u then afterNoArguments? before else none with
      | some left =>
        have hargs := called_eq_some hcalled
        have hshort := length_afterNoArguments? hargs.2
        obtain ⟨head, hhead⟩ := ih left.length (by omega) false left rfl
        refine ⟨"__CLASS__".toList ++ head, fun rest => ?_⟩
        rw [cons_append, substitute_cons, if_pos hargs.1, hcall, hargs.2, append_assoc, ← hhead]
        rfl
      | none =>
        obtain ⟨head, hhead⟩ := ih before.length (by omega)
          (if u.isTrivia then afterNew else u.isKeyword .newKw) before rfl
        refine ⟨substituteFor afterNew u (before ++ [m]) ++ head, fun rest => ?_⟩
        have hnone : (if isCalledClass u then afterNoArguments? (before ++ m :: rest) else none) =
            none := by
          rw [hcall]
          split at hcalled
          · next hu => rw [if_pos hu, hcalled]; rfl
          · next hu => rw [if_neg hu]
        rw [cons_append, substitute_cons, hnone, append_assoc, ← hhead]
        simp only [substituteFor, hnext]

/-- What is replaced, with `rest` behind it and no `new` before it. -/
def Replaced (t : Token) (rest : List Token) : Prop :=
  isCalledClass t ∧ afterNoArguments? rest ≠ none ∨
    t.kind = .identifier ∧
      (sameWord t.text "__DIR__".toList ∨ t.text = "E_USER_DEPRECATED".toList) ∨
    t.isKeyword .staticKw ∧ isNext (·.isPunct "::") rest

/-- A token is copied exactly if it is not replaced: no substitute is a spelling of what it stands
for. -/
theorem substitute_copies_iff (hform : t.WellFormed) : substitute false (t :: rest) =
      t.text ++ substitute (t.isKeyword .newKw) rest ↔ ¬ Replaced t rest := by
  rw [substitute_cons]
  cases hcalled : if isCalledClass t then afterNoArguments? rest else none with
  | some left =>
    obtain ⟨ht, hargs⟩ := called_eq_some hcalled
    refine iff_of_false (fun heq => ?_) (not_not_intro (.inl ⟨ht, by simp [hargs]⟩))
    have hword : lower t.text = lower "get_called_class".toList :=
      eq_of_beq (Bool.and_eq_true_iff.1 ht).2
    cases htext : t.text with
    | nil => rw [htext] at hword; cases hword
    | cons c cs =>
      rw [htext] at hword heq
      obtain rfl : '_' = c := (cons.inj heq).1
      exact absurd (cons.inj hword).1 (by decide)
  | none =>
    have hnew : (if t.isTrivia then false else t.isKeyword .newKw) = t.isKeyword .newKw := by
      cases hkind : t.kind <;> simp [Token.isTrivia, Token.isKeyword, TokenKind.isTrivia, hkind]
    have hargs : ¬ (isCalledClass t ∧ afterNoArguments? rest ≠ none) := by
      rintro ⟨ht, hargs⟩
      rw [if_pos ht] at hcalled
      exact hargs hcalled
    simp only [hnew, append_cancel_right_eq, Replaced, hargs, false_or, not_or]
    unfold substituteFor
    split
    · next hkind =>
      have hkind : t.kind = .identifier := by simpa using hkind
      have hstatic : t.isKeyword .staticKw = false := by simp [Token.isKeyword, hkind]
      unfold identifierFor
      split
      · next hdir =>
        refine iff_of_false (fun heq => ?_) (fun h => h.1 ⟨hkind, .inl hdir⟩)
        rw [← heq] at hdir
        cases hdir
      · split
        · next hdir hlevel =>
          refine iff_of_false (fun heq => ?_) (fun h => h.1 ⟨hkind, .inr (by simpa using hlevel)⟩)
          rw [← heq] at hlevel
          cases hlevel
        · next hdir hlevel =>
          refine iff_of_true rfl ⟨fun h => ?_, by simp [hstatic]⟩
          exact h.2.elim hdir fun heq => hlevel (beq_iff_eq.2 heq)
    · next hkind =>
      have hkind : t.kind ≠ .identifier := by simpa using hkind
      split
      · next hstatic =>
        have hstatic : t.isKeyword .staticKw ∧ isNext (·.isPunct "::") rest := by
          simpa using hstatic
        refine iff_of_false (fun heq => ?_) (fun h => h.2 hstatic)
        have hspelling : sameWord t.text "static".toList :=
          sameWord_of_ofWord (hform.ofWord hstatic.1) (by decide)
        rw [← heq] at hspelling
        cases hspelling
      · next hstatic =>
        refine iff_of_true rfl ⟨fun h => hkind h.1, fun h => hstatic ?_⟩
        simp [h.1, h.2]

/-- Behind the mark of a member and behind `function` a token is replaced just as it is anywhere
else, by its text, and else copied. What stands before it is written as if the unit ended there. -/
theorem member_copied_iff {path : Path} {source : Text} {front : List Token}
    (h : lexemes source = .ok (front ++ t :: rest))
    (hfront : isNext marksMember front.reverse) :
    substituteConstructs path source =
        .ok (substitute false front ++ substitute false (t :: rest)) ∧
      (substitute false (t :: rest) = t.text ++ substitute (t.isKeyword .newKw) rest ↔
        ¬ Replaced t rest) := by
  have hform : t.WellFormed := (lexemes_lexed h).wellFormed t (by simp)
  refine ⟨?_, substitute_copies_iff hform⟩
  rw [← isSome_fetch, Option.isSome_iff_exists] at hfront
  obtain ⟨⟨m, before⟩, hfetch⟩ := hfront
  obtain ⟨gap, hreverse, hgap, -, hm⟩ := fetch_eq_some hfetch
  have hsplit : front = before.reverse ++ m :: gap.reverse := by
    rw [← reverse_reverse front, hreverse]
    simp
  have hgap : ∀ g ∈ gap.reverse, g.isTrivia = true := fun g hg => hgap g (mem_reverse.1 hg)
  obtain ⟨head, hhead⟩ := substitute_mark hm false before.reverse
  have hwhole : substitute false (front ++ t :: rest) =
      substitute false front ++ substitute false (t :: rest) := by
    rw [hsplit, append_assoc, cons_append, hhead, hhead, substitute_trivia hgap,
      ← append_nil gap.reverse, substitute_trivia hgap]
    simp [substitute]
  rw [substituteConstructs, lexemesOf, h, ← hwhole]
  rfl

/-- A property with the name of the directory constant is replaced. -/
theorem member_copied_iff_property :
    ∃ front t rest, lexemes "<?php $a->__DIR__;".toList = .ok (front ++ t :: rest) ∧
      isNext marksMember front.reverse ∧
      substitute false (t :: rest) ≠ t.text ++ substitute (t.isKeyword .newKw) rest := by
  have hlex : lexemes "<?php $a->__DIR__;".toList = .ok ([⟨.openTag, "<?php ".toList, 0⟩,
      ⟨.variable, "$a".toList, 6⟩, ⟨.punctuation, "->".toList, 8⟩] ++
        ⟨.identifier, "__DIR__".toList, 10⟩ :: [⟨.punctuation, ";".toList, 17⟩]) :=
    eq_ok_of_toOption (by decide +kernel)
  refine ⟨_, _, _, hlex, rfl, fun hcopied => ?_⟩
  exact (@member_copied_iff _ _ [] _ _ hlex rfl).2.1 hcopied (.inr (.inl ⟨rfl, .inl rfl⟩))

end LegacyPhp.Legacy
