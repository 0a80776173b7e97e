import LegacyPhp.Proofs.Closure.Pasted

/-!
# Lifting twice

Whether closures are left when the closures of a unit have been lifted. Trivia do not matter for
where a closure starts (`isSome_first?`), so the question is one about the tokens that
`lexemes_of_pastable` gives, and it can be asked piece by piece: a closure never starts in one piece
and goes on in the next (`closureIn_append`, `closureIn_append_of_last`). There is none in the
class, in a call, between the literals and in a body. What is left are the parameter lists
(`closureIn_declaration`): only the body of a literal is searched for closures when it is lifted,
and the parameters are copied as they are.
-/

namespace LegacyPhp.Closure

open Text LegacyPhp.Stream List

variable {ts first : List Token} {literals : List (Literal × List Token)}

/-! ## Closures among the tokens that are not trivia -/

/-- The reserved word `function`. -/
def isFunction (s : Shape) : Bool := s.1 == .keyword .functionKw

/-- Whether the parameters of a closure follow. -/
def opens (shapes : List Shape) : Bool :=
  shapes.head? == some (mark "(") ||
    (shapes.head? == some (mark "&") && shapes.tail.head? == some (mark "("))

/-- Whether a closure starts among the tokens. -/
def closureIn : List Shape → Bool
  | [] => false
  | s :: shapes => (isFunction s && opens shapes) || closureIn shapes

theorem isNext_eq (m : String) (ts : List Token) :
    isNext (·.isPunct m) ts = ((significant ts).head? == some (mark m)) := by
  induction ts with
  | nil => rfl
  | cons t ts ih =>
    rw [isNext_cons, significant_cons]
    cases ht : t.isTrivia with
    | true => exact ih
    | false => rfl

/-- Whether a literal starts depends on the tokens alone that are not trivia. -/
theorem startsAfter_eq (ts : List Token) : startsAfter ts = opens (significant ts) := by
  unfold startsAfter opens
  rw [isNext_eq, ← isNext_eq "&"]
  cases hfetch : fetch (·.isPunct "&") ts with
  | none =>
    have hnot : isNext (·.isPunct "&") ts = false := by
      rw [← isSome_fetch, hfetch]
      rfl
    rw [hnot]
    rfl
  | some entry =>
    obtain ⟨t, rest⟩ := entry
    have hnext : isNext (·.isPunct "&") ts := by
      rw [← isSome_fetch, hfetch]
      rfl
    have hrest := isNext_eq "(" rest
    rw [hnext, significant_of_fetch hfetch]
    exact congrArg (_ || ·) hrest

/-- Trivia do not matter for where closures start. -/
theorem isSome_first? (ts : List Token) : (first? ts).isSome = closureIn (significant ts) := by
  induction ts with
  | nil => rfl
  | cons t ts ih =>
    rw [first?, startsAt, startsAfter_eq, significant_cons]
    cases ht : t.isTrivia with
    | true =>
      have hkeyword : t.isKeyword .functionKw = false := by
        refine Bool.eq_false_iff.2 fun hkeyword => ?_
        rw [Token.isTrivia, eq_of_beq hkeyword] at ht
        cases ht
      rw [hkeyword]
      exact ih
    | false =>
      have hkeyword : t.isKeyword .functionKw = isFunction (t.kind, t.text) := rfl
      rw [hkeyword]
      simp only [Bool.false_eq_true, if_false, singleton_append, closureIn]
      split
      · next hstarts => rw [hstarts]; rfl
      · next hstarts => rw [Bool.eq_false_iff.2 hstarts]; exact ih

/-- No literal is found where no token starts one. -/
theorem first?_eq_none : first? ts = none ↔ closureIn (significant ts) = false := by
  rw [← isSome_first?, Option.isSome_eq_false_iff, Option.isNone_iff_eq_none]

/-! ## Closures in one text behind another -/

/-- No parameters start here. -/
def closedHead (shapes : List Shape) : Bool :=
  shapes.head? != some (mark "(") && shapes.head? != some (mark "&")

/-- What ends here does not go on as a closure. -/
def closedLast (shapes : List Shape) : Bool :=
  shapes.getLast?.all fun s => !isFunction s && s != mark "&"

section

variable {xs ys : List Shape}

theorem opens_of_closedHead (h : closedHead xs) : opens xs = false := by
  rw [closedHead, Bool.and_eq_true, bne_iff_ne, bne_iff_ne] at h
  simp [opens, h]

/-- What does not go on with a literal can be left off. -/
theorem opens_append (h : closedHead ys) : opens (xs ++ ys) = opens xs := by
  obtain _ | ⟨x, _ | ⟨y, xs⟩⟩ := xs
  · rw [nil_append, opens_of_closedHead h]
    rfl
  · rw [closedHead, Bool.and_eq_true, bne_iff_ne, bne_iff_ne] at h
    simp [opens, h]
  · rfl

/-- Parts can be searched one by one if no literal reaches from one into the next. -/
theorem closureIn_append (h : closedHead ys) :
    closureIn (xs ++ ys) = (closureIn xs || closureIn ys) := by
  induction xs with
  | nil => rfl
  | cons x xs ih => rw [cons_append, closureIn, closureIn, opens_append h, ih, Bool.or_assoc]

/-- The same, seen from the end of the first part. -/
theorem closureIn_append_of_last (h : closedLast xs) :
    closureIn (xs ++ ys) = (closureIn xs || closureIn ys) := by
  induction xs with
  | nil => rfl
  | cons x xs ih =>
    rw [cons_append, closureIn, closureIn]
    obtain _ | ⟨y, _ | ⟨z, xs⟩⟩ := xs
    · simp only [closedLast, getLast?_singleton, Option.all_some, Bool.and_eq_true,
        Bool.not_eq_true'] at h
      simp [closureIn, h]
    · simp only [closedLast, getLast?_cons_cons, getLast?_singleton, Option.all_some,
        Bool.and_eq_true, bne_iff_ne] at h
      have hy : (y == mark "&") = false := beq_eq_false_iff_ne.2 h.2
      rw [ih (by simp [closedLast, h]), Bool.or_assoc]
      simp [opens, hy]
    · have hopens : opens (y :: z :: xs ++ ys) = opens (y :: z :: xs) := rfl
      rw [ih h, hopens, Bool.or_assoc]

theorem closureIn_cons {s : Shape} (h : isFunction s = false ∨ opens xs = false) :
    closureIn (s :: xs) = closureIn xs := by
  rcases h with h | h <;> simp [closureIn, h]

theorem closureIn_append_of_not_isFunction (h : ∀ s ∈ xs, isFunction s = false) :
    closureIn (xs ++ ys) = closureIn ys := by
  induction xs with
  | nil => rfl
  | cons x xs ih =>
    rw [cons_append, closureIn_cons (.inl (h x mem_cons_self))]
    exact ih fun s hs => h s (mem_cons_of_mem x hs)

theorem closureIn_of_not_isFunction (h : ∀ s ∈ xs, isFunction s = false) :
    closureIn xs = false := by
  rw [← append_nil xs, closureIn_append_of_not_isFunction h]
  rfl

end

/-- Lists are searched item by item. -/
theorem closureIn_intercalate (parts : List (List Shape)) :
    closureIn ([mark ","].intercalate parts) = parts.any closureIn := by
  induction parts with
  | nil => rfl
  | cons part parts ih =>
    cases parts with
    | nil => simp [List.intercalate]
    | cons next parts =>
      have hsplit : [mark ","].intercalate (part :: next :: parts) =
          part ++ mark "," :: [mark ","].intercalate (next :: parts) := by
        simp [List.intercalate]
      have hcomma : ∀ shapes, closureIn (mark "," :: shapes) = closureIn shapes := fun _ => rfl
      rw [hsplit, closureIn_append rfl, hcomma, ih]
      rfl

/-! ## The pieces -/

/-- Behind a stretch of code comes a literal or nothing. -/
theorem significant_of_cut (h : Cut ts first literals) :
    ∃ shapes, significant ts = significant first ++ shapes ∧ closedHead shapes := by
  induction h with
  | nil => exact ⟨[], rfl, rfl⟩
  | @token t _ _ _ _ _ ih =>
    obtain ⟨shapes, hsplit, hclosed⟩ := ih
    exact ⟨shapes, by rw [significant_cons, significant_cons, hsplit, append_assoc], hclosed⟩
  | @literal l rest _ _ hstarts _ _ _ =>
    have hkind : l.keyword.kind = .keyword .functionKw :=
      eq_of_beq (Bool.and_eq_true_iff.1 hstarts).1
    have hplain : l.keyword.isTrivia = false := by rw [Token.isTrivia, hkind]; rfl
    refine ⟨_, (nil_append _).symm, ?_⟩
    rw [Literal.tokens, cons_append, significant_cons, hplain, hkind]
    rfl

/-- No closure starts in a stretch between the literals. -/
theorem closureIn_of_cut (h : Cut ts first literals) : closureIn (significant first) = false ∧
      ∀ q ∈ literals, closureIn (significant q.2) = false := by
  induction h with
  | nil => exact ⟨rfl, by simp⟩
  | @token t rest first _ hplain hrest ih =>
    refine ⟨?_, ih.2⟩
    obtain ⟨shapes, hsplit, hclosed⟩ := significant_of_cut hrest
    rw [startsAt, startsAfter_eq, hsplit, opens_append hclosed] at hplain
    rw [significant_cons]
    split
    · exact ih.1
    · have hthis : (isFunction (t.kind, t.text) && opens (significant first)) = false := hplain
      rw [singleton_append, closureIn, hthis, ih.1]
      rfl
  | literal _ _ _ ih =>
    refine ⟨rfl, fun q hq => ?_⟩
    rcases mem_cons.1 hq with rfl | hq
    · exact ih.1
    · exact ih.2 q hq

theorem closedHead_word (b : Before) (text rest : Text) (shapes : List Shape) :
    closedHead ((wordKind b text rest, text) :: shapes) := by
  have hkind : wordKind b text rest ≠ .punctuation := by
    rcases wordKind_cases b text rest with hkind | ⟨_, hkind⟩ <;> simp [hkind]
  simp [closedHead, mark, hkind]

/-- The helper class has no closures. -/
theorem closureIn_class (helper : Text) : closureIn (classShapes helper) = false ∧
    closedLast (classShapes helper) := by
  obtain ⟨hcheck, hopening, hcreate, hinvoke⟩ := endsWithToken_class
  obtain ⟨hcheck, _, _⟩ := first?_codeTokens hcheck
  obtain ⟨hopening, _, _⟩ := first?_codeTokens hopening
  obtain ⟨hcreate, hafter, _⟩ := first?_codeTokens hcreate
  obtain ⟨hinvoke, _, hlast⟩ := first?_codeTokens hinvoke
  rw [first?_eq_none] at hcheck hopening hcreate hinvoke
  rw [startsAfter_eq] at hafter
  rw [classShapes, classShapesThen, append_nil]
  generalize significant (codeTokens classCheck) = check at hcheck ⊢
  generalize significant (codeTokens classOpening) = opening at hopening ⊢
  generalize significant (codeTokens classCreate) = create at hcreate hafter ⊢
  generalize codeTokens classInvoke = invoke at hinvoke hlast ⊢
  have hend : (significant invoke).getLast? = some (mark "\x7d") := by
    obtain ⟨t, ht, hshape⟩ := Option.map_eq_some_iff.1 hlast
    obtain ⟨init, rfl⟩ := getLast?_eq_some_iff.1 ht
    have hplain : t.isTrivia = false := by rw [Token.isTrivia, (Prod.mk.inj hshape).1]; rfl
    rw [significant_append, significant_cons, hplain, hshape]
    simp
  constructor
  · have hstring : ∀ text shapes, closureIn ((.stringLiteral, text) :: shapes) = closureIn shapes :=
      fun _ _ => closureIn_cons (.inl rfl)
    have hword : opens (create ++ (.stringLiteral, '"' :: classReturn helper ++ ['"']) ::
        significant invoke) = false := by
      rw [opens_append rfl, hafter]
    rw [closureIn_append rfl, hcheck, quoted, hstring, closureIn_append (closedHead_word _ _ _ _),
      hopening, closureIn_cons (.inr hword), closureIn_append rfl, hcreate, hstring, hinvoke]
    rfl
  · have hgetLast : (check ++ quoted helper :: (opening ++ (wordKind {} helper [], helper) ::
        (create ++ (TokenKind.stringLiteral, '"' :: classReturn helper ++ ['"']) ::
          significant invoke))).getLast? = some (mark "\x7d") := by
      simp [getLast?_append, getLast?_cons, hend]
    rw [closedLast, hgetLast]
    rfl

theorem isFunction_captureShapes (capture : Text) :
    ∀ s ∈ captureShapes capture, isFunction s = false := by
  unfold captureShapes
  split <;> simp [isFunction, mark]

/-- No closure starts in a call. -/
theorem closureIn_call (helper : Text) (c : LiftedClosure) :
    closureIn (c.callShapes helper) = false ∧ closedLast (c.callShapes helper) := by
  constructor
  · have hentries : ∀ s ∈ [mark ","].intercalate (c.captures.map entryShapes),
        isFunction s = false := by
      intro s hs
      rcases mem_intercalate hs with hs | ⟨part, hpart, hs⟩
      · rw [mem_singleton.1 hs]
        rfl
      · obtain ⟨capture, _, rfl⟩ := mem_map.1 hpart
        rcases mem_cons.1 hs with rfl | hs
        · rfl
        · rcases mem_cons.1 hs with rfl | hs
          · rfl
          · exact isFunction_captureShapes capture s hs
    have hown : ∀ s ∈ c.ownParams.flatMap (fun own =>
        [mark ",", quoted (singleQuoted own), mark ",", quoted c.args]), isFunction s = false := by
      simp only [mem_flatMap, mem_cons, not_mem_nil, or_false]
      rintro s ⟨own, _, rfl | rfl | rfl | rfl⟩ <;> rfl
    rw [LiftedClosure.callShapes]
    simp only [cons_append, nil_append, append_assoc]
    rw [closureIn_cons (.inr rfl)]
    refine closureIn_of_not_isFunction ?_
    simp only [forall_mem_cons, forall_mem_append]
    exact ⟨rfl, rfl, rfl, rfl, rfl, rfl, rfl, hentries, rfl, hown, rfl, by simp⟩
  · have hgetLast : (c.callShapes helper).getLast? = some (mark ")") := by
      rw [LiftedClosure.callShapes, getLast?_concat]
    rw [closedLast, hgetLast]
    rfl

/-- Trivia at the ends do not count. -/
theorem significant_core (ts : List Token) : significant ts = significant (core ts) := by
  obtain ⟨before, after, hsplit, hbefore, hafter⟩ := core_split ts
  generalize core ts = inner at hsplit ⊢
  rw [hsplit, significant_append, significant_append, (foldl_white hbefore true).2.2,
    (foldl_white hafter true).2.2, nil_append, append_nil]

/-- In a named function closures start where they start in its parameters. -/
theorem closureIn_declaration (name : Text) {p : Parts} (hbody : first? p.body = none) :
    closureIn (p.declarationShapes name) = (first? p.params).isSome := by
  rw [first?_eq_none] at hbody
  have hlist : closureIn ([mark ","].intercalate (p.captures.map captureShapes ++
      if (core p.params).isEmpty then [] else [significant p.params])) =
        closureIn (significant p.params) := by
    have hcaptures : (p.captures.map captureShapes).any closureIn = false := by
      rw [any_eq_false]
      rintro shapes hshapes
      obtain ⟨capture, _, rfl⟩ := mem_map.1 hshapes
      simp [closureIn_of_not_isFunction (isFunction_captureShapes capture)]
    rw [closureIn_intercalate, any_append, hcaptures, Bool.false_or]
    split
    · next hempty =>
      rw [significant_core, List.isEmpty_iff.1 hempty]
      rfl
    · simp
  have hrest : closureIn ([mark ","].intercalate (p.captures.map captureShapes ++
      if (core p.params).isEmpty then [] else [significant p.params]) ++
        mark ")" :: mark "\x7b" :: (significant p.body ++ [mark "\x7d"])) =
        closureIn (significant p.params) := by
    rw [closureIn_append rfl, hlist, closureIn_cons (.inl rfl), closureIn_cons (.inl rfl),
      closureIn_append rfl, hbody]
    exact Bool.or_false _
  rw [isSome_first?, Parts.declarationShapes]
  simp only [append_assoc, cons_append, nil_append]
  cases p.byRef with
  | false | true => exact (closureIn_cons (.inr rfl)).trans hrest

/-! ## The whole unit -/

section

variable {helper stem : Text} {tail : List Shape} {parts : List (Parts × List Token)}

theorem closedHead_replaced (index : Nat) (htail : closedHead tail) :
    closedHead (replacedShapes helper stem index parts ++ tail) := by
  cases parts with
  | nil => exact htail
  | cons q parts => exact closedHead_word {} helper [] _

/-- Calls in place of literals leave no closure. -/
theorem closureIn_replaced (index : Nat) (htail : closedHead tail)
    (hparts : ∀ q ∈ parts, closureIn (significant q.2) = false) :
    closureIn (replacedShapes helper stem index parts ++ tail) = closureIn tail := by
  induction parts generalizing index with
  | nil => rfl
  | cons q parts ih =>
    have hrest := ih (index + 1) fun r hr => hparts r (mem_cons_of_mem q hr)
    obtain ⟨hcall, hlast⟩ := closureIn_call helper (q.1.closure (ClosureTable.nameAt stem index))
    rw [replacedShapes, append_assoc, append_assoc, closureIn_append_of_last hlast, hcall,
      closureIn_append (closedHead_replaced (index + 1) htail), hparts q mem_cons_self, hrest]
    rfl

theorem closedHead_declarations (index : Nat) :
    closedHead (declarationsShapes stem index parts) := by
  cases parts with
  | nil | cons => rfl

/-- Only parameters bring closures into the declarations. -/
theorem closureIn_declarations (index : Nat) (hparts : ∀ q ∈ parts, first? q.1.body = none) :
    closureIn (declarationsShapes stem index parts) =
      parts.any fun q => (first? q.1.params).isSome := by
  induction parts generalizing index with
  | nil => rfl
  | cons q parts ih =>
    rw [declarationsShapes, closureIn_append (closedHead_declarations (index + 1)),
      closureIn_declaration _ (hparts q mem_cons_self),
      ih (index + 1) fun r hr => hparts r (mem_cons_of_mem q hr), any_cons]

/-- Behind the first open tag closures start where they start in the parameters of the literals. -/
theorem closureIn_codeShapes (path : Path) {d : Dissected} (hhelper : isIdent helper)
    (hcode : closureIn (significant d.code) = false)
    (hstretches : ∀ q ∈ d.parts, closureIn (significant q.2) = false)
    (hbodies : ∀ q ∈ d.parts, first? q.1.body = none) :
    closureIn (d.codeShapes path helper) = d.parts.any fun q => (first? q.1.params).isSome := by
  obtain ⟨hclass, hlast⟩ := closureIn_class helper
  have htail : ∀ inCode : Bool,
      closedHead ((if inCode then [] else [(TokenKind.openTag, "<?php\n".toList)]) ++
        declarationsShapes (ClosureTable.stemOf path) 0 d.parts) ∧
      closureIn ((if inCode then [] else [(TokenKind.openTag, "<?php\n".toList)]) ++
        declarationsShapes (ClosureTable.stemOf path) 0 d.parts) =
          d.parts.any fun q => (first? q.1.params).isSome := by
    rintro (_ | _)
    · exact ⟨rfl, (closureIn_cons (.inl rfl)).trans (closureIn_declarations 0 hbodies)⟩
    · exact ⟨closedHead_declarations 0, closureIn_declarations 0 hbodies⟩
  obtain ⟨hclosed, hparams⟩ := htail d.endsInCode
  rw [Dissected.codeShapes, codeTokens_class hhelper, closureIn_append_of_last hlast, hclass,
    closureIn_append (closedHead_replaced 0 hclosed), hcode,
    closureIn_replaced 0 hclosed hstretches, hparams]
  rfl

end

/-- Code without the keyword is passed over. -/
theorem first?_append {xs ys : List Token} (h : ∀ t ∈ xs, t.isKeyword .functionKw = false) :
    first? (xs ++ ys) = first? ys := by
  induction xs with
  | nil => rfl
  | cons t xs ih =>
    have ht : startsAt t (xs ++ ys) = false := by
      rw [startsAt, h t mem_cons_self, Bool.false_and]
    rw [cons_append, first?, ht]
    exact ih fun u hu => h u (mem_cons_of_mem t hu)

end LegacyPhp.Closure

namespace LegacyPhp

open Closure Text

theorem table_eq_forUnit {path : Path} {e : Extraction} {closures : List LiftedClosure}
    (htable : e.table = ⟨ClosureTable.stemOf path, closures⟩) (hentries : e.table.entries = []) :
    e.table = .forUnit path := by
  rw [htable] at hentries ⊢
  obtain rfl : closures = [] := hentries
  rfl

/-- Lifting the closures of a unit a second time finds none and changes nothing, unless a closure
stood in the parameters of another. -/
theorem extractClosures_twice {path : Path} {helper source : Text} {e : Extraction}
    {tokens : List Token} (h : extractClosures path helper source = .ok e)
    (hlex : lexemes source = .ok tokens)
    (hpaste : e.table.entries ≠ [] → (dissect tokens).Pastable helper ∧
      ∀ tag ∈ (dissect tokens).head.getLast?, tag.text ≠ "<?".toList) :
    extractClosures path helper e.text = .ok ⟨e.text, .forUnit path⟩ ↔
      ∀ q ∈ (dissect tokens).parts, first? q.1.params = none := by
  obtain ⟨literals, hcut, hparts, htable, _⟩ := extractClosures_dissect h hlex
  by_cases hsome : e.table.entries = []
  · -- there was no literal, and the second run is the first one again
    obtain ⟨htext, _⟩ := extractClosures_of_entries h hsome
    have hnil : literals = [] := by
      rw [htable] at hsome
      cases literals with
      | nil => rfl
      | cons q literals => cases hsome
    rw [← hparts, hnil]
    refine ⟨fun _ q hq => (List.not_mem_nil hq).elim, fun _ => ?_⟩
    rw [htext, h, ← table_eq_forUnit htable hsome, ← htext]
  · obtain ⟨hp, hshort⟩ := hpaste hsome
    obtain ⟨out, hout, hshapes⟩ := lexemes_of_pastable h hsome hlex hp hshort
    have hnone : first? (throughOpenTag out).2 = none ↔
        ∀ q ∈ (dissect tokens).parts, first? q.1.params = none := by
      obtain ⟨hcode, hstretches⟩ := closureIn_of_cut hcut
      have hpieces : ∀ q ∈ (dissect tokens).parts,
          closureIn (significant q.2) = false ∧ first? q.1.body = none := by
        rw [← hparts]
        intro q hq
        obtain ⟨r, hr, rfl⟩ := List.mem_map.1 hq
        exact ⟨hstretches r hr, r.1.body_plain⟩
      have hhead : ∀ s ∈ significant (dissect tokens).head, isFunction s = false := by
        intro s hs
        obtain ⟨t, ht, rfl⟩ := List.mem_map.1 hs
        exact not_functionKw_throughOpenTag hlex t (List.mem_filter.1 ht).1
      rw [← first?_append (not_functionKw_throughOpenTag hout), throughOpenTag_append,
        first?_eq_none, hshapes, Dissected.shapes, closureIn_append_of_not_isFunction hhead,
        closureIn_codeShapes path hp.helper_ident hcode (fun q hq => (hpieces q hq).1)
          fun q hq => (hpieces q hq).2, List.any_eq_false]
      simp only [Option.isSome_iff_ne_none, ne_eq, not_not]
    rw [← hnone]
    constructor
    · intro hagain
      obtain ⟨_, tokens', hlex', hfirst⟩ := extractClosures_of_entries hagain rfl
      obtain rfl : out = tokens' := Except.ok.inj (hout.symm.trans hlex')
      exact hfirst
    · intro hfirst
      obtain ⟨again, hrun, htext, hentries⟩ := extractClosures_of_first? path helper hout hfirst
      obtain ⟨_, _, _, htable', _⟩ := extractClosures_dissect hrun hout
      rw [hrun, ← htext, ← table_eq_forUnit htable' hentries]

theorem extractClosures_twice_page :
    ∃ e, extractClosures "p.php".toList "H".toList closurePage = .ok e ∧
      e.table.entries.length = 2 ∧
      extractClosures "p.php".toList "H".toList e.text = .ok ⟨e.text, .forUnit "p.php".toList⟩ := by
  have hpage : (lexemes closurePage).toOption.any (fun tokens =>
      decide ((dissect tokens).Pastable "H".toList) &&
        (dissect tokens).head.getLast?.all (·.text != "<?".toList) &&
        (dissect tokens).parts.all fun q => (first? q.1.params).isNone) = true := by decide +kernel
  obtain ⟨e, he, hpair⟩ := Option.map_eq_some_iff.1 extractClosures_closurePage
  obtain ⟨tokens, htokens, hall⟩ := (Option.any_eq_true _ _).1 hpage
  simp only [Bool.and_eq_true, decide_eq_true_eq, List.all_eq_true,
    Option.isNone_iff_eq_none] at hall
  obtain ⟨⟨hpaste, htag⟩, hparams⟩ := hall
  have hok := eq_ok_of_toOption he
  refine ⟨e, hok, (Prod.mk.inj hpair).2,
    (extractClosures_twice hok (eq_ok_of_toOption htokens) fun _ =>
    ⟨hpaste, fun tag hmem => ?_⟩).2 hparams⟩
  rw [hmem] at htag
  simpa using htag

end LegacyPhp
