import LegacyPhp.Proofs.Convert.Flat
import LegacyPhp.Proofs.Convert.Layout

/-!
# The trivia that qualification leaves out

In code without namespaces, imports and separators there is nothing to flatten, and all that
qualification can do is to leave trivia out. `tidy` says which: names are put together from the
tokens that come next, so what stands between two names, between a class keyword and its name, or in
front of a comma in a list of names is lost, white space behind the keyword apart.

`run_eq_tidy` shows that the pass writes exactly the tokens that `tidy` keeps. The two read a name
differently, the pass by gathering ahead and `tidy` by looking back at the last token that is not
trivia, and the lemmas on `gather` and `fetch` bring them together.
-/

namespace LegacyPhp.Qualify

open Text Scan Drift List LegacyPhp.Stream

variable {s : State} {t : Token} {ts : List Token}

/-! ## What is left out -/

/-- What the last token that is not trivia is. -/
inductive Last where
  | other
  /-- A class keyword, or a comma in a list of class names. -/
  | head
  | name

/-- What the tokens before a place say about it. -/
structure Place where
  /-- Between the keyword `interface` and the body. -/
  header : Bool := false
  /-- In a list of class names. -/
  list : Bool := false
  last : Last := .other

namespace Place

/-- The place after a token that is not trivia. -/
def after (p : Place) (t : Token) : Place :=
  let header := !t.isPunct "\x7b" && (p.header || t.isKeyword .interfaceKw)
  if isClassContext t.kind then
    ⟨header, t.isKeyword .implementsKw || (header && t.isKeyword .extendsKw), .head⟩
  else if t.isNamePart then ⟨header, p.list, .name⟩
  else if p.list && t.isPunct "," then ⟨header, true, .head⟩
  else ⟨header, false, .other⟩

/-- The place after tokens. -/
def through (p : Place) (ts : List Token) : Place :=
  (ts.filter (!·.isTrivia)).foldl after p

/-- Whether a name comes next, or a comma of the list. -/
def goesOn (p : Place) (ts : List Token) : Bool :=
  isNext Token.isNamePart ts || (p.list && isNext (·.isPunct ",") ts)

/-- Whether the trivia at the front of the tokens holds white space. -/
def spaceAhead (ts : List Token) : Bool :=
  (ts.takeWhile Token.isTrivia).any (·.kind == .whitespace)

/-- Whether the trivia `t` with `ts` after it is left out. Behind a name everything is, if the names
go on. Behind a keyword or a comma white space stays, and so do comments that neither a name nor
white space follows. -/
def leavesOut (p : Place) (t : Token) (ts : List Token) : Bool :=
  match p.last with
  | .other => false
  | .head => t.kind != .whitespace && (p.goesOn ts || spaceAhead ts)
  | .name => p.goesOn ts

end Place

/-- The tokens without the trivia that is left out. -/
def tidy (p : Place) : List Token → List Token
  | [] => []
  | t :: ts =>
    if t.isTrivia then if p.leavesOut t ts then tidy p ts else t :: tidy p ts
    else t :: tidy (p.after t) ts

theorem drops_tidy (p : Place) (ts : List Token) : Drops ts (tidy p ts) := by
  induction ts generalizing p with
  | nil => exact .nil
  | cons t ts ih =>
    unfold tidy
    split
    · next ht =>
      split
      · exact .drop ht (ih p)
      · exact .keep t (ih p)
    · exact .keep t (ih _)

theorem Place.through_cons (p : Place) (t : Token) (ts : List Token) :
    p.through (t :: ts) = (p.through [t]).through ts := by
  unfold through
  rw [← foldl_append, ← filter_append]
  rfl

theorem length_tidy (p : Place) (ts : List Token) : (tidy p ts).length ≤ ts.length := by
  induction ts generalizing p with
  | nil => exact Nat.le_refl _
  | cons t ts ih =>
    unfold tidy
    split
    · split
      · exact Nat.le_succ_of_le (ih p)
      · exact Nat.succ_le_succ (ih p)
    · exact Nat.succ_le_succ (ih _)

theorem tidy_cons_eq_self_iff (p : Place) (t : Token) (ts : List Token) :
    tidy p (t :: ts) = t :: ts ↔
      (t.isTrivia → p.leavesOut t ts = false) ∧ tidy (p.through [t]) ts = ts := by
  cases ht : t.isTrivia with
  | false => simp [tidy, ht, Place.through]
  | true =>
    have hthrough : p.through [t] = p := by simp [Place.through, ht]
    cases hleaves : p.leavesOut t ts with
    | false => simp [tidy, ht, hleaves, hthrough]
    | true =>
      have hlength := length_tidy p ts
      simp only [tidy, ht, hleaves, if_true]
      constructor
      · intro heq
        rw [heq, length_cons] at hlength
        omega
      · rintro ⟨hfalse, _⟩
        exact absurd (hfalse trivial) (by decide)

/-- Nothing changes exactly if no trivia stands where it is left out. -/
theorem tidy_eq_self_iff (p : Place) (ts : List Token) :
    tidy p ts = ts ↔ ∀ before t rest, ts = before ++ t :: rest → t.isTrivia →
      (p.through before).leavesOut t rest = false := by
  induction ts generalizing p with
  | nil => simp [tidy]
  | cons t ts ih =>
    rw [tidy_cons_eq_self_iff, ih]
    constructor
    · rintro ⟨hhead, htail⟩ before u rest hsplit
      cases before with
      | nil =>
        obtain ⟨rfl, rfl⟩ := cons.inj hsplit
        exact hhead
      | cons v before =>
        obtain ⟨rfl, hts⟩ := cons.inj hsplit
        rw [Place.through_cons]
        exact htail before u rest hts
    · intro h
      refine ⟨h [] t ts rfl, fun before u rest hts => ?_⟩
      rw [← Place.through_cons]
      exact h (t :: before) u rest (by rw [hts, cons_append])

/-! ## Names behind a keyword -/

theorem not_brace_of_isNamePart (h : t.isNamePart) : t.isPunct "\x7b" = false := by
  refine Bool.eq_false_iff.2 fun hbrace => ?_
  rcases Bool.or_eq_true_iff.1 h with hkind | hmark
  · simp [Token.isPunct, eq_of_beq hkind] at hbrace
  · simp [Token.isPunct, text_of_isPunct hmark] at hbrace

section

variable (header list : Bool) (ts : List Token)

theorem Place.after_name (h : t.isNamePart) (last : Last) :
    (⟨header, list, last⟩ : Place).after t = ⟨header, list, .name⟩ := by
  obtain ⟨hinterface, hcontext⟩ := isKeyword_of_isNamePart h .interfaceKw
  simp [after, hcontext, h, hinterface, not_brace_of_isNamePart h]

theorem Place.after_comma (h : t.isPunct ",") :
    (⟨header, true, .name⟩ : Place).after t = ⟨header, true, .head⟩ := by
  have hkind : t.kind = .punctuation := by
    simp only [Token.isPunct, Bool.and_eq_true, beq_iff_eq] at h
    exact h.1
  simp [after, Token.isNamePart, Token.isPunct, Token.isKeyword, hkind, isClassContext,
    text_of_isPunct h]

theorem isEmpty_gather_whitespace :
    (gather (·.kind == .whitespace) ts).1.isEmpty = !Place.spaceAhead ts := by
  induction ts with
  | nil => rfl
  | cons t ts ih =>
    rw [gather_cons]
    unfold Place.spaceAhead at ih ⊢
    rw [takeWhile_cons]
    cases hspace : t.kind == .whitespace with
    | true => simp [Token.isTrivia, eq_of_beq hspace, TokenKind.isTrivia]
    | false =>
      cases t.isTrivia with
      | false => rfl
      | true =>
        cases hempty : (gather (·.kind == .whitespace) ts).1.isEmpty with
        | true | false => simpa [hempty, hspace] using ih

/-- Behind a keyword or comma the white space stays. What is left behaves as behind a name. -/
theorem tidy_head : tidy ⟨header, list, .head⟩ ts =
      (gather (·.kind == .whitespace) ts).1 ++
        tidy ⟨header, list, .name⟩ (gather (·.kind == .whitespace) ts).2 := by
  induction ts with
  | nil => rfl
  | cons t ts ih =>
    have hempty := isEmpty_gather_whitespace ts
    rw [gather_cons]
    cases hspace : t.kind == .whitespace with
    | true =>
      have ht : t.isTrivia := by simp [Token.isTrivia, eq_of_beq hspace, TokenKind.isTrivia]
      have hstays : (⟨header, list, .head⟩ : Place).leavesOut t ts = false := by
        simp [Place.leavesOut, eq_of_beq hspace]
      simp [tidy, ht, hstays, ih]
    | false =>
      cases ht : t.isTrivia with
      | false => simp [tidy, ht]; rfl
      | true =>
        cases hahead : Place.spaceAhead ts with
        | true =>
          -- white space follows, so the comment is passed over
          have hleft : (⟨header, list, .head⟩ : Place).leavesOut t ts := by
            simp [Place.leavesOut, hspace, hahead, bne]
          rw [hahead] at hempty
          simp [tidy, ht, hleft, hempty, ih]
        | false =>
          rw [hahead] at hempty
          rw [gather_eq_of_isEmpty hempty] at ih
          have hsame : (⟨header, list, .head⟩ : Place).leavesOut t ts =
              (⟨header, list, .name⟩ : Place).leavesOut t ts := by
            simp [Place.leavesOut, hspace, hahead, bne, Place.goesOn]
          have hrest : tidy ⟨header, list, .head⟩ ts = tidy ⟨header, list, .name⟩ ts := ih
          simp [tidy, ht, hsame, hempty, hrest]

/-- Names stay, and the trivia between them does not. -/
theorem tidy_name : tidy ⟨header, list, .name⟩ ts =
      (gather Token.isNamePart ts).1 ++
        tidy ⟨header, list, .name⟩ (gather Token.isNamePart ts).2 := by
  induction ts with
  | nil => rfl
  | cons t ts ih =>
    rw [gather_cons]
    cases hname : t.isNamePart with
    | true =>
      have ht := Token.not_isTrivia_of_isNamePart hname
      simp [tidy, ht, Place.after_name header list hname, ih]
    | false =>
      cases hmore : (t.isTrivia && !(gather Token.isNamePart ts).1.isEmpty) with
      | false => simp
      | true =>
        simp only [Bool.and_eq_true, Bool.not_eq_true'] at hmore
        have hnext : isNext Token.isNamePart ts := by
          have := isEmpty_gather (fun _ => Token.not_isTrivia_of_isNamePart) ts
          rw [hmore.2] at this
          simpa using this.symm
        have hleft : (⟨header, list, .name⟩ : Place).leavesOut t ts := by
          simp [Place.leavesOut, Place.goesOn, hnext]
        simp [tidy, hmore.1, hleft, ih]

/-- The trivia before a comma of the list does not stay. -/
theorem tidy_comma {ts rest : List Token} {comma : Token}
    (h : fetch (·.isPunct ",") ts = some (comma, rest)) :
    tidy ⟨header, true, .name⟩ ts = comma :: tidy ⟨header, true, .head⟩ rest := by
  induction ts with
  | nil => cases h
  | cons t ts ih =>
    rw [fetch_cons] at h
    cases ht : t.isTrivia with
    | true =>
      rw [ht, if_pos rfl] at h
      have hnext : isNext (·.isPunct ",") ts := by
        rw [← isSome_fetch, h]
        rfl
      have hleft : (⟨header, true, .name⟩ : Place).leavesOut t ts := by
        simp [Place.leavesOut, Place.goesOn, hnext]
      simp [tidy, ht, hleft, ih h]
    | false =>
      simp only [ht, Bool.false_eq_true, if_false] at h
      split at h
      · next hcomma =>
        cases h
        simp [tidy, ht, Place.after_comma header hcomma]
      · cases h

/-- Where the names do not go on, the place is like any other. -/
theorem tidy_end (h : (⟨header, list, .name⟩ : Place).goesOn ts = false) :
    tidy ⟨header, list, .name⟩ ts = tidy ⟨header, false, .other⟩ ts := by
  induction ts with
  | nil => rfl
  | cons t ts ih =>
    unfold Place.goesOn at h
    rw [isNext_cons, isNext_cons] at h
    cases ht : t.isTrivia with
    | true =>
      rw [ht, if_pos rfl, if_pos rfl] at h
      have hstays : (⟨header, list, .name⟩ : Place).leavesOut t ts = false := h
      have hother : (⟨header, false, .other⟩ : Place).leavesOut t ts = false := rfl
      simp [tidy, ht, hstays, hother, ih h]
    | false =>
      simp only [ht, Bool.false_eq_true, if_false, Bool.or_eq_false_iff] at h
      have hafter : (⟨header, list, .name⟩ : Place).after t =
          (⟨header, false, .other⟩ : Place).after t := by
        simp [Place.after, h.1, h.2]
      simp [tidy, ht, hafter]

end

/-! ## The pass keeps what `tidy` keeps -/

/-- Tokens without anything to flatten. -/
structure FlatTokens (ts : List Token) : Prop where
  not_namespace : ∀ t ∈ ts, t.isKeyword .namespaceKw = false
  /-- Only closures have a `use`. -/
  use_captures : ∀ t rest, t :: rest <:+ ts → t.isKeyword .useKw →
    isNext (·.isPunct "(") rest
  not_separator : ∀ t ∈ ts, t.isPunct "\\" = false
  not_in_prose : ∀ t ∈ ts, t.kind = .comment ∨ t.kind = .docComment ∨ t.kind = .stringLiteral →
    '\\' ∉ t.text

theorem FlatTokens.of_suffix {us : List Token} (h : FlatTokens ts) (hus : us <:+ ts) :
    FlatTokens us where
  not_namespace t ht := h.not_namespace t (hus.subset ht)
  use_captures t rest hrest := h.use_captures t rest (hrest.trans hus)
  not_separator t ht := h.not_separator t (hus.subset ht)
  not_in_prose t ht := h.not_in_prose t (hus.subset ht)

theorem flatTokens_cons : FlatTokens (t :: ts) ↔
      (t.isKeyword .namespaceKw = false ∧
        (t.isKeyword .useKw → isNext (·.isPunct "(") ts) ∧
        t.isPunct "\\" = false ∧
        (t.kind = .comment ∨ t.kind = .docComment ∨ t.kind = .stringLiteral → '\\' ∉ t.text)) ∧
      FlatTokens ts := by
  constructor
  · intro h
    exact ⟨⟨h.not_namespace t mem_cons_self, h.use_captures t ts (suffix_refl _),
      h.not_separator t mem_cons_self, h.not_in_prose t mem_cons_self⟩,
      h.of_suffix (suffix_cons t ts)⟩
  · rintro ⟨⟨hnamespace, huse, hseparator, hprose⟩, hts⟩
    refine ⟨forall_mem_cons.2 ⟨hnamespace, hts.not_namespace⟩, fun v rest hsuffix => ?_,
      forall_mem_cons.2 ⟨hseparator, hts.not_separator⟩,
      forall_mem_cons.2 ⟨hprose, hts.not_in_prose⟩⟩
    rcases suffix_cons_iff.1 hsuffix with heq | hsuffix
    · obtain ⟨rfl, rfl⟩ := cons.inj heq
      exact huse
    · exact hts.use_captures v rest hsuffix

theorem flatTokens_nil : FlatTokens [] where
  not_namespace _ ht := by cases ht
  use_captures _ _ h := by cases suffix_nil.1 h
  not_separator _ ht := by cases ht
  not_in_prose _ ht := by cases ht

instance decidableFlatTokens : (ts : List Token) → Decidable (FlatTokens ts)
  | [] => isTrue flatTokens_nil
  | _ :: ts => @decidable_of_iff _ _ flatTokens_cons.symm
      (@instDecidableAnd _ _ _ (decidableFlatTokens ts))

theorem proseFrom_of_not_mem (o : ConvertOptions) (last : Option Char) {cs : Text}
    (h : '\\' ∉ cs) : proseFrom o {} last cs = cs := by
  fun_induction proseFrom o {} last cs with
  | case1 last cs m hm ih =>
    have happend := (mentionAt_append hm).1
    rw [← happend, mem_append, not_or] at h
    have hname : '\\' ∉ m.name := fun hmem => h.1 (by simp [Mention.written, hmem])
    rw [mention_of_flat (.inr (.inr fun part hpart => flatAlternative_of_not_mem hname hpart)),
      ih h.2, happend]
  | case2 => rfl
  | case3 last c rest hnone ih => rw [ih fun hmem => h (mem_cons_of_mem c hmem)]

/-- A literal without separators spells no class. -/
theorem literal_of_not_mem (o : ConvertOptions) (s : Scope) {text : Text} (h : '\\' ∉ text) :
    literal o s text = text := by
  refine literalFrom_of_none s fun rest hrest => ?_
  refine findSome?_eq_none_iff.2 fun root _ => ?_
  unfold fullNameUnder
  cases hafter : after? (dropAround '\\' root) rest with
  | none => rfl
  | some left =>
    have hleft : '\\' ∉ left := by
      intro hmem
      refine h (hrest.subset ?_)
      rw [after?_eq_some hafter]
      exact mem_append_right _ hmem
    have hsep : separatorAt (!nextIs (· == '\'') text) left = none := by
      cases hsep : separatorAt (!nextIs (· == '\'') text) left with
      | none => rfl
      | some parts =>
        obtain ⟨hmark, happend, _⟩ := separatorAt_append hsep
        refine absurd ?_ hleft
        rw [← happend]
        rcases hmark with hmark | hmark <;> simp [hmark]
    simp [hsep]

theorem not_mem_serialize_gather (hflat : FlatTokens ts) (hform : ∀ t ∈ ts, t.WellFormed) :
    '\\' ∉ serialize (gather Token.isNamePart ts).1 := by
  intro hmem
  obtain ⟨t, ht, hc⟩ := mem_flatMap.1 hmem
  obtain ⟨hts, hpart⟩ := mem_gather ht
  rcases Bool.or_eq_true_iff.1 hpart with hkind | hmark
  · have hall : t.text.all isIdentChar :=
      (hform t hts).all_isIdentChar (by simp [Token.isWord, eq_of_beq hkind])
    exact not_mem_of_all hall hc
  · rw [hflat.not_separator t hts] at hmark
    cases hmark

/-- The class names behind a keyword or a comma. -/
theorem classNames_eq_tidy (u : Source) (header list : Bool) (head : Token) (hflat : FlatTokens ts)
    (hform : ∀ t ∈ ts, t.WellFormed) :
    ∃ kept rest, classNames u {} list head ts = .ok ⟨head.text ++ serialize kept, rest⟩ ∧
      rest <:+ ts ∧
      tidy ⟨header, list, .head⟩ ts = kept ++ tidy ⟨header, false, .other⟩ rest := by
  induction hn : ts.length using Nat.strongRecOn generalizing ts head with
  | ind n ih =>
    have hspace := suffix_gather (·.kind == .whitespace) ts
    have hname := (suffix_gather Token.isNamePart
      (gather (·.kind == .whitespace) ts).2).trans hspace
    have hplain := not_mem_serialize_gather (hflat.of_suffix hspace)
      fun t ht => hform t (hspace.subset ht)
    have htidy := tidy_head header list ts
    rw [tidy_name] at htidy
    have hends := isNext_gather (fun _ => Token.not_isTrivia_of_isNamePart)
      (gather (·.kind == .whitespace) ts).2
    rw [classNames_eq]
    simp only [Stream.name, className_of_not_mem u head hplain]
    generalize (gather (·.kind == .whitespace) ts).1 = space at htidy
    generalize gather Token.isNamePart (gather (·.kind == .whitespace) ts).2 = name
      at htidy hends hname
    cases hcomma : if list then fetch (·.isPunct ",") name.2 else none with
    | none =>
      have hgoes : (⟨header, list, .name⟩ : Place).goesOn name.2 = false := by
        rw [Place.goesOn, hends, Bool.false_or, ← isSome_fetch]
        cases list with
        | false => rfl
        | true => rw [if_pos rfl] at hcomma; rw [hcomma]; rfl
      rw [tidy_end header list _ hgoes] at htidy
      exact ⟨space ++ name.1, name.2, by simp, hname, by rw [htidy, append_assoc]⟩
    | some found =>
      obtain ⟨comma, left⟩ := found
      cases list with
      | false => cases hcomma
      | true =>
        rw [if_pos rfl] at hcomma
        rw [tidy_comma header hcomma] at htidy
        have hleft := (suffix_fetch hcomma).trans hname
        have hlength : left.length < n := by
          have := length_fetch hcomma
          have := hname.length_le
          omega
        obtain ⟨kept, rest, hmore, hrest, hkept⟩ := ih left.length hlength comma
          (hflat.of_suffix hleft) (fun t ht => hform t (hleft.subset ht)) rfl
        refine ⟨space ++ name.1 ++ comma :: kept, rest, ?_, hrest.trans hleft, ?_⟩
        · simp [hmore, Except.map]
        · rw [htidy, hkept]
          simp

/-- A name that no class keyword precedes. -/
theorem nameStep_eq_tidy (u : Source) (hs : s.scope = {}) (hname : t.isNamePart)
    (hflat : FlatTokens (t :: ts)) (hform : ∀ v ∈ t :: ts, v.WellFormed) (header : Bool) :
    ∃ kept rest, nameStep u s t ts = .ok ⟨serialize kept, s, rest⟩ ∧ rest <:+ ts ∧
      tidy ⟨header, false, .other⟩ (t :: ts) = kept ++ tidy ⟨header, false, .other⟩ rest := by
  have hplain := not_mem_serialize_gather hflat hform
  rw [gather_cons, if_pos hname, serialize_cons] at hplain
  have hends := isNext_gather (fun _ => Token.not_isTrivia_of_isNamePart) ts
  refine ⟨t :: (gather Token.isNamePart ts).1, (gather Token.isNamePart ts).2, ?_,
    suffix_gather _ ts, ?_⟩
  · unfold nameStep
    simp only [Stream.name, hs, className_of_not_mem u t hplain]
    split <;> rfl
  · have hgoes : (⟨header, false, .name⟩ : Place).goesOn
        (gather Token.isNamePart ts).2 = false := by
      rw [Place.goesOn, hends]
      rfl
    have ht := Token.not_isTrivia_of_isNamePart hname
    rw [tidy, ht, if_neg Bool.false_ne_true, Place.after_name header false hname, tidy_name,
      tidy_end header false _ hgoes, cons_append]

theorem copied_of_flat (o : ConvertOptions) (hflat : FlatTokens (t :: ts)) :
    copied o {} t = t.text := by
  have hprose := hflat.not_in_prose t mem_cons_self
  unfold copied
  split
  · next hkind =>
    simp only [Bool.or_eq_true, beq_iff_eq] at hkind
    exact proseFrom_of_not_mem o none (hprose (hkind.imp id .inl))
  · split
    · next hkind => exact literal_of_not_mem o {} (hprose (.inr (.inr (eq_of_beq hkind))))
    · rfl

/-- A token and what it takes with it are written as `tidy` keeps them. -/
theorem step_eq_tidy (u : Source) (hs : s.scope = {}) (hflat : FlatTokens (t :: ts))
    (hform : ∀ v ∈ t :: ts, v.WellFormed) :
    ∃ kept rest, step u s t ts = .ok ⟨serialize kept, s.entering t, rest⟩ ∧ rest <:+ ts ∧
      tidy ⟨s.inInterfaceHeader, false, .other⟩ (t :: ts) =
        kept ++ tidy ⟨(s.entering t).inInterfaceHeader, false, .other⟩ rest := by
  have hnamespace := hflat.not_namespace t mem_cons_self
  have hcaptures : (t.isKeyword .useKw && !Stream.isNext (·.isPunct "(") ts) = false := by
    cases huse : t.isKeyword .useKw with
    | false => rfl
    | true => simp [hflat.use_captures t ts (suffix_refl _) huse]
  simp only [step_eq, hnamespace, hcaptures, Bool.false_eq_true, if_false]
  by_cases hcontext : isClassContext t.kind
  · obtain ⟨kept, rest, hnames, hrest, htidy⟩ := classNames_eq_tidy u
      (s.entering t).inInterfaceHeader (takesList (s.entering t) t) t
      (hflat.of_suffix (suffix_cons t ts)) fun v hv => hform v (mem_cons_of_mem t hv)
    have ht : t.isTrivia = false := by
      unfold isClassContext at hcontext
      split at hcontext <;> simp_all [Token.isTrivia, TokenKind.isTrivia]
    have hafter : (⟨s.inInterfaceHeader, false, .other⟩ : Place).after t =
        ⟨(s.entering t).inInterfaceHeader, takesList (s.entering t) t, .head⟩ := by
      rw [takesList, State.entering_header, Place.after, if_pos hcontext]
    refine ⟨t :: kept, rest, ?_, hrest, ?_⟩
    · rw [if_pos hcontext, hs, hnames]
      rfl
    · rw [tidy, ht, if_neg Bool.false_ne_true, hafter, htidy, cons_append]
  rw [if_neg hcontext]
  by_cases hname : t.isNamePart
  · have hsame : s.entering t = s := State.entering_eq (not_brace_of_isNamePart hname)
      (isKeyword_of_isNamePart hname .interfaceKw).1
    rw [if_pos hname, hsame]
    exact nameStep_eq_tidy u hs hname hflat hform _
  · rw [if_neg hname, hs, copied_of_flat u.options hflat]
    refine ⟨[t], ts, by simp, suffix_refl _, ?_⟩
    cases ht : t.isTrivia with
    | true => rw [State.entering_trivia s ht, tidy, ht, if_pos rfl]; rfl
    | false =>
      have hafter : (⟨s.inInterfaceHeader, false, .other⟩ : Place).after t =
          ⟨(s.entering t).inInterfaceHeader, false, .other⟩ := by
        rw [State.entering_header, Place.after, if_neg hcontext, if_neg hname]
        rfl
      rw [tidy, ht, if_neg Bool.false_ne_true, hafter, singleton_append]

/-- In code without anything to flatten, the pass leaves out the trivia that `tidy` leaves out, and
does nothing else. -/
theorem run_eq_tidy (u : Source) (hs : s.scope = {}) (hflat : FlatTokens ts)
    (hform : ∀ t ∈ ts, t.WellFormed) :
    run u s ts = .ok (serialize (tidy ⟨s.inInterfaceHeader, false, .other⟩ ts), {}) := by
  induction hn : ts.length using Nat.strongRecOn generalizing ts s with
  | ind n ih =>
    cases ts with
    | nil => rw [run, hs]; rfl
    | cons t ts =>
      obtain ⟨kept, rest, hstep, hrest, htidy⟩ := step_eq_tidy u hs hflat hform
      have hsuffix := hrest.trans (suffix_cons t ts)
      have hlength : rest.length < n := by
        have := hrest.length_le
        rw [length_cons] at hn
        omega
      have hmore := ih rest.length hlength (s := (s.entering t).wrote (serialize kept))
        (by simpa [State.wrote, State.entering_scope] using hs) (hflat.of_suffix hsuffix)
        (fun v hv => hform v (hsuffix.subset hv)) rfl
      rw [run_cons hstep, hmore, htidy, serialize_append]
      rfl

end LegacyPhp.Qualify

namespace LegacyPhp

open Text Drift Qualify

/-- Qualification of code without anything to flatten leaves out trivia and nothing else, and which
trivia it is does not depend on the options. The text is unchanged exactly if no white space or
comment stands between two names, in front of a comma in a list of class names, or, white space
apart, between a class keyword or such a comma and the name or white space that follows. -/
theorem qualify_of_flatTokens (o : ConvertOptions) (path : Path) {source : Text}
    {tokens : List Token} (hlex : lexemes source = .ok tokens) (hflat : FlatTokens tokens) :
    qualify o path source = .ok ⟨serialize (tidy {} tokens), []⟩ ∧
      Drops tokens (tidy {} tokens) ∧
      (qualify o path source = .ok ⟨source, []⟩ ↔
        ∀ before t rest, tokens = before ++ t :: rest → t.isTrivia →
          (Place.through {} before).leavesOut t rest = false) := by
  have hform := (lexemes_lexed hlex).wellFormed
  have hsource := (lexemes_tiles hlex).serialize_eq
  have hqualify : qualify o path source = .ok ⟨serialize (tidy {} tokens), []⟩ := by
    simp only [qualify, lexemesOf_eq_ok.2 hlex, bind, Except.bind,
      run_eq_tidy ⟨path, source, o⟩ (s := {}) rfl hflat hform]
    rfl
  refine ⟨hqualify, drops_tidy _ _, ?_⟩
  rw [hqualify, ← tidy_eq_self_iff]
  constructor
  · intro hsame
    simp only [Except.ok.injEq, Flat.mk.injEq, and_true] at hsame
    rcases (drops_tidy {} tokens).sheds hform with hsheds | heq
    · rw [hsame, hsource] at hsheds
      exact absurd hsheds.advances (Advances.irrefl source)
    · exact heq
  · intro hsame
    rw [hsame, hsource]

/-- A comment behind a keyword, white space before a comma, a comment behind one, and a comment
that stays because neither a name nor white space follows it. -/
def flatPage : Text :=
  "<?php interface I extends A ,/*x*/B \x7b\x7d new/**/C; new /*y*/(D);".toList

theorem qualify_of_flatTokens_page :
    ∃ tokens, lexemes flatPage = .ok tokens ∧ FlatTokens tokens ∧
      qualify {} [] flatPage =
        .ok ⟨"<?php interface I extends A,B \x7b\x7d newC; new /*y*/(D);".toList, []⟩ := by
  have hrun : (lexemes flatPage).toOption.map
        (fun ts => (decide (FlatTokens ts), serialize (tidy {} ts))) =
      some (true, "<?php interface I extends A,B \x7b\x7d newC; new /*y*/(D);".toList) := by
    decide +kernel
  obtain ⟨tokens, hlex, hpair⟩ := Option.map_eq_some_iff.1 hrun
  obtain ⟨hflat, htext⟩ := Prod.mk.inj hpair
  have hok := eq_ok_of_toOption hlex
  refine ⟨tokens, hok, of_decide_eq_true hflat, ?_⟩
  rw [(qualify_of_flatTokens {} [] hok (of_decide_eq_true hflat)).1, htext]

end LegacyPhp
