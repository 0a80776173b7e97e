import LegacyPhp.Proofs.Closure.Parameters
import LegacyPhp.Proofs.Closure.Shapes
import LegacyPhp.Proofs.Text.Split
import Mathlib.Data.List.Infix

/-!
# The variables that a closure captures

The list of a `use` clause is written out as text, comments included, and cut at its commas. So the
captures are the variables of the list exactly if it has no comment and no variable has a blank
character in its name (`Clear`): letters beyond ASCII are part of a name, and some of them are
blank. The argument counts characters. Blanks and commas apart, the captures hold all characters of
the list (`flatten_splitCaptures`), so a comment leaves at least its first mark in them.
-/

namespace LegacyPhp.Closure

open Text
open List hiding splitOn

variable {t : Token} {source : Text}

/-! ## Lists cut at their commas -/

theorem map_filter_splitOn {sep : Char} {p : Char → Bool} (hsep : p sep) (cs : Text) :
    (splitOn sep cs).map (·.filter p) = splitOn sep (cs.filter p) := by
  induction cs with
  | nil => rfl
  | cons c cs ih =>
    obtain ⟨part, parts, hparts, hsplit⟩ := splitOn_cons sep c cs
    rw [hsplit]
    rw [hparts, map_cons] at ih
    by_cases hc : c = sep
    · rw [if_pos hc, hc, filter_cons_of_pos hsep, splitOn, if_pos rfl, ← ih]
      rfl
    · rw [if_neg hc, map_cons]
      cases hp : p c with
      | true =>
        rw [filter_cons_of_pos hp, filter_cons_of_pos hp, splitOn, if_neg hc, ← ih]
      | false =>
        rw [filter_cons_of_neg (by simp [hp]), filter_cons_of_neg (by simp [hp]), ih]

theorem flatten_splitOn (sep : Char) (cs : Text) :
    (splitOn sep cs).flatten = cs.filter (· != sep) := by
  induction cs with
  | nil => rfl
  | cons c cs ih =>
    obtain ⟨part, parts, hparts, hsplit⟩ := splitOn_cons sep c cs
    rw [hparts] at ih
    rw [hsplit]
    by_cases hc : c = sep <;> simpa [hc] using ih

theorem splitCaptures_eq (list : Text) :
    splitCaptures list = (splitOn ',' (list.filter (!isBlank ·))).filter (!·.isEmpty) := by
  rw [splitCaptures, map_filter_splitOn rfl]

theorem flatten_splitCaptures (list : Text) :
    (splitCaptures list).flatten = (list.filter (!isBlank ·)).filter (· != ',') := by
  rw [splitCaptures_eq, flatten_filter_not_isEmpty, flatten_splitOn]

theorem splitCaptures_join {parts : List Text}
    (h : ∀ part ∈ parts, part ≠ [] ∧ ',' ∉ part ∧ ∀ c ∈ part, isBlank c = false) :
    splitCaptures (join [','] parts) = parts := by
  cases parts with
  | nil => rfl
  | cons first parts =>
    have hcut : ∀ part ∈ first :: parts, part.filter (!isBlank ·) = part := fun part hpart =>
      filter_eq_self.2 fun c hc => by rw [(h part hpart).2.2 c hc]; rfl
    have hsplit : (first :: parts).flatMap (splitOn ',') = first :: parts := by
      rw [flatMap_congr fun part hpart => splitOn_of_not_mem (h part hpart).2.1]
      exact flatMap_singleton' _
    rw [splitCaptures, splitOn_join (cons_ne_nil _ _), hsplit, map_congr_left hcut,
      map_id', filter_eq_self]
    intro part hpart
    simpa using (h part hpart).1

/-! ## The tokens of a list -/

/-- No comment stands among the tokens, and no variable has a blank character in its name. -/
def Clear (ts : List Token) : Prop :=
  ∀ t ∈ ts, t.kind ≠ .comment ∧ t.kind ≠ .docComment ∧
    (t.kind = .variable → ∀ c ∈ t.text, isBlank c = false)

/-- The characters of a token fit its kind, variables included. -/
def Spelt (t : Token) : Prop :=
  t.WellFormed ∧ (t.kind = .variable → ∃ name, t.text = '$' :: name ∧ isIdent name)

/-- A captured variable as an entry of an array under its name. -/
def Binding.entry (v : Binding) : Text :=
  '\'' :: v.name.text.tail ++ "' => ".toList ++ v.text

variable {vars : List Binding} {ts : List Token}

theorem Binding.isCapture_text {v : Binding} (h : Spelt v.name) :
    isCapture v.text ∧ captureName v.text = v.name.text.tail ∧ v.text ≠ [] := by
  obtain ⟨name, htext, hname⟩ := h.2 v.name_fits
  unfold Binding.text
  rw [htext]
  split <;> exact ⟨hname, rfl, cons_ne_nil _ _⟩

theorem Binding.forall_mem_text {p : Char → Prop} (v : Binding) (hamp : p '&') :
    (∀ c ∈ v.text, p c) ↔ ∀ c ∈ v.name.text, p c := by
  unfold Binding.text
  split
  · rw [singleton_append, forall_mem_cons]
    exact and_iff_right hamp
  · rfl

theorem serialize_commaList (h : CommaList Binding.tokens vars ts) :
    serialize ts = join [','] (vars.map Binding.text) ∧ ∀ v ∈ vars, v.name ∈ ts := by
  have htokens : ∀ v : Binding, serialize v.tokens = v.text ∧ v.name ∈ v.tokens := by
    intro v
    refine ⟨?_, mem_append_right _ mem_cons_self⟩
    unfold Binding.tokens Binding.text
    cases href : v.reference with
    | none => simp
    | some mark => simp [text_of_isPunct (v.reference_fits mark href)]
  induction h with
  | nil => exact ⟨rfl, fun v hv => absurd hv not_mem_nil⟩
  | single v => simp [htokens v]
  | cons v hcomma _ ih =>
    have htext : _ = [','] := text_of_isPunct hcomma
    constructor
    · rw [serialize_append, serialize_cons, ih.1, (htokens v).1, htext, map_cons, map_cons]
      rw [map_cons, join_cons_cons]
    · rw [forall_mem_cons]
      exact ⟨mem_append_left _ (htokens v).2,
        fun w hw => mem_append_right _ (mem_cons_of_mem _ (ih.2 w hw))⟩

theorem countP_serialize (p : Char → Bool) (ts : List Token) :
    (serialize ts).countP p = (serialize (ts.filter (!·.isTrivia))).countP p +
      (serialize (ts.filter (·.isTrivia))).countP p := by
  induction ts with
  | nil => rfl
  | cons t ts ih => cases ht : t.isTrivia <;> simp [ht, ih] <;> omega

theorem filter_serialize (hts : ∀ t ∈ ts, t.isTrivia → ∀ c ∈ t.text, isBlank c) :
    (serialize ts).filter (!isBlank ·) =
      (serialize (ts.filter (!·.isTrivia))).filter (!isBlank ·) := by
  induction ts with
  | nil => rfl
  | cons t ts ih =>
    rw [forall_mem_cons] at hts
    have hrest := ih hts.2
    cases ht : t.isTrivia with
    | true =>
      have hblank : t.text.filter (!isBlank ·) = [] :=
        filter_eq_nil_iff.2 fun c hc => by rw [hts.1 ht c hc]; decide
      simp [ht, hrest, hblank]
    | false => simp [ht, hrest]

/-- The cut gives the variables back exactly if the list is clear. -/
theorem splitCaptures_eq_iff (hts : ∀ t ∈ ts, Spelt t)
    (h : CommaList Binding.tokens vars (ts.filter (!·.isTrivia))) :
    splitCaptures (serialize ts) = vars.map Binding.text ↔ Clear ts := by
  obtain ⟨hjoin, hmem⟩ := serialize_commaList h
  have hnames : ∀ v ∈ vars, v.name ∈ ts := fun v hv => (mem_filter.1 (hmem v hv)).1
  have hplain : (∀ v ∈ vars, ∀ c ∈ v.text, isBlank c = false) →
      splitCaptures (serialize (ts.filter (!·.isTrivia))) = vars.map Binding.text := by
    intro hblank
    rw [hjoin]
    refine splitCaptures_join (forall_mem_map.2 fun v hv => ?_)
    obtain ⟨name, htext, hname⟩ := (hts _ (hnames v hv)).2 v.name_fits
    refine ⟨(Binding.isCapture_text (hts _ (hnames v hv))).2.2, fun hcomma => ?_, hblank v hv⟩
    refine (v.forall_mem_text (p := (· ≠ ',')) (by decide)).2 ?_ _ hcomma rfl
    rw [htext, forall_mem_cons]
    refine ⟨by decide, fun c hc heq => ?_⟩
    have hchar := isIdent_plain hname c hc
    rw [heq] at hchar
    cases hchar
  constructor
  · intro heq
    have hblank : ∀ v ∈ vars, ∀ c ∈ v.text, isBlank c = false := fun v hv =>
      splitCaptures_not_blank (heq ▸ mem_map_of_mem hv)
    -- as many characters are captured with the trivia as without them
    have hink := congrArg (fun l => l.flatten.length) (heq.trans (hplain hblank).symm)
    simp only [flatten_splitCaptures, filter_filter, ← countP_eq_length_filter] at hink
    rw [countP_serialize, Nat.add_eq_left, countP_eq_zero] at hink
    have hcomment : ∀ t ∈ ts, t.isTrivia → t.text.any isCommentMark → False := by
      intro t ht htrivia hmark
      obtain ⟨c, hc, hmark⟩ := any_eq_true.1 hmark
      refine hink c (mem_flatMap.2 ⟨t, mem_filter.2 ⟨ht, htrivia⟩, hc⟩) ?_
      simp only [isCommentMark, Bool.or_eq_true, beq_iff_eq] at hmark
      rcases hmark with rfl | rfl <;> decide
    intro t ht
    refine ⟨fun hkind => ?_, fun hkind => ?_, fun hkind c hc => ?_⟩
    · have hform := (hts t ht).1
      rw [Token.WellFormed, hkind] at hform
      exact hcomment t ht (by rw [Token.isTrivia, hkind]; rfl) hform
    · have hform := (hts t ht).1
      rw [Token.WellFormed, hkind] at hform
      exact hcomment t ht (by rw [Token.isTrivia, hkind]; rfl) hform
    · have hmem : c ∈ join [','] (vars.map Binding.text) := hjoin ▸ mem_flatMap.2
        ⟨t, mem_filter.2 ⟨ht, by rw [Token.isTrivia, hkind]; rfl⟩, hc⟩
      rcases mem_intercalate hmem with hcomma | ⟨part, hpart, hc⟩
      · rw [mem_singleton.1 hcomma]
        decide
      · obtain ⟨v, hv, rfl⟩ := mem_map.1 hpart
        exact hblank v hv c hc
  · intro hclear
    have hwhite : ∀ t ∈ ts, t.isTrivia → ∀ c ∈ t.text, isBlank c := by
      intro t ht htrivia c hc
      have hform := (hts t ht).1
      obtain ⟨hcomment, hdoc, _⟩ := hclear t ht
      unfold Token.WellFormed at hform
      unfold Token.isTrivia TokenKind.isTrivia at htrivia
      split at htrivia
      · next hkind =>
        rw [hkind] at hform
        exact isBlank_of_isSpace (all_eq_true.1 hform.1 c hc)
      · next hkind => exact absurd hkind hcomment
      · next hkind => exact absurd hkind hdoc
      · cases htrivia
    rw [splitCaptures_eq, filter_serialize hwhite, ← splitCaptures_eq]
    exact hplain fun v hv => (v.forall_mem_text (p := (isBlank · = false)) rfl).2
      ((hclear _ (hnames v hv)).2.2 v.name_fits)

/-! ## The literals of a unit -/

theorem Cut.tokens_infix {first : List Token} {parts : List (Literal × List Token)}
    (h : Cut ts first parts) {p : Literal × List Token} (hp : p ∈ parts) : p.1.tokens <:+: ts := by
  induction h with
  | nil => cases hp
  | token _ _ ih => exact infix_cons (ih hp)
  | literal _ _ _ ih =>
    rcases mem_cons.1 hp with rfl | hp
    · exact (prefix_append _ _).isInfix
    · exact (ih hp).trans (suffix_append _ _).isInfix

theorem Literal.list_infix {l : Literal} {clause : Clause} (hclause : l.clause = some clause) :
    clause.list <:+: l.tokens := by
  refine ⟨l.keyword :: (l.reference ++ l.opening ++ l.params ++ l.closing ++ clause.keyword ++
    clause.opening), clause.closing ++ l.bodyOpening ++ l.body ++ l.bodyClosing, ?_⟩
  simp [Literal.tokens, Literal.tail, hclause, clauseTokens, Clause.tokens]

theorem spelt_of_lexemes (h : lexemes source = .ok ts) : ∀ t ∈ ts, Spelt t := by
  intro t ht
  refine ⟨(lexemes_lexed h).wellFormed t ht, fun hkind => ?_⟩
  obtain ⟨mode, memory, left, hread⟩ := (chain_of_lexemes h).reads_of_mem ht
  rw [hkind] at hread
  exact hread.variable_eq

/-- The captures of a lifted closure are the variables of its `use` clause, each with its `&`, if
and only if the clause has no comment and no variable has a blank character in its name. The
parameters of the named function then start with these variables, and the array of the call holds
them under their names. -/
theorem lifted_captures_iff {path : Path} {helper source : Text} {e : Extraction}
    (h : extractClosures path helper source = .ok e) :
    ∃ tokens first parts, lexemes source = .ok tokens ∧ Cut tokens first parts ∧
      e.table.entries = closuresOf (ClosureTable.stemOf path) 0 parts ∧
      ∀ p ∈ parts, ∀ clause ∈ p.1.clause, ∀ vars : List Binding,
        CommaList Binding.tokens vars (clause.list.filter (!·.isTrivia)) → ∀ name,
        ((p.1.closure name).captures = vars.map Binding.text ↔ Clear clause.list) ∧
        (Clear clause.list →
          (p.1.closure name).declaration = "function ".toList ++
            (if (p.1.closure name).byRef then ['&'] else []) ++ name ++ ['('] ++
            join ", ".toList (vars.map Binding.text ++ (p.1.closure name).ownParams) ++
            ") ".toList ++ (p.1.closure name).body ∧
          ∃ args, (p.1.closure name).call helper = helper ++ "::create('".toList ++ name ++
            "', array(".toList ++ join ", ".toList (vars.map Binding.entry) ++ [')'] ++ args) := by
  obtain ⟨tokens, r, hlex, hr, rfl⟩ := extractClosures_eq_ok h
  obtain ⟨code, parts, hcut, hclosures, _⟩ := liftAll_cut hr
  replace hcut := hcut.append_left (not_functionKw_throughOpenTag hlex)
  rw [throughOpenTag_append] at hcut
  refine ⟨tokens, _, parts, hlex, hcut, hclosures, ?_⟩
  intro p hp clause hclause vars hvars name
  have hts : ∀ t ∈ clause.list, Spelt t := fun t ht => spelt_of_lexemes hlex t
    ((hcut.tokens_infix hp).subset ((Literal.list_infix hclause).subset ht))
  have hcaptures : (p.1.closure name).captures = splitCaptures (serialize clause.list) := by
    have hclause : p.1.clause = some clause := hclause
    simp [Literal.closure, clauseCaptures, hclause]
  have hiff := splitCaptures_eq_iff hts hvars
  rw [hcaptures]
  refine ⟨hiff, fun hclear => ?_⟩
  have hvariables := hcaptures.trans (hiff.2 hclear)
  have hname : (p.1.closure name).name = name := rfl
  unfold LiftedClosure.declaration LiftedClosure.call
  rw [hvariables, hname]
  refine ⟨rfl, ?_⟩
  have hentry : (vars.map Binding.text).map LiftedClosure.captureEntry =
      vars.map Binding.entry := by
    rw [List.map_map]
    refine List.map_congr_left fun v hv => ?_
    have hname := (List.mem_filter.1 ((serialize_commaList hvars).2 v hv)).1
    obtain ⟨hcapture, htail, _⟩ := Binding.isCapture_text (hts _ hname)
    have hblank := (v.forall_mem_text (p := (isBlank · = false)) rfl).2
      ((hclear _ hname).2.2 v.name_fits)
    rw [Function.comp_apply, captureEntry_eq hcapture hblank, htail, Binding.entry]
    simp
  rw [hentry]
  exact ⟨_, List.append_assoc _ _ _⟩

theorem map_captures_closuresOf (stem : Text) (index : Nat) (parts : List (Literal × List Token)) :
    (closuresOf stem index parts).map LiftedClosure.captures =
      parts.map fun p => clauseCaptures p.1.clause := by
  induction parts generalizing index with
  | nil => rfl
  | cons p parts ih => exact congrArg (_ :: ·) (ih _)

/-- A clause is found by its captures, if every stretch of the tokens with these captures has the
given tokens. -/
theorem Literal.exists_clause {l : Literal} {captures : List Text} {list : List Token}
    (hl : l.tokens <:+: ts) (h : clauseCaptures l.clause = captures) (hne : captures ≠ [])
    (hts : ∀ us ∈ ts.tails, ∀ vs ∈ us.inits, splitCaptures (serialize vs) = captures →
      vs.filter (!·.isTrivia) = list) :
    ∃ clause ∈ l.clause, clause.list.filter (!·.isTrivia) = list := by
  cases hclause : l.clause with
  | none => exact absurd (hclause ▸ h).symm hne
  | some clause =>
    rw [hclause] at h
    obtain ⟨us, hstart, hend⟩ := infix_iff_prefix_suffix.1 ((Literal.list_infix hclause).trans hl)
    exact ⟨clause, rfl, hts us ((mem_tails _ _).2 hend) _ ((mem_inits _ _).2 hstart) h⟩

/-- A closure whose clause has white space and a comment, which is captured, and one whose clause
is clear. -/
def capturePage : Text :=
  "<?php function()use(& $a,$b#,\n)\x7b\x7d;function()use($c)\x7b\x7d;".toList

theorem fits_none : ∀ t ∈ (none : Option Token), t.isPunct "&" := by simp

/-- A variable of the page, read at the given place. -/
def pageVar (name : Text) (offset : Nat) : Binding :=
  ⟨none, ⟨.variable, name, offset⟩, fits_none, rfl⟩

/-- The variables of the first clause. -/
def firstVars : List Binding :=
  [⟨some ⟨.punctuation, ['&'], 20⟩, ⟨.variable, "$a".toList, 22⟩, by decide, rfl⟩,
    pageVar "$b".toList 25]

theorem lifted_captures_iff_page :
    ∃ e p q c d, extractClosures "p.php".toList "H".toList capturePage = .ok e ∧
      e.table.entries = closuresOf (ClosureTable.stemOf "p.php".toList) 0 [p, q] ∧
      c ∈ p.1.clause ∧ CommaList Binding.tokens firstVars (c.list.filter (!·.isTrivia)) ∧
      (p.1.closure ['f']).captures = ["&$a".toList, "$b#".toList] ∧ ¬ Clear c.list ∧
      d ∈ q.1.clause ∧
      CommaList Binding.tokens [pageVar "$c".toList 48] (d.list.filter (!·.isTrivia)) ∧
      (q.1.closure ['f']).captures = ["$c".toList] ∧ Clear d.list ∧
      ∃ args, (q.1.closure ['f']).call "H".toList =
        "H::create('f', array('c' => $c".toList ++ args := by
  have hrun : (extractClosures "p.php".toList "H".toList capturePage).toOption.map
      (fun e => e.table.entries.map LiftedClosure.captures) =
        some [["&$a".toList, "$b#".toList], ["$c".toList]] := by
    decide +kernel
  have hstretch : (lexemes capturePage).toOption.all fun ts =>
      (∀ us ∈ ts.tails, ∀ vs ∈ us.inits,
        splitCaptures (serialize vs) = ["&$a".toList, "$b#".toList] →
        vs.filter (!·.isTrivia) =
          firstVars[0].tokens ++ ⟨.punctuation, [','], 24⟩ :: firstVars[1].tokens) ∧
      ∀ us ∈ ts.tails, ∀ vs ∈ us.inits, splitCaptures (serialize vs) = ["$c".toList] →
        vs.filter (!·.isTrivia) = (pageVar "$c".toList 48).tokens := by
    decide +kernel
  obtain ⟨e, he, hcaptures⟩ := Option.map_eq_some_iff.1 hrun
  have hok := eq_ok_of_toOption he
  obtain ⟨tokens, first, parts, hlex, hcut, hentries, hclauses⟩ := lifted_captures_iff hok
  rw [hlex] at hstretch
  obtain ⟨hfirst, hsecond⟩ := of_decide_eq_true hstretch
  rw [hentries, map_captures_closuresOf] at hcaptures
  obtain ⟨p, rest, rfl, hp, hrest⟩ := map_eq_cons_iff.1 hcaptures
  obtain ⟨q, rfl, hq⟩ := map_eq_singleton_iff.1 hrest
  obtain ⟨c, hc, hlist⟩ :=
    Literal.exists_clause (hcut.tokens_infix (by simp)) hp (cons_ne_nil _ _) hfirst
  obtain ⟨d, hd, hlist'⟩ :=
    Literal.exists_clause (hcut.tokens_infix (by simp)) hq (cons_ne_nil _ _) hsecond
  have hvars : CommaList Binding.tokens firstVars (c.list.filter (!·.isTrivia)) :=
    hlist ▸ .cons _ (by decide) (.single _)
  have hvars' : CommaList Binding.tokens [pageVar "$c".toList 48] (d.list.filter (!·.isTrivia)) :=
    hlist' ▸ .single _
  have hiff := (hclauses p (by simp) c hc _ hvars ['f']).1
  obtain ⟨hiff', hclear⟩ := hclauses q (by simp) d hd _ hvars' ['f']
  refine ⟨e, p, q, c, d, hok, hentries, hc, hvars, hp, ?_, hd, hvars', hq, hiff'.1 hq, ?_⟩
  · exact fun h => absurd (hp.symm.trans (hiff.2 h)) (by decide)
  · obtain ⟨args, hcall⟩ := (hclear (hiff'.1 hq)).2
    exact ⟨')' :: args, hcall.trans (append_assoc _ [')'] args)⟩

end LegacyPhp.Closure
