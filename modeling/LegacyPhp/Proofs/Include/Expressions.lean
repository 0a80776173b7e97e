import LegacyPhp.Include.Target
import LegacyPhp.Proofs.Closure.Shapes
import LegacyPhp.Proofs.Token.ClosingBrace
import LegacyPhp.Proofs.Token.Resume

/-!
# Expressions of inclusion directives

The expressions whose value is known without running code, as a grammar over kinds and texts of
tokens: `Denotes` is a derivation together with the value that it stands for. The reader of
`Include.Target` works from left to right instead, with a stack of open brackets.
`Denotes.operand_eq` follows a derivation with the reader, whatever stands around it, and
`denotes_of_operand` finds the derivation in a successful reading. Together they say that the reader
accepts the sentences of the grammar and nothing else, with their values.
-/

namespace LegacyPhp.Include

open Text Closure List

variable {shapes : List Shape} {pos : Nat} {expression value : Text} {t : Token} {ts : List Token}
  {level : Level} {file : Path}

/-! ## The grammar -/

/-- A summand, or summands with dots between them. -/
inductive Level where
  | operand
  | sum

/-- The tokens are an expression in the file, and this is its value. -/
inductive Denotes (file : Path) : Level → List Shape → Text → Prop
  | literal {text value : Text} (h : literalValue? text = some value) :
    Denotes file .operand [(.stringLiteral, text)] value
  | group {inner : List Shape} {value : Text} (h : Denotes file .sum inner value) :
    Denotes file .operand (mark "(" :: (inner ++ [mark ")"])) value
  | directory {word : Text} (h : sameWord word "__DIR__".toList) :
    Denotes file .operand [(.identifier, word)] (Path.directory file)
  | file {word : Text} (h : sameWord word "__FILE__".toList) :
    Denotes file .operand [(.identifier, word)] file
  | dirname {word : Text} {inner : List Shape} {value : Text}
    (hword : sameWord word "dirname".toList) (h : Denotes file .sum inner value) :
    Denotes file .operand ((.identifier, word) :: mark "(" :: (inner ++ [mark ")"]))
      (Path.directory value)
  | single {first : List Shape} {value : Text} (h : Denotes file .operand first value) :
    Denotes file .sum first value
  | dot {first more : List Shape} {value rest : Text} (h : Denotes file .operand first value)
    (hmore : Denotes file .sum more rest) :
    Denotes file .sum (first ++ mark "." :: more) (value ++ rest)

/-- No expression holds a close tag. -/
theorem Denotes.not_closeTag (h : Denotes file level shapes value) :
    ∀ shape ∈ shapes, shape.1 ≠ .closeTag := by
  induction h with
  | literal | directory | file => simp
  | group _ ih =>
    intro shape hshape
    simp only [mem_cons, mem_append, not_mem_nil, or_false] at hshape
    obtain rfl | hinner | rfl := hshape
    · simp [mark]
    · exact ih shape hinner
    · simp [mark]
  | dirname _ _ ih =>
    intro shape hshape
    simp only [mem_cons, mem_append, not_mem_nil, or_false] at hshape
    obtain rfl | rfl | hinner | rfl := hshape
    · simp
    · simp [mark]
    · exact ih shape hinner
    · simp [mark]
  | single _ ih => exact ih
  | dot _ _ ih ihmore =>
    intro shape hshape
    simp only [mem_cons, mem_append] at hshape
    obtain hfirst | rfl | hmore := hshape
    · exact ih shape hfirst
    · simp [mark]
    · exact ihmore shape hmore

/-! ## The moves of the reader -/

theorem isPunct_iff_shape {m : String} : t.isPunct m ↔ t.shape = mark m := by
  simp [Token.isPunct, Token.shape, mark]

section

variable {file : Path} {stack : List Frame} {sum value : Text} {b : Token}

alias operand_eq := operand.eq_def

alias operator_eq := operator.eq_def

theorem operand_literal (hkind : t.kind = .stringLiteral) (h : literalValue? t.text = some value) :
    operand file stack sum (t :: ts) = operator file stack (sum ++ value) ts := by
  rw [operand_eq]
  simp [hkind, h]

theorem operand_group (h : t.shape = mark "(") :
    operand file stack sum (t :: ts) = operand file (.group sum :: stack) [] ts := by
  have hpunct : t.isPunct "(" := isPunct_iff_shape.2 h
  have hkind : t.kind = .punctuation := congrArg Prod.fst h
  rw [operand_eq]
  simp [hpunct, hkind]

theorem not_isPunct_of_identifier (hkind : t.kind = .identifier) (m : String) :
    t.isPunct m = false := by
  simp [Token.isPunct, hkind]

theorem operand_directory (hkind : t.kind = .identifier)
    (h : sameWord t.text "__DIR__".toList) :
    operand file stack sum (t :: ts) = operator file stack (sum ++ Path.directory file) ts := by
  rw [operand_eq]
  simp only [hkind, not_isPunct_of_identifier hkind, h]
  rfl

theorem operand_file (hkind : t.kind = .identifier)
    (h : sameWord t.text "__FILE__".toList) :
    operand file stack sum (t :: ts) = operator file stack (sum ++ file) ts := by
  -- the two names differ, so the first test fails
  have hother : sameWord t.text "__DIR__".toList = false := by
    rw [sameWord, eq_of_beq h]
    decide
  rw [operand_eq]
  simp only [hkind, not_isPunct_of_identifier hkind, hother, h]
  rfl

theorem operand_dirname (hkind : t.kind = .identifier)
    (h : sameWord t.text "dirname".toList) (hb : b.shape = mark "(") :
    operand file stack sum (t :: b :: ts) = operand file (.dirname sum :: stack) [] ts := by
  have hdir : sameWord t.text "__DIR__".toList = false := by
    rw [sameWord, eq_of_beq h]
    decide
  have hfile : sameWord t.text "__FILE__".toList = false := by
    rw [sameWord, eq_of_beq h]
    decide
  have hpunct : b.isPunct "(" := isPunct_iff_shape.2 hb
  rw [operand_eq]
  simp only [hkind, not_isPunct_of_identifier hkind, hdir, hfile, h, hpunct]
  rfl

theorem operator_dot (h : t.shape = mark ".") :
    operator file stack sum (t :: ts) = operand file stack sum ts := by
  have hpunct : t.isPunct "." := isPunct_iff_shape.2 h
  rw [operator_eq]
  simp [hpunct]

theorem operator_close {frame : Frame} (h : t.shape = mark ")") :
    operator file (frame :: stack) sum (t :: ts) = operator file stack (frame.close sum) ts := by
  have hdot : t.isPunct "." = false := by
    refine Bool.eq_false_iff.2 fun hdot => ?_
    rw [isPunct_iff_shape, h] at hdot
    exact absurd hdot (by decide)
  have hclose : t.isPunct ")" := isPunct_iff_shape.2 h
  rw [operator_eq]
  simp [hdot, hclose]

/-- What a successful reading of a summand begins with. -/
theorem operand_cases (h : operand file stack sum ts = some value) : ∃ t rest, ts = t :: rest ∧
      ((t.kind = .stringLiteral ∧ ∃ v, literalValue? t.text = some v ∧
          operator file stack (sum ++ v) rest = some value) ∨
        (t.shape = mark "(" ∧ operand file (.group sum :: stack) [] rest = some value) ∨
        (t.kind = .identifier ∧
          (sameWord t.text "__DIR__".toList ∧
              operator file stack (sum ++ Path.directory file) rest = some value ∨
            sameWord t.text "__FILE__".toList ∧
              operator file stack (sum ++ file) rest = some value ∨
            sameWord t.text "dirname".toList ∧ ∃ b inner, rest = b :: inner ∧
              b.shape = mark "(" ∧
              operand file (.dirname sum :: stack) [] inner = some value))) := by
  rw [operand_eq] at h
  split at h
  · cases h
  next t rest =>
  refine ⟨t, rest, rfl, ?_⟩
  split at h
  · next hkind =>
    split at h
    · next v hv => exact .inl ⟨eq_of_beq hkind, v, hv, h⟩
    · cases h
  split at h
  · next hopen => exact .inr (.inl ⟨isPunct_iff_shape.1 hopen, h⟩)
  split at h
  · next hkind =>
    refine .inr (.inr ⟨eq_of_beq hkind, ?_⟩)
    split at h
    · next hword => exact .inl ⟨hword, h⟩
    split at h
    · next hword => exact .inr (.inl ⟨hword, h⟩)
    split at h
    · next hword =>
      split at h
      · cases h
      next b inner =>
      split at h
      · next hopen =>
        exact .inr (.inr ⟨hword, b, inner, rfl, isPunct_iff_shape.1 hopen, h⟩)
      · cases h
    · cases h
  · cases h

/-- What a successful reading finds behind a summand. -/
theorem operator_cases (h : operator file stack sum ts = some value) :
    (ts = [] ∧ stack = [] ∧ value = sum) ∨
      ∃ t rest, ts = t :: rest ∧
        ((t.shape = mark "." ∧ operand file stack sum rest = some value) ∨
          (t.shape = mark ")" ∧ ∃ frame outer, stack = frame :: outer ∧
            operator file outer (frame.close sum) rest = some value)) := by
  rw [operator_eq] at h
  split at h
  · split at h
    · next hempty => exact .inl ⟨rfl, List.isEmpty_iff.1 hempty, (Option.some.inj h).symm⟩
    · cases h
  next t rest =>
  refine .inr ⟨t, rest, rfl, ?_⟩
  split at h
  · next hdot => exact .inl ⟨isPunct_iff_shape.1 hdot, h⟩
  split at h
  · next hclose =>
    split at h
    · cases h
    next frame outer => exact .inr ⟨isPunct_iff_shape.1 hclose, frame, outer, rfl, h⟩
  · cases h

end

/-! ## The reader follows a derivation -/

/-- Reading an expression adds its value to the sum, whatever brackets are open and whatever
follows. -/
theorem Denotes.operand_eq (h : Denotes file level shapes value) (stack : List Frame) (sum : Text)
    (rest : List Token) (hts : ts.map Token.shape = shapes) :
    operand file stack sum (ts ++ rest) = operator file stack (sum ++ value) rest := by
  induction h generalizing stack sum rest ts with
  | literal hvalue =>
    obtain ⟨t, rfl, hshape⟩ := map_eq_singleton_iff.1 hts
    obtain ⟨hkind, rfl⟩ := Prod.mk.inj hshape
    exact operand_literal hkind hvalue
  | directory hword =>
    obtain ⟨t, rfl, hshape⟩ := map_eq_singleton_iff.1 hts
    obtain ⟨hkind, rfl⟩ := Prod.mk.inj hshape
    exact operand_directory hkind hword
  | file hword =>
    obtain ⟨t, rfl, hshape⟩ := map_eq_singleton_iff.1 hts
    obtain ⟨hkind, rfl⟩ := Prod.mk.inj hshape
    exact operand_file hkind hword
  | @group inner value _ ih =>
    obtain ⟨t, tail, rfl, hopen, htail⟩ := map_eq_cons_iff.1 hts
    obtain ⟨us, close, rfl, hus, hclose⟩ := map_eq_append_iff.1 htail
    obtain ⟨c, rfl, hc⟩ := map_eq_singleton_iff.1 hclose
    rw [cons_append, operand_group hopen, append_assoc, singleton_append,
      ih (.group sum :: stack) [] (c :: rest) hus, operator_close hc]
    rfl
  | @dirname word inner value hword _ ih =>
    obtain ⟨t, tail, rfl, hshape, htail⟩ := map_eq_cons_iff.1 hts
    obtain ⟨b, tail, rfl, hopen, htail⟩ := map_eq_cons_iff.1 htail
    obtain ⟨us, close, rfl, hus, hclose⟩ := map_eq_append_iff.1 htail
    obtain ⟨c, rfl, hc⟩ := map_eq_singleton_iff.1 hclose
    obtain ⟨hkind, rfl⟩ := Prod.mk.inj hshape
    rw [cons_append, cons_append, operand_dirname hkind hword hopen, append_assoc,
      singleton_append, ih (.dirname sum :: stack) [] (c :: rest) hus, operator_close hc]
    rfl
  | single _ ih => exact ih stack sum rest hts
  | @dot first more value tail _ _ ih ihmore =>
    obtain ⟨us, marked, rfl, hus, hmarked⟩ := map_eq_append_iff.1 hts
    obtain ⟨d, vs, rfl, hd, hvs⟩ := map_eq_cons_iff.1 hmarked
    rw [append_assoc, cons_append, ih stack sum (d :: (vs ++ rest)) hus, operator_dot hd,
      ihmore stack (sum ++ value) rest hvs, append_assoc]

/-! ## A reading is a derivation -/

/-- A successful reading begins with an expression, behind which no dot stands. -/
theorem denotes_of_operand {stack : List Frame} {sum : Text}
    (h : operand file stack sum ts = some value) :
    ∃ us rest inner, ts = us ++ rest ∧ Denotes file .sum (us.map Token.shape) inner ∧
      operator file stack (sum ++ inner) rest = some value ∧
      ∀ t, rest.head? = some t → t.shape ≠ mark "." := by
  induction hn : ts.length using Nat.strongRecOn generalizing ts stack sum with
  | ind n ih =>
    -- behind a summand the expression ends, or a dot and further summands follow
    have hgoes : ∀ us rest v, ts = us ++ rest → us ≠ [] →
        Denotes file .operand (us.map Token.shape) v →
        operator file stack (sum ++ v) rest = some value →
        ∃ us rest inner, ts = us ++ rest ∧ Denotes file .sum (us.map Token.shape) inner ∧
          operator file stack (sum ++ inner) rest = some value ∧
          ∀ t, rest.head? = some t → t.shape ≠ mark "." := by
      intro us rest v hts hne hfirst hrest
      have hshort : rest.length < n := by
        have := length_pos_iff.2 hne
        rw [← hn, hts, length_append]
        omega
      by_cases hdot : ∃ d left, rest = d :: left ∧ d.shape = mark "."
      · obtain ⟨d, left, rfl, hd⟩ := hdot
        rw [operator_dot hd] at hrest
        obtain ⟨ws, after, w, hleft, hmore, hend, hnext⟩ :=
          ih left.length (Nat.lt_of_succ_lt hshort) hrest rfl
        refine ⟨us ++ d :: ws, after, v ++ w, ?_, ?_, ?_, hnext⟩
        · rw [hts, hleft]
          simp
        · rw [map_append, map_cons, hd]
          exact .dot hfirst hmore
        · rwa [← append_assoc]
      · refine ⟨us, rest, v, hts, .single hfirst, hrest, fun t ht hshape => hdot ?_⟩
        cases rest with
        | nil => cases ht
        | cons d left =>
          obtain rfl := Option.some.inj ht
          exact ⟨d, left, rfl, hshape⟩
    -- between brackets the reading of the inside comes to the closing bracket
    have hinside : ∀ frame left, left.length < n →
        operand file (frame :: stack) [] left = some value →
        ∃ us c rest inner, left = us ++ c :: rest ∧ c.shape = mark ")" ∧
          Denotes file .sum (us.map Token.shape) inner ∧
          operator file stack (frame.close inner) rest = some value := by
      intro frame left hlength hleft
      obtain ⟨us, rest, inner, hsplit, hinner, hend, hnext⟩ := ih left.length hlength hleft rfl
      rcases operator_cases hend with ⟨_, hstack, _⟩ | ⟨c, after, rfl, hdot | hclose⟩
      · cases hstack
      · exact absurd hdot.1 (hnext c rfl)
      · obtain ⟨hc, frame', outer, hstack, hafter⟩ := hclose
        obtain ⟨rfl, rfl⟩ := cons.inj hstack
        exact ⟨us, c, after, inner, hsplit, hc, hinner, hafter⟩
    obtain ⟨t, rest, rfl, hliteral | hgroup | ⟨hkind, hword⟩⟩ := operand_cases h
    · obtain ⟨hkind, v, hv, hrest⟩ := hliteral
      refine hgoes [t] rest v rfl (by simp) ?_ hrest
      have hshape : [t].map Token.shape = [(.stringLiteral, t.text)] := by simp [Token.shape, hkind]
      rw [hshape]
      exact .literal hv
    · obtain ⟨hopen, hrest⟩ := hgroup
      obtain ⟨us, c, after, inner, rfl, hc, hinner, hafter⟩ :=
        hinside (.group sum) rest (by rw [← hn]; exact Nat.lt_succ_self _) hrest
      refine hgoes (t :: (us ++ [c])) after inner (by simp) (by simp) ?_ hafter
      rw [map_cons, map_append, hopen, map_singleton, hc]
      exact .group hinner
    have hshape : t.shape = (.identifier, t.text) := by rw [Token.shape, hkind]
    obtain ⟨hdir, hrest⟩ | ⟨hfile, hrest⟩ | ⟨hname, b, left, rfl, hopen, hrest⟩ := hword
    · refine hgoes [t] rest _ rfl (by simp) ?_ hrest
      rw [map_singleton, hshape]
      exact .directory hdir
    · refine hgoes [t] rest _ rfl (by simp) ?_ hrest
      rw [map_singleton, hshape]
      exact .file hfile
    · obtain ⟨us, c, after, inner, rfl, hc, hinner, hafter⟩ :=
        hinside (.dirname sum) left (by rw [← hn]; simp only [length_cons]; omega) hrest
      refine hgoes (t :: b :: (us ++ [c])) after _ (by simp) (by simp) ?_ hafter
      rw [map_cons, map_cons, map_append, hshape, hopen, map_singleton, hc]
      exact .dirname hname hinner

/-- The reader accepts the expressions of the grammar, with their values. -/
theorem operand_eq_some_iff :
    operand file [] [] ts = some value ↔ Denotes file .sum (ts.map Token.shape) value := by
  constructor
  · intro h
    obtain ⟨us, rest, inner, rfl, hinner, hend, hnext⟩ := denotes_of_operand h
    rcases operator_cases hend with ⟨rfl, _, rfl⟩ | ⟨t, after, rfl, hdot | hclose⟩
    · rwa [append_nil]
    · exact absurd hdot.1 (hnext t rfl)
    · obtain ⟨_, _, _, hstack, _⟩ := hclose
      cases hstack
  · intro h
    have hread := h.operand_eq [] [] [] rfl
    rw [append_nil, nil_append] at hread
    rw [hread, operator_eq]
    rfl

/-! ## Expressions in a text -/

theorem map_shape_filter (h : lexFrom true {} pos expression = .ok ts)
    (hclose : ∀ t ∈ ts, t.kind ≠ .closeTag) :
    (ts.filter isExpressionToken).map Token.shape = significant ts := by
  rw [← append_nil ts] at h
  have htags := ((chain_of_lexFrom h).inCode hclose).2
  have hfilter : ts.filter isExpressionToken = ts.filter (!·.isTrivia) := by
    refine filter_congr fun t ht => ?_
    have hend : (t.kind == .endOfInput) = false :=
      beq_eq_false_iff_ne.2 ((lexFrom_tiles h).mem (mem_append_left _ ht)).1
    have hopen : (t.kind == .openTag) = false := beq_eq_false_iff_ne.2 (htags t ht).1
    simp [isExpressionToken, hopen, hend]
  rw [hfilter]
  rfl

/-- A close tag counts, so tokens that are an expression, or count as one, hold none. -/
theorem value?_iff (h : lexFrom true {} pos expression = .ok ts) (value : Text) :
    value? file ts = some value ↔ Denotes file .sum (significant ts) value := by
  rw [value?, operand_eq_some_iff]
  constructor
  · intro hdenotes
    have hclose : ∀ t ∈ ts, t.kind ≠ .closeTag := by
      intro t ht htag
      have hcounts : isExpressionToken t := by
        simp [isExpressionToken, Token.isTrivia, htag, TokenKind.isTrivia]
      exact hdenotes.not_closeTag t.shape
        (mem_map_of_mem (mem_filter.2 ⟨ht, hcounts⟩)) htag
    rwa [← map_shape_filter h hclose]
  · intro hdenotes
    have hclose : ∀ t ∈ ts, t.kind ≠ .closeTag := by
      intro t ht htag
      have hcounts : t.isTrivia = false := by simp [Token.isTrivia, htag, TokenKind.isTrivia]
      refine hdenotes.not_closeTag t.shape ?_ htag
      exact mem_map_of_mem (mem_filter.2 ⟨ht, by rw [hcounts]; rfl⟩)
    rwa [map_shape_filter h hclose]

theorem significant_of_moved {pos' : Nat} {us : List Token}
    (h : List.Forall₂ (Moved pos pos') ts us) : significant us = significant ts := by
  induction h with
  | nil => rfl
  | cons hfirst _ ih =>
    rw [significant_cons, significant_cons, ih, Token.isTrivia, Token.isTrivia, hfirst.kind,
      hfirst.text]

theorem tokenize_expression (expression : Text) :
    tokenize ("<?php ".toList ++ expression) = (lexFrom true {} 6 expression).map fun ts =>
      ⟨.openTag, longTag, 0⟩ ::
        (ts ++ [⟨.endOfInput, [], byteLength (longTag ++ expression)⟩]) := by
  have htag : "<?php ".toList = longTag := by decide
  rw [htag, tokenize, lexemes_longTag]
  cases lexFrom true {} 6 expression <;> rfl

theorem target?_of_lexFrom (h : lexFrom true {} 6 expression = .ok ts) (file : Path) :
    target? expression file = .ok ((value? file ts).bind (targetOf file)) := by
  unfold target?
  rw [tokenize_expression, h]
  simp [Except.map, value?, isExpressionToken, Token.isTrivia, TokenKind.isTrivia]

/-- The value of a text that is an expression, and the target that it names. -/
theorem targetOf_eq_some_iff {value target : Path} :
    targetOf file value = some target ↔ value ≠ [] ∧ target =
      if Path.isAbsolute value then value else Path.append (Path.directory file) value := by
  cases value with
  | nil => simp [targetOf]
  | cons c value =>
    simp only [targetOf, isEmpty_cons, Bool.false_eq_true, if_false, Option.some.injEq,
      ne_eq, reduceCtorEq, not_false_eq_true, true_and]
    rw [eq_comm]
    split
    · next habsolute => simp [Path.append, habsolute]
    · rfl

theorem exists_value {tokens : List Token} (h : lexFrom true {} 0 expression = .ok tokens)
    (file : Path) :
    ∃ found : Option Text, target? expression file = .ok (found.bind (targetOf file)) ∧
      ∀ value, found = some value ↔ Denotes file .sum (significant tokens) value := by
  obtain ⟨moved, hmoved, hsame⟩ := lexFrom_moved h 6
  refine ⟨_, target?_of_lexFrom hmoved file, fun value => ?_⟩
  rw [value?_iff hmoved, significant_of_moved hsame]

theorem target?_of_readsAs (hread : ReadsAs true {} expression shapes)
    (hdenotes : Denotes file .sum shapes value) (hne : value ≠ []) :
    target? expression file = .ok (some
      (if Path.isAbsolute value then value else Path.append (Path.directory file) value)) := by
  obtain ⟨tokens, hlex, rfl⟩ := hread 0
  obtain ⟨found, htarget, hfound⟩ := exists_value hlex file
  rw [htarget, (hfound value).2 hdenotes]
  exact congrArg Except.ok (targetOf_eq_some_iff.2 ⟨hne, rfl⟩)

/-- An inclusion has a target exactly if its tokens are an expression of the grammar with a value
that is not empty: the value itself where it is absolute, else the value taken from the directory
of the file. White space and comments between the tokens make no difference. -/
theorem target_iff_denotes (file : Path) :
    (∀ expression target, target? expression file = .ok (some target) ↔
      ∃ tokens value, lexFrom true {} 0 expression = .ok tokens ∧
        Denotes file .sum (significant tokens) value ∧ value ≠ [] ∧ target =
          if Path.isAbsolute value then value else Path.append (Path.directory file) value) ∧
    ∀ expression expression' tokens tokens', lexFrom true {} 0 expression = .ok tokens →
      lexFrom true {} 0 expression' = .ok tokens' → significant tokens = significant tokens' →
      target? expression file = target? expression' file := by
  refine ⟨fun expression target => ?_, fun a b as bs ha hb hsame => ?_⟩
  · constructor
    · intro htarget
      cases hlex : lexFrom true {} 6 expression with
      | error e =>
        rw [target?, tokenize_expression, hlex] at htarget
        cases e <;> simp [Except.map] at htarget
      | ok ts =>
        obtain ⟨tokens, htokens, hmoved⟩ := lexFrom_moved hlex 0
        rw [target?_of_lexFrom hlex] at htarget
        obtain ⟨value, hvalue, hof⟩ := Option.bind_eq_some_iff.1 (Except.ok.inj htarget)
        refine ⟨tokens, value, htokens, ?_, targetOf_eq_some_iff.1 hof⟩
        rw [significant_of_moved hmoved]
        exact (value?_iff hlex value).1 hvalue
    · rintro ⟨tokens, value, hlex, hdenotes, hof⟩
      obtain ⟨found, htarget, hfound⟩ := exists_value hlex file
      rw [htarget, (hfound value).2 hdenotes]
      exact congrArg Except.ok (targetOf_eq_some_iff.2 hof)
  · obtain ⟨found, hfound, hvalues⟩ := exists_value ha file
    obtain ⟨found', hfound', hvalues'⟩ := exists_value hb file
    have heq : found = found' := by
      refine Option.ext fun value => ?_
      rw [hvalues, hvalues', hsame]
    rw [hfound, hfound', heq]

/-- Trivia at every place, and words in another case. -/
def spacedSum : Text := "( DIRNAME /* up */ (\n__File__ ) # here\n.\"/a.php\" )".toList

/-- The same tokens without trivia. -/
def tightSum : Text := "(DIRNAME(__File__).\"/a.php\")".toList

theorem target_iff_denotes_spaced :
    target? tightSum "/src/b.php".toList = .ok (some "/src/a.php".toList) ∧
      target? spacedSum "/src/b.php".toList = target? tightSum "/src/b.php".toList := by
  have hlex : ∀ expression ∈ [spacedSum, tightSum],
      (lexFrom true {} 0 expression).toOption.map significant =
        some [mark "(", (.identifier, "DIRNAME".toList), mark "(",
          (.identifier, "__File__".toList), mark ")", mark ".",
          (.stringLiteral, "\"/a.php\"".toList), mark ")"] :=
    forall_mem_of_all (by decide +kernel)
  obtain ⟨spaced, hspaced, hshapes⟩ := Option.map_eq_some_iff.1 (hlex spacedSum (by simp))
  obtain ⟨tight, htight, hshapes'⟩ := Option.map_eq_some_iff.1 (hlex tightSum (by simp))
  have hfile : Denotes "/src/b.php".toList .sum [(.identifier, "__File__".toList)]
      "/src/b.php".toList := .single (.file (by decide))
  have hliteral : Denotes "/src/b.php".toList .sum [(.stringLiteral, "\"/a.php\"".toList)]
      "/a.php".toList := .single (.literal (by decide))
  constructor
  · refine ((target_iff_denotes _).1 _ _).2
      ⟨tight, Path.directory "/src/b.php".toList ++ "/a.php".toList, eq_ok_of_toOption htight, ?_,
        by decide, by decide⟩
    rw [hshapes']
    exact .single (.group (.dot (.dirname (by decide) hfile) hliteral))
  · exact (target_iff_denotes _).2 _ _ spaced tight (eq_ok_of_toOption hspaced)
      (eq_ok_of_toOption htight) (hshapes.trans hshapes'.symm)

end LegacyPhp.Include
