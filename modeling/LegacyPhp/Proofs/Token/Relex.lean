import LegacyPhp.Closure.Extract
import LegacyPhp.Proofs.Token.Ahead
import LegacyPhp.Proofs.Token.Tags

/-!
# Reading tokens again

`Reads` says that the lexer takes a token off the front of a text, in code or outside of it. The
tokens of a source are read one after the other (`chain_of_lexFrom`), and a token that was read once
is read again before any text that does not go on with it (`Reads.of_ends`). From the last token to
the first follows what a text made of tokens of other texts is read as: `ReadsAs` gives the tokens
that are not trivia, and `ReadsAs.of_chain` puts tokens in front of what is known already.
-/

namespace LegacyPhp

open Text Scan Closure LegacyPhp.Stream List

variable {cs rest text more white : Text} {pos : Nat} {ts xs ys : List Token} {t x : Token}
  {b b' : Before} {inCode : Bool} {kind : TokenKind} {c : Char} {s : Scanned}

theorem inCodeAfter_true (t : Token) : inCodeAfter true t = (t.kind != .closeTag) := by
  unfold inCodeAfter
  split
  · next hopen => rw [eq_of_beq hopen]; rfl
  · cases hclose : t.kind == .closeTag <;> simp [hclose, bne]

theorem lexFrom_of_findOpenTag_none (h : findOpenTag (c :: cs) = .ok none) (b : Before)
    (pos : Nat) : lexFrom false b pos (c :: cs) = .ok [⟨.inlineHtml, c :: cs, pos⟩] := by
  rw [lexFrom]
  split
  · next hfail => rw [h] at hfail; cases hfail
  · rfl
  · next hsome => rw [h] at hsome; cases hsome

theorem lexFrom_of_findOpenTag_some {t : OpenTag} (h : findOpenTag cs = .ok (some t)) (b : Before)
    (pos : Nat) : lexFrom false b pos cs =
      (lexFrom true {} (pos + byteLength t.html + byteLength t.tag) t.rest).map
        ((if t.html.isEmpty then [] else [⟨.inlineHtml, t.html, pos⟩]) ++
          ⟨.openTag, t.tag, pos + byteLength t.html⟩ :: ·) := by
  cases cs with
  | nil => cases h
  | cons c cs =>
    rw [lexFrom]
    split
    · next hfail => rw [h] at hfail; cases hfail
    · next hnone => rw [h] at hnone; cases hnone
    · next hsome => rw [h] at hsome; cases hsome; rfl

/-- With the memory `b` and `rest` behind it, the lexer takes the token off the text. -/
inductive Reads : (inCode : Bool) → Before → TokenKind → Text → Text → Prop
  | code {b : Before} {pos : Nat} {kind : TokenKind} {c : Char} {cs rest : Text}
      (h : scanCode b pos c (cs ++ rest) = .ok ⟨kind, c :: cs, rest⟩) :
      Reads true b kind (c :: cs) rest
  | tag {b : Before} {taken rest : Text}
      (h : tagAfter (taken ++ rest) = .ok (some (taken, rest))) :
      Reads false b .openTag ('<' :: '?' :: taken) rest
  | html {b : Before} {c : Char} {cs rest : Text} (h : htmlGoesOn (c :: cs) rest = false) :
      Reads false b .inlineHtml (c :: cs) rest

theorem scanCode_kind (h : scanCode b pos c cs = .ok s) :
    s.kind ≠ .openTag ∧ s.kind ≠ .inlineHtml := by
  obtain ⟨kind, text, left⟩ := s
  cases scans_of_scanCode h <;> simp

namespace Reads

theorem of_scanCode (h : scanCode b pos c cs = .ok s) : Reads true b s.kind s.text s.rest := by
  obtain ⟨kind, text, rest⟩ := s
  obtain ⟨hcover, hne⟩ := scanCode_covers h
  obtain ⟨d, text, rfl⟩ := exists_cons_of_ne_nil hne
  obtain ⟨rfl, rfl⟩ := cons.inj hcover
  exact .code h

/-- Outside the code comes a tag, or the text before one or at the end. -/
theorem of_findOpenTag {found : Option OpenTag} (h : findOpenTag (c :: cs) = .ok found)
    (b : Before) :
    match found with
    | none => Reads false b .inlineHtml (c :: cs) []
    | some t => Reads false b .openTag t.tag t.rest ∧
        (t.html ≠ [] → Reads false b .inlineHtml t.html (t.tag ++ t.rest)) := by
  cases found with
  | none => exact .html (by simp [htmlGoesOn, h])
  | some t =>
    obtain ⟨taken, htag, hcs, hafter, _⟩ := findOpenTag_eq_some h
    refine ⟨htag ▸ .tag hafter, fun hne => ?_⟩
    obtain ⟨d, html, hhtml⟩ := exists_cons_of_ne_nil hne
    rw [hhtml]
    refine .html ?_
    rw [← hhtml, htag]
    simp only [htmlGoesOn, cons_append]
    rw [← hcs, h]
    simp

section

variable (h : Reads inCode b kind text rest)
include h

theorem text_ne_nil : text ≠ [] := by
  cases h <;> exact cons_ne_nil _ _

theorem not_goesOn : goesOn kind text rest = false := by
  cases h with
  | code h => exact goesOn_of_scanCode h
  | tag h => exact tagGoesOn_eq_false.2 h
  | html h => exact h

theorem of_ends (hmore : goesOn kind text more = false) :
    Reads inCode b' (kindIn b' text more kind) text more := by
  cases h with
  | code h => exact .code (scanCode_of_ends h hmore b' 0)
  | tag _ => exact .tag (tagGoesOn_eq_false.1 hmore)
  | html _ => exact .html hmore

theorem kindIn_eq : kindIn b text rest kind = kind := by
  cases h with
  | code h =>
    have hagain := scanCode_of_ends h (goesOn_of_scanCode h) b
    exact congrArg Scanned.kind (Except.ok.inj ((hagain _).symm.trans h))
  | tag | html => rfl

theorem of_ends_same (hmore : goesOn kind text more = false)
    (hseparator : nextIs (· == '\\') more = nextIs (· == '\\') rest) :
    Reads inCode b kind text more := by
  have hkind : kindIn b text more kind = kindIn b text rest kind := by
    simp only [kindIn, wordKind, hseparator]
  rw [← h.kindIn_eq, ← hkind]
  exact h.of_ends hmore

/-- The lexer goes on behind the token. -/
theorem lexFrom_eq (pos : Nat) :
    lexFrom inCode b pos (text ++ rest) =
      (lexFrom (inCodeAfter inCode ⟨kind, text, pos⟩) (b.next ⟨kind, text, pos⟩)
        (pos + byteLength text) rest).map (⟨kind, text, pos⟩ :: ·) := by
  have hkind := h.kindIn_eq
  cases h with
  | code h =>
    have hscan := scanCode_of_ends h (goesOn_of_scanCode h) b pos
    rw [hkind] at hscan
    rw [cons_append, lexFrom]
    split
    · next hfail => rw [hscan] at hfail; cases hfail
    · next hok =>
      rw [hscan] at hok
      cases hok
      rw [inCodeAfter_true]
  | tag h =>
    rw [cons_append, cons_append, lexFrom_of_findOpenTag_some (findOpenTag_open h)]
    rfl
  | html h =>
    rcases htmlGoesOn_eq_false h with ⟨rfl, hnone⟩ | ⟨taken, left, rfl, htag, hplain⟩
    · rw [append_nil, lexFrom_of_findOpenTag_none hnone, lexFrom]
      rfl
    · rw [lexFrom_of_findOpenTag_some (hplain.findOpenTag_open htag)]
      show _ = (lexFrom false _ _ ('<' :: '?' :: (taken ++ left))).map _
      rw [lexFrom_of_findOpenTag_some (findOpenTag_open htag)]
      simp only [byteLength_nil, Nat.add_zero]
      cases lexFrom true {} _ left <;> rfl

theorem inCode_iff : inCode = false ↔ kind = .openTag ∨ kind = .inlineHtml := by
  cases h with
  | code h => simp [scanCode_kind h]
  | tag | html => simp

theorem inCode_eq (hkind : kind ≠ .openTag ∧ kind ≠ .inlineHtml) : inCode := by
  simpa [hkind] using h.inCode_iff

end

theorem openTag_eq (h : Reads inCode b .openTag text rest) :
    ∃ taken, text = '<' :: '?' :: taken ∧ tagAfter (taken ++ rest) = .ok (some (taken, rest)) := by
  cases h with
  | code h => exact absurd rfl (scanCode_kind h).1
  | tag h => exact ⟨_, rfl, h⟩

/-- A token in front of `u` ends there with another text behind `u`. The first two characters
decide, and behind a short tag the first three bytes. -/
theorem ends_ahead {u : Text} (h : Reads inCode b kind text (u ++ rest))
    (hhtml : kind ≠ .inlineHtml)
    (hu : u ≠ []) (htag : kind = .openTag → text.length ≤ 3 → byteLength u < 3 →
      ∀ c ∈ more.take 2, c.toNat < 0x80)
    (hsingle : ∀ c, u = [c] → nextIs (fun c => c.isDigit || c == '.') more = false ∧
      (kind = .comment → c = '?' → nextIs (· == '>') rest = false) ∧
      (kind = .closeTag → nextIs (· == '\n') more = false)) :
    goesOn kind text (u ++ more) = false := by
  cases h with
  | html => exact absurd rfl hhtml
  | tag h =>
    refine tagGoesOn_eq_false.2 (tagAfter_ahead hu (fun hshort hbytes => htag rfl ?_ ?_) h)
    · simp only [length_cons]
      omega
    · rw [byteLength_append] at hbytes
      omega
  | code h =>
    have hends := goesOn_of_scanCode h
    obtain _ | ⟨c, _ | ⟨d, u⟩⟩ := u
    · exact absurd rfl hu
    · obtain ⟨hmore, hquestion, hbreak⟩ := hsingle c rfl
      exact goesOn_ahead_cons (cons_ne_nil _ _) (scanCode_kind h) hmore hquestion hbreak hends
    · exact goesOn_ahead (cons_ne_nil _ _) (scanCode_kind h) (by simp) hends

end Reads

theorem reads_spaces (hne : white ≠ []) (hwhite : white.all isSpace)
    (hrest : nextIs isSpace rest = false) : Reads true b .whitespace white rest := by
  obtain ⟨c, cs, rfl⟩ := exists_cons_of_ne_nil hne
  rw [all_cons, Bool.and_eq_true] at hwhite
  have hc : (c == '?') = false := by
    refine beq_eq_false_iff_ne.2 fun heq => ?_
    rw [heq] at hwhite
    cases hwhite.1
  have hscan : scanCode b 0 c (cs ++ rest) = .ok ⟨.whitespace, c :: cs, rest⟩ := by
    simp [scanCode, hc, hwhite.1, run_append_left hwhite.2 hrest, Scanned.of]
  exact .code hscan

/-- The first token of a text is read off it. -/
theorem reads_of_lexFrom (h : lexFrom inCode b pos cs = .ok (t :: ts)) :
    Reads inCode b t.kind t.text (serialize ts) := by
  cases cs with
  | nil => rw [lexFrom] at h; cases h
  | cons c cs =>
    cases inCode with
    | true =>
      rw [lexFrom] at h
      split at h
      · cases h
      · next s hs =>
        obtain ⟨more, hmore, heq⟩ := map_eq_ok h
        obtain ⟨rfl, rfl⟩ := cons.inj heq
        rw [(lexFrom_tiles hmore).serialize_eq]
        exact .of_scanCode hs
    | false =>
      rw [lexFrom] at h
      split at h
      · cases h
      · next hnone =>
        cases h
        exact Reads.of_findOpenTag hnone b
      · next found hsome =>
        obtain ⟨htag, hhtml⟩ := Reads.of_findOpenTag hsome b
        obtain ⟨more, hmore, heq⟩ := map_eq_ok h
        have hmore := (lexFrom_tiles hmore).serialize_eq
        by_cases hempty : found.html = []
        · rw [hempty] at heq
          obtain ⟨rfl, rfl⟩ := cons.inj heq
          rw [hmore]
          exact htag
        · rw [if_neg (by simpa using hempty), singleton_append] at heq
          obtain ⟨rfl, rfl⟩ := cons.inj heq
          rw [serialize_cons, hmore]
          exact hhtml hempty

theorem lexFrom_tail (h : lexFrom inCode b pos cs = .ok (t :: ts)) :
    lexFrom (inCodeAfter inCode t) (b.next t) (pos + byteLength t.text) (serialize ts) =
      .ok ts := by
  have hcs : t.text ++ serialize ts = cs := (lexFrom_tiles h).serialize_eq
  have heq := (reads_of_lexFrom h).lexFrom_eq pos
  rw [hcs, h] at heq
  obtain ⟨more, hmore, hts⟩ := map_eq_ok heq.symm
  obtain ⟨ht, rfl⟩ := cons.inj hts
  rwa [ht] at hmore

/-! ## Tokens one after the other -/

/-- The tokens are read one after the other, with `rest` behind the last. -/
def Chain (inCode : Bool) (b : Before) : List Token → Text → Prop
  | [], _ => True
  | t :: ts, rest =>
    Reads inCode b t.kind t.text (serialize ts ++ rest) ∧
      Chain (inCodeAfter inCode t) (b.next t) ts rest

theorem chain_of_lexFrom {inCode : Bool} {b : Before} {pos : Nat} {cs : Text} {xs ys : List Token}
    (h : lexFrom inCode b pos cs = .ok (xs ++ ys)) : Chain inCode b xs (serialize ys) := by
  induction xs generalizing inCode b pos cs with
  | nil => trivial
  | cons x xs ih =>
    refine ⟨?_, ih (lexFrom_tail h)⟩
    rw [← serialize_append]
    exact reads_of_lexFrom h

theorem Reads.not_html_of_tag {taken left : Text} (h : Reads false b kind text rest)
    (htext : text ++ rest = '<' :: '?' :: (taken ++ left))
    (htag : tagAfter (taken ++ left) = .ok (some (taken, left))) : kind = .openTag := by
  cases h with
  | tag _ => rfl
  | html h =>
    rw [htmlGoesOn, htext, findOpenTag_open htag] at h
    cases h

theorem htmlGoesOn_chain (h : htmlGoesOn text (serialize (x :: xs) ++ rest) = false)
    (hx : Reads false b x.kind x.text (serialize xs ++ rest))
    (hagain : Reads false b x.kind x.text (serialize xs ++ more)) :
    htmlGoesOn text (serialize (x :: xs) ++ more) = false := by
  rw [serialize_cons, append_assoc] at h ⊢
  rcases htmlGoesOn_eq_false h with ⟨hnil, _⟩ | ⟨taken, left, htext, htag, hplain⟩
  · exact absurd (append_eq_nil_iff.1 hnil).1 hx.text_ne_nil
  · rw [htext] at hplain
    rw [hx.not_html_of_tag htext htag] at hagain
    obtain ⟨taken, htag, hafter⟩ := hagain.openTag_eq
    rw [htag]
    exact htmlGoesOn_of_plain (hplain.ahead (nextIs_of_tagAfter hafter)) hafter

/-- Behind a token the tokens `xs` and then `more` stand for the tokens `xs` and then `rest`. -/
theorem goesOn_chain (hread : Reads inCode b kind text (serialize (x :: xs) ++ rest))
    (hrest : Chain (inCodeAfter inCode ⟨kind, text, 0⟩) (b.next ⟨kind, text, 0⟩) (x :: xs) rest)
    (hagain : Chain (inCodeAfter inCode ⟨kind, text, 0⟩) (b.next ⟨kind, text, 0⟩) (x :: xs) more)
    (hmore : nextIs (fun c => c.isDigit || c == '.') more = false)
    (hascii : kind = .openTag → 3 < text.length ∨ ∀ c ∈ more.take 2, c.toNat < 0x80) :
    goesOn kind text (serialize (x :: xs) ++ more) = false := by
  have hne : serialize (x :: xs) ≠ [] := by
    rw [serialize_cons]
    exact append_ne_nil_of_left_ne_nil hrest.1.text_ne_nil _
  by_cases hhtml : kind = .inlineHtml
  · subst hhtml
    obtain rfl : inCode = false := hread.inCode_iff.2 (.inr rfl)
    exact htmlGoesOn_chain hread.not_goesOn hrest.1 hagain.1
  · refine hread.ends_ahead hhtml hne
      (fun htag hshort _ => (hascii htag).resolve_left (Nat.not_lt.2 hshort)) fun d hd => ?_
    -- a single character, and then `more`
    rw [serialize_cons] at hd
    obtain ⟨htext, hnil⟩ :=
      (append_eq_singleton_iff.1 hd).resolve_left fun h => hrest.1.text_ne_nil h.1
    have hbefore := hrest.1
    have hafter := hagain.1
    rw [htext, hnil, nil_append] at hbefore hafter
    refine ⟨hmore, ?_, ?_⟩
    · rintro rfl rfl
      obtain rfl : inCode = true := hread.inCode_eq (by simp)
      generalize x.kind = next at hbefore
      cases hbefore with
      | code hscan =>
        have hgo := goesOn_of_scanCode hscan
        obtain rfl := scanCode_single hscan (.inl rfl)
        exact nextIs_of_not_prefix
          ((markGoesOn_eq_false.1 hgo).1 ['?', '>'] (by decide) (Nat.lt_succ_self 1))
    · rintro rfl
      generalize x.kind = next at hafter
      cases hafter with
      | html hend => rcases htmlGoesOn_eq_false hend with ⟨rfl, _⟩ | ⟨_, _, rfl, _⟩ <;> rfl

theorem kindIn_same {α : Type} (f : TokenKind → α) (hf : ∀ word, f (.keyword word) = f .identifier)
    (b : Before) (text rest : Text) (kind : TokenKind) : f (kindIn b text rest kind) = f kind := by
  have hword : f (wordKind b text rest) = f .identifier := by
    rcases wordKind_cases b text rest with hkind | ⟨word, hkind⟩ <;> rw [hkind]
    exact hf word
  unfold kindIn
  split
  · exact hword
  · next word => rw [hword, hf word]
  · rfl

theorem kindIn_of_not_word (h : t.isWord = false) (b : Before) (rest : Text) :
    kindIn b t.text rest t.kind = t.kind := by
  unfold Token.isWord at h
  unfold kindIn
  split <;> simp_all

namespace Chain

/-- Tokens that were read one after the other are read again before a text that does not go on with
the last of them. -/
theorem of_ends (h : Chain inCode b xs rest)
    (hlast : ∀ x ∈ xs.getLast?, goesOn x.kind x.text more = false)
    (hrest : ∀ x ∈ xs.getLast?, x.isWord → nextIs (· == '\\') rest = false)
    (hmore : nextIs (fun c => c.isDigit || c == '.' || c == '\\') more = false)
    (hascii : (∀ x ∈ xs, x.kind = .openTag → 3 < x.text.length) ∨
      ∀ c ∈ more.take 2, c.toNat < 0x80) : Chain inCode b xs more := by
  have hseparator : nextIs (· == '\\') more = false ∧
      nextIs (fun c => c.isDigit || c == '.') more = false := by
    cases more with
    | nil => exact ⟨rfl, rfl⟩
    | cons c more => exact (Bool.or_eq_false_iff.1 hmore).symm
  induction xs generalizing inCode b with
  | nil => trivial
  | cons x xs ih =>
    cases xs with
    | nil =>
      refine ⟨?_, trivial⟩
      cases hword : x.isWord with
      | true =>
        refine h.1.of_ends_same (hlast x rfl) ?_
        rw [serialize_nil, nil_append, nil_append, hseparator.1, hrest x rfl hword]
      | false =>
        have hread : Reads inCode b (kindIn b x.text more x.kind) x.text more :=
          h.1.of_ends (hlast x rfl)
        rwa [kindIn_of_not_word hword] at hread
    | cons y ys =>
      have hagain : Chain (inCodeAfter inCode x) (b.next x) (y :: ys) more := by
        refine ih h.2 (fun z hz => hlast z ?_) (fun z hz => hrest z ?_) ?_
        · rwa [getLast?_cons_cons]
        · rwa [getLast?_cons_cons]
        · exact hascii.imp_left fun hlong z hz => hlong z (mem_cons_of_mem x hz)
      refine ⟨h.1.of_ends_same (goesOn_chain h.1 h.2 hagain hseparator.2 ?_) ?_, hagain⟩
      · intro hkind
        exact hascii.imp_left fun hlong => hlong x mem_cons_self hkind
      · refine nextIs_append ?_ _ _
        rw [serialize_cons]
        exact append_ne_nil_of_left_ne_nil h.2.1.text_ne_nil _

theorem append_iff : Chain inCode b (xs ++ ys) rest ↔
    Chain inCode b xs (serialize ys ++ rest) ∧
      Chain (xs.foldl inCodeAfter inCode) (xs.foldl Before.next b) ys rest := by
  induction xs generalizing inCode b with
  | nil => exact ⟨fun h => ⟨trivial, h⟩, And.right⟩
  | cons x xs ih =>
    rw [cons_append, Chain, Chain, ih, serialize_append, append_assoc, and_assoc]
    rfl

end Chain

/-! ## What a text is read as -/

/-- The kind and the text of a token. -/
abbrev Shape := TokenKind × Text

def Token.shape (t : Token) : Shape := (t.kind, t.text)

/-- The tokens that are not trivia, without their places. -/
def significant (ts : List Token) : List Shape :=
  (ts.filter (!·.isTrivia)).map fun t => (t.kind, t.text)

theorem significant_eq (ts : List Token) :
    significant ts = (ts.map Token.shape).filter (!·.1.isTrivia) := by
  rw [filter_map]
  rfl

@[simp] theorem significant_nil : significant [] = [] := rfl

theorem significant_cons (t : Token) (ts : List Token) :
    significant (t :: ts) = (if t.isTrivia then [] else [(t.kind, t.text)]) ++ significant ts := by
  unfold significant
  cases ht : t.isTrivia <;> simp [ht]

@[simp] theorem significant_append (xs ys : List Token) :
    significant (xs ++ ys) = significant xs ++ significant ys := by
  simp [significant]

theorem isNext_eq_any (p : Shape → Bool) (ts : List Token) :
    isNext (fun t => p (t.kind, t.text)) ts = (significant ts).head?.any p := by
  induction ts with
  | nil => rfl
  | cons t ts ih =>
    rw [isNext_cons, significant_cons]
    cases ht : t.isTrivia with
    | true => exact ih
    | false => rfl

theorem significant_of_fetch {p : Token → Bool} {rest : List Token}
    (h : fetch p ts = some (t, rest)) : significant ts = (t.kind, t.text) :: significant rest := by
  obtain ⟨gap, rfl, hgap, ht, _⟩ := fetch_eq_some h
  have hnil : significant gap = [] := by simpa [significant] using hgap
  rw [significant_append, hnil, significant_cons, ht]
  rfl

/-- Tokens in front of a text are read first, at any place. -/
theorem Chain.lexFrom_eq (h : Chain inCode b xs rest) (pos : Nat) :
    ∃ ts, ts.map Token.shape = xs.map Token.shape ∧ lexFrom inCode b pos (serialize xs ++ rest) =
      (lexFrom (xs.foldl inCodeAfter inCode) (xs.foldl Before.next b)
        (pos + byteLength (serialize xs)) rest).map (ts ++ ·) := by
  induction xs generalizing inCode b pos with
  | nil =>
    refine ⟨[], rfl, ?_⟩
    rw [serialize_nil, byteLength_nil, Nat.add_zero, nil_append, foldl_nil, foldl_nil]
    cases lexFrom inCode b pos rest <;> rfl
  | cons x xs ih =>
    obtain ⟨ts, hts, hlex⟩ := ih h.2 (pos + byteLength x.text)
    refine ⟨⟨x.kind, x.text, pos⟩ :: ts, congrArg (x.shape :: ·) hts, ?_⟩
    have hnext : b.next ⟨x.kind, x.text, pos⟩ = b.next x := rfl
    have hafter : inCodeAfter inCode ⟨x.kind, x.text, pos⟩ = inCodeAfter inCode x := rfl
    rw [serialize_cons, append_assoc, h.1.lexFrom_eq pos, hnext, hafter, hlex,
      byteLength_append, Nat.add_assoc, foldl_cons, foldl_cons]
    cases lexFrom _ _ _ rest <;> rfl

/-- The text is read, and its tokens that are not trivia are these. -/
def ReadsAs (inCode : Bool) (b : Before) (text : Text) (shapes : List Shape) : Prop :=
  ∀ pos, ∃ ts, lexFrom inCode b pos text = .ok ts ∧ significant ts = shapes

namespace ReadsAs

variable {shapes : List Shape}

theorem nil (inCode : Bool) (b : Before) : ReadsAs inCode b [] [] := fun pos =>
  ⟨[], by rw [lexFrom], rfl⟩

theorem cons {kind : TokenKind} {text : Text} (h : Reads inCode b kind text rest)
    (hrest : ReadsAs (inCodeAfter inCode ⟨kind, text, 0⟩) (b.next ⟨kind, text, 0⟩) rest shapes) :
    ReadsAs inCode b (text ++ rest)
      ((if kind.isTrivia then [] else [(kind, text)]) ++ shapes) := by
  intro pos
  obtain ⟨ts, hts, rfl⟩ := hrest (pos + byteLength text)
  refine ⟨⟨kind, text, pos⟩ :: ts, ?_, significant_cons _ ts⟩
  rw [h.lexFrom_eq]
  exact congrArg (Except.map _) hts

theorem of_chain (h : Chain inCode b xs rest)
    (hrest : ReadsAs (xs.foldl inCodeAfter inCode) (xs.foldl Before.next b) rest shapes) :
    ReadsAs inCode b (serialize xs ++ rest) (significant xs ++ shapes) := by
  intro pos
  obtain ⟨ts, hts, hlex⟩ := h.lexFrom_eq pos
  obtain ⟨more, hmore, rfl⟩ := hrest (pos + byteLength (serialize xs))
  refine ⟨ts ++ more, by rw [hlex, hmore]; rfl, ?_⟩
  rw [significant_append, significant_eq ts, hts, ← significant_eq]

theorem single (h : Lexes b text (Single kind text) b' rest) (hkind : kind.isTrivia = false)
    (hrest : ReadsAs true b' rest shapes) :
    ReadsAs true b (text ++ rest) ((kind, text) :: shapes) := by
  intro pos
  obtain ⟨_, ⟨start, rfl⟩, hlex⟩ := h pos
  obtain ⟨ts, hts, rfl⟩ := hrest (pos + byteLength text)
  refine ⟨⟨kind, text, start⟩ :: ts, by rw [hlex, hts]; rfl, ?_⟩
  have hkind : (⟨kind, text, start⟩ : Token).isTrivia = false := hkind
  rw [significant_cons, hkind]
  rfl

/-- White space in front of a text. It may go on in the text. -/
theorem spaces (hwhite : white.all isSpace) (hne : white ≠ [])
    (h : ReadsAs true { member := b.member } rest shapes) :
    ReadsAs true b (white ++ rest) shapes := by
  have hnext : ∀ (b : Before) text pos, b.next ⟨.whitespace, text, pos⟩ = { member := b.member } :=
    fun _ _ _ => rfl
  intro pos
  obtain ⟨ts, hts, rfl⟩ := h (pos + byteLength white)
  have hend : nextIs isSpace (rest.dropWhile isSpace) = false := nextIs_dropWhile isSpace rest
  rw [← takeWhile_append_dropWhile (p := isSpace) (l := rest)] at hts ⊢
  generalize hmore : rest.takeWhile isSpace = more at hts ⊢
  generalize rest.dropWhile isSpace = left at hts hend ⊢
  have hall : (white ++ more).all isSpace := by
    rw [all_append, hwhite, ← hmore, all_takeWhile]
    rfl
  -- what is left behind all the white space is read with the same memory
  have hleft : ∃ us, lexFrom true { member := b.member } (pos + byteLength (white ++ more)) left =
      .ok us ∧ significant us = significant ts := by
    rw [byteLength_append, ← Nat.add_assoc]
    by_cases hempty : more = []
    · rw [hempty, nil_append] at hts
      rw [hempty]
      exact ⟨ts, hts, rfl⟩
    · have hread : Reads true { member := b.member } .whitespace more left :=
        reads_spaces hempty (by rw [← hmore, all_takeWhile]) hend
      rw [hread.lexFrom_eq, hnext] at hts
      obtain ⟨us, hus, rfl⟩ := map_eq_ok hts
      exact ⟨us, hus, rfl⟩
  obtain ⟨us, hus, hsame⟩ := hleft
  have hread : Reads true b .whitespace (white ++ more) left :=
    reads_spaces (append_ne_nil_of_left_ne_nil hne _) hall hend
  rw [← append_assoc, hread.lexFrom_eq, hnext]
  exact ⟨_, congrArg (Except.map _) hus, hsame⟩

end ReadsAs

end LegacyPhp
