import LegacyPhp.Proofs.Bundle.UnitSeams
import LegacyPhp.Proofs.Token.Html

/-!
# Units that keep their text

A bundle copies the code of a unit without white space, comments and directives, and writes tags of
its own around it. Nearly always the text outside the code comes through that unharmed. `Move.fits`
says when it does, move by move:

* a tag that leads into the code is copied as a whole one, that is with white space at its end, or
  as the tag that prints before two characters of one byte (`isWholeTag`, `startsAscii`);
* behind a heredoc a mark or a close tag is copied, so that its label ends there (`markComesNext`);
* there are no documentation comments and no heredocs in directives;
* where the end of a directive or of a namespace block is left out, what touches it does not
  complete a tag, a comment or a heredoc with what came before (`completes`);
* a documentation comment is not written right behind a slash;
* a close tag is written in the code only;
* a unit for which the code is left does not start with a line break, since the close tag that is
  written there would take it.

`UnitState.Framed` holds all of this for the tokens that are left of a unit, with the facts that
they were read one behind the other (`Readable`) and that they go in and out of the code by tags.
Every step keeps it (`stepToken_framed`, `afterInline_framed`).
-/

namespace LegacyPhp.Bundle

open Text Scan Closure List

/-! ## What fits -/

/-- Whether a token is copied wherever it stands outside directives. A comma may be taken back. -/
def isSurelyCopied (t : Token) : Bool :=
  isCodeToken t && (started? (t.kind, t.text)).isNone && t.kind != .keyword .publicKw &&
    !t.isPunct "\x7d" && !t.isPunct ","

/-- Whether the next `count` characters that are copied are of one byte, for a count of at most two.
A close tag is not copied at the end of a unit. -/
def startsAscii (count : Nat) : List Token → Bool
  | [] => count == 0
  | t :: ts =>
    count == 0 ||
      if t.isTrivia then startsAscii count ts
      else if t.kind == .closeTag then !isUnitEnd ts
      else
        isSurelyCopied t && (t.text.take count).all (·.toNat < 0x80) &&
          startsAscii (count - t.text.length) ts

/-- Whether a mark or a close tag comes next that is copied. -/
def markComesNext : List Token → Bool
  | [] => false
  | t :: ts =>
    if t.isTrivia then markComesNext ts
    else if t.kind == .closeTag then !isUnitEnd ts
    else t.kind == .punctuation && t.text != ['}']

/-- Whether a token may open something with the character before it. -/
def completes (t : Token) : Bool :=
  !t.isTrivia && t.text.head?.any (['>', '/', '*', '<'].contains ·)

/-- Whether nothing is written for a token that ends something: a directive, or the block of a
namespace that has been declared. -/
def endsUnseen (declared : Bool) (pending : Option Directive) (t : Token) : Bool :=
  pending.isSome && (t.isPunct ";" || t.isPunct "\x7b") || declared && t.isPunct "\x7d"

/-- Whether a token can be copied without harm to the text outside the code, `ts` being the tokens
behind it. -/
def isOrderly (pending : Option Directive) (t : Token) (ts : List Token) : Bool :=
  match t.kind with
  | .openTag => isWholeTag t.text && (t.text != ['<', '?', '='] || startsAscii 2 ts)
  | .docComment => pending.isNone
  | .stringLiteral => !isHeredoc t.kind t.text || pending.isNone && markComesNext ts
  | _ => true

/-- Whether the tokens of a unit can be copied without harm to the text outside the code. -/
def orderly (declared : Bool) (pending : Option Directive) : List Token → Bool
  | [] => true
  | t :: ts =>
    isOrderly pending t ts && !(endsUnseen declared pending t && ts.head?.any completes) &&
      orderly (declared || t.isKeyword .namespaceKw) (pendingAfter pending (t.kind, t.text)) ts

/-- Whether a unit starts with a line break. -/
def startsWithBreak (ts : List Token) : Bool := ts.head?.any fun t => !(lineBreak t.text).1.isEmpty

/-- Whether a move does no harm to the text outside the code, from the bundle `b` on. -/
def Move.fits (b : Bundler) : Move → Bool
  | start _ tokens =>
    orderly false none (unitTokens b tokens) && !(leavesCode b tokens && startsWithBreak tokens)
  | setCode inCode => inCode || b.inCode
  | banner _ => b.last? != some '/'
  | copy [] token => token.kind != .docComment || b.last? != some '/'
  | _ => true

/-- Whether moves do no harm to the text outside the code, from the bundle `b` on. -/
def fitAll (b : Bundler) : List Move → Bool
  | [] => true
  | m :: moves => m.fits b && fitAll (m.apply b) moves

theorem fitAll_append (b : Bundler) (first second : List Move) :
    fitAll b (first ++ second) = (fitAll b first && fitAll (applyAll first b) second) := by
  induction first generalizing b with
  | nil => rfl
  | cons m first ih => rw [cons_append, fitAll, ih, fitAll, Bool.and_assoc]; rfl

/-! ## The tokens that are left of a unit -/

/-- Each of the tokens is read with the others behind it. -/
def Readable : List Token → Prop
  | [] => True
  | t :: ts =>
    (t.kind = .endOfInput ∧ t.text = [] ∧ ts = [] ∨
      ∃ inCode b, Reads inCode b t.kind t.text (serialize ts)) ∧ Readable ts

theorem readable_of_chain {inCode : Bool} {b : Before} {ts : List Token} {fin : Token}
    (h : Chain inCode b ts []) (hkind : fin.kind = .endOfInput) (htext : fin.text = []) :
    Readable (ts ++ [fin]) := by
  induction ts generalizing inCode b with
  | nil => exact ⟨.inl ⟨hkind, htext, rfl⟩, trivial⟩
  | cons t ts ih =>
    refine ⟨.inr ⟨inCode, b, ?_⟩, ih h.2⟩
    have hread := h.1
    simpa [serialize, htext] using hread

section Steps

variable {u : UnitContext} {s s' : UnitState} {t : Token} {rest : List Token} {html : Text}

theorem Readable.code (h : Readable (t :: rest)) (hkind : t.kind ≠ .endOfInput)
    (htag : t.kind ≠ .openTag) (hhtml : t.kind ≠ .inlineHtml) :
    ∃ b, Reads true b t.kind t.text (serialize rest) := by
  obtain ⟨inCode, b, hread⟩ := h.1.resolve_left fun h => hkind h.1
  obtain rfl : inCode := hread.inCode_eq ⟨htag, hhtml⟩
  exact ⟨b, hread⟩

theorem Readable.text (h : Readable (t :: rest))
    (hkind : t.kind = .openTag ∨ t.kind = .inlineHtml) :
    ∃ b, Reads false b t.kind t.text (serialize rest) := by
  obtain ⟨inCode, b, hread⟩ := h.1.resolve_left fun h => by
    rcases hkind with hk | hk <;> (rw [hk] at h; cases h.1)
  obtain rfl : inCode = false := hread.inCode_iff.2 hkind
  exact ⟨b, hread⟩

theorem Readable.last (h : Readable (t :: rest)) (hkind : t.kind = .endOfInput) :
    t.text = [] ∧ rest = [] := by
  rcases h.1 with ⟨_, htext, hrest⟩ | ⟨_, _, hread⟩
  · exact ⟨htext, hrest⟩
  · generalize t.kind = kind at hread hkind
    generalize t.text = text at hread
    cases hread with
    | code hscan => exact absurd hkind (scanCode_ne_endOfInput hscan)
    | tag | html => cases hkind

theorem Readable.head?_serialize (h : Readable rest) (ht : t ∈ rest.head?) :
    t.text = [] ∨ (serialize rest).head? = t.text.head? := by
  cases rest with
  | nil => cases ht
  | cons x rest =>
    obtain rfl : x = t := by simpa using ht
    rw [serialize_cons]
    cases htext : x.text with
    | nil => exact .inl rfl
    | cons c cs => exact .inr rfl

theorem kind_of_isWord (h : t.isWord) :
    t.kind ≠ .endOfInput ∧ t.kind ≠ .openTag ∧ t.kind ≠ .inlineHtml := by
  unfold Token.isWord at h
  refine ⟨fun hk => ?_, fun hk => ?_, fun hk => ?_⟩ <;> (rw [hk] at h; cases h)

theorem Readable.all_isIdentChar (h : Readable (t :: rest)) (hword : t.isWord) :
    t.text.all isIdentChar := by
  obtain ⟨hend, htag, hhtml⟩ := kind_of_isWord hword
  obtain ⟨b, hread⟩ := h.code hend htag hhtml
  have hwell : t.WellFormed := by
    obtain ⟨kind, text, pos⟩ := t
    cases hread with
    | code hscan => exact scanCode_wellFormed hscan
  exact hwell.all_isIdentChar hword

/-- What comes behind a word is no word. -/
theorem Readable.not_isWord (h : Readable (t :: rest)) (hword : t.isWord) :
    ∀ x ∈ rest.head?, x.isWord = false := by
  intro x hx
  refine Bool.eq_false_iff.2 fun hxword => ?_
  obtain ⟨rest, rfl⟩ : ∃ left, rest = x :: left := by
    cases rest with
    | nil => cases hx
    | cons y left => exact ⟨left, by rw [show y = x by simpa using hx]⟩
  obtain ⟨hend, htag, hhtml⟩ := kind_of_isWord hword
  obtain ⟨b, hread⟩ := h.code hend htag hhtml
  -- the first character of the second word would belong to the first one
  have hgo : nextIs isIdentChar (serialize (x :: rest)) = false := by
    have hends := hread.not_goesOn
    unfold Token.isWord at hword
    unfold goesOn at hends
    split at hword
    · next hk => simpa only [hk] using hends
    · next hk => simpa only [hk] using hends
    · cases hword
  have hall := h.2.all_isIdentChar hxword
  obtain ⟨hend, htag, hhtml⟩ := kind_of_isWord hxword
  obtain ⟨b, hread'⟩ := h.2.code hend htag hhtml
  obtain ⟨c, cs, htext⟩ := exists_cons_of_ne_nil hread'.text_ne_nil
  rw [serialize_cons, htext] at hgo
  rw [htext, all_cons, Bool.and_eq_true] at hall
  exact absurd hall.1 (by simpa [nextIs] using hgo)

/-- The state fits the tokens that are left. -/
structure UnitState.Framed (s : UnitState) (ts : List Token) : Prop where
  tagged : s.Tagged ts
  readable : Readable ts
  orderly : ∃ declared, orderly declared s.pending ts ∧
    (true ∈ s.braces ∨ s.pending = some .enter → declared)
  word : ∀ word, s.pending = some (.inclusion word) → word.all isIdentChar

theorem text_of_started {word : Text} (h : started? (t.kind, t.text) = some (.inclusion word)) :
    t.isWord ∧ word = t.text := by
  obtain ⟨keyword, hkind⟩ := keyword_of_started h
  have hkind : t.kind = .keyword keyword := hkind
  refine ⟨by rw [Token.isWord, hkind], ?_⟩
  unfold started? at h
  split at h
  · cases h
  · cases h
  · split at h
    · cases h
      rfl
    · cases h
  · cases h

theorem mem_bracesAfter (h : true ∈ bracesAfter s t) : true ∈ s.braces := by
  unfold bracesAfter at h
  split at h
  · exact h
  split at h
  · rcases mem_cons.1 h with heq | h
    · cases heq
    · exact h
  split at h
  · exact mem_of_mem_tail h
  · exact h

theorem UnitState.Framed.next (h : s.Framed (t :: rest)) (htagged : s'.Tagged rest)
    (hpending : s'.pending = pendingAfter s.pending (t.kind, t.text))
    (hbraces : s.pending ≠ some .enter → s'.braces = bracesAfter s t) : s'.Framed rest := by
  obtain ⟨declared, horderly, hdeclared⟩ := h.orderly
  rw [LegacyPhp.Bundle.orderly, Bool.and_eq_true] at horderly
  refine ⟨htagged, h.readable.2, ⟨_, hpending ▸ horderly.2, fun hbefore => ?_⟩,
    fun word hword => ?_⟩
  swap
  · rw [hpending, pendingAfter] at hword
    split at hword
    · next d hstarted =>
      cases hword
      obtain ⟨hkind, rfl⟩ := text_of_started hstarted
      exact h.readable.all_isIdentChar hkind
    · exact h.word word (Option.filter_eq_some_iff.1 hword).1
  by_cases henter : s.pending = some .enter
  · rw [hdeclared (.inr henter), Bool.true_or]
  rcases hbefore with hbrace | hpend
  · rw [hbraces henter] at hbrace
    rw [hdeclared (.inl (mem_bracesAfter hbrace)), Bool.true_or]
  · by_cases hword : t.kind = .keyword .namespaceKw
    · simp [Token.isKeyword, hword]
    · rw [hpending] at hpend
      exact absurd hpend (pendingAfter_ne_enter henter hword)

theorem stepToken_framed (h : s.Framed (t :: rest)) (hcall : inlineCall? u.tree u.origin s t = none)
    (hstep : stepToken u s t rest = .next s') : s'.Framed rest := by
  obtain ⟨hpending, hbraces⟩ := stepToken_next hstep
  have hkeeps := (stepToken_keeps u h.tagged hcall).1
  rw [hstep] at hkeeps
  exact h.next hkeeps hpending hbraces

theorem afterInline_framed {tree : FileTree} {origin target : Path} {after : Bundler}
    (h : s.Framed (t :: rest)) (hcall : inlineCall? tree origin s t = some target)
    (hstep : afterInline s t rest after = .next s') : s'.Framed rest := by
  obtain ⟨hpending, hbraces⟩ := afterInline_next hcall hstep
  have hkeeps := (afterInline_keeps h.tagged hcall after).1
  rw [hstep] at hkeeps
  exact h.next hkeeps hpending hbraces

end Steps

end LegacyPhp.Bundle
