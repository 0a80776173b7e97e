import LegacyPhp.Proofs.Token.LastCharacter
import LegacyPhp.Proofs.Token.OpenLiterals
import LegacyPhp.Proofs.Token.Relex

/-!
# What the lexer can end with

The lexer ends for every source, with tokens, with a fault or with a cut inside a character.
`tokenize_total` says when each of the last two comes about. A fault lies at the first byte of what
is not terminated: a quote, `/*` or `<<<` stands there (`LexFault.Opens`). The cut is made by a
search for an open tag, at the start of the source or behind a close tag (`SearchStarts`), that gets
to a `<?` (`Visits`) whose next three bytes end inside a character (`SplitsCharacter`); a fault
further ahead stops the lexer before the search begins, and a tag that is accepted ends the search.
-/

namespace LegacyPhp.Scan

open Text

variable {text : Text}

variable {rest : Text}

/-! ## The search for an open tag -/

/-- A search through `text` gets to a `<?` with `rest` behind it. It goes on behind every `<?` that
is no tag. -/
inductive Visits : (text rest : Text) → Prop
  | here {text html rest : Text} (h : breakOn? ['<', '?'] text = some (html, rest)) :
      Visits text rest
  | behind {text html skipped rest : Text} (h : breakOn? ['<', '?'] text = some (html, skipped))
      (hsplit : ¬ SplitsCharacter skipped) (hno : ¬ AcceptsTag skipped)
      (hrest : Visits skipped rest) : Visits text rest

theorem breakOn?_open (rest : Text) :
    breakOn? ['<', '?'] ('<' :: '?' :: rest) = some ([], rest) := by
  simp [breakOn?, after?]

/-- A search goes past a character that starts no `<?`. -/
theorem visits_cons {c : Char} (hc : c = '<' → nextIs (· == '?') text = false) :
    Visits (c :: text) rest ↔ Visits text rest := by
  have hnone : after? ['<', '?'] (c :: text) = none := by
    rw [after?_eq_none]
    rintro ⟨left, hleft⟩
    obtain ⟨rfl, rfl⟩ := List.cons.inj hleft
    cases hc rfl
  have hbreak := breakOn?_cons hnone
  constructor
  · intro h
    cases h with
    | here h =>
      rw [hbreak] at h
      obtain ⟨⟨a, b⟩, hab, heq⟩ := Option.map_eq_some_iff.1 h
      cases heq
      exact .here hab
    | behind h hsplit hno hrest =>
      rw [hbreak] at h
      obtain ⟨⟨a, b⟩, hab, heq⟩ := Option.map_eq_some_iff.1 h
      cases heq
      exact .behind hab hsplit hno hrest
  · intro h
    cases h with
    | here h => exact .here (by rw [hbreak, h]; rfl)
    | behind h hsplit hno hrest => exact .behind (by rw [hbreak, h]; rfl) hsplit hno hrest

theorem visits_open : Visits ('<' :: '?' :: text) rest ↔
    rest = text ∨ ¬ SplitsCharacter text ∧ ¬ AcceptsTag text ∧ Visits text rest := by
  constructor
  · intro h
    cases h with
    | here h =>
      rw [breakOn?_open] at h
      cases h
      exact .inl rfl
    | behind h hsplit hno hrest =>
      rw [breakOn?_open] at h
      cases h
      exact .inr ⟨hsplit, hno, hrest⟩
  · rintro (rfl | ⟨hsplit, hno, hrest⟩)
    · exact .here (breakOn?_open _)
    · exact .behind (breakOn?_open _) hsplit hno hrest

theorem not_visits_nil : ¬ Visits [] rest := by
  intro h
  cases h with
  | here h | behind h => cases h

/-- The search fails when it gets to a `<?` that splits a character. -/
theorem findOpenTag_eq_error {e : SplitCharacter} : findOpenTag text = .error e ↔
    ∃ rest, Visits text rest ∧ SplitsCharacter rest := by
  fun_induction findOpenTag text with
  | case1 => simp [not_visits_nil]
  | case2 rest ih =>
    rw [← findOpenTag]
    simp only [visits_open]
    cases htag : tagAfter rest with
    | error e' =>
      have hsplit := tagAfter_eq_error.1 htag
      rw [findOpenTag, htag]
      exact ⟨fun _ => ⟨rest, .inl rfl, hsplit⟩, fun _ => rfl⟩
    | ok found =>
      have hsplit : ¬ SplitsCharacter rest := fun hsplit => by
        rw [tagAfter_eq_error (e := .splitCharacter) |>.2 hsplit] at htag
        cases htag
      cases found with
      | some parts =>
        -- the tag is accepted, and the search ends at it
        rw [findOpenTag, htag]
        refine ⟨fun h => (by cases h), ?_⟩
        rintro ⟨_, rfl | ⟨_, hno, _⟩, h⟩
        · exact absurd h hsplit
        · exact absurd (.of_tagAfter htag) hno
      | none =>
        obtain ⟨_, hno⟩ := tagAfter_eq_none.1 htag
        rw [findOpenTag_open_none htag, map_eq_error, ih]
        constructor
        · rintro ⟨left, hvisits, h⟩
          exact ⟨left, .inr ⟨hsplit, hno, hvisits⟩, h⟩
        · rintro ⟨left, rfl | ⟨_, _, hvisits⟩, h⟩
          · exact absurd h hsplit
          · exact ⟨left, hvisits, h⟩
  | case3 c rest hother ih =>
    have hc : c = '<' → nextIs (· == '?') rest = false := by
      rintro rfl
      refine Bool.eq_false_iff.2 fun hnext => ?_
      exact hother rest.tail rfl (nextIs_tail hnext).symm
    rw [← findOpenTag.eq_3 _ _ hother, findOpenTag_cons hc, map_eq_error, ih]
    simp only [visits_cons hc]

-- the first `<?` is no tag, and the third byte behind the second is the first of two
example : findOpenTag "<?a<?ab\u00e9".toList = .error .splitCharacter := by rfl

end LegacyPhp.Scan

namespace LegacyPhp

open Text Scan Closure List

variable {rest cs text : Text} {pos : Nat} {literal : OpenLiteral} {c : Char} {b : Before}
  {inCode : Bool} {e : LexFailure} {xs : List Token}

/-! ## Faults -/

/-- What stands at the place that a fault names: the start of what is not terminated. -/
def LexFault.Opens : LexFault → Text → Prop
  | .unterminatedComment, rest => ['/', '*'] <+: rest
  | .unterminatedLiteral, rest => nextIs isQuote rest
  | .malformedHeredocLabel, rest | .unterminatedHeredoc, rest => ['<', '<', '<'] <+: rest
  | .other _, _ => False

theorem LexFault.Opens.byteLength_pos {fault : LexFault} (h : fault.Opens rest) :
    0 < byteLength rest := by
  obtain ⟨c, cs, rfl⟩ : ∃ c cs, rest = c :: cs := by
    cases rest with
    | cons c cs => exact ⟨c, cs, rfl⟩
    | nil => cases fault <;> simp [LexFault.Opens, nextIs] at h
  have := Char.utf8Size_pos c
  rw [byteLength_cons]
  omega

/-- A fault in a text that starts at byte offset `pos`, at a place where what it is about opens. -/
def FaultIn (pos : Nat) (cs : Text) (e : LexFailure) : Prop :=
  ∃ fault before rest, cs = before ++ rest ∧ e = .fault fault (pos + byteLength before) ∧
    fault.Opens rest

theorem FaultIn.of_opens {fault : LexFault} (h : fault.Opens cs) :
    FaultIn pos cs (.fault fault pos) := ⟨fault, [], cs, rfl, rfl, h⟩

theorem FaultIn.append (h : FaultIn (pos + byteLength text) rest e) :
    FaultIn pos (text ++ rest) e := by
  obtain ⟨fault, before, left, rfl, rfl, hopens⟩ := h
  refine ⟨fault, text ++ before, left, (append_assoc ..).symm, ?_, hopens⟩
  rw [byteLength_append, Nat.add_assoc]

theorem scanLiteral_eq_error (hstart : literal.start = pos) (hquote : isQuote c)
    (h : scanLiteral literal pos c rest = .error e) : FaultIn pos (c :: rest) e := by
  unfold scanLiteral at h
  split at h
  · next start hliteral =>
    cases h
    rcases literalRest_eq_error hliteral with hopen | ⟨before, quote, left, rfl, rfl, hleft, _⟩
    · obtain rfl := hopen.trans hstart
      exact .of_opens hquote
    · refine ⟨.unterminatedLiteral, c :: before, quote :: left, rfl, ?_, ?_⟩
      · rw [byteLength_cons, Nat.add_assoc]
      · rcases hleft with rfl | rfl <;> rfl
  · cases h

theorem scanMark_eq_error (h : scanMark pos c rest = .error e) : FaultIn pos (c :: rest) e := by
  unfold scanMark at h
  split at h
  · next left =>
    split at h
    · cases h; exact .of_opens ⟨left, rfl⟩
    · cases h; exact .of_opens ⟨left, rfl⟩
    · cases h
  · cases h

/-- Every scan that fails names the place where what it reads opens. -/
theorem scanCode_eq_error (h : scanCode b pos c rest = .error e) : FaultIn pos (c :: rest) e := by
  unfold scanCode at h
  split at h
  · cases h
  split at h
  · cases h
  split at h
  · cases h
  split at h
  · next hcomment =>
    split at h
    · cases h
      rw [Bool.and_eq_true, beq_iff_eq] at hcomment
      refine .of_opens ⟨rest.tail, ?_⟩
      rw [hcomment.1, ← nextIs_tail hcomment.2]
      rfl
    · cases h
  split at h
  · cases h
  split at h
  · cases h
  split at h
  · cases h
  split at h
  · next hquote => exact scanLiteral_eq_error rfl (by simp [isQuote, hquote]) h
  split at h
  · next hquote =>
    refine scanLiteral_eq_error rfl ?_ h
    rw [isQuote, Bool.or_assoc, hquote, Bool.or_true]
  · exact scanMark_eq_error h

/-! ## The lexer -/

/-- Having read some tokens of `cs`, the lexer looks for an open tag in `text`: behind a close tag,
or with nothing read where `cs` starts outside the code. -/
def SearchStarts (inCode : Bool) (b : Before) (cs text : Text) : Prop :=
  ∃ ts, cs = serialize ts ++ text ∧ Chain inCode b ts text ∧
    ts.getLast?.elim (inCode = false) (·.kind = .closeTag)

theorem SearchStarts.refl (b : Before) (text : Text) : SearchStarts false b text text :=
  ⟨[], rfl, trivial, rfl⟩

/-- A search behind tokens that leave the lexer in the code or end in a close tag. -/
theorem SearchStarts.behind (hchain : Chain inCode b xs rest)
    (h : SearchStarts (xs.foldl inCodeAfter inCode) (xs.foldl Before.next b) rest text)
    (hlast : xs.foldl inCodeAfter inCode = false →
      xs.getLast?.elim (inCode = false) (·.kind = .closeTag)) :
    SearchStarts inCode b (serialize xs ++ rest) text := by
  obtain ⟨ts, rfl, hrest, hend⟩ := h
  refine ⟨xs ++ ts, ?_, Chain.append_iff.2 ⟨hchain, hrest⟩, ?_⟩
  · rw [serialize_append, append_assoc]
  · rw [getLast?_append]
    cases hts : ts.getLast? with
    | none =>
      rw [hts] at hend
      exact hlast hend
    | some t =>
      rw [hts] at hend
      exact hend

/-- A search behind an open tag, which may have text in front of it. -/
theorem SearchStarts.behind_tag {t : OpenTag} (htag : findOpenTag cs = .ok (some t))
    (h : SearchStarts true {} t.rest text) : SearchStarts false b cs text := by
  obtain ⟨hcover, _⟩ := findOpenTag_append htag
  obtain ⟨c, rest, rfl⟩ : ∃ c rest, cs = c :: rest := by
    cases cs with
    | nil => cases htag
    | cons c rest => exact ⟨c, rest, rfl⟩
  obtain ⟨hread, hhtml⟩ := Reads.of_findOpenTag htag b
  rw [← hcover]
  by_cases hempty : t.html = []
  · have hchain : Chain false b [⟨.openTag, t.tag, 0⟩] t.rest := ⟨hread, trivial⟩
    simpa [hempty] using SearchStarts.behind hchain h (fun hclose => (by cases hclose))
  · have hchain : Chain false b [⟨.inlineHtml, t.html, 0⟩, ⟨.openTag, t.tag, 0⟩] t.rest := by
      refine ⟨?_, (Reads.of_findOpenTag htag _).1, trivial⟩
      simpa using hhtml hempty
    simpa using SearchStarts.behind hchain h (fun hclose => (by cases hclose))

/-- A run that fails does so at a fault, or in a search for an open tag that gets to a `<?` that
splits a character. -/
theorem lexFrom_eq_error (h : lexFrom inCode b pos cs = .error e) :
    FaultIn pos cs e ∨ e = .splitCharacter ∧ ∃ text rest,
      SearchStarts inCode b cs text ∧ Visits text rest ∧ SplitsCharacter rest := by
  fun_induction lexFrom inCode b pos cs with
  | case1 => cases h
  | case2 b pos c rest e' he => cases h; exact .inl (scanCode_eq_error he)
  | case3 b pos c rest s hs token ih =>
    obtain ⟨hcover, _⟩ := scanCode_covers hs
    rw [← hcover]
    rcases ih (map_eq_error.1 h) with hfault | ⟨rfl, text, left, hstarts, hvisits⟩
    · exact .inl hfault.append
    · refine .inr ⟨rfl, text, left, ?_, hvisits⟩
      have hchain : Chain true b [token] s.rest := ⟨.of_scanCode hs, trivial⟩
      have hafter : [token].foldl inCodeAfter true = (s.kind != .closeTag) := inCodeAfter_true token
      have hbehind := SearchStarts.behind hchain (by rw [hafter]; exact hstarts) fun hclose => by
        rw [hafter] at hclose
        exact bne_eq_false_iff_eq.1 hclose
      simpa using hbehind
  | case4 b pos c rest e' he =>
    cases h
    obtain ⟨left, hvisits, hsplit⟩ := findOpenTag_eq_error.1 he
    exact .inr ⟨rfl, c :: rest, left, .refl b _, hvisits, hsplit⟩
  | case5 => cases h
  | case6 b pos c rest t ht html start ih =>
    rcases ih (map_eq_error.1 h) with hfault | ⟨rfl, text, left, hstarts, hvisits⟩
    · obtain ⟨hcover, _⟩ := findOpenTag_append ht
      rw [← hcover]
      refine .inl (FaultIn.append ?_)
      rwa [byteLength_append, ← Nat.add_assoc]
    · exact .inr ⟨rfl, text, left, .behind_tag ht hstarts, hvisits⟩

/-- A search that fails fails the run: the tokens in front of it are read before it begins. -/
theorem lexFrom_of_chain_error {e : SplitCharacter} (hchain : Chain inCode b xs text)
    (hoff : xs.foldl inCodeAfter inCode = false) (h : findOpenTag text = .error e) (pos : Nat) :
    lexFrom inCode b pos (serialize xs ++ text) = .error .splitCharacter := by
  obtain ⟨_, _, hlex⟩ := hchain.lexFrom_eq pos
  rw [hlex, hoff, map_eq_error]
  cases text with
  | nil => cases h
  | cons c rest =>
    rw [lexFrom]
    split
    · rfl
    · next hnone => rw [h] at hnone; cases hnone
    · next hsome => rw [h] at hsome; cases hsome

theorem foldl_inCodeAfter_eq_false {ts : List Token}
    (h : ts.getLast?.elim (inCode = false) (·.kind = .closeTag)) :
    ts.foldl inCodeAfter inCode = false := by
  rcases eq_nil_or_concat ts with rfl | ⟨before, t, rfl⟩
  · exact h
  · rw [concat_eq_append] at h ⊢
    have hkind : t.kind = .closeTag := by simpa using h
    rw [foldl_append]
    simp [inCodeAfter, hkind]

/-- The lexer returns tokens, fails with a fault at a byte of the source where a quote, `/*` or
`<<<` stands, or is stopped by a cut inside a character. The last happens exactly when the tokens
before a search for an open tag are read and the search gets to a `<?` whose next three bytes end
inside a character. -/
theorem tokenize_total (source : Text) :
    ((∃ tokens, tokenize source = .ok tokens) ∨
      (∃ fault before rest, source = before ++ rest ∧ byteLength before < byteLength source ∧
        tokenize source = .error (.fault fault (byteLength before)) ∧ fault.Opens rest) ∨
      tokenize source = .error .splitCharacter) ∧
    (tokenize source = .error .splitCharacter ↔
      ∃ text rest, SearchStarts false {} source text ∧ Visits text rest ∧
        SplitsCharacter rest) := by
  have hfails : ∀ {e}, tokenize source = .error e →
      FaultIn 0 source e ∨ e = .splitCharacter ∧ ∃ text rest,
        SearchStarts false {} source text ∧ Visits text rest ∧ SplitsCharacter rest :=
    fun h => lexFrom_eq_error (map_eq_error.1 h)
  refine ⟨?_, fun h => ?_, ?_⟩
  · cases h : tokenize source with
    | ok tokens => exact .inl ⟨tokens, rfl⟩
    | error e =>
      rcases hfails h with ⟨fault, before, rest, hsource, rfl, hopens⟩ | ⟨rfl, _⟩
      · refine .inr (.inl ⟨fault, before, rest, hsource, ?_, by rw [Nat.zero_add], hopens⟩)
        have hpos := hopens.byteLength_pos
        rw [hsource, byteLength_append]
        omega
      · exact .inr (.inr rfl)
  · rcases hfails h with ⟨_, _, _, _, hfault, _⟩ | ⟨_, hsearch⟩
    · cases hfault
    · exact hsearch
  · rintro ⟨text, rest, ⟨ts, rfl, hchain, hend⟩, hvisits, hsplit⟩
    have hfind : findOpenTag text = .error .splitCharacter :=
      findOpenTag_eq_error.2 ⟨rest, hvisits, hsplit⟩
    exact map_eq_error.2 (lexFrom_of_chain_error hchain (foldl_inCodeAfter_eq_false hend) hfind 0)

end LegacyPhp
