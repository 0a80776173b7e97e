import LegacyPhp.Proofs.Ternary.Marks
import LegacyPhp.Proofs.Token.BreakRuns

/-!
# Literals, comments and texts outside the code

A round looks at characters, not at tokens, so it writes in literals, comments and texts outside the
code as it does in code. Where no round writes in them they all survive, whatever is written in the
code around them, and tokens over which a short ternary lies are lost (`expandShortTernaries_kept`).

For this the tokens of the code need not be followed: of the code only those characters count that
open something (`opensWhole`), and a `Row` passes over all others. What a round writes opens
nothing, so the row of its output is that of its source (`row_written`).
-/

namespace LegacyPhp.Legacy

open Text Scan Closure List

variable {c : Char} {ts : List Token} {pos : Nat} {u source cs : Text} {m : Mark}

/-- The kinds of tokens whose texts are not code. -/
def isKept : TokenKind → Bool
  | .stringLiteral | .comment | .docComment | .inlineHtml => true
  | _ => false

/-- The literals, the comments and the texts outside the code. -/
def kept (ts : List Token) : List Shape :=
  (ts.filter fun t => isKept t.kind).map fun t => (t.kind, t.text)

theorem kept_cons (t : Token) (ts : List Token) :
    kept (t :: ts) = (if isKept t.kind then [(t.kind, t.text)] else []) ++ kept ts := by
  unfold kept
  cases hkind : isKept t.kind <;> simp [hkind]

/-- The kinds of tokens in code that are read as a whole. -/
def IsWhole (kind : TokenKind) : Prop :=
  kind = .closeTag ∨ kind = .comment ∨ kind = .docComment ∨ kind = .stringLiteral

theorem isKept_of_not_isWhole {b : Before} {s : Scanned} (h : scanCode b pos c cs = .ok s)
    (hkind : ¬ IsWhole s.kind) : isKept s.kind = false := by
  have hhtml := (scanCode_kind h).2
  simp only [IsWhole, not_or] at hkind
  cases hs : s.kind <;> simp_all [isKept]

/-! ## Rows of them -/

/-- The literals, comments and texts of a text that starts inside or outside the code. Characters of
the code that open nothing are passed over. -/
inductive Row : (inCode : Bool) → Text → List Shape → Prop
  | nil (inCode : Bool) : Row inCode [] []
  | skip {c : Char} {cs : Text} {ks : List Shape} (h : opensWhole c cs = false)
      (hrest : Row true cs ks) : Row true (c :: cs) ks
  | kept {inCode : Bool} {b : Before} {kind : TokenKind} {text rest : Text} {ks : List Shape}
      (h : Reads inCode b kind text rest) (hkind : isKept kind)
      (hrest : Row inCode rest ks) : Row inCode (text ++ rest) ((kind, text) :: ks)
  | close {b : Before} {text rest : Text} {ks : List Shape}
      (h : Reads true b .closeTag text rest) (hrest : Row false rest ks) :
      Row true (text ++ rest) ks
  | tag {b : Before} {text rest : Text} {ks : List Shape}
      (h : Reads false b .openTag text rest) (hrest : Row true rest ks) :
      Row false (text ++ rest) ks

namespace Row

variable {inCode : Bool} {cs rest : Text} {ks : List Shape}

/-- A character that opens nothing is passed over. -/
theorem of_cons (h : opensWhole c cs = false) (hrow : Row true (c :: cs) ks) : Row true cs ks := by
  obtain ⟨s, hs, _, hnot⟩ := exists_scanCode h
  -- a token that stands here is not of the other kinds
  have hkind : ∀ {b kind text rest}, Reads true b kind text rest → c :: cs = text ++ rest →
      isKept kind = false ∧ kind ≠ .closeTag := by
    intro b kind text rest hread htext
    cases hread with
    | @code _ _ _ _ text _ hscan =>
      obtain ⟨rfl, rfl⟩ := cons.inj htext
      have hagain := scanCode_of_ends hscan (goesOn_of_scanCode hscan) {} 0
      have hsame := congrArg Scanned.kind (Except.ok.inj (hs.symm.trans hagain))
      have hkept := isKept_of_not_isWhole hs (by simpa only [IsWhole, not_or] using hnot)
      have hclose := hnot.1
      rw [hsame] at hkept hclose
      refine ⟨(kindIn_same isKept (fun _ => rfl) {} (c :: text) rest kind).symm.trans hkept, ?_⟩
      rintro rfl
      exact hclose rfl
  generalize htext : c :: cs = text at hrow
  cases hrow with
  | nil => cases htext
  | skip _ hrest =>
    cases htext
    exact hrest
  | kept hread hkept _ =>
    rw [(hkind hread htext).1] at hkept
    cases hkept
  | close hread _ => exact absurd rfl (hkind hread htext).2

theorem inert_iff (h : inert u rest) : Row true (u ++ rest) ks ↔ Row true rest ks := by
  induction u with
  | nil => rfl
  | cons c u ih =>
    simp only [inert, Bool.and_eq_true, Bool.not_eq_true'] at h
    rw [cons_append, ← ih h.2]
    exact ⟨of_cons h.1, .skip h.1⟩

/-- A text with a row is read, and its literals, comments and texts are those of the row. -/
theorem exists_tokens (h : Row inCode cs ks) (b : Before) (pos : Nat) :
    ∃ ts, lexFrom inCode b pos cs = .ok ts ∧ Legacy.kept ts = ks := by
  generalize hn : cs.length = n
  induction n using Nat.strongRecOn generalizing inCode b pos cs ks with
  | _ n ih =>
  have hcons : ∀ {b' kind text rest ks'}, Reads inCode b' kind text rest → text ++ rest = cs →
      Row (inCodeAfter inCode ⟨kind, text, 0⟩) rest ks' → ∃ ts, lexFrom inCode b pos cs = .ok ts ∧
        Legacy.kept ts = (if isKept kind then [(kind, text)] else []) ++ ks' := by
    intro b' kind text rest ks' hread htext hrow
    have hagain : Reads inCode b (kindIn b text rest kind) text rest :=
      hread.of_ends hread.not_goesOn
    have hcode := kindIn_same (fun kind => inCodeAfter inCode ⟨kind, text, pos⟩) (fun _ => rfl) b
      text rest kind
    have hlength : rest.length < n := by
      have hpos := length_pos_iff.2 hread.text_ne_nil
      rw [← hn, ← htext, length_append]
      omega
    obtain ⟨ts, hts, rfl⟩ := ih _ hlength hrow
      (b.next ⟨kindIn b text rest kind, text, pos⟩) (pos + byteLength text) rfl
    refine ⟨⟨kindIn b text rest kind, text, pos⟩ :: ts, ?_, ?_⟩
    · rw [← htext, hagain.lexFrom_eq, hcode]
      exact congrArg (Except.map _) hts
    · rw [kept_cons]
      exact congrArg (· ++ Legacy.kept ts) (kindIn_same
        (fun kind => if isKept kind then [(kind, text)] else []) (fun _ => rfl) b text rest kind)
  cases h with
  | nil => exact ⟨[], by rw [lexFrom], rfl⟩
  | @skip c cs _ hopens hrest =>
    -- the characters up to the end of the token open nothing either
    obtain ⟨s, hs, hund, hnot⟩ := exists_scanCode hopens
    have hcover := (scanCode_covers hs).1
    have hinert := hund.inert (hund.not_meets (goesOn_of_scanCode hs))
    have hrow : Row true (s.text ++ s.rest) ks := hcover ▸ .skip hopens hrest
    have hcode : inCodeAfter true ⟨s.kind, s.text, 0⟩ := by
      rw [inCodeAfter_true]
      exact bne_iff_ne.2 hnot.1
    have hkept := isKept_of_not_isWhole hs (by simpa only [IsWhole, not_or] using hnot)
    have htokens := hcons (Reads.of_scanCode hs) hcover (hcode ▸ (inert_iff hinert).1 hrow)
    rwa [hkept] at htokens
  | @kept _ _ kind text rest ks hread hkind hrest =>
    have hcode : inCodeAfter inCode ⟨kind, text, 0⟩ = inCode := by
      cases kind <;> simp_all [isKept, inCodeAfter]
    have htokens := hcons hread rfl (hcode ▸ hrest)
    rwa [hkind] at htokens
  | close hread hrest | tag hread hrest => exact hcons hread rfl hrest

end Row

/-! ## Writing in the code -/

variable {us vs ms : Marked} {s mid s' : Place} {b : Before} {kind : TokenKind} {text : Text}
  {ks : List Shape}

/-- What opens nothing in the source opens nothing in the output. -/
theorem opensWhole_written (hsteps : Steps s ms s') (h : opensWhole c (chars ms) = false) :
    opensWhole c (written ms) = false := by
  simp only [opensWhole, Bool.or_eq_false_iff, Bool.and_eq_false_imp] at h ⊢
  obtain ⟨⟨⟨⟨⟨⟨hclose, hhash⟩, hslash⟩, hsingle⟩, hdouble⟩, hback⟩, hangle⟩ := h
  refine ⟨⟨⟨⟨⟨⟨fun hc => nextIs_written rfl rfl (hclose hc), hhash⟩, fun hc =>
    nextIs_written rfl rfl (hslash hc)⟩, hsingle⟩, hdouble⟩, hback⟩, fun hc => ?_⟩
  refine Bool.eq_false_iff.2 fun hstarts => Bool.eq_false_iff.1 (hangle hc) ?_
  obtain ⟨left, hleft⟩ := startsWith_iff.1 hstarts
  obtain ⟨ms, rfl, hms⟩ := eq_cons_of_written hsteps (by decide) (by decide) hleft.symm
  cases hsteps with
  | cons _ hsteps =>
    obtain ⟨ms, rfl, _⟩ := eq_cons_of_written hsteps (by decide) (by decide) hms.symm
    rfl

/-- Code that opens nothing is passed over when it is written in. -/
theorem Row.code_written (hus : Steps s us mid) (hvs : Steps mid vs s')
    (h : inert (chars us) (chars vs)) (hrow : Row true (written vs) ks) :
    Row true (written us ++ written vs) ks := by
  induction hus with
  | nil => exact hrow
  | @cons s next mid m c us hstep hus ih =>
    simp only [chars_cons, inert, Bool.and_eq_true, Bool.not_eq_true'] at h
    have hrest := ih hvs h.2
    by_cases hm : m = .plain
    · subst hm
      have hopens : opensWhole c (written (us ++ vs)) = false :=
        opensWhole_written (Steps.append_iff.2 ⟨_, hus, hvs⟩) (chars_append us vs ▸ h.1)
      rw [written_append] at hopens
      exact .skip hopens hrest
    · have hall : (m.write c).all (!openers.contains ·) := by
        have hfew : ∀ d ∈ ['[', '(', ')', '=', ' ', ':', '$', 't', 'm', 'p'],
            (!openers.contains d) := forall_mem_of_all (by decide)
        exact all_eq_true.2 fun d hd => hfew d (hstep.mem_write hm d hd)
      rw [written_cons, append_assoc, inert_iff (inert_of_all ?_ hall _)]
      · exact hrest
      · exact forall_mem_of_all (by decide)

theorem isEmpty_lineBreak_written (h : (lineBreak (chars ms)).1.isEmpty) :
    (lineBreak (written ms)).1.isEmpty := by
  cases ms with
  | nil => rfl
  | cons first ms =>
    obtain ⟨m, c⟩ := first
    rw [chars_cons, isEmpty_lineBreak, Bool.not_eq_true', Bool.or_eq_false_iff,
      Bool.and_eq_false_imp] at h
    cases m with
    | plain =>
      show (lineBreak (c :: written ms)).1.isEmpty
      rw [isEmpty_lineBreak, Bool.not_eq_true', Bool.or_eq_false_iff, Bool.and_eq_false_imp]
      exact ⟨h.1, fun hc => nextIs_written rfl rfl (h.2 hc)⟩
    | opens =>
      show (lineBreak (c :: (writtenHead ++ written ms))).1.isEmpty
      rw [isEmpty_lineBreak, Bool.not_eq_true', Bool.or_eq_false_iff, Bool.and_eq_false_imp]
      exact ⟨h.1, fun _ => rfl⟩
    | closes => exact isEmpty_lineBreak ')' _
    | splits => exact isEmpty_lineBreak ' ' _

theorem isEmpty_lineComment_written (hsteps : Steps s ms s')
    (h : (lineComment (chars ms)).1.isEmpty) : (lineComment (written ms)).1.isEmpty := by
  cases hsteps with
  | nil => exact h
  | @cons _ _ _ m c ms hstep hms =>
    rw [chars_cons, isEmpty_lineComment, Bool.or_eq_true, Bool.or_eq_true, Bool.and_eq_true] at h
    obtain rfl : m = .plain := hstep.eq_plain (by
      rcases h with (hc | hc) | ⟨hc, _⟩ <;> rw [eq_of_beq hc] <;> decide)
    show (lineComment (c :: written ms)).1.isEmpty
    rw [isEmpty_lineComment, Bool.or_eq_true, Bool.or_eq_true, Bool.and_eq_true]
    refine h.imp_right (And.imp_right fun hnext => ?_)
    -- the rest of a close tag is not written at either
    cases hms with
    | nil => exact hnext
    | cons hstep _ =>
      rw [chars_cons, nextIs, beq_iff_eq] at hnext
      rw [written_cons, hstep.eq_plain (hnext ▸ by decide)]
      exact beq_iff_eq.2 hnext

theorem goesOn_written (hkind : IsWhole kind) (hsteps : Steps s ms s')
    (h : goesOn kind text (chars ms) = false) : goesOn kind text (written ms) = false := by
  rcases hkind with rfl | rfl | rfl | rfl
  · simp only [goesOn, Bool.and_eq_false_imp, Bool.not_eq_false'] at h ⊢
    exact fun htext => isEmpty_lineBreak_written (h htext)
  · simp only [goesOn, Bool.and_eq_false_imp, Bool.not_eq_false'] at h ⊢
    exact fun htext => isEmpty_lineComment_written hsteps (h htext)
  · rfl
  · simp only [goesOn, Bool.and_eq_false_imp] at h ⊢
    exact fun htext => nextIs_written rfl rfl (h htext)

/-- A token of the code in front of a row, when both are written in. -/
theorem Row.of_code (hus : Steps s us mid) (hvs : Steps mid vs s')
    (hread : Reads true b kind (chars us) (chars vs))
    (hkept : isKept kind → us = unmarked (chars us))
    (hrow : Row (kind != .closeTag) (written vs) ks) : Row true (written us ++ written vs)
      ((if isKept kind then [(kind, chars us)] else []) ++ ks) := by
  by_cases hwhole : IsWhole kind
  · have hagain : Reads true b (kindIn b (chars us) (written vs) kind) (chars us) (written vs) :=
      hread.of_ends (goesOn_written hwhole hvs hread.not_goesOn)
    rcases hwhole with rfl | hwhole
    · obtain ⟨tail, htext, hbreak⟩ := hread.closeTag_lineBreak
      have hinert : (chars us).all isInert := by
        rw [htext]
        rcases lineBreak_cases hbreak with rfl | rfl | rfl <;> decide
      rw [hus.eq_unmarked hinert, written_unmarked]
      exact .close hagain hrow
    · have hkind : isKept kind ∧ kindIn b (chars us) (written vs) kind = kind ∧
          (kind != .closeTag) := by
        rcases hwhole with rfl | rfl | rfl <;> exact ⟨rfl, rfl, rfl⟩
      rw [hkind.2.1] at hagain
      rw [hkind.2.2] at hrow
      obtain ⟨text, rfl⟩ : ∃ text, us = unmarked text := ⟨_, hkept hkind.1⟩
      rw [chars_unmarked] at hagain
      rw [hkind.1, written_unmarked, chars_unmarked]
      exact .kept hagain hkind.1 hrow
  · generalize htext : chars us = text at hread
    cases hread with
    | code hscan =>
      have hund := (scanCode_undelimited hscan).resolve_right hwhole
      have hinert := hund.inert (hund.not_meets (goesOn_of_scanCode hscan))
      have hclose : kind ≠ .closeTag := fun hclose => hwhole (.inl hclose)
      rw [bne_iff_ne.2 hclose] at hrow
      rw [isKept_of_not_isWhole hscan hwhole]
      exact Row.code_written hus hvs (htext ▸ hinert) hrow

/-! ## Tags -/

theorem three_le_length_write (c : Char) (hm : m ≠ .plain) :
    2 ≤ (m.write c).length ∧ (m ≠ .closes → 3 ≤ (m.write c).length) := by
  cases m with
  | plain => exact absurd rfl hm
  | closes => exact ⟨Nat.le_refl 2, fun h => absurd rfl h⟩
  | opens => simp [Mark.write, writtenHead]
  | splits => simp [Mark.write]

/-- If the first bytes of the source end with a character, so do those of the output. -/
theorem isSome_splitBytes?_written {n : Nat} (hn : n ≤ 3) (hsteps : Steps s ms s')
    (hfirst : n = 3 → ∀ m ∈ ms.head?, m.1 ≠ .closes)
    (h : n ≤ byteLength (chars ms) → (splitBytes? n (chars ms)).isSome)
    (hbytes : n ≤ byteLength (written ms)) : (splitBytes? n (written ms)).isSome := by
  induction hsteps generalizing n with
  | nil => exact h hbytes
  | @cons s mid s' m c ms hstep hms ih =>
    by_cases hm : m = .plain
    · subst hm
      have hwritten : written ((.plain, c) :: ms) = c :: written ms := rfl
      rw [hwritten, byteLength_cons] at hbytes
      rw [chars_cons, byteLength_cons] at h
      rw [hwritten]
      cases n with
      | zero => rfl
      | succ n =>
        have hpos := Char.utf8Size_pos c
        have hsize : c.utf8Size ≤ n + 1 := by
          by_contra hlt
          have hsome := h (by omega)
          rw [splitBytes?, if_neg hlt] at hsome
          cases hsome
        rw [splitBytes?, if_pos hsize, Option.isSome_map]
        refine ih (by omega) (fun hthree => by omega) (fun hle => ?_) (by omega)
        have hsome := h (by omega)
        rwa [splitBytes?, if_pos hsize, Option.isSome_map] at hsome
    · -- what is written is ASCII, and long enough
      have hlength : n ≤ (m.write c).length := by
        obtain ⟨htwo, hlong⟩ := three_le_length_write c hm
        by_cases hthree : n = 3
        · exact hthree ▸ hlong (hfirst hthree _ rfl)
        · omega
      have hascii : ∀ d ∈ ['[', '(', ')', '=', ' ', ':', '$', 't', 'm', 'p'], d.toNat < 0x80 :=
        forall_mem_of_all (by decide)
      refine isSome_splitBytes?_ascii hbytes fun d hd => hascii d (hstep.mem_write hm d ?_)
      rw [written_cons, take_append_of_le_length hlength] at hd
      exact mem_of_mem_take hd

theorem all_isInert_of_sameWord {word : Text} (h : sameWord word ['p', 'h', 'p']) :
    word.all isInert := by
  have hlower : word.map Char.toLower = ['p', 'h', 'p'] := eq_of_beq h
  refine all_eq_true.2 fun c hc => ?_
  have hmem : c.toLower ∈ ['p', 'h', 'p'] := hlower ▸ mem_map_of_mem hc
  by_contra hmarked
  simp only [isInert, opensOperand, Bool.not_eq_true', Bool.not_eq_false, Bool.or_eq_true,
    beq_iff_eq] at hmarked
  rcases hmarked with (((rfl | rfl) | rfl) | rfl) | rfl <;> exact absurd hmem (by decide)

theorem write_last (hstep : Step s m c mid) (hm : m ≠ .closes) (hc : c = '=' ∨ isSpace c) :
    ∃ head, (head = [] ∨ head = writtenHead) ∧ m.write c = c :: head := by
  cases m with
  | plain => exact ⟨[], .inl rfl, rfl⟩
  | opens => exact ⟨writtenHead, .inr rfl, rfl⟩
  | closes => exact absurd rfl hm
  | splits =>
    obtain rfl : c = ':' := by cases hstep; rfl
    rcases hc with hc | hc <;> cases hc

theorem longTagEnd_written (hus : Steps s us mid)
    (h : longTagEnd (chars us ++ chars vs) = some (chars us, chars vs))
    (hclose : ∀ m ∈ us, m.1 ≠ .closes) :
    ∃ head, (head = [] ∨ head = writtenHead) ∧ written us = chars us ++ head ∧
      longTagEnd (chars us ++ (head ++ written vs)) = some (chars us, head ++ written vs) := by
  rcases longTagEnd_eq_some h with hbreak | ⟨c, hspace, hc, hbreak⟩ | ⟨hnil, hend⟩
  · refine ⟨[], .inl rfl, ?_, by rw [hbreak]; rfl⟩
    rw [hus.eq_unmarked (by rw [hbreak]; decide)]
    simp
  · obtain ⟨m, ns, rfl, hns⟩ := chars_eq_cons hspace
    obtain rfl : ns = [] := map_eq_nil_iff.1 hns
    cases hus with
    | cons hstep _ =>
      obtain ⟨head, hhead, hwrite⟩ := write_last hstep (hclose (m, c) (by simp)) (.inr hc)
      refine ⟨head, hhead, by simp [hwrite], longTagEnd_cons hc fun heq => ?_⟩
      rcases hhead with rfl | rfl
      · exact nextIs_written rfl rfl (hbreak heq)
      · rfl
  · obtain rfl : us = [] := map_eq_nil_iff.1 hnil
    obtain rfl : vs = [] := map_eq_nil_iff.1 hend
    exact ⟨[], .inl rfl, rfl, rfl⟩

/-- A tag is read in the output too if no parenthesis is closed in it. -/
theorem tagAfter_written (hus : Steps s us mid) (hvs : Steps mid vs s')
    (h : tagAfter (chars us ++ chars vs) = .ok (some (chars us, chars vs)))
    (hclose : ∀ m ∈ us ++ vs.take 1, m.1 ≠ .closes) :
    ∃ head, (head = [] ∨ head = writtenHead) ∧ written us = chars us ++ head ∧
      tagAfter (chars us ++ (head ++ written vs)) = .ok (some (chars us, head ++ written vs)) := by
  rcases tagAfter_eq_some h with ⟨word, tail, hchars, hword, hend⟩ | ⟨hshort, hsplit⟩
  · -- nothing can be written in the word of a long tag
    obtain ⟨ws, ts, rfl, rfl, rfl⟩ := chars_eq_append hchars
    obtain ⟨place, hwsteps, htsteps⟩ := Steps.append_iff.1 hus
    have hplain : written ws = chars ws := by
      rw [hwsteps.eq_unmarked (all_isInert_of_sameWord hword)]
      simp
    obtain ⟨head, hhead, hwritten, hend⟩ := longTagEnd_written htsteps hend fun m hm =>
      hclose m (mem_append_left _ (mem_append_right _ hm))
    refine ⟨head, hhead, by simp [hplain, hwritten], ?_⟩
    rw [chars_append]
    exact tagAfter_long hword hend
  · have hsome := isSome_splitBytes?_written (Nat.le_refl 3) (Steps.append_iff.2 ⟨mid, hus, hvs⟩)
      (fun _ m hm => hclose m ?_) (by rwa [chars_append])
    · rcases hshort with heq | ⟨hnil, hspace⟩
      · obtain ⟨m, ns, rfl, hns⟩ := chars_eq_cons heq
        obtain rfl : ns = [] := map_eq_nil_iff.1 hns
        cases hus with
        | cons hstep hnil =>
          obtain ⟨head, hhead, hwrite⟩ := write_last hstep (hclose (m, '=') (by simp)) (.inl rfl)
          have hwritten : written ([(m, '=')] ++ vs) = '=' :: (head ++ written vs) := by
            simp [hwrite]
          rw [hwritten] at hsome
          exact ⟨head, hhead, by simp [hwrite], tagAfter_short (.inl rfl) hsome⟩
      · obtain rfl : us = [] := map_eq_nil_iff.1 hnil
        cases hus
        cases hvs with
        | nil => cases hspace
        | @cons _ next _ m c vs hstep hvs =>
          have hc : isSpace c := hspace
          obtain ⟨head, hhead, hwrite⟩ := write_last hstep (hclose (m, c) (by simp)) (.inr hc)
          refine ⟨[], .inl rfl, rfl, ?_⟩
          rw [nil_append, written_cons, hwrite, cons_append] at hsome
          simp only [chars_nil, nil_append, written_cons, hwrite, cons_append]
          rw [tagAfter_short (.inr hc) hsome, shortTag_space hc]
    · cases us with
      | nil =>
        cases vs with
        | nil => cases hm
        | cons m vs => simpa [eq_comm] using hm
      | cons m us => simp at hm; simp [hm]

theorem tag_written (hus : Steps s us mid) (hvs : Steps mid vs s')
    (h : Reads false b .openTag (chars us) (chars vs))
    (hclose : ∀ m ∈ us ++ vs.take 1, m.1 ≠ .closes) :
    ∃ head, (head = [] ∨ head = writtenHead) ∧ written us = chars us ++ head ∧
      Reads false {} .openTag (chars us) (head ++ written vs) := by
  generalize htext : chars us = text at h
  cases h with
  | tag h =>
    obtain ⟨m, ns, rfl, hns⟩ := chars_eq_cons htext
    obtain ⟨n, us, rfl, rfl⟩ := chars_eq_cons hns
    cases hus with
    | cons hopen hus =>
      cases hus with
      | cons hquestion hus =>
        obtain rfl := hopen.eq_plain (by decide)
        obtain rfl := hquestion.eq_plain (by decide)
        obtain ⟨head, hhead, hwritten, hagain⟩ := tagAfter_written hus hvs h fun m hm =>
          hclose m (mem_cons_of_mem _ (mem_cons_of_mem _ hm))
        exact ⟨head, hhead, congrArg (fun u => '<' :: '?' :: u) hwritten, .tag hagain⟩

theorem text_written (h : Reads false b .inlineHtml text (chars vs))
    (htag : (∃ left, StartsWithTag (chars vs) left) →
      ∃ tag more, written vs = tag ++ more ∧ Reads false {} .openTag tag more) :
    Reads false b .inlineHtml text (written vs) := by
  rcases h.behind_text with hnil | hstarts
  · obtain rfl : vs = [] := map_eq_nil_iff.1 hnil
    exact h
  · obtain ⟨tag, more, hwritten, hopen⟩ := htag hstarts
    rw [hwritten]
    exact h.text_before_tag hopen

/-! ## A round -/

/-- The marks spare the tokens: they lie in no literal, no comment and no text outside the code, and
no parenthesis is closed at an open tag. -/
def Spares : List Token → Marked → Prop
  | [], _ => True
  | t :: ts, ms =>
    (isKept t.kind → ms.take t.text.length = unmarked t.text) ∧
    (t.kind = .openTag → ∀ m ∈ ms.take (t.text.length + 1), m.1 ≠ .closes) ∧
    Spares ts (ms.drop t.text.length)

instance decidableSpares : (ts : List Token) → (ms : Marked) → Decidable (Spares ts ms)
  | [], _ => .isTrue trivial
  | t :: ts, ms =>
    have := decidableSpares ts (ms.drop t.text.length)
    inferInstanceAs (Decidable (_ ∧ _ ∧ _))

/-- The literals, comments and texts of the output of a round are those of the source if they are
spared. The induction also carries a tag at the front, for the text before it. -/
theorem row_written {inCode : Bool} (h : lexFrom inCode b pos (chars ms) = .ok ts)
    (hsteps : Steps s ms s') (hspares : Spares ts ms) : Row inCode (written ms) (kept ts) ∧
      (inCode = false → (∃ left, StartsWithTag (chars ms) left) →
        ∃ tag more, written ms = tag ++ more ∧ Reads false {} .openTag tag more) := by
  induction ts generalizing inCode b pos ms s with
  | nil =>
    obtain rfl : ms = [] := map_eq_nil_iff.1 (lexFrom_tiles h).serialize_eq.symm
    refine ⟨.nil _, ?_⟩
    rintro - ⟨_, _, _, hnil, _⟩
    cases hnil
  | cons t ts ih =>
    obtain ⟨kind, text, offset⟩ := t
    have hread := reads_of_lexFrom h
    have htail := lexFrom_tail h
    have htext : chars ms = text ++ serialize ts := (lexFrom_tiles h).serialize_eq.symm
    obtain ⟨us, vs, rfl, rfl, hvs⟩ := chars_eq_append htext
    obtain ⟨mid, husteps, hvsteps⟩ := Steps.append_iff.1 hsteps
    rw [← hvs] at hread htail
    obtain ⟨hkept, hclose, hrest⟩ := hspares
    have hlength : (chars us).length = us.length := length_map _
    simp only [hlength, take_left, drop_left, take_length_add_append]
      at hkept hclose hrest
    obtain ⟨hrow, htag⟩ := ih htail hvsteps hrest
    rw [kept_cons, written_append]
    cases inCode with
    | true =>
      rw [inCodeAfter_true] at hrow
      exact ⟨.of_code husteps hvsteps hread hkept hrow, fun h => by cases h⟩
    | false =>
      have hkind : kind = .openTag ∨ kind = .inlineHtml := by
        generalize chars us = text at hread
        cases hread with
        | tag _ => exact .inl rfl
        | html _ => exact .inr rfl
      rcases hkind with rfl | rfl
      · obtain ⟨head, hhead, hwritten, hagain⟩ := tag_written husteps hvsteps hread (hclose rfl)
        have hinert : inert head (written vs) := by
          rcases hhead with rfl | rfl <;> rfl
        rw [hwritten, append_assoc]
        exact ⟨.tag hagain ((Row.inert_iff hinert).2 hrow), fun _ _ => ⟨_, _, rfl, hagain⟩⟩
      · refine ⟨?_, ?_⟩
        · have hplain : written us = chars us := by
            rw [hkept rfl, written_unmarked, chars_unmarked]
          rw [hplain]
          exact .kept (text_written hread (htag rfl)) rfl hrow
        · rintro - ⟨left, taken, more, htext, hafter, _⟩
          rw [chars_append] at htext
          cases hread.not_html_of_tag htext hafter

/-- A round that spares the literals, comments and texts outside the code keeps them. -/
theorem kept_expandRound (h : lexemes source = .ok ts) (hspares : Spares ts (marks source)) :
    ∃ us, lexemes (expandRound source) = .ok us ∧ kept us = kept ts := by
  obtain ⟨q, hsteps⟩ := steps_marks source ' '
  have hrow := (row_written (by rwa [chars_marks]) hsteps hspares).1
  rw [written_marks] at hrow
  exact hrow.exists_tokens {} 0

/-! ## All rounds -/

theorem HasShortTernary.of_infix (h : HasShortTernary u) (hu : u <:+: cs) : HasShortTernary cs := by
  obtain ⟨before, behind, rfl⟩ := hu
  obtain ⟨t, v, ⟨front, rfl⟩, hat⟩ := hasShortTernary_iff.1 h
  refine hasShortTernary_iff.2 ⟨_, v ++ behind, ⟨before ++ front, ?_⟩,
    shortTernaryAt_append_right hat behind⟩
  simp

theorem serialize_infix_of_lexemes {run : List Token} (h : lexemes cs = .ok ts)
    (hrun : run <:+: ts) : serialize run <:+: cs := by
  obtain ⟨front, behind, rfl⟩ := hrun
  have hcs : serialize (front ++ run ++ behind) = cs := (lexFrom_tiles h).serialize_eq
  exact ⟨serialize front, serialize behind, by rw [← hcs, serialize_append, serialize_append]⟩

/-- The literals, comments and texts outside the code are spared when one round writes. -/
def Spared (source : Text) : Prop := ∃ ts, lexemes source = .ok ts ∧ Spares ts (marks source)

instance (source : Text) : Decidable (Spared source) :=
  match h : lexemes source with
  | .ok ts => decidable_of_iff (Spares ts (marks source))
      ⟨fun hspares => ⟨ts, h, hspares⟩,
        fun ⟨_, hus, hspares⟩ => Except.ok.inj (h.symm.trans hus) ▸ hspares⟩
  | .error _ => .isFalse fun ⟨_, hts, _⟩ => by rw [h] at hts; cases hts

theorem kept_iterate (h : lexemes source = .ok ts) (n : Nat)
    (hspared : ∀ m < n, Spared (expandRound^[m] source)) :
    ∃ us, lexemes (expandRound^[n] source) = .ok us ∧ kept us = kept ts := by
  induction n with
  | zero => exact ⟨ts, h, rfl⟩
  | succ n ih =>
    obtain ⟨us, hus, hkept⟩ := ih fun m hm => hspared m (Nat.lt_succ_of_lt hm)
    obtain ⟨vs, hvs, hspares⟩ := hspared n (Nat.lt_succ_self n)
    obtain rfl : vs = us := Except.ok.inj (hvs.symm.trans hus)
    rw [Function.iterate_succ_apply', ← hkept]
    exact kept_expandRound hvs hspares

/-- The expansion takes no heed of tokens. If its four rounds spare the literals, the comments and
the texts outside the code, they all stand in the result, in their order and as they were. Tokens in
a row over which a short ternary lies, such as one comment or a blank and a literal, do not. -/
theorem expandShortTernaries_kept {source : Text} {ts : List Token} (h : lexemes source = .ok ts) :
    ((∀ n < 4, Spared (expandRound^[n] source)) →
      ∃ us, lexemes (expandShortTernaries source) = .ok us ∧ kept us = kept ts) ∧
    ∀ lost, lost <:+: ts → HasShortTernary (serialize lost) →
      ∀ us, lexemes (expandShortTernaries source) = .ok us →
        ∀ run, run <:+: us → serialize run ≠ serialize lost := by
  constructor
  · intro hspared
    obtain ⟨n, hn, hresult, _⟩ := exists_rounds source
    rw [hresult]
    exact kept_iterate h n fun m hm => hspared m (Nat.lt_of_lt_of_le hm hn)
  · intro lost _ hhas us hus run hrun heq
    rw [← heq] at hhas
    exact not_hasShortTernary_result source
      (hhas.of_infix (serialize_infix_of_lexemes hus hrun))

/-- A template keeps its literal, its comment and the text around it. A literal that looks like a
short ternary is lost. -/
theorem expandShortTernaries_kept_template :
    (∃ us, lexemes (expandShortTernaries "<b><?= f($x) ?: 'a?:b' /* c */ ?></b>".toList) = .ok us ∧
      kept us = [(.inlineHtml, "<b>".toList), (.stringLiteral, "'a?:b'".toList),
        (.comment, "/* c */".toList), (.inlineHtml, "</b>".toList)]) ∧
    ∃ us, lexemes (expandShortTernaries "<?php $s = 'a ?: b';".toList) = .ok us ∧
      ∀ run, run <:+: us → serialize run ≠ " 'a ?: b'".toList := by
  constructor
  · have hrun : (lexemes "<b><?= f($x) ?: 'a?:b' /* c */ ?></b>".toList).toOption.map kept =
          some [(.inlineHtml, "<b>".toList), (.stringLiteral, "'a?:b'".toList),
            (.comment, "/* c */".toList), (.inlineHtml, "</b>".toList)] ∧
        ∀ n < 4, Spared (expandRound^[n] "<b><?= f($x) ?: 'a?:b' /* c */ ?></b>".toList) := by
      decide +kernel
    obtain ⟨hread, hspared⟩ := hrun
    obtain ⟨ts, hts, htexts⟩ := Option.map_eq_some_iff.1 hread
    obtain ⟨us, hus, hkept⟩ := (expandShortTernaries_kept (eq_ok_of_toOption hts)).1 hspared
    exact ⟨us, hus, hkept.trans htexts⟩
  · have hts : lexemes "<?php $s = 'a ?: b';".toList = .ok
        [⟨.openTag, "<?php ".toList, 0⟩, ⟨.variable, "$s".toList, 6⟩, ⟨.whitespace, " ".toList, 8⟩,
          ⟨.punctuation, "=".toList, 9⟩, ⟨.whitespace, " ".toList, 10⟩,
          ⟨.stringLiteral, "'a ?: b'".toList, 11⟩, ⟨.punctuation, ";".toList, 19⟩] :=
      eq_ok_of_toOption (by decide +kernel)
    have hhas : HasShortTernary " 'a ?: b'".toList :=
      hasShortTernary_iff.2 ⟨⟨' ', "'a".toList, "b'".toList⟩, _, List.suffix_refl _, rfl⟩
    obtain ⟨us, hus⟩ : ∃ us,
        (lexemes (expandShortTernaries "<?php $s = 'a ?: b';".toList)).toOption = some us :=
      Option.isSome_iff_exists.1 (by decide +kernel)
    have hok := eq_ok_of_toOption hus
    exact ⟨us, hok, (expandShortTernaries_kept hts).2 [⟨.whitespace, " ".toList, 10⟩,
      ⟨.stringLiteral, "'a ?: b'".toList, 11⟩] (by decide) hhas us hok⟩

end LegacyPhp.Legacy
