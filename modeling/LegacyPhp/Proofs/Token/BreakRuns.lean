import LegacyPhp.Proofs.Token.Html
import LegacyPhp.Proofs.Token.Seams
import LegacyPhp.Proofs.Token.Totality

/-!
# Runs of line breaks in a token

A run of line breaks lies in one token, except that a tag in front of it may take the first break
(`Reads.break_run`). Which tokens can hold a long run is soon said: white space, text outside the
code, block comments, quoted literals and heredocs. None of them minds a line break less in a run
of several (`Reads.shorten`), since every scan is in the same state after one line break of a run as
after the next. So a text keeps the kinds of its tokens when a run of five becomes one of four
(`lexemes_shorten`).
-/

namespace LegacyPhp

open Text Scan Closure List

variable {cs rest w q brk u v d d' : Text} {pos m n : Nat} {l : OpenLiteral} {b b' : Before}
  {kind : TokenKind} {ts : List Token} {c : Char}

/-- The two forms of a line break. -/
def IsLineBreak (brk : Text) : Prop := brk = ['\n'] ∨ brk = ['\r', '\n']

/-- A run of line breaks. -/
def breaks (brk : Text) : Nat → Text
  | 0 => []
  | n + 1 => brk ++ breaks brk n

/-- The characters of a line break. -/
def isBreakChar (c : Char) : Bool := c == '\n' || c == '\r'

theorem breaks_succ' (brk : Text) (n : Nat) : breaks brk (n + 1) = breaks brk n ++ brk := by
  induction n with
  | zero => simp [breaks]
  | succ n ih =>
    rw [breaks, ih, ← append_assoc, ← breaks, ih]

theorem isBreakChar_iff : isBreakChar c ↔ c = '\n' ∨ c = '\r' := by simp [isBreakChar]

theorem isSpace_of_isBreakChar (h : isBreakChar c) : isSpace c := by
  rcases isBreakChar_iff.1 h with rfl | rfl <;> rfl

theorem not_isIdentChar_of_isBreakChar (h : isBreakChar c) : isIdentChar c = false :=
  not_isIdentChar_of_isSpace (isSpace_of_isBreakChar h)

namespace IsLineBreak

variable (h : IsLineBreak brk)

include h

theorem ne_nil : brk ≠ [] := by rcases h with rfl | rfl <;> simp

theorem all_isBreakChar : brk.all isBreakChar := by rcases h with rfl | rfl <;> rfl

theorem breaks_all_isBreakChar (n : Nat) : (breaks brk n).all isBreakChar := by
  induction n with
  | zero => rfl
  | succ n ih => rw [breaks, all_append, h.all_isBreakChar, ih]; rfl

theorem length_breaks (n : Nat) : n ≤ (breaks brk n).length := by
  induction n with
  | zero => exact Nat.le_refl 0
  | succ n ih =>
    have hpos := length_pos_iff.2 h.ne_nil
    rw [breaks, length_append]
    omega

theorem exists_head : ∃ c, isBreakChar c ∧
    ∀ n, ∃ w, breaks brk (n + 1) = c :: w ∧ w.all isBreakChar := by
  have hall := h.breaks_all_isBreakChar
  rcases h with rfl | rfl
  · exact ⟨'\n', rfl, fun n => ⟨_, rfl, (Bool.and_eq_true_iff.1 (hall (n + 1))).2⟩⟩
  · exact ⟨'\r', rfl, fun n => ⟨_, rfl, (Bool.and_eq_true_iff.1 (hall (n + 1))).2⟩⟩

theorem breaks_ne_nil (n : Nat) : breaks brk (n + 1) ≠ [] := by
  obtain ⟨c, _, hruns⟩ := h.exists_head
  obtain ⟨w, hw, _⟩ := hruns n
  simp [hw]

theorem count_breaks (n : Nat) : (breaks brk n).count '\n' = n := by
  induction n with
  | zero => rfl
  | succ n ih =>
    rw [breaks, count_append, ih]
    rcases h with rfl | rfl <;> simp [Nat.add_comm]

/-- A part of a run that is not cut off inside a line break is a run. -/
theorem exists_of_run (heq : d ++ d' = breaks brk n)
    (hsplit : d.getLast? = some '\r' → nextIs (· == '\n') d' = false) :
    ∃ k, d = breaks brk k ∧ d' = breaks brk (n - k) := by
  induction n generalizing d with
  | zero =>
    obtain ⟨rfl, rfl⟩ := append_eq_nil_iff.1 heq
    exact ⟨0, rfl, rfl⟩
  | succ n ih =>
    cases d with
    | nil => exact ⟨0, rfl, heq⟩
    | cons c d =>
      obtain ⟨e, he⟩ : ∃ e, c :: d = brk ++ e := by
        rcases h with rfl | rfl
        · exact ⟨d, by rw [(cons.inj heq).1]; rfl⟩
        · obtain ⟨rfl, htail⟩ := cons.inj heq
          cases d with
          | nil =>
            obtain rfl : d' = _ := htail
            cases hsplit rfl
          | cons e d => exact ⟨d, by rw [(cons.inj htail).1]; rfl⟩
      rw [he, breaks, append_assoc] at heq
      have hlast : e.getLast? = some '\r' → nextIs (· == '\n') d' = false := fun hlast =>
        hsplit (by rw [he, getLast?_append, hlast]; rfl)
      obtain ⟨k, rfl, hd'⟩ := ih (append_cancel_left heq) hlast
      exact ⟨k + 1, he, by rw [hd', Nat.add_sub_add_right]⟩

end IsLineBreak

/-! ## Scans over a run -/

namespace Scan

theorem lineBreak_cases {tail : Text} (h : lineBreak (tail ++ rest) = (tail, rest)) :
    tail = [] ∨ IsLineBreak tail := by
  unfold lineBreak at h
  split at h
  · exact .inr (.inr (Prod.mk.inj h).1.symm)
  · exact .inr (.inl (Prod.mk.inj h).1.symm)
  · exact .inl (Prod.mk.inj h).1.symm

theorem not_isBreakChar_of_sameWord {word : Text} (h : sameWord word ['p', 'h', 'p'])
    (hc : c ∈ word) : isBreakChar c = false := by
  have hmem : c.toLower ∈ ['p', 'h', 'p'] := by
    rw [← show word.map Char.toLower = ['p', 'h', 'p'] from eq_of_beq h]
    exact mem_map_of_mem hc
  refine Bool.eq_false_iff.2 fun hbreak => ?_
  rcases isBreakChar_iff.1 hbreak with rfl | rfl <;> revert hmem <;> decide

variable {s : Text}

theorem nextIs_before_run (hbrk : IsLineBreak brk) (p : Char → Bool) (u s s' : Text) (m m' : Nat) :
    nextIs p (u ++ (breaks brk (m + 1) ++ s)) = nextIs p (u ++ (breaks brk (m' + 1) ++ s')) := by
  cases u with
  | cons c u => rfl
  | nil => rcases hbrk with rfl | rfl <;> rfl

/-- A scan for an end finds it behind a run that loses a line break, if nothing ends inside a run, a
run ahead looks the same, and a line break behind makes what stands before it forgotten. -/
theorem Finds.shorten {P : Text → Text → Prop} {found : Option (Text × Text)}
    (hbrk : IsLineBreak brk)
    (hends : ∀ x c left, isBreakChar c → ¬ P (x ++ [c]) left)
    (hahead : ∀ x y, P x (y ++ (breaks brk (m + 1) ++ (q ++ rest))) →
      P x (y ++ (breaks brk (m + 2) ++ (q ++ rest))))
    (hpast : ∀ x x' y left, P (x ++ '\n' :: y) left → P (x' ++ '\n' :: y) left)
    (h : Finds P (u ++ (breaks brk (m + 2) ++ (q ++ rest)))
      (some (u ++ (breaks brk (m + 2) ++ q), rest)))
    (h' : Finds P (u ++ (breaks brk (m + 1) ++ (q ++ rest))) found) :
    found = some (u ++ (breaks brk (m + 1) ++ q), rest) := by
  have hbehind : ∀ n n' y left, P (u ++ (breaks brk (n + 1) ++ y)) left →
      P (u ++ (breaks brk (n' + 1) ++ y)) left := by
    obtain ⟨w, rfl⟩ : ∃ w, brk = w ++ ['\n'] := by
      rcases hbrk with rfl | rfl
      · exact ⟨[], rfl⟩
      · exact ⟨['\r'], rfl⟩
    intro n n' y left hP
    rw [breaks_succ'] at hP ⊢
    simpa using hpast (u ++ breaks _ n ++ w) (u ++ breaks _ n' ++ w) y left (by simpa using hP)
  have hP := hbehind (m + 1) m q rest h.2.1
  cases found with
  | none => exact absurd hP (h' _ _ (by simp))
  | some parts =>
    obtain ⟨x, left⟩ := parts
    obtain ⟨heq, hx, hmin⟩ := h'
    have hle := hmin _ _ (by simp) hP
    have hlong := h.2.2
    have hrun := hbrk.length_breaks (m + 2)
    rcases append_eq_append_iff.1 heq with ⟨a, rfl, ha⟩ | ⟨y, rfl, rfl⟩
    · rcases append_eq_append_iff.1 ha with ⟨y, rfl, hy⟩ | ⟨y, hy, rfl⟩
      · have hq := hlong (u ++ (breaks brk (m + 2) ++ y)) left (by simp [hy])
          (hbehind m (m + 1) y left hx)
        simp only [length_append] at hq hle
        obtain ⟨rfl, rfl⟩ := append_inj hy (by omega)
        rfl
      · rcases eq_nil_or_concat a with rfl | ⟨a, c, rfl⟩
        · rw [nil_append] at hy
          have hu := hlong _ _ rfl (by simpa [hy] using hahead u [] (by simpa [hy] using hx))
          simp only [length_append] at hu
          omega
        · have hall := hbrk.breaks_all_isBreakChar (m + 1)
          rw [hy] at hall
          rw [concat_eq_append, ← append_assoc] at hx
          exact absurd hx (hends _ c _ (by simp_all))
    · have hu := hlong x _ (by simp) (hahead x y hx)
      simp only [length_append] at hu
      omega

/-- A mark behind a character that is not in it. -/
theorem exists_ahead {mark before x y : Text} {c : Char} (hmark : c ∉ mark)
    (h : x ++ c :: y = before ++ mark) :
    ∃ before', before = x ++ c :: before' ∧ y = before' ++ mark := by
  rcases append_eq_append_iff.1 h with ⟨a, rfl, ha⟩ | ⟨a, rfl, rfl⟩
  · cases a with
    | nil =>
      rw [nil_append] at ha
      simp [← ha] at hmark
    | cons d a =>
      obtain ⟨rfl, rfl⟩ := cons.inj ha
      exact ⟨a, rfl, rfl⟩
  · simp at hmark

theorem blockComment_shorten (hbrk : IsLineBreak brk)
    (h : blockComment (u ++ (breaks brk (m + 2) ++ (q ++ rest))) =
      some (u ++ (breaks brk (m + 2) ++ q), rest)) :
    blockComment (u ++ (breaks brk (m + 1) ++ (q ++ rest))) =
      some (u ++ (breaks brk (m + 1) ++ q), rest) := by
  refine Finds.shorten (P := BlockEnds) hbrk ?_ (fun _ _ => id) ?_ (h ▸ blockComment_finds _)
    (blockComment_finds _)
  · rintro x c _ hc ⟨body, heq⟩
    have hno : ∀ d ∈ ['*', '/'], ¬ isBreakChar d := by simp [isBreakChar]
    obtain ⟨_, _, hnil⟩ := exists_ahead (fun hmem => hno c hmem hc) heq
    simp at hnil
  · rintro x x' y _ ⟨body, heq⟩
    obtain ⟨body, _, rfl⟩ := exists_ahead (by decide) heq
    exact ⟨x' ++ '\n' :: body, by simp⟩

/-! ## Quoted literals -/

/-- An open literal behind a line break, which ends an escape, and a brace before it starts no
embedded code. -/
def OpenLiteral.settled : OpenLiteral → OpenLiteral
  | .single _ start => .single false start
  | .interpolated q (.code more) start => .interpolated q (.code more) start
  | .interpolated q _ start => .interpolated q .plain start

theorem step_break (hquote : isQuote (OpenLiteral.quote l)) (hc : isBreakChar c) (pos : Nat) :
    l.step pos c = .stay (OpenLiteral.settled l) := by
  match l with
  | .single escaped start =>
    rcases isBreakChar_iff.1 hc with rfl | rfl <;> cases escaped <;> rfl
  | .interpolated q part start =>
    have hne : c ≠ q := by
      rintro rfl
      rcases isBreakChar_iff.1 hc with rfl | rfl <;> cases hquote
    rcases isBreakChar_iff.1 hc with rfl | rfl <;> cases part <;>
      simp [OpenLiteral.step, OpenLiteral.settled, hne]

theorem completesAll_breaks {outer : List OpenLiteral} (hquote : isQuote (OpenLiteral.quote l))
    (hw : w.all isBreakChar) (hne : w ≠ []) :
    CompletesAll (l :: outer) (w ++ s) ↔ CompletesAll (OpenLiteral.settled l :: outer) s := by
  have hsettled : ∀ l : OpenLiteral,
      OpenLiteral.settled (OpenLiteral.settled l) = OpenLiteral.settled l ∧
      OpenLiteral.quote (OpenLiteral.settled l) = OpenLiteral.quote l := by
    rintro (_ | ⟨_, _ | _ | _ | _, _⟩) <;> exact ⟨rfl, rfl⟩
  induction w generalizing l with
  | nil => exact absurd rfl hne
  | cons c w ih =>
    rw [all_cons, Bool.and_eq_true] at hw
    rw [cons_append, completesAll_cons 0 hquote, step_break hquote hw.1]
    cases w with
    | nil => rfl
    | cons c' w =>
      have hagain :=
        ih (l := OpenLiteral.settled l) (by rwa [(hsettled l).2]) hw.2 (cons_ne_nil _ _)
      rwa [(hsettled l).1] at hagain

theorem completesAll_shorten (hbrk : IsLineBreak brk) {stack : List OpenLiteral}
    (hquotes : ∀ l ∈ stack, isQuote (OpenLiteral.quote l))
    (h : CompletesAll stack (u ++ (breaks brk (m + 2) ++ q))) :
    CompletesAll stack (u ++ (breaks brk (m + 1) ++ q)) := by
  induction u generalizing stack with
  | nil =>
    cases stack with
    | nil =>
      obtain ⟨_, _, hruns⟩ := hbrk.exists_head
      obtain ⟨w, hw, _⟩ := hruns (m + 1)
      rw [hw] at h
      cases h
    | cons l outer =>
      -- what follows the run is read in the same state
      have hrun := fun n => @completesAll_breaks _ l q outer (hquotes l mem_cons_self)
        (hbrk.breaks_all_isBreakChar (n + 1)) (hbrk.breaks_ne_nil n)
      exact (hrun m).2 ((hrun (m + 1)).1 h)
  | cons c u ih =>
    cases stack with
    | nil => cases h
    | cons l outer =>
      rw [cons_append, completesAll_cons 0 (hquotes l mem_cons_self)] at h ⊢
      exact ih (isQuote_stack hquotes 0 c) h

/-! ## Heredocs -/

theorem heredocBody_shorten {label : Text} (hlabel : label.all isIdentChar) (hne : label ≠ [])
    (hbrk : IsLineBreak brk) {lineStart : Bool}
    (h : heredocBody label lineStart (u ++ (breaks brk (m + 2) ++ (q ++ rest))) =
      some (u ++ (breaks brk (m + 2) ++ q), rest)) :
    heredocBody label lineStart (u ++ (breaks brk (m + 1) ++ (q ++ rest))) =
      some (u ++ (breaks brk (m + 1) ++ q), rest) := by
  have hmark : ∀ c, isBreakChar c → c ∉ label := fun c hc hmem => by
    have hident := all_eq_true.1 hlabel c hmem
    rw [not_isIdentChar_of_isBreakChar hc] at hident
    cases hident
  refine Finds.shorten (P := HeredocEnds label lineStart) hbrk ?_ ?_ ?_
    (h ▸ heredocBody_finds hne _ _)
    (heredocBody_finds hne _ _)
  · rintro x c _ hc ⟨before, heq, _⟩
    obtain ⟨_, _, hnil⟩ := exists_ahead (hmark c hc) heq
    simp [hne] at hnil
  · rintro x y ⟨before, rfl, hstart, hnext⟩
    exact ⟨before, rfl, hstart, nextIs_before_run hbrk _ y _ _ m (m + 1) ▸ hnext⟩
  · rintro x x' y left ⟨before, heq, hstart, hnext⟩
    obtain ⟨before, rfl, rfl⟩ := exists_ahead (hmark _ rfl) heq
    refine ⟨x' ++ '\n' :: before, by simp, ?_, hnext⟩
    simpa [getLast?_append, getLast?_cons] using hstart

theorem exists_behind {front body : Text} {t : Text} (hfront : c ∉ front)
    (h : front ++ body = u ++ c :: t) : ∃ u', u = front ++ u' ∧ body = u' ++ c :: t := by
  rcases append_eq_append_iff.1 h with ⟨u', rfl, hbody⟩ | ⟨front', rfl, hbody⟩
  · exact ⟨u', rfl, hbody⟩
  · cases front' with
    | nil => exact ⟨[], by simp, by simpa using hbody.symm⟩
    | cons d front' =>
      obtain ⟨rfl, _⟩ := cons.inj hbody
      simp at hfront

theorem heredoc_shorten (hbrk : IsLineBreak brk)
    (h : heredoc (u ++ (breaks brk (m + 2) ++ (q ++ rest))) =
      .ok (u ++ (breaks brk (m + 2) ++ q), rest)) :
    heredoc (u ++ (breaks brk (m + 1) ++ (q ++ rest))) =
      .ok (u ++ (breaks brk (m + 1) ++ q), rest) := by
  obtain ⟨blanks, quote, label, body, hopens, hparts, hbody⟩ := heredoc_eq_ok h
  obtain ⟨c, hc, hruns⟩ := hbrk.exists_head
  have hfront : c ∉ blanks ++ (quote ++ (label ++ quote)) := by
    have hno : c ∉ quote := by
      rcases hopens.quote_eq with rfl | rfl | rfl <;>
        rcases isBreakChar_iff.1 hc with rfl | rfl <;> simp
    simp only [mem_append, not_or]
    refine ⟨fun hmem => ?_, hno, fun hmem => ?_, hno⟩
    · have hblank := all_eq_true.1 hopens.blanks_all c hmem
      rcases isBreakChar_iff.1 hc with rfl | rfl <;> cases hblank
    · have hident := all_eq_true.1 hopens.label_all c hmem
      rw [not_isIdentChar_of_isBreakChar hc] at hident
      cases hident
  obtain ⟨w, hw, _⟩ := hruns (m + 1)
  have hsplit : blanks ++ (quote ++ (label ++ quote)) ++ body = u ++ c :: (w ++ q) := by
    rw [hw] at hparts
    simpa using hparts.symm
  obtain ⟨u, rfl, rfl⟩ := exists_behind hfront hsplit
  have hnext := hopens.label_ends
  rw [← cons_append, ← hw] at hnext hbody
  simp only [append_assoc] at hnext hbody ⊢
  rw [← append_assoc, nextIs_before_run hbrk _ _ _ (q ++ rest) (m + 1) m, append_assoc] at hnext
  have hagain := (hopens.of_line hnext).heredoc_eq
  rw [heredocBody_shorten hopens.label_all hopens.label_ne_nil hbrk hbody] at hagain
  simpa using hagain

/-! ## Text outside the code -/

/-- A `<?` that starts no tag is told by the four characters behind it. -/
theorem tagAfter_none_of_known {p a : Text} (hp : 4 ≤ p.length) (h : tagAfter (p ++ a) = .ok none)
    (b : Text) : tagAfter (p ++ b) = .ok none := by
  obtain ⟨hsplit, hno⟩ := tagAfter_eq_none.1 h
  have hbytes := length_le_byteLength p
  exact tagAfter_eq_none.2 ⟨fun hsplit' => hsplit (hsplit'.append (by omega) a),
    fun haccepts => hno (haccepts.append (.inl hp) a)⟩

theorem plain_breaks (hw : w.all isBreakChar) : Plain (w ++ q) rest ↔ Plain q rest := by
  induction w with
  | nil => rfl
  | cons c w ih =>
    rw [all_cons, Bool.and_eq_true] at hw
    have hc : c ≠ '<' := by
      rintro rfl
      cases hw.1
    rw [cons_append, Plain.eq_3 _ _ _ fun _ heq => absurd heq hc, ih hw.2]
    simp [hc]

/-- No tag starts in front of a run that loses a line break, where none did before: right before a
run it would have been one, and further ahead the run is out of sight. -/
theorem plain_shorten (hbrk : IsLineBreak brk) (hm : 3 ≤ m)
    (h : Plain (u ++ (breaks brk (m + 1) ++ q)) rest) : Plain (u ++ (breaks brk m ++ q)) rest := by
  obtain ⟨m, rfl⟩ : ∃ k, m = k + 1 := ⟨m - 1, by omega⟩
  induction u, rest using Plain.induct with
  | case1 rest =>
    have hall := hbrk.breaks_all_isBreakChar
    rw [nil_append, plain_breaks (hall _)] at h ⊢
    exact h
  | case2 u rest ih =>
    simp only [cons_append, Plain] at h ⊢
    refine ⟨?_, ih h.2⟩
    have hu : u ≠ [] := by
      rintro rfl
      obtain ⟨c, hc, hruns⟩ := hbrk.exists_head
      obtain ⟨w, hw, _⟩ := hruns (m + 1)
      refine (tagAfter_eq_none.1 h.1).2 (.inr ?_)
      rw [hw]
      exact Bool.or_eq_true_iff.2 (.inr (isSpace_of_isBreakChar hc))
    have hlength : 4 ≤ (u ++ breaks brk (m + 1)).length := by
      have hpos := length_pos_iff.2 hu
      have hbreaks := hbrk.length_breaks (m + 1)
      rw [length_append]
      omega
    have hnone := h.1
    rw [breaks_succ'] at hnone
    simp only [← append_assoc] at hnone ⊢
    rw [append_assoc (u ++ breaks brk (m + 1)), append_assoc (u ++ breaks brk (m + 1))]
      at hnone
    rw [append_assoc (u ++ breaks brk (m + 1))]
    exact tagAfter_none_of_known hlength hnone _
  | case3 c u rest hne ih =>
    have hother : ∀ n left, c = '<' → u ++ (breaks brk (n + 1) ++ q) ≠ '?' :: left := by
      intro n left hc hleft
      cases u with
      | nil => rcases hbrk with rfl | rfl <;> cases hleft
      | cons d u =>
        obtain ⟨rfl, _⟩ := cons.inj hleft
        exact hne u hc rfl
    have hend : ∀ n, u ++ (breaks brk (n + 1) ++ q) ≠ [] := by
      intro n heq
      have hbreaks := hbrk.length_breaks (n + 1)
      have hlength := congrArg List.length heq
      simp only [length_append, length_nil] at hlength
      omega
    rw [cons_append, Plain.eq_3 _ _ _ (hother (m + 1))] at h
    rw [cons_append, Plain.eq_3 _ _ _ (hother m)]
    exact ⟨fun _ heq => absurd heq (hend m), ih h.2⟩

end Scan

/-! ## Tokens with line breaks in them -/

/-- The tokens of the code that can have a line break in them, with what follows them. -/
inductive HoldsBreak : TokenKind → Text → Text → Prop
  | close {tail rest : Text} (h : lineBreak (tail ++ rest) = (tail, rest)) :
      HoldsBreak .closeTag ('?' :: '>' :: tail) rest
  | white {text rest : Text} (hne : text ≠ []) (hall : text.all isSpace)
      (hrest : nextIs isSpace rest = false) : HoldsBreak .whitespace text rest
  | comment {body rest : Text} (h : blockComment (body ++ rest) = some (body, rest)) :
      HoldsBreak (blockCommentKind (body ++ rest)) ('/' :: '*' :: body) rest
  | literal {quote : Char} {start pos : Nat} {body rest : Text} (hquote : isQuote quote)
      (h : literalRest (opened quote start) [] pos (body ++ rest) = .ok (body, rest)) :
      HoldsBreak .stringLiteral (quote :: body) rest
  | heredoc {body rest : Text} (h : heredoc (body ++ rest) = .ok (body, rest)) :
      HoldsBreak .stringLiteral ('<' :: '<' :: '<' :: body) rest

theorem all_lineComment (cs : Text) : (lineComment cs).1.all (!isBreakChar ·) := by
  induction cs with
  | nil => rfl
  | cons c cs ih =>
    rw [lineComment]
    split
    · rfl
    · next hc =>
      simp only [Bool.or_eq_true, not_or] at hc
      have hbreak : isBreakChar c = false := by simp [isBreakChar, hc.1]
      rw [push, all_cons, ih, hbreak]
      rfl

/-- A token of the code with a character of a line break in it is one of these. -/
theorem HoldsBreak.of_scanCode {d : Char}
    (h : scanCode b pos c (cs ++ rest) = .ok ⟨kind, c :: cs, rest⟩) (hd : isBreakChar d)
    (hmem : d ∈ c :: cs) : HoldsBreak kind (c :: cs) rest := by
  -- the scans of the other tokens take no such character
  have hout : ∀ {p : Char → Bool} {text : Text}, p d = false → text.all p → d ∉ text := by
    intro p text hp hall hin
    rw [all_eq_true.1 hall d hin] at hp
    cases hp
  have hident := not_isIdentChar_of_isBreakChar hd
  have hscan : Scans b pos c (cs ++ rest) kind (c :: cs) rest := scans_of_scanCode h
  cases hscan with
  | closeTag hc hrest hbreak =>
    obtain rfl := (cons.inj hrest).2
    rw [hc]
    exact .close hbreak
  | whitespace hc hrun =>
    exact .white (cons_ne_nil c cs) (all_cons_run hc hrun) (nextIs_of_run hrun)
  | lineComment hc hcomment =>
    have hall := all_lineComment (cs ++ rest)
    rw [hcomment] at hall
    have hfirst : isBreakChar c = false := by rcases hc with rfl | ⟨rfl, _⟩ <;> rfl
    refine absurd hmem (hout (p := (!isBreakChar ·)) (by simp [hd]) ?_)
    rw [all_cons, hall, hfirst]
    rfl
  | comment hc hrest hbody hkind | docComment hc hrest hbody hkind =>
    obtain rfl := (cons.inj hrest).2
    rw [hc, ← hkind]
    exact .comment hbody
  | var hc _ hrun =>
    rcases mem_cons.1 hmem with rfl | hmem
    · rw [hc] at hd
      cases hd
    · exact absurd hmem (hout hident (all_of_run hrun))
  | identifier hc hrun | keyword hc hrun =>
    exact absurd hmem (hout hident (all_cons_run (isIdentChar_of_isIdentStart hc) hrun))
  | number hc hnumber =>
    refine absurd hmem (hout ?_ (all_number hc hnumber))
    rcases isBreakChar_iff.1 hd with rfl | rfl <;> rfl
  | single hc hbody =>
    subst hc
    exact .literal rfl hbody
  | double hc hbody =>
    rcases hc with rfl | rfl <;> exact .literal rfl hbody
  | heredoc hc hrest hbody =>
    obtain rfl := (cons.inj (cons.inj hrest).2).2
    rw [hc]
    exact .heredoc hbody
  | mark hmark hspace =>
    have hall : ∀ op ∈ operators, op.all (!isBreakChar ·) := by decide
    rcases mark_eq_or_mem hmark with htext | hop
    · rw [htext, mem_singleton] at hmem
      exact absurd (hmem ▸ isSpace_of_isBreakChar hd) hspace
    · exact absurd hmem (hout (by simp [hd]) (hall _ hop))

namespace HoldsBreak

variable {text : Text}

/-- They are read wherever they stand in the code. -/
theorem reads (h : HoldsBreak kind text rest) (b : Before) : Reads true b kind text rest := by
  cases h with
  | close h =>
    exact .code (Scans.scanCode_eq (b := b) (.closeTag rfl rfl h : Scans _ 0 _ _ _ _ _))
  | white hne hall hrest => exact reads_spaces hne hall hrest
  | comment h =>
    refine .code (?_ : scanCode b 0 _ _ = _)
    simp [scanCode, isSpace, nextIs, h, Scanned.of, push]
  | @literal quote start pos body rest hquote h =>
    have hread : literalRest (opened quote 0) [] (0 + quote.utf8Size) (body ++ rest) =
        .ok (body, rest) := literalRest_ends hquote h rest
    have hscan : scanLiteral (opened quote 0) 0 quote (body ++ rest) =
        .ok ⟨.stringLiteral, quote :: body, rest⟩ := by
      rw [scanLiteral, hread]
      rfl
    refine .code (?_ : scanCode b 0 _ _ = _)
    rcases isQuote_iff.1 hquote with rfl | rfl | rfl <;>
      simpa [scanCode, isSpace, isIdentStart, opened] using hscan
  | heredoc h =>
    refine .code (?_ : scanCode b 0 _ _ = _)
    simp [scanCode, isSpace, isIdentStart, scanMark, h]

/-- Where a token of the code ends with a character of a line break and another one follows, it is
a close tag. -/
theorem eq_closeTag (h : HoldsBreak kind text rest) (hlast : text.getLast?.any isBreakChar)
    (hrest : nextIs isBreakChar rest) : kind = .closeTag := by
  -- the others end in a character of another class
  have hother : ∀ {p : Char → Bool}, (∀ c, p c → isBreakChar c = false) →
      text.getLast?.any p → False := by
    intro p hp hany
    cases hget : text.getLast? with
    | none => rw [hget] at hany; cases hany
    | some c =>
      rw [hget] at hany hlast
      have hbreak : isBreakChar c := hlast
      rw [hp c hany] at hbreak
      cases hbreak
  cases h with
  | close _ => rfl
  | white _ _ hend =>
    cases rest with
    | nil => cases hrest
    | cons c rest =>
      rw [nextIs, isSpace_of_isBreakChar hrest] at hend
      cases hend
  | comment h =>
    obtain ⟨inner, hbody⟩ := blockComment_last h
    refine (hother (p := (· == '/')) ?_ ?_).elim
    · rintro c hc
      obtain rfl : c = '/' := eq_of_beq hc
      rfl
    · obtain rfl : _ = inner ++ ['/'] := hbody
      rw [← cons_append, ← cons_append, getLast?_concat]
      rfl
  | literal hquote h =>
    refine (hother (p := isQuote) ?_ ?_).elim
    · intro c hc
      rcases isQuote_iff.1 hc with rfl | rfl | rfl <;> rfl
    · exact literal_last hquote h
  | heredoc h =>
    obtain ⟨before, label, hbody, hne, hall⟩ := heredoc_last h
    refine (hother (p := isIdentChar) ?_ ?_).elim
    · intro c hc
      refine Bool.eq_false_iff.2 fun hbreak => ?_
      rw [not_isIdentChar_of_isBreakChar hbreak] at hc
      cases hc
    · obtain rfl : _ = before ++ label := hbody
      exact getLast?_any_of_all hne hall ('<' :: '<' :: '<' :: before)

/-- One line break less in a run leaves the token what it is. -/
theorem shorten (h : HoldsBreak kind (u ++ (breaks brk (m + 2) ++ q)) rest) (hbrk : IsLineBreak brk)
    (hm : 1 ≤ m) : HoldsBreak kind (u ++ (breaks brk (m + 1) ++ q)) rest ∧ kind ≠ .punctuation := by
  obtain ⟨c, hc, hruns⟩ := hbrk.exists_head
  obtain ⟨w, hw, _⟩ := hruns (m + 1)
  -- what a token starts with lies in front of the run
  have hbehind : ∀ (front : Text) {body : Text}, front.all (!isBreakChar ·) →
      u ++ (breaks brk (m + 2) ++ q) = front ++ body →
      ∃ u', u = front ++ u' ∧ body = u' ++ (breaks brk (m + 2) ++ q) := by
    intro front body hfront heq
    have hno : c ∉ front := fun hmem => by
      have hbreak := all_eq_true.1 hfront c hmem
      rw [hc] at hbreak
      cases hbreak
    rw [hw] at heq ⊢
    exact exists_behind hno heq.symm
  generalize htext : u ++ (breaks brk (m + 2) ++ q) = text at h
  cases h with
  | close h =>
    -- a close tag takes a single line break
    obtain ⟨u, rfl, rfl⟩ := hbehind ['?', '>'] rfl htext
    have hcount : (u ++ (breaks brk (m + 2) ++ q)).count '\n' ≤ 1 := by
      rcases lineBreak_cases h with htail | htail | htail <;> rw [htail] <;> decide
    rw [count_append, count_append, hbrk.count_breaks] at hcount
    omega
  | white hne hall hrest =>
    have hspaces : ∀ n, (breaks brk n).all isSpace := fun n =>
      all_eq_true.2 fun d hd => isSpace_of_isBreakChar
        (all_eq_true.1 (hbrk.breaks_all_isBreakChar n) d hd)
    rw [← htext, all_append, all_append, hspaces, Bool.true_and] at hall
    refine ⟨.white ?_ ?_ hrest, by decide⟩
    · simp [hbrk.breaks_ne_nil]
    · rw [all_append, all_append, hspaces, Bool.true_and, hall]
  | comment h =>
    obtain ⟨u, rfl, rfl⟩ := hbehind ['/', '*'] rfl htext
    simp only [append_assoc] at h ⊢
    have hread := blockComment_shorten hbrk h
    have hkind : blockCommentKind (u ++ (breaks brk (m + 2) ++ (q ++ rest))) =
        blockCommentKind (u ++ (breaks brk (m + 1) ++ (q ++ rest))) := by
      have hlength := hbrk.length_breaks (m + 1)
      rw [breaks_succ', append_assoc, ← append_assoc, ← append_assoc u]
      exact blockCommentKind_append (by rw [length_append]; omega) _ _
    rw [hkind]
    refine ⟨?_, ?_⟩
    · have hholds : HoldsBreak _ ('/' :: '*' :: (u ++ (breaks brk (m + 1) ++ q))) rest :=
        .comment (by simpa using hread)
      simpa using hholds
    · rcases blockCommentKind_cases (u ++ (breaks brk (m + 1) ++ (q ++ rest))) with hk | hk <;>
        simp [hk]
  | @literal quote start pos _ _ hquote h =>
    have hfront : [quote].all (!isBreakChar ·) := by
      rcases isQuote_iff.1 hquote with rfl | rfl | rfl <;> rfl
    obtain ⟨u, rfl, rfl⟩ := hbehind [quote] hfront htext
    simp only [append_assoc] at h ⊢
    have hquotes : ∀ l ∈ [opened quote start], isQuote (OpenLiteral.quote l) := by
      simpa [quote_opened] using hquote
    have hread := completesAll_shorten hbrk hquotes ((literalRest_iff hquotes).1 h).2
    have hscan : literalRest (opened quote start) [] pos _ = .ok (_, rest) :=
      (literalRest_iff hquotes).2 ⟨rfl, hread⟩
    exact ⟨.literal hquote hscan, by decide⟩
  | heredoc h =>
    obtain ⟨u, rfl, rfl⟩ := hbehind ['<', '<', '<'] rfl htext
    simp only [append_assoc] at h ⊢
    exact ⟨.heredoc (by simpa using heredoc_shorten hbrk h), by decide⟩

end HoldsBreak

namespace Reads

variable {inCode : Bool} {text more : Text}

/-- A token other than text outside the code looks no further than three characters ahead. -/
theorem ahead (h : Reads inCode b kind text (w ++ rest)) (hw : 3 ≤ w.length)
    (hkind : kind ≠ .inlineHtml) (more : Text) : Reads inCode b kind text (w ++ more) := by
  have hne : w ≠ [] := by
    rintro rfl
    simp at hw
  refine h.of_ends_same (h.ends_ahead hkind hne (fun _ _ hlt => ?_) fun c hc => ?_)
    (nextIs_append hne more rest)
  · have hbytes := length_le_byteLength w
    omega
  · simp [hc] at hw

theorem text_before_tag {tag : Text} (h : Reads inCode b .inlineHtml text rest)
    (htag : Reads inCode b' .openTag tag more) : Reads inCode b .inlineHtml text (tag ++ more) := by
  obtain ⟨taken, rfl, hafter⟩ := htag.openTag_eq
  have hplain := plain_of_htmlGoesOn h.not_goesOn
  exact h.of_ends (htmlGoesOn_of_plain (hplain.ahead (nextIs_of_tagAfter hafter)) hafter)

/-- A tag has one line break in it at most, at its end, and leaves no half of one behind. -/
theorem tag_breaks (h : Reads inCode b kind text rest)
    (hkind : kind = .openTag ∨ kind = .closeTag) :
    text.count '\n' ≤ 1 ∧ (text.getLast? = some '\r' → nextIs (· == '\n') rest = false) ∧
      nextIs isBreakChar text = false := by
  rcases hkind with rfl | rfl
  · obtain ⟨taken, rfl, hafter⟩ := h.openTag_eq
    rcases tagAfter_eq_some hafter with ⟨word, tail, rfl, hword, hend⟩ | ⟨rfl | ⟨rfl, _⟩, _⟩
    · have hno : '\n' ∉ word := fun hmem => by
        cases not_isBreakChar_of_sameWord hword hmem
      have hcount : ('<' :: '?' :: (word ++ tail)).count '\n' = tail.count '\n' := by
        simp [count_append, count_eq_zero.2 hno]
      rw [hcount, ← cons_append, ← cons_append, getLast?_append]
      rcases longTagEnd_eq_some hend with rfl | ⟨c, rfl, _, hbreak⟩ | ⟨rfl, rfl⟩
      · exact ⟨Nat.le_refl 1, nofun, rfl⟩
      · exact ⟨count_le_length, fun hlast => hbreak (Option.some.inj hlast), rfl⟩
      · exact ⟨Nat.zero_le 1, fun _ => rfl, rfl⟩
    · exact ⟨Nat.zero_le 1, nofun, rfl⟩
    · exact ⟨Nat.zero_le 1, nofun, rfl⟩
  · obtain rfl : inCode = true := h.inCode_eq (by simp)
    obtain ⟨tail, rfl, htail⟩ := h.closeTag_lineBreak
    rcases lineBreak_cases htail with rfl | rfl | rfl
    · exact ⟨Nat.zero_le 1, nofun, rfl⟩
    · exact ⟨Nat.le_refl 1, nofun, rfl⟩
    · exact ⟨Nat.le_refl 1, nofun, rfl⟩

theorem eq_tag (h : Reads inCode b kind text rest) (hlast : text.getLast?.any isBreakChar)
    (hrest : nextIs isBreakChar rest) : kind = .openTag ∨ kind = .closeTag := by
  cases h with
  | code h =>
    obtain ⟨d, hmem, hd⟩ := (Option.any_eq_true _ _).1 hlast
    exact .inr ((HoldsBreak.of_scanCode h hd (mem_of_getLast? hmem)).eq_closeTag hlast hrest)
  | tag _ => exact .inl rfl
  | html h =>
    rcases htmlGoesOn_eq_false h with ⟨rfl, _⟩ | ⟨_, _, rfl, _⟩ <;> cases hrest

/-- A run of line breaks that reaches into a token lies in it, or the token is a tag that takes the
first break. -/
theorem break_run (h : Reads inCode b kind text rest) (hbrk : IsLineBreak brk)
    (heq : text ++ rest = u ++ (breaks brk (m + 1) ++ v)) (hlength : u.length < text.length) :
    (∃ q, text = u ++ (breaks brk (m + 1) ++ q) ∧ v = q ++ rest) ∨
      (kind = .openTag ∨ kind = .closeTag) ∧ text = u ++ brk ∧ rest = breaks brk m ++ v := by
  obtain ⟨d, rfl, hd⟩ : ∃ d, text = u ++ d ∧ d ++ rest = breaks brk (m + 1) ++ v := by
    rcases append_eq_append_iff.1 heq with ⟨u', rfl, _⟩ | ⟨d, rfl, hd⟩
    · rw [length_append] at hlength
      omega
    · exact ⟨d, rfl, hd.symm⟩
  have hne : d ≠ [] := by
    rintro rfl
    simp at hlength
  rcases append_eq_append_iff.1 hd with ⟨d', hrun, rfl⟩ | ⟨q, rfl, rfl⟩
  · by_cases hne' : d' = []
    · subst hne'
      exact .inl ⟨[], by simp [hrun], by simp⟩
    · have hall := hbrk.breaks_all_isBreakChar (m + 1)
      rw [hrun, all_append, Bool.and_eq_true] at hall
      have hlast : (u ++ d).getLast?.any isBreakChar := getLast?_any_of_all hne hall.1 u
      have hnext : nextIs isBreakChar (d' ++ v) := by
        obtain ⟨c, d', rfl⟩ := exists_cons_of_ne_nil hne'
        exact (Bool.and_eq_true_iff.1 hall.2).1
      have hkind := h.eq_tag hlast hnext
      obtain ⟨hcount, hsplit, _⟩ := h.tag_breaks hkind
      rw [count_append] at hcount
      have hcut : d.getLast? = some '\r' → nextIs (· == '\n') d' = false := fun hcr => by
        rw [← append_nil d', nextIs_append hne' [] v]
        refine hsplit ?_
        rw [getLast?_append, hcr]
        rfl
      -- so what the tag takes of the run is one line break
      obtain ⟨k, rfl, rfl⟩ := hbrk.exists_of_run hrun.symm hcut
      rw [hbrk.count_breaks] at hcount
      obtain rfl : k = 1 := by
        have hpos : k ≠ 0 := fun hzero => hne (by rw [hzero]; rfl)
        omega
      exact .inr ⟨hkind, by rw [breaks, breaks, append_nil], rfl⟩
  · exact .inl ⟨q, rfl, rfl⟩

/-- One line break less in a run leaves a token what it is. -/
theorem shorten (h : Reads inCode b kind (u ++ (breaks brk (m + 1) ++ q)) rest)
    (hbrk : IsLineBreak brk) (hm : 3 ≤ m) :
    Reads inCode b kind (u ++ (breaks brk m ++ q)) rest ∧ kind ≠ .punctuation := by
  obtain ⟨m, rfl⟩ : ∃ k, m = k + 1 := ⟨m - 1, by omega⟩
  generalize htext : u ++ (breaks brk (m + 2) ++ q) = text at h
  cases h with
  | code h =>
    obtain ⟨d, hd, hruns⟩ := hbrk.exists_head
    obtain ⟨w, hw, _⟩ := hruns (m + 1)
    have hholds := HoldsBreak.of_scanCode h hd (by rw [← htext, hw]; simp)
    rw [← htext] at hholds
    obtain ⟨hshort, hkind⟩ := hholds.shorten hbrk (by omega)
    exact ⟨hshort.reads b, hkind⟩
  | tag h =>
    obtain ⟨hcount, _⟩ := (Reads.tag h (b := b)).tag_breaks (.inl rfl)
    rw [← htext, count_append, count_append, hbrk.count_breaks] at hcount
    omega
  | html h =>
    refine ⟨?_, nofun⟩
    have hplain : Scan.Plain (u ++ (breaks brk (m + 1) ++ q)) rest :=
      plain_shorten hbrk hm (htext ▸ plain_of_htmlGoesOn h)
    obtain ⟨c, cs, hcs⟩ : ∃ c cs, u ++ (breaks brk (m + 1) ++ q) = c :: cs :=
      exists_cons_of_ne_nil (by simp [hbrk.breaks_ne_nil])
    rw [hcs] at hplain ⊢
    refine .html ?_
    rcases htmlGoesOn_eq_false h with ⟨rfl, _⟩ | ⟨taken, left, rfl, htag, _⟩
    · have hnone : findOpenTag (c :: cs ++ []) = .ok none := by
        rw [hplain.findOpenTag_append]
        rfl
      simp only [htmlGoesOn, hnone]
      rfl
    · exact htmlGoesOn_of_plain hplain htag

theorem openTag_behind {next left : Text} (h : Reads inCode b .inlineHtml text rest)
    (hnext : Reads inCode b' kind next left) (heq : rest = next ++ left) : kind = .openTag := by
  obtain rfl : inCode = false := h.inCode_iff.2 (.inr rfl)
  rcases htmlGoesOn_eq_false h.not_goesOn with ⟨rfl, _⟩ | ⟨_, _, rfl, htag, _⟩
  · exact absurd (append_eq_nil_iff.1 heq.symm).1 hnext.text_ne_nil
  · exact hnext.not_html_of_tag heq.symm htag

end Reads

/-! ## Sources with line breaks in them -/

namespace Chain

variable {inCode : Bool} {more : Text} {t : Token} {ts' : List Token}

/-- A token stays in front of tokens that became others of the same kinds further ahead. -/
theorem again (h : Chain inCode b (t :: ts) [])
    (hagain : Chain (inCodeAfter inCode t) (b.next t) ts' [])
    (hkinds : ts'.map Token.kind = ts.map Token.kind) (hts : serialize ts = w ++ v)
    (hts' : serialize ts' = w ++ more) (hw : 3 ≤ w.length) : Chain inCode b (t :: ts') [] := by
  refine ⟨?_, hagain⟩
  obtain ⟨hread, hrest⟩ := h
  rw [append_nil] at hread ⊢
  by_cases hhtml : t.kind = .inlineHtml
  · have hmode : inCodeAfter inCode t = inCode := by simp [inCodeAfter, hhtml]
    cases ts with
    | nil =>
      have hlength := congrArg List.length hts
      rw [serialize_nil, length_append, length_nil] at hlength
      omega
    | cons x ts =>
      obtain ⟨x', ts', rfl⟩ : ∃ x' left, ts' = x' :: left := by
        cases ts' with
        | nil => cases hkinds
        | cons x' left => exact ⟨x', left, rfl⟩
      have hx := hrest.1
      have hx' := hagain.1
      rw [hmode, append_nil] at hx hx'
      rw [hhtml] at hread ⊢
      have hkind : x.kind = .openTag := hread.openTag_behind hx (serialize_cons x ts)
      rw [(cons.inj hkinds).1, hkind] at hx'
      rw [serialize_cons]
      exact hread.text_before_tag hx'
  · rw [hts] at hread
    rw [hts']
    exact hread.ahead hw hhtml more

theorem shorten_token (h : Chain inCode b (t :: ts) []) (hbrk : IsLineBreak brk) (hm : 3 ≤ m)
    (htext : t.text = u ++ (breaks brk (m + 1) ++ q)) :
    Chain inCode b ({ t with text := u ++ (breaks brk m ++ q) } :: ts) [] := by
  obtain ⟨hread, hrest⟩ := h
  rw [htext] at hread
  obtain ⟨hshort, hkind⟩ := hread.shorten hbrk hm
  refine ⟨hshort, ?_⟩
  have hnext : ∀ text, b.next { t with text := text } = b.next t := fun text => by
    simp [Before.next, Token.isTrivia, Token.isPunct, beq_eq_false_iff_ne.2 hkind]
  rw [hnext]
  exact hrest

/-- A run at the front loses a line break. -/
theorem shorten_front (h : Chain inCode b ts []) (hbrk : IsLineBreak brk) (hm : 3 ≤ m)
    (hts : serialize ts = breaks brk (m + 1) ++ v) :
    ∃ ts', Chain inCode b ts' [] ∧ serialize ts' = breaks brk m ++ v ∧
      ts'.map Token.kind = ts.map Token.kind := by
  cases ts with
  | nil => exact absurd (append_eq_nil_iff.1 hts.symm).1 (hbrk.breaks_ne_nil m)
  | cons t ts =>
    have hread := h.1
    rw [append_nil] at hread
    rw [serialize_cons, ← nil_append (breaks brk (m + 1) ++ v)] at hts
    rcases hread.break_run hbrk hts (length_pos_iff.2 hread.text_ne_nil) with
      ⟨q, htext, rfl⟩ | ⟨hkind, htext, _⟩
    · refine ⟨_, h.shorten_token hbrk hm htext, ?_, rfl⟩
      simp [serialize_cons]
    · -- a tag does not start with a line break
      obtain ⟨_, _, hfirst⟩ := hread.tag_breaks hkind
      rw [htext] at hfirst
      rcases hbrk with rfl | rfl <;> cases hfirst

/-- A run anywhere loses a line break, and the tokens keep their kinds. -/
theorem shorten (h : Chain inCode b ts []) (hbrk : IsLineBreak brk) (hm : 3 ≤ m)
    (hts : serialize ts = u ++ (breaks brk (m + 2) ++ v)) :
    ∃ ts', Chain inCode b ts' [] ∧ serialize ts' = u ++ (breaks brk (m + 1) ++ v) ∧
      ts'.map Token.kind = ts.map Token.kind := by
  have hlength : ∀ n, n ≤ (breaks brk n).length := hbrk.length_breaks
  induction ts generalizing inCode b u with
  | nil =>
    have hnil := (append_eq_nil_iff.1 hts.symm).2
    exact absurd (append_eq_nil_iff.1 hnil).1 (hbrk.breaks_ne_nil _)
  | cons t ts ih =>
    have hread := h.1
    rw [append_nil] at hread
    rw [serialize_cons] at hts
    by_cases hinside : u.length < t.text.length
    · rcases hread.break_run hbrk hts hinside with ⟨q, htext, rfl⟩ | ⟨_, htext, hrest⟩
      · refine ⟨_, h.shorten_token hbrk (by omega) htext, ?_, rfl⟩
        simp [serialize_cons]
      · -- the first line break is in the tag, and the others stand behind it
        obtain ⟨ts', hchain, hts', hkinds⟩ := h.2.shorten_front hbrk hm hrest
        refine ⟨t :: ts', h.again hchain hkinds (v := brk ++ v) ?_ hts' ?_, ?_, ?_⟩
        · rw [hrest, breaks_succ', append_assoc]
        · exact Nat.le_trans hm (hlength m)
        · rw [serialize_cons, htext, hts', breaks]
          simp
        · simp [hkinds]
    · -- the run stands behind the token
      obtain ⟨u, rfl⟩ : t.text <+: u := prefix_of_prefix_length_le ⟨_, hts⟩
        (prefix_append u _) (by omega)
      rw [append_assoc] at hts
      have hrest := append_cancel_left hts
      obtain ⟨ts', hchain, hts', hkinds⟩ := ih h.2 hrest
      rw [← append_assoc u] at hts'
      refine ⟨t :: ts', h.again hchain hkinds (v := brk ++ v) ?_ hts' ?_, ?_, ?_⟩
      · rw [hrest, breaks_succ']
        simp
      · have hrun := hlength (m + 1)
        rw [length_append]
        omega
      · simp [serialize_cons, hts']
      · simp [hkinds]

end Chain

/-- A run of line breaks loses one, and the tokens of the source keep their kinds. -/
theorem lexemes_shorten (hbrk : IsLineBreak brk) (hm : 3 ≤ m)
    (h : lexemes (u ++ (breaks brk (m + 2) ++ v)) = .ok ts) :
    ∃ ts', lexemes (u ++ (breaks brk (m + 1) ++ v)) = .ok ts' ∧
      ts'.map Token.kind = ts.map Token.kind := by
  obtain ⟨ts', hchain, htext, hkinds⟩ :=
    (chain_of_lexemes h).shorten hbrk hm (lexemes_tiles h).serialize_eq
  obtain ⟨tokens, hshapes, hlex⟩ := hchain.lexFrom_eq 0
  rw [append_nil, htext, lexFrom] at hlex
  refine ⟨tokens, hlex.trans (congrArg Except.ok (append_nil tokens)), ?_⟩
  have hkinds' := congrArg (List.map Prod.fst) hshapes
  rw [map_map, map_map] at hkinds'
  exact hkinds'.trans hkinds

end LegacyPhp
