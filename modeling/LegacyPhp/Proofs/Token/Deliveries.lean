import LegacyPhp.Proofs.Lossless
import LegacyPhp.Token.Cursor

/-!
# What a cursor delivers

A call of a cursor goes past some tokens and delivers those among them that are not skipped
(`Moves`); one that delivers nothing leaves the cursor where it was. This is shown for each call,
and so for any calls one after the other: what they have delivered are the tokens in front of the
cursor, in order, less some of the skipped kinds (`cursor_delivers`).

Tokens are consumed up to a delimiter in one call, which counts brackets. Where it stops is said
without the count (`StopsAt`): at the first place outside all brackets that fits
(`fetchUntil_stops`).
-/

namespace LegacyPhp

open Text List

/-- The second list is the first one less some elements that are all skipped. -/
def LessSkipped (skips : Token → Bool) (ts us : List Token) : Prop :=
  us.Sublist ts ∧ us.filter (!skips ·) = ts.filter (!skips ·)

section

variable {skips p : Token → Bool} {t : Token} {ts us rest : List Token}

theorem LessSkipped.refl (ts : List Token) : LessSkipped skips ts ts := ⟨.refl ts, rfl⟩

theorem LessSkipped.keep (h : LessSkipped skips ts us) : LessSkipped skips (t :: ts) (t :: us) :=
  ⟨h.1.cons_cons t, by rw [filter_cons, filter_cons, h.2]⟩

theorem LessSkipped.skip (ht : skips t) (h : LessSkipped skips ts us) :
    LessSkipped skips (t :: ts) us :=
  ⟨h.1.cons t, by simp [ht, h.2]⟩

theorem Stream.fetchBy_eq (h : fetchBy skips p ts = some (t, rest)) :
    ∃ passed, ts = passed ++ rest ∧ LessSkipped skips passed [t] := by
  induction ts with
  | nil => cases h
  | cons u ts ih =>
    cases hskip : skips u with
    | true =>
      simp only [fetchBy, dropWhile_cons, hskip, if_true] at h ih
      obtain ⟨passed, hts, hless⟩ := ih h
      exact ⟨u :: passed, congrArg (u :: ·) hts, hless.skip hskip⟩
    | false =>
      simp only [fetchBy, dropWhile_cons, hskip, Bool.false_eq_true, if_false] at h
      split at h
      · cases h
        exact ⟨[t], rfl, .refl [t]⟩
      · cases h

theorem Stream.gatherBy_eq (skips p : Token → Bool) (ts : List Token) :
    ∃ passed, ts = passed ++ (gatherBy skips p ts).2 ∧
      LessSkipped skips passed (gatherBy skips p ts).1 ∧
      ((gatherBy skips p ts).1 = [] → passed = []) := by
  have hnone : ∀ ts, ∃ passed, ts = passed ++ ts ∧ LessSkipped skips passed [] ∧
      (([] : List Token) = [] → passed = []) := fun ts => ⟨[], rfl, .refl [], fun _ => rfl⟩
  induction ts with
  | nil => exact hnone []
  | cons t ts ih =>
    obtain ⟨passed, hts, hless, _⟩ := ih
    simp only [gatherBy]
    split
    · exact ⟨t :: passed, congrArg (t :: ·) hts, hless.keep, by simp⟩
    split
    · next hskip =>
      split
      · exact hnone _
      · next hsome =>
        exact ⟨t :: passed, congrArg (t :: ·) hts, hless.skip hskip, fun hnil =>
          absurd (List.isEmpty_iff.2 hnil) hsome⟩
    · exact hnone _

end

namespace Cursor

variable {c c' : Cursor} {taken passed rest : List Token}

/-- A call of a cursor, with the patterns it is made with. -/
inductive Call where
  | next
  | fetch (patterns : List Pattern)
  | fetchAll (patterns : List Pattern)
  /-- Both forms of the call, with a text and with the tokens as the answer. -/
  | fetchUntil (patterns : List Pattern)
  | peek
  | isNext (patterns : List Pattern)
  | current
  | isCurrent (patterns : List Pattern)

/-- The tokens that a call delivers, and the cursor behind it. A text that is returned is made of
the tokens that are delivered, and a query delivers nothing. -/
def Call.run : Call → Cursor → List Token × Cursor
  | next, c => (c.next.1.toList, c.next.2)
  | fetch patterns, c => ((c.fetch patterns).1.toList, (c.fetch patterns).2)
  | fetchAll patterns, c => c.fetchAll patterns
  | fetchUntil patterns, c => c.fetchUntil patterns
  | peek, c | isNext _, c | current, c | isCurrent _, c => ([], c)

/-- The tokens that calls deliver one after the other, and the cursor behind the last. -/
def runAll : List Call → Cursor → List Token × Cursor
  | [], c => ([], c)
  | call :: calls, c =>
    ((call.run c).1 ++ (runAll calls (call.run c).2).1, (runAll calls (call.run c).2).2)

/-- The cursor goes from one place to another and delivers tokens on the way. -/
structure Moves (c : Cursor) (taken : List Token) (c' : Cursor) : Prop where
  passed : ∃ passed, c.pending = passed ++ c'.pending ∧
    c'.position = c.position + passed.length ∧ LessSkipped c.skips passed taken
  ignored : c'.ignored = c.ignored
  current : c'.current = taken.getLast?.or c.current

theorem Moves.refl (c : Cursor) : Moves c [] c := ⟨⟨[], rfl, rfl, .refl []⟩, rfl, rfl⟩

theorem Moves.trans {more : List Token} {c'' : Cursor} (h : Moves c taken c')
    (h' : Moves c' more c'') : Moves c (taken ++ more) c'' := by
  obtain ⟨⟨passed, hpending, hposition, hsub, hkept⟩, hignored, hcurrent⟩ := h
  obtain ⟨⟨passed', hpending', hposition', hless'⟩, hignored', hcurrent'⟩ := h'
  have hskips : c'.skips = c.skips := by
    unfold skips
    rw [hignored]
  rw [hskips] at hless'
  refine ⟨⟨passed ++ passed', ?_, ?_, hsub.append hless'.1, ?_⟩, hignored'.trans hignored, ?_⟩
  · rw [hpending, hpending', append_assoc]
  · rw [hposition', hposition, length_append, Nat.add_assoc]
  · rw [filter_append, filter_append, hkept, hless'.2]
  · rw [hcurrent', hcurrent, getLast?_append, Option.or_assoc]

theorem moves_moveTo (hpending : c.pending = passed ++ rest)
    (hless : LessSkipped c.skips passed taken) : Moves c taken (c.moveTo taken.getLast? rest) := by
  refine ⟨⟨passed, hpending, ?_, hless⟩, rfl, rfl⟩
  rw [moveTo, hpending, length_append, Nat.add_sub_cancel]

/-- Tokens that are delivered at once. -/
theorem moves_taken {p : List Token × List Token} (hpending : c.pending = passed ++ p.2)
    (hless : LessSkipped c.skips passed p.1) (hnone : p.1 = [] → passed = []) :
    Moves c p.1 (c.moveTo p.1.getLast? p.2) ∧ (p.1 = [] → c.moveTo p.1.getLast? p.2 = c) := by
  refine ⟨moves_moveTo hpending hless, fun hp => ?_⟩
  have hpending : c.pending = p.2 := by rw [hpending, hnone hp, nil_append]
  simp [moveTo, hp, ← hpending]

/-- What a call does. One that delivers nothing does nothing. -/
theorem Call.moves (call : Call) (c : Cursor) :
    Moves c (call.run c).1 (call.run c).2 ∧ ((call.run c).1 = [] → (call.run c).2 = c) := by
  cases call with
  | next =>
    simp only [run, Cursor.next]
    split
    · exact ⟨.refl c, fun _ => rfl⟩
    · next t rest hpending => exact moves_taken (p := ([t], rest)) hpending (.refl [t]) (by simp)
  | fetch patterns =>
    simp only [run, Cursor.fetch]
    split
    · next t rest hfetch =>
      obtain ⟨passed, hpending, hless⟩ := Stream.fetchBy_eq hfetch
      exact moves_taken (p := ([t], rest)) hpending hless (by simp)
    · exact ⟨.refl c, fun _ => rfl⟩
  | fetchAll patterns =>
    obtain ⟨passed, hpending, hless, hnone⟩ :=
      Stream.gatherBy_eq c.skips (Pattern.anyMatches patterns) c.pending
    exact moves_taken hpending hless hnone
  | fetchUntil patterns =>
    exact moves_taken (Stream.upTo_append (Pattern.anyMatches patterns) 0 c.pending).symm
      (.refl _) id
  | peek | isNext | current | isCurrent => exact ⟨.refl c, fun _ => rfl⟩

theorem moves_runAll (calls : List Call) (c : Cursor) :
    Moves c (runAll calls c).1 (runAll calls c).2 := by
  induction calls generalizing c with
  | nil => exact .refl c
  | cons call calls ih => exact (call.moves c).1.trans (ih _)

end Cursor

open Cursor in
/-- A cursor over the tokens of a source loses none that counts. Behind any calls it stands at or in
front of the mark at the end, what was delivered are the tokens in front of it less some that are
skipped, and its current token is the one delivered last. Each further call takes it on or leaves it
where it is; it is left as it is if the call delivers nothing, and else its current token is the
last one that the call delivers. -/
theorem cursor_delivers {source : Text} {tokens : List Token} (h : tokenize source = .ok tokens)
    (ignored : List TokenKind) (calls : List Call) :
    ∃ delivered c, runAll calls (startIgnoring ignored tokens) = (delivered, c) ∧
      c.position < tokens.length ∧ (∀ t ∈ tokens.take c.position, t.kind ≠ .endOfInput) ∧
      LessSkipped (fun t => ignored.contains t.kind) (tokens.take c.position) delivered ∧
      c.current = delivered.getLast? ∧
      ∀ call : Call, c.position ≤ (call.run c).2.position ∧
        ((call.run c).1 = [] → (call.run c).2 = c) ∧
        ((call.run c).1 ≠ [] → (call.run c).2.current = (call.run c).1.getLast?) := by
  obtain ⟨body, hbody, rfl⟩ := map_eq_ok h
  generalize hmark : (⟨.endOfInput, [], byteLength source⟩ : Token) = mark
  have hkinds : ∀ t ∈ body, t.kind ≠ .endOfInput := fun t ht => ((lexemes_tiles hbody).mem ht).1
  have hstart : (startIgnoring ignored (body ++ [mark])).pending = body := by
    rw [startIgnoring, takeWhile_append_of_pos fun t ht => bne_iff_ne.2 (hkinds t ht)]
    simp [← hmark]
  obtain ⟨⟨passed, hpending, hposition, hless⟩, _, hcurrent⟩ :=
    moves_runAll calls (startIgnoring ignored (body ++ [mark]))
  rw [hstart] at hpending
  rw [show ∀ n, (startIgnoring ignored n).position = 0 from fun _ => rfl, Nat.zero_add] at hposition
  rcases hrun : runAll calls (startIgnoring ignored (body ++ [mark])) with ⟨delivered, c⟩
  rw [hrun] at hpending hposition hless hcurrent
  have htake : (body ++ [mark]).take c.position = passed := by
    rw [hposition, hpending, append_assoc, take_left]
  refine ⟨delivered, c, rfl, ?_, ?_, htake ▸ hless, hcurrent.trans Option.or_none, fun call => ?_⟩
  · rw [hposition, hpending]
    simp
  · rw [htake]
    exact fun t ht => hkinds t (hpending ▸ mem_append_left _ ht)
  · obtain ⟨⟨⟨_, _, hnext, _⟩, _, hlast⟩, hstill⟩ := call.moves c
    refine ⟨by omega, hstill, fun hne => ?_⟩
    rw [hlast, getLast?_eq_some_getLast hne]
    rfl

open Cursor in
/-- A name with a comment in it, and blanks behind it that are left. -/
theorem cursor_delivers_name :
    ∃ tokens, tokenize "<?php A/**/\\B ;".toList = .ok tokens ∧ tokens.length = 8 ∧
      ∃ delivered c, runAll [.next, .fetchAll Pattern.name, .fetch [.punct [',']], .peek]
          (start tokens) = (delivered, c) ∧ c.position = 5 ∧ c.position < tokens.length ∧
        LessSkipped (fun t => defaultIgnored.contains t.kind) (tokens.take c.position) delivered ∧
        c.current = delivered.getLast? := by
  have hchecked : (tokenize "<?php A/**/\\B ;".toList).toOption.any (fun tokens =>
      tokens.length == 8 && (runAll [.next, .fetchAll Pattern.name, .fetch [.punct [',']], .peek]
        (start tokens)).2.position == 5) := by decide +kernel
  obtain ⟨tokens, hread, hruns⟩ := (Option.any_eq_true _ _).1 hchecked
  obtain ⟨hlength, hposition⟩ := Bool.and_eq_true_iff.1 hruns
  have htokens := eq_ok_of_toOption hread
  obtain ⟨delivered, c, hrun, hbefore, _, hless, hcurrent, _⟩ :=
    cursor_delivers htokens defaultIgnored
    [.next, .fetchAll Pattern.name, .fetch [.punct [',']], .peek]
  refine ⟨tokens, htokens, eq_of_beq hlength, delivered, c, hrun, ?_, hbefore, hless, hcurrent⟩
  have heq : (runAll _ (start tokens)).2 = c := congrArg Prod.snd hrun
  rw [← heq]
  exact eq_of_beq hposition

/-! ## Up to a delimiter -/

namespace Stream

variable {stop : Token → Bool} {depth i : Nat} {t : Token} {ts : List Token}

/-- The brackets that tokens open less those that they close. -/
def nesting (ts : List Token) : Int := ts.countP Token.isOpening - ts.countP Token.isClosing

/-- Behind `i` tokens nothing is left, or there stands, outside all brackets, a token that stops or
closes a bracket. `depth` brackets are open before the tokens. -/
def StopsAt (stop : Token → Bool) (depth : Nat) (ts : List Token) (i : Nat) : Prop :=
  i = ts.length ∨ depth + nesting (ts.take i) = 0 ∧
    ∃ t ∈ ts[i]?, stop t ∨ t.isClosing

/-- The number of open brackets behind a token. -/
def depthAfter (depth : Nat) (t : Token) : Nat :=
  if t.isOpening then depth + 1 else if t.isClosing then depth - 1 else depth

theorem nesting_cons (h : depth = 0 → t.isClosing = false) (ts : List Token) :
    depth + nesting (t :: ts) = depthAfter depth t + nesting ts := by
  have hone : t.isOpening → t.isClosing = false := by
    unfold Token.isOpening Token.isClosing Token.isPunct
    grind
  unfold nesting depthAfter
  rw [countP_cons, countP_cons]
  cases hopen : t.isOpening <;> cases hclose : t.isClosing <;> grind

theorem stopsAt_cons (h : depth = 0 → t.isClosing = false) :
    StopsAt stop depth (t :: ts) (i + 1) ↔ StopsAt stop (depthAfter depth t) ts i := by
  simp only [StopsAt, length_cons, Nat.add_right_cancel_iff, take_succ_cons, nesting_cons h,
    getElem?_cons_succ]

/-- The tokens are consumed up to the first place to stop, and no bracket is closed among them that
was not opened. -/
theorem upTo_stops (stop : Token → Bool) (depth : Nat) (ts : List Token) :
    ∃ n, upTo stop depth ts = (ts.take n, ts.drop n) ∧ StopsAt stop depth ts n ∧
      (∀ i < n, ¬ StopsAt stop depth ts i) ∧ ∀ i ≤ n, 0 ≤ depth + nesting (ts.take i) := by
  have hzero : ∀ i ≤ 0, 0 ≤ depth + nesting (ts.take i) := by
    intro i hi
    simp [Nat.le_zero.1 hi, nesting]
  induction ts generalizing depth with
  | nil => exact ⟨0, rfl, .inl rfl, nofun, hzero⟩
  | cons t ts ih =>
    by_cases hstop : depth = 0 ∧ (stop t ∨ t.isClosing)
    · obtain ⟨rfl, ht⟩ := hstop
      refine ⟨0, ?_, .inr ⟨rfl, t, rfl, ht⟩, nofun, hzero⟩
      rw [upTo, if_pos (by simpa using ht)]
      rfl
    · have hclosing : depth = 0 → t.isClosing = false := by grind
      obtain ⟨n, htaken, hn, hbefore, hdepth⟩ := ih (depthAfter depth t) (by simp [nesting])
      refine ⟨n + 1, ?_, (stopsAt_cons hclosing).2 hn, fun i hi => ?_, fun i hi => ?_⟩
      · rw [upTo, if_neg (by simpa using hstop)]
        unfold depthAfter at htaken
        simp only [htaken, take_succ_cons, drop_succ_cons]
      · cases i with
        | zero => grind [StopsAt, nesting]
        | succ i => exact fun h => hbefore i (by omega) ((stopsAt_cons hclosing).1 h)
      · cases i with
        | zero => exact hzero 0 (by omega)
        | succ i => rw [take_succ_cons, nesting_cons hclosing]; exact hdepth i (by omega)

end Stream

open Cursor LegacyPhp.Stream in
/-- Consuming tokens up to a delimiter stops at the first place to stop: at the end, or where a
delimiter or a closing bracket stands outside the brackets that are opened on the way. What is
consumed are the tokens before it. No bracket is closed among them that was not opened, and all are
closed if the end is not reached. -/
theorem fetchUntil_stops (patterns : List Pattern) (c : Cursor) :
    ∃ n, StopsAt (Pattern.anyMatches patterns) 0 c.pending n ∧
      (∀ i < n, ¬ StopsAt (Pattern.anyMatches patterns) 0 c.pending i) ∧
      c.fetchUntil patterns = (c.pending.take n, { c with
        pending := c.pending.drop n
        position := c.position + n
        current := (c.pending.take n).getLast?.or c.current }) ∧
      (∀ i ≤ n, 0 ≤ nesting (c.pending.take i)) ∧
      (n < c.pending.length → nesting (c.pending.take n) = 0) := by
  obtain ⟨n, htaken, hn, hbefore, hdepth⟩ := upTo_stops (Pattern.anyMatches patterns) 0 c.pending
  refine ⟨n, hn, hbefore, ?_, by simpa using hdepth, fun hlt => ?_⟩
  · have hle : n ≤ c.pending.length := by
      rcases hn with rfl | ⟨_, t, ht, _⟩
      · exact Nat.le_refl _
      · exact Nat.le_of_lt (List.getElem?_eq_some_iff.1 ht).1
    simp only [fetchUntil, htaken, moveTo, length_drop]
    congr 2
    omega
  · simpa using (hn.resolve_left (by omega)).1

end LegacyPhp
