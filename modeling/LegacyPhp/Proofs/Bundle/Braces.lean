import LegacyPhp.Proofs.Bundle.Run
import LegacyPhp.Proofs.Lossless

/-!
# The braces of the units in a bundle

A unit whose braces are balanced does not always reach the bundle with balanced braces. An opening
brace that ends an import or an inclusion is taken away with the directive, while the closing brace
is copied later on. The brace that opens a namespace is taken away too, but then the closing one is
left out.

`follow` is the depth along some marks. `Run.follow_due` follows the braces that are due along a
run: those that were copied, and those that directives have taken, since their closing braces are
still to come. The load-bearing fact is `owed`: at a place of a unit where `n` braces are open, the
closing braces to come are one for every copied brace on the unit's stack, and one for each of the
braces that the stack does not know of.
-/

namespace LegacyPhp.Bundle

open Text List

variable {t : Token} {stack : List Bool} {n left d : Nat} {ts rest : List Token} {s : UnitState}
  {b : Bundler} {o : BundleOptions} {moves : List Move} {u : UnitContext} {tree : FileTree}

/-! ## Marks -/

/-- What counts for nesting: braces, and the word that opens a namespace block. -/
inductive Mark where
  | up
  | down
  | block
  deriving DecidableEq, Repr

/-- The brace that a token is. -/
def brace? (t : Token) : Option Mark :=
  if t.isPunct "\x7b" then some .up else if t.isPunct "\x7d" then some .down else none

/-- What a token counts for. -/
def mark? (t : Token) : Option Mark :=
  if t.isKeyword .namespaceKw then some .block else brace? t

/-- The braces of tokens. -/
def bracesOf (ts : List Token) : List Mark := ts.filterMap brace?

/-- The marks of tokens. -/
def marks (ts : List Token) : List Mark := ts.filterMap mark?

/-- The depth behind some marks, from the depth in front of them. There is none if a brace closes
that is not open, or if a block opens inside a brace. -/
def follow : Nat → List Mark → Option Nat
  | d, [] => some d
  | d, .up :: ms => follow (d + 1) ms
  | 0, .down :: _ => none
  | d + 1, .down :: ms => follow d ms
  | 0, .block :: ms => follow 0 ms
  | _ + 1, .block :: _ => none

theorem follow_append (d : Nat) (first second : List Mark) :
    follow d (first ++ second) = (follow d first).bind (follow · second) := by
  fun_induction follow d first with
  | case1 => rfl
  | case2 d ms ih => exact ih
  | case3 => rfl
  | case4 d ms ih | case5 ms ih => exact ih
  | case6 => rfl

theorem kind_of_isPunct {mark : String} (h : t.isPunct mark) : t.kind = .punctuation := by
  simp only [Token.isPunct, Bool.and_eq_true, beq_iff_eq] at h
  exact h.1

theorem brace?_of_kind (h : t.kind ≠ .punctuation) : brace? t = none := by
  simp [brace?, Token.isPunct, h]

theorem brace?_eq_none (hopen : t.isPunct "\x7b" = false) (hclose : t.isPunct "\x7d" = false) :
    brace? t = none := by
  simp [brace?, hopen, hclose]

theorem bracesOf_cons_of_none (h : brace? t = none) (rest : List Token) :
    bracesOf (t :: rest) = bracesOf rest := by
  rw [bracesOf, filterMap_cons, h]
  rfl

theorem bracesOf_cons_up (h : t.isPunct "\x7b") (rest : List Token) :
    bracesOf (t :: rest) = .up :: bracesOf rest := by
  rw [bracesOf, filterMap_cons, brace?, if_pos h]
  rfl

theorem bracesOf_cons_down (h : t.isPunct "\x7d") (rest : List Token) :
    bracesOf (t :: rest) = .down :: bracesOf rest := by
  have hopen : t.isPunct "\x7b" = false := isPunct_eq_false h (by decide)
  rw [bracesOf, filterMap_cons, brace?, hopen, if_neg Bool.false_ne_true, if_pos h]
  rfl

/-! ## The braces that are due -/

namespace Move

/-- The braces of units that a move writes. -/
def copied : Move → List Mark
  | copy _ t => (brace? t).toList
  | _ => []

/-- Whether a move takes an opening brace away that opens no block. -/
def losesBrace : Move → Bool
  | take d t => t.isPunct "\x7b" && d != .enter
  | _ => false

/-- Whether a directive takes a closing brace. -/
def takesClosing : Move → Bool
  | take _ t => t.isPunct "\x7d"
  | _ => false

/-- Whether the braces of a unit that starts are balanced. -/
def startsBalanced : Move → Bool
  | start _ tokens => follow 0 (bracesOf tokens) == some 0
  | _ => true

/-- The braces of units that a move writes or takes away, the closing ones being still to come. -/
def due (m : Move) : List Mark := if m.losesBrace then [.up] else m.copied

end Move

/-- The braces that are due after moves. -/
def due (moves : List Move) : List Mark := moves.flatMap Move.due

@[simp] theorem due_nil : due [] = [] := rfl

@[simp] theorem due_cons (m : Move) (moves : List Move) : due (m :: moves) = m.due ++ due moves :=
  rfl

@[simp] theorem due_append (first second : List Move) :
    due (first ++ second) = due first ++ due second := flatMap_append

theorem due_of_isOwn (h : moves.all Move.isOwn) : due moves = [] := by
  refine flatMap_eq_nil_iff.2 fun m hm => ?_
  have hown := all_eq_true.1 h m hm
  cases m <;> first | rfl | cases hown

@[simp] theorem due_enterMoves (b : Bundler) : due (enterMoves b) = [] :=
  due_of_isOwn (isOwn_enterMoves b)

@[simp] theorem due_restoreMoves (b before : Bundler) : due (restoreMoves b before) = [] :=
  due_of_isOwn (isOwn_restoreMoves b before)

@[simp] theorem due_startMoves (b : Bundler) (tokens : List Token) :
    due (startMoves b tokens) = [] := by
  unfold startMoves
  split <;> rfl

@[simp] theorem due_directiveMoves (u : UnitContext) (s : UnitState) (d : Directive) (t : Token) :
    due (directiveMoves u s d t) = [] :=
  due_of_isOwn (isOwn_directiveMoves u s d t)

/-! ## What a unit owes -/

/-- The closing braces to come at a place of a unit where `n` braces are open: one for every copied
brace on the stack, and one for every brace that is not on the stack because a directive took it. -/
def owed (stack : List Bool) (n : Nat) : Nat := stack.count false + (n - stack.length)

theorem owed_false_cons (h : stack.length ≤ n) :
    owed (false :: stack) (n + 1) = owed stack n + 1 := by
  simp only [owed, count_cons_self, length_cons]
  omega

theorem owed_true_cons (n : Nat) : owed (true :: stack) (n + 1) = owed stack n := by
  simp only [owed, count_cons_of_ne (by decide : true ≠ false), length_cons]
  omega

theorem owed_succ (h : stack.length ≤ n) : owed stack (n + 1) = owed stack n + 1 := by
  simp only [owed]
  omega

/-- The mark at the end of the input is the last token. -/
def EndsUnit (ts : List Token) : Prop :=
  ∀ t rest, t :: rest <:+ ts → t.kind = .endOfInput → rest = []

theorem EndsUnit.tail (h : EndsUnit (t :: ts)) : EndsUnit ts :=
  fun u rest hrest => h u rest (hrest.trans (suffix_cons t ts))

/-- The tokens that are left of a unit close what is open but for `left` braces, and `d` closing
braces are owed to the bundle. -/
def UnitState.Owes (s : UnitState) (ts : List Token) (left d : Nat) : Prop :=
  EndsUnit ts ∧ ∃ n, follow n (bracesOf ts) = some left ∧ s.braces.length ≤ n ∧ owed s.braces n = d

/-- A unit that has come to its end owes what the stack and the braces left open make. -/
def Verdict.Owes (v : Verdict) (stack : List Bool) (ts : List Token) (left d : Nat) : Prop :=
  match v with
  | next s => s.Owes ts left d
  | stop _ => stack.length ≤ left ∧ owed stack left = d
  | fail _ _ => True

theorem UnitState.Owes.skip {s : UnitState} {rest : List Token} {left : Nat}
    (h : s.Owes (t :: rest) left d) (ht : brace? t = none) : s.Owes rest left d := by
  obtain ⟨hend, n, hfollow, hlen, howed⟩ := h
  rw [bracesOf_cons_of_none ht] at hfollow
  exact ⟨hend.tail, n, hfollow, hlen, howed⟩

theorem UnitState.Owes.at_end (h : s.Owes ts left d) (hts : bracesOf ts = []) :
    s.braces.length ≤ left ∧ owed s.braces left = d := by
  obtain ⟨_, n, hfollow, hlen, howed⟩ := h
  rw [hts] at hfollow
  cases hfollow
  exact ⟨hlen, howed⟩

theorem eq_zero_of_closed (h : stack.length ≤ 0 ∧ owed stack 0 = d) : d = 0 := by
  have hnil : stack = [] := length_eq_zero_iff.1 (Nat.le_zero.1 h.1)
  rw [← h.2, hnil]
  rfl

theorem bracesOf_of_isUnitEnd (h : isUnitEnd ts) : bracesOf ts = [] := by
  refine filterMap_eq_nil_iff.2 fun t ht => brace?_of_kind fun hkind => ?_
  have hends := all_eq_true.1 h t ht
  simp [hkind] at hends

theorem UnitState.Owes.of_braces {s' : UnitState} (h : s.Owes ts left d)
    (hbraces : s'.braces = s.braces) : s'.Owes ts left d := by
  unfold UnitState.Owes
  rw [hbraces]
  exact h

/-! ## Tokens outside directives -/

theorem due_emitMove (s : UnitState) (t : Token) : (emitMove s t).due = (brace? t).toList := rfl

theorem due_plainMoves (ht : brace? t = none) (s : UnitState) (rest : List Token) :
    due (plainMoves s t rest) = [] := by
  have hemit : ∀ s, due [emitMove s t] = [] := by
    intro s
    rw [due_cons, due_emitMove, ht]
    rfl
  unfold plainMoves
  repeat' split
  · exact hemit s
  · rfl
  · exact hemit s
  · rfl
  · exact hemit _
  · exact hemit s

theorem plainToken_owes_of_none (h : s.Owes (t :: rest) left d) (ht : brace? t = none) :
    ∃ d', (plainToken s t rest).Owes s.braces rest left d' ∧
      ∀ k, follow (k + d) (due (plainMoves s t rest)) = some (k + d') := by
  have hnext : s.Owes rest left d := h.skip ht
  rw [due_plainMoves ht]
  refine ⟨d, ?_, fun k => rfl⟩
  by_cases hstop : t.kind = .closeTag ∧ isUnitEnd rest
  · -- the unit ends here, and no brace is to come
    simpa [plainToken, hstop.1, hstop.2, Verdict.Owes] using
      hnext.at_end (bracesOf_of_isUnitEnd hstop.2)
  · unfold plainToken
    split
    · exact hnext
    split
    · next htag =>
      split
      · next hunit => exact absurd ⟨by simpa using htag, hunit⟩ hstop
      · exact hnext
    split
    · next hopen => simp [brace?, hopen] at ht
    next hopen =>
    split
    · next hclose => simp [brace?, hopen, hclose] at ht
    split <;> exact hnext

theorem plainToken_owes_of_up (h : s.Owes (t :: rest) left d) (hopen : t.isPunct "\x7b") :
    (plainToken s t rest).Owes s.braces rest left (d + 1) ∧
      ∀ k, follow (k + d) (due (plainMoves s t rest)) = some (k + (d + 1)) := by
  obtain ⟨hend, n, hfollow, hlen, howed⟩ := h
  have hkind : t.kind = .punctuation := kind_of_isPunct hopen
  have hclose : t.isPunct "\x7d" = false := isPunct_eq_false hopen (by decide)
  have hparen : t.isPunct ")" = false := isPunct_eq_false hopen (by decide)
  rw [bracesOf_cons_up hopen] at hfollow
  have hmoves : plainMoves s t rest = [emitMove s t] := by
    simp [plainMoves, hkind, hclose, hparen]
  have hplain : plainToken s t rest =
      .next ({ s with braces := false :: s.braces }.emit t.text) := by
    simp [plainToken, hkind, hopen]
  rw [hmoves, hplain]
  refine ⟨⟨hend.tail, n + 1, hfollow, Nat.succ_le_succ hlen, ?_⟩, fun k => ?_⟩
  · rw [← howed]
    exact owed_false_cons hlen
  · rw [due_cons, due_emitMove, brace?, if_pos hopen]
    rfl

theorem plainToken_owes_of_down (h : s.Owes (t :: rest) left d) (hclose : t.isPunct "\x7d") :
    ∃ d', (plainToken s t rest).Owes s.braces rest left d' ∧
      ∀ k, follow (k + d) (due (plainMoves s t rest)) = some (k + d') := by
  obtain ⟨hend, n, hfollow, hlen, howed⟩ := h
  have hkind : t.kind = .punctuation := kind_of_isPunct hclose
  have hopen : t.isPunct "\x7b" = false := isPunct_eq_false hclose (by decide)
  have hparen : t.isPunct ")" = false := isPunct_eq_false hclose (by decide)
  rw [bracesOf_cons_down hclose] at hfollow
  have hdown : ∀ k e, follow (k + (e + 1)) (due [emitMove s t]) = some (k + e) := by
    intro k e
    rw [due_cons, due_emitMove, brace?, hopen, if_neg Bool.false_ne_true, if_pos hclose]
    rfl
  cases n with
  | zero => cases hfollow
  | succ n =>
    simp only [plainToken, plainMoves, hkind, hopen, hclose, hparen]
    rcases hstack : s.braces with _ | ⟨_ | _, stack⟩
    · -- the stack does not know of the brace, but the unit owes it
      rw [hstack] at howed
      refine ⟨owed [] n, ⟨hend.tail, n, hfollow, Nat.zero_le n, rfl⟩, fun k => ?_⟩
      rw [← howed, owed_succ (Nat.zero_le n)]
      exact hdown k _
    · rw [hstack] at howed hlen
      have hstackLen : stack.length ≤ n := Nat.le_of_succ_le_succ hlen
      refine ⟨owed stack n, ⟨hend.tail, n, hfollow, hstackLen, rfl⟩, fun k => ?_⟩
      rw [← howed, owed_false_cons hstackLen]
      exact hdown k _
    · -- the brace of a namespace is left out on both sides
      rw [hstack] at howed hlen
      refine ⟨d, ⟨hend.tail, n, hfollow, Nat.le_of_succ_le_succ hlen, ?_⟩, fun k => rfl⟩
      rw [← howed, owed_true_cons]

theorem plainToken_owes (h : s.Owes (t :: rest) left d) :
    ∃ d', (plainToken s t rest).Owes s.braces rest left d' ∧
      ∀ k, follow (k + d) (due (plainMoves s t rest)) = some (k + d') := by
  by_cases hopen : t.isPunct "\x7b"
  · exact ⟨d + 1, plainToken_owes_of_up h hopen⟩
  · by_cases hclose : t.isPunct "\x7d"
    · exact plainToken_owes_of_down h hclose
    · exact plainToken_owes_of_none h
        (brace?_eq_none (by simpa using hopen) (by simpa using hclose))

/-! ## Directives -/

/-- The stack after a directive that the token `t` ended. -/
def stackAfter (stack : List Bool) (d : Directive) (t : Token) : List Bool :=
  if d = .enter ∧ t.isPunct "\x7b" = true then true :: stack else stack

theorem stackAfter_of_not_open {d : Directive} (h : t.isPunct "\x7b" = false) (stack : List Bool) :
    stackAfter stack d t = stack := by
  simp [stackAfter, h]

theorem runDirective_braces (u : UnitContext) (s : UnitState) (d : Directive) (t : Token) :
    (runDirective u s d t).1.braces = stackAfter s.braces d t := by
  cases d with
  | enter =>
    cases hopen : t.isPunct "\x7b" with
    | false =>
      rw [stackAfter_of_not_open hopen]
      simp only [runDirective, hopen]
      rfl
    | true =>
      simp only [runDirective, hopen, stackAfter, and_self, if_true]
      rfl
  | use =>
    have hstack : stackAfter s.braces .use t = s.braces := by simp [stackAfter]
    rw [hstack]
    simp only [runDirective]
    split <;> rfl
  | inclusion word =>
    have hstack : stackAfter s.braces (.inclusion word) t = s.braces := by simp [stackAfter]
    rw [hstack]
    simp only [runDirective]
    split <;> rfl

/-- A directive that takes no closing brace leaves the unit with what it owes, and one brace more if
it takes an opening brace that opens no block. -/
theorem take_owes (directive : Directive) (h : s.Owes (t :: rest) left d)
    (hclose : t.isPunct "\x7d" = false) :
    ∃ d', (∀ s' : UnitState, s'.braces = stackAfter s.braces directive t → s'.Owes rest left d') ∧
      ∀ k, follow (k + d) (Move.take directive t).due = some (k + d') := by
  cases hopen : t.isPunct "\x7b" with
  | false =>
    have ht : brace? t = none := brace?_eq_none hopen hclose
    refine ⟨d, fun s' hs' => ?_, fun k => ?_⟩
    · rw [stackAfter_of_not_open hopen] at hs'
      exact (h.skip ht).of_braces hs'
    · simp only [Move.due, Move.losesBrace, hopen, Bool.false_and]
      rfl
  | true =>
    obtain ⟨hend, n, hfollow, hlen, howed⟩ := h
    rw [bracesOf_cons_up hopen] at hfollow
    by_cases henter : directive = .enter
    · refine ⟨d, fun s' hs' => ⟨hend.tail, n + 1, hfollow, ?_, ?_⟩, fun k => ?_⟩
      · rw [hs', stackAfter, if_pos ⟨henter, hopen⟩]
        exact Nat.succ_le_succ hlen
      · rw [hs', stackAfter, if_pos ⟨henter, hopen⟩, owed_true_cons, howed]
      · simp only [Move.due, Move.losesBrace, henter, bne_self_eq_false, Bool.and_false]
        rfl
    · have hstack : stackAfter s.braces directive t = s.braces := by simp [stackAfter, henter]
      refine ⟨d + 1, fun s' hs' => ⟨hend.tail, n + 1, hfollow, ?_, ?_⟩, fun k => ?_⟩
      · rw [hs', hstack]
        exact Nat.le_succ_of_le hlen
      · rw [hs', hstack, owed_succ hlen, howed]
      · have hloses : (Move.take directive t).losesBrace := by
          simp [Move.losesBrace, hopen, henter]
        rw [Move.due, if_pos hloses]
        rfl

/-! ## Steps -/

theorem follow_due_append {more : List Move} {a b c : Nat} (h : follow a (due moves) = some b)
    (h' : follow b (due more) = some c) : follow a (due (moves ++ more)) = some c := by
  rw [due_append, follow_append, h]
  exact h'

theorem significantToken_owes (h : s.Owes (t :: rest) left d)
    (hclosing : ∀ m ∈ significantMoves u s t rest, m.takesClosing = false) :
    ∃ d', (significantToken u s t rest).Owes s.braces rest left d' ∧
      ∀ k, follow (k + d) (due (significantMoves u s t rest)) = some (k + d') := by
  unfold significantToken significantMoves at *
  cases hpending : s.pending with
  | none => exact plainToken_owes h
  | some directive =>
    simp only [hpending] at hclosing
    have hclose : t.isPunct "\x7d" = false := hclosing _ mem_cons_self
    obtain ⟨d', hrest, htake⟩ := take_owes directive h hclose
    by_cases hends : endsDirective directive t
    · have hstack := runDirective_braces u s directive t
      simp only [hends, if_true, due_cons, due_append, due_directiveMoves, nil_append]
      rcases hrun : runDirective u s directive t with ⟨after, _ | f⟩
      · rw [hrun] at hstack
        simp only [Option.isNone_none, Bool.and_true]
        split
        · next htag =>
          -- a close tag is no brace, so it is as if the directive had taken nothing
          have hopen : t.isPunct "\x7b" = false := by
            have hkind : t.kind = .closeTag := by simpa using htag
            simp [Token.isPunct, hkind]
          rw [stackAfter_of_not_open hopen] at hstack
          have hafter : ({ after with
              collected := [],
              pending := if t.isPunct "," then some directive else none } : UnitState).Owes
                (t :: rest) left d := h.of_braces hstack
          obtain ⟨d'', hplain, hfollow⟩ := plainToken_owes hafter
          refine ⟨d'', hstack ▸ hplain, fun k => ?_⟩
          have hnone : (Move.take directive t).due = [] := by
            simp [Move.due, Move.losesBrace, hopen, Move.copied]
          rw [hnone]
          exact hfollow k
        · refine ⟨d', hrest _ hstack, fun k => ?_⟩
          rw [due_nil, append_nil]
          exact htake k
      · simp only [Option.isNone_some, Bool.and_false, Bool.false_eq_true, if_false]
        refine ⟨d', trivial, fun k => ?_⟩
        rw [due_nil, append_nil]
        exact htake k
    · have hopen : t.isPunct "\x7b" = false := by
        cases hopen : t.isPunct "\x7b" with
        | false => rfl
        | true => exact absurd (by simp [endsDirective, hopen]) hends
      simp only [hends, Bool.false_eq_true, if_false]
      refine ⟨d', hrest _ (stackAfter_of_not_open hopen _).symm, fun k => ?_⟩
      rw [due_cons, due_nil, append_nil]
      exact htake k

theorem kind_of_role_last (h : role o b t rest = .last) : t.kind = .endOfInput := by
  unfold role at h
  split at h
  · next hkind => exact hkind
  · cases h
  · cases h
  · split at h
    · cases h
    · split at h <;> cases h
  · split at h <;> cases h
  · cases h
  · cases h
  · split at h <;> cases h
  · cases h

theorem stepToken_owes (h : s.Owes (t :: rest) left d)
    (hclosing : ∀ m ∈ stepMoves u s t rest, m.takesClosing = false) :
    ∃ d', (stepToken u s t rest).Owes s.braces rest left d' ∧
      ∀ k, follow (k + d) (due (stepMoves u s t rest)) = some (k + d') := by
  have hskip : role u.options s.bundler t rest ≠ .significant → s.Owes rest left d :=
    fun hrole => h.skip (brace?_of_kind fun hkind => hrole (by simp only [role, hkind]))
  rw [stepToken_eq]
  unfold stepMoves at *
  cases hrole : role u.options s.bundler t rest with
  | significant =>
    rw [hrole] at hclosing
    exact significantToken_owes h hclosing
  | last =>
    -- nothing follows the mark at the end
    have hrest : rest = [] := h.1 t rest (suffix_refl _) (kind_of_role_last hrole)
    have hnext := hskip (by rw [hrole]; exact Role.noConfusion)
    exact ⟨d, hnext.at_end (by rw [hrest]; rfl), fun k => rfl⟩
  | blank =>
    have hnext := hskip (by rw [hrole]; exact Role.noConfusion)
    refine ⟨d, ?_, fun k => rfl⟩
    simp only
    split <;> exact hnext.of_braces rfl
  | _ => exact ⟨d, (hskip (by rw [hrole]; exact Role.noConfusion)).of_braces rfl, fun k => rfl⟩

/-- A token that has inlined a file goes on as a directive does. -/
theorem afterInline_owes {origin : Path} {target : Path} {after : Bundler}
    (h : s.Owes (t :: rest) left d) (hcall : inlineCall? tree origin s t = some target)
    (hclosing : ∀ m ∈ inlinedMoves s t rest after, m.takesClosing = false) :
    ∃ d', (afterInline s t rest after).Owes s.braces rest left d' ∧
      ∀ k, follow (k + d) (due (inlinedMoves s t rest after)) = some (k + d') := by
  obtain ⟨word, hpending, _⟩ := pending_of_inlineCall? hcall
  -- the directive takes its last token, restoring brings no braces, and then it is a plain token
  unfold afterInline inlinedMoves at *
  simp only [hpending, Option.toList_some, map_cons, map_nil, cons_append,
    nil_append, due_cons, due_append, due_restoreMoves] at hclosing ⊢
  have hclose : t.isPunct "\x7d" = false := hclosing _ mem_cons_self
  obtain ⟨d', hrest, htake⟩ := take_owes (.inclusion word) h hclose
  have hstack : stackAfter s.braces (.inclusion word) t = s.braces := by simp [stackAfter]
  split
  · next htag =>
    have hkind : t.kind = .closeTag := by simpa using htag
    have hafter : (s.inlined t after).Owes (t :: rest) left d := h.of_braces rfl
    obtain ⟨d'', hplain, hfollow⟩ := plainToken_owes hafter
    refine ⟨d'', hplain, fun k => ?_⟩
    have hnone : (Move.take (.inclusion word) t).due = [] := by
      simp [Move.due, Move.losesBrace, Token.isPunct, hkind, Move.copied]
    rw [hnone]
    exact hfollow k
  · refine ⟨d', hrest _ hstack.symm, fun k => ?_⟩
    rw [due_enterMoves, append_nil]
    exact htake k

/-! ## Runs -/

/-- A task that starts from `d` braces it owes and closes them. Files and texts owe nothing at their
start. -/
def Task.Owes : Task → Nat → Prop
  | file _ _, d => d = 0
  | content _ _ _, d => d = 0
  | tokens _ _ s ts, d => s.Owes ts 0 d
  | verdict _ _ v ts, d => ∃ stack, v.Owes stack ts 0 d

section Tokens

variable {origin : Path} {content source : Text} {tokens : List Token}

theorem tokenizeUnit_eq_ok : tokenizeUnit origin content = .ok tokens ↔
      ∃ ts, lexemes content = .ok ts ∧ tokens = ts ++ [⟨.endOfInput, [], byteLength content⟩] := by
  unfold tokenizeUnit tokenize
  cases lexemes content with
  | error e =>
    refine ⟨fun h => ?_, fun ⟨_, h, _⟩ => ?_⟩
    · cases h
    · cases h
  | ok ts =>
    constructor
    · intro h
      cases h
      exact ⟨ts, rfl, rfl⟩
    · rintro ⟨_, h, rfl⟩
      cases h
      rfl

theorem placedTokens_of_stays (h : tokenizeUnit origin content = .ok tokens)
    (hstays : placeInNamespace o tokens content = none) :
    placedTokens o origin content = .ok (content, tokens) := by
  rw [placedTokens, h]
  simp only [hstays]

theorem tokenizeUnit_of_placedTokens (h : placedTokens o origin content = .ok (source, tokens)) :
    tokenizeUnit origin source = .ok tokens := by
  unfold placedTokens at h
  split at h
  · cases h
  · next found hfound =>
    split at h
    · cases h
      exact hfound
    · obtain ⟨placed, hplaced, heq⟩ := map_eq_ok h
      cases heq
      exact hplaced

theorem endsUnit_of_placedTokens (h : placedTokens o origin content = .ok (source, tokens)) :
    EndsUnit tokens := by
  obtain ⟨body, hbody, rfl⟩ := tokenizeUnit_eq_ok.1 (tokenizeUnit_of_placedTokens h)
  intro t rest hsuffix hkind
  rcases eq_nil_or_concat rest with rfl | ⟨init, last, rfl⟩
  · rfl
  · -- in front of the last token there is no such mark
    obtain ⟨front, hfront⟩ := hsuffix
    rw [concat_eq_append, ← cons_append, ← append_assoc] at hfront
    have hmem : t ∈ body := by
      rw [← (append_inj' hfront rfl).1]
      exact mem_append_right _ mem_cons_self
    exact absurd hkind ((lexemes_tiles hbody).mem hmem).1

end Tokens

/-- A unit starts with what its tokens bring along. -/
theorem unitStart_owes {tokens : List Token} (hend : EndsUnit tokens)
    (hfollow : follow n (bracesOf tokens) = some left) :
    (unitStart b tokens).Owes (unitTokens b tokens) left n := by
  have howed : owed [] n = n := by simp [owed]
  unfold unitTokens
  split
  · next hjoins =>
    cases tokens with
    | nil => exact ⟨hend, n, hfollow, Nat.zero_le n, howed⟩
    | cons t rest =>
      -- the open tag that is left out is no brace
      have hkind : t.kind = .openTag := by
        simp only [joinsCode, head?_cons, Option.any_some, Bool.and_eq_true, beq_iff_eq] at hjoins
        exact hjoins.2
      rw [bracesOf_cons_of_none (brace?_of_kind (by rw [hkind]; exact TokenKind.noConfusion))]
        at hfollow
      exact ⟨hend.tail, n, hfollow, Nat.zero_le n, howed⟩
  · exact ⟨hend, n, hfollow, Nat.zero_le n, howed⟩

/-- In balanced units whose directives take no closing brace, the braces that are due get closed. -/
theorem Run.follow_due {task : Task} {p : Progress} (h : Run o tree task moves p) (hp : p.2 = none)
    (hmoves : ∀ m ∈ moves, m.startsBalanced ∧ m.takesClosing = false) (hd : task.Owes d) (k : Nat) :
    follow (k + d) (due moves) = some k := by
  induction h generalizing d k with
  | unlocated | unread | unguarded | unplaced | fail => cases hp
  | again => cases hd; rfl
  | load _ _ _ _ _ ih =>
    exact ih hp (forall_mem_cons.1 (forall_mem_cons.1 hmoves).2).2 hd k
  | @unit _ _ _ _ tokens _ _ hplaced _ ih =>
    obtain ⟨hstart, hrest⟩ := forall_mem_cons.1 hmoves
    have hbalanced : follow 0 (bracesOf tokens) = some 0 := by
      simpa [Move.startsBalanced] using hstart.1
    cases hd
    rw [due_cons, due_append, due_startMoves]
    exact ih hp (forall_mem_append.1 hrest).2
      (unitStart_owes (endsUnit_of_placedTokens hplaced) hbalanced) k
  | done =>
    have hzero : d = 0 := eq_zero_of_closed (UnitState.Owes.at_end hd rfl)
    rw [hzero]
    rfl
  | step hcall _ ih =>
    obtain ⟨hstep, hrest⟩ := forall_mem_append.1 hmoves
    obtain ⟨d', howes, hfollow⟩ := stepToken_owes hd fun m hm => (hstep m hm).2
    exact follow_due_append (hfollow k) (ih hp hrest ⟨_, howes⟩ k)
  | inline hcall _ _ ihfile ih =>
    obtain ⟨hinner, hrest⟩ := forall_mem_append.1 hmoves
    obtain ⟨hdirective, hrest⟩ := forall_mem_append.1 hrest
    obtain ⟨d', howes, hfollow⟩ := afterInline_owes hd hcall fun m hm => (hdirective m hm).2
    have hfile := ihfile rfl hinner (d := 0) rfl (k + d)
    exact follow_due_append hfile (follow_due_append (hfollow k) (ih hp hrest ⟨_, howes⟩ k))
  | broken _ _ => cases hp
  | next _ ih =>
    obtain ⟨_, hd⟩ := hd
    exact ih hp hmoves hd k
  | stop =>
    obtain ⟨_, hd⟩ := hd
    rw [eq_zero_of_closed hd]
    rfl

end LegacyPhp.Bundle
