import LegacyPhp.Token.Stream

/-!
# Reading ahead, token by token

The functions of `Stream` skip trivia in one go. The equations below say what they do at the first
token, which is how a proof that follows the tokens one by one meets them: a token of trivia is
passed over, and any other one decides. The lemmas behind them are about tokens that stand in front
of others: trivia there changes nothing, and what is gathered goes on up to the first token of
another sort.
-/

namespace LegacyPhp

open List

theorem Token.not_isTrivia_of_isPunct {t : Token} {mark : String} (h : t.isPunct mark) :
    t.isTrivia = false := by
  simp only [isPunct, Bool.and_eq_true, beq_iff_eq] at h
  simp [isTrivia, h.1, TokenKind.isTrivia]

theorem Token.not_isTrivia_of_isNamePart {t : Token} (h : t.isNamePart) : t.isTrivia = false := by
  rcases Bool.or_eq_true_iff.1 h with hkind | hmark
  · simp [isTrivia, eq_of_beq hkind, TokenKind.isTrivia]
  · exact not_isTrivia_of_isPunct hmark

namespace Stream

variable (q : Token → Bool) (t : Token) (ts : List Token)

theorem isNext_cons : isNext q (t :: ts) = if t.isTrivia then isNext q ts else q t := by
  unfold isNext peek peekBy
  cases ht : t.isTrivia <;> simp [ht]

theorem fetch_cons :
    fetch q (t :: ts) = if t.isTrivia then fetch q ts else if q t then some (t, ts) else none := by
  unfold fetch fetchBy
  cases ht : t.isTrivia <;> simp [ht]

theorem isSome_fetch : (fetch q ts).isSome = isNext q ts := by
  induction ts with
  | nil => rfl
  | cons t ts ih =>
    rw [fetch_cons, isNext_cons]
    split
    · exact ih
    · cases q t <;> rfl

theorem gather_cons : gather q (t :: ts) =
      if q t then (t :: (gather q ts).1, (gather q ts).2)
      else if t.isTrivia && !(gather q ts).1.isEmpty then gather q ts
      else ([], t :: ts) := by
  unfold gather
  rw [gatherBy]
  generalize gatherBy Token.isTrivia q ts = more
  obtain ⟨taken, rest⟩ := more
  cases taken <;> cases q t <;> cases t.isTrivia <;> rfl

variable {q ts}

theorem gather_eq_of_isEmpty (h : (gather q ts).1.isEmpty) : gather q ts = ([], ts) := by
  cases ts with
  | nil => rfl
  | cons t ts =>
    rw [gather_cons] at h ⊢
    split
    · next hq => rw [if_pos hq] at h; cases h
    · next hq =>
      rw [if_neg hq] at h
      split
      · next hmore =>
        rw [if_pos hmore] at h
        simp [h] at hmore
      · rfl

theorem isEmpty_gather (hq : ∀ t, q t → t.isTrivia = false) (ts : List Token) :
    (gather q ts).1.isEmpty = !isNext q ts := by
  induction ts with
  | nil => rfl
  | cons t ts ih =>
    rw [gather_cons, isNext_cons]
    cases hqt : q t with
    | true => simp [hq t hqt]
    | false =>
      cases t.isTrivia with
      | false => rfl
      | true =>
        cases hempty : (gather q ts).1.isEmpty with
        | true | false => simpa [hempty] using ih

/-- None of them comes next after the last that was gathered. -/
theorem isNext_gather (hq : ∀ t, q t → t.isTrivia = false) (ts : List Token) :
    isNext q (gather q ts).2 = false := by
  induction ts with
  | nil => rfl
  | cons t ts ih =>
    rw [gather_cons]
    split
    · exact ih
    · next hqt =>
      rw [Bool.not_eq_true] at hqt
      split
      · exact ih
      · next hmore =>
        have hempty := isEmpty_gather hq ts
        show isNext q (t :: ts) = false
        rw [isNext_cons]
        cases ht : t.isTrivia with
        | false => exact hqt
        | true =>
          rw [ht, Bool.true_and, Bool.not_eq_true, Bool.not_eq_false'] at hmore
          rw [hmore] at hempty
          simpa using hempty.symm

/-! ## Behind other tokens -/

variable {t : Token} {rest : List Token}

theorem isNext_append_trivia (h : ∀ t ∈ ts, t.isTrivia) (q : Token → Bool) :
    isNext q (ts ++ rest) = isNext q rest := by
  induction ts with
  | nil => rfl
  | cons t ts ih =>
    rw [forall_mem_cons] at h
    rw [cons_append, isNext_cons, h.1, if_pos rfl, ih h.2]

theorem fetch_append_trivia (h : ∀ t ∈ ts, t.isTrivia) (q : Token → Bool) :
    fetch q (ts ++ rest) = fetch q rest := by
  induction ts with
  | nil => rfl
  | cons t ts ih =>
    rw [forall_mem_cons] at h
    rw [cons_append, fetch_cons, h.1, if_pos rfl, ih h.2]

theorem isNext_append_cons (h : ∀ t ∈ ts, t.isTrivia) (ht : t.isTrivia = false)
    (q : Token → Bool) : isNext q (ts ++ t :: rest) = q t := by
  rw [isNext_append_trivia h, isNext_cons, ht]
  rfl

theorem fetch_append_cons (h : ∀ t ∈ ts, t.isTrivia) (ht : t.isTrivia = false)
    (hq : q t) : fetch q (ts ++ t :: rest) = some (t, rest) := by
  rw [fetch_append_trivia h, fetch_cons, ht, hq]
  rfl

theorem isNext_eq_false {r : Token → Bool} (h : isNext q ts)
    (hqr : ∀ t, q t → r t = false) : isNext r ts = false := by
  unfold isNext at h ⊢
  cases hpeek : peek ts with
  | none => rfl
  | some t =>
    rw [hpeek] at h
    exact hqr t h

theorem fetch_eq_some (h : fetch q ts = some (t, rest)) : ∃ gap, ts = gap ++ t :: rest ∧
    (∀ g ∈ gap, g.isTrivia) ∧ t.isTrivia = false ∧ q t := by
  induction ts with
  | nil => cases h
  | cons u ts ih =>
    rw [fetch_cons] at h
    split at h
    · next hu =>
      obtain ⟨gap, rfl, hgap, ht⟩ := ih h
      exact ⟨u :: gap, rfl, forall_mem_cons.2 ⟨hu, hgap⟩, ht⟩
    · next hu =>
      split at h
      · next hq => cases h; exact ⟨[], rfl, nofun, by simpa using hu, hq⟩
      · cases h

theorem fetch_eq_none (h : isNext q ts = false) : fetch q ts = none := by
  rw [← Option.not_isSome_iff_eq_none, isSome_fetch, h]
  exact Bool.false_ne_true

theorem gather_append (h : ∀ t ∈ ts, q t) (hrest : (gather q rest).1.isEmpty) :
    gather q (ts ++ rest) = (ts, rest) := by
  induction ts with
  | nil => exact gather_eq_of_isEmpty hrest
  | cons t ts ih =>
    rw [forall_mem_cons] at h
    rw [cons_append, gather_cons, if_pos h.1, ih h.2]

theorem gather_append_trivia (h : ∀ t ∈ ts, t.isTrivia ∧ q t = false)
    (hrest : (gather q rest).1.isEmpty = false) : gather q (ts ++ rest) = gather q rest := by
  induction ts with
  | nil => rfl
  | cons t ts ih =>
    rw [forall_mem_cons] at h
    rw [cons_append, gather_cons, h.1.1, h.1.2, ih h.2, hrest]
    rfl

end Stream

end LegacyPhp
