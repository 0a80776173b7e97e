import LegacyPhp.Proofs.Convert.Layout
import LegacyPhp.Proofs.Convert.Passes
import LegacyPhp.Proofs.Token.ClosingBrace
import Mathlib.Data.List.Chain

/-!
# Which tokens version marks leave

`activate` looks for the partner of a delimiter while it goes along the tokens. The same result has
a closed form that looks at all tokens at once. The delimiters are numbered from the left, and the
first is paired with the second, the third with the fourth, and so on. A token is left out if it
stands between the two of a pair, or if it is the white space behind the second (`LeftOut`). The
others stay in order (`staying`), and each is written as it is, or as the code in it if it is a
marked comment (`shown`).

`activateVersionMarks_kept` says that the two agree. The step is `staying_of_pair`: a pair at the
front takes all through its second delimiter away, and what stands behind it is numbered from the
left again.
-/

namespace LegacyPhp

open Text Scan

variable {inCode : Bool} {b : Before} {rest marker : Text} {p : Nat → Bool}

theorem Reads.blockComment_eq {text : Text} (h : Reads inCode b .comment text rest)
    (hblock : startsWith text ['/', '*']) : ∃ inner, text = inner ++ ['/'] := by
  cases h with
  | @code _ pos _ c cs _ h =>
    cases scans_of_scanCode h with
    | lineComment hc =>
      -- a line comment starts with another mark
      obtain ⟨tail, htail⟩ := startsWith_iff.1 hblock
      obtain ⟨rfl, rfl⟩ := List.cons.inj htail
      simp [nextIs] at hc
    | comment _ _ hbody =>
      obtain ⟨inner, hinner⟩ := blockComment_last hbody
      exact ⟨c :: '*' :: inner, congrArg (c :: '*' :: ·) hinner⟩

end LegacyPhp

namespace LegacyPhp.Legacy

open Text Scan List

variable {ts : List Token} {t : Token} {ds : List Nat} {inner left : List Token}

/-! ## The closed form -/

/-- The places of the delimiters, from the left. -/
def delimiterPlaces (ts : List Token) : List Nat :=
  (List.range ts.length).filter fun i => ts[i]?.any isDelimiter

/-- White space stands at the place. -/
def isWhiteAt (ts : List Token) (i : Nat) : Bool := ts[i]?.any (·.kind == .whitespace)

/-- The place lies between the delimiters of a pair, or white space stands there right behind the
second of them. -/
def LeftOut (ts : List Token) (i : Nat) : Prop :=
  ∃ k first last, (delimiterPlaces ts)[2 * k]? = some first ∧
    (delimiterPlaces ts)[2 * k + 1]? = some last ∧
    (first ≤ i ∧ i ≤ last ∨ i = last + 1 ∧ isWhiteAt ts i)

/-- The members of a list, two by two. -/
def pairs : List Nat → List (Nat × Nat)
  | a :: b :: rest => (a, b) :: pairs rest
  | _ => []

theorem mem_pairs {a b : Nat} :
    (a, b) ∈ pairs ds ↔ ∃ k, ds[2 * k]? = some a ∧ ds[2 * k + 1]? = some b := by
  fun_induction pairs ds with
  | case1 x y rest ih =>
    rw [mem_cons, ih]
    constructor
    · rintro (heq | ⟨k, hk⟩)
      · obtain ⟨rfl, rfl⟩ := Prod.mk.inj heq
        exact ⟨0, rfl, rfl⟩
      · exact ⟨k + 1, hk⟩
    · rintro ⟨_ | k, hfirst, hlast⟩
      · cases hfirst
        cases hlast
        exact .inl rfl
      · exact .inr ⟨k, hfirst, hlast⟩
  | case2 ds hds =>
    refine ⟨nofun, fun ⟨k, hfirst, hlast⟩ => ?_⟩
    obtain _ | ⟨x, _ | ⟨y, rest⟩⟩ := ds
    · cases hfirst
    · cases hlast
    · exact (hds x y rest rfl).elim

theorem leftOut_iff {i : Nat} : LeftOut ts i ↔ ∃ p ∈ pairs (delimiterPlaces ts),
      p.1 ≤ i ∧ i ≤ p.2 ∨ i = p.2 + 1 ∧ isWhiteAt ts i := by
  constructor
  · rintro ⟨k, first, last, hfirst, hlast, hin⟩
    exact ⟨(first, last), mem_pairs.2 ⟨k, hfirst, hlast⟩, hin⟩
  · rintro ⟨⟨first, last⟩, hmem, hin⟩
    obtain ⟨k, hfirst, hlast⟩ := mem_pairs.1 hmem
    exact ⟨k, first, last, hfirst, hlast, hin⟩

instance (ts : List Token) (i : Nat) : Decidable (LeftOut ts i) :=
  decidable_of_iff _ leftOut_iff.symm

/-- The tokens at the places that satisfy `p`. -/
def atPlaces (p : Nat → Bool) (ts : List Token) : List Token :=
  (ts.zipIdx.filter fun q => p q.2).map Prod.fst

/-- The tokens that are not left out. -/
def staying (ts : List Token) : List Token := atPlaces (fun i => !decide (LeftOut ts i)) ts

/-- What is written for a token: the code in a marked comment, without blanks around it, and any
other token as it is. -/
def shown (marker : Text) (t : Token) : Text :=
  if t.kind = .comment ∧ markOpening marker <+: t.text ∧
      byteLength (markOpening marker) + 2 ≤ byteLength t.text then
    trim ((t.text.drop (markOpening marker).length).dropLast.dropLast)
  else t.text

/-! ## Places behind other tokens -/

theorem delimiterPlaces_cons (t : Token) (ts : List Token) : delimiterPlaces (t :: ts) =
      (if isDelimiter t then [0] else []) ++ (delimiterPlaces ts).map (· + 1) := by
  unfold delimiterPlaces
  rw [length_cons, range_succ_eq_map, filter_cons, filter_map]
  cases ht : isDelimiter t <;> simp [ht, Function.comp_def]

theorem delimiterPlaces_append (xs ys : List Token) : delimiterPlaces (xs ++ ys) =
      delimiterPlaces xs ++ (delimiterPlaces ys).map (· + xs.length) := by
  induction xs with
  | nil => simp [delimiterPlaces]
  | cons x xs ih =>
    rw [cons_append, delimiterPlaces_cons, delimiterPlaces_cons, ih, map_append,
      map_map, append_assoc]
    simp only [Function.comp_def, length_cons, Nat.add_assoc]

theorem delimiterPlaces_eq_nil (h : ∀ t ∈ ts, isDelimiter t = false) : delimiterPlaces ts = [] := by
  induction ts with
  | nil => rfl
  | cons t ts ih =>
    rw [forall_mem_cons] at h
    rw [delimiterPlaces_cons, h.1, ih h.2]
    rfl

theorem pairs_map (f : Nat → Nat) (ds : List Nat) :
    pairs (ds.map f) = (pairs ds).map fun p => (f p.1, f p.2) := by
  fun_induction pairs ds with
  | case1 a b rest ih =>
    rw [map_cons, map_cons, pairs, ih]
    rfl
  | case2 ds hds =>
    obtain _ | ⟨x, _ | ⟨y, rest⟩⟩ := ds
    · rfl
    · rfl
    · exact (hds x y rest rfl).elim

theorem atPlaces_append (p : Nat → Bool) (xs ys : List Token) :
    atPlaces p (xs ++ ys) = atPlaces p xs ++ atPlaces (fun i => p (xs.length + i)) ys := by
  unfold atPlaces
  rw [zipIdx_append, filter_append, map_append, Nat.zero_add,
    @zipIdx_eq_map_add _ ys xs.length, filter_map, map_map]
  rfl

theorem atPlaces_cons (p : Nat → Bool) (t : Token) (ts : List Token) :
    atPlaces p (t :: ts) = (if p 0 then [t] else []) ++ atPlaces (fun i => p (i + 1)) ts := by
  rw [← singleton_append, atPlaces_append]
  simp only [length_singleton, Nat.add_comm 1]
  unfold atPlaces
  cases hp : p 0 <;> simp [hp]

theorem atPlaces_congr {q : Nat → Bool} (h : ∀ i < ts.length, p i = q i) :
    atPlaces p ts = atPlaces q ts := by
  unfold atPlaces
  refine congrArg (List.map Prod.fst) (filter_congr fun x hx => h x.2 ?_)
  simpa using (mem_zipIdx hx).2.1

theorem atPlaces_eq_nil (h : ∀ i < ts.length, p i = false) : atPlaces p ts = [] := by
  rw [atPlaces_congr h]
  simp [atPlaces]

/-! ## What is left out -/

theorem leftOut_cons (ht : isDelimiter t = false) (i : Nat) :
    LeftOut (t :: ts) (i + 1) ↔ LeftOut ts i := by
  rw [leftOut_iff, leftOut_iff, delimiterPlaces_cons, ht, if_neg Bool.false_ne_true,
    nil_append, pairs_map]
  have hwhite : isWhiteAt (t :: ts) (i + 1) = isWhiteAt ts i := by simp [isWhiteAt]
  simp only [mem_map, exists_exists_and_eq_and, hwhite, Nat.add_le_add_iff_right,
    Nat.add_right_cancel_iff]

theorem not_leftOut_zero (ht : isDelimiter t = false) : ¬ LeftOut (t :: ts) 0 := by
  rw [leftOut_iff, delimiterPlaces_cons, ht, if_neg Bool.false_ne_true, nil_append, pairs_map]
  rintro ⟨p, hp, hin⟩
  obtain ⟨q, _, rfl⟩ := mem_map.1 hp
  dsimp only at hin
  omega

theorem staying_cons (ht : isDelimiter t = false) (ts : List Token) :
    staying (t :: ts) = t :: staying ts := by
  unfold staying
  rw [atPlaces_cons, decide_eq_false (not_leftOut_zero ht)]
  simp only [leftOut_cons ht]
  rfl

theorem staying_of_single (hts : ∀ u ∈ ts, isDelimiter u = false) :
    staying (t :: ts) = t :: ts := by
  have hnone : pairs (delimiterPlaces (t :: ts)) = [] := by
    rw [delimiterPlaces_cons, delimiterPlaces_eq_nil hts]
    cases isDelimiter t <;> rfl
  have hall : ∀ i < (t :: ts).length, (!decide (LeftOut (t :: ts) i)) := by
    intro i _
    rw [Bool.not_eq_true', decide_eq_false_iff_not, leftOut_iff, hnone]
    exact fun ⟨_, hmem, _⟩ => nomatch hmem
  unfold staying
  rw [atPlaces_congr hall, atPlaces, filter_eq_self.2 fun _ _ => rfl, zipIdx_map_fst]

/-- A pair at the front: all through its second delimiter is left out, and white space behind it. -/
theorem leftOut_of_pair {opener closer : Token} {inner left : List Token}
    (hopener : isDelimiter opener) (hinner : ∀ t ∈ inner, isDelimiter t = false)
    (hcloser : isDelimiter closer) (i : Nat) :
    LeftOut (opener :: (inner ++ closer :: left)) i ↔
      i < inner.length + 2 ∨ ∃ j, i = inner.length + 2 + j ∧
        (j = 0 ∧ isWhiteAt left 0 ∨ LeftOut left j) := by
  have hplaces : delimiterPlaces (opener :: (inner ++ closer :: left)) =
      0 :: (inner.length + 1) :: (delimiterPlaces left).map (· + (inner.length + 2)) := by
    rw [delimiterPlaces_cons, hopener, delimiterPlaces_append, delimiterPlaces_eq_nil hinner,
      delimiterPlaces_cons, hcloser]
    simp [Function.comp_def]
    omega
  have hwhite : ∀ j, isWhiteAt (opener :: (inner ++ closer :: left)) (inner.length + 2 + j) =
      isWhiteAt left j := by
    intro j
    have hsplit : opener :: (inner ++ closer :: left) = (opener :: inner ++ [closer]) ++ left := by
      simp
    unfold isWhiteAt
    rw [hsplit, getElem?_append_right (by simp)]
    simp
  rw [leftOut_iff, hplaces, pairs, pairs_map]
  simp only [mem_cons, exists_eq_or_imp, mem_map, exists_exists_and_eq_and]
  constructor
  · rintro ((⟨_, hle⟩ | ⟨rfl, hat⟩) | ⟨p, hp, hin⟩)
    · exact .inl (by omega)
    · exact .inr ⟨0, rfl, .inl ⟨rfl, (hwhite 0).symm.trans hat⟩⟩
    · by_cases hlt : i < inner.length + 2
      · exact .inl hlt
      · obtain ⟨j, rfl⟩ := Nat.exists_eq_add_of_le (Nat.le_of_not_lt hlt)
        rw [hwhite] at hin
        exact .inr ⟨j, rfl, .inr (leftOut_iff.2 ⟨p, hp,
          hin.imp (fun h => by omega) fun h => ⟨by omega, h.2⟩⟩)⟩
  · rintro (hlt | ⟨j, rfl, ⟨rfl, hat⟩ | hleft⟩)
    · exact .inl (.inl (by omega))
    · exact .inl (.inr ⟨rfl, (hwhite 0).trans hat⟩)
    · obtain ⟨p, hp, hin⟩ := leftOut_iff.1 hleft
      rw [hwhite]
      exact .inr ⟨p, hp, hin.imp (fun h => by omega) fun h => ⟨by omega, h.2⟩⟩

/-- Two tokens of white space never touch. -/
def WhiteApart (ts : List Token) : Prop :=
  ts.IsChain fun t u => t.kind = .whitespace → u.kind ≠ .whitespace

/-- A pair at the front goes with all that it encloses, and with the white space behind it. -/
theorem staying_of_pair {opener closer : Token} (hopener : isDelimiter opener)
    (hinner : ∀ t ∈ inner, isDelimiter t = false) (hcloser : isDelimiter closer)
    (hleft : WhiteApart left) : staying (opener :: (inner ++ closer :: left)) =
      staying (left.dropWhile (·.kind == .whitespace)) := by
  have hsplit : opener :: (inner ++ closer :: left) = (opener :: inner ++ [closer]) ++ left := by
    simp
  have hlength : (opener :: inner ++ [closer]).length = inner.length + 2 := by simp
  have hout := @leftOut_of_pair opener closer inner left hopener hinner hcloser
  have hbehind : staying (opener :: (inner ++ closer :: left)) =
      atPlaces (fun j => !decide (j = 0 ∧ isWhiteAt left 0 ∨ LeftOut left j)) left := by
    unfold staying
    rw [hsplit, atPlaces_append, ← hsplit, hlength, atPlaces_eq_nil, nil_append]
    · refine atPlaces_congr fun j _ => congrArg (!·) (decide_eq_decide.2 ((hout _).trans ?_))
      constructor
      · rintro (hlt | ⟨k, hk, h⟩)
        · omega
        · obtain rfl : j = k := by omega
          exact h
      · exact fun h => .inr ⟨j, rfl, h⟩
    · intro i hi
      rw [hlength] at hi
      rw [decide_eq_true ((hout i).2 (.inl hi))]
      rfl
  rw [hbehind]
  cases left with
  | nil => rfl
  | cons t left =>
    by_cases ht : t.kind = .whitespace
    · -- the white space goes, and no other follows it
      have hdelimiter : isDelimiter t = false := by simp [isDelimiter, ht]
      have hnext : left.dropWhile (·.kind == .whitespace) = left := by
        cases left with
        | nil => rfl
        | cons u left =>
          have hu := (isChain_cons_cons.1 hleft).1 ht
          rw [dropWhile_cons_of_neg (by simpa using hu)]
      rw [dropWhile_cons_of_pos (by simpa using ht), hnext, atPlaces_cons]
      have hwhite : isWhiteAt (t :: left) 0 := by simp [isWhiteAt, ht]
      simp only [hwhite, and_true, true_or, decide_true, Bool.not_true, Bool.false_eq_true,
        if_false, nil_append, Nat.add_one_ne_zero, false_or, leftOut_cons hdelimiter]
      rfl
    · have hwhite : isWhiteAt (t :: left) 0 = false := by simp [isWhiteAt, ht]
      rw [dropWhile_cons_of_neg (by simpa using ht)]
      simp only [hwhite, Bool.false_eq_true, and_false, false_or]
      rfl

/-! ## The pass -/

/-- The tokens through the next delimiter. -/
theorem afterDelimiter?_eq_some (h : afterDelimiter? ts = some left) :
    ∃ inner closer, ts = inner ++ closer :: left ∧ (∀ t ∈ inner, isDelimiter t = false) ∧
      isDelimiter closer := by
  induction ts with
  | nil => cases h
  | cons t ts ih =>
    unfold afterDelimiter? at h
    split at h
    · next ht =>
      cases h
      exact ⟨[], t, rfl, by simp, ht⟩
    · next ht =>
      obtain ⟨inner, closer, rfl, hinner, hcloser⟩ := ih h
      refine ⟨t :: inner, closer, rfl, ?_, hcloser⟩
      rw [forall_mem_cons]
      exact ⟨Bool.eq_false_iff.2 ht, hinner⟩

/-- The closed form, for tokens that `shown` reads as the pass does. -/
theorem activate_eq_staying {marker : Text} (hwhite : WhiteApart ts)
    (hshown : ∀ t ∈ ts, shown marker t =
      (if t.kind == .comment then markedCode? (markOpening marker) t.text else none).getD t.text)
    (hplain : ∀ t, isDelimiter t → markedCode? (markOpening marker) t.text = none) :
    activate (markOpening marker) ts = (staying ts).flatMap (shown marker) := by
  generalize hopening : markOpening marker = opening at hshown hplain ⊢
  fun_induction activate opening ts with
  | case1 => rfl
  | case2 t rest code hcode ih =>
    rw [dite_eq_ite] at hcode
    have ht : isDelimiter t = false := by
      refine Bool.eq_false_iff.2 fun ht => ?_
      rw [hplain t ht, ite_self] at hcode
      cases hcode
    rw [staying_cons ht, flatMap_cons, hshown t mem_cons_self, hcode,
      ih hwhite.tail fun u hu => hshown u (mem_cons_of_mem t hu)]
    rfl
  | case3 =>
    -- the delimiter and its partner
    rename_i t rest _ left hleft ih
    rw [dite_eq_ite] at hleft
    split at hleft
    · next ht =>
      obtain ⟨inner, closer, rfl, hinner, hcloser⟩ := afterDelimiter?_eq_some hleft
      have hsuffix : left <:+ t :: (inner ++ closer :: left) := ⟨t :: inner ++ [closer], by simp⟩
      have hdropped := (dropWhile_suffix (·.kind == .whitespace)).trans hsuffix
      rw [staying_of_pair ht hinner hcloser (hwhite.suffix hsuffix)]
      exact ih (hwhite.suffix hdropped) fun u hu => hshown u (hdropped.subset hu)
    · cases hleft
  | case4 =>
    rename_i t rest hcode hnone ih
    rw [dite_eq_ite] at hcode hnone
    have htail := ih hwhite.tail fun u hu => hshown u (mem_cons_of_mem t hu)
    have ht : shown marker t = t.text := by rw [hshown t mem_cons_self, hcode]; rfl
    cases hdelimiter : isDelimiter t with
    | false => rw [staying_cons hdelimiter, flatMap_cons, ht, htail]
    | true =>
      -- no delimiter follows, so nothing is left out
      rw [if_pos hdelimiter, afterDelimiter?_eq_none] at hnone
      have hrest : ∀ u ∈ rest, isDelimiter u = false := fun u hu =>
        Bool.eq_false_iff.2 (countP_eq_zero.1 hnone u hu)
      have hstaying : staying rest = rest := by
        cases rest with
        | nil => rfl
        | cons u rest => exact staying_of_single (forall_mem_cons.1 hrest).2
      rw [staying_of_single hrest, flatMap_cons, ht, htail, hstaying]

/-! ## The tokens of a source -/

/-- White space is taken in one piece. -/
theorem whiteApart_of_chain (h : Chain inCode b ts rest) : WhiteApart ts := by
  induction ts generalizing inCode b with
  | nil => exact .nil
  | cons t ts ih =>
    cases ts with
    | nil => exact .singleton t
    | cons u ts =>
      refine .cons_cons (fun ht hu => ?_) (ih h.2)
      have hnext : goesOn t.kind t.text (serialize (u :: ts) ++ rest) = false := h.1.not_goesOn
      have hread := h.2.1
      rw [hu] at hread
      obtain ⟨c, cs, htext⟩ := exists_cons_of_ne_nil hread.text_ne_nil
      have hspace : isSpace c :=
        all_eq_true.1 hread.all_isSpace c (htext ▸ mem_cons_self)
      have hgo : isSpace c = false := by
        rw [ht, serialize_cons, htext] at hnext
        exact hnext
      rw [hspace] at hgo
      cases hgo

theorem markOpening_eq (marker : Text) : markOpening marker = '/' :: '*' :: (marker ++ ['*']) := rfl

theorem markedCode?_of_isDelimiter (h : isDelimiter t) :
    markedCode? (markOpening marker) t.text = none := by
  have htext : t.text = "/**/".toList := by
    simp only [isDelimiter, Bool.and_eq_true, beq_iff_eq] at h
    exact h.2
  unfold markedCode?
  cases hrest : after? (markOpening marker) t.text with
  | none => rfl
  | some rest =>
    have hlength := congrArg List.length (after?_eq_some hrest)
    rw [htext, markOpening_eq] at hlength
    simp at hlength
    exact if_neg (by omega)

/-- Bytes and characters say the same about whether a comment is long enough, since it ends in a
slash. -/
theorem shown_eq (h : Reads inCode b t.kind t.text rest) (marker : Text) : shown marker t =
      (if t.kind == .comment then markedCode? (markOpening marker) t.text
        else none).getD t.text := by
  unfold shown
  by_cases hkind : t.kind = .comment
  · rw [hkind] at h
    simp only [hkind, beq_self_eq_true, if_true, true_and]
    unfold markedCode?
    cases hafter : after? (markOpening marker) t.text with
    | none => rw [if_neg fun hmark => after?_eq_none.1 hafter hmark.1]; rfl
    | some left =>
      have htext := after?_eq_some hafter
      obtain ⟨inner, hinner⟩ := Reads.blockComment_eq h (startsWith_iff.2
        ⟨marker ++ ['*'] ++ left, by rw [htext, markOpening_eq]; simp⟩)
      have hstart : markOpening marker <+: t.text := ⟨left, htext.symm⟩
      have hlong : byteLength (markOpening marker) + 2 ≤ byteLength t.text ↔ 2 ≤ left.length := by
        rw [htext, byteLength_append, Nat.add_le_add_iff_left]
        have hle := length_le_byteLength left
        obtain _ | ⟨c, _ | ⟨d, left⟩⟩ := left
        · simp
        · -- a single character is the slash, of one byte
          rw [htext] at hinner
          obtain ⟨_, hc⟩ := append_inj' hinner rfl
          obtain rfl := (cons.inj hc).1
          decide
        · simp only [length_cons] at hle ⊢
          omega
      simp only [hstart, true_and, hlong]
      split
      · rw [htext, drop_left, dropLast_eq_take, dropLast_eq_take, take_take,
          length_take, Nat.min_eq_left (by omega), Nat.min_eq_left (by omega)]
        rfl
      · rfl
  · simp [hkind]

/-! ## Delimiters that stay -/

/-- Among places in order those in no pair are the last one, if their number is odd. -/
theorem filter_not_in_pairs (h : ds.Pairwise (· < ·)) :
    (ds.filter fun i => !decide (∃ p ∈ pairs ds, p.1 ≤ i ∧ i ≤ p.2)) =
      if ds.length % 2 = 1 then ds.getLast?.toList else [] := by
  fun_induction pairs ds with
  | case1 a b rest ih =>
    rw [pairwise_cons, pairwise_cons] at h
    obtain ⟨ha, hb, hrest⟩ := h
    have hab : a < b := ha b mem_cons_self
    have htail : (rest.filter fun i =>
        !decide (∃ p ∈ (a, b) :: pairs rest, p.1 ≤ i ∧ i ≤ p.2)) =
        rest.filter fun i => !decide (∃ p ∈ pairs rest, p.1 ≤ i ∧ i ≤ p.2) := by
      refine filter_congr fun i hi => congrArg (!·) (decide_eq_decide.2 ?_)
      have hbehind : b < i := hb i hi
      simp only [mem_cons, exists_eq_or_imp]
      exact or_iff_right (by omega)
    have hparity : (a :: b :: rest).length % 2 = rest.length % 2 := by
      simp only [length_cons]
      omega
    rw [filter_cons_of_neg (by simp; omega), filter_cons_of_neg (by simp; omega), htail,
      ih hrest, hparity]
    cases rest with
    | nil => rfl
    | cons c rest => simp
  | case2 ds hds =>
    obtain _ | ⟨x, _ | ⟨y, rest⟩⟩ := ds
    · rfl
    · simp
    · exact (hds x y rest rfl).elim

theorem pairwise_delimiterPlaces (ts : List Token) : (delimiterPlaces ts).Pairwise (· < ·) :=
  pairwise_lt_range.filter _

/-- The delimiters that are not left out: the last one if their number is odd, and none if it is
even. -/
theorem delimiters_staying (ts : List Token) :
    ((delimiterPlaces ts).filter fun i => !decide (LeftOut ts i)) =
      if (delimiterPlaces ts).length % 2 = 1 then (delimiterPlaces ts).getLast?.toList else [] := by
  rw [← filter_not_in_pairs (pairwise_delimiterPlaces ts)]
  refine filter_congr fun i hi => congrArg (!·) (decide_eq_decide.2 ?_)
  -- a delimiter is no white space
  have hwhite : isWhiteAt ts i = false := by
    have hdelimiter : ts[i]?.any isDelimiter := (mem_filter.1 hi).2
    unfold isWhiteAt
    cases hget : ts[i]? with
    | none => rfl
    | some t =>
      rw [hget] at hdelimiter
      have ht : isDelimiter t := hdelimiter
      simp only [isDelimiter, Bool.and_eq_true, beq_iff_eq] at ht
      simp [ht.1]
  simp only [leftOut_iff, hwhite, Bool.false_eq_true, and_false, or_false]

/-- The closed form of version marks. The tokens of the source are written in order, without those
between the first and the second delimiter, the third and the fourth, and so on, both included, and
without white space right behind a second one; a marked comment is written as the code in it. So at
most one delimiter stays: the last one, where their number is odd. -/
theorem activateVersionMarks_kept {source : Text} {ts : List Token} (h : lexemes source = .ok ts)
    (path : Path) (marker : Text) :
    activateVersionMarks path marker source = .ok ((staying ts).flatMap (shown marker)) ∧
      ((delimiterPlaces ts).filter fun i => !decide (LeftOut ts i)) =
        if (delimiterPlaces ts).length % 2 = 1 then (delimiterPlaces ts).getLast?.toList
        else [] := by
  refine ⟨?_, delimiters_staying ts⟩
  have hchain := chain_of_lexemes h
  have hshown : ∀ t ∈ ts, shown marker t =
      (if t.kind == .comment then markedCode? (markOpening marker) t.text
        else none).getD t.text := by
    intro t ht
    obtain ⟨mode, memory, left, hread⟩ := hchain.reads_of_mem ht
    exact shown_eq hread marker
  rw [activateVersionMarks, lexemesOf_eq_ok.2 h]
  exact congrArg Except.ok (activate_eq_staying (whiteApart_of_chain hchain) hshown
    fun t ht => markedCode?_of_isDelimiter ht)

/-- A pair around a mark, a literal and a tag, two delimiters that touch, a mark outside, and one
delimiter without a partner. -/
def markedPage : Text :=
  "<?php /**/ a('/**/'); /*5.2* b(); */ ?>x<?php /**/ /**//**/\n".toList ++
    "/*5.2* c(); */ /**/ d();".toList

theorem activateVersionMarks_kept_odd :
    ∃ ts, lexemes markedPage = .ok ts ∧ (delimiterPlaces ts).length = 5 ∧
      (staying ts).flatMap (shown "5.2".toList) = "<?php c(); /**/ d();".toList ∧
      activateVersionMarks [] "5.2".toList markedPage = .ok "<?php c(); /**/ d();".toList := by
  have hchecked : (lexemes markedPage).toOption.any (fun ts => (delimiterPlaces ts).length == 5 &&
      (staying ts).flatMap (shown "5.2".toList) == "<?php c(); /**/ d();".toList) := by
    decide +kernel
  obtain ⟨ts, hread, hts⟩ := (Option.any_eq_true _ _).1 hchecked
  rw [Bool.and_eq_true, beq_iff_eq, beq_iff_eq] at hts
  have hlex := eq_ok_of_toOption hread
  refine ⟨ts, hlex, hts.1, hts.2, ?_⟩
  rw [(activateVersionMarks_kept hlex [] "5.2".toList).1, hts.2]

end LegacyPhp.Legacy
