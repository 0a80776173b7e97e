import LegacyPhp.Convert
import LegacyPhp.Proofs.Convert.Drift

/-!
# The end of a conversion

After qualification the closures are lifted, package lines are added and blank lines are cut.
Lifting that finds no closure returns the text as it was (`extractClosures_of_first?`,
`extractClosures_of_entries`). The other two passes move a text forward in the order of `Drift` or
leave it alone. Cutting twice is cutting once: the first cut leaves at most `maxBreaks` line breaks
of either kind in a row, and shortening the runs of one kind never joins runs of the other.
-/

namespace LegacyPhp

open Text Drift List

variable {source ns helper : Text} {tokens ts : List Token} {path : Path}

theorem lexemesOf_eq_ok : lexemesOf path source = .ok tokens ↔ lexemes source = .ok tokens := by
  unfold lexemesOf
  cases lexemes source with
  | error | ok => constructor <;> intro h <;> cases h <;> rfl

namespace Closure

theorem liftAll_of_first? (u : Source) (stem : Text) (index : Nat) (inCode : Bool)
    (h : first? ts = none) :
    ∃ ends, liftAll u stem index inCode ts = .ok ⟨serialize ts, [], ends⟩ := by
  induction ts generalizing inCode with
  | nil => exact ⟨inCode, by rw [liftAll]; rfl⟩
  | cons t rest ih =>
    unfold first? at h
    split at h
    · cases h
    · next hstart =>
      obtain ⟨ends, hrest⟩ := ih (inCodeAfter inCode t) h
      refine ⟨ends, ?_⟩
      rw [liftAll, if_neg hstart, hrest]
      rfl

/-- If no closure was lifted, there was none. -/
theorem first?_of_liftAll {u : Source} {stem : Text} {index : Nat} {inCode : Bool} {r : Result}
    (h : liftAll u stem index inCode ts = .ok r) (hr : r.closures = []) :
    r.text = serialize ts ∧ first? ts = none := by
  induction ts generalizing inCode r with
  | nil =>
    rw [liftAll] at h
    cases h
    exact ⟨rfl, rfl⟩
  | cons t rest ih =>
    rw [liftAll] at h
    unfold first?
    split at h
    · split at h
      · cases h
      · obtain ⟨more, _, rfl⟩ := map_eq_ok h
        cases hr
    · next hstart =>
      obtain ⟨more, hmore, rfl⟩ := map_eq_ok h
      obtain ⟨htext, hnone⟩ := ih hmore hr
      rw [if_neg hstart]
      exact ⟨by rw [htext, serialize_cons], hnone⟩

theorem throughOpenTag_append (ts : List Token) :
    (throughOpenTag ts).1 ++ (throughOpenTag ts).2 = ts := by
  induction ts with
  | nil => rfl
  | cons t ts ih =>
    unfold throughOpenTag
    split
    · rfl
    · simp only [cons_append, ih]

end Closure

theorem extractClosures_of_first? (path : Path) (helper : Text) (hlex : lexemes source = .ok tokens)
    (h : Closure.first? (Closure.throughOpenTag tokens).2 = none) :
    ∃ e, extractClosures path helper source = .ok e ∧ e.text = source ∧ e.table.entries = [] := by
  obtain ⟨ends, hlift⟩ := Closure.liftAll_of_first? ⟨path, source, helper⟩
    (ClosureTable.stemOf path) 0 true h
  have hserialize : serialize (Closure.throughOpenTag tokens).1 ++
      serialize (Closure.throughOpenTag tokens).2 = source := by
    rw [← serialize_append, Closure.throughOpenTag_append, (lexemes_tiles hlex).serialize_eq]
  refine ⟨⟨source, ⟨ClosureTable.stemOf path, []⟩⟩, ?_, rfl, rfl⟩
  simp only [extractClosures, lexemesOf_eq_ok.2 hlex, bind, Except.bind, hlift, Closure.assemble,
    isEmpty_nil, if_true, hserialize]
  rfl

theorem extractClosures_eq_ok {e : Extraction} (h : extractClosures path helper source = .ok e) :
    ∃ tokens r, lexemes source = .ok tokens ∧ Closure.liftAll ⟨path, source, helper⟩
        (ClosureTable.stemOf path) 0 true (Closure.throughOpenTag tokens).2 = .ok r ∧
      e = ⟨Closure.assemble helper (serialize (Closure.throughOpenTag tokens).1) r,
        ⟨ClosureTable.stemOf path, r.closures⟩⟩ := by
  simp only [extractClosures, bind, Except.bind] at h
  cases hlex : lexemesOf path source with
  | error f => rw [hlex] at h; cases h
  | ok tokens =>
    simp only [hlex] at h
    split at h
    · cases h
    · next r hr => exact ⟨tokens, r, lexemesOf_eq_ok.1 hlex, hr, (Except.ok.inj h).symm⟩

/-- If no closure is lifted out of a unit, it has none and is returned as it is. -/
theorem extractClosures_of_entries {e : Extraction} (h : extractClosures path helper source = .ok e)
    (he : e.table.entries = []) :
    e.text = source ∧ ∃ tokens, lexemes source = .ok tokens ∧
      Closure.first? (Closure.throughOpenTag tokens).2 = none := by
  obtain ⟨tokens, r, hlex, hr, rfl⟩ := extractClosures_eq_ok h
  have hclosures : r.closures = [] := he
  obtain ⟨htext, hnone⟩ := Closure.first?_of_liftAll hr hclosures
  refine ⟨?_, tokens, hlex, hnone⟩
  simp only [Closure.assemble, hclosures, isEmpty_nil, if_true]
  rw [htext, ← serialize_append, Closure.throughOpenTag_append, (lexemes_tiles hlex).serialize_eq]

namespace Legacy

/-! ## Package lines -/

/-- A package line brings an `@` along. -/
theorem replaceDocEnds_advances (hns : commentMarks ns = 0) (lineStart : Bool) (cs : Text) :
    let line := " * @package ".toList ++ ns ++ "\n */".toList
    Advances cs (replaceDocEnds line lineStart cs) ∨ replaceDocEnds line lineStart cs = cs := by
  intro line
  fun_induction replaceDocEnds line lineStart cs with
  | case1 => exact .inr rfl
  | case2 rest ih =>
    have hsheds : Sheds [' ', '*', '/'] line := by
      have hmarks : commentMarks [' ', '*', '/'] = 1 ∧ commentMarks " * @package ".toList = 0 ∧
          commentMarks "\n */".toList = 1 := ⟨by decide, by decide, by decide⟩
      have hadded : addedMarks [' ', '*', '/'] = 0 ∧ addedMarks " * @package ".toList = 1 :=
        ⟨by decide, by decide⟩
      refine .inr ?_
      simp only [line, commentMarks_append, addedMarks_append]
      omega
    exact .inl (hsheds.advances.append ih)
  | case3 rest lineStart hstart ih =>
    rcases ih with ih | ih
    · exact .inl (ih.append_left [' ', '*', '/'])
    · exact .inr (by rw [ih])
  | case4 =>
    rename_i c rest _ ih
    rcases ih with ih | ih
    · exact .inl (ih.append_left [c])
    · exact .inr (by rw [ih])

/-! ## Blank lines -/

theorem cutCrLf_advances (count : Nat) (cs : Text) :
    Advances cs (cutCrLf count cs) ∨ cutCrLf count cs = cs := by
  fun_induction cutCrLf count cs with
  | case1 => exact .inr rfl
  | case2 count rest hcount ih =>
    rcases ih with ih | ih
    · exact .inl (ih.append_left ['\r', '\n'])
    · exact .inr (by rw [ih])
  | case3 count rest hcount ih =>
    have hsheds : Sheds ['\r', '\n'] [] := .inr ⟨rfl, .inr ⟨rfl, by decide⟩⟩
    exact .inl (hsheds.advances.append ih)
  | case4 count c rest _ ih =>
    rcases ih with ih | ih
    · exact .inl (ih.append_left [c])
    · exact .inr (by rw [ih])

theorem cutLf_advances (count : Nat) (cs : Text) :
    Advances cs (cutLf count cs) ∨ cutLf count cs = cs := by
  induction cs generalizing count with
  | nil => exact .inr rfl
  | cons c rest ih =>
    have hkept : ∀ n, Advances (c :: rest) (c :: cutLf n rest) ∨ c :: cutLf n rest = c :: rest := by
      intro n
      rcases ih n with ih | ih
      · exact .inl (ih.append_left [c])
      · exact .inr (by rw [ih])
    unfold cutLf
    split
    · next hbreak =>
      have hbreak : c = '\n' := by simpa using hbreak
      split
      · exact hkept _
      · have hsheds : Sheds [c] [] := by
          subst hbreak
          exact .inr ⟨rfl, .inr ⟨rfl, by decide⟩⟩
        exact .inl (hsheds.advances.append (ih count))
    · exact hkept 0

theorem cutBlankLines_advances (cs : Text) :
    Advances cs (cutBlankLines cs) ∨ cutBlankLines cs = cs :=
  advances_or_eq_trans (cutCrLf_advances 0 cs) (cutLf_advances 0 (cutCrLf 0 cs))

theorem head?_cutCrLf_zero (cs : Text) : (cutCrLf 0 cs).head? = cs.head? := by
  unfold cutCrLf
  split <;> rfl

theorem head?_cutLf_zero (cs : Text) : (cutLf 0 cs).head? = cs.head? := by
  cases cs with
  | nil => rfl
  | cons c rest =>
    unfold cutLf
    split <;> rfl

theorem cutCrLf_cons {c : Char} {rest : Text} (h : c = '\r' → rest.head? ≠ some '\n')
    (count : Nat) : cutCrLf count (c :: rest) = c :: cutCrLf 0 rest := by
  rw [cutCrLf]
  rintro tail rfl rfl
  exact h rfl rfl

theorem cutCrLf_cutCrLf (count : Nat) (cs : Text) :
    cutCrLf count (cutCrLf count cs) = cutCrLf count cs := by
  fun_induction cutCrLf count cs with
  | case1 => rfl
  | case2 count rest hcount ih => rw [cutCrLf, if_pos hcount, ih]
  | case3 count rest hcount ih => exact ih
  | case4 count c rest hnot ih =>
    rw [cutCrLf_cons, ih]
    -- no pair arises from what was cut behind the character, since the first break is kept
    rintro rfl hhead
    rw [head?_cutCrLf_zero] at hhead
    cases rest with
    | nil => cases hhead
    | cons d rest =>
      cases hhead
      exact hnot rest rfl rfl

theorem cutLf_cutLf (count : Nat) (cs : Text) : cutLf count (cutLf count cs) = cutLf count cs := by
  induction cs generalizing count with
  | nil => rfl
  | cons c rest ih =>
    by_cases hbreak : (c == '\n')
    · by_cases hcount : count < maxBreaks
      · simp only [cutLf, hbreak, hcount, if_true, ih]
      · simp only [cutLf, hbreak, hcount, if_true, if_false, ih]
    · rw [Bool.not_eq_true] at hbreak
      simp only [cutLf, hbreak, Bool.false_eq_true, if_false, ih]

theorem length_cutCrLf_le (count : Nat) (cs : Text) : (cutCrLf count cs).length ≤ cs.length := by
  fun_induction cutCrLf count cs with
  | case1 => exact Nat.le_refl _
  | case2 | case3 | case4 =>
    simp only [length_cons]
    omega

/-- Cutting runs of `\n` joins no runs of `\r\n`. Right behind a pair one `\n` has been counted, so
what is cut never stands there. -/
theorem cutCrLf_cutLf {pairs breaks : Nat} {cs : Text} (h : cutCrLf pairs cs = cs)
    (hcounts : 0 < pairs → breaks = 1) : cutCrLf pairs (cutLf breaks cs) = cutLf breaks cs := by
  fun_induction cutCrLf pairs cs generalizing breaks with
  | case1 => rfl
  | case2 pairs rest hpairs ih =>
    have hrest : cutCrLf (pairs + 1) rest = rest := by simpa using h
    show cutCrLf pairs ('\r' :: '\n' :: cutLf 1 rest) = '\r' :: '\n' :: cutLf 1 rest
    rw [cutCrLf, if_pos hpairs, ih hrest fun _ => rfl]
  | case3 pairs rest hpairs ih =>
    -- a pair too many would have been cut
    have hle := length_cutCrLf_le pairs rest
    rw [h] at hle
    simp only [length_cons] at hle
    omega
  | case4 pairs c rest hnot ih =>
    have hrest : cutCrLf 0 rest = rest := by simpa using h
    have hzero : ∀ breaks, cutCrLf 0 (cutLf breaks rest) = cutLf breaks rest := fun breaks =>
      ih hrest fun hlt => absurd hlt (Nat.lt_irrefl 0)
    unfold cutLf
    split
    · next hbreak =>
      have hbreak : c = '\n' := by simpa using hbreak
      split
      · rw [cutCrLf_cons (fun hc => by rw [hbreak] at hc; cases hc), hzero]
      · next hmany =>
        -- more than one line break has been counted, so no pair stands before
        have hpairs : pairs = 0 := by
          rcases Nat.eq_zero_or_pos pairs with hpairs | hpairs
          · exact hpairs
          · have hone := hcounts hpairs
            have hmax : maxBreaks = 4 := rfl
            omega
        rw [hpairs]
        exact hzero breaks
    · rw [cutCrLf_cons, hzero]
      rintro rfl hhead
      rw [head?_cutLf_zero] at hhead
      cases rest with
      | nil => cases hhead
      | cons d rest =>
        cases hhead
        exact hnot rest rfl rfl

theorem cutBlankLines_cutBlankLines (cs : Text) :
    cutBlankLines (cutBlankLines cs) = cutBlankLines cs := by
  unfold cutBlankLines
  rw [cutCrLf_cutLf (cutCrLf_cutCrLf 0 cs) (fun h => absurd h (Nat.lt_irrefl 0)), cutLf_cutLf]

end Legacy

end LegacyPhp
