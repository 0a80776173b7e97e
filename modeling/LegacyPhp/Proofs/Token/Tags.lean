import LegacyPhp.Proofs.Token.Ends

/-!
# Where an open tag ends

Outside the code the lexer looks for an open tag, and what it takes for one depends on what follows:
the word of a long tag needs a space character or the end of the text behind it, and a short tag is
read only where the three bytes after its `<?` end with a character. `tagAfter_ahead` says that a
tag stays one when the text further on changes, `Plain` that no tag starts in a text, and
`Plain.ahead` that none does when another tag stands behind it.
-/

namespace LegacyPhp.Scan

open Text List

variable {word taken html cs tail : Text} {c : Char} {parts : Text × Text} {t : OpenTag}

variable {u v rest more : Text} {n : Nat}

/-! ## Cutting at a number of bytes -/

theorem utf8Size_of_lt (h : c.toNat < 0x80) : c.utf8Size = 1 := by
  rw [Char.utf8Size_eq_one_iff, UInt32.le_iff_toNat_le]
  exact Nat.le_of_lt_succ h

theorem length_le_byteLength (u : Text) : u.length ≤ byteLength u := by
  induction u with
  | nil => exact Nat.le_refl 0
  | cons c u ih =>
    have := Char.utf8Size_pos c
    rw [length_cons, byteLength_cons]
    omega

theorem splitBytes?_append_of_le (h : n ≤ byteLength u) (rest : Text) :
    splitBytes? n (u ++ rest) = (splitBytes? n u).map fun p => (p.1, p.2 ++ rest) := by
  fun_induction splitBytes? n u with
  | case1 u => simp [splitBytes?]
  | case2 n => simp at h
  | case3 n c u hc ih =>
    rw [byteLength_cons] at h
    rw [cons_append, splitBytes?, if_pos hc, ih (by omega), Option.map_map, Option.map_map]
    rfl
  | case4 n c u hc => rw [cons_append, splitBytes?, if_neg hc]; rfl

theorem isSome_splitBytes?_ascii (h : n ≤ byteLength more)
    (hascii : ∀ c ∈ more.take n, c.toNat < 0x80) : (splitBytes? n more).isSome := by
  induction n generalizing more with
  | zero => cases more <;> rfl
  | succ n ih =>
    cases more with
    | nil => simp at h
    | cons c more =>
      have hc := utf8Size_of_lt (hascii c (by simp))
      rw [byteLength_cons, hc] at h
      rw [splitBytes?, if_pos (by omega), hc, Option.isSome_map, Nat.add_sub_cancel]
      refine ih (by omega) fun d hd => hascii d ?_
      rw [take_succ_cons]
      exact mem_cons_of_mem c hd

theorem isSome_splitBytes?_append (hv : byteLength v ≤ n) (h : n ≤ byteLength (v ++ more))
    (hascii : ∀ c ∈ more.take (n - byteLength v), c.toNat < 0x80) :
    (splitBytes? n (v ++ more)).isSome := by
  induction v generalizing n with
  | nil => exact isSome_splitBytes?_ascii h hascii
  | cons c v ih =>
    rw [byteLength_cons] at hv hascii
    rw [cons_append, byteLength_cons] at h
    have hpos := Char.utf8Size_pos c
    obtain ⟨n, rfl⟩ : ∃ m, n = m + 1 := ⟨n - 1, by omega⟩
    rw [cons_append, splitBytes?, if_pos (by omega), Option.isSome_map]
    refine ih (by omega) (by omega) ?_
    rwa [Nat.sub_sub]

theorem splitBytes?_byteLength (u rest : Text) :
    splitBytes? (byteLength u) (u ++ rest) = some (u, rest) := by
  induction u with
  | nil => cases rest <;> rfl
  | cons c u ih =>
    have hpos := Char.utf8Size_pos c
    obtain ⟨n, hn⟩ : ∃ m, byteLength (c :: u) = m + 1 := ⟨_, (Nat.succ_pred_eq_of_pos (by
      rw [byteLength_cons]; omega)).symm⟩
    rw [hn, cons_append, splitBytes?, ← hn, byteLength_cons, if_pos (Nat.le_add_right _ _),
      Nat.add_sub_cancel_left, ih]
    rfl

/-! ## Open tags -/

/-- At least three bytes follow, and the third is not the last of its character. -/
def SplitsCharacter (rest : Text) : Prop :=
  3 ≤ byteLength rest ∧ ∀ word, word <+: rest → byteLength word ≠ 3

/-- What follows a `<?` that is an open tag: the word `php` before white space or at the end, `=`,
or white space. -/
def AcceptsTag (rest : Text) : Prop :=
  (∃ word after, rest = word ++ after ∧ sameWord word ['p', 'h', 'p'] ∧
    (after = [] ∨ nextIs isSpace after)) ∨
  nextIs (fun c => c == '=' || isSpace c) rest = true

theorem toLower_eq {d : Char} (h : c.toLower = d) (hd : d.toNat < 0x80) : c.toNat < 0x80 := by
  by_cases hupper : c.isUpper
  · have hc : c.toNat ≤ 90 := UInt32.le_iff_toNat_le.1 (of_decide_eq_true hupper).2
    omega
  · rw [toLower_of_not_isUpper hupper] at h
    rwa [h]

theorem byteLength_of_sameWord (h : sameWord word ['p', 'h', 'p']) :
    word.length = 3 ∧ byteLength word = 3 ∧ ∀ c ∈ word, c.toNat < 0x80 := by
  have heq : word.map Char.toLower = ['p', 'h', 'p'] := eq_of_beq h
  obtain _ | ⟨a, _ | ⟨b, _ | ⟨c, _ | ⟨d, word⟩⟩⟩⟩ := word <;> simp at heq
  obtain ⟨ha, hb, hc⟩ := heq
  have ha := toLower_eq ha (by decide)
  have hb := toLower_eq hb (by decide)
  have hc := toLower_eq hc (by decide)
  refine ⟨rfl, ?_, ?_⟩
  · simp [utf8Size_of_lt ha, utf8Size_of_lt hb, utf8Size_of_lt hc]
  · simp [ha, hb, hc]

theorem tagAfter_long {word taken : Text} (hword : sameWord word ['p', 'h', 'p'])
    (hend : longTagEnd (taken ++ rest) = some (taken, rest)) :
    tagAfter (word ++ taken ++ rest) = .ok (some (word ++ taken, rest)) := by
  obtain ⟨_, hbytes, _⟩ := byteLength_of_sameWord hword
  have hsplit := splitBytes?_byteLength word (taken ++ rest)
  rw [hbytes] at hsplit
  rw [tagAfter, append_assoc, byteLength_append, if_pos (by omega), hsplit]
  simp only [hword, if_true, hend]
  rfl

/-- A short tag is read if the three bytes behind its `<?` end with a character. -/
theorem tagAfter_short (hc : c = '=' ∨ isSpace c)
    (hsplit : 3 ≤ byteLength (c :: rest) → (splitBytes? 3 (c :: rest)).isSome) :
    tagAfter (c :: rest) = .ok (shortTag (c :: rest)) := by
  rw [tagAfter]
  split
  · next hbytes =>
    obtain ⟨⟨word, after⟩, hword⟩ := Option.isSome_iff_exists.1 (hsplit hbytes)
    have hother : sameWord word ['p', 'h', 'p'] = false := by
      refine Bool.eq_false_iff.2 fun hsame => ?_
      obtain ⟨hlength, _, _⟩ := byteLength_of_sameWord hsame
      obtain ⟨d, word, rfl⟩ := exists_cons_of_length_eq_add_one hlength
      obtain rfl : d = c := (cons.inj (splitBytes?_append hword)).1
      have hp : d.toLower = 'p' := (cons.inj (eq_of_beq hsame)).1
      rw [isSpace_iff] at hc
      obtain rfl | rfl | rfl | rfl | rfl | rfl := hc <;> cases hp
    rw [hword]
    simp only [hother]
    rfl
  · rfl

theorem shortTag_space (hc : isSpace c) : shortTag (c :: rest) = some ([], c :: rest) := by
  unfold shortTag
  split
  · next heq =>
    obtain ⟨rfl, _⟩ := cons.inj heq
    cases hc
  · next heq =>
    obtain ⟨rfl, rfl⟩ := cons.inj heq
    rw [if_pos hc]
  · next heq => cases heq

/-- An open tag is long or short. -/
theorem tagAfter_eq_some (h : tagAfter (taken ++ rest) = .ok (some (taken, rest))) :
    (∃ word tail, taken = word ++ tail ∧ sameWord word ['p', 'h', 'p'] ∧
      longTagEnd (tail ++ rest) = some (tail, rest)) ∨
    (taken = ['='] ∨ taken = [] ∧ nextIs isSpace rest) ∧
      (3 ≤ byteLength (taken ++ rest) → (splitBytes? 3 (taken ++ rest)).isSome) := by
  have hshort : shortTag (taken ++ rest) = some (taken, rest) →
      taken = ['='] ∨ taken = [] ∧ nextIs isSpace rest := by
    intro hs
    unfold shortTag at hs
    split at hs
    · cases hs; exact .inl rfl
    · next c left _ heq =>
      split at hs
      · next hspace =>
        obtain ⟨rfl, rfl⟩ := Prod.mk.inj (Option.some.inj hs)
        exact .inr ⟨rfl, hspace⟩
      · cases hs
    · cases hs
  unfold tagAfter at h
  split at h
  · split at h
    · cases h
    · next word after hsplit =>
      split at h
      · next hword =>
        have hmap := Except.ok.inj h
        obtain ⟨⟨tail, left⟩, htail, heq⟩ := Option.map_eq_some_iff.1 hmap
        obtain ⟨rfl, rfl⟩ := Prod.mk.inj heq
        refine .inl ⟨word, tail, rfl, hword, ?_⟩
        have happend := splitBytes?_append hsplit
        rw [append_assoc] at happend
        rwa [← append_cancel_left happend]
      · exact .inr ⟨hshort (Except.ok.inj h), fun _ => by rw [hsplit]; rfl⟩
  · next hbytes => exact .inr ⟨hshort (Except.ok.inj h), fun hle => absurd hle hbytes⟩

theorem longTagEnd_cons (hc : isSpace c) (hbreak : c = '\r' → nextIs (· == '\n') rest = false) :
    longTagEnd (c :: rest) = some ([c], rest) := by
  unfold longTagEnd
  split
  · next heq =>
    obtain ⟨rfl, rfl⟩ := cons.inj heq
    cases hbreak rfl
  · next heq =>
    obtain ⟨rfl, rfl⟩ := cons.inj heq
    rw [if_pos hc]
  · next heq => cases heq

/-- A long tag ends behind a line break or a space character, or with the text. -/
theorem longTagEnd_eq_some (h : longTagEnd (tail ++ rest) = some (tail, rest)) :
    tail = ['\r', '\n'] ∨ (∃ c, tail = [c] ∧ isSpace c ∧
      (c = '\r' → nextIs (· == '\n') rest = false)) ∨ tail = [] ∧ rest = [] := by
  unfold longTagEnd at h
  split at h
  · cases h; exact .inl rfl
  · next c left hpair heq =>
    split at h
    · next hspace =>
      obtain ⟨rfl, rfl⟩ := Prod.mk.inj (Option.some.inj h)
      refine .inr (.inl ⟨c, rfl, hspace, fun hc => ?_⟩)
      cases left with
      | nil => rfl
      | cons d left =>
        exact beq_eq_false_iff_ne.2 fun hd => hpair left hc (by rw [hd])
    · cases h
  · obtain ⟨rfl, rfl⟩ := Prod.mk.inj (Option.some.inj h)
    exact .inr (.inr ⟨rfl, rfl⟩)

theorem longTagEnd_of_ends (h : longTagEnd (tail ++ rest) = some (tail, rest))
    (hnil : tail = [] → more = []) (hbreak : tail = ['\r'] → nextIs (· == '\n') more = false) :
    longTagEnd (tail ++ more) = some (tail, more) := by
  rcases longTagEnd_eq_some h with rfl | ⟨c, rfl, hc, _⟩ | ⟨rfl, rfl⟩
  · rfl
  · exact longTagEnd_cons hc fun heq => hbreak (by rw [heq])
  · rw [hnil rfl]
    rfl

/-- An open tag is read in the same way behind whatever stands further on. In front of a short one
the bytes of that count. -/
theorem tagAfter_ahead (hu : u ≠ [])
    (hshort : taken.length ≤ 1 → byteLength (taken ++ u) < 3 → ∀ c ∈ more.take 2, c.toNat < 0x80)
    (h : tagAfter (taken ++ (u ++ rest)) = .ok (some (taken, u ++ rest))) :
    tagAfter (taken ++ (u ++ more)) = .ok (some (taken, u ++ more)) := by
  rcases tagAfter_eq_some h with ⟨word, tail, rfl, hword, hend⟩ | ⟨htaken, hsplit⟩
  · refine tagAfter_long hword ?_
    rcases longTagEnd_eq_some hend with rfl | ⟨c, rfl, hc, hbreak⟩ | ⟨_, hnil⟩
    · rfl
    · refine longTagEnd_cons hc fun heq => ?_
      show nextIs (· == '\n') (u ++ more) = false
      rw [nextIs_append hu more rest]
      exact hbreak heq
    · exact absurd (append_eq_nil_iff.1 hnil).1 hu
  · -- the three bytes end in what is there before and after, or among those that follow
    have hsome : 3 ≤ byteLength (taken ++ (u ++ more)) →
        (splitBytes? 3 (taken ++ (u ++ more))).isSome := by
      intro hbytes
      rw [← append_assoc] at hsplit hbytes ⊢
      by_cases hle : 3 ≤ byteLength (taken ++ u)
      · have hsplit := hsplit (by rw [byteLength_append]; omega)
        rw [splitBytes?_append_of_le hle, Option.isSome_map] at hsplit ⊢
        exact hsplit
      · have hpos : 0 < byteLength (taken ++ u) := by
          obtain ⟨c, u, rfl⟩ := exists_cons_of_ne_nil hu
          have := Char.utf8Size_pos c
          rw [byteLength_append, byteLength_cons]
          omega
        refine isSome_splitBytes?_append (by omega) hbytes fun c hc => hshort ?_ (by omega) c ?_
        · rcases htaken with rfl | ⟨rfl, _⟩ <;> simp
        · exact take_subset_take_left more (by omega) hc
    rcases htaken with rfl | ⟨rfl, hspace⟩
    · rw [singleton_append] at hsome ⊢
      rw [tagAfter_short (.inl rfl) hsome]
      rfl
    · obtain ⟨c, u, rfl⟩ := exists_cons_of_ne_nil hu
      have hc : isSpace c := hspace
      rw [nil_append, cons_append] at hsome ⊢
      rw [tagAfter_short (.inr hc) hsome, shortTag_space hc]

/-! ## Text outside the code -/

/-- A tag that takes something behind its mark is read again before any text that does not start
with a line break. -/
theorem tagAfter_of_ends (h : tagAfter (taken ++ rest) = .ok (some (taken, rest)))
    (hne : taken ≠ []) (hrest : rest ≠ []) (hbreak : nextIs (· == '\n') more = false)
    (hascii : taken.length ≤ 1 → ∀ c ∈ more.take 2, c.toNat < 0x80) :
    tagAfter (taken ++ more) = .ok (some (taken, more)) := by
  rcases tagAfter_eq_some h with ⟨word, tail, rfl, hword, hend⟩ | ⟨rfl | ⟨hnil, _⟩, _⟩
  · refine tagAfter_long hword (longTagEnd_of_ends hend (fun hnil => ?_) fun _ => hbreak)
    subst hnil
    rcases longTagEnd_eq_some hend with htail | ⟨_, htail, _⟩ | ⟨_, hnil⟩
    · cases htail
    · cases htail
    · exact absurd hnil hrest
  · refine tagAfter_short (.inl rfl) fun hbytes => ?_
    exact isSome_splitBytes?_append (v := ['=']) (by decide) hbytes
      (hascii (Nat.le_refl 1))
  · exact absurd hnil hne

theorem shortTag_eq_none : shortTag rest = none ↔
    nextIs (fun c => c == '=' || isSpace c) rest = false := by
  unfold shortTag
  split
  · simp [nextIs]
  · next c left hne =>
    have hc : (c == '=') = false := beq_eq_false_iff_ne.2 hne
    simp [nextIs, hc]
  · simp [nextIs]

theorem longTagEnd_eq_none : longTagEnd rest = none ↔ rest ≠ [] ∧ nextIs isSpace rest = false := by
  unfold longTagEnd
  split
  · simp [nextIs, isSpace]
  · next c left _ => simp [nextIs]
  · simp

theorem byteLength_of_splitBytes? (h : splitBytes? n cs = some parts) : byteLength parts.1 = n := by
  fun_induction splitBytes? n cs generalizing parts with
  | case1 cs => cases h; rfl
  | case2 => cases h
  | case3 n c cs hle ih =>
    obtain ⟨p, hp, rfl⟩ := Option.map_eq_some_iff.1 h
    rw [byteLength_cons, ih hp]
    omega
  | case4 => cases h

theorem splitsCharacter_iff : SplitsCharacter rest ↔
    3 ≤ byteLength rest ∧ splitBytes? 3 rest = none := by
  refine and_congr_right fun _ => ⟨fun h => ?_, fun h word hword hbytes => ?_⟩
  · rw [Option.eq_none_iff_forall_not_mem]
    rintro ⟨word, after⟩ hsplit
    exact h word ⟨after, splitBytes?_append hsplit⟩ (byteLength_of_splitBytes? hsplit)
  · obtain ⟨after, rfl⟩ := hword
    have hsplit := splitBytes?_byteLength word after
    rw [hbytes, h] at hsplit
    cases hsplit

theorem tagAfter_eq_error {e : SplitCharacter} : tagAfter rest = .error e ↔
    SplitsCharacter rest := by
  rw [splitsCharacter_iff, tagAfter]
  split
  · next hbytes =>
    split
    · next hnone => simp [hbytes, hnone]
    · next hsplit =>
      rw [hsplit]
      split <;> simp
  · next hbytes => simp [hbytes]

theorem AcceptsTag.of_tagAfter (h : tagAfter rest = .ok (some parts)) : AcceptsTag rest := by
  obtain ⟨taken, left⟩ := parts
  obtain rfl : taken ++ left = rest := tagAfter_append h
  rcases tagAfter_eq_some h with ⟨word, tail, rfl, hword, hend⟩ | ⟨rfl | ⟨rfl, hspace⟩, _⟩
  · refine .inl ⟨word, tail ++ left, append_assoc .., hword, ?_⟩
    rcases longTagEnd_eq_some hend with rfl | ⟨c, rfl, hc, _⟩ | ⟨rfl, rfl⟩
    · exact .inr rfl
    · exact .inr hc
    · exact .inl rfl
  · exact .inr rfl
  · cases left with
    | nil => cases hspace
    | cons c left => exact .inr (Bool.or_eq_true_iff.2 (.inr hspace))

theorem AcceptsTag.tagAfter (h : AcceptsTag rest) (hsplit : ¬ SplitsCharacter rest) :
    ∃ parts, tagAfter rest = .ok (some parts) := by
  rcases h with ⟨word, after, rfl, hword, hafter⟩ | hshort
  · obtain ⟨_, hbytes, _⟩ := byteLength_of_sameWord hword
    have hcut := splitBytes?_byteLength word after
    rw [hbytes] at hcut
    have hend : longTagEnd after ≠ none := by
      rw [Ne, longTagEnd_eq_none]
      rcases hafter with rfl | hspace
      · simp
      · simp [hspace]
    obtain ⟨tail, htail⟩ := Option.ne_none_iff_exists'.1 hend
    rw [Scan.tagAfter, byteLength_append, if_pos (by omega), hcut]
    simp only [hword, if_true, htail]
    exact ⟨_, rfl⟩
  · obtain ⟨c, left, rfl⟩ : ∃ c left, rest = c :: left := by
      cases rest with
      | nil => cases hshort
      | cons c left => exact ⟨c, left, rfl⟩
    have hc : c = '=' ∨ isSpace c := by simpa [nextIs] using hshort
    have hcut : 3 ≤ byteLength (c :: left) → (splitBytes? 3 (c :: left)).isSome := by
      intro hbytes
      refine Option.isSome_iff_ne_none.2 fun hnone => hsplit ?_
      exact splitsCharacter_iff.2 ⟨hbytes, hnone⟩
    have hsome : shortTag (c :: left) ≠ none := by
      rw [Ne, shortTag_eq_none, hshort]
      simp
    obtain ⟨parts, hparts⟩ := Option.ne_none_iff_exists'.1 hsome
    exact ⟨parts, by rw [tagAfter_short hc hcut, hparts]⟩

/-- The search is through with a `<?` that splits no character and is no tag. -/
theorem tagAfter_eq_none :
    tagAfter rest = .ok none ↔ ¬ SplitsCharacter rest ∧ ¬ AcceptsTag rest := by
  constructor
  · intro h
    have hsplit : ¬ SplitsCharacter rest := fun hsplit => by
      rw [tagAfter_eq_error (e := .splitCharacter) |>.2 hsplit] at h
      cases h
    refine ⟨hsplit, fun haccepts => ?_⟩
    obtain ⟨parts, hparts⟩ := haccepts.tagAfter hsplit
    rw [h] at hparts
    cases hparts
  · rintro ⟨hsplit, hno⟩
    cases h : tagAfter rest with
    | error e => exact absurd (tagAfter_eq_error.1 h) hsplit
    | ok found =>
      cases found with
      | none => rfl
      | some parts => exact absurd (.of_tagAfter h) hno

/-- Three bytes that lie in a text are cut there whatever follows it. -/
theorem SplitsCharacter.append (h : SplitsCharacter (u ++ more)) (hu : 3 ≤ byteLength u)
    (rest : Text) : SplitsCharacter (u ++ rest) := by
  rw [splitsCharacter_iff, splitBytes?_append_of_le hu, byteLength_append] at h ⊢
  exact ⟨by omega, by simpa using h.2⟩

/-- Four characters tell an open tag, or less if an angle bracket follows them. -/
theorem AcceptsTag.append (h : AcceptsTag (u ++ more))
    (hu : 4 ≤ u.length ∨ nextIs (· == '<') more) (rest : Text) : AcceptsTag (u ++ rest) := by
  have hnext : ∀ {tail : Text} {p : Char → Bool}, (tail = [] → nextIs (· == '<') more) →
      p '<' = false → nextIs p (tail ++ more) → nextIs p (tail ++ rest) := by
    intro tail p hnil hp hnext
    cases tail with
    | nil =>
      rw [nil_append, ← nextIs_tail (hnil rfl), nextIs, hp] at hnext
      cases hnext
    | cons c tail => exact hnext
  rcases h with ⟨word, after, heq, hword, hafter⟩ | hshort
  · obtain ⟨hlength, _⟩ := byteLength_of_sameWord hword
    -- the word lies in `u`, since it holds no angle bracket
    obtain ⟨tail, rfl, rfl⟩ : ∃ tail, u = word ++ tail ∧ after = tail ++ more := by
      rcases append_eq_append_iff.1 heq with ⟨more', rfl, hmore⟩ | ⟨tail, rfl, hafter⟩
      · cases more' with
        | nil => exact ⟨[], by simp, by simpa using hmore.symm⟩
        | cons c more' =>
          exfalso
          rcases hu with hu | hu
          · simp at hlength
            omega
          · rw [hmore, cons_append, nextIs, beq_iff_eq] at hu
            have hlower : c.toLower ∈ lower (u ++ c :: more') := mem_map_of_mem (by simp)
            rw [show lower (u ++ c :: more') = ['p', 'h', 'p'] from eq_of_beq hword, hu] at hlower
            simp at hlower
      · exact ⟨tail, rfl, hafter⟩
    have hmore : tail = [] → nextIs (· == '<') more := fun hnil =>
      hu.resolve_left (by simp [hnil, hlength])
    refine .inl ⟨word, tail ++ rest, append_assoc .., hword, .inr (hnext hmore rfl ?_)⟩
    refine hafter.resolve_left fun hnil => ?_
    obtain ⟨htail, rfl⟩ := append_eq_nil_iff.1 hnil
    cases hmore htail
  · exact .inr (hnext (fun hnil => hu.resolve_left (by simp [hnil])) rfl hshort)

/-- A `<?` that starts no tag at the end of a text, or with another `<?` somewhere behind it, starts
none before other text of this sort. -/
theorem tagAfter_none_ahead (hmore : nextIs (fun c => 0x80 ≤ c.toNat) more = false)
    (h : tagAfter (u ++ rest) = .ok none) : tagAfter (u ++ '<' :: '?' :: more) = .ok none := by
  obtain ⟨hsplit, hno⟩ := tagAfter_eq_none.1 h
  refine tagAfter_eq_none.2 ⟨fun hsplit' => ?_, fun haccepts => hno (haccepts.append (.inr rfl) _)⟩
  by_cases hbytes : 3 ≤ byteLength u
  · exact hsplit (hsplit'.append hbytes rest)
  · obtain ⟨hle, hnone⟩ := splitsCharacter_iff.1 hsplit'
    have hascii : ∀ c ∈ ('<' :: '?' :: more).take (3 - byteLength u), c.toNat < 0x80 := by
      intro c hc
      have hc : c ∈ '<' :: '?' :: more.take 1 := take_subset_take_left _ (Nat.sub_le 3 _) hc
      rcases mem_cons.1 hc with rfl | hc
      · decide
      rcases mem_cons.1 hc with rfl | hc
      · decide
      cases more with
      | nil => cases hc
      | cons d more =>
        obtain rfl : c = d := by simpa using hc
        simpa [nextIs] using hmore
    have hsome := isSome_splitBytes?_append (by omega) hle hascii
    rw [hnone] at hsome
    cases hsome

/-- No tag starts in the text `html` with `rest` behind it. -/
def Plain : Text → Text → Prop
  | [], _ => True
  | '<' :: '?' :: html, rest => tagAfter (html ++ rest) = .ok none ∧ Plain html rest
  | c :: html, rest => (c = '<' → html = [] → nextIs (· == '?') rest = false) ∧ Plain html rest

theorem findOpenTag_cons (hc : c = '<' → nextIs (· == '?') rest = false) :
    findOpenTag (c :: rest) = (findOpenTag rest).map fun found =>
      found.map fun t => { t with html := c :: t.html } := by
  rw [findOpenTag.eq_3]
  · cases findOpenTag rest <;> rfl
  · intro left hleft hrest
    have hnext := hc hleft
    rw [hrest] at hnext
    cases hnext

theorem findOpenTag_open_none (h : tagAfter rest = .ok none) :
    findOpenTag ('<' :: '?' :: rest) = (findOpenTag rest).map fun found =>
      found.map fun t => { t with html := '<' :: '?' :: t.html } := by
  rw [findOpenTag, h]
  cases findOpenTag rest <;> rfl

theorem findOpenTag_open (h : tagAfter (taken ++ rest) = .ok (some (taken, rest))) :
    findOpenTag ('<' :: '?' :: (taken ++ rest)) = .ok (some ⟨[], '<' :: '?' :: taken, rest⟩) := by
  rw [findOpenTag, h]
  rfl

/-- The text before the first tag. -/
theorem Plain.of_findOpenTag {found : Option OpenTag} (h : findOpenTag (html ++ rest) = .ok found)
    (hfound : ∀ t ∈ found, html.length ≤ t.html.length)
    (hrest : rest = [] ∨ nextIs (· == '<') rest) : Plain html rest := by
  fun_induction Plain html rest generalizing found with
  | case1 => trivial
  | case2 html rest ih =>
    cases htag : tagAfter (html ++ rest) with
    | error e =>
      rw [cons_append, cons_append, findOpenTag, htag] at h
      cases h
    | ok tag =>
      cases tag with
      | some parts =>
        rw [cons_append, cons_append, findOpenTag, htag] at h
        cases h
        exact absurd (hfound _ rfl) (Nat.not_succ_le_zero _)
      | none =>
        rw [cons_append, cons_append, findOpenTag_open_none htag] at h
        obtain ⟨later, hlater, rfl⟩ := map_eq_ok h
        refine ⟨rfl, ih hlater (fun t ht => ?_) hrest⟩
        have hle := hfound _ (Option.mem_map_of_mem _ ht)
        simpa using hle
  | case3 c html rest hne ih =>
    have hnext : nextIs (· == '?') rest = false := by
      rcases hrest with rfl | hrest
      · rfl
      · cases rest with
        | nil => rfl
        | cons d rest => rw [nextIs, eq_of_beq hrest]; rfl
    have hc : c = '<' → nextIs (· == '?') (html ++ rest) = false := by
      intro hc
      cases html with
      | nil => exact hnext
      | cons d html => exact beq_eq_false_iff_ne.2 fun hd => hne html hc (by rw [hd])
    rw [cons_append, findOpenTag_cons hc] at h
    obtain ⟨later, hlater, rfl⟩ := map_eq_ok h
    refine ⟨fun _ _ => hnext, ih hlater (fun t ht => ?_) hrest⟩
    have hle := hfound _ (Option.mem_map_of_mem _ ht)
    simpa using hle

theorem Plain.findOpenTag_append (h : Plain html rest) :
    findOpenTag (html ++ rest) = (findOpenTag rest).map fun found =>
      found.map fun t => { t with html := html ++ t.html } := by
  fun_induction Plain html rest with
  | case1 rest =>
    rw [nil_append]
    cases findOpenTag rest with
    | error e => rfl
    | ok found => cases found <;> rfl
  | case2 html rest ih =>
    rw [cons_append, cons_append, findOpenTag_open_none h.1, ih h.2]
    cases findOpenTag rest with
    | error e => rfl
    | ok found => cases found <;> rfl
  | case3 c html rest hne ih =>
    have hc : c = '<' → nextIs (· == '?') (html ++ rest) = false := by
      intro hc
      cases html with
      | nil => exact h.1 hc rfl
      | cons d html => exact beq_eq_false_iff_ne.2 fun hd => hne html hc (by rw [hd])
    rw [cons_append, findOpenTag_cons hc, ih h.2]
    cases findOpenTag rest with
    | error e => rfl
    | ok found => cases found <;> rfl

theorem Plain.findOpenTag_open (h : Plain html ('<' :: '?' :: (taken ++ rest)))
    (htag : tagAfter (taken ++ rest) = .ok (some (taken, rest))) :
    findOpenTag (html ++ '<' :: '?' :: (taken ++ rest)) =
      .ok (some ⟨html, '<' :: '?' :: taken, rest⟩) := by
  rw [h.findOpenTag_append, Scan.findOpenTag_open htag, Except.map, Option.map_some, append_nil]

theorem Plain.ahead (h : Plain html rest)
    (hmore : nextIs (fun c => 0x80 ≤ c.toNat) more = false) : Plain html ('<' :: '?' :: more) := by
  fun_induction Plain html rest with
  | case1 => trivial
  | case2 html rest ih => exact ⟨tagAfter_none_ahead hmore h.1, ih h.2⟩
  | case3 c html rest hne ih =>
    rw [Plain.eq_3]
    · exact ⟨fun _ _ => rfl, ih h.2⟩
    · exact hne

/-- What is found is a tag. -/
theorem tagAfter_of_findOpenTag (h : findOpenTag cs = .ok (some t)) :
    ∃ taken, t.tag = '<' :: '?' :: taken ∧
      tagAfter (taken ++ t.rest) = .ok (some (taken, t.rest)) := by
  fun_induction findOpenTag cs generalizing t with
  | case1 => cases h
  | case2 cs ih =>
    rw [← findOpenTag] at h
    cases htag : tagAfter cs with
    | error e =>
      rw [findOpenTag, htag] at h
      cases h
    | ok tag =>
      cases tag with
      | some parts =>
        rw [findOpenTag, htag] at h
        cases h
        exact ⟨parts.1, rfl, by rw [tagAfter_append htag, htag]⟩
      | none =>
        rw [findOpenTag_open_none htag] at h
        obtain ⟨later, hlater, hmap⟩ := map_eq_ok h
        obtain ⟨u, rfl, rfl⟩ := Option.map_eq_some_iff.1 hmap
        have hu := ih hlater
        exact hu
  | case3 c cs hne ih =>
    cases hlater : findOpenTag cs with
    | error e => rw [hlater] at h; cases h
    | ok later =>
      rw [hlater] at h
      obtain ⟨u, rfl, rfl⟩ := Option.map_eq_some_iff.1 (Except.ok.inj h)
      have hu := ih hlater
      exact hu

theorem findOpenTag_eq_some (h : findOpenTag cs = .ok (some t)) :
    ∃ taken, t.tag = '<' :: '?' :: taken ∧ cs = t.html ++ '<' :: '?' :: (taken ++ t.rest) ∧
      tagAfter (taken ++ t.rest) = .ok (some (taken, t.rest)) ∧
      Plain t.html ('<' :: '?' :: (taken ++ t.rest)) := by
  obtain ⟨taken, htag, hafter⟩ := tagAfter_of_findOpenTag h
  have hcs : cs = t.html ++ '<' :: '?' :: (taken ++ t.rest) := by
    rw [← (findOpenTag_append h).1, htag, append_assoc]
    rfl
  refine ⟨taken, htag, hcs, hafter, .of_findOpenTag (hcs ▸ h) ?_ (.inr rfl)⟩
  rintro u ⟨rfl⟩
  exact Nat.le_refl _

theorem nextIs_of_tagAfter (h : tagAfter (taken ++ rest) = .ok (some (taken, rest))) :
    nextIs (fun c => 0x80 ≤ c.toNat) (taken ++ rest) = false := by
  rcases tagAfter_eq_some h with ⟨word, tail, rfl, hword, _⟩ | ⟨rfl | ⟨rfl, hspace⟩, _⟩
  · obtain ⟨hlength, _, hascii⟩ := byteLength_of_sameWord hword
    obtain ⟨c, word, rfl⟩ := exists_cons_of_length_eq_add_one hlength
    have hc := hascii c mem_cons_self
    simpa [nextIs] using hc
  · rfl
  · cases rest with
    | nil => cases hspace
    | cons c rest =>
      have hspace : isSpace c := hspace
      obtain rfl | rfl | rfl | rfl | rfl := isSpace_iff.1 hspace <;> rfl

end LegacyPhp.Scan

namespace LegacyPhp

open Text Scan

variable {html : Text}

variable {rest more : Text}

theorem tagGoesOn_eq_false : tagGoesOn ('<' :: '?' :: taken) rest = false ↔
      tagAfter (taken ++ rest) = .ok (some (taken, rest)) := by
  constructor
  · intro h
    unfold tagGoesOn at h
    split at h
    · next found left hfound =>
      obtain rfl : found = taken := by simpa using h
      have happend := tagAfter_append hfound
      rw [← List.append_cancel_left happend]
      exact happend ▸ hfound
    · cases h
  · intro h
    simp [tagGoesOn, h]

/-- Text outside the code ends where a tag starts, or with the source. -/
theorem htmlGoesOn_eq_false (h : htmlGoesOn html rest = false) :
    rest = [] ∧ findOpenTag html = .ok none ∨
      ∃ taken left, rest = '<' :: '?' :: (taken ++ left) ∧
        tagAfter (taken ++ left) = .ok (some (taken, left)) ∧ Plain html rest := by
  unfold htmlGoesOn at h
  split at h
  · next hnone =>
    obtain rfl : rest = [] := by simpa using h
    rw [List.append_nil] at hnone
    exact .inl ⟨rfl, hnone⟩
  · next t hsome =>
    obtain ⟨taken, htag, hcs, hafter, hplain⟩ := findOpenTag_eq_some hsome
    obtain rfl : t.html = html := by simpa using h
    have hrest := List.append_cancel_left hcs
    exact .inr ⟨taken, t.rest, hrest, hafter, hrest ▸ hplain⟩
  · cases h

theorem plain_of_htmlGoesOn (h : htmlGoesOn html rest = false) : Plain html rest := by
  rcases htmlGoesOn_eq_false h with ⟨rfl, hnone⟩ | ⟨_, _, _, _, hplain⟩
  · rw [← List.append_nil html] at hnone
    exact .of_findOpenTag hnone nofun (.inl rfl)
  · exact hplain

theorem htmlGoesOn_of_plain (h : Plain html ('<' :: '?' :: (taken ++ rest)))
    (htag : tagAfter (taken ++ rest) = .ok (some (taken, rest))) :
    htmlGoesOn html ('<' :: '?' :: (taken ++ rest)) = false := by
  simp [htmlGoesOn, h.findOpenTag_open htag]

end LegacyPhp
