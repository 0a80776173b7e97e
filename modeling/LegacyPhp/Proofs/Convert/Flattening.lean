import LegacyPhp.Proofs.Convert.Declarations
import LegacyPhp.Proofs.Convert.Flat

/-!
# Flattening moves forward

Qualification moves every unit forward in the order of `Drift` except the flat ones, which it copies
(`run_advances`). The pass is followed token by token, and a step outside all namespaces does one of
three things (`step_advances`): it sheds marks, it leaves out a bare `use` or `namespace`, or it
copies its tokens by a rule of the grammar of flat units.

Once a namespace has been entered or an import made, names without separators change as well, and
what becomes of them is not in the grammar. By then the unit has lost loose characters, and
`run_keeps` says that it never gets them back.
-/

namespace LegacyPhp.Qualify

open Text Scan Drift Legacy List LegacyPhp.Stream

variable {s : State} {flat name text : Text} {ts rest : List Token} {list : Bool}
  {head t place : Token} {p : Piece} {r : Step} {scope : Scope}

/-! ## Class names -/

section names

variable {u : Source} (ho : PlainOptions u.options)

include ho

theorem className_keeps {s : Scope} (hs : s.Plain) (hname : Plain name)
    (h : className u s place name = .ok flat) : Keeps name flat := by
  unfold className at h
  split at h
  · next full hfull =>
    cases h
    obtain ⟨hplain, hflat⟩ := flatten_plain ho (Scope.resolve?_plain hs hname hfull)
    exact hname.keeps hplain hflat
  · cases h

theorem className_sheds (hname : Plain name) (h : className u {} place name = .ok flat) :
    Sheds name flat ∨ flat = name ∧ '\\' ∉ name := by
  by_cases hsep : '\\' ∈ name
  · unfold className at h
    split at h
    · next full hfull =>
      cases h
      obtain ⟨hplain, hflat⟩ :=
        flatten_plain ho (Scope.resolve?_plain Scope.plain_empty hname hfull)
      exact .inl (hname.sheds hplain hsep hflat)
    · cases h
  · rw [className_of_not_mem u place hsep] at h
    cases h
    exact .inr ⟨rfl, hsep⟩

omit ho in
theorem gather_sheds (p : Token → Bool) (hform : ∀ t ∈ ts, t.WellFormed) : Sheds (serialize ts)
        (serialize (gather p ts).1 ++ serialize (gather p ts).2) ∨
      (gather p ts).1 ++ (gather p ts).2 = ts := by
  rw [← serialize_append]
  exact (drops_gather p ts).sheds hform

omit ho in
theorem gather_keeps (p : Token → Bool) (hform : ∀ t ∈ ts, t.WellFormed) : Keeps (serialize ts)
      (serialize (gather p ts).1 ++ serialize (gather p ts).2) := by
  rw [← serialize_append]
  exact (drops_gather p ts).keeps hform

theorem classNames_keeps {s : Scope} (hs : s.Plain) (hform : ∀ t ∈ ts, t.WellFormed)
    (h : classNames u s list head ts = .ok p) :
    Keeps (head.text ++ serialize ts) (p.text ++ serialize p.rest) := by
  -- up to the end of the first name
  have hfirst : ∀ (head : Token) (ts : List Token) (flat : Text), (∀ t ∈ ts, t.WellFormed) →
      className u s head (Stream.name (gather (·.kind == .whitespace) ts).2).1 = .ok flat →
      Keeps (head.text ++ serialize ts)
        (head.text ++ serialize (gather (·.kind == .whitespace) ts).1 ++ flat ++
          serialize (Stream.name (gather (·.kind == .whitespace) ts).2).2) := by
    intro head ts flat hform hflat
    have hform' : ∀ t ∈ (gather (·.kind == .whitespace) ts).2, t.WellFormed := fun t ht =>
      hform t ((suffix_gather _ ts).subset ht)
    have hname := (gather_keeps Token.isNamePart hform').trans
      ((className_keeps ho hs (name_plain hform') hflat).append (.refl _))
    have hspace := (gather_keeps (·.kind == .whitespace) hform).trans ((Keeps.refl _).append hname)
    simpa only [Stream.name, append_assoc] using (Keeps.refl head.text).append hspace
  fun_induction classNames u s list head ts generalizing p with
  | case1 => cases h
  | case2 head ts space name flat hflat text => cases h; exact hfirst head ts flat hform hflat
  | case3 =>
    rename_i head ts space name flat hflat text comma rest hfetch ih
    obtain ⟨more, hmore, rfl⟩ := map_eq_ok h
    split at hfetch
    · have hform' : ∀ t ∈ name.2, t.WellFormed := fun t ht =>
        hform t (((suffix_gather _ _).trans (suffix_gather _ ts)).subset ht)
      have hrest := ih (fun t ht => hform' t ((suffix_fetch hfetch).subset ht)) hmore
      have hcomma := ((drops_fetch hfetch).keeps hform').trans hrest
      refine (hfirst head ts flat hform hflat).trans ?_
      show Keeps (text ++ serialize name.2) (text ++ more.text ++ serialize more.rest)
      rw [append_assoc text]
      exact (Keeps.refl text).append hcomma
    · cases hfetch

omit ho in
theorem together_of_gather {p : Token → Bool} (h : (gather p ts).1 ++ (gather p ts).2 = ts) :
    Together p (gather p ts).1 (gather p ts).2 := by
  unfold Together
  rw [h]

/-- White space and one class name, outside all namespaces. -/
theorem firstName_sheds (hform : ∀ t ∈ ts, t.WellFormed)
    (h : className u {} head (Stream.name (gather (·.kind == .whitespace) ts).2).1 = .ok flat) :
    let space := gather (·.kind == .whitespace) ts
    let name := gather Token.isNamePart space.2
    Sheds (serialize ts) (serialize space.1 ++ (flat ++ serialize name.2)) ∨
      ts = space.1 ++ (name.1 ++ name.2) ∧ flat = serialize name.1 ∧
        Together (·.kind == .whitespace) space.1 (name.1 ++ name.2) ∧
        Together Token.isNamePart name.1 name.2 ∧ '\\' ∉ serialize name.1 := by
  intro space name
  have hform' : ∀ t ∈ space.2, t.WellFormed := fun t ht =>
    hform t ((suffix_gather _ ts).subset ht)
  have hflat := className_sheds ho (name_plain hform') h
  have hkeeps : Keeps (serialize name.1) flat := keeps_of_sheds_or_eq (hflat.imp id And.left)
  have hname := hkeeps.append (.refl (serialize name.2))
  -- trivia may go with the white space, then with the name, then the name itself may change
  rcases gather_sheds (·.kind == .whitespace) hform with hspace | hspace
  · exact .inl (hspace.trans_keeps ((Keeps.refl _).append
      ((gather_keeps Token.isNamePart hform').trans hname)))
  · have hts : serialize ts = serialize space.1 ++ serialize space.2 := by
      rw [← serialize_append, hspace]
    rw [hts]
    rcases gather_sheds Token.isNamePart hform' with htogether | htogether
    · exact .inl ((Keeps.refl _).append_sheds (htogether.trans_keeps hname))
    · have hspace₂ : serialize space.2 = serialize name.1 ++ serialize name.2 := by
        rw [← serialize_append, htogether]
      rw [hspace₂]
      rcases hflat with hflat | ⟨rfl, hsep⟩
      · exact .inl ((Keeps.refl _).append_sheds (hflat.append_keeps (.refl _)))
      · refine .inr ⟨?_, rfl, ?_, together_of_gather htogether, hsep⟩
        · rw [htogether, hspace]
        · rw [htogether]
          exact together_of_gather hspace

/-- Outside all namespaces, class names that shed nothing are flat. -/
theorem classNames_sheds (hform : ∀ t ∈ ts, t.WellFormed)
    (h : classNames u {} list head ts = .ok p) :
    Sheds (head.text ++ serialize ts) (p.text ++ serialize p.rest) ∨
      ∃ used, ts = used ++ p.rest ∧ p.text = head.text ++ serialize used ∧
        FlatNames list used p.rest := by
  fun_induction classNames u {} list head ts generalizing p with
  | case1 => cases h
  | case2 =>
    rename_i head ts space name flat hflat text hnone
    cases h
    rcases firstName_sheds ho hform hflat with hsheds | ⟨hts, htext, hspace, htogether, hsep⟩
    · refine .inl ?_
      simp only [text, append_assoc]
      exact (Keeps.refl _).append_sheds hsheds
    · refine .inr ⟨space.1 ++ (gather Token.isNamePart space.2).1, ?_, ?_, ?_⟩
      · rw [append_assoc]
        exact hts
      · rw [serialize_append, ← htext, ← append_assoc]
      · refine .one hspace htogether hsep fun hlist => ?_
        rw [dif_pos hlist] at hnone
        exact hnone
  | case3 =>
    rename_i head ts space name flat hflat text comma rest hfetch ih
    obtain ⟨more, hmore, rfl⟩ := map_eq_ok h
    split at hfetch
    · next hlist =>
      have hname : ∀ t ∈ name.2, t.WellFormed := fun t ht =>
        hform t (((suffix_gather _ _).trans (suffix_gather _ ts)).subset ht)
      have hrest := ih (fun t ht => hname t ((suffix_fetch hfetch).subset ht)) hmore
      have hkeeps : Keeps (comma.text ++ serialize rest) (more.text ++ serialize more.rest) := by
        rcases hrest with hrest | ⟨used, rfl, htext, _⟩
        · exact hrest.keeps
        · rw [htext, serialize_append, append_assoc]
          exact .refl _
      simp only [text, append_assoc]
      rcases firstName_sheds ho hform hflat with hsheds | ⟨hts, htext, hspace, htogether, hsep⟩
      · refine .inl ((Keeps.refl _).append_sheds (hsheds.trans_keeps ?_))
        exact (Keeps.refl _).append ((Keeps.refl _).append
          (((drops_fetch hfetch).keeps hname).trans hkeeps))
      · have hserialize : serialize ts = serialize space.1 ++ (flat ++ serialize name.2) := by
          rw [htext, ← serialize_append, ← serialize_append]
          exact congrArg serialize hts
        -- it is left to look at the comma and at the names after it
        have hafter : Sheds (serialize name.2) (more.text ++ serialize more.rest) →
            Sheds (head.text ++ serialize ts) (head.text ++ (serialize space.1 ++
              (flat ++ (more.text ++ serialize more.rest)))) := by
          intro hsheds
          rw [hserialize]
          exact (Keeps.refl _).append_sheds ((Keeps.refl _).append_sheds
            ((Keeps.refl _).append_sheds hsheds))
        rcases fetch_sheds hname hfetch with hcomma | hcomma
        · exact .inl (hafter (hcomma.trans_keeps hkeeps))
        rcases hrest with hrest | ⟨used, hused, hmoreText, hflatNames⟩
        · refine .inl (hafter ?_)
          rw [hcomma]
          exact hrest
        · have hname₂ : (gather Token.isNamePart space.2).2 =
              comma :: (used ++ more.rest) := by rw [← hused, ← hcomma]; rfl
          rw [hname₂] at hts hspace htogether
          refine .inr ⟨space.1 ++ (gather Token.isNamePart space.2).1 ++ comma :: used,
            ?_, ?_, ?_⟩
          · simpa only [append_assoc, cons_append] using hts
          · rw [hmoreText, htext]
            simp only [serialize_append, serialize_cons, append_assoc, space]
          · exact .more hlist hspace htogether hsep (fetch_holds hfetch) hflatNames
    · cases hfetch

/-! ## One step -/

omit ho in
theorem nameStep_eq_ok (h : nameStep u s t ts = .ok r) : r.state = s ∧ r.rest = (Stream.name ts).2 ∧
      if meansClass s.lastInk (Stream.name ts).2 then
        className u s.scope t (t.text ++ (Stream.name ts).1) = .ok r.text
      else r.text = t.text ++ (Stream.name ts).1 := by
  unfold nameStep at h
  simp only at h
  split at h
  · next hclass =>
    obtain ⟨flat, hflat, rfl⟩ := map_eq_ok h
    refine ⟨rfl, rfl, ?_⟩
    rw [meansClass, if_pos hclass]
    exact hflat
  · next hclass =>
    cases h
    refine ⟨rfl, rfl, ?_⟩
    rw [meansClass, if_neg hclass]

omit ho in
theorem plain_name_cons (hform : ∀ u ∈ t :: ts, u.WellFormed) (ht : t.isNamePart) :
    Plain (t.text ++ (Stream.name ts).1) := by
  show Plain (serialize (t :: (gather Token.isNamePart ts).1))
  refine plain_serialize (fun v hv => hform v ?_) fun v hv => ?_
  · rcases mem_cons.1 hv with rfl | hv
    · exact mem_cons_self
    · exact mem_cons_of_mem t (mem_gather hv).1
  · rcases mem_cons.1 hv with rfl | hv
    · exact ht
    · exact (mem_gather hv).2

theorem nameStep_keeps (hs : s.scope.Plain) (hform : ∀ u ∈ t :: ts, u.WellFormed)
    (ht : t.isNamePart) (h : nameStep u s t ts = .ok r) :
    Keeps (serialize (t :: ts)) (r.text ++ serialize r.rest) := by
  obtain ⟨_, hrest, htext⟩ := nameStep_eq_ok h
  have hname : Keeps (t.text ++ (Stream.name ts).1) r.text := by
    split at htext
    · exact className_keeps ho hs (plain_name_cons hform ht) htext
    · rw [htext]; exact .refl _
  have hgather := (Keeps.refl t.text).append
    (gather_keeps Token.isNamePart fun v hv => hform v (mem_cons_of_mem t hv))
  rw [serialize_cons, hrest]
  refine hgather.trans ?_
  rw [← append_assoc]
  exact hname.append (.refl _)

/-- Outside all namespaces, a name that sheds nothing is flat where it means a class. -/
theorem nameStep_sheds (hs : s.scope = {}) (hform : ∀ u ∈ t :: ts, u.WellFormed) (ht : t.isNamePart)
    (h : nameStep u s t ts = .ok r) : Sheds (serialize (t :: ts)) (r.text ++ serialize r.rest) ∨
      ∃ more, ts = more ++ r.rest ∧ r.text = serialize (t :: more) ∧
        Together Token.isNamePart more r.rest ∧
        (meansClass s.lastInk r.rest → '\\' ∉ serialize (t :: more)) := by
  obtain ⟨_, hrest, htext⟩ := nameStep_eq_ok h
  have hname : Sheds (t.text ++ (Stream.name ts).1) r.text ∨ r.text = t.text ++ (Stream.name ts).1 ∧
      (meansClass s.lastInk r.rest → '\\' ∉ t.text ++ (Stream.name ts).1) := by
    rw [← hrest] at htext
    split at htext
    · next hclass =>
      rw [hs] at htext
      refine (className_sheds ho (plain_name_cons hform ht) htext).imp id fun hflat => ?_
      exact ⟨hflat.1, fun _ => hflat.2⟩
    · next hclass => exact .inr ⟨htext, fun h => absurd h hclass⟩
  rw [serialize_cons, hrest]
  rcases gather_sheds Token.isNamePart fun v hv => hform v (mem_cons_of_mem t hv) with
    htogether | htogether
  · refine .inl (((Keeps.refl t.text).append_sheds htogether).trans_keeps ?_)
    rw [← append_assoc]
    exact (keeps_of_sheds_or_eq (hname.imp id And.left)).append (.refl _)
  · have hts : serialize ts = (Stream.name ts).1 ++ serialize (Stream.name ts).2 := by
      rw [Stream.name, ← serialize_append, htogether]
    rcases hname with hname | ⟨hname, hflat⟩
    · refine .inl ?_
      rw [hts, ← append_assoc]
      exact hname.append_keeps (.refl _)
    · rw [← hrest]
      refine .inr ⟨(gather Token.isNamePart ts).1, ?_, hname, ?_, hflat⟩
      · rw [hrest]
        exact htogether.symm
      · rw [hrest]
        exact together_of_gather htogether

omit ho in
/-- Everything a step can do. -/
theorem step_cases (h : step u s t rest = .ok r) :
    t.isKeyword .namespaceKw ∧ r = enterNamespace s rest ∨
    t.isKeyword .useKw ∧ isNext (·.isPunct "(") rest = false ∧
      r = ⟨[], { s with scope := (imports s.scope rest).1 },
        dropIf (·.isPunct ";") (imports s.scope rest).2⟩ ∨
    isClassContext t.kind ∧
      (∃ p, classNames u s.scope (takesList (s.entering t) t) t rest = .ok p ∧
        r = ⟨p.text, s.entering t, p.rest⟩) ∨
    t.isNamePart ∧ nameStep u s t rest = .ok r ∨
    t.isKeyword .namespaceKw = false ∧
      (t.isKeyword .useKw → isNext (·.isPunct "(") rest) ∧
      isClassContext t.kind = false ∧ t.isNamePart = false ∧
      r = ⟨copied u.options s.scope t, s.entering t, rest⟩ := by
  rw [step_eq] at h
  split at h
  · next hnamespace => cases h; exact .inl ⟨hnamespace, rfl⟩
  next hnamespace =>
  split at h
  · next huse =>
    cases h
    simp only [Bool.and_eq_true, Bool.not_eq_true'] at huse
    exact .inr (.inl ⟨huse.1, huse.2, rfl⟩)
  next huse =>
  split at h
  · next hcontext =>
    obtain ⟨p, hp, rfl⟩ := map_eq_ok h
    exact .inr (.inr (.inl ⟨hcontext, p, hp, rfl⟩))
  next hcontext =>
  split at h
  · next hname => exact .inr (.inr (.inr (.inl ⟨hname, h⟩)))
  next hname =>
  cases h
  refine .inr (.inr (.inr (.inr ⟨?_, fun hkey => ?_, ?_, ?_, rfl⟩)))
  · simpa using hnamespace
  · simpa [hkey] using huse
  · simpa using hcontext
  · simpa using hname

theorem copied_keeps {s : Scope} (hs : s.Plain) (t : Token) :
    Keeps t.text (copied u.options s t) := by
  unfold copied
  split
  · exact proseFrom_keeps ho hs none t.text
  · split
    · exact keeps_of_sheds_or_eq ((literalFrom_sheds ho s _ t.text).imp id And.left)
    · exact .refl _

/-- No step gets back what the unit has shed. -/
theorem step_keeps (hs : s.scope.Plain) (hform : ∀ u ∈ t :: rest, u.WellFormed)
    (h : step u s t rest = .ok r) :
    Keeps (serialize (t :: rest)) (r.text ++ serialize r.rest) ∧ r.state.scope.Plain := by
  have hrest : ∀ u ∈ rest, u.WellFormed := fun u hu => hform u (mem_cons_of_mem t hu)
  have hentering : (s.entering t).scope.Plain := by rwa [State.entering_scope]
  rcases step_cases h with ⟨hkey, rfl⟩ | ⟨hkey, _, rfl⟩ | ⟨_, p, hp, rfl⟩ | ⟨ht, h⟩ |
    ⟨_, _, _, _, rfl⟩
  · have hinert := inert_of_isWord (hform t mem_cons_self) (isWord_of_isKeyword hkey)
    exact ⟨keeps_of_inert hinert (enterNamespace_keeps s hrest), enterNamespace_plain s hrest⟩
  · have hinert := inert_of_isWord (hform t mem_cons_self) (isWord_of_isKeyword hkey)
    have hfound : ∀ u ∈ (imports s.scope rest).2, u.WellFormed := fun u hu =>
      hrest u ((suffix_imports _ _).subset hu)
    have hsemicolon := keeps_of_sheds_or_eq
      ((dropIf_semicolon_sheds hfound).imp id (congrArg serialize))
    exact ⟨keeps_of_inert hinert ((imports_keeps s.scope hrest).trans hsemicolon),
      imports_plain hs hrest⟩
  · exact ⟨classNames_keeps ho hs hrest hp, hentering⟩
  · refine ⟨nameStep_keeps ho hs hform ht h, ?_⟩
    rwa [(nameStep_eq_ok h).1]
  · exact ⟨(copied_keeps ho hs t).append (.refl _), hentering⟩

/-- A pass that starts in a plain scope ends in one, and gets nothing back. -/
theorem run_keeps (hs : s.scope.Plain) (hform : ∀ t ∈ ts, t.WellFormed)
    (h : run u s ts = .ok (text, scope)) : Keeps (serialize ts) text ∧ scope.Plain := by
  fun_induction run u s ts generalizing text with
  | case1 s => cases h; exact ⟨.refl _, hs⟩
  | case2 => cases h
  | case3 s t rest r hstep ih =>
    obtain ⟨⟨more, final⟩, hmore, heq⟩ := map_eq_ok h
    cases heq
    obtain ⟨hkeeps, hplain⟩ := step_keeps ho hs hform hstep
    have hform' : ∀ t ∈ r.rest, t.WellFormed := fun u hu =>
      hform u (mem_cons_of_mem t ((suffix_step hstep).subset hu))
    obtain ⟨hrest, hfinal⟩ := ih hplain hform' hmore
    exact ⟨hkeeps.trans ((Keeps.refl r.text).append hrest), hfinal⟩

theorem copied_sheds (t : Token) : Sheds t.text (copied u.options {} t) ∨
      copied u.options {} t = t.text ∧
        (t.kind = .comment ∨ t.kind = .docComment → FlatProse u.options none t.text) ∧
        (t.kind = .stringLiteral → FlatLiteral u.options t.text) := by
  unfold copied
  split
  · next hkind =>
    refine (proseFrom_sheds ho none t.text).imp id fun h => ⟨h.1, fun _ => h.2, fun hstring => ?_⟩
    simp [hstring] at hkind
  · next hcomment =>
    have hcomment : ¬ (t.kind = .comment ∨ t.kind = .docComment) := by simpa using hcomment
    split
    · refine (literalFrom_sheds ho {} _ t.text).imp id fun h => ?_
      exact ⟨h.1, fun hkind => absurd hkind hcomment, fun _ => h.2⟩
    · next hstring =>
      refine .inr ⟨rfl, fun hkind => absurd hkind hcomment, fun hkind => ?_⟩
      simp [hkind] at hstring

/-- Outside all namespaces a step sheds marks, or leaves out a bare reserved word, or copies by a
rule of the grammar. -/
theorem step_advances (hs : s.scope = {}) (hts : Lexed (t :: rest)) (h : step u s t rest = .ok r) :
    Sheds (serialize (t :: rest)) (r.text ++ serialize r.rest) ∨
    r.state.scope = {} ∧ Advances (serialize (t :: rest)) (r.text ++ serialize r.rest) ∨
    r.state.scope = {} ∧ r.text ++ serialize r.rest = serialize (t :: rest) ∧
      (FlatUnit u.options (r.state.wrote r.text) r.rest → FlatUnit u.options s (t :: rest)) := by
  have hform := hts.wellFormed
  have hentering : (s.entering t).scope = {} := by rwa [State.entering_scope]
  rcases step_cases h with ⟨hkey, rfl⟩ | ⟨hkey, _, rfl⟩ | ⟨hcontext, p, hp, rfl⟩ | ⟨ht, h⟩ |
    ⟨hnamespace, huse, hcontext, hname, rfl⟩
  · exact (enterNamespace_advances s hts hkey).imp id .inl
  · refine (imports_advances s.scope hts hkey).imp id fun h => .inl ⟨?_, h.2⟩
    rw [← hs]
    exact h.1
  · rw [hs] at hp
    rcases classNames_sheds ho hts.tail.wellFormed hp with hsheds | ⟨used, rfl, htext, hnames⟩
    · exact .inl hsheds
    · refine .inr (.inr ⟨hentering, ?_, fun hflat => ?_⟩)
      · rw [htext, append_assoc, ← serialize_append]
        rfl
      · rw [htext] at hflat
        exact .reference hcontext hnames hflat
  · obtain ⟨hstate, _, _⟩ := nameStep_eq_ok h
    rcases nameStep_sheds ho hs hform ht h with hsheds | ⟨more, rfl, htext, hmore, hflatName⟩
    · exact .inl hsheds
    · refine .inr (.inr ⟨by rwa [hstate], ?_, fun hflat => ?_⟩)
      · rw [htext, ← serialize_append]
        rfl
      · rw [htext, hstate] at hflat
        exact .name ht hmore hflatName hflat
  · rw [hs]
    rcases copied_sheds ho t with hsheds | ⟨heq, hcomment, hliteral⟩
    · exact .inl (hsheds.append_keeps (.refl _))
    · refine .inr (.inr ⟨hentering, by rw [heq]; rfl, fun hflat => ?_⟩)
      rw [heq] at hflat
      exact .copy hnamespace huse hcontext hname hcomment hliteral hflat

/-- Qualification moves forward, or the unit was flat. -/
theorem run_advances (hs : s.scope = {}) (hts : Lexed ts) (h : run u s ts = .ok (text, scope)) :
    Advances (serialize ts) text ∨ text = serialize ts ∧ FlatUnit u.options s ts := by
  fun_induction run u s ts generalizing text with
  | case1 s => cases h; exact .inr ⟨rfl, .nil⟩
  | case2 => cases h
  | case3 s t rest r hstep ih =>
    obtain ⟨⟨more, final⟩, hmore, heq⟩ := map_eq_ok h
    cases heq
    have hrest : Lexed r.rest :=
      hts.of_suffix ((suffix_step hstep).trans (suffix_cons t rest))
    rcases step_advances ho hs hts hstep with hsheds | ⟨hscope, hadvances⟩ | ⟨hscope, heq, hflat⟩
    · -- what follows may be in a namespace now, but it gets nothing back
      have hplain : s.scope.Plain := by rw [hs]; exact Scope.plain_empty
      have hafter : (r.state.wrote r.text).scope.Plain :=
        (step_keeps ho hplain hts.wellFormed hstep).2
      have hkeeps := run_keeps ho hafter hrest.wellFormed hmore
      exact .inl (hsheds.trans_keeps ((Keeps.refl r.text).append hkeeps.1)).advances
    · rcases ih hscope hrest hmore with hmore | ⟨hmore, _⟩
      · exact .inl (hadvances.trans (hmore.append_left r.text))
      · rw [hmore]
        exact .inl hadvances
    · rw [← heq]
      rcases ih hscope hrest hmore with hmore | ⟨hmore, hunit⟩
      · exact .inl (hmore.append_left r.text)
      · exact .inr ⟨by rw [hmore], hflat hunit⟩

end names

end LegacyPhp.Qualify
