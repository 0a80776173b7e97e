import LegacyPhp.Proofs.Bundle.Directives
import LegacyPhp.Proofs.Bundle.Imports
import LegacyPhp.Proofs.Token.Seams

/-!
# Where the code of a unit without a namespace goes

With namespaces on, a unit that declares none belongs into the global block. It gets there by a
declaration that is put into its text, and that is done by looking at the first five characters: a
unit that starts with `<?PHP`, with a short tag or with text is copied as it stands, into whatever
block the bundle has open.

`ownMoves` lists what a unit writes itself, the files that it includes left out, each move with the
bundle that it is made on. All code of a unit goes into one block, since after an included file the
block from before is opened again (`openNamespace_of_own`). That block is the global one if the
declaration was put in, and else the one that was open (`global_block_iff`). The declaration
disturbs no other token of the unit: behind it the text goes on with the white space of the tag
(`lexemes_placed`).
-/

namespace LegacyPhp.Bundle

open Text Scan Closure List

variable {b : Bundler} {moves : List Move} {p : Bundler × Move} {content : Text} {origin : Path}
  {t tag : Token} {o : BundleOptions} {front : List Move} {u : UnitContext} {s s' : UnitState}
  {rest ts more : List Token}

/-! ## The moves of a unit itself -/

/-- The moves with the bundle that each is made on. -/
def along (b : Bundler) : List Move → List (Bundler × Move)
  | [] => []
  | m :: moves => (b, m) :: along (m.apply b) moves

theorem along_append (b : Bundler) (first second : List Move) :
    along b (first ++ second) = along b first ++ along (applyAll first b) second := by
  induction first generalizing b with
  | nil => rfl
  | cons m first ih => exact congrArg ((b, m) :: ·) (ih (m.apply b))

theorem exists_of_mem_along (h : p ∈ along b moves) :
    ∃ earlier later, moves = earlier ++ p.2 :: later ∧ p.1 = applyAll earlier b := by
  induction moves generalizing b with
  | nil => cases h
  | cons m moves ih =>
    rcases mem_cons.1 h with rfl | h
    · exact ⟨[], moves, rfl, rfl⟩
    · obtain ⟨earlier, later, rfl, hp⟩ := ih h
      exact ⟨m :: earlier, later, rfl, hp⟩

theorem openNamespace_along (h : moves.all (!·.isBlock)) (hp : p ∈ along b moves) :
    p.1.openNamespace = b.openNamespace := by
  obtain ⟨earlier, later, rfl, hb⟩ := exists_of_mem_along hp
  rw [all_append, Bool.and_eq_true] at h
  rw [hb, openNamespace_applyAll h.1]

/-- The moves that a token makes itself, each with the bundle that it is made on. -/
def ownStepMoves (u : UnitContext) (s : UnitState) (t : Token) (rest : List Token) :
    List (Bundler × Move) :=
  match inlineCall? u.tree u.origin s t with
  | none => along s.bundler (stepMoves (idleUnit u.options u.tree u.origin u.source) s t rest)
  | some target =>
    match u.inlineFile target s.bundler with
    | (after, none) => along after (inlinedMoves s t rest after)
    | _ => []

/-- The moves that the tokens of a unit make themselves. -/
def ownTokenMoves (u : UnitContext) (s : UnitState) : List Token → List (Bundler × Move)
  | [] => []
  | t :: rest =>
    ownStepMoves u s t rest ++
      match stepToken u s t rest with
      | .next s => ownTokenMoves u s rest
      | _ => []

/-- The moves that a unit makes itself, the files that it includes left out. -/
def ownMoves (o : BundleOptions) (tree : FileTree) (content : Text) (origin : Path) (b : Bundler) :
    List (Bundler × Move) :=
  match placedTokens o origin content with
  | .error _ => []
  | .ok (source, tokens) =>
    along b (startMoves b tokens) ++
      ownTokenMoves { options := o, tree, origin, source, inlineFile := addFile o tree }
        (unitStart b tokens) (unitTokens b tokens)

/-- Whether a move writes code: no text, no tag and no comment. -/
def Move.isCode : Move → Bool
  | copy _ t =>
    !t.isTrivia && t.kind != .inlineHtml && t.kind != .openTag && t.kind != .closeTag
  | write text => text != "?>".toList && text != "<?php ".toList
  | _ => false

theorem isCode_along (h : moves.all (!·.isCode)) (hp : p ∈ along b moves) : p.2.isCode = false := by
  obtain ⟨earlier, later, rfl, -⟩ := exists_of_mem_along hp
  simpa using all_eq_true.1 h p.2 (mem_append_right _ mem_cons_self)

theorem noCode_enterMoves (b : Bundler) : (enterMoves b).all (!·.isCode) := by
  unfold enterMoves
  split <;> rfl

theorem noCode_closeMoves (b : Bundler) : (closeMoves b).all (!·.isCode) := by
  unfold closeMoves
  split <;> rfl

theorem noCode_startMoves (b : Bundler) (tokens : List Token) :
    (startMoves b tokens).all (!·.isCode) := by
  unfold startMoves
  split <;> rfl

theorem noCode_switchMoves (b : Bundler) (name : Text) : (switchMoves b name).all (!·.isCode) := by
  unfold switchMoves
  split
  · rfl
  · rw [all_append, noCode_closeMoves]
    rfl

theorem stepToken_bundler_idle (hcall : inlineCall? u.tree u.origin s t = none) :
    (stepToken u s t rest).bundler =
      applyAll (stepMoves (idleUnit u.options u.tree u.origin u.source) s t rest) s.bundler := by
  have hidle := @stepToken_inlineFile u s t rest hcall
    (idleUnit u.options u.tree u.origin u.source).inlineFile
  rw [← hidle]
  exact @stepToken_bundler (idleUnit u.options u.tree u.origin u.source) s t rest hcall

/-- What a unit makes itself is part of what the copying of its tokens makes. -/
theorem own_mem_tokenMoves {inner : Path → Bundler → List Move}
    (hinner : ∀ path b, (u.inlineFile path b).1 = applyAll (inner path b) b)
    (hp : p ∈ ownTokenMoves u s ts) :
    ∃ earlier later, tokenMoves u inner s ts = earlier ++ p.2 :: later ∧
      p.1 = applyAll earlier s.bundler := by
  induction ts generalizing s with
  | nil => cases hp
  | cons t rest ih =>
    -- what comes later, behind moves that lead to the state in which it starts
    have hlater : ∀ first : List Move,
        applyAll first s.bundler = (stepToken u s t rest).bundler →
        p ∈ (match stepToken u s t rest with
          | .next s => ownTokenMoves u s rest
          | _ => []) →
        ∃ earlier later, first ++ (match stepToken u s t rest with
          | .next s => tokenMoves u inner s rest
          | _ => []) = earlier ++ p.2 :: later ∧ p.1 = applyAll earlier s.bundler := by
      intro first hfirst hp
      cases hstep : stepToken u s t rest with
      | next s' =>
        rw [hstep] at hfirst hp
        obtain ⟨earlier, later, hmoves, hb⟩ := ih hp
        refine ⟨first ++ earlier, later, ?_, ?_⟩
        · rw [append_assoc, ← hmoves]
        · rw [applyAll_append, hfirst]
          exact hb
      | stop | fail =>
        rw [hstep] at hp
        cases hp
    unfold ownTokenMoves ownStepMoves at hp
    unfold tokenMoves
    cases hcall : inlineCall? u.tree u.origin s t with
    | none =>
      simp only [hcall] at hp ⊢
      rcases mem_append.1 hp with hp | hp
      · obtain ⟨earlier, later, hmoves, hb⟩ := exists_of_mem_along hp
        rw [hmoves, append_assoc]
        exact ⟨earlier, _, rfl, hb⟩
      · exact hlater _ (stepToken_bundler_idle hcall).symm hp
    | some target =>
      have hstep := @stepToken_of_inline u s t rest target hcall
      have hin := hinner target s.bundler
      rcases hfile : u.inlineFile target s.bundler with ⟨after, _ | f⟩
      · simp only [hcall, hfile] at hp hstep hin ⊢
        rcases mem_append.1 hp with hp | hp
        · obtain ⟨earlier, later, hmoves, hb⟩ := exists_of_mem_along hp
          rw [hmoves, append_assoc, ← append_assoc]
          exact ⟨_, _, rfl, by rw [applyAll_append, ← hin]; exact hb⟩
        · rw [← append_assoc]
          refine hlater (inner target s.bundler ++ inlinedMoves s t rest after) ?_ hp
          rw [applyAll_append, ← hin, hstep, afterInline_bundler]
      · simp only [hcall, hfile] at hp hstep
        rw [hstep] at hp
        cases hp

/-- What a unit makes itself is part of what inlining it makes. -/
theorem own_mem_contentMoves {tree : FileTree} (hp : p ∈ ownMoves o tree content origin b) :
    ∃ earlier later, contentMoves o tree content origin b = earlier ++ p.2 :: later ∧
      p.1 = applyAll earlier b := by
  unfold ownMoves at hp
  unfold contentMoves contentMovesWith
  rcases hplaced : placedTokens o origin content with f | ⟨source, tokens⟩
  · rw [hplaced] at hp
    cases hp
  · rw [hplaced] at hp
    rcases mem_append.1 hp with hp | hp
    · obtain ⟨earlier, later, hmoves, hb⟩ := exists_of_mem_along hp
      simp only [hmoves, append_assoc, cons_append]
      exact ⟨.start origin tokens :: earlier, _, rfl, hb⟩
    · obtain ⟨earlier, later, hmoves, hb⟩ := own_mem_tokenMoves
        (fun path b => (run_addFile o tree path b).eq_applyAll) hp
      refine ⟨.start origin tokens :: (startMoves b tokens ++ earlier), later, ?_, ?_⟩
      · simp only [hmoves, append_assoc, cons_append]
      · rw [applyAll_cons, applyAll_append]
        exact hb

/-! ## One block for all code of a unit -/

theorem no_block_startMoves (b : Bundler) (tokens : List Token) :
    (startMoves b tokens).all (!·.isBlock) :=
  no_block_of_ordinary (isOrdinary_startMoves b tokens)

theorem no_block_directiveMoves (u : UnitContext) (s : UnitState) {d : Directive}
    (hd : d ≠ .enter) (t : Token) : (directiveMoves u s d t).all (!·.isBlock) := by
  unfold directiveMoves
  cases d with
  | enter => exact absurd rfl hd
  | use =>
    simp only
    split
    · rfl
    · unfold importMoves
      split <;> rfl
  | inclusion word =>
    simp only
    split
    · rw [all_cons]
      split
      · rfl
      · exact no_block_enterMoves _
    · rfl

/-- A token that goes into a namespace declaration, or ends it. -/
def InDeclaration (u : UnitContext) (s : UnitState) (t : Token) (rest : List Token) : Prop :=
  s.pending = some .enter ∧ role u.options s.bundler t rest = .significant

/-- A token outside namespace declarations opens and closes no block. -/
theorem no_block_stepMoves (hs : ¬ InDeclaration u s t rest) :
    (stepMoves u s t rest).all (!·.isBlock) := by
  unfold stepMoves
  split
  · rfl
  · next hrole =>
    unfold significantMoves
    split
    · exact no_block_plainMoves _ _ _
    · next d hd =>
      have hd : d ≠ .enter := fun heq => hs ⟨by rw [hd, heq], hrole⟩
      rw [all_cons]
      split
      · simp only [all_append, no_block_directiveMoves u s hd t, Bool.true_and]
        split
        · exact no_block_plainMoves _ _ _
        · rfl
      · rfl
  · rfl

theorem openNamespace_switchNamespace (b : Bundler) (name : Text) :
    (b.switchNamespace name).openNamespace = some name := by
  unfold Bundler.switchNamespace
  split
  · next hsame => exact beq_iff_eq.1 hsame
  · rfl

/-- The block that is opened again gets its imports after it has been opened. -/
theorem openNamespace_restoreMoves {before : Bundler} (hp : p ∈ along b (restoreMoves b before))
    (hcode : p.2.isCode) : p.1.openNamespace = before.openNamespace := by
  unfold restoreMoves at hp
  split at hp
  · cases hp
  · rw [along_append, along_append, along_append] at hp
    rcases mem_append.1 hp with hp | hp
    · rcases mem_append.1 hp with hp | hp
      · rcases mem_append.1 hp with hp | hp
        · rw [isCode_along (noCode_enterMoves b) hp] at hcode
          cases hcode
        · rw [isCode_along (noCode_closeMoves b) hp] at hcode
          cases hcode
      · unfold reopenMoves at hp
        split at hp
        · cases hp
        · next name hname =>
          rcases mem_cons.1 hp with rfl | hp
          · cases hcode
          · rw [hname]
            refine openNamespace_along ?_ hp
            split <;> rfl
    · cases mem_singleton.1 hp
      cases hcode

/-- After an included file a unit writes code in its own block only. -/
theorem openNamespace_inlinedMoves {after : Bundler}
    (hp : p ∈ along after (inlinedMoves s t rest after)) (hcode : p.2.isCode) :
    p.1.openNamespace = s.bundler.openNamespace := by
  have htake : applyAll (s.pending.toList.map (Move.take · t)) after = after := by
    cases s.pending <;> rfl
  unfold inlinedMoves at hp
  rw [along_append, along_append, applyAll_append, htake, applyAll_restoreMoves] at hp
  rcases mem_append.1 hp with hp | hp
  · rcases mem_append.1 hp with hp | hp
    · have htakes : (s.pending.toList.map (Move.take · t)).all (!·.isCode) := by
        cases s.pending <;> rfl
      rw [isCode_along htakes hp] at hcode
      cases hcode
    · exact openNamespace_restoreMoves hp hcode
  · split at hp
    · rw [openNamespace_along (no_block_plainMoves _ _ _) hp]
      exact openNamespace_restore _ _
    · rw [openNamespace_along (no_block_enterMoves _) hp]
      exact openNamespace_restore _ _

/-- A move of a unit is one of its first token, or one of the tokens behind it. -/
theorem mem_ownTokenMoves_cons (hp : p ∈ ownTokenMoves u s (t :: rest)) :
    p ∈ ownStepMoves u s t rest ∨
      ∃ s', stepToken u s t rest = .next s' ∧ p ∈ ownTokenMoves u s' rest := by
  rcases mem_append.1 hp with hp | hp
  · exact .inl hp
  · cases hstep : stepToken u s t rest with
    | next s' =>
      rw [hstep] at hp
      exact .inr ⟨s', rfl, hp⟩
    | stop | fail =>
      rw [hstep] at hp
      cases hp

/-- A token outside namespace declarations writes code into the block that was open. -/
theorem openNamespace_of_ownStep (hs : ¬ InDeclaration u s t rest)
    (hp : p ∈ ownStepMoves u s t rest) (hcode : p.2.isCode) :
    p.1.openNamespace = s.bundler.openNamespace := by
  unfold ownStepMoves at hp
  cases hcall : inlineCall? u.tree u.origin s t with
  | none =>
    simp only [hcall] at hp
    refine openNamespace_along (no_block_stepMoves ?_) hp
    exact hs
  | some target =>
    simp only [hcall] at hp
    rcases hfile : u.inlineFile target s.bundler with ⟨after, _ | f⟩
    · simp only [hfile] at hp
      exact openNamespace_inlinedMoves hp hcode
    · simp only [hfile] at hp
      cases hp

/-- Outside namespace declarations a unit stays in its block, also around an included file. -/
theorem openNamespace_stepToken (hs : ¬ InDeclaration u s t rest)
    (h : stepToken u s t rest = .next s') : s'.bundler.openNamespace = s.bundler.openNamespace := by
  have hbundler : s'.bundler = (stepToken u s t rest).bundler := by
    rw [h]
    rfl
  rw [hbundler]
  cases hcall : inlineCall? u.tree u.origin s t with
  | none =>
    rw [stepToken_bundler hcall]
    exact openNamespace_applyAll (no_block_stepMoves hs) _
  | some target =>
    rw [stepToken_of_inline hcall] at h ⊢
    rcases hfile : u.inlineFile target s.bundler with ⟨after, _ | f⟩
    · simp only [afterInline]
      split
      · rw [plainToken_bundler, openNamespace_applyAll (no_block_plainMoves _ _ _)]
        exact inlined_openNamespace s t after
      · exact inlined_openNamespace s t after
    · rw [hfile] at h
      cases h

theorem openNamespace_of_own (hts : declaresNamespace ts = false) (hs : s.pending ≠ some .enter)
    (hp : p ∈ ownTokenMoves u s ts) (hcode : p.2.isCode) :
    p.1.openNamespace = s.bundler.openNamespace := by
  induction ts generalizing s with
  | nil => cases hp
  | cons t rest ih =>
    rw [declaresNamespace, any_cons, Bool.or_eq_false_iff] at hts
    rcases mem_ownTokenMoves_cons hp with hp | ⟨s', hstep, hp⟩
    · exact openNamespace_of_ownStep (fun h => hs h.1) hp hcode
    · rw [← openNamespace_stepToken (fun h => hs h.1) hstep]
      refine ih hts.2 ?_ hp
      rw [(stepToken_next hstep).1]
      exact pendingAfter_ne_enter hs (beq_eq_false_iff_ne.1 hts.1)

/-! ## The declaration that is put in -/

theorem declaresNamespace_eq (ts : List Token) :
    declaresNamespace ts = (significant ts).any (·.1 == .keyword .namespaceKw) := by
  induction ts with
  | nil => rfl
  | cons t ts ih =>
    rw [significant_cons, any_append, ← ih]
    show (t.kind == .keyword .namespaceKw || declaresNamespace ts) = _
    unfold Token.isTrivia
    cases t.kind with
    | keyword word => simp [TokenKind.isTrivia]
    | _ => simp [TokenKind.isTrivia]

/-- A text that starts with `<?php` as a tag goes on behind it with the white space of the tag and
the code. -/
theorem longTag_rest {rest : Text} (h : lexemes ("<?php".toList ++ rest) = .ok (tag :: more))
    (htag : tag.kind = .openTag) :
    ∃ white, rest = white ++ serialize more ∧ white.all isSpace ∧
      (white = [] → more = []) := by
  have hread := reads_of_lexFrom h
  have hcover : tag.text ++ serialize more = "<?php".toList ++ rest :=
    (lexFrom_tiles h).serialize_eq
  rw [htag] at hread
  generalize tag.text = text at hread hcover
  cases hread with
  | @tag _ taken _ hafter =>
    have hcover : taken ++ serialize more = ['p', 'h', 'p'] ++ rest := by
      simpa using hcover
    rcases tagAfter_eq_some hafter with ⟨word, tail, rfl, hword, hend⟩ | ⟨rfl | ⟨rfl, hspace⟩, -⟩
    · -- the word of the tag is the one that the text starts with
      rw [append_assoc] at hcover
      obtain ⟨rfl, htail⟩ := append_inj hcover (byteLength_of_sameWord hword).1
      refine ⟨tail, htail.symm, ?_, fun hnil => ?_⟩
      · rcases longTagEnd_eq_some hend with rfl | ⟨c, rfl, hc, -⟩ | ⟨rfl, -⟩
        · rfl
        · simp [hc]
        · rfl
      · rcases longTagEnd_eq_some hend with rfl | ⟨c, rfl, -⟩ | ⟨-, hmore⟩
        · cases hnil
        · cases hnil
        · have hchain : Chain false {} (tag :: more) [] := chain_of_lexemes h
          have hempty := hchain.2.isEmpty_serialize
          rw [hmore] at hempty
          exact List.isEmpty_iff.1 hempty.symm
    · cases hcover
    · rw [nil_append] at hcover
      rw [hcover] at hspace
      cases hspace

/-- The declaration is read behind the tag, and the rest of the unit as before. -/
theorem lexemes_placed {rest : Text} (h : lexemes ("<?php".toList ++ rest) = .ok (tag :: more))
    (htag : tag.kind = .openTag) :
    ∃ tag' word mark more',
      lexemes ("<?php\nnamespace;".toList ++ rest) = .ok (tag' :: word :: mark :: more') ∧
      tag'.kind = .openTag ∧ word.kind = .keyword .namespaceKw ∧ mark.isPunct ";" ∧
      significant more' = significant more := by
  have hread : ReadsAs true {} rest (significant more) := by
    obtain ⟨white, rfl, hwhite, hnil⟩ := longTag_rest h htag
    have htail := lexFrom_tail h
    have hmode : inCodeAfter false tag := by simp [inCodeAfter, htag]
    have hmemory : Before.next {} tag = {} := by
      simp [Before.next, Token.isTrivia, Token.isPunct, htag, TokenKind.isTrivia]
    rw [hmode, hmemory] at htail
    have hchain : Chain true {} more [] := chain_of_lexFrom (by rwa [append_nil])
    have hmore : ReadsAs true {} (serialize more) (significant more) := by
      simpa using ReadsAs.of_chain hchain (.nil _ _)
    by_cases hwhite' : white = []
    · rw [hwhite']
      exact hmore
    · exact ReadsAs.spaces hwhite hwhite' hmore
  have htag' : Reads false {} .openTag "<?php\n".toList ("namespace".toList ++ ([';'] ++ rest)) :=
    .tag (@tagAfter_long _ ['p', 'h', 'p'] ['\n'] rfl (longTagEnd_cons rfl (by simp)))
  obtain ⟨_, ⟨start, rfl⟩, hword⟩ :=
    @lexes_keyword .namespaceKw "namespace".toList ([';'] ++ rest) (by decide) rfl rfl 6
  obtain ⟨_, ⟨start', rfl⟩, hmark⟩ := @lexes_stop ';' rfl {} rest (6 + 9)
  obtain ⟨more', hmore', hsame⟩ := hread (6 + 9 + 1)
  refine ⟨⟨.openTag, "<?php\n".toList, 0⟩, ⟨.keyword .namespaceKw, "namespace".toList, start⟩,
    ⟨.punctuation, [';'], start'⟩, more', ?_, rfl, rfl, rfl, hsame⟩
  calc lexFrom false {} 0 ("<?php\n".toList ++ ("namespace".toList ++ ([';'] ++ rest)))
    _ = (lexFrom true {} 6 ("namespace".toList ++ ([';'] ++ rest))).map _ := htag'.lexFrom_eq 0
    _ = ((lexFrom true {} (6 + 9) ([';'] ++ rest)).map _).map _ := by rw [hword]; rfl
    _ = (((lexFrom true {} (6 + 9 + 1) rest).map _).map _).map _ := by rw [hmark]; rfl
    _ = .ok _ := by rw [hmore']; rfl

/-! ## The block of a unit -/

theorem stepToken_namespace (ht : t.kind = .keyword .namespaceKw) (u : UnitContext) (s : UnitState)
    (rest : List Token) :
    stepToken u s t rest = .next (s.collect .enter) ∧ stepMoves u s t rest = [] := by
  have hrole : role u.options s.bundler t rest = .starts .enter := by simp only [role, ht]
  rw [stepToken_eq, stepMoves, hrole]
  exact ⟨rfl, rfl⟩

/-- The mark behind the name switches to the block. A brace is remembered. -/
theorem stepToken_enter {s : UnitState} {t : Token} (hs : s.pending = some .enter)
    (ht : t.isPunct ";" ∨ t.isPunct "\x7b") (u : UnitContext) (rest : List Token) :
    stepToken u s t rest = .next {
      s with
      bundler := s.bundler.switchNamespace (trim s.collected)
      braces := if t.isPunct "\x7b" then true :: s.braces else s.braces
      pending := none
      collected := [] } ∧
    stepMoves u s t rest = .take .enter t :: switchMoves s.bundler (trim s.collected) := by
  have hends : endsDirective .enter t := by
    rcases ht with ht | ht <;> simp [endsDirective, ht]
  have hkind : (t.kind == .closeTag) = false := by
    rcases ht with ht | ht <;>
    · simp only [Token.isPunct, Bool.and_eq_true, beq_iff_eq] at ht
      rw [ht.1]
      rfl
  have hcomma : t.isPunct "," = false := by
    rcases ht with ht | ht <;> exact isPunct_eq_false ht (by decide)
  rw [stepToken_eq, stepMoves, role_of_endsDirective hends]
  simp only [significantToken, significantMoves, hs, hends, if_true, hkind, hcomma, runDirective,
    directiveMoves, Bool.false_and, Bool.false_eq_true, if_false, append_nil]
  refine ⟨?_, trivial⟩
  cases t.isPunct "\x7b" <;> rfl

/-- The tokens `ts` lead to the tokens `more` in the state `s'`, by the moves `front` and without
any code. -/
structure LeadsTo (u : UnitContext) (s : UnitState) (ts : List Token) (front : List Move)
    (s' : UnitState) (more : List Token) : Prop where
  moves_eq : ∀ inner, tokenMoves u inner s ts = front ++ tokenMoves u inner s' more
  own_mem : ∀ p ∈ ownTokenMoves u s ts, p.2.isCode → p ∈ ownTokenMoves u s' more
  bundler_eq : s'.bundler = applyAll front s.bundler

namespace LeadsTo

theorem trans {s'' : UnitState} {next : List Move} (h : LeadsTo u s ts front s' more)
    (h' : LeadsTo u s' more next s'' rest) : LeadsTo u s ts (front ++ next) s'' rest where
  moves_eq inner := by rw [h.moves_eq, h'.moves_eq, append_assoc]
  own_mem p hp hcode := h'.own_mem p (h.own_mem p hp hcode) hcode
  bundler_eq := by rw [applyAll_append, ← h.bundler_eq, h'.bundler_eq]

/-- A token that writes no code leads to the next one. -/
theorem of_next (hcall : inlineCall? u.tree u.origin s t = none)
    (hstep : stepToken u s t rest = .next s')
    (hmoves : stepMoves (idleUnit u.options u.tree u.origin u.source) s t rest = front)
    (hcode : front.all (!·.isCode)) : LeadsTo u s (t :: rest) front s' rest where
  moves_eq inner := by
    rw [tokenMoves]
    simp only [hcall, hstep, hmoves]
  own_mem p hp hp' := by
    rw [ownTokenMoves, ownStepMoves] at hp
    simp only [hcall, hstep, hmoves] at hp
    rcases mem_append.1 hp with hp | hp
    · rw [isCode_along hcode hp] at hp'
      cases hp'
    · exact hp
  bundler_eq := by
    rw [← hmoves, ← stepToken_bundler_idle hcall, hstep]
    rfl

theorem openTag {tag : Token} (hs : s.pending = none) (htag : tag.kind = .openTag) :
    ∃ s', s'.pending = none ∧
      LeadsTo u s (tag :: rest) [.setCode true, emitMove s tag] s' rest := by
  have hcall : inlineCall? u.tree u.origin s tag = none := by rw [inlineCall?, hs]
  have hrole : ∀ o, role o s.bundler tag rest = .significant := fun o => by simp only [role, htag]
  refine ⟨(s.change fun b => { b with inCode := true }).emit tag.text, hs, of_next hcall ?_ ?_ ?_⟩
  · rw [stepToken_eq, hrole]
    simp only [significantToken, hs, plainToken, htag, beq_self_eq_true, if_true]
  · rw [stepMoves, hrole]
    simp only [significantMoves, hs, plainMoves, htag, beq_self_eq_true, if_true]
  · simp [emitMove, Move.isCode, htag]

theorem declaration {word mark : Token} (hs : s.pending = none)
    (hword : word.kind = .keyword .namespaceKw) (hmark : mark.isPunct ";") :
    ∃ s', s'.pending = none ∧ s'.bundler.openNamespace = some [] ∧
      LeadsTo u s (word :: mark :: rest) (.take .enter mark :: switchMoves s.bundler []) s'
        rest := by
  have hcall : inlineCall? u.tree u.origin s word = none := by rw [inlineCall?, hs]
  have hcall' : inlineCall? u.tree u.origin (s.collect .enter) mark = none := rfl
  have hmark := fun u => @stepToken_enter (s.collect .enter) mark rfl (.inl hmark) u rest
  refine ⟨_, rfl, openNamespace_switchNamespace _ _, (of_next hcall
    (stepToken_namespace hword u s _).1 (stepToken_namespace hword _ s _).2 rfl).trans
    (of_next hcall' (hmark u).1 (hmark _).2 ?_)⟩
  rw [all_cons, noCode_switchMoves]
  rfl

end LeadsTo

theorem openNamespace_of_declared {word mark : Token} (hs : s.pending = none)
    (hword : word.kind = .keyword .namespaceKw) (hmark : mark.isPunct ";")
    (hrest : declaresNamespace rest = false) (hp : p ∈ ownTokenMoves u s (word :: mark :: rest))
    (hcode : p.2.isCode) : p.1.openNamespace = some [] := by
  obtain ⟨s', hs', hblock, hlead⟩ := @LeadsTo.declaration u s rest word mark hs hword hmark
  rw [← hblock]
  refine openNamespace_of_own hrest ?_ (hlead.own_mem p hp hcode) hcode
  rw [hs']
  exact fun heq => nomatch heq

theorem own_openTag (hs : s.pending = none) (htag : tag.kind = .openTag)
    (hp : p ∈ ownTokenMoves u s (tag :: rest)) (hcode : p.2.isCode) :
    ∃ s', s'.pending = none ∧ p ∈ ownTokenMoves u s' rest := by
  obtain ⟨s', hs', hlead⟩ := @LeadsTo.openTag u s rest tag hs htag
  exact ⟨s', hs', hlead.own_mem p hp hcode⟩

/-- A unit that starts with `<?php` and declares no namespace is copied with a declaration of the
global one behind its tag. -/
theorem placedTokens_of_start (ho : o.useNamespaces) {rest : Text} {tokens : List Token}
    (htokens : tokenizeUnit origin content = .ok tokens) (hnone : declaresNamespace tokens = false)
    (hstart : after? "<?php".toList content = some rest)
    (htag : tokens.head?.any (·.kind == .openTag)) :
    ∃ source tag word mark more,
      placedTokens o origin content = .ok (source, tag :: word :: mark :: more) ∧
      tag.kind = .openTag ∧ word.kind = .keyword .namespaceKw ∧ mark.isPunct ";" ∧
      declaresNamespace more = false := by
  have hplace : placeInNamespace o tokens content = some ("<?php\nnamespace;".toList ++ rest) := by
    rw [placeInNamespace, ho, hnone, hstart]
    rfl
  obtain ⟨ts, hts, heq⟩ := tokenizeUnit_eq_ok.1 htokens
  rw [after?_eq_some hstart] at hts
  rw [heq] at htag hnone
  cases ts with
  | nil => cases htag
  | cons tag more =>
    obtain ⟨tag', word, mark, more', hlex, htag', hword, hmark, hsame⟩ :=
      lexemes_placed hts (beq_iff_eq.1 htag)
    obtain ⟨last, hlast, hplaced⟩ : ∃ last : Token, significant [last] = [(.endOfInput, [])] ∧
        tokenizeUnit origin ("<?php\nnamespace;".toList ++ rest) =
          .ok (tag' :: word :: mark :: (more' ++ [last])) :=
      ⟨_, rfl, tokenizeUnit_eq_ok.2 ⟨_, hlex, rfl⟩⟩
    refine ⟨"<?php\nnamespace;".toList ++ rest, tag', word, mark, more' ++ [last], ?_, htag', hword,
      hmark, ?_⟩
    · unfold placedTokens
      rw [htokens]
      simp only [hplace, hplaced]
      rfl
    · -- no other token has become the word `namespace`
      rw [declaresNamespace_eq, cons_append, significant_cons, any_append,
        Bool.or_eq_false_iff] at hnone
      rw [declaresNamespace_eq, significant_append, hsame, hlast]
      rw [significant_append] at hnone
      exact hnone.2

/-- Let a unit declare no namespace, and start with a tag if it starts with `<?php`. All code that
it writes itself goes into the global block if the unit starts with `<?php`, or if that block is
open, or if there is no such code; and only then. A unit that does not start with `<?php` writes
into the block that it finds open, or into none. -/
theorem global_block_iff {o : BundleOptions} (ho : o.useNamespaces) (tree : FileTree)
    {origin : Path} {content : Text} {tokens : List Token} (b : Bundler)
    (htokens : tokenizeUnit origin content = .ok tokens) (hnone : declaresNamespace tokens = false)
    (htag : after? "<?php".toList content ≠ none →
      tokens.head?.any (·.kind == .openTag)) :
    (∀ p ∈ ownMoves o tree content origin b, ∃ earlier later,
      contentMoves o tree content origin b = earlier ++ p.2 :: later ∧ p.1 = applyAll earlier b) ∧
    ((∀ p ∈ ownMoves o tree content origin b, p.2.isCode → p.1.openNamespace = some []) ↔
      after? "<?php".toList content ≠ none ∨ b.openNamespace = some [] ∨
        ∀ p ∈ ownMoves o tree content origin b, p.2.isCode = false) ∧
    (after? "<?php".toList content = none → ∀ p ∈ ownMoves o tree content origin b,
      p.2.isCode → p.1.openNamespace = b.openNamespace) := by
  have hglobal : after? "<?php".toList content ≠ none →
      ∀ p ∈ ownMoves o tree content origin b, p.2.isCode → p.1.openNamespace = some [] := by
    intro hstart p hp hcode
    obtain ⟨rest, hrest⟩ := Option.ne_none_iff_exists'.1 hstart
    obtain ⟨source, tag, word, mark, more, hplaced, htag, hword, hmark, hmore⟩ :=
      placedTokens_of_start ho htokens hnone hrest (htag hstart)
    unfold ownMoves at hp
    rw [hplaced] at hp
    rcases List.mem_append.1 hp with hp | hp
    · rw [isCode_along (noCode_startMoves _ _) hp] at hcode
      cases hcode
    · -- in code the tag is left out, and outside it comes first
      unfold unitTokens at hp
      split at hp
      · exact openNamespace_of_declared rfl hword hmark hmore hp hcode
      · obtain ⟨s', hs', hp⟩ := own_openTag rfl htag hp hcode
        exact openNamespace_of_declared hs' hword hmark hmore hp hcode
  have hfound : after? "<?php".toList content = none → ∀ p ∈ ownMoves o tree content origin b,
      p.2.isCode → p.1.openNamespace = b.openNamespace := by
    intro hstart p hp hcode
    have hstays : placeInNamespace o tokens content = none := by
      rw [placeInNamespace, hstart]
      simp only [Option.map_none, ite_self]
    have hplaced := placedTokens_of_stays htokens hstays
    have hmoves := no_block_startMoves b tokens
    unfold ownMoves at hp
    rw [hplaced] at hp
    rcases List.mem_append.1 hp with hp | hp
    · exact openNamespace_along hmoves hp
    · have hrest : declaresNamespace (unitTokens b tokens) = false := by
        unfold unitTokens
        split
        · rw [declaresNamespace, List.any_eq_false] at hnone ⊢
          exact fun t ht => hnone t (List.mem_of_mem_tail ht)
        · exact hnone
      rw [openNamespace_of_own hrest (by simp [unitStart]) hp hcode]
      exact openNamespace_applyAll hmoves b
  refine ⟨fun p hp => own_mem_contentMoves hp, ⟨fun hall => ?_, ?_⟩, hfound⟩
  · by_cases hstart : after? "<?php".toList content = none
    · by_cases hopen : b.openNamespace = some []
      · exact .inr (.inl hopen)
      · refine .inr (.inr fun p hp => Bool.eq_false_iff.2 fun hcode => hopen ?_)
        rw [← hfound hstart p hp hcode]
        exact hall p hp hcode
    · exact .inl hstart
  · rintro (hstart | hopen | hnocode) p hp hcode
    · exact hglobal hstart p hp hcode
    · by_cases hstart : after? "<?php".toList content = none
      · rw [hfound hstart p hp hcode, hopen]
      · exact hglobal hstart p hp hcode
    · rw [hnocode p hp] at hcode
      cases hcode

/-- Behind a unit of the namespace `A` the code of `<?php f();` goes into the global block, and that
of `<?PHP f();` into the block of `A`. -/
theorem global_block_iff_spelling :
    let b := (addContent {} { entries := [] } "<?php namespace A; g();".toList [] {}).1
    (∀ p ∈ ownMoves {} { entries := [] } "<?php f();".toList [] b,
      p.2.isCode → p.1.openNamespace = some []) ∧
    (¬ ∀ p ∈ ownMoves {} { entries := [] } "<?PHP f();".toList [] b,
      p.2.isCode → p.1.openNamespace = some []) ∧
    ∀ p ∈ ownMoves {} { entries := [] } "<?PHP f();".toList [] b,
      p.2.isCode → p.1.openNamespace = some "A".toList := by
  intro b
  have hrun : b.openNamespace = some "A".toList ∧
      (tokenizeUnit [] "<?php f();".toList).toOption = some
        [⟨.openTag, "<?php ".toList, 0⟩, ⟨.identifier, ['f'], 6⟩, ⟨.punctuation, ['('], 7⟩,
          ⟨.punctuation, [')'], 8⟩, ⟨.punctuation, [';'], 9⟩, ⟨.endOfInput, [], 10⟩] ∧
      (tokenizeUnit [] "<?PHP f();".toList).toOption = some
        [⟨.openTag, "<?PHP ".toList, 0⟩, ⟨.identifier, ['f'], 6⟩, ⟨.punctuation, ['('], 7⟩,
          ⟨.punctuation, [')'], 8⟩, ⟨.punctuation, [';'], 9⟩, ⟨.endOfInput, [], 10⟩] ∧
      ∃ p ∈ ownMoves {} { entries := [] } "<?PHP f();".toList [] b, p.2.isCode := by
    decide +kernel
  obtain ⟨hopen, hlower, hupper, hcode⟩ := hrun
  obtain ⟨-, hglobal, -⟩ := @global_block_iff {} rfl { entries := [] } _ _ _ b
    (eq_ok_of_toOption hlower) rfl fun _ => rfl
  obtain ⟨-, hiff, hfound⟩ := @global_block_iff {} rfl { entries := [] } _ _ _ b
    (eq_ok_of_toOption hupper) rfl fun _ => rfl
  refine ⟨hglobal.2 (.inl (by decide)), fun hall => ?_, fun p hp hp' => ?_⟩
  · rcases hiff.1 hall with hstart | hempty | hnone
    · exact hstart rfl
    · rw [hopen] at hempty
      cases hempty
    · obtain ⟨p, hp, hp'⟩ := hcode
      rw [hnone p hp] at hp'
      cases hp'
  · rw [hfound rfl p hp hp', hopen]

end LegacyPhp.Bundle
