import LegacyPhp.Proofs.Bundle.GlobalBlock
import LegacyPhp.Proofs.Bundle.Squeezed

/-!
# Where units meet

Of a unit that follows another one in the code the open tag is left out, and so is a close tag at
the end of a unit. A close tag ends a statement and the tag `<?=` starts one, so the two omissions
can run the last statement of one unit into the first of the next, or lose what was to be printed.
`seam_runs_on_iff` says when.

`unfinished` follows the statements along the moves. Outside the code none is unfinished, whatever
is inlined on the way (`Run.settles`): the flag of the bundle goes with the tags of the tokens
(`UnitState.Tagged`). What a unit leaves is decided by the last token that is copied
(`Run.unfinished_eq`), and how the next one starts by its first (`firstWritten?_tokenMoves`).
-/

namespace LegacyPhp.Bundle

open Text Scan Closure List

variable {b : Bundler} {ts : List Token} {moves : List Move} {d : Directive} {p : Progress}
  {origin : Path} {content source : Text} {before : Bool} {u : UnitContext} {t : Token}
  {rest : List Token}

/-! ## Statements along the moves -/

/-- Whether no statement goes on behind a token: it is a mark that ends one, or it leads out of the
code or into it. -/
def endsStatement (t : Token) : Bool :=
  t.isPunct ";" || t.isPunct "\x7b" || t.isPunct "\x7d" || t.isPunct ":" ||
    t.kind == .closeTag || t.kind == .openTag || t.kind == .inlineHtml

/-- Whether a statement is unfinished after a move, `before` saying whether one was before it. Text
that is no token is a tag, a `use` statement or an inclusion directive with its semicolon, or the
start of the captures of a closure. -/
def Move.leaves (before : Bool) : Move → Bool
  | copy _ token => if token.isTrivia then before else !endsStatement token
  | write text => text.getLast? == some '('
  | openBlock _ | closeBlock => false
  | _ => before

/-- Whether a move writes something other than a comment. -/
def Move.writes : Move → Bool
  | copy _ token => !token.isTrivia
  | write _ | openBlock _ | closeBlock => true
  | _ => false

/-- Whether a statement is unfinished after moves. -/
def unfinished (before : Bool) (moves : List Move) : Bool := moves.foldl Move.leaves before

@[simp] theorem unfinished_nil (before : Bool) : unfinished before [] = before := rfl

@[simp] theorem unfinished_cons (before : Bool) (m : Move) (moves : List Move) :
    unfinished before (m :: moves) = unfinished (m.leaves before) moves := rfl

@[simp] theorem unfinished_append (before : Bool) (first second : List Move) :
    unfinished before (first ++ second) = unfinished (unfinished before first) second :=
  foldl_append

/-- Outside the code no statement is unfinished. -/
def Settles (b : Bundler) (before : Bool) : Prop := b.inCode = false → before = false

theorem settles_false (b : Bundler) : Settles b false := fun _ => rfl

theorem settles_of_inCode (h : b.inCode) (before : Bool) : Settles b before :=
  fun hcode => by rw [h] at hcode; cases hcode

/-! ## Tags among the tokens -/

/-- The tokens go in and out of the code by tags: outside it there is text only, and inside it
none. -/
def tagged : (inCode : Bool) → List Token → Bool
  | _, [] => true
  | inCode, t :: ts =>
    (if inCode then t.kind != .openTag && t.kind != .inlineHtml
      else t.kind == .openTag || t.kind == .inlineHtml || t.kind == .endOfInput) &&
      tagged (inCodeAfter inCode t) ts

theorem tagged_of_chain {inCode : Bool} {memory : Before} {fin : Token}
    (h : Chain inCode memory ts []) (hfin : fin.kind = .endOfInput) :
    tagged inCode (ts ++ [fin]) := by
  induction ts generalizing inCode memory with
  | nil => cases inCode <;> simp [tagged, hfin]
  | cons t ts ih =>
    rw [cons_append, tagged, ih h.2, Bool.and_true]
    cases inCode with
    | true => simpa using h.1.inCode_iff
    | false => rcases h.1.inCode_iff.1 rfl with hkind | hkind <;> simp [hkind]

theorem tagged_of_placedTokens {o : BundleOptions} {tokens : List Token}
    (h : placedTokens o origin content = .ok (source, tokens)) : tagged false tokens := by
  obtain ⟨ts, hlex, rfl⟩ := tokenizeUnit_eq_ok.1 (tokenizeUnit_of_placedTokens h)
  exact tagged_of_chain (chain_of_lexemes hlex) rfl

/-- The bundle stands where the tokens do, and no directive goes on outside the code. -/
structure UnitState.Tagged (s : UnitState) (ts : List Token) : Prop where
  tokens : tagged s.bundler.inCode ts
  pending : s.bundler.inCode = false → s.pending = none

/-- The tokens that are left of a unit fit the bundle. -/
def Verdict.Tagged (ts : List Token) : Verdict → Prop
  | next s => s.Tagged ts
  | _ => True

section Steps

variable {s : UnitState}

section

variable {inCode : Bool}

theorem inCode_of_tagged (h : tagged inCode (t :: rest)) (hopen : t.kind ≠ .openTag)
    (hhtml : t.kind ≠ .inlineHtml) (hend : t.kind ≠ .endOfInput) : inCode := by
  cases inCode with
  | true => rfl
  | false => simp [tagged, hopen, hhtml, hend] at h

theorem tagged_tail (h : tagged inCode (t :: rest)) (hopen : t.kind ≠ .openTag)
    (hclose : t.kind ≠ .closeTag) : tagged inCode rest := by
  rw [tagged, Bool.and_eq_true] at h
  simpa [inCodeAfter, hopen, hclose] using h.2

theorem tagged_after_closeTag (h : tagged inCode (t :: rest))
    (hclose : t.kind = .closeTag) : tagged false rest := by
  rw [tagged, Bool.and_eq_true] at h
  simpa [inCodeAfter, hclose] using h.2

end

theorem inCode_dropComma (b : Bundler) : b.dropComma.inCode = b.inCode := by
  unfold Bundler.dropComma
  split <;> rfl

/-- A token that is no tag changes nothing about where the bundle stands. -/
theorem plainToken_inCode (s : UnitState) (rest : List Token) (hopen : t.kind ≠ .openTag)
    (hclose : t.kind ≠ .closeTag) :
    ∃ after : UnitState, plainToken s t rest = .next after ∧
      after.bundler.inCode = s.bundler.inCode ∧ after.pending = s.pending := by
  have hopen : (t.kind == .openTag) = false := beq_eq_false_iff_ne.2 hopen
  have hclose : (t.kind == .closeTag) = false := beq_eq_false_iff_ne.2 hclose
  unfold plainToken
  rw [hopen, hclose]
  simp only [Bool.false_eq_true, if_false]
  repeat' split
  any_goals exact ⟨_, rfl, rfl, rfl⟩
  exact ⟨_, rfl, inCode_dropComma _, rfl⟩

theorem plainToken_closeTag (h : t.kind = .closeTag) :
    plainToken s t rest = if isUnitEnd rest then .stop s.bundler
      else .next ((s.change fun b => { b with inCode := false }).emit t.text) := by
  simp [plainToken, h]

theorem plainMoves_closeTag (h : t.kind = .closeTag) :
    plainMoves s t rest = if isUnitEnd rest then [] else [.setCode false, emitMove s t] := by
  simp [plainMoves, h]

theorem plainToken_openTag (h : t.kind = .openTag) :
    plainToken s t rest = .next ((s.change fun b => { b with inCode := true }).emit t.text) := by
  simp [plainToken, h]

theorem plainToken_tagged (hpending : s.pending = none)
    (h : tagged s.bundler.inCode (t :: rest) ∨
      t.kind = .closeTag ∧ tagged false rest) :
    (plainToken s t rest).Tagged rest := by
  by_cases hclose : t.kind = .closeTag
  · have hrest : tagged false rest := by
      rcases h with h | h
      · exact tagged_after_closeTag h hclose
      · exact h.2
    rw [plainToken_closeTag hclose]
    split
    · trivial
    · exact ⟨hrest, fun _ => hpending⟩
  have h := h.resolve_right fun h => hclose h.1
  by_cases hopen : t.kind = .openTag
  · rw [tagged, Bool.and_eq_true] at h
    have hrest : tagged true rest := by simpa [inCodeAfter, hopen] using h.2
    rw [plainToken_openTag hopen]
    exact ⟨hrest, fun _ => hpending⟩
  · obtain ⟨after, hafter, hcode, hsame⟩ := plainToken_inCode s rest hopen hclose
    rw [hafter]
    refine ⟨?_, fun _ => hsame.trans hpending⟩
    rw [hcode]
    exact tagged_tail h hopen hclose

/-- A token outside directives leaves no statement unfinished outside the code. -/
theorem plainToken_settles (hs : Settles s.bundler before)
    (h : tagged s.bundler.inCode (t :: rest) ∧ t.kind ≠ .endOfInput ∨ t.kind = .closeTag) :
    Settles (plainToken s t rest).bundler (unfinished before (plainMoves s t rest)) := by
  by_cases hclose : t.kind = .closeTag
  · have hends : endsStatement t := by simp [endsStatement, hclose]
    have htrivia : t.isTrivia = false := by rw [Token.isTrivia, hclose]; rfl
    rw [plainToken_closeTag hclose, plainMoves_closeTag hclose]
    split
    · exact hs
    · intro _
      simp [Move.leaves, emitMove, htrivia, hends]
  by_cases hopen : t.kind = .openTag
  · rw [plainToken_openTag hopen]
    exact settles_of_inCode rfl _
  · obtain ⟨after, hafter, hcode, _⟩ := plainToken_inCode s rest hopen hclose
    obtain ⟨h, hend⟩ := h.resolve_right hclose
    intro hout
    rw [hafter] at hout
    have hout : s.bundler.inCode = false := hcode.symm.trans hout
    -- outside the code the token is text
    rw [hout, tagged, Bool.and_eq_true] at h
    have hhtml : t.kind = .inlineHtml := by simpa [hopen, hend] using h.1
    simp [plainMoves, Token.isPunct, hhtml, Move.leaves, emitMove, Token.isTrivia,
      TokenKind.isTrivia, endsStatement]

/-! ## Directives stay in the code -/

theorem inCode_applyAll (h : moves.all Move.isOwn) (hb : b.inCode) :
    (applyAll moves b).inCode := by
  induction moves generalizing b with
  | nil => exact hb
  | cons m moves ih =>
    rw [all_cons, Bool.and_eq_true] at h
    refine ih h.2 ?_
    cases m with
    | setCode inCode => exact h.1
    | dropComma => exact (inCode_dropComma b).trans hb
    | _ => exact hb

theorem UnitState.Tagged.inCode (hs : s.Tagged ts) {d : Directive} (hd : s.pending = some d) :
    s.bundler.inCode := by
  cases hcode : s.bundler.inCode with
  | true => rfl
  | false =>
    rw [hs.pending hcode] at hd
    cases hd

theorem ne_openTag_of_endsDirective (h : endsDirective d t) : t.kind ≠ .openTag := by
  rcases kind_of_endsDirective h with hkind | hkind <;> simp [hkind]

/-- What a step has to keep. -/
def Verdict.Keeps (s : UnitState) (moves : List Move) (rest : List Token) (v : Verdict) : Prop :=
  v.Tagged rest ∧
    ∀ before, Settles s.bundler before → Settles v.bundler (unfinished before moves)

theorem UnitState.Tagged.of_inCode (hcode : s.bundler.inCode) (h : tagged true ts) :
    s.Tagged ts :=
  ⟨hcode ▸ h, fun hout => by cases hcode.symm.trans hout⟩

theorem keeps_of_inCode {after : UnitState} (hcode : after.bundler.inCode)
    (h : tagged true rest) : (Verdict.next after).Keeps s moves rest :=
  ⟨.of_inCode hcode h, fun _ _ => settles_of_inCode hcode _⟩

theorem significantToken_keeps (hs : s.Tagged (t :: rest)) (hend : t.kind ≠ .endOfInput)
    (hcall : inlineCall? u.tree u.origin s t = none) :
    (significantToken u s t rest).Keeps s (significantMoves u s t rest) rest := by
  unfold significantToken significantMoves
  cases hpending : s.pending with
  | none =>
    exact ⟨plainToken_tagged hpending (.inl hs.tokens), fun before hbefore =>
      plainToken_settles hbefore (.inl ⟨hs.tokens, hend⟩)⟩
  | some d =>
    have hcode := hs.inCode hpending
    have htokens := hs.tokens
    rw [hcode] at htokens
    by_cases hends : endsDirective d t
    · have hafter : (runDirective u s d t).1.bundler.inCode := by
        rw [runDirective_bundler hpending hends hcall]
        exact inCode_applyAll (isOwn_directiveMoves u s d t) hcode
      have hopen := ne_openTag_of_endsDirective hends
      simp only [if_pos hends]
      rcases hrun : runDirective u s d t with ⟨after, _ | f⟩
      · rw [hrun] at hafter
        simp only [Option.isNone_none, Bool.and_true]
        by_cases hclose : t.kind = .closeTag
        · have hmark : t.isPunct "," = false := by simp [Token.isPunct, hclose]
          rw [if_pos (by simp [hclose]), if_pos (by simp [hclose]), hmark]
          refine ⟨plainToken_tagged rfl (.inr ⟨hclose, tagged_after_closeTag htokens hclose⟩), ?_⟩
          intro before _
          rw [unfinished_cons, unfinished_append]
          exact plainToken_settles (settles_of_inCode hafter _) (.inr hclose)
        · rw [if_neg (by simp [hclose]), if_neg (by simp [hclose])]
          exact keeps_of_inCode hafter (tagged_tail htokens hopen hclose)
      · rw [hrun] at hafter
        exact ⟨trivial, fun before _ => settles_of_inCode hafter _⟩
    · simp only [if_neg hends]
      have hclose : t.kind ≠ .closeTag := fun hclose => hends (by simp [endsDirective, hclose])
      have hopen : t.kind ≠ .openTag := fun hopen => by
        rw [tagged, hopen] at htokens
        cases htokens
      exact keeps_of_inCode hcode (tagged_tail htokens hopen hclose)

theorem role_kind {o : BundleOptions} (h : role o b t rest ≠ .significant)
    (hlast : role o b t rest ≠ .last) :
    t.kind ≠ .openTag ∧ t.kind ≠ .closeTag ∧ t.kind ≠ .inlineHtml ∧ t.kind ≠ .endOfInput := by
  refine ⟨fun hkind => h ?_, fun hkind => h ?_, fun hkind => h ?_, fun hkind => hlast ?_⟩
  all_goals simp only [role, hkind]

theorem keeps_of_same {after : UnitState} (hs : s.Tagged (t :: rest)) (hopen : t.kind ≠ .openTag)
    (hclose : t.kind ≠ .closeTag) (hcode : after.bundler.inCode = s.bundler.inCode)
    (hpending : s.bundler.inCode = false → after.pending = none)
    (hmoves : ∀ before, unfinished before moves = before) :
    (Verdict.next after).Keeps s moves rest := by
  refine ⟨⟨?_, fun hout => hpending (hcode.symm.trans hout)⟩, fun before hbefore hout => ?_⟩
  · rw [hcode]
    exact tagged_tail hs.tokens hopen hclose
  · rw [hmoves]
    exact hbefore (hcode.symm.trans hout)

theorem stepToken_keeps (u : UnitContext) (hs : s.Tagged (t :: rest))
    (hcall : inlineCall? u.tree u.origin s t = none) :
    (stepToken u s t rest).Keeps s (stepMoves u s t rest) rest := by
  rw [stepToken_eq]
  unfold stepMoves
  -- what is passed over stands in the code
  have hrole : ∀ {r}, role u.options s.bundler t rest = r → r ≠ .significant → r ≠ .last →
      (t.kind ≠ .openTag ∧ t.kind ≠ .closeTag) ∧ s.bundler.inCode := by
    rintro r rfl hsignificant hlast
    obtain ⟨hopen, hclose, hhtml, hend⟩ := role_kind hsignificant hlast
    exact ⟨⟨hopen, hclose⟩, inCode_of_tagged hs.tokens hopen hhtml hend⟩
  cases hr : role u.options s.bundler t rest with
  | last => exact ⟨trivial, fun before hbefore => hbefore⟩
  | significant =>
    refine significantToken_keeps hs (fun hend => ?_) hcall
    simp [role, hend] at hr
  | blank =>
    obtain ⟨⟨hopen, hclose⟩, _⟩ := hrole hr (by simp) (by simp)
    simp only
    split
    all_goals exact keeps_of_same hs hopen hclose rfl (fun hout => hs.pending hout) fun _ => rfl
  | starts d =>
    obtain ⟨⟨hopen, hclose⟩, hcode⟩ := hrole hr (by simp) (by simp)
    exact keeps_of_inCode hcode (tagged_tail (hcode ▸ hs.tokens) hopen hclose)
  | _ =>
    obtain ⟨⟨hopen, hclose⟩, hcode⟩ := hrole hr (by simp) (by simp)
    exact keeps_of_same hs hopen hclose rfl (fun hout => hs.pending hout) fun _ => rfl

theorem inCode_enterCode (b : Bundler) : b.enterCode.inCode := by
  unfold Bundler.enterCode
  split
  · next h => exact h
  · rfl

theorem restore_settles {after : Bundler} (b : Bundler) (h : Settles after before) :
    Settles (after.restore b) (unfinished before (restoreMoves after b)) := by
  rw [← applyAll_restoreMoves]
  unfold restoreMoves
  split
  · exact h
  · refine settles_of_inCode ?_ _
    rw [applyAll_append, applyAll_append, applyAll_append, applyAll_enterMoves]
    refine inCode_applyAll rfl (inCode_applyAll (isOwn_reopenMoves b)
      (inCode_applyAll (isOwn_closeMoves after) (inCode_enterCode after)))

theorem afterInline_keeps {tree : FileTree} {target : Path} (hs : s.Tagged (t :: rest))
    (hcall : inlineCall? tree origin s t = some target) (after : Bundler) :
    (afterInline s t rest after).Tagged rest ∧
      ∀ before, Settles after before →
        Settles (afterInline s t rest after).bundler
          (unfinished before (inlinedMoves s t rest after)) := by
  obtain ⟨word, hpending, hends, _⟩ := pending_of_inlineCall? hcall
  have htokens := hs.tokens
  have htake : ∀ before, unfinished before (s.pending.toList.map (Move.take · t)) = before := by
    rw [hpending]
    exact fun _ => rfl
  unfold afterInline inlinedMoves
  by_cases hclose : t.kind = .closeTag
  · have hmark : t.isPunct "," = false := by simp [Token.isPunct, hclose]
    have hnone : (s.inlined t after).pending = none := by simp [UnitState.inlined, hmark]
    have hbundler : (s.inlined t after).bundler = after.restore s.bundler := by
      simp [UnitState.inlined, hclose]
    rw [if_pos (by simp [hclose]), if_pos (by simp [hclose])]
    refine ⟨plainToken_tagged hnone (.inr ⟨hclose, tagged_after_closeTag htokens hclose⟩), ?_⟩
    intro before hbefore
    rw [unfinished_append, unfinished_append, htake]
    refine plainToken_settles ?_ (.inr hclose)
    rw [hbundler]
    exact restore_settles s.bundler hbefore
  · have hbundler : (s.inlined t after).bundler.inCode := by
      simp [UnitState.inlined, hclose, inCode_enterCode]
    rw [if_neg (by simp [hclose]), if_neg (by simp [hclose])]
    rw [hs.inCode hpending] at htokens
    have hrest := tagged_tail htokens (ne_openTag_of_endsDirective hends) hclose
    exact ⟨.of_inCode hbundler hrest, fun before _ => settles_of_inCode hbundler _⟩

end Steps

variable {o : BundleOptions} {tree : FileTree}

/-- The tokens that a task starts with fit the bundle. -/
def Task.Tagged : Task → Prop
  | tokens _ _ s ts => s.Tagged ts
  | verdict _ _ v ts => v.Tagged ts
  | _ => True

theorem tagged_unitTokens {tokens : List Token} (h : tagged false tokens) :
    (unitStart b tokens).Tagged (unitTokens b tokens) := by
  refine ⟨?_, fun _ => rfl⟩
  unfold unitStart unitTokens startMoves leavesCode joinsCode
  cases hcode : b.inCode with
  | false => simpa [hcode] using h
  | true =>
    cases tokens with
    | nil => rfl
    | cons t rest =>
      by_cases hopen : t.kind = .openTag
      · rw [tagged, Bool.and_eq_true] at h
        simpa [hopen, hcode, inCodeAfter] using h.2
      · simpa [hopen, Move.apply] using h

/-- Outside the code no statement is unfinished, whatever has been inlined. -/
theorem Run.settles {task : Task} (h : Run o tree task moves p) (htask : task.Tagged)
    (hbefore : Settles task.bundler before) : Settles p.1 (unfinished before moves) := by
  induction h generalizing before with
  | unlocated | again | unread | unguarded => exact hbefore
  | load _ _ _ _ _ ih => exact ih trivial hbefore
  | unplaced => exact hbefore
  | @unit _ _ b _ tokens _ _ hplaced _ ih =>
    rw [unfinished_cons, unfinished_append]
    refine ih (tagged_unitTokens (tagged_of_placedTokens hplaced)) ?_
    show Settles (applyAll (startMoves b tokens) b) (unfinished before (startMoves b tokens))
    unfold startMoves
    split
    · exact settles_false _
    · exact hbefore
  | done => exact hbefore
  | @step origin source _ _ _ _ _ hcall _ ih =>
    obtain ⟨htagged, hsettles⟩ := stepToken_keeps (idleUnit o tree origin source) htask hcall
    rw [unfinished_append]
    exact ih htagged (hsettles _ hbefore)
  | inline hcall _ _ ihfile ih =>
    obtain ⟨htagged, hsettles⟩ := afterInline_keeps htask hcall _
    rw [unfinished_append, unfinished_append]
    exact ih htagged (hsettles _ (ihfile trivial hbefore))
  | broken _ _ ihfile => exact ihfile trivial hbefore
  | next _ ih => exact ih htask hbefore
  | stop | fail => exact hbefore

/-! ## The last statement of a unit -/

/-- A token of the code. -/
def isCodeToken (t : Token) : Bool :=
  !t.isTrivia && t.kind != .inlineHtml && t.kind != .openTag && t.kind != .closeTag &&
    t.kind != .endOfInput

/-- Whether nothing but comments is written for the rest of a unit. A close tag that nothing follows
is left out. -/
def isSilentEnd : List Token → Bool
  | [] => true
  | t :: ts =>
    if t.isTrivia then isSilentEnd ts
    else t.kind == .endOfInput || (t.kind == .closeTag && isUnitEnd ts)

/-- The directive that is pending behind tokens. -/
def pendingBehind (pending : Option Directive) (ts : List Token) : Option Directive :=
  ts.foldl (fun d t => pendingAfter d (t.kind, t.text)) pending

/-- The token `t` is the last one of a unit that is copied, but for comments. It stands outside
directives, and if it is a brace, it closes no namespace. -/
structure IsLastCopied (ts : List Token) (t : Token) : Prop where
  code : isCodeToken t
  unstarted : started? (t.kind, t.text) = none
  split : ∃ before after, ts = before ++ t :: after ∧ pendingBehind none before = none ∧
    isSilentEnd after ∧ (t.isPunct "\x7d" → declaresNamespace before = false)

section Ends

variable {o : BundleOptions} {tree : FileTree} {s : UnitState}

theorem plainToken_stop (h : plainToken s t rest = .stop b) :
    t.kind = .closeTag ∧ isUnitEnd rest := by
  unfold plainToken at h
  split at h
  · cases h
  split at h
  · next htag =>
    split at h
    · next hend => exact ⟨beq_iff_eq.1 htag, hend⟩
    · cases h
  · repeat' split at h
    all_goals cases h

/-- A unit stops at its end, or at a close tag that nothing follows. -/
theorem stepToken_stop (h : stepToken u s t rest = .stop b) :
    t.kind = .endOfInput ∨ t.kind = .closeTag ∧ isUnitEnd rest := by
  rw [stepToken_eq] at h
  cases hrole : role u.options s.bundler t rest with
  | last => exact .inl (kind_of_role_last hrole)
  | blank =>
    rw [hrole] at h
    simp only at h
    split at h <;> cases h
  | significant =>
    rw [hrole] at h
    simp only [significantToken] at h
    split at h
    · exact .inr (plainToken_stop h)
    · split at h
      · split at h
        · cases h
        · split at h
          · exact .inr (plainToken_stop h)
          · cases h
      · cases h
  | _ => rw [hrole] at h; cases h

theorem afterInline_stop {after : Bundler} (h : afterInline s t rest after = .stop b) :
    t.kind = .closeTag ∧ isUnitEnd rest := by
  unfold afterInline at h
  split at h
  · exact plainToken_stop h
  · cases h

/-- A unit that is copied to its end goes on behind a token, or stops there. -/
theorem Run.of_verdict {v : Verdict}
    (h : Run o tree (.verdict origin source v ts) moves (b, none)) :
    (∃ s, v = .next s ∧ Run o tree (.tokens origin source s ts) moves (b, none)) ∨
      v = .stop b ∧ moves = [] := by
  cases h with
  | next hrest => exact .inl ⟨_, rfl, hrest⟩
  | stop => exact .inr ⟨rfl, rfl⟩

theorem all_bracesAfter (h : s.braces.all (!·)) : (bracesAfter s t).all (!·) := by
  unfold bracesAfter
  split
  · exact h
  split
  · exact h
  split
  · exact all_eq_true.2 fun x hx => all_eq_true.1 h x (mem_of_mem_tail hx)
  · exact h

/-- A unit that is copied to its end comes to each of its tokens before that. -/
theorem Run.exists_at {before after : List Token}
    (h : Run o tree (.tokens origin source s (before ++ t :: after)) moves (b, none))
    (ht : isCodeToken t) (hend : EndsUnit (before ++ t :: after))
    (hs : s.Tagged (before ++ t :: after)) :
    ∃ s' first second, moves = first ++ second ∧
      Run o tree (.tokens origin source s' (t :: after)) second (b, none) ∧
      s'.Tagged (t :: after) ∧ s'.pending = pendingBehind s.pending before ∧
      (s.pending ≠ some .enter → declaresNamespace before = false → s.braces.all (!·) →
        s'.braces.all (!·)) := by
  induction before generalizing s moves with
  | nil => exact ⟨s, [], moves, rfl, h, hs, rfl, fun _ _ hbraces => hbraces⟩
  | cons x before ih =>
    have hx : x.kind ≠ .endOfInput := fun hx => by
      have hnil := hend x (before ++ t :: after) (suffix_refl _) hx
      simp at hnil
    have hrest : isUnitEnd (before ++ t :: after) = false := by
      unfold isUnitEnd
      rw [all_append, all_cons]
      simp only [isCodeToken, Bool.and_eq_true, bne_iff_ne] at ht
      simp [ht]
    -- what is left to show of a step, whether a file has been inlined or not
    have hgo : ∀ {v : Verdict} {more}, v.Tagged (before ++ t :: after) →
        (∀ {s₁}, v = .next s₁ → s₁.pending = pendingAfter s.pending (x.kind, x.text) ∧
          (s.pending ≠ some .enter → s₁.braces = bracesAfter s x)) →
        (v = .stop b → x.kind = .endOfInput ∨
          x.kind = .closeTag ∧ isUnitEnd (before ++ t :: after)) →
        Run o tree (.verdict origin source v (before ++ t :: after)) more (b, none) →
        ∃ s' first second, more = first ++ second ∧
          Run o tree (.tokens origin source s' (t :: after)) second (b, none) ∧
          s'.Tagged (t :: after) ∧ s'.pending = pendingBehind s.pending (x :: before) ∧
          (s.pending ≠ some .enter → declaresNamespace (x :: before) = false →
            s.braces.all (!·) → s'.braces.all (!·)) := by
      intro v more htagged hnext hstop hrun
      rcases hrun.of_verdict with ⟨s₁, rfl, hgoes⟩ | ⟨hv, -⟩
      · obtain ⟨hpending, hbraces⟩ := hnext rfl
        obtain ⟨s', first, second, hmoves, hrun', htagged', hpending', hbraces'⟩ :=
          ih hgoes hend.tail htagged
        refine ⟨s', first, second, hmoves, hrun', htagged', ?_, fun henter hnone hall => ?_⟩
        · rw [hpending', hpending]
          rfl
        · rw [declaresNamespace, any_cons, Bool.or_eq_false_iff] at hnone
          have hword : x.kind ≠ .keyword .namespaceKw := beq_eq_false_iff_ne.1 hnone.1
          refine hbraces' ?_ hnone.2 ?_
          · rw [hpending]
            exact pendingAfter_ne_enter henter hword
          · rw [hbraces henter]
            exact all_bracesAfter hall
      · rcases hstop hv with hend | ⟨-, hend⟩
        · exact absurd hend hx
        · rw [hrest] at hend
          cases hend
    rw [cons_append] at h hs
    cases h with
    | step hcall hnext =>
      obtain ⟨s', first, second, rfl, hat⟩ :=
        hgo (stepToken_keeps _ hs hcall).1 stepToken_next stepToken_stop hnext
      exact ⟨s', _, second, (append_assoc _ _ _).symm, hat⟩
    | @inline _ _ _ _ _ _ inner mid _ _ hcall hfile hnext =>
      obtain ⟨s', first, second, rfl, hat⟩ := hgo (afterInline_keeps hs hcall mid).1
        (afterInline_next hcall) (fun hv => .inr (afterInline_stop hv)) hnext
      refine ⟨s', inner ++ (inlinedMoves s x (before ++ t :: after) mid ++ first), second, ?_, hat⟩
      simp only [append_assoc]

/-- Outside directives a comment leaves statements and directives as they are. -/
theorem stepToken_comment (u : UnitContext) (hs : s.pending = none) (ht : t.isTrivia)
    (rest : List Token) :
    (∃ after, stepToken u s t rest = .next after ∧ after.pending = none ∧
      after.braces = s.braces) ∧ ∀ m ∈ stepMoves u s t rest, m.writes = false := by
  obtain ⟨hmark, hstarted, hends⟩ := quiet_of_passed (.inl ht)
  have hnone : s.pending.isSome = false := by rw [hs]; rfl
  have hkind : (t.kind == .openTag) = false ∧ (t.kind == .closeTag) = false := by
    unfold Token.isTrivia at ht
    generalize t.kind = kind at ht
    cases kind <;> simp_all [TokenKind.isTrivia]
  have hcopy : plainToken s t rest = .next (s.emit t.text) ∧
      plainMoves s t rest = [emitMove s t] := by
    simp [plainToken, plainMoves, hkind, hmark]
  rw [stepToken_eq, stepMoves]
  cases hrole : role u.options s.bundler t rest with
  | last =>
    rw [Token.isTrivia, kind_of_role_last hrole] at ht
    cases ht
  | blank =>
    simp only [hnone, Bool.false_eq_true, if_false]
    exact ⟨⟨_, rfl, hs, rfl⟩, by simp⟩
  | banner =>
    refine ⟨⟨_, rfl, hs, rfl⟩, fun m hm => ?_⟩
    rw [mem_singleton.1 hm]
    rfl
  | dropped => exact ⟨⟨_, rfl, hs, rfl⟩, by simp⟩
  | needless =>
    rw [Token.isTrivia, kind_of_needless hrole] at ht
    cases ht
  | starts d =>
    rw [role_starts_iff.1 hrole] at hstarted
    cases hstarted
  | significant =>
    simp only [significantToken, significantMoves, hs, hcopy.1, hcopy.2]
    refine ⟨⟨_, rfl, hs, rfl⟩, fun m hm => ?_⟩
    rw [mem_singleton.1 hm]
    simp [Move.writes, emitMove, ht]

theorem unfinished_of_silent (h : ∀ m ∈ moves, m.writes = false) (before : Bool) :
    unfinished before moves = before := by
  induction moves generalizing before with
  | nil => rfl
  | cons m moves ih =>
    have hm : m.leaves before = before := by
      have hwrites := h m mem_cons_self
      cases m <;> simp_all [Move.writes, Move.leaves]
    rw [unfinished_cons, hm]
    exact ih (fun m' hm' => h m' (mem_cons_of_mem m hm')) before

/-- The rest of a unit may be silent. -/
theorem Run.silent_end (h : Run o tree (.tokens origin source s rest) moves p)
    (hs : s.pending = none) (hrest : isSilentEnd rest) : ∀ m ∈ moves, m.writes = false := by
  induction rest generalizing s moves with
  | nil =>
    cases h
    simp
  | cons t rest ih =>
    have hcall : inlineCall? tree origin s t = none := inlineCall?_of_pending hs
    cases h with
    | step _ hnext =>
      rw [isSilentEnd] at hrest
      cases ht : t.isTrivia with
      | true =>
        rw [ht, if_pos rfl] at hrest
        obtain ⟨⟨after, hafter, hpending, _⟩, hmoves⟩ :=
          stepToken_comment (idleUnit o tree origin source) hs ht rest
        rw [hafter] at hnext
        cases hnext with
        | next hrun =>
          intro m hm
          exact (mem_append.1 hm).elim (hmoves m) (ih hrun hpending hrest m)
      | false =>
        rw [ht, if_neg Bool.false_ne_true, Bool.or_eq_true, Bool.and_eq_true, beq_iff_eq,
          beq_iff_eq] at hrest
        -- the mark at the end, or the tag that is left out
        have hstop : stepToken (idleUnit o tree origin source) s t rest = .stop s.bundler ∧
            stepMoves (idleUnit o tree origin source) s t rest = [] := by
          rcases hrest with hkind | ⟨hkind, hend⟩
          · rw [stepToken_eq, stepMoves, role_endOfInput hkind]
            exact ⟨rfl, rfl⟩
          · rw [stepToken_eq, stepMoves, role_tag (.inr hkind)]
            simp only [significantToken, significantMoves, hs]
            rw [plainToken_closeTag hkind, plainMoves_closeTag hkind, hend]
            exact ⟨rfl, rfl⟩
        rw [hstop.1] at hnext
        rw [hstop.2]
        cases hnext
        simp
    | inline hcall' | broken hcall' => rw [hcall] at hcall'; cases hcall'

theorem not_word_of_silent (h : isSilentEnd ts) : dropsPublic ts = false := by
  rw [dropsPublic_eq]
  induction ts with
  | nil => rfl
  | cons t ts ih =>
    rw [isSilentEnd] at h
    rw [significant_cons]
    cases ht : t.isTrivia with
    | true =>
      rw [ht, if_pos rfl] at h
      exact ih h
    | false =>
      rw [ht, if_neg Bool.false_ne_true, Bool.or_eq_true, Bool.and_eq_true, beq_iff_eq,
        beq_iff_eq] at h
      rw [if_neg Bool.false_ne_true]
      refine Bool.eq_false_iff.2 fun hdeclares => ?_
      obtain ⟨word, hword⟩ := keyword_of_declaresFunction hdeclares
      rcases h with hkind | ⟨hkind, _⟩
      all_goals
        rw [show t.kind = .keyword word from hword] at hkind
        cases hkind

/-- A token of the code that is not left out is copied. -/
theorem stepMoves_code (u : UnitContext) (hs : s.pending = none) (ht : isCodeToken t)
    (hstarted : started? (t.kind, t.text) = none)
    (hpublic : ¬ (t.kind = .keyword .publicKw ∧ dropsPublic rest))
    (hbrace : t.isPunct "\x7d" → s.braces.all (!·)) :
    ∃ gap, stepMoves u s t rest = [.copy gap t] ∨
      stepMoves u s t rest = [.dropComma, .copy gap t] := by
  simp only [isCodeToken, Bool.and_eq_true, bne_iff_ne, Bool.not_eq_true'] at ht
  obtain ⟨⟨⟨⟨htrivia, _⟩, hopen⟩, hclose⟩, hfin⟩ := ht
  have hrole : role u.options s.bundler t rest = .significant := by
    cases hrole : role u.options s.bundler t rest with
    | last => exact absurd (kind_of_role_last hrole) hfin
    | blank => rw [isTrivia_of_role (.inl hrole)] at htrivia; cases htrivia
    | banner => rw [isTrivia_of_role (.inr (.inl hrole))] at htrivia; cases htrivia
    | dropped => rw [isTrivia_of_role (.inr (.inr hrole))] at htrivia; cases htrivia
    | needless =>
      have hkind := kind_of_needless hrole
      simp only [role, hkind] at hrole
      split at hrole
      · next hdrops => exact absurd ⟨hkind, hdrops⟩ hpublic
      · cases hrole
    | starts d => rw [role_starts_iff.1 hrole] at hstarted; cases hstarted
    | significant => rfl
  have hown : (t.isPunct "\x7d" && s.braces.head? == some true) = false := by
    cases hmark : t.isPunct "\x7d" with
    | false => rfl
    | true =>
      have hall := hbrace hmark
      cases hbraces : s.braces with
      | nil => rfl
      | cons top braces =>
        rw [hbraces, all_cons, Bool.and_eq_true, Bool.not_eq_true'] at hall
        rw [hall.1]
        rfl
  rw [stepMoves, hrole]
  simp only [significantMoves, hs, plainMoves, beq_eq_false_iff_ne.2 hopen,
    beq_eq_false_iff_ne.2 hclose, hown, Bool.false_eq_true, if_false]
  split
  · exact ⟨_, .inr rfl⟩
  · exact ⟨_, .inl rfl⟩

/-- What the last token of a unit that is copied leaves of a statement. -/
theorem Run.unfinished_eq (h : Run o tree (.tokens origin source s ts) moves (b, none))
    (hlast : IsLastCopied ts t) (hs : s.pending = none) (hbraces : s.braces = [])
    (htagged : s.Tagged ts) (hend : EndsUnit ts) (flag : Bool) :
    unfinished flag moves = !endsStatement t := by
  obtain ⟨hcode, hstarted, before, after, rfl, hbehind, hsilent, hbrace⟩ := hlast
  obtain ⟨s', first, second, rfl, hrun, -, hpending, hown⟩ := h.exists_at hcode hend htagged
  rw [hs, hbehind] at hpending
  have hown : t.isPunct "\x7d" → s'.braces.all (!·) := fun hmark =>
    hown (by simp [hs]) (hbrace hmark) (by rw [hbraces]; rfl)
  have htrivia : t.isTrivia = false := by
    simp only [isCodeToken, Bool.and_eq_true, Bool.not_eq_true'] at hcode
    exact hcode.1.1.1.1
  have hcall : inlineCall? tree origin s' t = none := inlineCall?_of_pending hpending
  rw [unfinished_append]
  cases hrun with
  | inline hcall' => rw [hcall] at hcall'; cases hcall'
  | @step _ _ _ _ _ more _ _ hnext =>
    -- the token itself decides, and nothing is written behind it
    have hmore : ∀ m ∈ more, m.writes = false := by
      rcases hnext.of_verdict with ⟨s₁, hv, hrest⟩ | ⟨-, rfl⟩
      · refine hrest.silent_end ?_ hsilent
        rw [(stepToken_next hv).1, hpending, pendingAfter, hstarted]
        rfl
      · simp
    obtain ⟨gap, hmoves⟩ := stepMoves_code (idleUnit o tree origin source) hpending hcode hstarted
      (fun hpublic => by rw [not_word_of_silent hsilent] at hpublic; cases hpublic.2) hown
    rw [unfinished_append, unfinished_of_silent hmore]
    rcases hmoves with hmoves | hmoves <;> rw [hmoves] <;> simp [Move.leaves, htrivia]

/-! ## The first token of a unit -/

/-- The first thing that moves write, but for comments. -/
def firstWritten? (moves : List Move) : Option Move := moves.find? Move.writes

/-- Whether the next token is one of the code, neither a tag nor the end. -/
def codeComesNext (ts : List Token) : Bool :=
  (significant ts).head?.any fun x => x.1 != .closeTag && x.1 != .endOfInput

/-- Whether a directive comes next. -/
def directiveComesNext (ts : List Token) : Bool :=
  (significant ts).head?.any fun x => (started? x).isSome

theorem firstWritten?_of_silent {first : List Move} (h : ∀ m ∈ first, m.writes = false)
    (second : List Move) : firstWritten? (first ++ second) = firstWritten? second := by
  have hnone : first.find? Move.writes = none :=
    find?_eq_none.2 fun m hm => by simp [h m hm]
  rw [firstWritten?, find?_append, hnone]
  rfl

theorem comesNext_of_dropsPublic (h : dropsPublic ts) :
    directiveComesNext ts = false ∧ codeComesNext ts := by
  rw [dropsPublic_eq] at h
  unfold directiveComesNext codeComesNext
  cases hshapes : significant ts with
  | nil => rw [hshapes] at h; cases h
  | cons x shapes =>
    rw [hshapes] at h
    have hword : x.1 = .keyword .functionKw ∨ x.1 = .keyword .staticKw ∨
        x.1 = .keyword .abstractKw ∨ x.1 = .keyword .finalKw := by
      simp only [declaresFunction, head?_cons, Option.any_some, Bool.or_eq_true,
        Bool.and_eq_true, beq_iff_eq] at h
      rcases h with hword | ⟨(hword | hword) | hword, _⟩ <;> simp [hword]
    rcases hword with hword | hword | hword | hword <;>
      simp [hword, started?, Keyword.isInclusion]

/-- In the code the first thing that is written for tokens is the first of them, if it starts no
directive. -/
theorem firstWritten?_tokenMoves {u : UnitContext} {inner : Path → Bundler → List Move}
    (hs : s.pending = none) (hbraces : s.braces = []) (hts : tagged true ts)
    (hnext : directiveComesNext ts = false) :
    (∀ m ∈ firstWritten? (tokenMoves u inner s ts), ∃ gap x, m = .copy gap x ∧ x.kind ≠ .openTag) ∧
      (firstWritten? (tokenMoves u inner s ts)).any Move.isCode = codeComesNext ts := by
  induction ts generalizing s with
  | nil => exact ⟨by simp [tokenMoves, firstWritten?], rfl⟩
  | cons t rest ih =>
    have hcall : inlineCall? u.tree u.origin s t = none := inlineCall?_of_pending hs
    rw [tokenMoves, hcall]
    simp only
    cases htrivia : t.isTrivia with
    | true =>
      have hkind : t.kind ≠ .closeTag := fun hkind => by
        rw [Token.isTrivia, hkind] at htrivia
        cases htrivia
      have hsame : significant (t :: rest) = significant rest := by
        rw [significant_cons, htrivia]
        rfl
      rw [tagged, inCodeAfter_true, bne_iff_ne.2 hkind, Bool.and_eq_true] at hts
      obtain ⟨⟨after, hafter, hpending, hbraces'⟩, _⟩ := stepToken_comment u hs htrivia rest
      obtain ⟨_, hsilent⟩ :=
        stepToken_comment (idleUnit u.options u.tree u.origin u.source) hs htrivia rest
      rw [firstWritten?_of_silent hsilent, hafter, codeComesNext, hsame]
      refine ih hpending (hbraces'.trans hbraces) hts.2 ?_
      rwa [directiveComesNext, hsame] at hnext
    | false =>
      have hshapes : significant (t :: rest) = (t.kind, t.text) :: significant rest := by
        rw [significant_cons, htrivia]
        rfl
      have hstarted : started? (t.kind, t.text) = none := by
        rw [directiveComesNext, hshapes] at hnext
        simpa using hnext
      have hcode : codeComesNext (t :: rest) = (t.kind != .closeTag && t.kind != .endOfInput) := by
        rw [codeComesNext, hshapes]
        rfl
      rw [hcode]
      by_cases hfin : t.kind = .endOfInput
      · rw [stepToken_eq, stepMoves, role_endOfInput hfin, role_endOfInput hfin, hfin]
        exact ⟨by simp [firstWritten?], rfl⟩
      by_cases hclose : t.kind = .closeTag
      · rw [stepToken_eq, stepMoves, role_tag (.inr hclose), role_tag (.inr hclose)]
        simp only [significantToken, significantMoves, hs]
        rw [plainToken_closeTag hclose, plainMoves_closeTag hclose]
        cases isUnitEnd rest with
        | true =>
          rw [hclose]
          exact ⟨by simp [firstWritten?], rfl⟩
        | false =>
          have hfirst : ∀ more, firstWritten? ([.setCode false, emitMove s t] ++ more) =
              some (emitMove s t) := fun more => by
            simp [firstWritten?, Move.writes, emitMove, htrivia]
          simp only [Bool.false_eq_true, if_false, hfirst]
          refine ⟨fun m hm => ?_, ?_⟩
          · cases hm
            exact ⟨_, t, rfl, by simp [hclose]⟩
          · simp [emitMove, Move.isCode, hclose]
      have hopen : t.kind ≠ .openTag ∧ t.kind ≠ .inlineHtml := by
        rw [tagged, if_pos rfl, Bool.and_eq_true, Bool.and_eq_true, bne_iff_ne, bne_iff_ne] at hts
        exact hts.1
      have hcodeToken : isCodeToken t := by
        simp [isCodeToken, htrivia, hopen, hclose, hfin]
      have htrue : t.kind != .closeTag && t.kind != .endOfInput := by
        simp [hclose, hfin]
      rw [htrue]
      by_cases hpublic : t.kind = .keyword .publicKw ∧ dropsPublic rest
      · have hrole : ∀ o b, role o b t rest = .needless := fun o b => by
          simp only [role, hpublic.1, hpublic.2, if_true]
        obtain ⟨hdirective, hfunction⟩ := comesNext_of_dropsPublic hpublic.2
        rw [stepToken_eq, stepMoves, hrole, hrole]
        rw [tagged, inCodeAfter_true, bne_iff_ne.2 hclose, Bool.and_eq_true] at hts
        rw [← hfunction]
        exact ih hs hbraces hts.2 hdirective
      · obtain ⟨gap, hmoves⟩ := stepMoves_code (idleUnit u.options u.tree u.origin u.source) hs
          hcodeToken hstarted hpublic fun _ => by rw [hbraces]; rfl
        have hfirst : ∀ more, firstWritten?
            (stepMoves (idleUnit u.options u.tree u.origin u.source) s t rest ++ more) =
              some (.copy gap t) := by
          intro more
          rcases hmoves with hmoves | hmoves <;> rw [hmoves] <;>
            simp [firstWritten?, Move.writes, htrivia]
        rw [hfirst]
        refine ⟨fun m hm => ?_, by simp_all [isCodeToken, Move.isCode]⟩
        cases hm
        exact ⟨gap, t, rfl, hopen.1⟩

end Ends

/-! ## Two units -/

/-- Whether the code of the second moves goes on with a statement of the first. -/
def runsOn (first second : List Move) : Bool :=
  unfinished false first && (firstWritten? second).any Move.isCode

/-- Whether tokens start with an open tag. -/
def startsWithTag (ts : List Token) : Bool := ts.head?.any (·.kind == .openTag)

/-- The tag of a unit that starts with an expression to be printed. -/
def isEchoTag (t : Token) : Bool := t.kind == .openTag && t.text == ['<', '?', '=']

theorem placedTokens_legacy (ho : o.useNamespaces = false)
    (h : tokenizeUnit origin content = .ok ts) :
    placedTokens o origin content = .ok (content, ts) :=
  placedTokens_of_stays h (by simp [placeInNamespace, ho])

/-- The open tag of a unit is no part of what is copied last. -/
theorem IsLastCopied.tail {x : Token} (h : IsLastCopied (x :: ts) t) (hx : x.kind = .openTag) :
    IsLastCopied ts t := by
  obtain ⟨hcode, hstarted, before, after, hsplit, hbehind, hsilent, hbrace⟩ := h
  cases before with
  | nil =>
    cases hsplit
    simp [isCodeToken, hx] at hcode
  | cons y before =>
    obtain ⟨rfl, rfl⟩ := cons.inj hsplit
    have hnone : pendingAfter none (x.kind, x.text) = none := by
      rw [hx]
      rfl
    refine ⟨hcode, hstarted, before, after, rfl, ?_, hsilent, fun hmark => ?_⟩
    · rwa [pendingBehind, foldl_cons, hnone] at hbehind
    · have hboth := hbrace hmark
      rw [declaresNamespace, any_cons, Bool.or_eq_false_iff] at hboth
      exact hboth.2

theorem IsLastCopied.unitTokens {t : Token} (h : IsLastCopied ts t) (b : Bundler) :
    IsLastCopied (unitTokens b ts) t := by
  unfold Bundle.unitTokens joinsCode
  split
  · next hjoins =>
    cases ts with
    | nil => exact h
    | cons x ts =>
      simp only [head?_cons, Option.any_some, Bool.and_eq_true, beq_iff_eq] at hjoins
      exact h.tail hjoins.2
  · exact h

theorem endsUnit_unitTokens (h : EndsUnit ts) (b : Bundler) : EndsUnit (unitTokens b ts) := by
  unfold unitTokens
  split
  · cases ts with
    | nil => exact h
    | cons t ts => exact h.tail
  · exact h

/-- A unit leaves its last statement unfinished if the last token that is copied ends none. -/
theorem unfinished_contentMoves (hplaced : placedTokens o origin content = .ok (source, ts))
    (hlast : IsLastCopied ts t) (hdone : (addContent o tree content origin b).2 = none)
    (flag : Bool) : unfinished flag (contentMoves o tree content origin b) = !endsStatement t := by
  have hrun := run_addContent o tree content origin b
  generalize contentMoves o tree content origin b = moves at hrun
  obtain ⟨after, hafter⟩ : ∃ after, addContent o tree content origin b = (after, none) :=
    ⟨_, Prod.ext rfl hdone⟩
  rw [hafter] at hrun
  cases hrun with
  | @unit _ _ _ source' ts' _ _ hplaced' hcopy =>
    rw [hplaced] at hplaced'
    cases hplaced'
    rw [unfinished_cons, unfinished_append]
    exact hcopy.unfinished_eq (hlast.unitTokens b) rfl rfl
      (tagged_unitTokens (tagged_of_placedTokens hplaced))
      (endsUnit_unitTokens (endsUnit_of_placedTokens hplaced) b) _

section Second

variable {o : BundleOptions} {tree : FileTree} {ts : List Token} {b : Bundler}

theorem firstWritten?_contentMoves (hplaced : placedTokens o origin content = .ok (source, ts)) :
    firstWritten? (contentMoves o tree content origin b) =
      firstWritten? (startMoves b ts ++
        tokenMoves { options := o, tree, origin, source, inlineFile := addFile o tree }
          (fileMoves o tree) (unitStart b ts) (unitTokens b ts)) := by
  unfold contentMoves contentMovesWith
  rw [hplaced]
  rfl

theorem firstWritten?_of_tag (hplaced : placedTokens o origin content = .ok (source, ts))
    (hb : b.inCode) (htag : startsWithTag ts)
    (hnext : directiveComesNext ts.tail = false) :
    (∀ m ∈ firstWritten? (contentMoves o tree content origin b),
        ∃ gap x, m = .copy gap x ∧ x.kind ≠ .openTag) ∧
      (firstWritten? (contentMoves o tree content origin b)).any Move.isCode =
        codeComesNext ts.tail := by
  have hjoins : joinsCode b ts := by rw [joinsCode, hb]; exact htag
  have hmoves : startMoves b ts = [] := by simp [startMoves, leavesCode, hjoins]
  have htokens : unitTokens b ts = ts.tail := by simp [unitTokens, hjoins]
  rw [firstWritten?_contentMoves hplaced, hmoves, nil_append, htokens]
  refine firstWritten?_tokenMoves rfl rfl ?_ hnext
  have htagged := (tagged_unitTokens (b := b) (tagged_of_placedTokens hplaced)).tokens
  rwa [htokens, unitStart, hmoves, applyAll_nil, hb] at htagged

theorem firstWritten?_of_text (hplaced : placedTokens o origin content = .ok (source, ts))
    (hb : b.inCode) (htag : startsWithTag ts = false) :
    firstWritten? (contentMoves o tree content origin b) = some (.write "?>".toList) := by
  have hjoins : joinsCode b ts = false := by rw [joinsCode, hb]; exact htag
  have hmoves : startMoves b ts = [.write "?>".toList, .setCode false] := by
    simp [startMoves, leavesCode, hjoins, hb]
  rw [firstWritten?_contentMoves hplaced, hmoves]
  rfl

theorem firstWritten?_outside {tag : Token}
    (hplaced : placedTokens o origin content = .ok (source, tag :: rest)) (hb : b.inCode = false)
    (htag : tag.kind = .openTag) :
    firstWritten? (contentMoves o tree content origin b) = some (.copy [] tag) := by
  have hjoins : joinsCode b (tag :: rest) = false := by rw [joinsCode, hb]; rfl
  have hmoves : startMoves b (tag :: rest) = [] := by simp [startMoves, leavesCode, hb]
  have htokens : unitTokens b (tag :: rest) = tag :: rest := by simp [unitTokens, hjoins]
  have htrivia : tag.isTrivia = false := by rw [Token.isTrivia, htag]; rfl
  rw [firstWritten?_contentMoves hplaced, hmoves, nil_append, htokens, tokenMoves,
    inlineCall?_of_pending rfl]
  simp only [stepMoves, role_tag (.inl htag), significantMoves, unitStart]
  simp [plainMoves, htag, firstWritten?, Move.writes, emitMove, htrivia, hjoins]

end Second

/-- Where two units of a bundle without namespaces meet. The first code of the second one goes on
with a statement of the first if that was left unfinished and the second starts with a tag, which is
left out then. The last statement of a unit is left unfinished if the last token that is copied ends
none, even if a close tag behind it did. And the tag of a unit that prints an expression is written
only outside the code. -/
theorem seam_runs_on_iff {o : BundleOptions} (ho : o.useNamespaces = false) (tree : FileTree)
    (b : Bundler) {first second : Text} {origin origin' : Path} {ts us : List Token}
    (hfirst : tokenizeUnit origin first = .ok ts) (hsecond : tokenizeUnit origin' second = .ok us)
    (hnext : startsWithTag us → directiveComesNext us.tail = false) :
    let p := addContent o tree first origin b
    let moves := contentMoves o tree first origin b
    (runsOn moves (contentMoves o tree second origin' p.1) ↔
      unfinished false moves ∧ startsWithTag us ∧ codeComesNext us.tail) ∧
    (∀ t, IsLastCopied ts t → p.2 = none → unfinished false moves = !endsStatement t) ∧
    ∀ tag ∈ us.head?, isEchoTag tag → ∀ c : Bundler,
      firstWritten? (contentMoves o tree second origin' c) = some (.copy [] tag) ↔
        c.inCode = false := by
  intro p moves
  have hplaced := placedTokens_legacy ho hsecond
  refine ⟨?_, fun t hlast hdone =>
    unfinished_contentMoves (placedTokens_legacy ho hfirst) hlast hdone false, ?_⟩
  · by_cases hopen : unfinished false moves
    · -- what is unfinished stands in the code
      have hcode : p.1.inCode := by
        cases hout : p.1.inCode with
        | true => rfl
        | false =>
          have hsettled :=
            (run_addContent o tree first origin b).settles trivial (settles_false _) hout
          rw [show unfinished false moves = false from hsettled] at hopen
          cases hopen
      rw [runsOn, hopen, Bool.true_and]
      cases htag : startsWithTag us with
      | true =>
        rw [(firstWritten?_of_tag hplaced hcode htag (hnext htag)).2]
        simp
      | false =>
        rw [firstWritten?_of_text hplaced hcode htag]
        simp [Move.isCode]
    · simp [runsOn, hopen]
  · intro tag htag hecho c
    obtain ⟨rest, rfl⟩ : ∃ rest, us = tag :: rest := by
      cases us with
      | nil => cases htag
      | cons x rest => cases htag; exact ⟨rest, rfl⟩
    have hkind : tag.kind = .openTag := by
      simp only [isEchoTag, Bool.and_eq_true, beq_iff_eq] at hecho
      exact hecho.1
    have hstart : startsWithTag (tag :: rest) = true := by simp [startsWithTag, hkind]
    refine ⟨fun hwritten => ?_, fun hout => firstWritten?_outside hplaced hout hkind⟩
    cases hc : c.inCode with
    | false => rfl
    | true =>
      obtain ⟨gap, x, heq, hne⟩ :=
        (firstWritten?_of_tag hplaced hc hstart (hnext hstart)).1 _ hwritten
      cases heq
      exact absurd hkind hne

/-- The close tag of `<?php f() ?>` is left out, and `g();` goes on with the call. -/
theorem seam_runs_on_iff_call :
    let p := addContent .legacy {} "<?php f() ?>".toList [] {}
    runsOn (contentMoves .legacy {} "<?php f() ?>".toList [] {})
        (contentMoves .legacy {} "<?php g();".toList [] p.1) ∧
      (addContent .legacy {} "<?php g();".toList [] p.1).1.finish = "<?php f()g();".toList ∧
      firstWritten? (contentMoves .legacy {} "<?= $x ?>".toList [] p.1) ≠
        some (.copy [] ⟨.openTag, "<?=".toList, 0⟩) := by
  intro p
  have hrun : (tokenizeUnit [] "<?php f() ?>".toList).toOption = some
        [⟨.openTag, "<?php ".toList, 0⟩, ⟨.identifier, ['f'], 6⟩, ⟨.punctuation, ['('], 7⟩,
          ⟨.punctuation, [')'], 8⟩, ⟨.whitespace, [' '], 9⟩, ⟨.closeTag, ['?', '>'], 10⟩,
          ⟨.endOfInput, [], 12⟩] ∧
      (tokenizeUnit [] "<?php g();".toList).toOption = some
        [⟨.openTag, "<?php ".toList, 0⟩, ⟨.identifier, ['g'], 6⟩, ⟨.punctuation, ['('], 7⟩,
          ⟨.punctuation, [')'], 8⟩, ⟨.punctuation, [';'], 9⟩, ⟨.endOfInput, [], 10⟩] ∧
      (tokenizeUnit [] "<?= $x ?>".toList).toOption = some
        [⟨.openTag, "<?=".toList, 0⟩, ⟨.whitespace, [' '], 3⟩, ⟨.variable, "$x".toList, 4⟩,
          ⟨.whitespace, [' '], 6⟩, ⟨.closeTag, ['?', '>'], 7⟩, ⟨.endOfInput, [], 9⟩] ∧
      p.2 = none ∧ p.1.inCode ∧
      (addContent .legacy {} "<?php g();".toList [] p.1).1.finish = "<?php f()g();".toList := by
    decide +kernel
  obtain ⟨hfirst, hcall, hprint, hdone, hcode, hfinish⟩ := hrun
  have hfirst := eq_ok_of_toOption hfirst
  obtain ⟨hiff, hlast, -⟩ := @seam_runs_on_iff .legacy rfl {} {} _ _ _ _ _ _ hfirst
    (eq_ok_of_toOption hcall) fun _ => rfl
  obtain ⟨-, -, hecho⟩ := @seam_runs_on_iff .legacy rfl {} {} _ _ _ _ _ _ hfirst
    (eq_ok_of_toOption hprint) fun _ => rfl
  -- the parenthesis is the last token that is copied
  have hopen := hlast ⟨.punctuation, [')'], 8⟩
    ⟨rfl, rfl, [⟨.openTag, "<?php ".toList, 0⟩, ⟨.identifier, ['f'], 6⟩, ⟨.punctuation, ['('], 7⟩],
      _, rfl, rfl, rfl, nofun⟩ hdone
  refine ⟨hiff.2 ⟨hopen, rfl, rfl⟩, hfinish, fun hwritten => ?_⟩
  rw [(hecho _ rfl rfl p.1).1 hwritten] at hcode
  cases hcode

end LegacyPhp.Bundle
