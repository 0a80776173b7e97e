import LegacyPhp.Bundle.Unit

/-!
# What a token does to a bundle, as a list of moves

Copying a unit changes the bundle in few ways: a token is written, a namespace block is opened or
closed, imports are written and remembered, a file is marked as inlined. `Move` names these changes,
and `Move.apply` says what each does to the state. Everything a unit does then is a list of moves,
so that a fact about bundles is a fact about each kind of move.

`stepMoves` lists the moves of one token. A token that inlines a file is the exception, since what
happens there is up to that file: `inlineCall?` tells which file it is, and `stepToken_of_inline`
what the token does once the file has been inlined. For all other tokens `stepToken_bundler` says
that the moves are all that happens.
-/

namespace LegacyPhp.Bundle

open Text
open List hiding splitOn

variable {u : UnitContext} {s : UnitState} {t : Token} {rest : List Token} {tree : FileTree}
  {origin target : Path} {d : Directive} {o : BundleOptions} {b : Bundler} {m : Move}

/-- One change to a bundle. -/
inductive Move where
  /-- A file is marked as inlined. -/
  | visit (file : Path)
  /-- The text of a file is handed over to be copied. -/
  | load (file : Path)
  /-- The tokens of a unit from the file `origin` start to be copied. -/
  | start (origin : Path) (tokens : List Token)
  /-- A token goes into a directive, or ends it. -/
  | take (directive : Directive) (token : Token)
  /-- A token is written, with a gap before it. -/
  | copy (gap : Text) (token : Token)
  /-- Text that is no token of a unit is written. -/
  | write (text : Text)
  /-- The first documentation comment is written and remembered. -/
  | banner (comment : Text)
  /-- A comma at the end is taken back. -/
  | dropComma
  /-- The output stands inside or outside a code block from here on. -/
  | setCode (inCode : Bool)
  | openBlock (name : Text)
  | closeBlock
  /-- The imports written in the open block are taken to be these. -/
  | setImports (imports : List Text)
  deriving DecidableEq

/-- The bundle after a move. -/
def Move.apply (b : Bundler) : Move → Bundler
  | visit file => { b with visited := file :: b.visited }
  | load _ => b
  | start _ _ => b
  | take _ _ => b
  | copy gap token => b.write (gap ++ token.text)
  | write text => b.write text
  | banner comment => { b.write (comment ++ ['\n']) with firstComment := some comment }
  | dropComma => b.dropComma
  | setCode inCode => { b with inCode }
  | openBlock name => { b.writeOpen name with openNamespace := some name }
  | closeBlock => { b.writeClose with openNamespace := none }
  | setImports imports => { b with imports }

/-- The bundle after moves in order. -/
def applyAll (moves : List Move) (b : Bundler) : Bundler := moves.foldl Move.apply b

@[simp] theorem applyAll_nil (b : Bundler) : applyAll [] b = b := rfl

@[simp] theorem applyAll_cons (m : Move) (moves : List Move) (b : Bundler) :
    applyAll (m :: moves) b = applyAll moves (m.apply b) := rfl

@[simp] theorem applyAll_append (first second : List Move) (b : Bundler) :
    applyAll (first ++ second) b = applyAll second (applyAll first b) := by
  simp [applyAll]

/-! ## The operations of a bundle -/

/-- The moves of `Bundler.enterCode`. -/
def enterMoves (b : Bundler) : List Move :=
  if b.inCode then [] else [.write "<?php ".toList, .setCode true]

/-- The end of the open block, if one is open. -/
def closeMoves (b : Bundler) : List Move := if b.openNamespace.isSome then [.closeBlock] else []

/-- The moves of `Bundler.switchNamespace`. -/
def switchMoves (b : Bundler) (name : Text) : List Move :=
  if b.openNamespace == some name then [] else closeMoves b ++ [.openBlock name, .setImports []]

/-- The moves of `Bundler.addImport`. -/
def importMoves (b : Bundler) (name : Text) : List Move :=
  if b.imports.contains name then []
  else [.write ("use\n".toList ++ name ++ [';']), .setImports (b.imports ++ [name])]

/-- The start of a block with imports in it, if there was a block. -/
def reopenMoves (before : Bundler) : List Move :=
  match before.openNamespace with
  | none => []
  | some name =>
    .openBlock name ::
      if before.imports.isEmpty || name.isEmpty then []
      else [.write ("use\n".toList ++ join [','] before.imports ++ [';'])]

/-- The moves of `Bundler.restore`. -/
def restoreMoves (b before : Bundler) : List Move :=
  if b.openNamespace == before.openNamespace then []
  else enterMoves b ++ closeMoves b ++ reopenMoves before ++ [.setImports before.imports]

theorem applyAll_enterMoves (b : Bundler) : applyAll (enterMoves b) b = b.enterCode := by
  unfold enterMoves Bundler.enterCode
  split <;> rfl

theorem applyAll_closeMoves (b : Bundler) : applyAll (closeMoves b) b =
      { (if b.openNamespace.isSome then b.writeClose else b) with openNamespace := none } := by
  unfold closeMoves
  split
  · rfl
  · next h =>
    have hnone : b.openNamespace = none := by simpa using h
    rw [applyAll_nil, ← hnone]

theorem applyAll_switchMoves (b : Bundler) (name : Text) :
    applyAll (switchMoves b name) b = b.switchNamespace name := by
  unfold switchMoves Bundler.switchNamespace
  split
  · rfl
  · rw [applyAll_append, applyAll_closeMoves]
    split <;> rfl

theorem enterCode_openNamespace (b : Bundler) : b.enterCode.openNamespace = b.openNamespace := by
  unfold Bundler.enterCode
  split <;> rfl

theorem applyAll_restoreMoves (b before : Bundler) :
    applyAll (restoreMoves b before) b = b.restore before := by
  unfold restoreMoves Bundler.restore
  split
  · rfl
  · -- after entering code the same block is open, so the closing moves are those of the new state
    have hclose : closeMoves b = closeMoves b.enterCode := by
      unfold closeMoves
      rw [enterCode_openNamespace]
    rw [applyAll_append, applyAll_append, applyAll_append, applyAll_enterMoves, hclose,
      applyAll_closeMoves]
    unfold reopenMoves
    cases before.openNamespace with
    | none =>
      simp only
      split <;> rfl
    | some name =>
      simp only
      by_cases hempty : (before.imports.isEmpty || name.isEmpty)
      · simp only [if_pos hempty]
        split <;> rfl
      · simp only [if_neg hempty]
        split <;> rfl

/-! ## The moves of a token -/

/-- The bundle that a verdict leaves. -/
def Verdict.bundler : Verdict → Bundler
  | next s => s.bundler
  | stop b => b
  | fail b _ => b

/-- The move that writes a token. -/
def emitMove (s : UnitState) (t : Token) : Move :=
  .copy (if s.space then gap s.bundler.last? t.text.head? else []) t

/-- The moves of a token outside directives. -/
def plainMoves (s : UnitState) (t : Token) (rest : List Token) : List Move :=
  if t.kind == .openTag then [.setCode true, emitMove s t]
  else if t.kind == .closeTag then
    if isUnitEnd rest then [] else [.setCode false, emitMove s t]
  else if t.isPunct "\x7d" && s.braces.head? == some true then []
  else if t.isPunct ")" then [.dropComma, emitMove (s.change (·.dropComma)) t]
  else [emitMove s t]

/-- The text of an inclusion directive whose target cannot be told. -/
def keptDirective (word expression : Text) : Text :=
  [' '] ++ word ++ [' '] ++ expression ++ [';']

/-- The moves of a directive that inlines no file, the token `t` ending it. -/
def directiveMoves (u : UnitContext) (s : UnitState) (d : Directive) (t : Token) : List Move :=
  let value := trim s.collected
  match d with
  | .enter => switchMoves s.bundler value
  | .use => if t.isPunct "(" then [.write "use(".toList] else importMoves s.bundler value
  | .inclusion word =>
    match Include.target? value u.origin with
    | .ok none =>
      .write (keptDirective word value) ::
        if t.kind == .closeTag then [] else enterMoves s.bundler
    | _ => []

/-- The moves of a token that is not skipped and starts no directive. -/
def significantMoves (u : UnitContext) (s : UnitState) (t : Token) (rest : List Token) :
    List Move :=
  match s.pending with
  | none => plainMoves s t rest
  | some d =>
    .take d t ::
      if endsDirective d t then
        let after := runDirective u s d t
        directiveMoves u s d t ++
          if t.kind == .closeTag && after.2.isNone then plainMoves after.1 t rest else []
      else []

/-- The part that a token plays in a unit. -/
inductive Role where
  /-- The mark at the end of the input. -/
  | last
  /-- White space, or a comment that goes. -/
  | blank
  /-- The first documentation comment. -/
  | banner
  /-- A later documentation comment that goes. -/
  | dropped
  /-- The word `public` where it goes without saying. -/
  | needless
  | starts (directive : Directive)
  | significant

/-- The part of the token `t` with `rest` after it. -/
def role (o : BundleOptions) (b : Bundler) (t : Token) (rest : List Token) : Role :=
  match t.kind with
  | .endOfInput => .last
  | .whitespace | .comment => .blank
  | .docComment =>
    if b.firstComment.isNone then .banner
    else if isRetained o t.text then .significant
    else .dropped
  | .keyword .publicKw => if dropsPublic rest then .needless else .significant
  | .keyword .namespaceKw => .starts .enter
  | .keyword .useKw => .starts .use
  | .keyword k => if k.isInclusion then .starts (.inclusion t.text) else .significant
  | _ => .significant

theorem role_endOfInput (h : t.kind = .endOfInput) : role o b t rest = .last := by
  simp only [role, h]

theorem role_tag (h : t.kind = .openTag ∨ t.kind = .closeTag) : role o b t rest = .significant := by
  rcases h with h | h <;> simp only [role, h]

/-- What comes of a token, by the part it plays. -/
theorem stepToken_eq (u : UnitContext) (s : UnitState) (t : Token) (rest : List Token) :
    stepToken u s t rest =
      match role u.options s.bundler t rest with
      | .last => .stop s.bundler
      | .blank =>
        if s.pending.isSome then .next { s with collected := s.collected ++ [' '] }
        else .next { s with space := true }
      | .banner =>
        .next { s with bundler := (Move.banner t.text).apply s.bundler, space := true }
      | .dropped => .next { s with space := true }
      | .needless => .next s
      | .starts d => .next (s.collect d)
      | .significant => significantToken u s t rest := by
  unfold stepToken role docComment
  generalize t.kind = kind
  cases kind with
  | docComment =>
    simp only
    split
    · rfl
    · split <;> rfl
  | keyword word =>
    by_cases hpublic : word = .publicKw
    · subst hpublic
      simp only
      split <;> rfl
    · cases word <;> first | rfl | contradiction
  | _ => rfl

/-- The moves of the token `t` with `rest` after it, if it inlines no file. -/
def stepMoves (u : UnitContext) (s : UnitState) (t : Token) (rest : List Token) : List Move :=
  match role u.options s.bundler t rest with
  | .banner => [.banner t.text]
  | .significant => significantMoves u s t rest
  | _ => []

/-- The file that a token inlines: it ends an inclusion directive whose target can be told and is a
file. -/
def inlineCall? (tree : FileTree) (origin : Path) (s : UnitState) (t : Token) : Option Path :=
  match s.pending with
  | some (.inclusion word) =>
    if endsDirective (.inclusion word) t then
      match Include.target? (trim s.collected) origin with
      | .ok (some target) => if tree.isFile target then some target else none
      | _ => none
    else none
  | _ => none

/-- The state after a token has inlined a file that left the bundle `after`. -/
def UnitState.inlined (s : UnitState) (t : Token) (after : Bundler) : UnitState :=
  let b := after.restore s.bundler
  { s with
    bundler := if t.kind == .closeTag then b else b.enterCode
    collected := []
    pending := if t.isPunct "," then s.pending else none }

/-- What comes of a token that has inlined a file, `after` being the bundle that the file left. -/
def afterInline (s : UnitState) (t : Token) (rest : List Token) (after : Bundler) : Verdict :=
  if t.kind == .closeTag then plainToken (s.inlined t after) t rest
  else .next (s.inlined t after)

/-- The moves of a token that has inlined a file, after those of the file. -/
def inlinedMoves (s : UnitState) (t : Token) (rest : List Token) (after : Bundler) : List Move :=
  s.pending.toList.map (.take · t) ++ restoreMoves after s.bundler ++
    if t.kind == .closeTag then plainMoves (s.inlined t after) t rest
    else enterMoves (after.restore s.bundler)

/-! ## Kinds of moves -/

/-- The names that a text imports if it is that of an import. -/
def importedBy (text : Text) : List Text :=
  match after? "use\n".toList text with
  | some list => if list.getLast? == some ';' then splitOn ',' list.dropLast else []
  | none => []

namespace Move

/-- Whether a move is one that tokens make: it neither marks nor loads a file nor starts a unit. -/
def isLocal : Move → Bool
  | visit _ | load _ | start _ _ => false
  | _ => true

/-- Whether a move has nothing to do with blocks, imports and files. -/
def isOrdinary : Move → Bool
  | take _ _ | copy _ _ | banner _ | dropComma | setCode _ => true
  | write text => (importedBy text).isEmpty
  | _ => false

/-- Whether a move is one of the bundle itself, which does not leave the code. -/
def isOwn : Move → Bool
  | write _ | openBlock _ | closeBlock | setImports _ => true
  | setCode inCode => inCode
  | _ => false

theorem isLocal_of_isOrdinary (h : m.isOrdinary) : m.isLocal := by
  cases m <;> first | rfl | cases h

theorem isLocal_of_isOwn (h : m.isOwn) : m.isLocal := by
  cases m <;> first | rfl | cases h

end Move

theorem all_imp {p q : Move → Bool} {moves : List Move} (hpq : ∀ {m}, p m → q m)
    (h : moves.all p) : moves.all q :=
  all_eq_true.2 fun m hm => hpq (all_eq_true.1 h m hm)

theorem isOrdinary_enterMoves (b : Bundler) : (enterMoves b).all Move.isOrdinary := by
  unfold enterMoves
  split <;> rfl

theorem isOrdinary_plainMoves (s : UnitState) (t : Token) (rest : List Token) :
    (plainMoves s t rest).all Move.isOrdinary := by
  unfold plainMoves
  repeat' split
  all_goals rfl

theorem isOwn_enterMoves (b : Bundler) : (enterMoves b).all Move.isOwn := by
  unfold enterMoves
  split <;> rfl

theorem isOwn_closeMoves (b : Bundler) : (closeMoves b).all Move.isOwn := by
  unfold closeMoves
  split <;> rfl

theorem isOwn_switchMoves (b : Bundler) (name : Text) : (switchMoves b name).all Move.isOwn := by
  unfold switchMoves
  split
  · rfl
  · rw [all_append, isOwn_closeMoves]
    rfl

theorem isOwn_importMoves (b : Bundler) (name : Text) : (importMoves b name).all Move.isOwn := by
  unfold importMoves
  split <;> rfl

theorem isOwn_reopenMoves (before : Bundler) : (reopenMoves before).all Move.isOwn := by
  unfold reopenMoves
  split
  · rfl
  · rw [all_cons]
    split <;> rfl

theorem isOwn_restoreMoves (b before : Bundler) : (restoreMoves b before).all Move.isOwn := by
  unfold restoreMoves
  split
  · rfl
  · rw [all_append, all_append, all_append, isOwn_enterMoves, isOwn_closeMoves, isOwn_reopenMoves]
    rfl

theorem isOwn_directiveMoves (u : UnitContext) (s : UnitState) (d : Directive) (t : Token) :
    (directiveMoves u s d t).all Move.isOwn := by
  unfold directiveMoves
  cases d with
  | enter => exact isOwn_switchMoves _ _
  | use =>
    simp only
    split
    · rfl
    · exact isOwn_importMoves _ _
  | inclusion word =>
    simp only
    split
    · rw [all_cons]
      split
      · rfl
      · exact isOwn_enterMoves _
    · rfl

/-! ## Properties that tokens keep -/

/-- A property of the moves from a bundle that holds of moves one after the other, of ordinary
moves, and of the ways in which tokens deal with blocks and imports. -/
structure Carried (Φ : Bundler → List Move → Prop) : Prop where
  append {b first second} (h : Φ b first) (h' : Φ (applyAll first b) second) :
    Φ b (first ++ second)
  ordinary {moves} (h : moves.all Move.isOrdinary) (b : Bundler) : Φ b moves
  switch (b : Bundler) (name : Text) : Φ b (switchMoves b name)
  use (b : Bundler) (name : Text) : Φ b (importMoves b name)
  restore {b inner} (h : Φ b inner) : Φ b (inner ++ restoreMoves (applyAll inner b) b)

namespace Carried

variable {Φ : Bundler → List Move → Prop}

theorem cons (hΦ : Carried Φ) {moves : List Move} (hm : m.isOrdinary)
    (h : Φ (m.apply b) moves) : Φ b (m :: moves) := by
  have hfirst : Φ b [m] := hΦ.ordinary (by rw [all_cons, hm]; rfl) b
  exact hΦ.append hfirst h

theorem directive (hΦ : Carried Φ) (u : UnitContext) (s : UnitState) (d : Directive) (t : Token) :
    Φ s.bundler (directiveMoves u s d t) := by
  unfold directiveMoves
  cases d with
  | enter => exact hΦ.switch _ _
  | use =>
    simp only
    split
    · exact hΦ.ordinary rfl _
    · exact hΦ.use _ _
  | inclusion word =>
    refine hΦ.ordinary ?_ _
    simp only
    split
    · rw [all_cons]
      split
      · rfl
      · rw [isOrdinary_enterMoves]
        rfl
    · rfl

theorem step (hΦ : Carried Φ) (u : UnitContext) (s : UnitState) (t : Token) (rest : List Token) :
    Φ s.bundler (stepMoves u s t rest) := by
  unfold stepMoves
  split
  · exact hΦ.ordinary rfl _
  · unfold significantMoves
    split
    · exact hΦ.ordinary (isOrdinary_plainMoves _ _ _) _
    · refine hΦ.cons rfl ?_
      split
      · refine hΦ.append (hΦ.directive u s _ t) (hΦ.ordinary ?_ _)
        split
        · exact isOrdinary_plainMoves _ _ _
        · rfl
      · exact hΦ.ordinary rfl _
  · exact hΦ.ordinary rfl _

/-- The bundle goes on from what the file has left, and restores what was there before the file. -/
theorem inlined (hΦ : Carried Φ) {inner : List Move} (h : Φ s.bundler inner) (t : Token)
    (rest : List Token) :
    Φ s.bundler (inner ++ inlinedMoves s t rest (applyAll inner s.bundler)) := by
  unfold inlinedMoves
  have htake : applyAll (s.pending.toList.map (Move.take · t)) (applyAll inner s.bundler) =
      applyAll inner s.bundler := by
    cases s.pending <;> rfl
  have htakes : (s.pending.toList.map (Move.take · t)).all Move.isOrdinary := by
    cases s.pending <;> rfl
  have hrestored := hΦ.restore (hΦ.append h (hΦ.ordinary htakes _))
  rw [applyAll_append, htake, append_assoc] at hrestored
  rw [← append_assoc]
  refine hΦ.append hrestored (hΦ.ordinary ?_ _)
  split
  · exact isOrdinary_plainMoves _ _ _
  · exact isOrdinary_enterMoves _

end Carried

theorem Carried.of_isLocal {P : Move → Prop} (hP : ∀ {m : Move}, m.isLocal → P m) :
    Carried fun _ moves => ∀ m ∈ moves, P m where
  append h h' := forall_mem_append.2 ⟨h, h'⟩
  ordinary h _ m hm := hP (Move.isLocal_of_isOrdinary (all_eq_true.1 h m hm))
  switch b name m hm := hP (Move.isLocal_of_isOwn (all_eq_true.1 (isOwn_switchMoves b name) m hm))
  use b name m hm := hP (Move.isLocal_of_isOwn (all_eq_true.1 (isOwn_importMoves b name) m hm))
  restore h := forall_mem_append.2 ⟨h, fun m hm =>
    hP (Move.isLocal_of_isOwn (all_eq_true.1 (isOwn_restoreMoves _ _) m hm))⟩

/-! ## The moves are all that happens -/

theorem isPunct_eq_false {mark other : String} (h : t.isPunct mark)
    (hne : mark.toList ≠ other.toList) : t.isPunct other = false := by
  simp only [Token.isPunct, Bool.and_eq_true, beq_iff_eq] at h ⊢
  simp [h.2, hne]

theorem plainToken_bundler (s : UnitState) (t : Token) (rest : List Token) :
    (plainToken s t rest).bundler = applyAll (plainMoves s t rest) s.bundler := by
  unfold plainToken plainMoves
  split
  · rfl
  split
  · split <;> rfl
  split
  · -- an opening brace is none of the marks that are tested for later
    next hopen =>
    have hclose : t.isPunct "\x7d" = false := isPunct_eq_false hopen (by decide)
    have hparen : t.isPunct ")" = false := isPunct_eq_false hopen (by decide)
    simp only [hclose, hparen, Bool.false_and, Bool.false_eq_true, if_false]
    rfl
  split
  · next hclose =>
    have hparen : t.isPunct ")" = false := isPunct_eq_false hclose (by decide)
    simp only [hclose, hparen, Bool.true_and, Bool.false_eq_true, if_false]
    split
    · next hb => simp only [hb]; rfl
    · next hb =>
      have hhead : (s.braces.head? == some true) = false := by
        rcases hs : s.braces with _ | ⟨_ | _, braces⟩
        · rfl
        · rfl
        · exact absurd hs (hb braces)
      simp only [hhead, Bool.false_eq_true, if_false]
      rfl
  · next hclose =>
    simp only [hclose, Bool.false_and, Bool.false_eq_true, if_false]
    split <;> rfl

/-- Where no file is inlined though the target can be told, it is no file. -/
theorem isFile_of_inlineCall? {word : Text} (hpending : s.pending = some (.inclusion word))
    (hends : endsDirective (.inclusion word) t) (hcall : inlineCall? tree origin s t = none)
    (htarget : Include.target? (trim s.collected) origin = .ok (some target)) :
    tree.isFile target = false := by
  simpa [inlineCall?, hpending, hends, htarget] using hcall

theorem runDirective_bundler (hpending : s.pending = some d) (hends : endsDirective d t)
    (hcall : inlineCall? u.tree u.origin s t = none) :
    (runDirective u s d t).1.bundler = applyAll (directiveMoves u s d t) s.bundler := by
  cases d with
  | enter =>
    show (if t.isPunct "\x7b" then _ else _ : UnitState).bundler = _
    rw [directiveMoves, applyAll_switchMoves]
    split <;> rfl
  | use =>
    simp only [runDirective, directiveMoves]
    split
    · rfl
    · show s.bundler.addImport _ = _
      unfold importMoves Bundler.addImport
      split <;> rfl
  | inclusion word =>
    simp only [runDirective, directiveMoves, inclusion]
    rcases htarget : Include.target? (trim s.collected) u.origin with ⟨_⟩ | ⟨_ | target⟩
    · rfl
    · simp only [keptDirective]
      split
      · rfl
      · rw [applyAll_cons]
        exact (applyAll_enterMoves _).symm
    · simp only [isFile_of_inlineCall? hpending hends hcall htarget]
      rfl

theorem significantToken_bundler (hcall : inlineCall? u.tree u.origin s t = none) :
    (significantToken u s t rest).bundler = applyAll (significantMoves u s t rest) s.bundler := by
  unfold significantToken significantMoves
  cases hpending : s.pending with
  | none => exact plainToken_bundler s t rest
  | some d =>
    by_cases hends : endsDirective d t
    · have hrun := runDirective_bundler hpending hends hcall
      simp only [hends, if_true, applyAll_cons, Move.apply, applyAll_append, ← hrun]
      rcases hrd : runDirective u s d t with ⟨after, _ | f⟩
      · simp only [Option.isNone_none, Bool.and_true]
        split
        · exact plainToken_bundler _ t rest
        · rfl
      · simp only [Option.isNone_some, Bool.and_false, Bool.false_eq_true, if_false]
        rfl
    · simp only [hends]
      rfl

/-- A token that inlines no file does nothing to the bundle but its moves. -/
theorem stepToken_bundler (hcall : inlineCall? u.tree u.origin s t = none) :
    (stepToken u s t rest).bundler = applyAll (stepMoves u s t rest) s.bundler := by
  rw [stepToken_eq]
  unfold stepMoves
  cases role u.options s.bundler t rest with
  | blank =>
    simp only
    split <;> rfl
  | significant => exact significantToken_bundler hcall
  | _ => rfl

/-! ## Where a file is inlined -/

theorem kind_of_endsDirective (h : endsDirective d t) :
    t.kind = .closeTag ∨ t.kind = .punctuation := by
  simp only [endsDirective, Token.isPunct, Bool.or_eq_true, Bool.and_eq_true, beq_iff_eq] at h
  obtain (((h | h) | h) | h) | h := h
  · exact .inl h
  · exact .inr h.1
  · exact .inr h.1
  · exact .inr h.1
  · exact .inr h.2.1

theorem role_of_endsDirective (h : endsDirective d t) : role o b t rest = .significant := by
  rcases kind_of_endsDirective h with hkind | hkind <;> simp only [role, hkind]

theorem inlineCall?_of_pending (hs : s.pending = none) : inlineCall? tree origin s t = none := by
  rw [inlineCall?, hs]

theorem pending_of_inlineCall? (h : inlineCall? tree origin s t = some target) :
    ∃ word, s.pending = some (.inclusion word) ∧ endsDirective (.inclusion word) t ∧
      Include.target? (trim s.collected) origin = .ok (some target) ∧
      tree.isFile target := by
  unfold inlineCall? at h
  repeat' split at h
  all_goals cases h
  next word hpending hends _ htarget hfile => exact ⟨word, hpending, hends, htarget, hfile⟩

/-- Without a file to inline, what inlining means does not matter. -/
theorem stepToken_inlineFile (hcall : inlineCall? u.tree u.origin s t = none)
    (inlineFile : Path → Bundler → Progress) :
    stepToken { u with inlineFile } s t rest = stepToken u s t rest := by
  rw [stepToken_eq, stepToken_eq]
  cases role u.options s.bundler t rest with
  | significant =>
    simp only [significantToken]
    cases hpending : s.pending with
    | none => rfl
    | some d =>
      by_cases hends : endsDirective d t
      · have hrun : runDirective { u with inlineFile } s d t = runDirective u s d t := by
          cases d with
          | enter | use => rfl
          | inclusion word =>
            simp only [runDirective, inclusion]
            rcases htarget : Include.target? (trim s.collected) u.origin with ⟨_⟩ | ⟨_ | target⟩
            · rfl
            · rfl
            · simp only [isFile_of_inlineCall? hpending hends hcall htarget]
              rfl
        simp only [hrun]
      · simp only [hends]
        rfl
  | _ => rfl

/-- A token that inlines a file goes on from the bundle that the file leaves, or fails with it. -/
theorem stepToken_of_inline (hcall : inlineCall? u.tree u.origin s t = some target) :
    stepToken u s t rest =
      match u.inlineFile target s.bundler with
      | (after, none) => afterInline s t rest after
      | (after, some f) => .fail after f := by
  -- all tests on the way to the call have been passed
  obtain ⟨word, hpending, hends, htarget, hfile⟩ := pending_of_inlineCall? hcall
  rw [stepToken_eq, role_of_endsDirective hends]
  simp only [significantToken, hpending, hends, if_true, runDirective, inclusion, htarget, hfile,
    afterInline, UnitState.inlined]
  rcases u.inlineFile target s.bundler with ⟨after, _ | f⟩ <;> rfl

theorem afterInline_bundler (s : UnitState) (t : Token) (rest : List Token) (after : Bundler) :
    (afterInline s t rest after).bundler = applyAll (inlinedMoves s t rest after) after := by
  have htake : applyAll (s.pending.toList.map (.take · t)) after = after := by
    cases s.pending <;> rfl
  unfold afterInline inlinedMoves
  rw [applyAll_append, applyAll_append, htake, applyAll_restoreMoves]
  split
  · next htag =>
    rw [plainToken_bundler]
    simp only [UnitState.inlined, htag, if_true]
  · next htag =>
    rw [applyAll_enterMoves]
    simp only [UnitState.inlined, htag, Verdict.bundler]
    rfl

end LegacyPhp.Bundle
