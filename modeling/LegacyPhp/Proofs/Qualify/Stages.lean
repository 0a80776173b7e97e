import LegacyPhp.Proofs.Convert.Flattening
import LegacyPhp.Proofs.Convert.Layout

/-!
# The places that qualification comes to

The pass handles one token after the other, but a name, a class list or a declaration takes tokens
ahead, so not every token is handled on its own. `Reached` says where the pass comes to: what it has
written by then, in which state, and with which tokens still to come.

The pass comes to every place unless it fails before or an earlier token takes the place along
(`comesTo`). A `Barrier` is a token that nothing in front of it takes or passes over. An opening
parenthesis apart, the tokens before a barrier do not see it: what is written for them is what would
be written if the unit ended there (`reached_of_run`, `run_error_append`).
-/

namespace LegacyPhp

open Text List LegacyPhp.Stream

variable {r : Step} {e : Failure} {t : Token} {mid place ts rest : List Token} {out : Text}

/-! ## Barriers -/

/-- A token that no reading ahead takes: it is not passed over, and it is neither part of a name nor
a mark that goes on after one. -/
structure Barrier (b : Token) : Prop where
  trivia : b.isTrivia = false
  name : b.isNamePart = false
  asWord : b.isKeyword .asKw = false
  notVariable : (b.kind == .variable) = false
  comma : b.isPunct "," = false
  stop : (b.isPunct ";" || b.isPunct "\x7b") = false
  colons : b.isPunct "::" = false
  ampersand : b.isPunct "&" = false

/-- The kinds of tokens that no reading ahead asks for, whatever their text is. -/
def isBarrierKind : TokenKind → Bool
  | .whitespace | .comment | .docComment | .identifier | .variable | .punctuation => false
  | .keyword word => word != .asKw
  | _ => true

theorem barrier_of_kind {b : Token} {kind : TokenKind} (hb : b.kind = kind)
    (hkind : isBarrierKind kind) : Barrier b := by
  have hother : ∀ k, isBarrierKind k = false → b.kind ≠ k := by
    rintro k hk heq
    rw [← hb, heq, hk] at hkind
    cases hkind
  have hmark : ∀ mark, b.isPunct mark = false := fun mark => by
    simp [Token.isPunct, hother .punctuation rfl]
  exact {
    trivia := by
      rw [Token.isTrivia]
      unfold TokenKind.isTrivia
      split
      · next hwhite => exact absurd hwhite (hother _ rfl)
      · next hcomment => exact absurd hcomment (hother _ rfl)
      · next hdoc => exact absurd hdoc (hother _ rfl)
      · rfl
    name := by simp [Token.isNamePart, hother .identifier rfl, hmark]
    asWord := beq_eq_false_iff_ne.2 (hother _ rfl)
    notVariable := beq_eq_false_iff_ne.2 (hother _ rfl)
    comma := hmark _
    stop := by simp [hmark]
    colons := hmark _
    ampersand := hmark _ }

theorem barrier_openParen {b : Token} (h : b.isPunct "(") : Barrier b := by
  simp only [Token.isPunct, Bool.and_eq_true, beq_iff_eq] at h
  constructor <;> simp [Token.isTrivia, TokenKind.isTrivia, Token.isNamePart, Token.isPunct,
    Token.isKeyword, h.1, h.2]

namespace Stream

variable (q : Token → Bool) {b : Token}

theorem gather_before (hb : b.isTrivia = false) (hq : q b = false) (ts after : List Token) :
    gather q (ts ++ b :: after) = ((gather q ts).1, (gather q ts).2 ++ b :: after) := by
  induction ts with
  | nil =>
    rw [nil_append, gather_cons, hq, hb]
    rfl
  | cons t ts ih =>
    rw [cons_append, gather_cons, gather_cons, ih]
    split
    · rfl
    · split <;> rfl

theorem name_before (hb : Barrier b) (ts after : List Token) :
    name (ts ++ b :: after) = ((name ts).1, (name ts).2 ++ b :: after) := by
  simp only [name, gather_before _ hb.trivia hb.name]

theorem fetch_before (hb : b.isTrivia = false) (hq : q b = false) (ts after : List Token) :
    fetch q (ts ++ b :: after) =
      (fetch q ts).map fun found => (found.1, found.2 ++ b :: after) := by
  induction ts with
  | nil =>
    rw [nil_append, fetch_cons, hq, hb]
    rfl
  | cons t ts ih =>
    rw [cons_append, fetch_cons, fetch_cons, ih]
    split
    · rfl
    · split <;> rfl

theorem isNext_before (hb : b.isTrivia = false) (hq : q b = false) (ts after : List Token) :
    isNext q (ts ++ b :: after) = isNext q ts := by
  rw [← isSome_fetch, ← isSome_fetch, fetch_before q hb hq, Option.isSome_map]

theorem dropIf_before (hb : b.isTrivia = false) (hq : q b = false) (ts after : List Token) :
    dropIf q (ts ++ b :: after) = dropIf q ts ++ b :: after := by
  unfold dropIf
  rw [fetch_before q hb hq]
  cases fetch q ts <;> rfl

end Stream

namespace Qualify

/-! ## What stands in front of a barrier -/

variable {u : Source} {s : State} {b : Token}

theorem importAlias_before (hb : Barrier b) (ts after : List Token) :
    importAlias (ts ++ b :: after) = ((importAlias ts).1, (importAlias ts).2 ++ b :: after) := by
  have hidentifier : (b.kind == .identifier) = false := (Bool.or_eq_false_iff.1 hb.name).1
  unfold importAlias
  rw [fetch_before _ hb.trivia hb.asWord]
  cases fetch (·.isKeyword .asKw) ts with
  | none => rfl
  | some found =>
    simp only [Option.map_some, fetch_before (·.kind == .identifier) hb.trivia hidentifier]
    cases fetch (·.kind == .identifier) found.2 <;> rfl

theorem imports_before (hb : Barrier b) (σ : Scope) (ts after : List Token) :
    imports σ (ts ++ b :: after) = ((imports σ ts).1, (imports σ ts).2 ++ b :: after) := by
  induction hlength : ts.length using Nat.strongRecOn generalizing σ ts with
  | ind n ih =>
    rw [imports_eq, imports_eq]
    simp only [name_before hb, importAlias_before hb,
      fetch_before (·.isPunct ",") hb.trivia hb.comma]
    cases hcomma : fetch (·.isPunct ",") (importAlias (Stream.name ts).2).2 with
    | none => rfl
    | some found =>
      -- what follows the comma is shorter
      have hshort : found.2.length < ts.length :=
        Nat.lt_of_lt_of_le (length_fetch hcomma)
          ((suffix_importAlias _).trans (suffix_gather _ ts)).length_le
      exact ih _ (hlength ▸ hshort) _ _ rfl

theorem classNames_before (hb : Barrier b) (u : Source) (σ : Scope) (list : Bool) (head : Token)
    (ts after : List Token) : classNames u σ list head (ts ++ b :: after) =
      (classNames u σ list head ts).map fun p => ⟨p.text, p.rest ++ b :: after⟩ := by
  have hspace : (b.kind == .whitespace) = false := beq_eq_false_iff_ne.2 fun hkind => by
    have htrivia := hb.trivia
    rw [Token.isTrivia, hkind] at htrivia
    cases htrivia
  induction hlength : ts.length using Nat.strongRecOn generalizing head ts with
  | ind n ih =>
    rw [classNames_eq, classNames_eq]
    simp only [gather_before (·.kind == .whitespace) hb.trivia hspace, name_before hb,
      fetch_before (·.isPunct ",") hb.trivia hb.comma]
    generalize hname : Stream.name (gather (·.kind == .whitespace) ts).2 = name
    cases className u σ head name.1 with
    | error e => rfl
    | ok flat =>
      cases list with
      | false => rfl
      | true =>
        simp only [if_true]
        cases hcomma : fetch (·.isPunct ",") name.2 with
        | none => rfl
        | some found =>
          have hshort : found.2.length < ts.length := by
            refine Nat.lt_of_lt_of_le (length_fetch hcomma) ?_
            rw [← hname]
            exact ((suffix_gather _ _).trans (suffix_gather _ ts)).length_le
          simp only [Option.map_some, ih _ (hlength ▸ hshort) found.1 found.2 rfl]
          cases classNames u σ true found.1 found.2 <;> rfl

theorem enterNamespace_before (hb : Barrier b) (s : State) (ts after : List Token) :
    enterNamespace s (ts ++ b :: after) =
      { enterNamespace s ts with rest := (enterNamespace s ts).rest ++ b :: after } := by
  unfold enterNamespace
  simp only [name_before hb,
    fetch_before (fun t => t.isPunct ";" || t.isPunct "\x7b") hb.trivia hb.stop]
  cases fetch (fun t => t.isPunct ";" || t.isPunct "\x7b") (Stream.name ts).2 <;> rfl

theorem isByRefParam_before (hb : Barrier b) (lastInk : Option Char) (ts after : List Token) :
    isByRefParam lastInk (ts ++ b :: after) = isByRefParam lastInk ts := by
  unfold isByRefParam
  rw [fetch_before _ hb.trivia hb.ampersand]
  cases fetch (·.isPunct "&") ts with
  | none => rfl
  | some found =>
    obtain ⟨mark, rest⟩ := found
    cases rest with
    | nil =>
      -- where the tokens end, the barrier follows the ampersand, and it is no variable
      simp [hb.notVariable]
    | cons v rest => rfl

theorem nameStep_before (hb : Barrier b) (u : Source) (s : State) (t : Token)
    (ts after : List Token) : nameStep u s t (ts ++ b :: after) =
      (nameStep u s t ts).map fun r => { r with rest := r.rest ++ b :: after } := by
  have hmarks : (b.isPunct "::" || b.kind == .variable) = false := by
    rw [hb.colons, hb.notVariable]
    rfl
  unfold nameStep
  simp only [name_before hb, isByRefParam_before hb,
    isNext_before (fun n => n.isPunct "::" || n.kind == .variable) hb.trivia hmarks]
  split
  · cases className u s.scope t (t.text ++ (Stream.name ts).1) <;> rfl
  · rfl

/-- A step does not see a barrier behind the tokens, unless it asks for a parenthesis. -/
theorem step_before (hb : Barrier b) (u : Source) (s : State) {t : Token} (ts after : List Token)
    (hparen : t.isKeyword .useKw → b.isPunct "(" = false) :
    step u s t (ts ++ b :: after) =
      (step u s t ts).map fun r => { r with rest := r.rest ++ b :: after } := by
  have hstop : b.isPunct ";" = false := (Bool.or_eq_false_iff.1 hb.stop).1
  have huse : (t.isKeyword .useKw && !Stream.isNext (·.isPunct "(") (ts ++ b :: after)) =
      (t.isKeyword .useKw && !Stream.isNext (·.isPunct "(") ts) := by
    cases hkey : t.isKeyword .useKw with
    | false => rfl
    | true => rw [isNext_before _ hb.trivia (hparen hkey)]
  rw [step_eq, step_eq, huse, enterNamespace_before hb, imports_before hb,
    classNames_before hb, nameStep_before hb, dropIf_before _ hb.trivia hstop]
  split
  · rfl
  split
  · rfl
  split
  · cases classNames u s.scope (takesList (s.entering t) t) t ts <;> rfl
  split <;> rfl

/-- A step never goes past a barrier. -/
theorem step_rest (hb : Barrier b) {after : List Token}
    (h : step u s t (ts ++ b :: after) = .ok r) :
    ∃ left, r.rest = left ++ b :: after ∧ left.length ≤ ts.length := by
  by_cases hparen : t.isKeyword .useKw → b.isPunct "(" = false
  · rw [step_before hb u s ts after hparen] at h
    obtain ⟨r', hr', rfl⟩ := map_eq_ok h
    exact ⟨r'.rest, rfl, (suffix_step hr').length_le⟩
  · -- `use` is copied in front of a parenthesis, and else takes what it takes without one
    simp only [Classical.not_imp, Bool.not_eq_false] at hparen
    obtain ⟨hkey, hparen⟩ := hparen
    have hstop : b.isPunct ";" = false := (Bool.or_eq_false_iff.1 hb.stop).1
    have hkind : t.kind = .keyword .useKw := eq_of_beq hkey
    have hname : t.isNamePart = false := by simp [Token.isNamePart, Token.isPunct, hkind]
    have hnamespace : t.isKeyword .namespaceKw = false := by simp [Token.isKeyword, hkind]
    have hcontext : isClassContext t.kind = false := by rw [hkind]; rfl
    rw [step_eq, imports_before hb, dropIf_before _ hb.trivia hstop] at h
    simp only [hnamespace, hcontext, hname, hkey, Bool.false_eq_true, if_false, Bool.true_and] at h
    split at h
    · cases h
      exact ⟨_, rfl, ((suffix_dropIf _ _).trans (suffix_imports _ _)).length_le⟩
    · cases h
      exact ⟨ts, rfl, Nat.le_refl _⟩

theorem State.entering_lastInk (s : State) (t : Token) : (s.entering t).lastInk = s.lastInk := by
  unfold State.entering
  split
  · rfl
  · split <;> rfl

theorem lastInk_step (h : step u s t ts = .ok r) : r.state.lastInk = s.lastInk := by
  rcases step_cases h with ⟨_, rfl⟩ | ⟨_, _, rfl⟩ | ⟨_, p, _, rfl⟩ | ⟨_, hname⟩ | ⟨_, _, _, _, rfl⟩
  · unfold enterNamespace
    simp only
    split <;> rfl
  · rfl
  · exact s.entering_lastInk t
  · rw [(nameStep_eq_ok hname).1]
  · exact s.entering_lastInk t

/-! ## Runs -/

theorem run_error (h : step u s t rest = .error e) : run u s (t :: rest) = .error e := by
  rw [run]
  split
  · next herror => rw [h] at herror; cases herror; rfl
  · next hok => rw [h] at hok; cases hok

theorem qualify_eq_run (o : ConvertOptions) (path : Path) {source : Text} {tokens : List Token}
    (hlex : lexemes source = .ok tokens) : qualify o path source =
      (run ⟨path, source, o⟩ {} tokens).map fun r => ⟨r.1, r.2.current⟩ := by
  rw [qualify, lexemesOf_eq_ok.2 hlex]
  simp only [bind, Except.bind]
  cases run ⟨path, source, o⟩ {} tokens <;> rfl

/-! ## Places -/

/-- The pass over `ts` comes to the tokens `rest` in the state `s`, having written `out`. -/
inductive Reached (u : Source) (ts : List Token) : Text → State → List Token → Prop where
  | start : Reached u ts [] {} ts
  | step {out : Text} {s : State} {t : Token} {rest : List Token} {r : Step}
      (h : Reached u ts out s (t :: rest)) (hstep : Qualify.step u s t rest = .ok r) :
      Reached u ts (out ++ r.text) (r.state.wrote r.text) r.rest

namespace Reached

variable (h : Reached u ts out s rest)
include h

theorem run_eq : run u {} ts = (run u s rest).map fun r => (out ++ r.1, r.2) := by
  induction h with
  | start => cases run u {} ts <;> rfl
  | @step out s t rest r h hstep ih =>
    rw [ih, run_cons hstep]
    cases run u (r.state.wrote r.text) r.rest with
    | error e => rfl
    | ok more => simp [Except.map]

/-- A run that does not fail comes to the end of the tokens. -/
theorem toEnd {more : Text} {scope : Scope} (hrun : run u s rest = .ok (more, scope)) :
    ∃ s' : State, s'.scope = scope ∧ Reached u ts (out ++ more) s' [] := by
  induction hlength : rest.length using Nat.strongRecOn generalizing out s rest more with
  | ind n ih =>
    cases rest with
    | nil =>
      rw [run] at hrun
      cases hrun
      exact ⟨s, rfl, by simpa using h⟩
    | cons t rest =>
      cases hstep : Qualify.step u s t rest with
      | error e =>
        rw [run_error hstep] at hrun
        cases hrun
      | ok r =>
        rw [run_cons hstep] at hrun
        obtain ⟨⟨left, scope'⟩, hleft, heq⟩ := map_eq_ok hrun
        cases heq
        have hshort : r.rest.length < n := by
          rw [← hlength]
          exact Nat.lt_succ_of_le (suffix_step hstep).length_le
        obtain ⟨s', hscope, hend⟩ := ih _ hshort (h.step hstep) hleft rfl
        exact ⟨s', hscope, by simpa using hend⟩

/-- A run that fails comes to a token at which it fails. -/
theorem toFailure (hrun : run u s rest = .error e) :
    ∃ out' s' t left, Reached u ts out' s' (t :: left) ∧ Qualify.step u s' t left = .error e := by
  induction hlength : rest.length using Nat.strongRecOn generalizing out s rest with
  | ind n ih =>
    cases rest with
    | nil =>
      rw [run] at hrun
      cases hrun
    | cons t rest =>
      cases hstep : Qualify.step u s t rest with
      | error e' =>
        rw [run_error hstep] at hrun
        cases hrun
        exact ⟨out, s, t, rest, h, hstep⟩
      | ok r =>
        rw [run_cons hstep] at hrun
        have hleft : run u (r.state.wrote r.text) r.rest = .error e := by
          cases hleft : run u (r.state.wrote r.text) r.rest with
          | error e' => rw [hleft] at hrun; cases hrun; rfl
          | ok more => rw [hleft] at hrun; cases hrun
        have hshort : r.rest.length < n := by
          rw [← hlength]
          exact Nat.lt_succ_of_le (suffix_step hstep).length_le
        exact ih _ hshort (h.step hstep) hleft rfl

theorem before (hb : Barrier b) (hparen : b.isPunct "(" = false) (after : List Token) :
    Reached u (ts ++ b :: after) out s (rest ++ b :: after) := by
  induction h with
  | start => exact .start
  | @step out s t rest r _ hstep ih =>
    have hstep' : Qualify.step u s t (rest ++ b :: after) =
        .ok { r with rest := r.rest ++ b :: after } := by
      rw [step_before hb u s rest after fun _ => hparen, hstep]
      rfl
    exact ih.step hstep'

theorem suffix : rest <:+ ts := by
  induction h with
  | start => exact suffix_refl _
  | @step out s t rest r _ hstep ih =>
    exact (suffix_step hstep).trans ((suffix_cons t rest).trans ih)

theorem lastInk_eq : s.lastInk = out.reverse.find? (!isBlank ·) := by
  induction h with
  | start => rfl
  | @step out s t rest r _ hstep ih =>
    have hkeep : r.state.lastInk = s.lastInk := lastInk_step hstep
    rw [reverse_append, find?_append, State.wrote, hkeep, ih]

end Reached

variable {before after : List Token}

/-- If the tokens before a barrier can be qualified on their own, the pass comes to the barrier with
just that written. -/
theorem reached_of_run (hb : Barrier b) (hparen : b.isPunct "(" = false) {out : Text}
    {scope : Scope} (h : run u {} before = .ok (out, scope)) :
    ∃ s : State, s.scope = scope ∧ Reached u (before ++ b :: after) out s (b :: after) := by
  obtain ⟨s, hscope, hend⟩ := Reached.start.toEnd h
  exact ⟨s, hscope, by simpa using hend.before hb hparen after⟩

/-- If they cannot, the unit fails as they do. -/
theorem run_error_append (hb : Barrier b) (hparen : b.isPunct "(" = false)
    (h : run u {} before = .error e) : run u {} (before ++ b :: after) = .error e := by
  obtain ⟨out, s, t, rest, hplace, hstep⟩ := Reached.start.toFailure h
  have hfails : step u s t (rest ++ b :: after) = .error e := by
    rw [step_before hb u s rest after fun _ => hparen, hstep]
    rfl
  rw [(hplace.before hb hparen after).run_eq, cons_append, run_error hfails]
  rfl

/-! ## Every place -/

/-- Whether a token may take others along. -/
def takesAhead (t : Token) : Bool :=
  t.isKeyword .namespaceKw || t.isKeyword .useKw || isClassContext t.kind || t.isNamePart

/-- What becomes of a place: the pass comes to it, an earlier token takes it along, or the pass
fails before. -/
inductive ComesTo (u : Source) (ts place : List Token) : Prop where
  | reached {out : Text} {s : State} (h : Reached u ts out s place) : ComesTo u ts place
  | taken {out : Text} {s : State} {t : Token} {mid : List Token} {r : Step}
      (h : Reached u ts out s (t :: (mid ++ place))) (hstep : step u s t (mid ++ place) = .ok r)
      (hrest : r.rest.length < place.length) (ht : takesAhead t)
      (hmid : ∀ x ∈ mid, x.isPunct "(" = false) : ComesTo u ts place
  | failed {out : Text} {s : State} {t : Token} {mid : List Token} {e : Failure}
      (h : Reached u ts out s (t :: (mid ++ place)))
      (hstep : step u s t (mid ++ place) = .error e) : ComesTo u ts place

/-- A token that takes others along is one of a few, and none of them is a parenthesis. -/
theorem takesAhead_of_step (h : step u s t (mid ++ place) = .ok r)
    (hrest : r.rest.length < place.length) : takesAhead t ∧ ∀ x ∈ mid, x.isPunct "(" = false := by
  refine ⟨?_, fun x hx => Bool.eq_false_iff.2 fun hparen => ?_⟩
  · rcases step_cases h with ⟨ht, _⟩ | ⟨ht, _, _⟩ | ⟨ht, _⟩ | ⟨ht, _⟩ | ⟨_, _, _, _, rfl⟩
    · simp [takesAhead, ht]
    · simp [takesAhead, ht]
    · simp [takesAhead, ht]
    · simp [takesAhead, ht]
    · simp only [length_append] at hrest
      omega
  · obtain ⟨a, b, rfl⟩ := append_of_mem hx
    rw [append_assoc, cons_append] at h
    obtain ⟨left, hleft, -⟩ := step_rest (barrier_openParen hparen) h
    rw [hleft] at hrest
    simp only [length_append, length_cons] at hrest
    omega

theorem Reached.comesTo (h : Reached u ts out s (mid ++ place)) : ComesTo u ts place := by
  induction hlength : mid.length using Nat.strongRecOn generalizing mid out s with
  | ind n ih =>
    cases mid with
    | nil => exact .reached h
    | cons t mid =>
      cases hstep : Qualify.step u s t (mid ++ place) with
      | error e => exact .failed h hstep
      | ok r =>
        by_cases hrest : r.rest.length < place.length
        · obtain ⟨ht, hmid⟩ := takesAhead_of_step hstep hrest
          exact .taken h hstep hrest ht hmid
        · -- what is left still ends in the place, and less stands before it
          obtain ⟨left, hleft⟩ := suffix_of_suffix_length_le (suffix_append mid place)
            (suffix_step hstep) (Nat.le_of_not_lt hrest)
          have hshort : left.length < n := by
            have hle := (suffix_step hstep).length_le
            rw [← hleft] at hle
            simp only [length_append, length_cons] at hle hlength
            omega
          have hnext := h.step hstep
          rw [← hleft] at hnext
          exact ih _ hshort hnext rfl

theorem comesTo (u : Source) (before place : List Token) : ComesTo u (before ++ place) place :=
  Reached.start.comesTo

end Qualify

end LegacyPhp
