import LegacyPhp.Proofs.Bundle.Braces
import LegacyPhp.Proofs.Token.Relex

/-!
# Directives along the tokens

A unit collects a directive from its word to the mark that ends it. Which directive is pending at a
token can be told from the tokens before it (`pendingAfter`), whatever the files do that are inlined
on the way, and so can the braces that are open (`bracesAfter`). `stepToken_next` says that every
step keeps to both.
-/

namespace LegacyPhp.Bundle

open Text

variable {o : BundleOptions} {b : Bundler} {s' : UnitState} {d : Directive}

/-- A token at no place. -/
def unplaced (s : Shape) : Token := ⟨s.1, s.2, 0⟩

/-- The directive that a token starts. -/
def started? (s : Shape) : Option Directive :=
  match s.1 with
  | .keyword .namespaceKw => some .enter
  | .keyword .useKw => some .use
  | .keyword k => if k.isInclusion then some (.inclusion s.2) else none
  | _ => none

/-- The directive that is pending behind a token. A comma ends one import and starts the next. -/
def pendingAfter (pending : Option Directive) (s : Shape) : Option Directive :=
  match started? s with
  | some d => some d
  | none => pending.filter fun d => !endsDirective d (unplaced s) || (unplaced s).isPunct ","

variable {u : UnitContext} {s : UnitState} {t : Token} {rest : List Token}

/-! ## The words of directives -/

theorem role_starts_iff : role o b t rest = .starts d ↔ started? (t.kind, t.text) = some d := by
  unfold role started?
  generalize t.kind = kind
  cases kind with
  | docComment =>
    simp only
    repeat' split
    all_goals simp
  | keyword word =>
    cases word with
    | publicKw =>
      simp only
      split <;> simp [Keyword.isInclusion]
    | _ => simp [Keyword.isInclusion]
  | _ => simp

theorem keyword_of_started {shape : Shape} (h : started? shape = some d) :
    ∃ word, shape.1 = .keyword word := by
  unfold started? at h
  split at h
  · next hkind => exact ⟨_, hkind⟩
  · next hkind => exact ⟨_, hkind⟩
  · next word _ _ hkind => exact ⟨word, hkind⟩
  · cases h

theorem isTrivia_of_role (h : role o b t rest = .blank ∨
    role o b t rest = .banner ∨ role o b t rest = .dropped) : t.isTrivia := by
  unfold Token.isTrivia
  unfold role at h
  generalize t.kind = kind at h
  cases kind with
  | whitespace | comment | docComment => rfl
  | keyword word =>
    exfalso
    cases word with
    | publicKw =>
      simp only at h
      split at h <;> simp at h
    | _ => simp [Keyword.isInclusion] at h
  | _ => simp at h

theorem kind_of_needless (h : role o b t rest = .needless) : t.kind = .keyword .publicKw := by
  unfold role at h
  split at h
  · cases h
  · cases h
  · cases h
  · split at h
    · cases h
    · split at h <;> cases h
  · next hkind => exact hkind
  · cases h
  · cases h
  · split at h <;> cases h
  · cases h

/-! ## What a token leaves -/

theorem pendingAfter_of_quiet (hstarted : started? (t.kind, t.text) = none)
    (hends : ∀ d, endsDirective d t = false) (pending : Option Directive) :
    pendingAfter pending (t.kind, t.text) = pending := by
  have hsame : ∀ d, endsDirective d (unplaced (t.kind, t.text)) = false := hends
  rw [pendingAfter, hstarted]
  cases pending with
  | none => rfl
  | some d => simp [Option.filter, hsame]

theorem pendingAfter_ne_enter {pending : Option Directive} {x : Shape}
    (hpending : pending ≠ some .enter) (hx : x.1 ≠ .keyword .namespaceKw) :
    pendingAfter pending x ≠ some .enter := by
  intro h
  unfold pendingAfter at h
  split at h
  · next d hstarted =>
    cases h
    unfold started? at hstarted
    split at hstarted
    · next hkind => exact hx hkind
    · cases hstarted
    · split at hstarted <;> cases hstarted
    · cases hstarted
  · exact hpending (Option.filter_eq_some_iff.1 h).1

/-- The braces that are open behind a token, outside namespace declarations. -/
def bracesAfter (s : UnitState) (t : Token) : List Bool :=
  if s.pending.isSome then s.braces
  else if t.isPunct "\x7b" then false :: s.braces
  else if t.isPunct "\x7d" then s.braces.tail
  else s.braces

theorem bracesAfter_of_not_mark (h : ∀ mark, t.isPunct mark = false) (s : UnitState) :
    bracesAfter s t = s.braces := by
  simp [bracesAfter, h]

theorem plainToken_braces (hs : s.pending = none) (h : plainToken s t rest = .next s') :
    s'.braces = bracesAfter s t := by
  have hnone : s.pending.isSome = false := by rw [hs]; rfl
  have hmark : ∀ {kind}, (t.kind == kind) → kind ≠ .punctuation →
      ∀ mark, t.isPunct mark = false := by
    intro kind hkind hne mark
    simp [Token.isPunct, beq_iff_eq.1 hkind, hne]
  unfold plainToken at h
  split at h
  · next htag =>
    cases h
    exact (bracesAfter_of_not_mark (hmark htag (by decide)) s).symm
  split at h
  · next htag =>
    split at h
    · cases h
    · cases h
      exact (bracesAfter_of_not_mark (hmark htag (by decide)) s).symm
  unfold bracesAfter
  rw [hnone, if_neg Bool.false_ne_true]
  split at h
  · next hopen =>
    cases h
    rw [if_pos hopen]
    rfl
  · next hopen =>
    rw [if_neg hopen]
    split at h
    · next hclose =>
      rw [if_pos hclose]
      split at h
      · next braces hbraces =>
        cases h
        rw [hbraces]
        rfl
      · cases h
        rfl
    · next hclose =>
      rw [if_neg hclose]
      split at h <;> (cases h; rfl)

theorem started?_of_significant (h : role o b t rest = .significant) :
    started? (t.kind, t.text) = none := by
  cases hd : started? (t.kind, t.text) with
  | none => rfl
  | some d =>
    rw [role_starts_iff.2 hd] at h
    cases h

theorem plainToken_pending (h : plainToken s t rest = .next s') : s'.pending = s.pending := by
  unfold plainToken at h
  repeat' split at h
  all_goals
    cases h
    try rfl

theorem significantToken_next (hstarted : started? (t.kind, t.text) = none)
    (h : significantToken u s t rest = .next s') :
    s'.pending = pendingAfter s.pending (t.kind, t.text) ∧
      (s.pending ≠ some .enter → s'.braces = bracesAfter s t) := by
  have hends : ∀ d, endsDirective d (unplaced (t.kind, t.text)) = endsDirective d t := fun d => rfl
  have hpunct : ∀ mark, (unplaced (t.kind, t.text)).isPunct mark = t.isPunct mark :=
    fun mark => rfl
  unfold significantToken at h
  rw [pendingAfter, hstarted]
  split at h
  · next hpending =>
    refine ⟨?_, fun _ => plainToken_braces hpending h⟩
    rw [plainToken_pending h, hpending]
    rfl
  · next d hpending =>
    have hbraces : bracesAfter s t = s.braces := by simp [bracesAfter, hpending]
    rw [hbraces, hpending]
    split at h
    · next hend =>
      split at h
      · cases h
      · next after hrun =>
        -- the stack after the directive, and what is pending then
        have hstack : d ≠ .enter → after.braces = s.braces := by
          intro hd
          have hrunning := runDirective_braces u s d t
          rw [hrun, stackAfter, if_neg fun heq => hd heq.1] at hrunning
          exact hrunning
        have hfilter : (some d).filter (fun d => !endsDirective d (unplaced (t.kind, t.text)) ||
            (unplaced (t.kind, t.text)).isPunct ",") = if t.isPunct "," then some d else none := by
          simp only [Option.filter, hends, hend, hpunct, Bool.not_true, Bool.false_or]
        rw [hfilter]
        simp only at h
        split at h
        · next htag =>
          have hcomma : t.isPunct "," = false := by simp [Token.isPunct, beq_iff_eq.1 htag]
          rw [hcomma] at h ⊢
          refine ⟨plainToken_pending h, fun hd => ?_⟩
          rw [plainToken_braces rfl h, bracesAfter_of_not_mark]
          · exact hstack fun heq => hd (by rw [heq])
          · intro mark
            simp [Token.isPunct, beq_iff_eq.1 htag]
        · cases h
          exact ⟨rfl, fun hd => hstack fun heq => hd (by rw [heq])⟩
    · next hend =>
      cases h
      simp only [Option.filter, hends, Bool.eq_false_iff.2 hend]
      exact ⟨hpending, fun _ => trivial⟩

theorem quiet_of_passed (h : t.isTrivia ∨ t.kind = .keyword .publicKw) :
    (∀ mark, t.isPunct mark = false) ∧ started? (t.kind, t.text) = none ∧
      ∀ d, endsDirective d t = false := by
  have hkind : t.kind = .whitespace ∨ t.kind = .comment ∨ t.kind = .docComment ∨
      t.kind = .keyword .publicKw := by
    rcases h with htrivia | hkind
    · unfold Token.isTrivia at htrivia
      generalize t.kind = kind at htrivia
      cases kind <;> simp_all [TokenKind.isTrivia]
    · exact .inr (.inr (.inr hkind))
  rcases hkind with hkind | hkind | hkind | hkind <;>
    simp [Token.isPunct, started?, endsDirective, hkind, Keyword.isInclusion]

/-- What a token leaves of directives and braces. -/
theorem stepToken_next (h : stepToken u s t rest = .next s') :
    s'.pending = pendingAfter s.pending (t.kind, t.text) ∧
      (s.pending ≠ some .enter → s'.braces = bracesAfter s t) := by
  -- what is passed over is no mark and starts nothing
  have hpassed : t.isTrivia ∨ t.kind = .keyword .publicKw → ∀ after : UnitState,
      after.pending = s.pending → after.braces = s.braces →
      after.pending = pendingAfter s.pending (t.kind, t.text) ∧
        (s.pending ≠ some .enter → after.braces = bracesAfter s t) := by
    intro hkind after hpending hbraces
    obtain ⟨hmark, hstarted, hends⟩ := quiet_of_passed hkind
    rw [pendingAfter_of_quiet hstarted hends, bracesAfter_of_not_mark hmark]
    exact ⟨hpending, fun _ => hbraces⟩
  rw [stepToken_eq] at h
  cases hrole : role u.options s.bundler t rest with
  | last => rw [hrole] at h; cases h
  | blank =>
    rw [hrole] at h
    simp only at h
    split at h <;> (cases h; exact hpassed (.inl (isTrivia_of_role (.inl hrole))) _ rfl rfl)
  | banner =>
    rw [hrole] at h
    cases h
    exact hpassed (.inl (isTrivia_of_role (.inr (.inl hrole)))) _ rfl rfl
  | dropped =>
    rw [hrole] at h
    cases h
    exact hpassed (.inl (isTrivia_of_role (.inr (.inr hrole)))) _ rfl rfl
  | needless =>
    rw [hrole] at h
    cases h
    exact hpassed (.inr (kind_of_needless hrole)) _ rfl rfl
  | starts d =>
    obtain ⟨word, hkind⟩ := keyword_of_started (role_starts_iff.1 hrole)
    rw [hrole] at h
    cases h
    rw [pendingAfter, role_starts_iff.1 hrole, bracesAfter_of_not_mark]
    · exact ⟨rfl, fun _ => rfl⟩
    · intro mark
      simp [Token.isPunct, show t.kind = .keyword word from hkind]
  | significant =>
    rw [hrole] at h
    exact significantToken_next (started?_of_significant hrole) h

theorem afterInline_next {tree : FileTree} {origin target : Path} {after : Bundler}
    (hcall : inlineCall? tree origin s t = some target)
    (h : afterInline s t rest after = .next s') :
    s'.pending = pendingAfter s.pending (t.kind, t.text) ∧
      (s.pending ≠ some .enter → s'.braces = bracesAfter s t) := by
  have hstep : stepToken ⟨{}, tree, origin, [], fun _ _ => (after, none)⟩ s t rest = .next s' := by
    rw [@stepToken_of_inline ⟨{}, tree, origin, [], fun _ _ => (after, none)⟩ _ _ _ _ hcall]
    exact h
  exact stepToken_next hstep

end LegacyPhp.Bundle
