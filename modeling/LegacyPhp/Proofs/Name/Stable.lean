import LegacyPhp.Proofs.Convert.Names
import LegacyPhp.Proofs.Name.History

/-!
# Flat names are stable

A name that was flattened once is left alone from then on: outside all namespaces it stands for
itself, and it is flat already. What a scope resolves a name to is again a proper name, one without
empty segments, as long as the declarations brought in proper names only (`Scope.Proper`, kept by
every declaration). Rooted, such a name stands for itself in every scope.
-/

namespace LegacyPhp

open Text
open List hiding splitOn

variable {s : Scope} {name : Text}

/-- A name is proper if none of its segments is empty. -/
def ProperName (name : Text) : Prop := [] ∉ segments name

instance : DecidablePred ProperName := fun name => inferInstanceAs (Decidable ([] ∉ segments name))

/-- A declaration with a proper name: a class, whatever separators stand before it, or a namespace,
which may be the global one, whatever separators stand around it. -/
def ScopeChange.Proper : ScopeChange → Prop
  | .enter name => dropAround '\\' name = [] ∨ ProperName (dropAround '\\' name)
  | .addImport name _ => ProperName (dropLeading '\\' name)

instance : DecidablePred ScopeChange.Proper
  | .enter name => inferInstanceAs (Decidable (dropAround '\\' name = [] ∨ ProperName _))
  | .addImport name _ => inferInstanceAs (Decidable (ProperName (dropLeading '\\' name)))

/-- A scope that holds proper names. -/
structure Scope.Proper (s : Scope) : Prop where
  current : s.current = [] ∨ ProperName s.current
  aliases : ∀ e ∈ s.aliases, ProperName e.2

namespace Scope

theorem Proper.change (h : s.Proper) {c : ScopeChange} (hc : c.Proper) : (s.change c).Proper := by
  cases c with
  | enter name => exact ⟨hc, fun e he => by cases he⟩
  | addImport name alias? =>
    refine ⟨h.current, fun e he => ?_⟩
    rcases mem_cons.1 he with rfl | he
    · exact hc
    · exact h.aliases e he

theorem proper_ofHistory {history : List ScopeChange} (h : ∀ c ∈ history, c.Proper) :
    (ofHistory history).Proper := by
  induction history using List.reverseRecOn with
  | nil => exact ⟨.inl rfl, fun e he => by cases he⟩
  | append_singleton history c ih =>
    rw [ofHistory_append]
    exact (ih fun d hd => h d (by simp [hd])).change (h c (by simp))

end Scope

/-! ## Proper names -/

namespace ProperName

variable {name : Text}

theorem of_mem_segments (h : ProperName name) {part : Text} (hpart : part ∈ segments name) :
    ProperName part := by
  have hsplit : segments part = [part] := splitOn_of_not_mem (not_mem_of_mem_splitOn hpart)
  rw [ProperName, hsplit, mem_singleton]
  rintro rfl
  exact h hpart

theorem join {parts : List Text} (hne : parts ≠ []) (h : ∀ part ∈ parts, ProperName part) :
    ProperName (join ['\\'] parts) := by
  rw [ProperName, segments, splitOn_join hne, mem_flatMap]
  rintro ⟨part, hpart, hempty⟩
  exact h part hpart hempty

theorem head? (h : ProperName name) : name.head? ≠ some '\\' := by
  cases name with
  | nil => simp
  | cons c rest =>
    rintro hc
    obtain rfl : c = '\\' := by simpa using hc
    exact h (by simp [segments, splitOn])

theorem ne_nil (h : ProperName name) : name ≠ [] := by
  rintro rfl
  exact h (by simp [segments, splitOn])

theorem of_not_mem (h : '\\' ∉ name) (hne : name ≠ []) : ProperName name := by
  rw [ProperName, segments, splitOn_of_not_mem h, mem_singleton]
  exact fun hempty => hne hempty.symm

theorem of_relative (h : lower name ∈ ["self".toList, "parent".toList, "static".toList]) :
    ProperName name := by
  refine of_not_mem (fun hmem => ?_) ?_
  · have hlower : '\\' ∈ lower name := mem_map.2 ⟨'\\', hmem, rfl⟩
    have hfree : ∀ word ∈ ["self".toList, "parent".toList, "static".toList], '\\' ∉ word := by
      decide
    exact hfree _ h hlower
  · rintro rfl
    exact absurd h (by decide)

theorem resolve?_rooted (h : ProperName name) (s : Scope) :
    s.resolve? ('\\' :: name) = some name := by
  have hword : ¬ ('\\' :: name = [] ∨
      lower ('\\' :: name) ∈ ["self".toList, "parent".toList, "static".toList]) := by
    rintro (hnil | hmem)
    · cases hnil
    · exact of_relative hmem |>.head? rfl
  have hsegments : [] ∉ segments (unrooted ('\\' :: name)) := h
  rw [Scope.resolve?_eq s hword, if_neg hsegments]
  exact if_pos rfl

end ProperName

namespace Scope

theorem Proper.alias? (h : s.Proper) {short full : Text} (hfull : s.alias? short = some full) :
    ProperName full :=
  h.aliases _ (mem_of_lookup hfull)

/-- A proper scope makes proper names of proper names. -/
theorem Proper.qualify (h : s.Proper) (hname : ProperName name) : ProperName (s.qualify name) := by
  rw [qualify_eq_join]
  split
  · next full hfull =>
    refine .join (cons_ne_nil _ _) fun part hpart => ?_
    rcases mem_cons.1 hpart with rfl | hpart
    · exact h.alias? hfull
    · exact hname.of_mem_segments (mem_of_mem_tail hpart)
  · split
    · exact hname
    · next hcurrent =>
      refine .join (cons_ne_nil _ _) fun part hpart => ?_
      rcases mem_cons.1 hpart with rfl | hpart
      · exact h.current.resolve_left hcurrent
      · rw [mem_singleton.1 hpart]
        exact hname

/-- A name has no meaning exactly if it has an empty segment, and otherwise stands for a proper
one. -/
theorem Proper.resolve? (h : s.Proper) (hne : name ≠ []) :
    (s.resolve? name = none ↔ ¬ ProperName (unrooted name)) ∧
      ∀ full, s.resolve? name = some full → ProperName full := by
  by_cases hword : lower name ∈ ["self".toList, "parent".toList, "static".toList]
  · have hproper := ProperName.of_relative hword
    rw [resolve?_verbatim s (.inr hword), unrooted_of_head? hproper.head?]
    refine ⟨by simp [hproper], ?_⟩
    rintro full ⟨⟩
    exact hproper
  · have hname : ¬ (name = [] ∨ lower name ∈ ["self".toList, "parent".toList, "static".toList]) :=
      fun hor => hor.elim hne hword
    rw [resolve?_eq s hname]
    by_cases hempty : [] ∈ segments (unrooted name)
    · rw [if_pos hempty]
      exact ⟨by simp [ProperName, hempty], fun full hfull => by cases hfull⟩
    · rw [if_neg hempty]
      have hproper : ProperName (unrooted name) := hempty
      split
      · refine ⟨by simp [hproper], ?_⟩
        rintro full ⟨⟩
        exact hproper
      · next hhead =>
        rw [unrooted_of_head? hhead] at hproper ⊢
        refine ⟨by simp [hproper], ?_⟩
        rintro full ⟨⟩
        exact h.qualify hproper

end Scope

/-- Flat names stay as they are. Whatever a name is resolved to after declarations with proper
names, its flat form has no separator, stands for itself outside all namespaces and is flat already.
A name that is not empty has no meaning exactly if, without one leading separator, it has an empty
segment; otherwise it stands for a name without leading separator and empty segments, which behind a
separator stands for itself in every scope. -/
theorem flat_names_stable {history : List ScopeChange} (hhistory : ∀ c ∈ history, c.Proper)
    {o : ConvertOptions} (hpre : '\\' ∉ o.classPrefix)
    (htargets : ∀ e ∈ o.renamed.entries, '\\' ∉ e.2) (name : Text) :
    (∀ full, (Scope.ofHistory history).resolve? name = some full →
      '\\' ∉ o.flatten full ∧
      Scope.resolve? {} (o.flatten full) = some (o.flatten full) ∧
      o.flatten (o.flatten full) = o.flatten full) ∧
    (name ≠ [] →
      ((Scope.ofHistory history).resolve? name = none ↔ [] ∈ segments (unrooted name)) ∧
      ∀ full, (Scope.ofHistory history).resolve? name = some full →
        full.head? ≠ some '\\' ∧ [] ∉ segments full ∧
        ∀ s : Scope, s.resolve? ('\\' :: full) = some full) := by
  refine ⟨fun full _ => ?_, fun hne => ?_⟩
  · have hflat : '\\' ∉ o.flatten full := not_mem_flatten hpre htargets full
    exact ⟨hflat, Scope.resolve?_empty hflat, flatten_of_not_mem o hflat⟩
  · obtain ⟨hnone, hsome⟩ := (Scope.proper_ofHistory hhistory).resolve? hne
    refine ⟨hnone.trans not_not, fun full hfull => ?_⟩
    have hproper := hsome full hfull
    exact ⟨hproper.head?, hproper, hproper.resolve?_rooted⟩

/-- An imported class under a protected root gets the prefix once. -/
theorem flat_names_stable_prefixed :
    let scope := Scope.ofHistory
      [.enter "\\App\\".toList, .addImport "\\Nette\\Http".toList none]
    let o : ConvertOptions := {}
    scope.resolve? "http\\Request".toList = some "Nette\\Http\\Request".toList ∧
      o.flatten "Nette\\Http\\Request".toList = "NRequest".toList ∧
      Scope.resolve? {} "NRequest".toList = some "NRequest".toList ∧
      o.flatten "NRequest".toList = "NRequest".toList ∧
      Scope.resolve? scope "\\Nette\\Http\\Request".toList =
        some "Nette\\Http\\Request".toList := by
  intro scope o
  have hresolve : scope.resolve? "http\\Request".toList = some "Nette\\Http\\Request".toList := by
    decide
  have hflat : o.flatten "Nette\\Http\\Request".toList = "NRequest".toList := by decide
  obtain ⟨hstable, hnames⟩ := @flat_names_stable
    [.enter "\\App\\".toList, .addImport "\\Nette\\Http".toList none] (by decide)
    o (by decide) (by decide) "http\\Request".toList
  obtain ⟨-, hself, hagain⟩ := hstable _ hresolve
  rw [hflat] at hself hagain
  exact ⟨hresolve, hflat, hself, hagain, ((hnames (by decide)).2 _ hresolve).2.2 scope⟩

end LegacyPhp
