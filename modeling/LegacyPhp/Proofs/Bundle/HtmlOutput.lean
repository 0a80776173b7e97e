import LegacyPhp.Proofs.Bundle.DirectiveText
import LegacyPhp.Proofs.Bundle.Squeezed

/-!
# The text outside the code of an output

An output that is being written shows some text outside the code already, and stands inside or
outside of it. `Shows` says so for every continuation that is fit to follow: the text that the whole
shows is what the output shows and then what the continuation does. What is fit depends on where the
output stands. In the code it may not open anything with the last character (`Admits`); outside of
it, it has to be a tag or nothing (`Ends`).

Everything that a bundle writes by itself keeps to this (`Rests`): the tag that leads into the code,
the start and the end of a namespace block, and imports. So what a finished output shows is known
(`Rests.html?_finish`).
-/

namespace LegacyPhp.Bundle

open Text Scan Closure List

variable {name : Text} {inCode : Bool} {before : Bundler}

/-- What may follow code that ends in `last`. Behind the label of a heredoc no identifier character
may come, and behind a tag that prints `ascii` characters have to be of one byte. -/
structure Admits (last : Option Char) (label : Bool) (ascii : Nat) (more : Text) : Prop where
  meets : LegacyPhp.meets last more.head? = false
  label : label → nextIs isIdentChar more = false
  ascii : ∀ c ∈ more.take ascii, c.toNat < 0x80

/-- What may follow text outside the code. -/
def Ends (more : Text) : Prop := more = [] ∨ ∃ left, StartsWithTag more left

/-- With a continuation that is fit, the output shows `html` and then what that shows. -/
def Leads (b : Bundler) (p : Text → Prop) (html : Text) : Prop :=
  ∀ more, p more → html? false (b.output ++ more) = (html? b.inCode more).map (html ++ ·)

/-- The names that may be written again can be left out. -/
def Named (b : Bundler) : Prop :=
  ∀ name, b.openNamespace = some name ∨ name ∈ b.imports → Passes name

/-- The output shows `html`, and continuations with `p` are fit to follow. A comma at its end may be
taken back if a closing parenthesis follows. -/
structure Shows (b : Bundler) (p : Text → Prop) (html : Text) : Prop where
  leads : Leads b p html
  names : Named b
  comma : b.inCode → ∀ out, b.output = out ++ [','] → ∀ more,
    nextIs (· == ')') more → html? false (out ++ more) = (html? true more).map (html ++ ·)

variable {b : Bundler} {p q : Text → Prop} {html added text : Text}

theorem Shows.imp (h : Shows b p html) (hq : ∀ more, q more → p more) : Shows b q html :=
  ⟨fun more hmore => h.leads more (hq more hmore), h.names, h.comma⟩

theorem Leads.write (h : Leads b p html)
    (hq : ∀ more, q more → p (text ++ more) ∧
      html? b.inCode (text ++ more) = (html? inCode more).map (added ++ ·)) :
    Leads { b.write text with inCode } q (html ++ added) := by
  intro more hmore
  obtain ⟨hfit, hshown⟩ := hq more hmore
  have hout : ({ b.write text with inCode } : Bundler).output = b.output ++ text :=
    b.output_write text
  rw [hout, append_assoc, h _ hfit, hshown, Option.map_map]
  congr 1
  funext rest
  simp

theorem Leads.code (h : Leads b p html) (hcode : b.inCode)
    (hq : ∀ more, q more → p (text ++ more) ∧ html? true (text ++ more) = html? true more) :
    Leads (b.write text) q html := by
  intro more hmore
  obtain ⟨hfit, hshown⟩ := hq more hmore
  have hin : (b.write text).inCode := hcode
  rw [Bundler.output_write, append_assoc, h _ hfit, hcode, hshown, hin]

theorem output_ne_comma (hlast : text.getLast?.any (· != ',')) (out : Text) :
    (b.write text).output ≠ out ++ [','] := by
  intro hout
  have hne : text ≠ [] := by
    rintro rfl
    cases hlast
  have heq : (b.output ++ text).getLast? = some ',' := by
    rw [← b.output_write text, hout]
    exact getLast?_concat
  rw [getLast?_append_of_ne_nil _ hne] at heq
  rw [heq] at hlast
  cases hlast

theorem shows_write (h : Leads b p html) (hnames : Named b)
    (hq : ∀ more, q more → p (text ++ more) ∧
      html? b.inCode (text ++ more) = (html? inCode more).map (added ++ ·))
    (hcomma : inCode → text.getLast?.any (· != ',')) :
    Shows { b.write text with inCode } q (html ++ added) :=
  ⟨h.write hq, hnames, fun hcode out hout => absurd hout (output_ne_comma (hcomma hcode) out)⟩

theorem shows_code (hcode : b.inCode) (h : Leads b p html) (hnames : Named b)
    (hq : ∀ more, q more → p (text ++ more) ∧ html? true (text ++ more) = html? true more)
    (hcomma : text.getLast?.any (· != ',')) : Shows (b.write text) q html :=
  ⟨h.code hcode hq, hnames, fun _ out hout => absurd hout (output_ne_comma hcomma out)⟩

theorem map_nil_append (x : Option Text) : x.map (([] : Text) ++ ·) = x := by
  cases x <;> rfl

/-! ## Between units -/

/-- What opens nothing with the last character of the output opens nothing with `last`. -/
def Behind (b : Bundler) (last : Option Char) : Prop :=
  ∀ d, meets b.last? d = false → meets last d = false

/-- The output shows `html` and is ready for whatever a bundle writes by itself. -/
def Rests (b : Bundler) (html : Text) : Prop :=
  if b.inCode then ∃ last, Behind b last ∧ Shows b (Admits last false 0) html
  else Shows b Ends html

theorem rests_of_code {last : Option Char} (hcode : b.inCode) (hlast : Behind b last)
    (h : Shows b (Admits last false 0) html) : Rests b html := by
  rw [Rests, if_pos hcode]
  exact ⟨last, hlast, h⟩

theorem Rests.code (h : Rests b html) (hcode : b.inCode) :
    ∃ last, Behind b last ∧ Shows b (Admits last false 0) html := by
  rwa [Rests, if_pos hcode] at h

theorem Rests.outside (h : Rests b html) (hcode : b.inCode = false) : Shows b Ends html := by
  rwa [Rests, if_neg (by rw [hcode]; exact Bool.false_ne_true)] at h

theorem Rests.names (h : Rests b html) : Named b := by
  cases hcode : b.inCode with
  | true =>
    obtain ⟨_, _, h⟩ := h.code hcode
    exact h.names
  | false => exact (h.outside hcode).names

/-- Only the output and the names count. -/
theorem Rests.congr {b' : Bundler} (h : Rests b html) (hout : b'.reversed = b.reversed)
    (hcode : b'.inCode = b.inCode) (hnames : Named b') : Rests b' html := by
  have houtput : b'.output = b.output := by rw [Bundler.output, hout]; rfl
  have hshows : ∀ {p : Text → Prop}, Shows b p html → Shows b' p html := fun hs => by
    refine ⟨?_, hnames, ?_⟩
    · rw [Leads, houtput, hcode]
      exact hs.leads
    · rw [houtput, hcode]
      exact hs.comma
  cases hb : b.inCode with
  | true =>
    obtain ⟨last, hlast, hs⟩ := h.code hb
    refine rests_of_code (hcode.trans hb) (fun d hd => hlast d ?_) (hshows hs)
    rwa [Bundler.last?, hout] at hd
  | false =>
    rw [Rests, if_neg (by rw [hcode, hb]; exact Bool.false_ne_true)]
    exact hshows (h.outside hb)

theorem Rests.write (h : Rests b html) (hcode : b.inCode) {c : Char}
    (hhead : text.head? = some c) (hc : c ∉ ['>', '/', '*', '<']) (hskips : Skips text)
    (hcomma : text.getLast?.any (· != ',')) : Rests (b.write text) html := by
  obtain ⟨last, hlast, hs⟩ := h.code hcode
  have hne : text ≠ [] := by
    rintro rfl
    cases hhead
  refine rests_of_code hcode (fun d hd => ?_) (shows_code hcode hs.leads hs.names
    (q := Admits text.getLast? false 0) (fun more hmore => ⟨⟨?_, nofun, nofun⟩, ?_⟩) hcomma)
  · rwa [last?_write b hne] at hd
  · rw [head?_append, hhead]
    exact not_meets_of_not_mem hc last
  · exact hskips more hmore.meets

theorem Rests.enterCode (h : Rests b html) : Rests b.enterCode html ∧ b.enterCode.inCode := by
  unfold Bundler.enterCode
  cases hcode : b.inCode with
  | true => exact ⟨h, hcode⟩
  | false =>
    refine ⟨@rests_of_code _ _ none rfl (fun _ _ => rfl) ?_, rfl⟩
    have hs := h.outside hcode
    rw [← append_nil html]
    refine shows_write hs.leads hs.names (fun more _ => ?_) fun _ => rfl
    have htag : StartsWithTag ("<?php ".toList ++ more) more := startsWithTag_long more
    rw [hcode, map_nil_append]
    exact ⟨.inr ⟨more, htag⟩, htag.html?_eq⟩

theorem Rests.writeClose (h : Rests b html) (hcode : b.inCode) : Rests b.writeClose html :=
  h.write hcode rfl (by decide)
    (skips_of_all (p := (· == '}')) (forall_mem_of_all (by decide)) rfl) rfl

theorem skips_named {word name : Text} {mark : Char} (hword : word.all (!openers.contains ·))
    (hmark : mark == ';' || mark == '{' || mark == ',') (hname : Passes name) :
    Skips (word ++ name ++ [mark]) := by
  intro more _
  have hfirst : inert word (name ++ ([mark] ++ more)) :=
    inert_of_all (forall_mem_of_all (by decide)) hword _
  have hlast : inert [mark] more := by
    refine inert_of_all (p := fun c => c == ';' || c == '{' || c == ',')
      (forall_mem_of_all (by decide)) ?_ more
    simpa using hmark
  have hnext : html? true (name ++ ([mark] ++ more)) = html? true ([mark] ++ more) := hname _ hmark
  rw [append_assoc, append_assoc, html?_inert hfirst, hnext, html?_inert hlast]

theorem Rests.writeOpen (h : Rests b html) (hcode : b.inCode) (hname : Passes name) :
    Rests (b.writeOpen name) html := by
  refine h.write hcode rfl (by decide) (skips_named (by decide) rfl hname) ?_
  rw [getLast?_append_of_ne_nil _ (cons_ne_nil _ _)]
  rfl

theorem passes_join {names : List Text} (h : ∀ name ∈ names, Passes name) :
    Passes (join [','] names) := by
  induction names with
  | nil => exact fun _ _ => rfl
  | cons name names ih =>
    cases names with
    | nil => simpa [join] using h name mem_cons_self
    | cons next names =>
      intro more hmore
      have hrest := ih fun n hn => h n (mem_cons_of_mem name hn)
      have heq : join [','] (name :: next :: names) =
          name ++ (',' :: join [','] (next :: names)) := by
        simp [join, List.intercalate]
      rw [heq, append_assoc, h name mem_cons_self _ rfl, cons_append,
        html?_cons (by simp [opensWhole]), hrest more hmore]

theorem skips_import (h : Passes name) : Skips ("use\n".toList ++ name ++ [';']) :=
  skips_named (by decide) rfl h

theorem last_import (name : Text) : ("use\n".toList ++ name ++ [';']).getLast?.any (· != ',') := by
  rw [getLast?_append_of_ne_nil _ (cons_ne_nil _ _)]
  rfl

/-! ## The operations of a bundle -/

theorem Rests.switchNamespace (h : Rests b html) (hcode : b.inCode) (hname : Passes name) :
    Rests (b.switchNamespace name) html ∧ (b.switchNamespace name).inCode := by
  unfold Bundler.switchNamespace
  split
  · exact ⟨h, hcode⟩
  · -- the block before it is closed first
    have hclosed : Rests (if b.openNamespace.isSome then b.writeClose else b) html ∧
        (if b.openNamespace.isSome then b.writeClose else b).inCode := by
      split
      · exact ⟨h.writeClose hcode, hcode⟩
      · exact ⟨h, hcode⟩
    refine ⟨(hclosed.1.writeOpen hclosed.2 hname).congr rfl rfl ?_, hclosed.2⟩
    rintro other (hother | hother)
    · cases hother
      exact hname
    · cases hother

theorem Rests.addImport (h : Rests b html) (hcode : b.inCode) (hname : Passes name) :
    Rests (b.addImport name) html ∧ (b.addImport name).inCode := by
  unfold Bundler.addImport
  split
  · exact ⟨h, hcode⟩
  · have hwritten := h.write hcode rfl (by decide) (skips_import hname) (last_import name)
    refine ⟨hwritten.congr rfl rfl ?_, hcode⟩
    rintro other (hother | hother)
    · exact h.names other (.inl hother)
    · rcases mem_append.1 hother with hold | hnew
      · exact h.names other (.inr hold)
      · rw [mem_singleton.1 hnew]
        exact hname

/-- Opening a block again writes its name and its imports. -/
theorem Rests.reopen (h : Rests b html) (hcode : b.inCode) (hbefore : Named before) :
    Rests (match before.openNamespace with
      | none => b
      | some name =>
        if before.imports.isEmpty || name.isEmpty then b.writeOpen name
        else (b.writeOpen name).write
          ("use\n".toList ++ join [','] before.imports ++ [';'])) html := by
  cases hopen : before.openNamespace with
  | none => exact h
  | some name =>
    have hopened := h.writeOpen hcode (hbefore name (.inl hopen))
    simp only
    split
    · exact hopened
    · exact hopened.write hcode rfl (by decide)
        (skips_import (passes_join fun n hn => hbefore n (.inr hn))) (last_import _)

/-- Coming back to a block writes names that were written before. -/
theorem Rests.restore (h : Rests b html) (hbefore : Named before) :
    Rests (b.restore before) html := by
  unfold Bundler.restore
  split
  · exact h
  · obtain ⟨hin, hcode⟩ := h.enterCode
    have hclosed : Rests (if b.enterCode.openNamespace.isSome then b.enterCode.writeClose
          else b.enterCode) html ∧
        (if b.enterCode.openNamespace.isSome then b.enterCode.writeClose
          else b.enterCode).inCode := by
      split
      · exact ⟨hin.writeClose hcode, hcode⟩
      · exact ⟨hin, hcode⟩
    dsimp only
    generalize (if b.enterCode.openNamespace.isSome then b.enterCode.writeClose
      else b.enterCode) = closed at hclosed ⊢
    exact (hclosed.1.reopen hclosed.2 hbefore).congr rfl rfl hbefore

theorem Rests.html?_finish (h : Rests b html) : html? false b.finish = some html := by
  have hend : ∀ {b : Bundler}, Rests b html → html? false b.output = some html := by
    intro b h
    have hleads : html? false (b.output ++ []) = (html? b.inCode []).map (html ++ ·) := by
      by_cases hcode : b.inCode
      · obtain ⟨last, _, hs⟩ := h.code hcode
        exact hs.leads [] ⟨meets_none_right last, nofun, nofun⟩
      · exact (h.outside (Bool.eq_false_iff.2 hcode)).leads [] (.inl rfl)
    simpa using hleads
  unfold Bundler.finish
  split
  · exact hend h
  · obtain ⟨hin, hcode⟩ := h.enterCode
    exact hend (hin.writeClose hcode)

end LegacyPhp.Bundle
