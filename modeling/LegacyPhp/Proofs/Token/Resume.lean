import LegacyPhp.Proofs.Token.Relex
import Mathlib.Data.List.Forall2

/-!
# Lexing can be taken up again at every token of the code

The lexer carries three things from one token to the next: whether it is in code, what it remembers
of the last tokens (`Before`), and the offset. The offset only labels (`lexFrom_moved`). The memory
decides about one word at most: trivia hands it on, and behind the first token that is not trivia it
is the same whatever it was before (`next_eq_of_mayReserve`). So code that is cut in front of any
of its tokens and read behind an open tag gives the same tokens, up to a first word that becomes
reserved because the arrow or the separator before it is gone (`lexFrom_resumed`).
-/

namespace LegacyPhp

open Text Scan Closure List

variable {b : Before} {cs : Text} {t u : Token} {pos n : Nat} {ts : List Token} {kind : TokenKind}
  {inCode : Bool}

theorem lexFrom_append {xs ys : List Token} (h : lexFrom inCode b pos cs = .ok (xs ++ ys)) :
    lexFrom (xs.foldl inCodeAfter inCode) (xs.foldl Before.next b)
      (pos + byteLength (serialize xs)) (serialize ys) = .ok ys := by
  induction xs generalizing inCode b pos cs with
  | nil =>
    have hcs : serialize ys = cs := (lexFrom_tiles h).serialize_eq
    rw [hcs]
    exact h
  | cons x xs ih =>
    have htail := ih (lexFrom_tail h)
    rwa [Nat.add_assoc, ← byteLength_append] at htail

/-! ## Other places -/

/-- The same token `pos'` instead of `pos` bytes behind some point. -/
structure Moved (pos pos' : Nat) (t u : Token) : Prop where
  kind : u.kind = t.kind
  text : u.text = t.text
  offset : u.offset + pos = t.offset + pos'

theorem Moved.shift {pos' : Nat} (h : Moved (pos + n) (pos' + n) t u) : Moved pos pos' t u :=
  ⟨h.kind, h.text, by have := h.offset; omega⟩

/-- The lexer reads the same tokens wherever the text stands. -/
theorem lexFrom_moved (h : lexFrom inCode b pos cs = .ok ts) (pos' : Nat) :
    ∃ us, lexFrom inCode b pos' cs = .ok us ∧ List.Forall₂ (Moved pos pos') ts us := by
  induction ts generalizing inCode b pos pos' cs with
  | nil =>
    obtain rfl : [] = cs := (lexFrom_tiles h).serialize_eq
    exact ⟨[], by rw [lexFrom], .nil⟩
  | cons t ts ih =>
    have hcs : t.text ++ serialize ts = cs := (lexFrom_tiles h).serialize_eq
    have hoffset : t.offset = pos := (lexFrom_tiles h).offset_eq (nil_append _).symm
    have hplace : pos' + pos = t.offset + pos' := by omega
    obtain ⟨us, hus, hmoved⟩ := ih (lexFrom_tail h) (pos' + byteLength t.text)
    rw [← hcs, (reads_of_lexFrom h).lexFrom_eq]
    exact ⟨_, congrArg (Except.map _) hus, .cons ⟨rfl, rfl, hplace⟩
      (hmoved.imp fun _ _ => .shift)⟩

/-! ## Other memories -/

/-- A token has the same kind, or it is a word that has become reserved. -/
def MayReserve (old new : TokenKind) : Prop :=
  new = old ∨ old = .identifier ∧ ∃ word, new = .keyword word

/-- Without a memory a token is what it was, or becomes reserved. -/
theorem mayReserve_kindIn {text rest : Text} (h : kindIn b text rest kind = kind) :
    MayReserve kind (kindIn {} text rest kind) := by
  unfold kindIn wordKind at h ⊢
  cases kind with
  | identifier =>
    dsimp only
    cases Keyword.ofWord? text with
    | none => exact .inl rfl
    | some word =>
      dsimp only
      split
      · exact .inl rfl
      · exact .inr ⟨rfl, word, rfl⟩
  | keyword word =>
    dsimp only at h ⊢
    cases hword : Keyword.ofWord? text with
    | none => rw [hword] at h; cases h
    | some _ =>
      rw [hword] at h
      dsimp only at h ⊢
      split at h
      · cases h
      · next hreserved =>
        simp only [Bool.or_eq_true, not_or] at hreserved
        refine .inl ((if_neg ?_).trans h)
        simp [hreserved.1.1]
  | _ => exact .inl rfl

theorem next_of_isTrivia {t : Token} (ht : t.isTrivia) (b : Before) :
    b.next t = { member := b.member } ∧ inCodeAfter true t := by
  obtain ⟨kind, text, offset⟩ := t
  cases kind with
  | whitespace | comment | docComment => exact ⟨rfl, rfl⟩
  | _ => cases ht

/-- Behind a token that is not trivia the lexer remembers nothing but that token, and not whether it
is reserved. -/
theorem next_eq_of_mayReserve (ht : t.isTrivia = false) (hkind : MayReserve t.kind kind)
    (b b' : Before) (pos : Nat) : b'.next ⟨kind, t.text, pos⟩ = b.next t ∧
      inCodeAfter true ⟨kind, t.text, pos⟩ = inCodeAfter true t := by
  obtain ⟨old, text, offset⟩ := t
  have hold : old.isTrivia = false := ht
  rcases hkind with rfl | ⟨rfl, word, rfl⟩
  · refine ⟨?_, rfl⟩
    simp only [Before.next, Token.isTrivia, hold, Bool.false_eq_true, if_false]
    rfl
  · exact ⟨rfl, rfl⟩

/-- Tokens at other places that were read with no memory of what stood before them. -/
inductive Resumed (pos pos' : Nat) : List Token → List Token → Prop
  | nil : Resumed pos pos' [] []
  | trivia {t u : Token} {ts us : List Token} (ht : t.isTrivia) (hmoved : Moved pos pos' t u)
      (htail : Resumed pos pos' ts us) : Resumed pos pos' (t :: ts) (u :: us)
  | first {t u : Token} {ts us : List Token} (hkind : MayReserve t.kind u.kind)
      (htext : u.text = t.text) (hoffset : u.offset + pos = t.offset + pos')
      (htail : List.Forall₂ (Moved pos pos') ts us) : Resumed pos pos' (t :: ts) (u :: us)

namespace Resumed

variable {pos' : Nat} {us : List Token}

theorem shift (h : Resumed (pos + n) (pos' + n) ts us) : Resumed pos pos' ts us := by
  induction h with
  | nil => exact .nil
  | trivia ht hmoved _ ih => exact .trivia ht hmoved.shift ih
  | first hkind htext hoffset htail =>
    exact .first hkind htext (by omega) (htail.imp fun _ _ => .shift)

theorem append_singleton (h : Resumed pos pos' ts us) (hmoved : Moved pos pos' t u) :
    Resumed pos pos' (ts ++ [t]) (us ++ [u]) := by
  induction h with
  | nil => exact .first (.inl hmoved.kind) hmoved.text hmoved.offset .nil
  | trivia ht hhead _ ih => exact .trivia ht hhead ih
  | first hkind htext hoffset htail =>
    exact .first hkind htext hoffset (rel_append htail (.cons hmoved .nil))

theorem length_eq (h : Resumed pos pos' ts us) : us.length = ts.length := by
  induction h with
  | nil => rfl
  | trivia _ _ _ ih => simp [ih]
  | first _ _ _ htail => simp [htail.length_eq]

/-- Token by token: the texts are the same, the offsets differ by the same number, and only the
first token that is not trivia may have another kind. -/
theorem getElem? (h : Resumed pos pos' ts us) {i : Nat} (ht : ts[i]? = some t)
    (hu : us[i]? = some u) : u.text = t.text ∧ u.offset + pos = t.offset + pos' ∧
      (u.kind = t.kind ∨ t.kind = .identifier ∧ (∃ word, u.kind = .keyword word) ∧
        ∀ v ∈ ts.take i, v.isTrivia) := by
  induction h generalizing i with
  | nil => cases ht
  | trivia htrivia hmoved _ ih =>
    cases i with
    | zero =>
      cases ht
      cases hu
      exact ⟨hmoved.text, hmoved.offset, .inl hmoved.kind⟩
    | succ i =>
      obtain ⟨htext, hoffset, hkind⟩ := ih ht hu
      refine ⟨htext, hoffset, hkind.imp_right fun ⟨hident, hword, hbefore⟩ => ⟨hident, hword, ?_⟩⟩
      rw [take_succ_cons, forall_mem_cons]
      exact ⟨htrivia, hbefore⟩
  | first hkind htext hoffset htail =>
    cases i with
    | zero =>
      cases ht
      cases hu
      exact ⟨htext, hoffset, hkind.imp_right fun ⟨hident, hword⟩ => ⟨hident, hword, by simp⟩⟩
    | succ i =>
      rw [getElem?_cons_succ] at ht hu
      obtain ⟨hi, rfl⟩ := List.getElem?_eq_some_iff.1 ht
      obtain ⟨hi', rfl⟩ := List.getElem?_eq_some_iff.1 hu
      have hmoved := htail.get hi hi'
      exact ⟨hmoved.text, hmoved.offset, .inl hmoved.kind⟩

end Resumed

/-- Code is read again with no memory: the induction goes through the trivia up to the first other
token, and from there on the lexer is in the same state. -/
theorem lexFrom_resumed (h : lexFrom true b pos cs = .ok ts) (pos' : Nat) :
    ∃ us, lexFrom true {} pos' cs = .ok us ∧ Resumed pos pos' ts us := by
  induction ts generalizing b pos pos' cs with
  | nil =>
    obtain rfl : [] = cs := (lexFrom_tiles h).serialize_eq
    exact ⟨[], by rw [lexFrom], .nil⟩
  | cons t ts ih =>
    have hcs : t.text ++ serialize ts = cs := (lexFrom_tiles h).serialize_eq
    have hoffset : t.offset = pos := (lexFrom_tiles h).offset_eq (nil_append _).symm
    have hread := reads_of_lexFrom h
    have hagain : Reads true {} (kindIn {} t.text (serialize ts) t.kind) t.text (serialize ts) :=
      hread.of_ends hread.not_goesOn
    have hkind := mayReserve_kindIn hread.kindIn_eq
    generalize kindIn {} t.text (serialize ts) t.kind = kind at hagain hkind
    have hplace : pos' + pos = t.offset + pos' := by omega
    rw [← hcs, hagain.lexFrom_eq]
    cases ht : t.isTrivia with
    | true =>
      have hsame : kind = t.kind := by
        refine hkind.resolve_right fun hword => ?_
        rw [Token.isTrivia, hword.1] at ht
        cases ht
      subst hsame
      have hmoved : Moved pos pos' t ⟨t.kind, t.text, pos'⟩ := ⟨rfl, rfl, hplace⟩
      have htail := lexFrom_tail h
      rw [(next_of_isTrivia ht b).2] at htail
      obtain ⟨us, hus, hresumed⟩ := ih htail (pos' + byteLength t.text)
      obtain ⟨hnext, hmode⟩ := @next_of_isTrivia ⟨t.kind, t.text, pos'⟩ ht {}
      rw [hnext, hmode, hus]
      exact ⟨_, rfl, .trivia ht hmoved hresumed.shift⟩
    | false =>
      obtain ⟨hnext, hmode⟩ := next_eq_of_mayReserve ht hkind b {} pos'
      obtain ⟨us, hus, hmoved⟩ := lexFrom_moved (lexFrom_tail h) (pos' + byteLength t.text)
      rw [hnext, hmode, hus]
      exact ⟨_, rfl, .first hkind rfl hplace (hmoved.imp fun _ _ => .shift)⟩

/-- Lexing can be taken up again at every token of the code. The text from such a token on, put
behind an open tag, is read as that tag and the same tokens: the texts are the same, all offsets are
moved by the same amount, and the kinds are the same but for the first token that is not trivia,
which may be reserved where it was a plain word. The lexer is in code at a token if the last tag
before it is an open tag. -/
theorem tokenize_resumes {source : Text} {tokens : List Token} (h : tokenize source = .ok tokens)
    {i : Nat} (hi : i < tokens.length) (hcode : (tokens.take i).foldl inCodeAfter false = true) :
    ∃ again, tokenize (longTag ++ serialize (tokens.drop i)) =
        .ok (⟨.openTag, longTag, 0⟩ :: again) ∧
      again.length = (tokens.drop i).length ∧
      ∀ j t u, (tokens.drop i)[j]? = some t → again[j]? = some u →
        u.text = t.text ∧
        u.offset + byteLength (serialize (tokens.take i)) = t.offset + byteLength longTag ∧
        (u.kind = t.kind ∨ t.kind = .identifier ∧ (∃ word, u.kind = .keyword word) ∧
          ∀ v ∈ (tokens.drop i).take j, v.isTrivia) := by
  obtain ⟨body, hbody, rfl⟩ := map_eq_ok h
  have hle : i ≤ body.length := by simpa [Nat.lt_succ_iff] using hi
  rw [List.take_append_of_le_length hle] at hcode ⊢
  rw [List.drop_append_of_le_length hle]
  generalize hdone : body.take i = done at hcode
  generalize htodo : body.drop i = todo
  have hsplit : done ++ todo = body := by rw [← hdone, ← htodo, List.take_append_drop]
  -- what is left of the source is read in the state that the lexer was in there
  have hrest : lexFrom true (done.foldl Before.next {}) (0 + byteLength (serialize done))
      (serialize todo) = .ok todo := by
    rw [← hcode]
    exact lexFrom_append (hsplit ▸ hbody)
  rw [Nat.zero_add] at hrest
  obtain ⟨us, hus, hresumed⟩ := lexFrom_resumed hrest (byteLength longTag)
  let last : Token := ⟨.endOfInput, [], byteLength (longTag ++ serialize todo)⟩
  have hlast : Moved (byteLength (serialize done)) (byteLength longTag)
      ⟨.endOfInput, [], byteLength source⟩ last := by
    refine ⟨rfl, rfl, ?_⟩
    have hsource : serialize (done ++ todo) = source := hsplit ▸ (lexemes_tiles hbody).serialize_eq
    simp only [last, ← hsource, serialize_append, byteLength_append]
    omega
  refine ⟨us ++ [last], ?_, ?_⟩
  · have hserialize :
        serialize (todo ++ [⟨.endOfInput, [], byteLength source⟩]) = serialize todo := by
      simp
    rw [hserialize, tokenize, lexemes_longTag]
    have hsix : byteLength longTag = 6 := rfl
    rw [hsix] at hus
    rw [hus]
    rfl
  · have hall := hresumed.append_singleton hlast
    exact ⟨hall.length_eq, fun j t u ht hu => hall.getElem? ht hu⟩

/-- Code that is cut behind an arrow, with text and a second tag further on. -/
theorem tokenize_resumes_arrow :
    ∃ tokens again, tokenize "<?php $a-> class ?>x<?= 1".toList = .ok tokens ∧
      tokenize (longTag ++ serialize (tokens.drop 3)) = .ok (⟨.openTag, longTag, 0⟩ :: again) ∧
      again.length = 9 := by
  have hchecked : (tokenize "<?php $a-> class ?>x<?= 1".toList).toOption.any fun tokens =>
      3 < tokens.length && (tokens.take 3).foldl inCodeAfter false &&
        (tokens.drop 3).length == 9 := by
    decide +kernel
  obtain ⟨tokens, htokens, hall⟩ := (Option.any_eq_true _ _).1 hchecked
  simp only [Bool.and_eq_true, decide_eq_true_eq, beq_iff_eq] at hall
  have h := eq_ok_of_toOption htokens
  obtain ⟨again, hagain, hlength, -⟩ := tokenize_resumes h hall.1.1 hall.1.2
  exact ⟨tokens, again, h, hagain, hlength.trans hall.2⟩

end LegacyPhp
