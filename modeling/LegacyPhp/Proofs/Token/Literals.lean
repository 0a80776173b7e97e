import LegacyPhp.Proofs.Token.Lexes

/-!
# Literals and the code in them

What stands between two quotes is given by a grammar (`Whole`): characters, escapes and embedded
code, with braces and literals of its own. The scan of a literal keeps a stack of open literals
instead. `Completes` says what the grammar has from a state of the scan on; one character of it does
what the scan does (`completesAll_cons`), and so a scan takes off a text just what completes its
open literals (`literalRest_iff`), wherever the text stands and whatever follows it.
-/

namespace LegacyPhp

open Text Scan List

variable {l : OpenLiteral} {outer : List OpenLiteral}

/-- A character that opens and closes literals. -/
def isQuote (c : Char) : Bool := c == '\'' || c == '"' || c == '\x60'

theorem isQuote_iff {c : Char} : isQuote c ↔ c = '\'' ∨ c = '"' ∨ c = '\x60' := by
  simp [isQuote, or_assoc]

/-- The character that closes an open literal. -/
def OpenLiteral.quote : OpenLiteral → Char
  | .single _ _ => '\''
  | .interpolated q _ _ => q

/-- The state of a scan behind the quote that opens a literal. -/
def opened (quote : Char) (start : Nat) : OpenLiteral :=
  if quote == '\'' then .single false start else .interpolated quote .plain start

theorem quote_opened (quote : Char) (start : Nat) :
    OpenLiteral.quote (opened quote start) = quote := by
  unfold opened
  split
  · next h => exact (eq_of_beq h).symm
  · rfl

theorem start_opened (quote : Char) (start : Nat) : (opened quote start).start = start := by
  unfold opened
  split <;> rfl

theorem isQuote_of_double {quote : Char} (h : quote = '"' ∨ quote = '\x60') : isQuote quote := by
  rcases h with rfl | rfl <;> rfl

/-- Literals with embedded code start in their plain text. -/
theorem opened_of_double {quote : Char} (h : quote = '"' ∨ quote = '\x60') (start : Nat) :
    opened quote start = .interpolated quote .plain start := by
  rcases h with rfl | rfl <;> rfl

/-- A literal stays open with the same quote, opens another one with a quote of its own, or is
closed by its quote. -/
def MindsQuote (literal : OpenLiteral) (pos : Nat) (c : Char) : LiteralStep → Prop
  | .stay after => OpenLiteral.quote after = OpenLiteral.quote literal ∧ after.start = literal.start
  | .nest inner => inner = opened c pos ∧ isQuote c
  | .close => OpenLiteral.quote literal = c

/-- Every step of the scan minds the quote of its literal. -/
theorem mindsQuote_step (pos : Nat) (c : Char) (literal : OpenLiteral) :
    MindsQuote literal pos c (literal.step pos c) := by
  unfold OpenLiteral.step
  repeat' split
  all_goals first
    | exact ⟨rfl, rfl⟩
    | next h => rw [eq_of_beq h]; exact ⟨rfl, rfl⟩
    | next h => exact (eq_of_beq h).symm

/-! ## What stands between quotes -/

/-- Where a text can stand: between single quotes, between other quotes, or in the code between
those. -/
inductive Zone where
  | single
  | quoted (quote : Char)
  | code
  deriving DecidableEq, Repr

/-- What stands between two quotes. -/
def Zone.between (quote : Char) : Zone := if quote == '\'' then .single else .quoted quote

/-- A character that means nothing but itself, whatever follows it. -/
def Zone.plain : Zone → Char → Bool
  | single, c => c != '\\' && c != '\''
  | quoted q, c => c != '\\' && c != '\x7b' && c != '$' && c != q
  | code, c => c != '\x7b' && c != '\x7d' && c != '\'' && c != '"'

/-- A text in which everything that opens is closed again. Code between quotes is opened by a brace
before a `$`, and by one behind it if `dollars` says so. -/
inductive Whole (dollars : Bool) : Zone → Text → Prop
  | nil {zone : Zone} : Whole dollars zone []
  | plain {zone : Zone} {c : Char} {rest : Text} (hc : zone.plain c)
      (h : Whole dollars zone rest) : Whole dollars zone (c :: rest)
  | escape {zone : Zone} {c : Char} {rest : Text} (hzone : zone ≠ .code)
      (h : Whole dollars zone rest) :
      Whole dollars zone ('\\' :: c :: rest)
  | brace {quote : Char} {rest : Text} (hnext : nextIs (· == '$') rest = false)
      (h : Whole dollars (.quoted quote) rest) : Whole dollars (.quoted quote) ('\x7b' :: rest)
  | dollar {quote : Char} {rest : Text} (hnext : dollars → nextIs (· == '\x7b') rest = false)
      (h : Whole dollars (.quoted quote) rest) : Whole dollars (.quoted quote) ('$' :: rest)
  | braceCode {quote : Char} {code rest : Text} (hcode : Whole dollars .code code)
      (h : Whole dollars (.quoted quote) rest) :
      Whole dollars (.quoted quote) ('\x7b' :: '$' :: (code ++ '\x7d' :: rest))
  | dollarCode {quote : Char} {code rest : Text} (hdollars : dollars)
      (hcode : Whole dollars .code code) (h : Whole dollars (.quoted quote) rest) :
      Whole dollars (.quoted quote) ('$' :: '\x7b' :: (code ++ '\x7d' :: rest))
  | block {inner rest : Text} (hinner : Whole dollars .code inner) (h : Whole dollars .code rest) :
      Whole dollars .code ('\x7b' :: (inner ++ '\x7d' :: rest))
  | literal {quote : Char} {body rest : Text} (hquote : quote = '\'' ∨ quote = '"')
      (hbody : Whole dollars (.between quote) body) (h : Whole dollars .code rest) :
      Whole dollars .code (quote :: (body ++ quote :: rest))

section Whole

variable {zone : Zone} {quote c : Char} {rest : Text}

/-- Plain characters neither open nor close anything. -/
theorem whole_plain_iff (hc : zone.plain c) :
    Whole false zone (c :: rest) ↔ Whole false zone rest := by
  refine ⟨fun h => ?_, .plain hc⟩
  cases h <;> simp_all [Zone.plain]
  grind

/-- An escaped character stands for itself, quotes included. -/
theorem whole_escape_iff (hzone : zone ≠ .code) :
    Whole false zone ('\\' :: c :: rest) ↔ Whole false zone rest := by
  refine ⟨fun h => ?_, .escape hzone⟩
  cases zone with
  | code => exact absurd rfl hzone
  | single | quoted =>
    cases h with
    | plain hc _ => simp [Zone.plain] at hc
    | escape _ h => exact h

/-- An escape is not complete without its character. -/
theorem not_whole_backslash (hzone : zone ≠ .code) : ¬ Whole false zone ['\\'] := by
  intro h
  cases zone with
  | code => exact hzone rfl
  | single | quoted =>
    cases h with
    | plain hc _ => simp [Zone.plain] at hc

/-- No text between quotes holds the quote unescaped. -/
theorem not_whole_quote (hquote : isQuote quote)
    (hzone : zone = .quoted quote ∨ zone = .single ∧ quote = '\'') :
    ¬ Whole false zone (quote :: rest) := by
  intro h
  unfold isQuote at hquote
  cases h <;> grind [Zone.plain]

/-- A brace embeds code only before a dollar sign. -/
theorem whole_brace_iff (hnext : nextIs (· == '$') rest = false) :
    Whole false (.quoted quote) ('\x7b' :: rest) ↔ Whole false (.quoted quote) rest := by
  refine ⟨fun h => ?_, .brace hnext⟩
  cases h with
  | plain hc _ => simp [Zone.plain] at hc
  | brace _ h => exact h
  | braceCode => simp [nextIs] at hnext

/-- A dollar sign by itself opens nothing. -/
theorem whole_dollar_iff :
    Whole false (.quoted quote) ('$' :: rest) ↔ Whole false (.quoted quote) rest := by
  refine ⟨fun h => ?_, .dollar nofun⟩
  cases h with
  | plain hc _ => simp [Zone.plain] at hc
  | dollar _ h => exact h
  | dollarCode hdollars => cases hdollars

/-- Embedded code reaches to the brace that closes it. -/
theorem whole_braceCode_iff : Whole false (.quoted quote) ('\x7b' :: '$' :: rest) ↔
    ∃ code left, rest = code ++ '\x7d' :: left ∧ Whole false .code code ∧
      Whole false (.quoted quote) left := by
  refine ⟨fun h => ?_, fun ⟨_, _, hrest, hcode, h⟩ => hrest ▸ .braceCode hcode h⟩
  cases h with
  | plain hc _ => simp [Zone.plain] at hc
  | brace hnext _ => simp [nextIs] at hnext
  | braceCode hcode h => exact ⟨_, _, rfl, hcode, h⟩

/-- Braces in embedded code come in pairs. -/
theorem whole_block_iff : Whole false .code ('\x7b' :: rest) ↔
    ∃ inner left, rest = inner ++ '\x7d' :: left ∧ Whole false .code inner ∧
      Whole false .code left := by
  refine ⟨fun h => ?_, fun ⟨_, _, hrest, hinner, h⟩ => hrest ▸ .block hinner h⟩
  cases h with
  | plain hc _ => simp [Zone.plain] at hc
  | block hinner h => exact ⟨_, _, rfl, hinner, h⟩
  | literal hquote _ _ => simp at hquote

/-- Embedded code has literals of its own. -/
theorem whole_literal_iff (hquote : quote = '\'' ∨ quote = '"') :
    Whole false .code (quote :: rest) ↔
    ∃ body left, rest = body ++ quote :: left ∧ Whole false (.between quote) body ∧
      Whole false .code left := by
  refine ⟨fun h => ?_, fun ⟨_, _, hrest, hbody, h⟩ => hrest ▸ .literal hquote hbody h⟩
  cases h with
  | plain hc _ => rcases hquote with rfl | rfl <;> simp [Zone.plain] at hc
  | escape hzone _ => exact absurd rfl hzone
  | block => simp at hquote
  | literal _ hbody h => exact ⟨_, _, rfl, hbody, h⟩

/-- Embedded code does not begin with the brace that closes it. -/
theorem not_whole_closing : ¬ Whole false .code ('\x7d' :: rest) := by
  intro h
  cases h with
  | plain hc _ => simp [Zone.plain] at hc
  | literal hquote _ _ => simp at hquote

end Whole

/-! ## What completes an open literal -/

/-- The rest of a text up to the character that closes it, with something behind it. What has been
read of the text before is `before`. -/
def Upto (zone : Zone) (close : Char) (before : Text) (Behind : Text → Prop) (text : Text) : Prop :=
  ∃ body rest, text = body ++ close :: rest ∧ Whole false zone (before ++ body) ∧ Behind rest

/-- The rest of embedded code with `more` open braces in it, and what stands behind it to the quote.
-/
def Embedded (quote : Char) (Behind : Text → Prop) : Nat → Text → Prop
  | 0 => Upto .code '\x7d' [] (Upto (.quoted quote) quote [] Behind)
  | more + 1 => Upto .code '\x7d' [] (Embedded quote Behind more)

/-- What can stand from a state of the scan on, with something behind the quote that closes the
literal. -/
def Completes (Behind : Text → Prop) : OpenLiteral → Text → Prop
  | .single escaped _ => Upto .single '\'' (if escaped then ['\\'] else []) Behind
  | .interpolated q .plain _ => Upto (.quoted q) q [] Behind
  | .interpolated q .escaped _ => Upto (.quoted q) q ['\\'] Behind
  | .interpolated q .brace _ => Upto (.quoted q) q ['\x7b'] Behind
  | .interpolated q (.code more) _ => Embedded q Behind more

/-- What completes the open literals of a stack, one after the other. -/
def CompletesAll : List OpenLiteral → Text → Prop
  | [] => (· = [])
  | l :: outer => Completes (CompletesAll outer) l

/-- The open literals behind a character that does this to the innermost one. -/
def LiteralStep.stack (l : OpenLiteral) (outer : List OpenLiteral) : LiteralStep → List OpenLiteral
  | .stay next => next :: outer
  | .nest new => new :: l :: outer
  | .close => outer

/-- All literals on the stack are closed by quotes. -/
theorem isQuote_stack (h : ∀ l' ∈ l :: outer, isQuote (OpenLiteral.quote l')) (pos : Nat)
    (c : Char) :
    ∀ l' ∈ LiteralStep.stack l outer (l.step pos c), isQuote (OpenLiteral.quote l') := by
  obtain ⟨hl, houter⟩ := forall_mem_cons.1 h
  have hminds := mindsQuote_step pos c l
  cases hstep : l.step pos c with
  | stay next =>
    rw [hstep] at hminds
    exact forall_mem_cons.2 ⟨hminds.1.symm ▸ hl, houter⟩
  | nest new =>
    rw [hstep] at hminds
    refine forall_mem_cons.2 ⟨?_, h⟩
    rw [hminds.1, quote_opened]
    exact hminds.2
  | close => exact houter

section Steps

variable {zone inner : Zone} {quote close c : Char} {before text : Text} {Behind : Text → Prop}
  {more pos start : Nat}

/-- The first character is the closing one, or it belongs to the text before that. -/
theorem upto_cons : Upto zone close before Behind (c :: text) ↔
    c = close ∧ Whole false zone before ∧ Behind text ∨
      Upto zone close (before ++ [c]) Behind text := by
  constructor
  · rintro ⟨body, rest, heq, hwhole, hrest⟩
    rcases cons_eq_append_iff.1 heq with ⟨rfl, hclose⟩ | ⟨body, rfl, rfl⟩
    · obtain ⟨rfl, rfl⟩ := cons.inj hclose
      exact .inl ⟨rfl, by simpa using hwhole, hrest⟩
    · exact .inr ⟨body, rest, rfl, by simpa using hwhole, hrest⟩
  · rintro (⟨rfl, hwhole, hrest⟩ | ⟨body, rest, rfl, hwhole, hrest⟩)
    · exact ⟨[], text, rfl, by simpa using hwhole, hrest⟩
    · exact ⟨c :: body, rest, rfl, by simpa using hwhole, hrest⟩

/-- Of what came before only its effect on the rest counts. -/
theorem upto_congr {before' : Text}
    (h : ∀ body, Whole false zone (before ++ body) ↔ Whole false zone (before' ++ body)) :
    Upto zone close before Behind text ↔ Upto zone close before' Behind text := by
  simp only [Upto, h]

theorem upto_of_ne (hc : c ≠ close) :
    Upto zone close before Behind (c :: text) ↔ Upto zone close (before ++ [c]) Behind text := by
  rw [upto_cons, or_iff_right fun h => hc h.1]

/-- A character without effect can be passed over. -/
theorem upto_plain (hc : c ≠ close)
    (h : ∀ rest, Whole false zone (c :: rest) ↔ Whole false zone rest) :
    Upto zone close [] Behind (c :: text) ↔ Upto zone close [] Behind text :=
  (upto_of_ne hc).trans (upto_congr h)

/-- Where the closing character cannot be part of the text, it ends it. -/
theorem upto_close (h : ∀ rest, ¬ Whole false zone (close :: rest)) :
    Upto zone close [] Behind (close :: text) ↔ Behind text := by
  rw [upto_cons, or_iff_left fun ⟨body, _, _, hwhole, _⟩ => h body hwhole]
  exact ⟨fun h => h.2.2, fun h => ⟨rfl, .nil, h⟩⟩

theorem upto_escaped (hzone : zone ≠ .code) :
    Upto zone close ['\\'] Behind (c :: text) ↔ Upto zone close [] Behind text := by
  rw [upto_cons, or_iff_right fun h => not_whole_backslash hzone h.2.1]
  exact upto_congr fun _ => whole_escape_iff hzone

/-- Something opens that is closed before the text goes on. -/
theorem upto_nest {last : Char} (h : ∀ rest, Whole false zone (before ++ rest) ↔
      ∃ body left, rest = body ++ last :: left ∧ Whole false inner body ∧ Whole false zone left) :
    Upto zone close before Behind text ↔ Upto inner last [] (Upto zone close [] Behind) text := by
  constructor
  · rintro ⟨_, rest, rfl, hwhole, hrest⟩
    obtain ⟨body, left, rfl, hbody, hleft⟩ := (h _).1 hwhole
    exact ⟨body, left ++ close :: rest, by simp, hbody, left, rest, rfl, hleft, hrest⟩
  · rintro ⟨body, _, rfl, hbody, left, rest, rfl, hleft, hrest⟩
    exact ⟨body ++ last :: left, rest, by simp, (h _).2 ⟨body, left, rfl, hbody, hleft⟩, hrest⟩

/-- One character of embedded code, read by the grammar and by the scan. -/
theorem embedded_cons : Embedded quote (CompletesAll outer) more (c :: text) ↔
    CompletesAll (LiteralStep.stack (.interpolated quote (.code more) start) outer
      ((OpenLiteral.interpolated quote (.code more) start).step pos c)) text := by
  by_cases hopen : c = '\x7b'
  · subst hopen
    have hnest : ∀ {Behind}, Upto .code '\x7d' [] Behind ('\x7b' :: text) ↔
        Upto .code '\x7d' [] (Upto .code '\x7d' [] Behind) text :=
      (upto_of_ne (by decide)).trans (upto_nest fun _ => whole_block_iff)
    cases more <;> exact hnest
  by_cases hclose : c = '\x7d'
  · subst hclose
    cases more <;> exact upto_close fun _ => not_whole_closing
  by_cases hquote : c = '\'' ∨ c = '"'
  · have hnest : ∀ {Behind}, Upto .code '\x7d' [] Behind (c :: text) ↔
        Upto (.between c) c [] (Upto .code '\x7d' [] Behind) text :=
      (upto_of_ne hclose).trans (upto_nest fun _ => whole_literal_iff hquote)
    rcases hquote with rfl | rfl <;> cases more <;> exact hnest
  · rw [not_or] at hquote
    have hstep : (OpenLiteral.interpolated quote (.code more) start).step pos c =
        .stay (.interpolated quote (.code more) start) := by
      simp [OpenLiteral.step, hopen, hclose, hquote]
    have hplain : Zone.plain .code c := by simp [Zone.plain, hopen, hclose, hquote]
    rw [hstep]
    cases more <;> exact upto_plain hclose fun _ => whole_plain_iff hplain

/-- One character of a text with embedded code, read by the grammar and by the scan. -/
theorem quoted_cons (hquote : isQuote quote) :
    Upto (.quoted quote) quote [] (CompletesAll outer) (c :: text) ↔
      CompletesAll (LiteralStep.stack (.interpolated quote .plain start) outer
        ((OpenLiteral.interpolated quote .plain start).step pos c)) text := by
  have hne : quote ≠ '\\' ∧ quote ≠ '\x7b' := by
    constructor <;> (rintro rfl; exact absurd hquote (by decide))
  by_cases hescape : c = '\\'
  · subst hescape
    exact upto_of_ne hne.1.symm
  by_cases hbrace : c = '\x7b'
  · subst hbrace
    exact upto_of_ne hne.2.symm
  by_cases hc : c = quote
  · subst hc
    have hstep : (OpenLiteral.interpolated c .plain start).step pos c = .close := by
      simp [OpenLiteral.step, hescape, hbrace]
    rw [hstep]
    exact upto_close fun _ => not_whole_quote hquote (.inl rfl)
  · have hstep : (OpenLiteral.interpolated quote .plain start).step pos c =
        .stay (.interpolated quote .plain start) := by simp [OpenLiteral.step, hescape, hbrace, hc]
    rw [hstep]
    refine upto_plain hc fun rest => ?_
    by_cases hdollar : c = '$'
    · subst hdollar
      exact whole_dollar_iff
    · exact whole_plain_iff (by simp [Zone.plain, hescape, hbrace, hc, hdollar])

/-- Behind a brace only a `$` is read in another way. -/
theorem brace_cons (hquote : isQuote quote) :
    Upto (.quoted quote) quote ['\x7b'] (CompletesAll outer) (c :: text) ↔
      CompletesAll (LiteralStep.stack (.interpolated quote .brace start) outer
        ((OpenLiteral.interpolated quote .brace start).step pos c)) text := by
  by_cases hdollar : c = '$'
  · subst hdollar
    have hne : '$' ≠ quote := by rintro rfl; exact absurd hquote (by decide)
    exact (upto_of_ne hne).trans (upto_nest fun _ => whole_braceCode_iff)
  · have hstep : LiteralStep.stack (.interpolated quote .brace start) outer
          ((OpenLiteral.interpolated quote .brace start).step pos c) =
        LiteralStep.stack (.interpolated quote .plain start) outer
          ((OpenLiteral.interpolated quote .plain start).step pos c) := by
      grind [OpenLiteral.step, LiteralStep.stack]
    rw [hstep, ← quoted_cons hquote, upto_cons, upto_cons, whole_brace_iff rfl]
    exact or_congr_right (upto_congr fun _ => whole_brace_iff (by simpa [nextIs] using hdollar))

/-- A text completes open literals just when its first character leaves what the rest completes. -/
theorem completesAll_cons (pos : Nat) (hquote : isQuote (OpenLiteral.quote l)) :
    CompletesAll (l :: outer) (c :: text) ↔
      CompletesAll (LiteralStep.stack l outer (l.step pos c)) text := by
  match l with
  | .single true start => exact upto_escaped (by simp)
  | .single false start =>
    by_cases hescape : c = '\\'
    · subst hescape
      exact upto_of_ne (by decide)
    by_cases hc : c = '\''
    · subst hc
      exact upto_close fun _ => not_whole_quote rfl (.inr ⟨rfl, rfl⟩)
    · have hstep : (OpenLiteral.single false start).step pos c = .stay (.single false start) := by
        simp [OpenLiteral.step, hescape, hc]
      rw [hstep]
      exact upto_plain hc fun _ => whole_plain_iff (by simp [Zone.plain, hescape, hc])
  | .interpolated q .plain start => exact quoted_cons hquote
  | .interpolated q .escaped start => exact upto_escaped (by simp)
  | .interpolated q .brace start => exact brace_cons hquote
  | .interpolated q (.code more) start => exact embedded_cons

/-- An open literal needs at least its quote. -/
theorem not_completes_nil (l : OpenLiteral) : ¬ Completes Behind l [] := by
  have hnil : ∀ {zone close before Behind}, ¬ Upto zone close before Behind [] := by
    rintro zone close before Behind ⟨body, rest, heq, _⟩
    simp at heq
  match l with
  | .single _ _ | .interpolated _ .plain _ | .interpolated _ .escaped _
  | .interpolated _ .brace _ =>
    exact hnil
  | .interpolated _ (.code more) _ => cases more <;> exact hnil

end Steps

/-! ## Scans -/

section Scans

variable {c : Char} {cs taken left : Text} {pos : Nat}

theorem push_eq_ok {r : Except Nat (Text × Text)} :
    push c <$> r = .ok (taken, left) ↔ ∃ rest, taken = c :: rest ∧ r = .ok (rest, left) := by
  constructor
  · intro h
    cases r with
    | error => cases h
    | ok parts => cases h; exact ⟨parts.1, rfl, rfl⟩
  · rintro ⟨rest, rfl, rfl⟩
    rfl

/-- A text that completes open literals has a first character. -/
theorem completesAll_append_iff : c :: cs = taken ++ left ∧ CompletesAll (l :: outer) taken ↔
    ∃ rest, taken = c :: rest ∧ cs = rest ++ left ∧ CompletesAll (l :: outer) (c :: rest) := by
  constructor
  · rintro ⟨heq, h⟩
    rcases cons_eq_append_iff.1 heq with ⟨rfl, _⟩ | ⟨rest, rfl, rfl⟩
    · exact absurd h (not_completes_nil l)
    · exact ⟨rest, rfl, rfl, h⟩
  · rintro ⟨rest, rfl, rfl, h⟩
    exact ⟨rfl, h⟩

/-- A scan takes off a text just what completes its open literals. -/
theorem literalRest_iff (hquotes : ∀ l' ∈ l :: outer, isQuote (OpenLiteral.quote l')) :
    literalRest l outer pos cs = .ok (taken, left) ↔
      cs = taken ++ left ∧ CompletesAll (l :: outer) taken := by
  induction cs generalizing l outer pos taken with
  | nil =>
    refine ⟨nofun, fun ⟨hnil, h⟩ => ?_⟩
    rw [(append_eq_nil_iff.1 hnil.symm).1] at h
    exact absurd h (not_completes_nil l)
  | cons c cs ih =>
    have hstack := isQuote_stack hquotes pos c
    rw [completesAll_append_iff]
    simp only [completesAll_cons pos (hquotes l mem_cons_self), literalRest]
    cases hstep : l.step pos c with
    | stay | nest =>
      rw [hstep] at hstack
      simp only [push_eq_ok, ih hstack, LiteralStep.stack]
    | close =>
      rw [hstep] at hstack
      cases outer with
      | nil => simp [CompletesAll, LiteralStep.stack, eq_comm, and_comm]
      | cons next outer => simp only [push_eq_ok, ih hstack, LiteralStep.stack]

variable {quote : Char} {body : Text} {start : Nat}

/-- The scan of a literal takes the text up to the quote that closes it. -/
theorem literalRest_opened_iff (hquote : isQuote quote) :
    literalRest (opened quote start) [] pos cs = .ok (taken, left) ↔
      cs = taken ++ left ∧ Upto (.between quote) quote [] (· = []) taken := by
  rw [literalRest_iff (by simpa [quote_opened] using hquote), opened, Zone.between]
  split
  · next h => rw [eq_of_beq h]; rfl
  · rfl

/-- A literal is read in the same way wherever it stands and whatever is behind it. -/
theorem literalRest_ends {pos' start' : Nat} (hquote : isQuote quote)
    (h : literalRest (opened quote start) [] pos cs = .ok (taken, left)) (more : Text) :
    literalRest (opened quote start') [] pos' (taken ++ more) = .ok (taken, more) :=
  (literalRest_opened_iff hquote).2 ⟨rfl, ((literalRest_opened_iff hquote).1 h).2⟩

/-- It stops at a given quote exactly if what stands before that is whole. -/
theorem literalRest_between_iff (hquote : isQuote quote) :
    literalRest (opened quote start) [] pos (body ++ quote :: left) = .ok (body ++ [quote], left) ↔
      Whole false (.between quote) body := by
  simp [literalRest_opened_iff hquote, Upto]

/-- A literal ends in its quote. -/
theorem literalRest_last (hquote : isQuote quote)
    (h : literalRest (opened quote start) [] pos cs = .ok (taken, left)) :
    taken.getLast? = some quote := by
  obtain ⟨_, body, _, rfl, _, rfl⟩ := (literalRest_opened_iff hquote).1 h
  simp

end Scans

end LegacyPhp
