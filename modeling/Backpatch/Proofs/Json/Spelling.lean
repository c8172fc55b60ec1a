import Backpatch.Json.Token

/-!
# The texts of tokens

How the JSON grammar lets a sequence of tokens be written: with blanks anywhere between them, with
the characters of a string as they are or as any of their escapes, and with hexadecimal digits of
either case. The lexer takes every such text (`tokens?_of_spells`).
-/

namespace Backpatch.Json

open List

/-! ## The grammar -/

def blanks : List Char := [' ', '\t', '\n', '\r']

/-- A number ends where the text ends, or at a blank, a comma or a closing bracket. -/
def numberEnds : List Char := [',', ']', '\x7d'] ++ blanks

/-- The letters of the short escapes, each with the character that it stands for. -/
def shortEscapes : List (Char × Char) :=
  [('"', '"'), ('\\', '\\'), ('/', '/'), ('b', '\x08'), ('f', '\x0c'), ('n', '\n'), ('r', '\r'),
    ('t', '\t')]

/-- A hexadecimal digit of either case. -/
def SpellsHex (c : Char) (n : Nat) : Prop :=
  "0123456789abcdef".toList[n]? = some c ∨ "0123456789ABCDEF".toList[n]? = some c

/-- The four digits of a `\u` escape. -/
inductive SpellsUnit : List Char → Nat → Prop
  | digits {a b c d : Char} {i j k l : Nat} (ha : SpellsHex a i) (hb : SpellsHex b j)
      (hc : SpellsHex c k)
      (hd : SpellsHex d l) : SpellsUnit [a, b, c, d] (16 * (16 * (16 * i + j) + k) + l)

/-- A character inside a string. -/
inductive SpellsChar : List Char → Char → Prop
  | raw {c : Char} (quote : c ≠ '"') (backslash : c ≠ '\\') (visible : 0x20 ≤ c.toNat) :
    SpellsChar [c] c
  | short {letter c : Char} (h : (letter, c) ∈ shortEscapes) : SpellsChar ['\\', letter] c
  | unit {digits : List Char} {c : Char} (h : SpellsUnit digits c.toNat) : SpellsChar
    ('\\' :: 'u' :: digits) c
  /-- A character beyond the first plane is a pair of surrogates. -/
  | pair {digits digits' : List Char} {c : Char} {high low : Nat}
      (leading : SpellsUnit digits (0xD800 + high))
      (trailing : SpellsUnit digits' (0xDC00 + low)) (range : high < 0x400) (range' : low < 0x400)
      (value : c.toNat = 0x10000 + high * 0x400 + low) :
      SpellsChar ('\\' :: 'u' :: digits ++ '\\' :: 'u' :: digits') c

inductive SpellsChars : List Char → List Char → Prop
  | nil : SpellsChars [] []
  | cons {first rest : List Char} {c : Char} {cs : List Char} (head : SpellsChar first c)
      (tail : SpellsChars rest cs) : SpellsChars (first ++ rest) (c :: cs)

/-- A part of a number that may be missing: a mark, and digits behind it. -/
inductive SpellsPart (marks : List (List Char)) : List Char → Prop
  | none : SpellsPart marks []
  | digits {mark ds : List Char} (h : mark ∈ marks) (digits : Decimal.isDigits ds = true) :
    SpellsPart marks (mark ++ ds)

def exponentMarks : List (List Char) :=
  [['e'], ['E'], ['e', '+'], ['e', '-'], ['E', '+'], ['E', '-']]

inductive SpellsToken : List Char → Token → Prop
  | openBrace : SpellsToken ['\x7b'] .openBrace
  | closeBrace : SpellsToken ['\x7d'] .closeBrace
  | openBracket : SpellsToken ['['] .openBracket
  | closeBracket : SpellsToken [']'] .closeBracket
  | colon : SpellsToken [':'] .colon
  | comma : SpellsToken [','] .comma
  | null : SpellsToken "null".toList .null
  | true : SpellsToken "true".toList (.bool true)
  | false : SpellsToken "false".toList (.bool false)
  /-- No zero stands before other digits. -/
  | nat {c : Char} {cs : List Char} (digits : ∀ d ∈ c :: cs, d.isDigit = Bool.true)
      (leading : c = '0' → cs = []) : SpellsToken (c :: cs) (.nat (Decimal.value (c :: cs)))
  /-- Any other number keeps its spelling. -/
  | number {sign cs fraction exponent text : List Char} {c : Char} (signed : sign = [] ∨
      sign = ['-'])
      (digits : ∀ d ∈ c :: cs, d.isDigit = Bool.true) (leading : c = '0' → cs = [])
      (hf : SpellsPart [['.']] fraction)
      (he : SpellsPart exponentMarks exponent)
      (written : text = sign ++ (c :: cs ++ (fraction ++ exponent)))
      (other : Decimal.isDigits text = Bool.false) : SpellsToken text (.number (String.ofList text))
  | string {chars : List Char} {text : String} (h : SpellsChars chars text.toList) :
      SpellsToken ('"' :: chars ++ ['"']) (.string (some text))

def Token.isNumber : Token → Bool
  | .nat _ | .number _ => true
  | _ => false

/-- A text that may follow a number. -/
def EndsNumber (text : List Char) : Prop := ∀ c, text.head? = some c → c ∈ numberEnds

inductive SpellsTokens : List Char → List Token → Prop
  | nil : SpellsTokens [] []
  | blank {c : Char} {text : List Char} {tokens : List Token} (h : c ∈ blanks)
      (rest : SpellsTokens text tokens) : SpellsTokens (c :: text) tokens
  | token {first text : List Char} {t : Token} {tokens : List Token} (head : SpellsToken first t)
      (apart : t.isNumber = true → EndsNumber text) (rest : SpellsTokens text tokens) :
      SpellsTokens (first ++ text) (t :: tokens)

/-! ## The lexer -/

namespace Lexer

/-- The lexer after a text. -/
def run (l : Lexer) (text : List Char) : Option Lexer := text.foldlM step l

theorem run_nil (l : Lexer) : l.run [] = some l := rfl

theorem run_cons (l : Lexer) (c : Char) (text : List Char) :
    l.run (c :: text) = (l.step c).bind (·.run text) := rfl

theorem run_append (l : Lexer) (text rest : List Char) :
    l.run (text ++ rest) = (l.run text).bind (·.run rest) :=
  foldlM_append

theorem run_append_of {l l' : Lexer} {text : List Char} (h : l.run text = some l')
    (rest : List Char) : l.run (text ++ rest) = l'.run rest := by
  rw [run_append, h]
  rfl

end Lexer

/-! ## Strings -/

variable {c : Char} {text : List Char} {n high : Nat} {s : StringPart}

theorem hexValue?_of_spells (h : SpellsHex c n) : hexValue? c = some n := by
  have lower : ∀ i : Fin 16, hexValue? ("0123456789abcdef".toList.get i) = some i.val := by decide
  have upper : ∀ i : Fin 16, hexValue? ("0123456789ABCDEF".toList.get i) = some i.val := by decide
  rcases h with h | h
  · obtain ⟨range, rfl⟩ := List.getElem?_eq_some_iff.mp h
    exact lower ⟨n, range⟩
  · obtain ⟨range, rfl⟩ := List.getElem?_eq_some_iff.mp h
    exact upper ⟨n, range⟩

/-- The lexer inside a string. -/
def inside (s : StringPart) (tokens : List Token) : Lexer := { mode := .string s, tokens := tokens }

theorem step_backslash (plain : s.escape = .none) (tokens : List Token) :
    (inside s tokens).step '\\' = some (inside { s with escape := .backslash } tokens) := by
  show Lexer.stepString _ s '\\' = _
  unfold Lexer.stepString
  rw [plain]
  rfl

theorem step_hex (h : SpellsHex c n) (s : StringPart) (missing value : Nat) (tokens : List Token) :
    (inside { s with escape := .hex (missing + 1) value } tokens).step c
      = some (inside { s with escape := .hex missing (16 * value + n) } tokens) := by
  show Option.map _ (hexValue? c) = _
  rw [hexValue?_of_spells h]
  rfl

theorem step_lastHex (h : SpellsHex c n) (s : StringPart) (value : Nat) (tokens : List Token) :
    (inside { s with escape := .hex 0 value } tokens).step c
      = some (inside (s.pushUnit (16 * value + n)) tokens) := by
  show Option.map _ (hexValue? c) = _
  rw [hexValue?_of_spells h]
  rfl

theorem run_unit {digits : List Char} {unit : Nat} (h : SpellsUnit digits unit)
    (plain : s.escape = .none) (tokens : List Token) :
    (inside s tokens).run ('\\' :: 'u' :: digits) = some (inside (s.pushUnit unit) tokens) := by
  cases h with
  | digits ha hb hc hd =>
    have letter : (inside { s with escape := .backslash } tokens).step 'u'
        = some (inside { s with escape := .hex 3 0 } tokens) := rfl
    simp only [Lexer.run_cons, Lexer.run_nil, Option.bind_some, step_backslash plain, letter,
      step_hex ha, step_hex hb, step_hex hc, step_lastHex hd, Nat.mul_zero, Nat.zero_add]

/-- The unit of a character is no surrogate. -/
theorem pushUnit_toNat (chars : List Char) (c : Char) :
    StringPart.pushUnit { chars := chars } c.toNat = { chars := c :: chars } := by
  have valid : c.toNat < 0xD800 ∨ 0xDFFF < c.toNat ∧ c.toNat < 0x110000 := c.valid
  show (if _ then _ else if _ then _ else _) = _
  rw [if_neg (by omega), if_neg (by omega), Char.ofNat_toNat]
  rfl

theorem pushUnit_leading (chars : List Char) (range : high < 0x400) :
    StringPart.pushUnit { chars := chars } (0xD800 + high)
      = { chars := chars, leading := some (0xD800 + high) } := by
  show (if _ then _ else _) = _
  rw [if_pos (by omega)]

theorem pushUnit_trailing (chars : List Char) {low : Nat} (range : low < 0x400)
    (value : c.toNat = 0x10000 + high * 0x400 + low) :
    StringPart.pushUnit { chars := chars, leading := some (0xD800 + high) } (0xDC00 + low)
      = { chars := c :: chars } := by
  show (if _ then _ else _) = _
  rw [if_pos (by omega), Nat.add_sub_cancel_left, Nat.add_sub_cancel_left, ← value,
    Char.ofNat_toNat]

theorem run_char (h : SpellsChar text c) (chars : List Char) (tokens : List Token) :
    (inside { chars := chars } tokens).run text = some (inside { chars := c :: chars } tokens) := by
  cases h with
  | raw quote backslash visible =>
    show (if _ then _ else if _ then _ else if _ then _ else _ : Option Lexer).bind _ = _
    rw [if_neg quote, if_neg backslash, if_neg (Nat.not_lt.mpr visible)]
    rfl
  | short h =>
    have known : ∀ entry ∈ shortEscapes, escaped? entry.1 = some entry.2 ∧
      entry.1 ≠ 'u' := by decide
    obtain ⟨escaped, other⟩ := known _ h
    rw [Lexer.run_cons, step_backslash rfl, Option.bind_some, Lexer.run_cons]
    show (if _ then _ else Option.map _ (escaped? _) : Option Lexer).bind _ = _
    rw [if_neg other, escaped]
    rfl
  | unit h => rw [run_unit h rfl, pushUnit_toNat]
  | pair leading trailing range range' value =>
    rw [Lexer.run_append_of (run_unit leading rfl tokens), pushUnit_leading chars range,
      run_unit trailing rfl, pushUnit_trailing chars range' value]

theorem run_chars {chars : List Char} (h : SpellsChars text chars) (before : List Char)
    (tokens : List Token) :
    (inside { chars := before } tokens).run text
      = some (inside { chars := chars.reverse ++ before } tokens) := by
  induction h generalizing before with
  | nil => rfl
  | cons head tail ih =>
    rw [Lexer.run_append_of (run_char head before tokens), ih, reverse_cons, append_assoc]
    rfl

/-! ## Numbers -/

/-- The part that a number is in after more of its characters. -/
def NumberPart.after (part : NumberPart) (text : List Char) : Option NumberPart :=
  text.foldlM next? part

variable {part next : NumberPart} {cs fraction exponent : List Char}

theorem after_append_of (h : part.after text = some next) (rest : List Char) :
    part.after (text ++ rest) = next.after rest := by
  unfold NumberPart.after at h ⊢
  rw [foldlM_append, h]
  rfl

theorem after_cons_of (h : part.next? c = some next) (rest : List Char) :
    part.after (c :: rest) = next.after rest := by
  unfold NumberPart.after
  rw [foldlM_cons, h]
  rfl

theorem after_digits (stays : ∀ d, d.isDigit = true → part.next? d = some part)
    (digits : ∀ d ∈ text, d.isDigit = true) : part.after text = some part := by
  induction text with
  | nil => rfl
  | cons c text ih =>
    obtain ⟨digit, digits⟩ := forall_mem_cons.mp digits
    exact (after_cons_of (stays c digit) text).trans (ih digits)

theorem after_isDigits {before : NumberPart}
    (enters : ∀ d, d.isDigit = true → before.next? d = some part)
    (stays : ∀ d, d.isDigit = true → part.next? d = some part) (h : Decimal.isDigits text = true) :
    before.after text = some part := by
  cases text with
  | nil => cases h
  | cons c text =>
    obtain ⟨digit, digits⟩ := forall_mem_cons.mp (all_eq_true.mp h)
    exact (after_cons_of (enters c digit) text).trans (after_digits stays digits)

/-- The parts of a number behind its sign. -/
theorem after_number (digits : ∀ d ∈ c :: cs, d.isDigit = true) (leading : c = '0' → cs = [])
    (hf : SpellsPart [['.']] fraction) (he : SpellsPart exponentMarks exponent) :
    ∃ last, NumberPart.minus.after (c :: cs ++ (fraction ++ exponent)) = some last ∧
      last.isEnd = true := by
  have whole : ∃ part ∈ [NumberPart.zero, .digits], NumberPart.minus.after (c :: cs)
      = some part := by
    by_cases zero : c = '0'
    · subst zero
      rw [leading rfl]
      exact ⟨.zero, by decide, rfl⟩
    · obtain ⟨digit, others⟩ := forall_mem_cons.mp digits
      have first : NumberPart.minus.next? c = some .digits := (if_neg zero).trans (if_pos digit)
      exact ⟨.digits, by decide, (after_cons_of first cs).trans
        (after_digits (fun d digit => if_pos digit) others)⟩
  obtain ⟨part, mem, whole⟩ := whole
  have behind : ∃ next ∈ [NumberPart.zero, .digits, .fraction], part.after fraction
      = some next := by
    cases hf with
    | none => exact ⟨part, mem_append_left [NumberPart.fraction] mem, rfl⟩
    | digits mark digits =>
      rw [mem_singleton.mp mark]
      have point : ∀ part ∈ [NumberPart.zero, .digits], part.after ['.'] = some .point := by decide
      rw [after_append_of (point part mem)]
      exact ⟨.fraction, by decide, after_isDigits (fun d digit => if_pos digit)
        (fun d digit => if_pos digit) digits⟩
  obtain ⟨next, mem', behind⟩ := behind
  rw [after_append_of whole, after_append_of behind]
  cases he with
  | none =>
    have ends : ∀ part ∈ [NumberPart.zero, .digits, .fraction], part.isEnd = true := by decide
    exact ⟨next, rfl, ends next mem'⟩
  | @digits mark ds h digits =>
    have marks : ∀ mark ∈ exponentMarks, ∀ part ∈ [NumberPart.zero, .digits, .fraction],
        part.after mark = some .exponent ∨ part.after mark = some .exponentSign := by decide
    refine ⟨.exponentDigits, ?_, rfl⟩
    rcases marks mark h next mem' with eq | eq <;> rw [after_append_of eq] <;>
      exact after_isDigits (fun d digit => if_pos digit) (fun d digit => if_pos digit) digits

/-- The lexer is in the part of the number that its characters lead to. -/
theorem run_parts {last : NumberPart} (h : part.after text = some last) (spelling : List Char)
    (tokens : List Token) : Lexer.run { mode := .number part spelling, tokens := tokens } text
      = some { mode := .number last (text.reverse ++ spelling), tokens := tokens } := by
  induction text generalizing part spelling with
  | nil =>
    cases h
    rfl
  | cons c text ih =>
    obtain ⟨next, step, rest⟩ := Option.bind_eq_some_iff.mp h
    have stepped : Lexer.step { mode := .number part spelling, tokens := tokens } c
        = some { mode := .number next (c :: spelling), tokens := tokens } := by
      unfold Lexer.step
      simp only [step]
      rfl
    rw [Lexer.run_cons, stepped, Option.bind_some, ih rest, reverse_cons, append_assoc]
    rfl

/-- The token of a number. -/
def numberToken (text : List Char) : Token :=
  if Decimal.isDigits text then .nat (Decimal.value text) else .number (String.ofList text)

theorem closeNumber_eq (l : Lexer) (spelling : List Char) :
    l.closeNumber spelling = { tokens := numberToken spelling.reverse :: l.tokens } := by
  unfold Lexer.closeNumber numberToken
  dsimp only
  split <;> rfl

/-- Behind a number, whatever may follow it is read as between two tokens. -/
theorem run_of_endsNumber (isEnd : part.isEnd = true) (spelling : List Char)
    (ends : EndsNumber text) (tokens : List Token) :
    (Lexer.run { mode := .number part spelling, tokens := tokens } text).bind Lexer.finish
      = (Lexer.run { tokens := numberToken spelling.reverse :: tokens } text).bind
        Lexer.finish := by
  cases text with
  | nil =>
    show (if part.isEnd = true then _ else _) = _
    rw [if_pos isEnd, closeNumber_eq]
    rfl
  | cons c text =>
    have stops : numberEnds.all (fun c => part.next? c == none) = true := by
      cases part with
      | zero | digits | fraction | exponentDigits => decide
      | minus | point | exponent | exponentSign => cases isEnd
    have stop : part.next? c = none := eq_of_beq (all_eq_true.mp stops c (ends c rfl))
    have step : Lexer.step { mode := .number part spelling, tokens := tokens } c
        = Lexer.step { tokens := numberToken spelling.reverse :: tokens } c := by
      unfold Lexer.step
      simp only [stop, isEnd, if_true, closeNumber_eq]
    rw [Lexer.run_cons, Lexer.run_cons, step]

/-- A number without a sign begins as one with a sign goes on. -/
theorem step_digit (digit : c.isDigit = true) (tokens : List Token) :
    Lexer.step { tokens := tokens } c
      = Lexer.step { mode := .number .minus [], tokens := tokens } c := by
  by_cases zero : c = '0'
  · subst zero
    rfl
  · have first : NumberPart.minus.next? c = some .digits := (if_neg zero).trans (if_pos digit)
    show Lexer.stepGap _ c = _
    unfold Lexer.stepGap Lexer.step
    simp only [first]
    split <;> first | exact absurd digit (by decide) | exact absurd rfl zero | exact if_pos digit

/-- The lexer takes a number, and the text behind it as if it were between two tokens. -/
theorem run_number {sign : List Char} (signed : sign = [] ∨ sign = ['-'])
    (digits : ∀ d ∈ c :: cs, d.isDigit = true)
    (leading : c = '0' → cs = []) (hf : SpellsPart [['.']] fraction)
    (he : SpellsPart exponentMarks exponent) (ends : EndsNumber text) (tokens : List Token) :
    (Lexer.run { tokens := tokens } (sign ++ (c :: cs ++ (fraction ++ exponent)) ++ text)).bind
      Lexer.finish
      = (Lexer.run { tokens := numberToken (sign ++ (c :: cs ++ (fraction ++ exponent))) :: tokens }
        text).bind Lexer.finish := by
  obtain ⟨last, parts, isEnd⟩ := after_number digits leading hf he
  have start : Lexer.run { tokens := tokens } (sign ++ (c :: cs ++ (fraction ++ exponent)))
      = Lexer.run { mode := .number .minus sign.reverse, tokens := tokens }
        (c :: cs ++ (fraction ++ exponent)) := by
    rcases signed with rfl | rfl
    · rw [nil_append, cons_append, Lexer.run_cons, Lexer.run_cons,
        step_digit (digits c mem_cons_self)]
      rfl
    · rfl
  rw [run_parts parts] at start
  rw [Lexer.run_append_of start, run_of_endsNumber isEnd _ ends, ← reverse_append, reverse_reverse]

/-! ## Texts -/

/-- The lexer takes a token, and the text behind it as if it were between two tokens. -/
theorem run_token {first : List Char} {t : Token} (h : SpellsToken first t)
    (apart : t.isNumber = true → EndsNumber text) (tokens : List Token) :
    (Lexer.run { tokens := tokens } (first ++ text)).bind Lexer.finish
      = (Lexer.run { tokens := t :: tokens } text).bind Lexer.finish := by
  cases h with
  | openBrace | closeBrace | openBracket | closeBracket | colon | comma | null | true | false => rfl
  | @nat c cs digits leading =>
    have isDigits : Decimal.isDigits (c :: cs) = true := all_eq_true.mpr digits
    have ran := run_number (.inl rfl) digits leading .none .none (apart rfl) tokens
    rwa [List.append_nil, List.append_nil, nil_append, numberToken, if_pos isDigits] at ran
  | number signed digits leading hf he written other =>
    have ran := run_number signed digits leading hf he (apart rfl) tokens
    rwa [← written, numberToken, other] at ran
  | @string chars value h =>
    have ran : Lexer.run { tokens := tokens } ('"' :: chars ++ ['"'])
        = some { tokens := .string (some value) :: tokens } := by
      show (inside {} tokens).run (chars ++ ['"']) = _
      rw [Lexer.run_append_of (run_chars h [] tokens), List.append_nil]
      show some (Lexer.push _ (.string (some (String.ofList value.toList.reverse.reverse)))) = _
      rw [reverse_reverse, String.ofList_toList]
      rfl
    rw [Lexer.run_append_of ran]

theorem step_blank (h : c ∈ blanks) (tokens : List Token) :
    Lexer.step { tokens := tokens } c = some { tokens := tokens } := by
  unfold blanks at h
  simp only [mem_cons, not_mem_nil, or_false] at h
  rcases h with rfl | rfl | rfl | rfl <;> rfl

theorem finish_of_spells {ts : List Token} (h : SpellsTokens text ts) (tokens : List Token) :
    (Lexer.run { tokens := tokens } text).bind Lexer.finish = some (tokens.reverse ++ ts) := by
  induction h generalizing tokens with
  | nil => simp [Lexer.run, Lexer.finish]
  | blank h rest ih => rw [Lexer.run_cons, step_blank h, Option.bind_some, ih]
  | token head apart rest ih =>
    rw [run_token head apart, ih, reverse_cons, append_assoc]
    rfl

/-- The lexer finds the tokens that a text spells. -/
theorem tokens?_of_spells {tokens : List Token} (h : SpellsTokens text tokens) :
    tokens? text = some tokens :=
  finish_of_spells h []

end Backpatch.Json
