import Backpatch.Json.Printer
import Backpatch.Json.Reader
import Backpatch.Proofs.Json.Spelling

/-!
# The texts of values

A text spells a value if it spells its tokens. Every text of a value reads back as the value
(`parse?_of_spells`), and what the printer writes is one of them (`spells_render`).
-/

namespace Backpatch.Json

open List

/-! ## Tokens -/

mutual

def tokens : Json → List Token
  | .null => [.null]
  | .bool value => [.bool value]
  | .nat value => [.nat value]
  | .number spelling => [.number spelling]
  | .string text => [.string text]
  | .array [] => [.openBracket, .closeBracket]
  | .array (item :: items) => .openBracket :: tokens item ++ tokensItems items ++ [.closeBracket]
  | .object [] => [.openBrace, .closeBrace]
  | .object ((key, value) :: fields) =>
    .openBrace :: .string key :: .colon :: tokens value ++ tokensFields fields ++ [.closeBrace]

/-- The items after the first, each behind a comma. -/
def tokensItems : List Json → List Token
  | [] => []
  | item :: items => .comma :: tokens item ++ tokensItems items

/-- The fields after the first, each behind a comma. -/
def tokensFields : List (Text × Json) → List Token
  | [] => []
  | (key, value) :: fields => .comma :: .string key :: .colon :: tokens value ++ tokensFields fields

end

/-- The text is JSON for the value. -/
def Spells (text : String) (json : Json) : Prop := SpellsTokens text.toList json.tokens

/-! ## Reading -/

namespace Reader

/-- The reader after tokens. -/
def run (reader : Reader) (tokens : List Token) : Option Reader := tokens.foldlM step reader

theorem run_cons (reader : Reader) (t : Token) (tokens : List Token) :
    reader.run (t :: tokens) = (reader.step t).bind (·.run tokens) := rfl

theorem run_append_of {reader reader' : Reader} {tokens : List Token}
    (h : reader.run tokens = some reader')
    (rest : List Token) : reader.run (tokens ++ rest) = reader'.run rest := by
  unfold run at h ⊢
  rw [foldlM_append, h]
  rfl

end Reader

/-- No value starts with the end of an array. -/
theorem tokens_eq_cons (json : Json) : ∃ t ts, json.tokens = t :: ts ∧ t ≠ .closeBracket := by
  cases json with
  | null | bool | nat | number | string => exact ⟨_, _, by rw [tokens], by rintro ⟨⟩⟩
  | array items =>
    cases items with
    | nil => exact ⟨_, _, by rw [tokens], by decide⟩
    | cons => exact ⟨.openBracket, _, by rw [tokens]; rfl, by decide⟩
  | object fields =>
    cases fields with
    | nil => exact ⟨_, _, by rw [tokens], by decide⟩
    | cons => exact ⟨.openBrace, _, by rw [tokens]; rfl, by decide⟩

theorem run_firstItem (json : Json) (rest : List Token) (stack : List Enclosing) :
    (Reader.firstItem stack).run (json.tokens ++ rest) = (Reader.value (.array [] :: stack)).run
      (json.tokens ++ rest) := by
  obtain ⟨t, ts, eq, other⟩ := json.tokens_eq_cons
  have step : (Reader.firstItem stack).step t = (Reader.value (.array [] :: stack)).step t :=
    if_neg other
  rw [eq, cons_append, Reader.run_cons, Reader.run_cons, step]

mutual

theorem run_tokens : ∀ (json : Json) (stack : List Enclosing),
    (Reader.value stack).run json.tokens = some (.complete json stack)
  | .null, _ | .bool _, _ | .nat _, _ | .number _, _ | .string _, _ | .array [],
      _ | .object [], _ => by
    rw [tokens]
    rfl
  | .array (item :: items), stack => by
    rw [tokens, append_assoc]
    -- Behind the open bracket the reader expects an item or the end.
    show (Reader.firstItem stack).run (tokens item ++ (tokensItems items ++ [.closeBracket])) = _
    rw [run_firstItem, Reader.run_append_of (run_tokens item _)]
    exact run_items items item [] stack
  | .object ((key, value) :: fields), stack => by
    rw [tokens, append_assoc]
    show (Reader.value (.object [] key :: stack)).run
      (tokens value ++ (tokensFields fields ++ [.closeBrace])) = _
    rw [Reader.run_append_of (run_tokens value _)]
    exact run_fields fields key value [] stack

theorem run_items :
    ∀ (items : List Json) (last : Json) (before : List Json) (stack : List Enclosing),
    (Reader.complete last (.array before :: stack)).run (tokensItems items ++ [.closeBracket])
      = some (.complete (.array ((last :: before).reverse ++ items)) stack)
  | [], last, before, stack => by
    rw [tokensItems, List.append_nil]
    rfl
  | item :: items, last, before, stack => by
    rw [tokensItems, append_assoc]
    show (Reader.value (.array (last :: before) :: stack)).run
      (tokens item ++ (tokensItems items ++ [.closeBracket])) = _
    rw [Reader.run_append_of (run_tokens item _), run_items items item (last :: before) stack,
      reverse_cons, append_assoc]
    rfl

theorem run_fields :
    ∀ (fields : List (Text × Json)) (key : Text) (last : Json) (before : List (Text × Json))
    (stack : List Enclosing),
    (Reader.complete last (.object before key :: stack)).run (tokensFields fields ++ [.closeBrace])
      = some (.complete (.object (((key, last) :: before).reverse ++ fields)) stack)
  | [], key, last, before, stack => by
    rw [tokensFields, List.append_nil]
    rfl
  | (name, value) :: fields, key, last, before, stack => by
    rw [tokensFields, append_assoc]
    show (Reader.value (.object ((key, last) :: before) name :: stack)).run
      (tokens value ++ (tokensFields fields ++ [.closeBrace])) = _
    rw [Reader.run_append_of (run_tokens value _),
      run_fields fields name value ((key, last) :: before) stack, reverse_cons, append_assoc]
    rfl

end

theorem ofTokens?_tokens (json : Json) : ofTokens? json.tokens = some json := by
  show ((Reader.value []).run json.tokens).bind Reader.finish = some json
  rw [run_tokens]
  rfl

variable {json : Json} {n : Nat} {rest text : List Char} {t : Token} {ts : List Token} {c : Char}

/-- A text reads back as the value that it spells. -/
theorem parse?_of_spells {text : String} (h : Spells text json) : parse? text = some json := by
  unfold parse?
  rw [tokens?_of_spells h, Option.bind_some, ofTokens?_tokens]

/-! ## Printing -/

mutual

/-- All numbers of the value are unsigned, and all of its strings have a text. -/
def isPlain : Json → Bool
  | .null | .bool _ | .nat _ => true
  | .number _ => false
  | .string text => text.isSome
  | .array items => isPlainItems items
  | .object fields => isPlainFields fields

def isPlainItems : List Json → Bool
  | [] => true
  | item :: items => isPlain item && isPlainItems items

def isPlainFields : List (Text × Json) → Bool
  | [] => true
  | (key, value) :: fields => key.isSome && isPlain value && isPlainFields fields

end

theorem spellsHex_lowerHexDigit (h : n < 16) : SpellsHex (lowerHexDigit n) n := by
  have digit : ∀ i : Fin 16, "0123456789abcdef".toList[i.val]?
    = some (lowerHexDigit i.val) := by decide
  exact .inl (digit ⟨n, h⟩)

theorem spellsChar_printChar (c : Char) : SpellsChar (printChar c) c := by
  unfold printChar
  -- The short escapes, then the other control characters, then all that needs no escape.
  iterate 5
    split
    · subst c
      exact .short (by decide)
  split
  · rename_i control
    have zero : SpellsHex '0' 0 := .inl rfl
    have digits :=
      SpellsUnit.digits zero zero (spellsHex_lowerHexDigit (show c.toNat / 16 < 16 by omega))
      (spellsHex_lowerHexDigit (show c.toNat % 16 < 16 by omega))
    have value : 16 * (16 * (16 * 0 + 0) + c.toNat / 16) + c.toNat % 16 = c.toNat := by omega
    rw [value] at digits
    exact .unit digits
  · exact .raw ‹_› ‹_› (Nat.not_lt.mp ‹_›)

theorem spellsToken_printText (text : String) :
    SpellsToken (printText (some text)) (.string (some text)) := by
  have chars : ∀ cs : List Char, SpellsChars (cs.flatMap printChar) cs := by
    intro cs
    induction cs with
    | nil => exact .nil
    | cons c cs ih => exact .cons (spellsChar_printChar c) ih
  exact .string (chars text.toList)

/-- No number is written with a zero in front, but for zero itself. -/
theorem eq_zero_of_toDigits {cs : List Char} (h : Nat.toDigits 10 n = '0' :: cs) : n = 0 := by
  induction n using Nat.strongRecOn generalizing cs with
  | ind n ih =>
    rw [Nat.toDigits_eq_if (by decide)] at h
    split at h
    · exact Nat.digitChar_eq_zero.mp (List.cons.inj h).1
    · rename_i large
      cases front : Nat.toDigits 10 (n / 10) with
      | nil => exact absurd front Nat.toDigits_ne_nil
      | cons d ds =>
        rw [front] at h
        rw [(List.cons.inj h).1] at front
        have := ih (n / 10) (by omega) front
        omega

theorem spellsToken_toDigits (n : Nat) : SpellsToken (Nat.toDigits 10 n) (.nat n) := by
  have value : Decimal.value (Nat.toDigits 10 n) = n :=
    Nat.ofDigitChars_toDigits (by decide) (by decide)
  have digits : ∀ d ∈ Nat.toDigits 10 n, d.isDigit = true := fun d mem =>
    Nat.isDigit_of_mem_toDigits (by decide) (by decide) mem
  cases written : Nat.toDigits 10 n with
  | nil => exact absurd written Nat.toDigits_ne_nil
  | cons c cs =>
    rw [written] at value digits
    have spells : SpellsToken (c :: cs) (.nat (Decimal.value (c :: cs))) := by
      refine .nat digits ?_
      rintro rfl
      rw [eq_zero_of_toDigits written, Nat.toDigits_zero] at written
      exact (List.cons.inj written).2.symm
    rwa [value] at spells

theorem SpellsTokens.other {first : List Char} (head : SpellsToken first t)
    (notNumber : t.isNumber = false)
    (rest : SpellsTokens text ts) : SpellsTokens (first ++ text) (t :: ts) :=
  .token head (fun isNumber => absurd (notNumber.symm.trans isNumber) (by decide)) rest

theorem SpellsTokens.mark (head : SpellsToken [c] t) (notNumber : t.isNumber = false)
    (rest : SpellsTokens text ts) : SpellsTokens (c :: text) (t :: ts) :=
  .other head notNumber rest

theorem endsNumber_cons (h : c ∈ numberEnds) (text : List Char) : EndsNumber (c :: text) := by
  rintro _ ⟨⟩
  exact h

theorem endsNumber_printItems (items : List Json) (h : EndsNumber rest) :
    EndsNumber (printItems items ++ rest) := by
  cases items with
  | nil =>
    rw [printItems]
    exact h
  | cons item items =>
    rw [printItems]
    exact endsNumber_cons (by decide) _

theorem endsNumber_printFields (fields : List (Text × Json)) (h : EndsNumber rest) :
    EndsNumber (printFields fields ++ rest) := by
  cases fields with
  | nil =>
    rw [printFields]
    exact h
  | cons field fields =>
    rw [printFields]
    exact endsNumber_cons (by decide) _

mutual

theorem spellsTokens_print : ∀ (json : Json), json.isPlain = true →
    ∀ {rest : List Char} {ts : List Token},
    EndsNumber rest → SpellsTokens rest ts → SpellsTokens (json.print ++ rest) (json.tokens ++ ts)
  | .null, _, _, _, _, h => by
    rw [print, tokens]
    exact .other .null rfl h
  | .bool true, _, _, _, _, h => by
    rw [print, tokens]
    exact .other .true rfl h
  | .bool false, _, _, _, _, h => by
    rw [print, tokens]
    exact .other .false rfl h
  | .nat n, _, _, _, ends, h => by
    rw [print, tokens]
    exact .token (spellsToken_toDigits n) (fun _ => ends) h
  | .number _, plain, _, _, _, _ | .string none, plain, _, _, _, _ => by
    rw [isPlain] at plain
    cases plain
  | .string (some text), _, _, _, _, h => by
    rw [print, tokens]
    exact .other (spellsToken_printText text) rfl h
  | .array [], _, _, _, _, h => by
    rw [print, tokens]
    exact .mark .openBracket rfl (.mark .closeBracket rfl h)
  | .array (item :: items), plain, rest, ts, _, h => by
    rw [isPlain, isPlainItems, Bool.and_eq_true] at plain
    have close : SpellsTokens ([']'] ++ rest) (.closeBracket :: ts) :=
      .mark .closeBracket rfl h
    -- The last item may be a number, which the bracket ends.
    have ends : EndsNumber ([']'] ++ rest) := endsNumber_cons (by decide) _
    have inner := spellsTokens_print item plain.1 (endsNumber_printItems items ends)
      (spellsTokens_printItems items plain.2 ends close)
    rw [print, tokens]
    simp only [cons_append, append_assoc] at inner ⊢
    exact .mark .openBracket rfl inner
  | .object [], _, _, _, _, h => by
    rw [print, tokens]
    exact .mark .openBrace rfl (.mark .closeBrace rfl h)
  | .object ((none, value) :: fields), plain, rest, ts, _, h => by
    rw [isPlain, isPlainFields] at plain
    cases plain
  | .object ((some key, value) :: fields), plain, rest, ts, _, h => by
    rw [isPlain, isPlainFields, Bool.and_eq_true, Bool.and_eq_true] at plain
    have close : SpellsTokens (['\x7d'] ++ rest) (.closeBrace :: ts) :=
      .mark .closeBrace rfl h
    have ends : EndsNumber (['\x7d'] ++ rest) := endsNumber_cons (by decide) _
    have inner := spellsTokens_print value plain.1.2 (endsNumber_printFields fields ends)
      (spellsTokens_printFields fields plain.2 ends close)
    rw [print, tokens]
    simp only [cons_append, append_assoc] at inner ⊢
    exact .mark .openBrace rfl (.other (spellsToken_printText key) rfl (.mark .colon rfl inner))

theorem spellsTokens_printItems : ∀ (items : List Json), isPlainItems items = true →
    ∀ {rest : List Char} {ts : List Token}, EndsNumber rest → SpellsTokens rest ts →
      SpellsTokens (printItems items ++ rest) (tokensItems items ++ ts)
  | [], _, _, _, _, h => by
    rw [printItems, tokensItems]
    exact h
  | item :: items, plain, rest, ts, ends, h => by
    rw [isPlainItems, Bool.and_eq_true] at plain
    have inner := spellsTokens_print item plain.1 (endsNumber_printItems items ends)
      (spellsTokens_printItems items plain.2 ends h)
    rw [printItems, tokensItems]
    simp only [cons_append, append_assoc]
    exact .mark .comma rfl inner

theorem spellsTokens_printFields : ∀ (fields : List (Text × Json)), isPlainFields fields = true →
    ∀ {rest : List Char} {ts : List Token}, EndsNumber rest → SpellsTokens rest ts →
      SpellsTokens (printFields fields ++ rest) (tokensFields fields ++ ts)
  | [], _, _, _, _, h => by
    rw [printFields, tokensFields]
    exact h
  | (none, value) :: fields, plain, _, _, _, _ => by
    rw [isPlainFields] at plain
    cases plain
  | (some key, value) :: fields, plain, rest, ts, ends, h => by
    rw [isPlainFields, Bool.and_eq_true, Bool.and_eq_true] at plain
    have inner := spellsTokens_print value plain.1.2 (endsNumber_printFields fields ends)
      (spellsTokens_printFields fields plain.2 ends h)
    rw [printFields, tokensFields]
    simp only [cons_append, append_assoc]
    exact .mark .comma rfl (.other (spellsToken_printText key) rfl (.mark .colon rfl inner))

end

/-- What is printed is a text of the value. -/
theorem spells_render (plain : json.isPlain = true) : Spells json.render json := by
  have ends : EndsNumber [] := by rintro _ ⟨⟩
  have spells := spellsTokens_print json plain ends .nil
  rw [List.append_nil, List.append_nil] at spells
  unfold Spells render
  rwa [String.toList_ofList]

end Backpatch.Json
