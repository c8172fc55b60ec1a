import Backpatch.Code.Instr
import Backpatch.Text.Constant

/-!
# Reading string constants

What the body of a string constant stands for: a backslash and two hexadecimal digits are one byte,
and any other character is its own code. Reading the body of a text gives back the bytes of the text
and the closing zero (`decode_constantBody`), so no two texts have the same body
(`constantBody_reads_back`).
-/

namespace Backpatch.Text

open List

def hexValue? (c : Char) : Option Nat :=
  if '0' ≤ c ∧ c ≤ '9' then some (c.toNat - '0'.toNat)
  else if 'A' ≤ c ∧ c ≤ 'F' then some (c.toNat - 'A'.toNat + 10)
  else none

/-- The bytes that the body of a constant stands for, if it is well formed. -/
def decode : List Char → Option (List UInt8)
  | [] => some []
  | c :: rest =>
    if c = '\\' then
      match rest with
      | high :: low :: rest => do
        let byte := 16 * (← hexValue? high) + (← hexValue? low)
        return UInt8.ofNat byte :: (← decode rest)
      | _ => none
    else if c.toNat < 128 then (decode rest).map (UInt8.ofNat c.toNat :: ·)
    else none

theorem hexValue?_hexDigit {n : Nat} (h : n < 16) : hexValue? (hexDigit n) = some n := by
  have all : ∀ k : Fin 16, hexValue? (hexDigit k) = some k.val := by decide
  exact all ⟨n, h⟩

theorem decode_cons {c : Char} (ascii : c.toNat < 128) (other : c ≠ '\\') (rest : List Char) :
    decode (c :: rest) = (decode rest).map (UInt8.ofNat c.toNat :: ·) := by
  conv => lhs; unfold decode
  rw [if_neg other, if_pos ascii]

theorem decode_escapedByte (b : UInt8) (rest : List Char) :
    decode (escapedByte b ++ rest) = (decode rest).map (b :: ·) := by
  have small : b.toNat < 256 := b.toNat_lt
  have high : hexValue? (hexDigit (b.toNat / 16)) = some (b.toNat / 16) :=
    hexValue?_hexDigit (by omega)
  have low : hexValue? (hexDigit (b.toNat % 16)) = some (b.toNat % 16) :=
    hexValue?_hexDigit (by omega)
  have value : UInt8.ofNat (16 * (b.toNat / 16) + b.toNat % 16) = b := by
    rw [Nat.div_add_mod, UInt8.ofNat_toNat]
  show decode ('\\' :: hexDigit (b.toNat / 16) :: hexDigit (b.toNat % 16) :: rest) = _
  rw [decode, if_pos rfl]
  simp only [high, low, Option.bind_eq_bind, Option.bind_some, value]
  cases decode rest <;> rfl

def IsPrintable (c : Char) : Prop := ' ' ≤ c ∧ c ≤ '~' ∧ c ≠ '"'

instance (c : Char) : Decidable (IsPrintable c) :=
  inferInstanceAs (Decidable (' ' ≤ c ∧ c ≤ '~' ∧ c ≠ '"'))

/-- What a byte that stands for itself is as a character. -/
theorem plainByte_cases {b : UInt8} (plain : isPlainByte b = true) :
    (Char.ofNat b.toNat).toNat = b.toNat ∧ IsPrintable (Char.ofNat b.toNat) ∧
      Char.ofNat b.toNat ≠ '\\' := by
  simp only [isPlainByte, Bool.and_eq_true, decide_eq_true_eq, bne_iff_ne,
    UInt8.le_iff_toNat_le] at plain
  obtain ⟨⟨⟨low, high⟩, noQuote⟩, noEscape⟩ := plain
  have all : ∀ k : Fin 127, 32 ≤ k.val → k.val ≠ 34 → k.val ≠ 92 →
      (Char.ofNat k.val).toNat = k.val ∧ IsPrintable (Char.ofNat k.val) ∧
        Char.ofNat k.val ≠ '\\' := by decide
  exact all ⟨b.toNat, Nat.lt_succ_of_le high⟩ low (fun eq => noQuote (UInt8.toNat_inj.mp eq))
    fun eq => noEscape (UInt8.toNat_inj.mp eq)

theorem decode_constantByte (b : UInt8) (rest : List Char) :
    decode (constantByte b ++ rest) = (decode rest).map (b :: ·) := by
  unfold constantByte
  split
  · rename_i plain
    obtain ⟨code, printable, other⟩ := plainByte_cases plain
    have ascii : (Char.ofNat b.toNat).toNat < 128 := Nat.lt_of_le_of_lt printable.2.1 (by decide)
    rw [singleton_append, decode_cons ascii other, code, UInt8.ofNat_toNat]
  · exact decode_escapedByte b rest

theorem decode_flatMap (bytes : List UInt8) : decode (bytes.flatMap constantByte) = some bytes := by
  induction bytes with
  | nil => rfl
  | cons b bytes ih => rw [flatMap_cons, decode_constantByte, ih, Option.map_some]

/-- The body of a constant stands for the bytes of the text and the closing zero. -/
theorem decode_constantBody (text : String) :
    decode (constantBody text).toList = some (constantBytes text) := by
  unfold constantBody
  rw [String.toList_ofList, decode_flatMap]

/-! ## The characters of a body -/

/-- Printable characters, where a backslash stands at the beginning of an escape only. -/
inductive IsBody : List Char → Prop
  | nil : IsBody []
  | plain {c : Char} {rest : List Char} (printable : IsPrintable c) (other : c ≠ '\\')
      (later : IsBody rest) : IsBody (c :: rest)
  | escape {high low : Char} {rest : List Char} (isHigh : (hexValue? high).isSome)
      (isLow : (hexValue? low).isSome) (later : IsBody rest) : IsBody ('\\' :: high :: low :: rest)

theorem isPrintable_of_hexValue? {c : Char} (h : (hexValue? c).isSome) : IsPrintable c := by
  have above {low : Char} (le : low ≤ c) (space : ' ' ≤ low) (quote : '"' < low) : ' '
      ≤ c ∧ c ≠ '"' :=
    ⟨Char.le_trans space le, fun eq => Char.not_le.mpr quote (eq ▸ le)⟩
  unfold hexValue? at h
  split at h
  · rename_i digit
    obtain ⟨space, noQuote⟩ := above digit.1 (by decide) (by decide)
    exact ⟨space, Char.le_trans digit.2 (by decide), noQuote⟩
  · split at h
    · rename_i letter
      obtain ⟨space, noQuote⟩ := above letter.1 (by decide) (by decide)
      exact ⟨space, Char.le_trans letter.2 (by decide), noQuote⟩
    · cases h

theorem IsBody.printable {body : List Char} (h : IsBody body) : ∀ c ∈ body, IsPrintable c := by
  induction h with
  | nil => exact forall_mem_nil _
  | plain printable _ _ ih => exact forall_mem_cons.mpr ⟨printable, ih⟩
  | escape isHigh isLow _ ih =>
    have backslash : IsPrintable '\\' := by decide
    exact forall_mem_cons.mpr ⟨backslash, forall_mem_cons.mpr ⟨isPrintable_of_hexValue? isHigh,
      forall_mem_cons.mpr ⟨isPrintable_of_hexValue? isLow, ih⟩⟩⟩

theorem IsBody.constantByte (b : UInt8) {rest : List Char} (h : IsBody rest) :
    IsBody (constantByte b ++ rest) := by
  have small : b.toNat < 256 := b.toNat_lt
  unfold Text.constantByte
  split
  · rename_i plain
    obtain ⟨-, printable, other⟩ := plainByte_cases plain
    exact .plain printable other h
  · refine .escape ?_ ?_ h
    · rw [hexValue?_hexDigit (by omega : b.toNat / 16 < 16)]
      rfl
    · rw [hexValue?_hexDigit (by omega : b.toNat % 16 < 16)]
      rfl

theorem isBody_constantBody (text : String) : IsBody (constantBody text).toList := by
  have all : ∀ bytes : List UInt8, IsBody (bytes.flatMap Text.constantByte) := by
    intro bytes
    induction bytes with
    | nil => exact .nil
    | cons b bytes ih => exact ih.constantByte b
  unfold constantBody
  rw [String.toList_ofList]
  exact all _

/-! ## The bytes of a text -/

theorem toList_loop (bytes : ByteArray) (i : Nat) (read : List UInt8) :
    ByteArray.toList.loop bytes i read = read.reverse ++ bytes.data.toList.drop i := by
  rw [ByteArray.toList.loop]
  split
  · rename_i inside
    have inside : i < bytes.data.toList.length := inside
    have here : bytes.get! i = bytes.data.toList[i] := getElem!_pos bytes.data i inside
    rw [toList_loop, reverse_cons, append_assoc, here, singleton_append,
      ← drop_eq_getElem_cons]
  · rename_i outside
    rw [drop_eq_nil_of_le (Nat.le_of_not_lt outside), List.append_nil]
termination_by bytes.size - i

theorem toList_eq (bytes : ByteArray) : bytes.toList = bytes.data.toList := toList_loop bytes 0 []

theorem constantLength_eq (text : String) : constantLength text = text.utf8ByteSize + 1 := by
  unfold constantLength constantBytes
  rw [toList_eq, length_append]
  rfl

theorem constantBytes_injective {a b : String} (h : constantBytes a = constantBytes b) : a = b := by
  have bytes := append_cancel_right h
  rw [toList_eq, toList_eq] at bytes
  exact String.toByteArray_inj.mp (ByteArray.ext (Array.toList_inj.mp bytes))

/-- The body of a constant is printable ASCII without quotes and with a backslash only at the
beginning of an escape. It stands for the bytes of the text and a closing zero, as many as the
length of the constant says, and for no other text. -/
theorem constantBody_reads_back (text : String) :
    decode (constantBody text).toList = some (text.toUTF8.toList ++ [0]) ∧
    (decode (constantBody text).toList).map List.length = some (constantLength text) ∧
    constantLength text = text.utf8ByteSize + 1 ∧
    IsBody (constantBody text).toList ∧ (∀ c ∈ (constantBody text).toList, IsPrintable c) ∧
    placeholder ∉ (constantBody text).toList ∧ ∀ other, constantBody other = constantBody text →
      other = text := by
  have decoded := decode_constantBody text
  have body := isBody_constantBody text
  refine ⟨decoded, by rw [decoded]; rfl, constantLength_eq text, body, body.printable,
    fun mem => ?_, fun other same => ?_⟩
  · exact absurd (body.printable _ mem).2.1 (by decide)
  · have again := decode_constantBody other
    rw [same, decoded] at again
    exact constantBytes_injective (Option.some.inj again).symm

end Backpatch.Text
