import Backpatch.Proofs.Core.Types
import Backpatch.Proofs.Semantics.Core
import Backpatch.Proofs.Semantics.Source

/-!
# Values as words

How the values of the source are kept as words: a number as the last 32 bits of the integer that it
stands for. The operations on words compute what the operations on values say (`Arithmetic.refines`,
`Comparison.refines`), and a conversion that the checker inserts by itself changes no word
(`Value.convert_of_convertibleTo`).
-/

namespace Backpatch

/-- The value of the core term that stands for a value. -/
def Value.scalar? : Value → Option Scalar
  | int value => some (.word value)
  | byte value => some (.word (value.setWidth 32))
  | bool value => some (.ofBool value)
  | string text => some (.text text)
  | void => none

/-! ## Numbers -/

theorem setWidth_ofInt (n : Int) : (BitVec.ofInt 8 n).setWidth 32 = BitVec.ofInt 32 n &&& 255 := by
  apply BitVec.eq_of_toNat_eq
  rw [BitVec.toNat_setWidth, BitVec.toNat_and, BitVec.toNat_ofInt, BitVec.toNat_ofInt]
  show _ = _ &&& (2 ^ 8 - 1)
  rw [Nat.and_two_pow_sub_one_eq_mod]
  omega

variable {n x y : Int} {a b type : Ty}

theorem Ty.Includes.toInt_ofInt (h : type.Includes n) : (BitVec.ofInt 32 n).toInt = n := by
  rw [BitVec.toInt_ofInt]
  cases type with
  | int | byte =>
    obtain ⟨low, high⟩ := h
    exact Int.bmod_eq_of_le (by omega) (by omega)
  | bool | string | void | invalid => exact h.elim

theorem Ty.Includes.ofInt_inj {type' : Ty} {m : Int} (hm : type.Includes m)
    (hn : type'.Includes n) : BitVec.ofInt 32 m = BitVec.ofInt 32 n ↔ m = n := by
  rw [← BitVec.toInt_inj, hm.toInt_ofInt, hn.toInt_ofInt]

theorem Ty.Includes.toNat_ofInt (h : Ty.byte.Includes n) :
    ((BitVec.ofInt 32 n).toNat : Int) = n := by
  obtain ⟨low, high⟩ := h
  rw [BitVec.toNat_ofInt]
  omega

theorem Ty.Includes.castUp_left (h : a.Includes n) (numeric : b.isNumeric = true) :
    (Ty.castUp a b).Includes n := by
  cases a with
  | int => cases b <;> first | exact h | cases numeric
  | byte =>
    cases b with
    | byte => exact h
    | int =>
      obtain ⟨low, high⟩ := h
      exact ⟨by omega, by omega⟩
    | bool | string | void | invalid => cases numeric
  | bool | string | void | invalid => exact h.elim

theorem Ty.Includes.castUp_right (h : b.Includes n) (numeric : a.isNumeric = true) :
    (Ty.castUp a b).Includes n :=
  Ty.castUp_comm b a ▸ h.castUp_left numeric

theorem Ty.eq_or_of_convertibleTo (h : a.convertibleTo b = true) :
    a = b ∨ a = .byte ∧ b = .int := by
  simp only [Ty.convertibleTo, Bool.and_eq_true, Bool.or_eq_true, beq_iff_eq] at h
  exact h.2

namespace Value

variable {v : Value} {type : Ty}

/-- A number is kept as the last bits of its integer. -/
theorem exists_number (h : v.type.isNumeric = true) :
    ∃ n, v.number? = some n ∧ v.type.Includes n ∧ v.scalar? = some (.word (BitVec.ofInt 32 n)) := by
  cases v with
  | int value =>
    refine ⟨value.toInt, rfl, ⟨?_, ?_⟩, ?_⟩
    · exact BitVec.le_toInt value
    · exact Int.le_of_lt_add_one (BitVec.toInt_lt (x := value))
    · rw [BitVec.ofInt_toInt]
      rfl
  | byte value =>
    refine ⟨value.toNat, rfl, ⟨by omega, ?_⟩, ?_⟩
    · have := value.isLt
      omega
    · rw [BitVec.ofInt_natCast, BitVec.ofNat_toNat]
      rfl
  | bool | string | void => cases h

theorem type_ofNumber (h : type.isNumeric = true) (n : Int) : (ofNumber type n).type = type := by
  cases type <;> first | rfl | cases h

theorem scalar?_ofNumber (type : Ty) (n : Int) :
    (ofNumber type n).scalar? =
      some (.word (if type = .byte then BitVec.ofInt 32 n &&& 255 else BitVec.ofInt 32 n)) := by
  unfold ofNumber
  split
  · exact congrArg (some ∘ Scalar.word) (setWidth_ofInt n)
  · rfl

variable {n : Int}

theorem convert_of_number (h : v.number? = some n) (numeric : type.isNumeric = true) :
    v.convert type = ofNumber type n := by
  unfold convert
  rw [h]
  simp only [numeric, if_true]

theorem convert_of_not_numeric (h : type.isNumeric = false) : v.convert type = v := by
  unfold convert
  split
  · simp [h]
  · rfl

/-- A byte is what its last eight bits are. -/
theorem and_of_includes (h : Ty.byte.Includes n) :
    BitVec.ofInt 32 n &&& 255 = BitVec.ofInt 32 n := by
  apply BitVec.eq_of_toNat_eq
  obtain ⟨low, high⟩ := h
  rw [BitVec.toNat_and, BitVec.toNat_ofInt]
  show _ &&& (2 ^ 8 - 1) = _
  rw [Nat.and_two_pow_sub_one_eq_mod]
  omega

/-- A conversion that is made by itself changes no word. -/
theorem convert_of_convertibleTo (h : v.type.convertibleTo type = true) :
    (v.convert type).type = type ∧ (v.convert type).scalar? = v.scalar? := by
  have cases := Ty.eq_or_of_convertibleTo h
  cases numeric : type.isNumeric with
  | false =>
    rw [convert_of_not_numeric numeric]
    refine ⟨cases.resolve_right ?_, rfl⟩
    rintro ⟨-, rfl⟩
    cases numeric
  | true =>
    have source : v.type.isNumeric = true := by
      rcases cases with same | ⟨byte, -⟩
      · exact same ▸ numeric
      · rw [byte]
        rfl
    obtain ⟨n, number, range, kept⟩ := exists_number source
    rw [convert_of_number number numeric]
    refine ⟨type_ofNumber numeric n, ?_⟩
    rw [scalar?_ofNumber, kept]
    split
    · rename_i byte
      have same : v.type = .byte := cases.elim (·.trans byte) (·.1)
      rw [and_of_includes (same ▸ range)]
    · rfl

theorem type_initial (h : type.isSpecial = false) : (initial type).type = type := by
  cases type <;> first | rfl | cases h

theorem scalar?_initial (h : type.isSpecial = false) : (initial type).scalar? = some (.word 0) := by
  cases type <;> first | rfl | cases h

end Value

/-! ## Operations -/

/-- An operation on words that is defined computes the last bits of the exact result. -/
theorem Arithmetic.apply_opcode (overflow : Option Word) (operator : Arithmetic)
    (hx : type.Includes x) (hy : type.Includes y) (nonzero : operator = .div → y ≠ 0)
    (inRange : operator = .div → ¬(x = -2147483648 ∧ y = -1)) :
    (operator.opcode type.isSigned).apply overflow (BitVec.ofInt 32 x) (BitVec.ofInt 32 y) =
      some (BitVec.ofInt 32 (operator.exact x y)) := by
  cases operator with
  | add => exact congrArg some (BitVec.ofInt_add x y).symm
  | sub =>
    have difference : BitVec.ofInt 32 (x - y) = BitVec.ofInt 32 x - BitVec.ofInt 32 y := by
      rw [Int.sub_eq_add_neg, BitVec.ofInt_add, BitVec.ofInt_neg, BitVec.sub_eq_add_neg]
    exact congrArg some difference.symm
  | mul => exact congrArg some (BitVec.ofInt_mul x y).symm
  | div =>
    have least : Ty.int.Includes (-2147483648) := ⟨by omega, by omega⟩
    have minus : Ty.int.Includes (-1) := ⟨by omega, by omega⟩
    have zero : Ty.int.Includes 0 := ⟨by omega, by omega⟩
    have divisor : BitVec.ofInt 32 y ≠ 0 := fun h => nonzero rfl ((hy.ofInt_inj zero).mp h)
    cases type with
    | int =>
      have defined : ¬(BitVec.ofInt 32 x = BitVec.intMin 32 ∧ BitVec.ofInt 32 y = -1) := by
        rintro ⟨hl, hm⟩
        exact inRange rfl ⟨(hx.ofInt_inj least).mp hl, (hy.ofInt_inj minus).mp hm⟩
      show (if BitVec.ofInt 32 y = 0 then none else _) = _
      rw [if_neg divisor, if_neg defined]
      congr 1
      apply BitVec.eq_of_toInt_eq
      rw [BitVec.toInt_sdiv, hx.toInt_ofInt, hy.toInt_ofInt, BitVec.toInt_ofInt]
      rfl
    | byte =>
      show (if BitVec.ofInt 32 y = 0 then none else _) = _
      rw [if_neg divisor]
      congr 1
      apply BitVec.eq_of_toNat_eq
      have quotient : Ty.byte.Includes (x.tdiv y) := by
        obtain ⟨low, high⟩ := hx
        exact ⟨Int.tdiv_nonneg low hy.1, Int.le_trans (Int.tdiv_le_self _ low) high⟩
      apply Int.ofNat_inj.mp
      show (((BitVec.ofInt 32 x) / (BitVec.ofInt 32 y)).toNat : Int) = _
      rw [BitVec.toNat_udiv]
      show _ = ((BitVec.ofInt 32 (x.tdiv y)).toNat : Int)
      rw [quotient.toNat_ofInt, Int.natCast_ediv, hx.toNat_ofInt, hy.toNat_ofInt,
        Int.tdiv_eq_ediv_of_nonneg hx.1]
    | bool | string | void | invalid => exact hx.elim

open Outcome

/-- An operation on words does what the operation on values does. -/
theorem Arithmetic.refines (overflow : Option Word) (operator : Arithmetic) {a b : Value}
    {x y : Word}
    (ha : a.type.isNumeric = true) (hb : b.type.isNumeric = true) (hx : a.scalar? = some (.word x))
    (hy : b.scalar? = some (.word y)) :
    Refines (fun v w => v.type = Ty.castUp a.type b.type ∧ v.scalar? = some (.word w))
      (operator.meaning overflow a b) (operator.coreMeaning overflow
        (Ty.castUp a.type b.type) x y) := by
  obtain ⟨m, hm, leftRange, leftKept⟩ := Value.exists_number ha
  obtain ⟨n, hn, rightRange, rightKept⟩ := Value.exists_number hb
  obtain rfl := Scalar.word.inj (Option.some.inj (leftKept.symm.trans hx))
  obtain rfl := Scalar.word.inj (Option.some.inj (rightKept.symm.trans hy))
  replace leftRange := leftRange.castUp_left hb
  replace rightRange := rightRange.castUp_right ha
  have numeric := Ty.isNumeric_castUp ha hb
  unfold Arithmetic.meaning Arithmetic.coreMeaning
  rw [hm, hn]
  dsimp only
  generalize Ty.castUp a.type b.type = type at *
  have zero : Ty.int.Includes 0 := ⟨by omega, by omega⟩
  have isZero : BitVec.ofInt 32 n = 0 ↔ n = 0 := rightRange.ofInt_inj zero
  simp only [isZero]
  split
  · exact .stopped _ _
  · rename_i nonzero
    unfold Arithmetic.compute
    split
    · -- The quotient that is left open is one of numbers that are not bytes.
      rename_i undefined
      obtain ⟨rfl, rfl, rfl⟩ := undefined
      cases type with
      | int =>
        have quotient : (Arithmetic.div.opcode Ty.int.isSigned).apply overflow
            (BitVec.ofInt 32 (-2147483648)) (BitVec.ofInt 32 (-1)) = overflow := rfl
        rw [quotient]
        cases overflow with
        | none => exact .unfinished _
        | some w => exact .pure ⟨rfl, rfl⟩
      | byte => exact absurd leftRange.1 (by decide)
      | bool | string | void | invalid => exact leftRange.elim
    · rename_i defined
      rw [Arithmetic.apply_opcode overflow operator leftRange rightRange (fun div zero =>
        nonzero ⟨div, zero⟩) (fun div undefined => defined ⟨div, undefined⟩)]
      exact .pure ⟨Value.type_ofNumber numeric _, Value.scalar?_ofNumber type _⟩

/-- A comparison of words finds what the comparison of the numbers does. -/
theorem Comparison.holds_predicate (operator : Comparison) (hx : type.Includes x)
    (hy : type.Includes y) :
    (operator.predicate type.isSigned).holds (BitVec.ofInt 32 x) (BitVec.ofInt 32 y)
      = operator.holds x y := by
  rw [Bool.eq_iff_iff]
  have same := hx.ofInt_inj hy
  cases type with
  | int =>
    cases operator <;>
      simp [Comparison.predicate, Ty.isSigned, Predicate.holds, Comparison.holds,
        BitVec.slt_iff_toInt_lt, BitVec.sle_iff_toInt_le, hx.toInt_ofInt, hy.toInt_ofInt, same]
  | byte =>
    have hx' := hx.toNat_ofInt
    have hy' := hy.toNat_ofInt
    cases operator <;>
      simp only [Comparison.predicate, Ty.isSigned, Predicate.holds, Comparison.holds,
        BitVec.ult_iff_toNat_lt, BitVec.ule_iff_toNat_le, decide_eq_true_eq, beq_iff_eq, bne_iff_ne,
        ne_eq, same, Bool.false_eq_true, if_false] <;>
      omega
  | bool | string | void | invalid => exact hx.elim

theorem Comparison.refines (operator : Comparison) {a b : Value} {x y : Word}
    (ha : a.type.isNumeric = true) (hb : b.type.isNumeric = true) (hx : a.scalar? = some (.word x))
    (hy : b.scalar? = some (.word y)) :
    Refines (fun v c => v = .bool c) (operator.meaning a b)
      (pure ((operator.predicate (Ty.castUp a.type b.type).isSigned).holds x y)) := by
  obtain ⟨m, hm, leftRange, leftKept⟩ := Value.exists_number ha
  obtain ⟨n, hn, rightRange, rightKept⟩ := Value.exists_number hb
  obtain rfl := Scalar.word.inj (Option.some.inj (leftKept.symm.trans hx))
  obtain rfl := Scalar.word.inj (Option.some.inj (rightKept.symm.trans hy))
  unfold Comparison.meaning
  rw [hm, hn, Comparison.holds_predicate operator (leftRange.castUp_left hb)
    (rightRange.castUp_right ha)]
  exact .pure rfl

end Backpatch
