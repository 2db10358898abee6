import TreeTiling.Proofs.X64.Machine

/-!
Arithmetic of the machine: condition codes mean the relations they are named for, immediates that
fit are themselves, and dividing a sign-extended word gives the quotient of the word.
-/

namespace TreeTiling.X64

----------------------------------------------------------------------------------------------
-- Flags
----------------------------------------------------------------------------------------------

namespace Flags

/-- The sign of a difference, corrected by its overflow, tells the lesser word. -/
theorem sign_ne_overflow (left right : Word)
    : ((left - right).msb != BitVec.ssubOverflow left right) = left.slt right := by
  have leftBelow := left.toInt_lt
  have leftAbove := left.le_toInt
  have rightBelow := right.toInt_lt
  have rightAbove := right.le_toInt
  simp only [BitVec.msb_eq_toInt, BitVec.ssubOverflow, BitVec.slt_eq_decide, BitVec.toInt_sub,
    Int.bmod]
  rw [Bool.eq_iff_iff, bne_iff_ne, ne_eq, Bool.eq_iff_iff]
  simp only [Bool.or_eq_true, decide_eq_true_eq]
  split <;> omega

/-- A difference is zero for equal words only. -/
theorem sub_beq_zero (left right : Word) : (left - right == 0) = (left == right) := by
  rw [Bool.eq_iff_iff]
  simp [BitVec.sub_eq_iff_eq_add]

/-- A word is at most another if it is less or the same. -/
theorem ult_or_beq (left right : Word) : (left.ult right || left == right) = left.ule right := by
  rw [Bool.eq_iff_iff, Bool.or_eq_true, beq_iff_eq, BitVec.ult_iff_toNat_lt,
    BitVec.ule_iff_toNat_le, ← BitVec.toNat_inj]
  omega

/-- After a comparison, each condition code is met exactly if its relation holds. -/
theorem test_ofComparison (op : RelOp) (left right : Word)
    : (ofComparison left right).test op = op.holds left right := by
  have zero := sub_beq_zero left right
  have less := sign_ne_overflow left right
  have notLess : ((left - right).msb == BitVec.ssubOverflow left right) = !left.slt right := by
    rw [← less, bne, Bool.not_not]
  have below : BitVec.usubOverflow left right = left.ult right := rfl
  cases op with
  | eq => exact zero
  | ne => exact congrArg (!·) zero
  | lt => exact less
  | le =>
      simp only [test, ofComparison, RelOp.holds, zero, less]
      rw [Bool.or_comm, BitVec.sle_eq_slt_or_eq]
  | gt =>
      simp only [test, ofComparison, RelOp.holds, zero, notLess]
      rw [← Bool.not_or, Bool.or_comm, ← BitVec.sle_eq_slt_or_eq, BitVec.sle_eq_not_slt,
        Bool.not_not]
  | ge =>
      simp only [test, ofComparison, RelOp.holds, notLess]
      rw [BitVec.sle_eq_not_slt]
  | ult => exact below
  | ule =>
      simp only [test, ofComparison, RelOp.holds, zero, below]
      exact ult_or_beq left right
  | ugt =>
      simp only [test, ofComparison, RelOp.holds, zero, below]
      rw [← Bool.not_or, ult_or_beq, BitVec.ule_eq_not_ult, Bool.not_not]
  | uge =>
      simp only [test, ofComparison, RelOp.holds, below]
      rw [BitVec.ule_eq_not_ult]

end Flags

----------------------------------------------------------------------------------------------
-- Immediates and quotients
----------------------------------------------------------------------------------------------

/-- An immediate that fits its field is the word that the field gives. -/
theorem extendImm32_of_fits {value : Word} (fits : value.fitsImm32 = true)
    : extendImm32 value = value := by
  apply BitVec.eq_of_toInt_eq
  simp only [Word.fitsImm32, Bool.and_eq_true, decide_eq_true_eq] at fits
  rw [extendImm32, BitVec.toInt_signExtend_of_le (by decide), BitVec.toInt_setWidth]
  rw [BitVec.toInt_eq_toNat_bmod value] at *
  simp only [Int.bmod] at *
  have bounded := value.isLt
  omega

/-- Extending the sign into the high word keeps the value. -/
theorem toInt_signExtended (low : Word)
    : ((if low.msb then BitVec.allOnes 64 else 0) ++ low).toInt = low.toInt := by
  rw [BitVec.toInt_append, BitVec.toInt_eq_msb_cond low]
  cases low.msb with
  | true =>
      simp
      omega
  | false => simp

/-- Dividing a sign-extended word gives the quotient of the word, where that is defined. -/
theorem quotient?_signExtended {low divisor : Word} (defined : low.divisible divisor = true)
    : ∃ remainder,
        quotient? (if low.msb then BitVec.allOnes 64 else 0) low divisor
        = some (low.sdiv divisor, remainder) := by
  simp only [Word.divisible, Bool.and_eq_true, bne_iff_ne, Bool.not_eq_true',
    Bool.and_eq_false_iff, beq_eq_false_iff_ne] at defined
  obtain ⟨nonzero, fits⟩ := defined
  have quotient : (low.sdiv divisor).toInt = low.toInt.tdiv divisor.toInt :=
    BitVec.toInt_sdiv_of_ne_or_ne _ _ (by simpa using fits)
  have above := (low.sdiv divisor).le_toInt
  have below := (low.sdiv divisor).toInt_lt
  refine ⟨BitVec.ofInt 64 (low.toInt.tmod divisor.toInt), ?_⟩
  simp only [quotient?, toInt_signExtended, ← quotient, BitVec.ofInt_toInt, Bool.and_eq_true,
    decide_eq_true_eq, bne_iff_ne]
  rw [if_pos ⟨⟨nonzero, above⟩, below⟩]

end TreeTiling.X64
