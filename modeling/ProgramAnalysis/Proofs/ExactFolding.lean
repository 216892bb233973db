import Mathlib.Data.Int.ModEq
import ProgramAnalysis.Proofs.MachineWords

/-!
# Folding is exact

Constants are integers without bounds, and an operation on them is wrapped once at its end. Whether
this is what a machine computes depends on the operation. Those that read the low 32 bits only may
be given any integers. For the others the operands have to be words, and then the results agree
although the operation itself may leave the range of words: the quotient of the smallest word and
`-1` is the one division that does.
-/

namespace ProgramAnalysis

namespace Word32

theorem toInt_ofInt_of_inRange {n : Int} (h : InRange n) : (BitVec.ofInt 32 n).toInt = n := by
  rw [toInt_ofInt, wrap_eq_self h]

/-! ## Division -/

/-- `q` and `r` are quotient and remainder of `a` and `b` on a machine whose division truncates. -/
structure IsDivision (a b q r : Int) : Prop where
  /-- Rounded towards zero, but for the one quotient that is no word and wraps around. -/
  quotient : q = if a = -2147483648 ∧ b = -1 then -2147483648 else a.tdiv b
  /-- The remainder has the sign of the dividend. -/
  sign : r = 0 ∨ r.sign = a.sign
  remainder_lt : |r| < |b|
  /-- In words, the dividend is the divisor taken as often as the quotient says, and the
  remainder. -/
  modEq : a ≡ q * b + r [ZMOD count]

variable {a b : Int}

theorem natAbs_tmod_lt (hb : b ≠ 0) : (a.tmod b).natAbs < b.natAbs := by
  rw [Int.natAbs_tmod]
  exact Nat.mod_lt _ (Int.natAbs_pos.mpr hb)

/-- A quotient of words is a word, with one exception. -/
theorem inRange_tdiv (ha : InRange a) (hb : b ≠ 0) (h : ¬(a = -2147483648 ∧ b = -1)) :
    InRange (a.tdiv b) := by
  have hlt := natAbs_tmod_lt (a := a) hb
  have hsum := Int.tdiv_mul_add_tmod a b
  have hle := Int.natAbs_tdiv_le_natAbs a b
  obtain ⟨hlo, hhi⟩ := ha
  have hne : a.tdiv b ≠ 2147483648 := fun hq ↦ by
    rw [hq] at hsum
    omega
  constructor <;> omega

theorem inRange_tmod (hb : InRange b) (hzero : b ≠ 0) : InRange (a.tmod b) := by
  have hlt := natAbs_tmod_lt (a := a) hzero
  obtain ⟨hlo, hhi⟩ := hb
  constructor <;> omega

theorem wrap_modEq (n : Int) : wrap n ≡ n [ZMOD count] := by
  rw [wrap_eq_bmod]
  exact Int.bmod_emod

/-- Wrapped, quotient and remainder divide words as a machine does. -/
theorem isDivision_wrap (ha : InRange a) (hb : InRange b) (hzero : b ≠ 0) :
    IsDivision a b (wrap (Operator.quotient a b)) (wrap (Operator.remainder a b)) := by
  rw [Operator.quotient_eq_tdiv, Operator.remainder_eq_tmod, wrap_eq_self (inRange_tmod hb hzero)]
  constructor
  · split
    · rename_i h
      rw [h.1, h.2]
      decide
    · rename_i h
      exact wrap_eq_self (inRange_tdiv ha hzero h)
  · rw [Int.sign_tmod]
    split
    · rename_i hdvd
      exact Or.inl (Int.tmod_eq_zero_of_dvd hdvd)
    · exact Or.inr rfl
  · rw [Int.abs_eq_natAbs, Int.abs_eq_natAbs]
    exact Int.ofNat_lt.mpr (natAbs_tmod_lt hzero)
  · have h := ((wrap_modEq (a.tdiv b)).mul_right b).add_right (a.tmod b)
    rw [Int.tdiv_mul_add_tmod] at h
    exact h.symm

end Word32

namespace Operator

/-! ## All operators -/

theorem fold?_of_readsLowBits {op : Operator} (h : op.readsLowBits = true) (a b : Int) :
    op.fold? a b = some (op.onWord (BitVec.ofInt 32 a) (BitVec.ofInt 32 b)).toInt := by
  have hdiv : op.divides = false := by cases op <;> simp [readsLowBits] at h <;> rfl
  rw [fold?, if_neg (by simp [hdiv]), ← ofInt_onInt_of_readsLowBits h, Word32.toInt_ofInt]

theorem fold?_of_inRange (op : Operator) {a b : Int} (ha : Word32.InRange a)
    (hb : Word32.InRange b) (hzero : op.divides = true → b ≠ 0) :
    op.fold? a b = some (op.onWord (BitVec.ofInt 32 a) (BitVec.ofInt 32 b)).toInt := by
  rw [fold?, if_neg fun h ↦ hzero h.1 h.2, toInt_onWord, Word32.toInt_ofInt_of_inRange ha,
    Word32.toInt_ofInt_of_inRange hb]

/-- Folding is the arithmetic of 32-bit words, for all operators and all words that they are defined
on. Divisions truncate, and the remainder goes with the quotient. Operators that read low bits only
fold integers of any size by their low 32 bits. -/
theorem fold?_exact :
    (∀ (op : Operator) (a b : Int), Word32.InRange a → Word32.InRange b →
      (op.divides = true → b ≠ 0) →
      op.fold? a b = some (op.onWord (BitVec.ofInt 32 a) (BitVec.ofInt 32 b)).toInt) ∧
    (∀ a b : Int, Word32.InRange a → Word32.InRange b → b ≠ 0 →
      ∃ q r, div.fold? a b = some q ∧ rem.fold? a b = some r ∧ Word32.IsDivision a b q r) ∧
    ∀ op ∈ [add, sub, mul, or, and, xor, shl, ushr], ∀ a b : Int,
      op.fold? a b = some (op.onWord (BitVec.ofInt 32 a) (BitVec.ofInt 32 b)).toInt := by
  refine ⟨fun op a b ha hb hzero ↦ op.fold?_of_inRange ha hb hzero, fun a b ha hb hzero ↦ ?_,
    fun op hop a b ↦ fold?_of_readsLowBits ?_ a b⟩
  · exact ⟨_, _, if_neg fun h ↦ hzero h.2, if_neg fun h ↦ hzero h.2,
      Word32.isDivision_wrap ha hb hzero⟩
  · revert op
    decide

/-- The smallest word over `-1` is the smallest word, without a remainder; a shift by `-1` moves by
31 places whatever stands above the low 32 bits. -/
theorem fold?_exact_extremes :
    div.fold? (-2147483648) (-1) = some (-2147483648) ∧
      (∃ q r, div.fold? (-2147483648) (-1) = some q ∧ rem.fold? (-2147483648) (-1) = some r ∧
        Word32.IsDivision (-2147483648) (-1) q r) ∧
      ushr.fold? 1099511627775 (-1) = some 1 := by
  obtain ⟨hwords, hdivision, hlow⟩ := fold?_exact
  refine ⟨?_, hdivision _ _ (by decide) (by decide) (by decide), ?_⟩
  · rw [hwords .div _ _ (by decide) (by decide) (by decide)]
    decide
  · rw [hlow .ushr (by decide)]
    decide

end Operator

end ProgramAnalysis
