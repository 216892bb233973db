import Mathlib.Data.BitVec
import ProgramAnalysis.Code.Operator

/-!
# Folding is machine arithmetic

`Operator.onWord?` is what a machine with 32-bit registers computes: wrapping sums and products,
division truncated towards zero, signed comparisons, and shifts by the low five bits of the right
operand. Folding constants does the same with the integers that the words denote.

The integers of a folding are unbounded, so every operation is first carried over to words by
`BitVec.ofInt`, which forgets all but the low 32 bits, and only then read as a signed number.
-/

namespace ProgramAnalysis

theorem Word32.toInt_ofInt (n : Int) : (BitVec.ofInt 32 n).toInt = wrap n := by
  rw [wrap_eq_bmod]
  exact BitVec.toInt_ofInt n

/-! ## Bitwise operations -/

namespace Bitwise

variable {w : Nat}

theorem ofNat_clear (m n : Nat) :
    BitVec.ofNat w (clear m n) = BitVec.ofNat w m &&& ~~~BitVec.ofNat w n := by
  rw [clear, BitVec.ofNat_xor, BitVec.ofNat_and]
  ext i hi
  simp only [BitVec.getElem_xor, BitVec.getElem_and, BitVec.getElem_not]
  cases (BitVec.ofNat w m)[i] <;> cases (BitVec.ofNat w n)[i] <;> rfl

theorem ofInt_and (a b : Int) :
    BitVec.ofInt w (and a b) = BitVec.ofInt w a &&& BitVec.ofInt w b := by
  cases a with
  | ofNat m =>
    cases b with
    | ofNat n => exact BitVec.ofNat_and
    | negSucc n =>
      rw [BitVec.ofInt_negSucc_eq_not_ofNat]
      exact ofNat_clear m n
  | negSucc m =>
    cases b with
    | ofNat n =>
      rw [BitVec.ofInt_negSucc_eq_not_ofNat, BitVec.and_comm]
      exact ofNat_clear n m
    | negSucc n =>
      rw [and, BitVec.ofInt_negSucc_eq_not_ofNat, BitVec.ofInt_negSucc_eq_not_ofNat,
        BitVec.ofInt_negSucc_eq_not_ofNat, BitVec.ofNat_or, BitVec.not_or]

theorem ofInt_or (a b : Int) :
    BitVec.ofInt w (or a b) = BitVec.ofInt w a ||| BitVec.ofInt w b := by
  cases a with
  | ofNat m =>
    cases b with
    | ofNat n => exact BitVec.ofNat_or
    | negSucc n =>
      rw [or, BitVec.ofInt_negSucc_eq_not_ofNat, BitVec.ofInt_negSucc_eq_not_ofNat, ofNat_clear,
        BitVec.not_and, BitVec.not_not, BitVec.or_comm]
      rfl
  | negSucc m =>
    cases b with
    | ofNat n =>
      rw [or, BitVec.ofInt_negSucc_eq_not_ofNat, BitVec.ofInt_negSucc_eq_not_ofNat, ofNat_clear,
        BitVec.not_and, BitVec.not_not]
      rfl
    | negSucc n =>
      rw [or, BitVec.ofInt_negSucc_eq_not_ofNat, BitVec.ofInt_negSucc_eq_not_ofNat,
        BitVec.ofInt_negSucc_eq_not_ofNat, BitVec.ofNat_and, BitVec.not_and]

theorem ofInt_xor (a b : Int) :
    BitVec.ofInt w (xor a b) = BitVec.ofInt w a ^^^ BitVec.ofInt w b := by
  cases a with
  | ofNat m =>
    cases b with
    | ofNat n => exact BitVec.ofNat_xor
    | negSucc n =>
      rw [xor, BitVec.ofInt_negSucc_eq_not_ofNat, BitVec.ofInt_negSucc_eq_not_ofNat,
        BitVec.ofNat_xor, BitVec.not_xor_right]
      rfl
  | negSucc m =>
    cases b with
    | ofNat n =>
      rw [xor, BitVec.ofInt_negSucc_eq_not_ofNat, BitVec.ofInt_negSucc_eq_not_ofNat,
        BitVec.ofNat_xor, BitVec.not_xor_left]
      rfl
    | negSucc n =>
      rw [xor, BitVec.ofInt_negSucc_eq_not_ofNat, BitVec.ofInt_negSucc_eq_not_ofNat,
        ← BitVec.not_xor_left, ← BitVec.not_xor_right, BitVec.not_not, ← BitVec.ofNat_xor]
      rfl

end Bitwise

namespace Operator

/-! ## Operations on words -/

/-- One for a comparison that holds and zero for one that does not. -/
def truthWord (p : Bool) : BitVec 32 := if p then 1 else 0

/-- The operation on words. A division by zero has a value here, which no machine yields. -/
def onWord : Operator → BitVec 32 → BitVec 32 → BitVec 32
  | add, a, b => a + b
  | sub, a, b => a - b
  | mul, a, b => a * b
  | div, a, b => a.sdiv b
  | rem, a, b => a.srem b
  | or, a, b => a ||| b
  | and, a, b => a &&& b
  | xor, a, b => a ^^^ b
  | eq, a, b => truthWord (a == b)
  | ne, a, b => truthWord (a != b)
  | lt, a, b => truthWord (a.slt b)
  | gt, a, b => truthWord (b.slt a)
  | le, a, b => truthWord (a.sle b)
  | ge, a, b => truthWord (b.sle a)
  | shl, a, b => a <<< (b.toNat % 32)
  | shr, a, b => a.sshiftRight (b.toNat % 32)
  | ushr, a, b => a >>> (b.toNat % 32)

/-- The operation of a machine on words, or `none` where it traps. -/
def onWord? (op : Operator) (a b : BitVec 32) : Option (BitVec 32) :=
  if op.divides ∧ b = 0 then none else some (op.onWord a b)

/-! ## Agreement -/

theorem ofInt_truth (p : Prop) [Decidable p] :
    BitVec.ofInt 32 (truth p) = truthWord (decide p) := by
  rw [truth, truthWord]
  by_cases h : p <;> simp [h]

theorem distance_eq (b : Int) : distance b = (BitVec.ofInt 32 b).toNat % 32 := by
  rw [distance_eq_emod, BitVec.toNat_ofInt]
  omega

/-- The low 32 bits as a number that is not negative. -/
theorem and_mask_eq (a : Int) : Bitwise.and a 0xFFFFFFFF = (BitVec.ofInt 32 a).toNat := by
  have hmask : Bitwise.and a 0xFFFFFFFF = a % (2 ^ 32 : Nat) := Bitwise.and_ones a 32
  rw [hmask, BitVec.toNat_ofInt]
  omega

theorem ofInt_two_pow (k : Nat) : BitVec.ofInt 32 (2 ^ k) = BitVec.twoPow 32 k := by
  refine BitVec.eq_of_toNat_eq ?_
  have hcast : (2 : Int) ^ k = ((2 ^ k : Nat) : Int) := by rw [Nat.cast_pow, Nat.cast_ofNat]
  rw [hcast, BitVec.ofInt_natCast, BitVec.toNat_ofNat, BitVec.toNat_twoPow]

/-- Whether the low 32 bits of the operands decide about those of the result. Division, comparison
and the shift that keeps the sign look at the bits above. -/
def readsLowBits : Operator → Bool
  | add | sub | mul | or | and | xor | shl | ushr => true
  | div | rem | eq | ne | lt | gt | le | ge | shr => false

/-- Such an operation on integers of unbounded width is the operation on their low 32 bits. -/
theorem ofInt_onInt_of_readsLowBits {op : Operator} (h : op.readsLowBits = true) (a b : Int) :
    BitVec.ofInt 32 (op.onInt a b) = op.onWord (BitVec.ofInt 32 a) (BitVec.ofInt 32 b) := by
  cases op with
  | add => rw [onInt, BitVec.ofInt_add, onWord]
  | sub => rw [onInt, Int.sub_eq_add_neg, BitVec.ofInt_add, BitVec.ofInt_neg, onWord,
      BitVec.sub_eq_add_neg]
  | mul => rw [onInt, BitVec.ofInt_mul, onWord]
  | or => rw [onInt, Bitwise.ofInt_or, onWord]
  | and => rw [onInt, Bitwise.ofInt_and, onWord]
  | xor => rw [onInt, Bitwise.ofInt_xor, onWord]
  | shl =>
    rw [onInt, Int.shiftLeft_eq, BitVec.ofInt_mul, distance_eq, onWord,
      BitVec.shiftLeft_eq_mul_twoPow, ofInt_two_pow]
  | ushr =>
    refine BitVec.eq_of_toNat_eq ?_
    rw [onInt, distance_eq, and_mask_eq, onWord, BitVec.toNat_ushiftRight]
    exact Nat.mod_eq_of_lt (lt_of_le_of_lt (Nat.shiftRight_le _ _) (BitVec.isLt _))
  | div | rem | eq | ne | lt | gt | le | ge | shr => simp [readsLowBits] at h

/-- The low 32 bits of an operation on integers are those of the operation on words. -/
theorem ofInt_onInt (op : Operator) (a b : BitVec 32) :
    BitVec.ofInt 32 (op.onInt a.toInt b.toInt) = op.onWord a b := by
  cases op with
  | add | sub | mul | or | and | xor | shl | ushr =>
    simpa only [BitVec.ofInt_toInt] using ofInt_onInt_of_readsLowBits rfl a.toInt b.toInt
  | div =>
    refine BitVec.eq_of_toInt_eq ?_
    rw [BitVec.toInt_ofInt, onWord, BitVec.toInt_sdiv, onInt, quotient_eq_tdiv]
  | rem => rw [onInt, remainder_eq_tmod, ← BitVec.toInt_srem, BitVec.ofInt_toInt, onWord]
  | eq =>
    rw [onInt, ofInt_truth, onWord]
    exact congrArg truthWord (decide_eq_decide.mpr BitVec.toInt_inj)
  | ne =>
    rw [onInt, ofInt_truth, onWord]
    refine congrArg truthWord ?_
    rw [decide_not, decide_eq_decide.mpr BitVec.toInt_inj]
    rfl
  | lt => rw [onInt, ofInt_truth, onWord, BitVec.slt_eq_decide]
  | gt => rw [onInt, ofInt_truth, onWord, BitVec.slt_eq_decide]
  | le => rw [onInt, ofInt_truth, onWord, BitVec.sle_eq_decide]
  | ge => rw [onInt, ofInt_truth, onWord, BitVec.sle_eq_decide]
  | shr =>
    rw [onInt, distance_eq, ← BitVec.toInt_sshiftRight, BitVec.ofInt_toInt, BitVec.ofInt_toInt,
      onWord]

theorem toInt_onWord (op : Operator) (a b : BitVec 32) :
    (op.onWord a b).toInt = Word32.wrap (op.onInt a.toInt b.toInt) := by
  rw [← ofInt_onInt, Word32.toInt_ofInt]

/-- Folding two constants yields what the machine yields, and traps where the machine does. -/
theorem fold?_toInt (op : Operator) (a b : BitVec 32) :
    op.fold? a.toInt b.toInt = (op.onWord? a b).map BitVec.toInt := by
  have hzero : b.toInt = 0 ↔ b = 0 := by rw [← BitVec.toInt_zero (w := 32), BitVec.toInt_inj]; rfl
  rw [fold?, onWord?]
  simp only [hzero]
  split
  · rfl
  · rw [Option.map_some, toInt_onWord]

end Operator

end ProgramAnalysis
