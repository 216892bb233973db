/-!
# 32-bit words as integers

A 32-bit word in two's complement is written as the integer that it denotes, between `-2^31` and
`2^31 - 1`. `wrap` sends an arbitrary integer to the word with the same low 32 bits.

The bitwise operations are those on integers of unbounded width, in which a negative number has
infinitely many leading ones: `-[n+1]` is the complement of `n`. To mask low bits out with them is
to take a remainder, whatever the sign.
-/

namespace ProgramAnalysis

namespace Bitwise

/-- The bits of `m` that `n` does not have. -/
def clear (m n : Nat) : Nat := m ^^^ (m &&& n)

/-- Bitwise conjunction of integers. -/
def and : Int → Int → Int
  | .ofNat m, .ofNat n => .ofNat (m &&& n)
  | .ofNat m, .negSucc n => .ofNat (clear m n)
  | .negSucc m, .ofNat n => .ofNat (clear n m)
  | .negSucc m, .negSucc n => .negSucc (m ||| n)

/-- Bitwise disjunction of integers. -/
def or : Int → Int → Int
  | .ofNat m, .ofNat n => .ofNat (m ||| n)
  | .ofNat m, .negSucc n => .negSucc (clear n m)
  | .negSucc m, .ofNat n => .negSucc (clear m n)
  | .negSucc m, .negSucc n => .negSucc (m &&& n)

/-- Bitwise exclusive disjunction of integers. -/
def xor : Int → Int → Int
  | .ofNat m, .ofNat n => .ofNat (m ^^^ n)
  | .ofNat m, .negSucc n => .negSucc (m ^^^ n)
  | .negSucc m, .ofNat n => .negSucc (m ^^^ n)
  | .negSucc m, .negSucc n => .ofNat (m ^^^ n)

/-! ## Masks

A one that is shifted by `k` places is bit `k`, and one less than that is a row of `k` ones. -/

/-- To take bits away from a row of ones is to subtract. -/
theorem clear_ones (k n : Nat) : clear (1 <<< k - 1) n = 1 <<< k - (n % 1 <<< k + 1) := by
  rw [Nat.one_shiftLeft]
  have hlt : n % 2 ^ k < 2 ^ k := Nat.mod_lt n (Nat.two_pow_pos k)
  rw [clear, Nat.and_comm, Nat.and_two_pow_sub_one_eq_mod]
  refine Nat.eq_of_testBit_eq fun i ↦ ?_
  rw [Nat.testBit_xor, Nat.testBit_two_pow_sub_one, Nat.testBit_two_pow_sub_succ hlt]
  by_cases hi : i < k
  · simp [hi]
  · have hle : 2 ^ k ≤ 2 ^ i := Nat.pow_le_pow_right (by decide) (Nat.le_of_not_lt hi)
    simp [hi, Nat.testBit_lt_two_pow (Nat.lt_of_lt_of_le hlt hle)]

/-- A mask of `k` ones leaves the remainder, also of a negative number. -/
theorem and_ones (n : Int) (k : Nat) :
    and n ((1 <<< k - 1 : Nat) : Int) = n % ((1 <<< k : Nat) : Int) := by
  cases n with
  | ofNat m =>
    rw [Nat.one_shiftLeft]
    exact congrArg Int.ofNat (Nat.and_two_pow_sub_one_eq_mod m k)
  | negSucc m =>
    have hpos : 0 < 1 <<< k := by
      rw [Nat.one_shiftLeft]
      exact Nat.two_pow_pos k
    have hlt : m % 1 <<< k < 1 <<< k := Nat.mod_lt m hpos
    change Int.ofNat (clear (1 <<< k - 1) m) = _
    rw [clear_ones, Int.negSucc_emod m (Int.natCast_pos.mpr hpos)]
    simp only [Int.ofNat_eq_natCast]
    omega

/-- Among the numbers of `k + 1` bits, bit `k` tells the upper half. -/
theorem and_bit_eq_zero_iff {m k : Nat} (h : m < 1 <<< (k + 1)) :
    m &&& 1 <<< k = 0 ↔ m < 1 <<< k := by
  rw [Nat.one_shiftLeft] at h ⊢
  constructor
  · intro hzero
    have hbit : m.testBit k = false := by
      have hk := congrArg (Nat.testBit · k) hzero
      simpa [Nat.testBit_and, Nat.testBit_two_pow] using hk
    refine Nat.lt_pow_two_of_testBit m fun i hi ↦ ?_
    by_cases hik : i = k
    · rw [hik, hbit]
    · exact Nat.testBit_lt_two_pow
        (Nat.lt_of_lt_of_le h (Nat.pow_le_pow_right (by decide) (by omega)))
  · intro hlt
    refine Nat.eq_of_testBit_eq fun i ↦ ?_
    rw [Nat.testBit_and, Nat.testBit_two_pow, Nat.zero_testBit]
    by_cases hik : k = i
    · rw [← hik, Nat.testBit_lt_two_pow hlt, Bool.false_and]
    · simp [hik]

end Bitwise

namespace Word32

/-- The number of words, `2 ^ 32`. -/
abbrev count : Nat := 4294967296

/-- The signed word with the same low 32 bits. These are masked out, and the highest of them tells
whether the word is negative. -/
def wrap (n : Int) : Int :=
  let low := Bitwise.and n 0xFFFFFFFF
  if Bitwise.and low 0x80000000 ≠ 0 then low - count else low

/-- Wrapping is taking the balanced remainder. -/
theorem wrap_eq_bmod (n : Int) : wrap n = n.bmod count := by
  have hlow : Bitwise.and n 0xFFFFFFFF = n % count := Bitwise.and_ones n 32
  obtain ⟨m, hm⟩ := Int.eq_ofNat_of_zero_le (Int.emod_nonneg n (b := (count : Int)) (by decide))
  have hlt : m < 1 <<< (31 + 1) := by
    have hmod := Int.emod_lt_of_pos n (b := (count : Int)) (by decide)
    rw [hm, count] at hmod
    omega
  have hsign : Bitwise.and m 0x80000000 ≠ 0 ↔ ¬m < 1 <<< 31 :=
    (not_congr Int.ofNat_eq_zero).trans (not_congr (Bitwise.and_bit_eq_zero_iff hlt))
  rw [wrap, Int.bmod, hlow, hm]
  simp only [hsign, count]
  split <;> split <;> omega

/-- Lies in the range of signed 32-bit words, from `-2 ^ 31` up to below `2 ^ 31`. -/
def InRange (n : Int) : Prop := -2147483648 ≤ n ∧ n < 2147483648

instance (n : Int) : Decidable (InRange n) :=
  inferInstanceAs (Decidable (-2147483648 ≤ n ∧ n < 2147483648))

theorem inRange_wrap (n : Int) : InRange (wrap n) := by
  have h₁ := Int.le_bmod (x := n) (m := count) (by decide)
  have h₂ := Int.bmod_lt (x := n) (m := count) (by decide)
  simp only [count] at h₁ h₂
  simp only [InRange, wrap_eq_bmod, count]
  omega

theorem wrap_eq_self {n : Int} (h : InRange n) : wrap n = n := by
  obtain ⟨h₁, h₂⟩ := h
  simp only [wrap_eq_bmod, Int.bmod, count]
  split <;> omega

@[simp] theorem wrap_wrap (n : Int) : wrap (wrap n) = wrap n := wrap_eq_self (inRange_wrap n)

end Word32

end ProgramAnalysis
