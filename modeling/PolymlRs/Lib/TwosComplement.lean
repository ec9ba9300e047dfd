import Mathlib.Data.Int.Bitwise

set_option autoImplicit false

/-! # Integers as bits without end

An integer is the sequence of its two's-complement bits, which are constant from some place on. It lies
in `[-2 ^ k, 2 ^ k)` when they are from place `k` on, and so any operation that works bit by bit stays in
the range of its operands. -/

namespace Int

theorem testBit_natCast (m i : Nat) : (m : Int).testBit i = m.testBit i := rfl

theorem testBit_negSucc (m i : Nat) : (Int.negSucc m).testBit i = !m.testBit i := rfl

/-- The range of `k + 1` bits, in terms of the bits. -/
theorem bounded_iff_testBit {n : Int} {k : Nat} :
    -(2 ^ k) ≤ n ∧ n < 2 ^ k ↔ ∀ i, k ≤ i → n.testBit i = n.testBit k := by
  have small : ∀ m : Nat, m < 2 ^ k ↔ ∀ i, k ≤ i → m.testBit i = m.testBit k := by
    intro m
    constructor
    · intro hm i hi
      have hmi : m < 2 ^ i := Nat.lt_of_lt_of_le hm (Nat.pow_le_pow_right (by decide) hi)
      rw [Nat.testBit_lt_two_pow hm, Nat.testBit_lt_two_pow hmi]
    · intro h
      refine Nat.lt_pow_two_of_testBit m (fun i hi => ?_)
      have hlt : m < 2 ^ max k m :=
        Nat.lt_of_le_of_lt (Nat.le_max_right k m) (max k m).lt_two_pow_self
      rw [h i hi, ← h (max k m) (Nat.le_max_left k m), Nat.testBit_lt_two_pow hlt]
  have hpow : ((2 ^ k : Nat) : Int) = 2 ^ k := by simp
  cases n with
  | ofNat m =>
    simp only [Int.ofNat_eq_natCast, testBit_natCast]
    rw [← small m]
    omega
  | negSucc m =>
    simp only [testBit_negSucc, Bool.not_inj_iff]
    rw [← small m]
    omega

/-- An operation on bits keeps the range of its operands. -/
theorem bounded_of_testBit {f : Bool → Bool → Bool} {m n r : Int} {k : Nat}
    (hr : ∀ i, r.testBit i = f (m.testBit i) (n.testBit i)) (hm : -(2 ^ k) ≤ m ∧ m < 2 ^ k)
    (hn : -(2 ^ k) ≤ n ∧ n < 2 ^ k) : -(2 ^ k) ≤ r ∧ r < 2 ^ k := by
  rw [bounded_iff_testBit] at hm hn ⊢
  intro i hi
  rw [hr i, hr k, hm i hi, hn i hi]

end Int

/-- The bits of a machine word that holds an integer. -/
theorem BitVec.getLsbD_ofInt_testBit (w : Nat) (n : Int) (i : Nat) :
    (BitVec.ofInt w n).getLsbD i = (decide (i < w) && n.testBit i) := by
  cases n with
  | ofNat m =>
    rw [Int.ofNat_eq_natCast, BitVec.ofInt_natCast, BitVec.getLsbD_ofNat, Int.testBit_natCast]
  | negSucc m =>
    rw [BitVec.ofInt_negSucc_eq_not_ofNat, BitVec.getLsbD_not, BitVec.getLsbD_ofNat,
      Int.testBit_negSucc]
    by_cases hi : i < w <;> simp [hi]
