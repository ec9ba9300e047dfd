import Mathlib.Data.Nat.Digits.Defs
import Mathlib.Data.Nat.Digits.Lemmas

set_option autoImplicit false

/-! # Positional numerals in blocks

Little-endian digits, grouped into blocks of equal length, are the digits of the same number in the
larger base. A magnitude has no leading zero block exactly when it exceeds what fewer blocks hold. -/

namespace Radix

variable {α : Type}

/-- One digit, read off the value. -/
theorem ofDigits_div_mod {b : Nat} {ds : List Nat} (hb : 0 < b) (hds : ∀ d ∈ ds, d < b) {i : Nat}
    (hi : i < ds.length) : Nat.ofDigits b ds / b ^ i % b = ds[i] := by
  rw [Nat.ofDigits_div_pow_eq_ofDigits_drop i hb ds hds, List.drop_eq_getElem_cons hi,
    Nat.ofDigits_cons, Nat.add_mul_mod_self_left, Nat.mod_eq_of_lt (hds _ (List.getElem_mem hi))]

/-- Blocks of `k` digits are digits in base `b ^ k`. -/
theorem ofDigits_flatMap {b k : Nat} {f : α → List Nat} (xs : List α)
    (hk : ∀ x ∈ xs, (f x).length = k) :
    Nat.ofDigits b (xs.flatMap f) = Nat.ofDigits (b ^ k) (xs.map (fun x => Nat.ofDigits b (f x))) := by
  induction xs with
  | nil => rfl
  | cons x xs ih =>
    have hrest := ih (fun y hy => hk y (List.mem_cons_of_mem _ hy))
    rw [List.flatMap_cons, Nat.ofDigits_append, hk x List.mem_cons_self, hrest, List.map_cons,
      Nat.ofDigits_cons]

/-- Without its last digit a numeral is smaller than the power of that place. -/
theorem lt_of_getLast_eq_zero {b k : Nat} {ds : List Nat} (hb : 1 < b) (hds : ∀ d ∈ ds, d < b)
    (hlen : ds.length = k + 1) (hlast : ds[k]? = some 0) : Nat.ofDigits b ds < b ^ k := by
  have hsplit : ds = ds.take k ++ [0] := by
    obtain ⟨hk, hzero⟩ := List.getElem?_eq_some_iff.1 hlast
    have h := List.take_append_drop k ds
    rw [List.drop_eq_getElem_cons hk, hzero, List.drop_eq_nil_of_le (by omega)] at h
    exact h.symm
  have htake : (ds.take k).length = k := by
    rw [List.length_take]
    omega
  rw [hsplit, Nat.ofDigits_append_zero]
  have hlt := @Nat.ofDigits_lt_base_pow_length b (ds.take k) hb
    (fun d hd => hds d (List.mem_of_mem_take hd))
  rwa [htake] at hlt

/-- The digits of a nonzero number reach its highest power. -/
theorem pow_le_of_length_digits {b n k : Nat} (hb : 1 < b) (hn : n ≠ 0)
    (hk : k < (Nat.digits b n).length) : b ^ k ≤ n := by
  have hle := Nat.base_pow_length_digits_le b n hb hn
  have hpow : b * b ^ k ≤ b ^ (Nat.digits b n).length := by
    rw [← Nat.pow_succ']
    exact Nat.pow_le_pow_right (by omega) hk
  exact Nat.le_of_mul_le_mul_left (Nat.le_trans hpow hle) (by omega)

end Radix
