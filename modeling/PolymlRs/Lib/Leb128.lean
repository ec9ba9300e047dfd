import Mathlib.Data.Nat.Digits.Defs
import Mathlib.Data.Nat.Digits.Lemmas

set_option autoImplicit false

/-! # LEB128

A natural number as a group of bytes: seven bits in each, the lowest first, and bit 7 set in all but
the last. A group may be padded with zero payloads, so its length bounds the number only from
above. -/

namespace Leb128

/-- The payloads of the group at the start of `bs`; `none` when the bytes end inside it. -/
def payloads : List UInt8 → Option (List Nat)
  | [] => none
  | b :: bs => if b.toNat < 128 then some [b.toNat] else (payloads bs).map (b.toNat % 128 :: ·)

/-- The number that a group denotes. -/
def number (ds : List Nat) : Nat := Nat.ofDigits 128 ds

theorem payloads_stop {b : UInt8} (h : b.toNat < 128) (bs : List UInt8) :
    payloads (b :: bs) = some [b.toNat % 128] := by
  rw [payloads, if_pos h, Nat.mod_eq_of_lt h]

theorem payloads_more {b : UInt8} (h : ¬b.toNat < 128) (bs : List UInt8) :
    payloads (b :: bs) = (payloads bs).map (b.toNat % 128 :: ·) := by
  rw [payloads, if_neg h]

/-- A group is not empty, and its payloads are digits. -/
theorem payloads_spec : ∀ {bs : List UInt8} {ds : List Nat}, payloads bs = some ds →
    0 < ds.length ∧ ∀ d ∈ ds, d < 128
  | b :: bs, ds, h => by
    by_cases hb : b.toNat < 128
    · rw [payloads_stop hb] at h
      cases h
      exact ⟨Nat.one_pos, fun d hd => by rw [List.mem_singleton.1 hd]; omega⟩
    · rw [payloads_more hb] at h
      obtain ⟨tl, htl, rfl⟩ := Option.map_eq_some_iff.1 h
      refine ⟨Nat.succ_pos _, fun d hd => ?_⟩
      rcases List.mem_cons.1 hd with rfl | hd
      · omega
      · exact (payloads_spec htl).2 d hd

theorem number_cons (d : Nat) (ds : List Nat) : number (d :: ds) = d + 128 * number ds :=
  Nat.ofDigits_cons

theorem number_singleton (d : Nat) : number [d] = d := Nat.ofDigits_singleton

theorem number_ne_zero_iff (ds : List Nat) : number ds ≠ 0 ↔ ∃ d ∈ ds, d ≠ 0 := by
  induction ds with
  | nil => simp [number]
  | cons d ds ih =>
    rw [number_cons, List.exists_mem_cons_iff, ← ih]
    omega

theorem number_lt {ds : List Nat} (h : ∀ d ∈ ds, d < 128) : number ds < 128 ^ ds.length :=
  Nat.ofDigits_lt_base_pow_length (by decide) h

/-- The low `k` payloads and the rest. -/
theorem number_split {ds : List Nat} {k : Nat} (hk : k ≤ ds.length) :
    number ds = number (ds.take k) + 128 ^ k * number (ds.drop k) := by
  have hlen : (ds.take k).length = k := by
    rw [List.length_take]
    omega
  conv_lhs => rw [← List.take_append_drop k ds]
  unfold number
  rw [Nat.ofDigits_append, hlen]

/-- The low `k` payloads are less than the weight of the next one. -/
theorem number_lt_iff {ds : List Nat} {k m : Nat} (h : ∀ d ∈ ds, d < 128) (hk : k ≤ ds.length) :
    number ds < 128 ^ k * m ↔ number (ds.drop k) < m := by
  have hlen : (ds.take k).length = k := by
    rw [List.length_take]
    omega
  have hlow : number (ds.take k) < 128 ^ k := by
    have hlt := number_lt (fun d hd => h d (List.mem_of_mem_take hd) : ∀ d ∈ ds.take k, d < 128)
    rwa [hlen] at hlt
  rw [number_split hk]
  constructor
  · intro hlt
    exact Nat.lt_of_mul_lt_mul_left (Nat.lt_of_le_of_lt (Nat.le_add_left ..) hlt)
  · intro hlt
    calc number (ds.take k) + 128 ^ k * number (ds.drop k)
        < 128 ^ k + 128 ^ k * number (ds.drop k) := Nat.add_lt_add_right hlow _
      _ = 128 ^ k * (number (ds.drop k) + 1) := by rw [Nat.mul_add, Nat.mul_one, Nat.add_comm]
      _ ≤ 128 ^ k * m := Nat.mul_le_mul_left _ hlt

end Leb128
