import Mathlib.Data.Nat.Digits.Defs
import Mathlib.Data.Nat.Digits.Lemmas

set_option autoImplicit false

/-! # Decimal and hexadecimal numerals as bytes

The formatting and parsing of numbers that a text format rests on: decimal digits without leading
zeros, two lowercase hexadecimal digits for a byte, and the values they denote. -/

/-- An ASCII decimal digit. -/
def isAsciiDigit (b : UInt8) : Bool := decide (48 ≤ b ∧ b ≤ 57)

/-- The decimal digits of `n`, most significant first. -/
def decimal (n : Nat) : List UInt8 :=
  if n = 0 then [48] else (Nat.digits 10 n).reverse.map (fun d => UInt8.ofNat (48 + d))

/-- The number a run of decimal digits denotes. -/
def digitsValue (ds : List UInt8) : Nat := ds.foldl (fun n d => 10 * n + (d.toNat - 48)) 0

theorem isAsciiDigit_ofNat {d : Nat} (h : d < 10) : isAsciiDigit (UInt8.ofNat (48 + d)) = true := by
  have hd : (UInt8.ofNat (48 + d)).toNat = 48 + d := by
    rw [UInt8.toNat_ofNat']
    omega
  simp only [isAsciiDigit, decide_eq_true_eq, UInt8.le_iff_toNat_le, hd, UInt8.reduceToNat]
  omega

theorem isAsciiDigit_decimal (n : Nat) : ∀ b ∈ decimal n, isAsciiDigit b = true := by
  intro b hb
  unfold decimal at hb
  split at hb
  · rw [List.mem_singleton.1 hb]
    rfl
  · obtain ⟨d, hd, rfl⟩ := List.mem_map.1 hb
    exact isAsciiDigit_ofNat (Nat.digits_lt_base (by omega) (List.mem_reverse.1 hd))

theorem decimal_ne_nil (n : Nat) : decimal n ≠ [] := by
  unfold decimal
  split
  · simp
  · rename_i h
    rw [ne_eq, List.map_eq_nil_iff, List.reverse_eq_nil_iff]
    exact Nat.digits_ne_nil_iff_ne_zero.2 h

/-- The first digit, and that it is one. -/
theorem decimal_cons (n : Nat) : ∃ b t, decimal n = b :: t ∧ isAsciiDigit b = true := by
  cases h : decimal n with
  | nil => exact absurd h (decimal_ne_nil n)
  | cons b t => exact ⟨b, t, rfl, isAsciiDigit_decimal n b (by rw [h]; exact List.mem_cons_self)⟩

/-- Decimal digits denote the number they were made from. -/
theorem digitsValue_decimal (n : Nat) : digitsValue (decimal n) = n := by
  unfold decimal
  split
  · rename_i h
    rw [h]
    rfl
  · have hfold : ∀ ds : List Nat, (∀ d ∈ ds, d < 10) →
        (ds.map (fun d => UInt8.ofNat (48 + d))).foldr (fun d n => 10 * n + (d.toNat - 48)) 0 =
          Nat.ofDigits 10 ds := by
      intro ds
      induction ds with
      | nil => intro _; rfl
      | cons d ds ih =>
        intro hlt
        have hd := hlt d List.mem_cons_self
        have hnat : (UInt8.ofNat (48 + d)).toNat = 48 + d := by
          rw [UInt8.toNat_ofNat']
          omega
        rw [List.map_cons, List.foldr_cons, ih (fun x hx => hlt x (List.mem_cons_of_mem _ hx)), hnat,
          Nat.ofDigits_cons]
        omega
    rw [digitsValue, List.map_reverse, List.foldl_reverse,
      hfold _ (fun d hd => Nat.digits_lt_base (by omega) hd), Nat.ofDigits_digits]

/-! ## Hexadecimal -/

/-- The value of a hexadecimal digit. -/
def hexValue (b : UInt8) : Option UInt8 :=
  if 48 ≤ b ∧ b ≤ 57 then some (b - 48)
  else if 97 ≤ b ∧ b ≤ 102 then some (10 + b - 97)
  else if 65 ≤ b ∧ b ≤ 70 then some (10 + b - 65)
  else none

/-- The lowercase hexadecimal digit of a number below 16. -/
def hexDigit (d : UInt8) : UInt8 := if d < 10 then 48 + d else 87 + d

/-- Two lowercase hexadecimal digits. -/
def hexByte (b : UInt8) : List UInt8 := [hexDigit (b >>> 4), hexDigit (b &&& 0xf)]

/-- The two digits of a byte denote it. -/
theorem hexValue_hexByte (b : UInt8) : ∃ h l, hexValue (hexDigit (b >>> 4)) = some h ∧
    hexValue (hexDigit (b &&& 0xf)) = some l ∧ (h <<< 4) ||| l = b := by
  refine ⟨b >>> 4, b &&& 0xf, ?_⟩
  have hall : ∀ i : Fin 256, hexValue (hexDigit (UInt8.ofNat i >>> 4)) = some (UInt8.ofNat i >>> 4) ∧
      hexValue (hexDigit (UInt8.ofNat i &&& 0xf)) = some (UInt8.ofNat i &&& 0xf) ∧
      ((UInt8.ofNat i >>> 4) <<< 4) ||| (UInt8.ofNat i &&& 0xf) = UInt8.ofNat i := by
    decide +kernel
  have hb := hall ⟨b.toNat, b.toNat_lt⟩
  rwa [UInt8.ofNat_toNat] at hb
