import Mathlib.Algebra.GroupWithZero.Nat
import Mathlib.Data.Nat.Basic
import Mathlib.Logic.Function.Basic

set_option autoImplicit false

/-! # Machine words, tags and length words

One slot of the heap is a `PolyWord`: 64 bits, a tagged integer when bit 0 is set and an object
pointer otherwise. A pointer names the first *body* word of an object; the word before it is the
object's length word, whose top byte holds the flags and whose other 56 bits hold the length.

A forwarded object's length word is overwritten by the address of its copy with the tombstone bit
(bit 63) set. `tombstone_forwardPtr` is the fact the collector rests on: for an address below
`2^63` the two encodings do not interfere. -/

/-- A single machine-word slot in the heap. -/
abbrev PolyWord := BitVec 64

/-- `size_of::<usize>()`. -/
abbrev wordBytes : Nat := 8

/-- Word-granular memory, keyed by the byte address of the word. -/
abbrev Mem := Nat → PolyWord

namespace PolyWord

/-- All zero bits: a placeholder, neither a tagged integer nor an object. -/
def zero : PolyWord := 0#64

/-- Tag a signed integer. -/
def tagged (n : Int) : PolyWord := (BitVec.ofInt 64 n <<< 1) ||| 1#64

/-- The raw bit pattern of an address. -/
def fromAddr (a : Nat) : PolyWord := BitVec.ofNat 64 a

/-- The address a word denotes when it is read as a pointer. -/
def addr (w : PolyWord) : Nat := w.toNat

def isTagged (w : PolyWord) : Bool := w &&& 1#64 != 0#64

def isDataPtr (w : PolyWord) : Bool := w != 0#64 && w &&& 1#64 == 0#64

/-- The payload of a tagged word: an arithmetic right shift. -/
def untag (w : PolyWord) : Int := (w.sshiftRight 1).toInt

/-- `isize::MAX >> 1`. -/
def maxTagged : Int := 4611686018427387903

/-- `isize::MIN >> 1`. -/
def minTagged : Int := -4611686018427387904

theorem addr_lt (w : PolyWord) : w.addr < 0x10000000000000000 := w.isLt

@[simp] theorem addr_fromAddr {a : Nat} (h : a < 0x10000000000000000) : (fromAddr a).addr = a :=
  Nat.mod_eq_of_lt h

@[simp] theorem fromAddr_addr (w : PolyWord) : fromAddr w.addr = w := by
  simp [fromAddr, addr]

theorem isTagged_eq (w : PolyWord) : w.isTagged = decide (w.addr % 2 = 1) := by
  have h1 : (w &&& 1#64).toNat = w.toNat % 2 := by
    rw [BitVec.toNat_and]
    exact Nat.and_one_is_mod _
  have hz : (w &&& 1#64 = 0#64) ↔ w.toNat % 2 = 0 := by
    rw [← h1]
    exact ⟨fun h => by rw [h]; rfl, fun h => BitVec.eq_of_toNat_eq (by simpa using h)⟩
  by_cases h : w.toNat % 2 = 0
  · have hw := hz.2 h
    simp [isTagged, hw, addr, h]
  · have hw : ¬ (w &&& 1#64 = 0#64) := fun he => h (hz.1 he)
    have : w.toNat % 2 = 1 := by omega
    simp [isTagged, hw, addr, this]

theorem isTagged_fromAddr {a : Nat} (h : a < 0x10000000000000000) :
    (fromAddr a).isTagged = decide (a % 2 = 1) := by
  rw [isTagged_eq, addr_fromAddr h]

theorem toNat_tagged (n : Int) : (tagged n).toNat = 2 * ((BitVec.ofInt 64 n).toNat % 2 ^ 63) + 1 := by
  have hlow : (BitVec.ofInt 64 n <<< 1 &&& 1#64) = 0#64 := by
    apply BitVec.eq_of_getLsbD_eq
    intro i hi
    by_cases h0 : i = 0
    · subst h0
      simp
    · simp [BitVec.getLsbD_one, h0]
  rw [tagged, ← BitVec.add_eq_or_of_and_eq_zero _ _ hlow, BitVec.toNat_add, BitVec.toNat_shiftLeft,
    BitVec.toNat_ofNat, Nat.shiftLeft_eq]
  omega

theorem isTagged_tagged (n : Int) : (tagged n).isTagged = true := by
  rw [isTagged_eq, addr, toNat_tagged]
  exact decide_eq_true (by omega)

/-- The payload survives when it fits in 63 bits. -/
theorem untag_tagged {n : Int} (hlo : minTagged ≤ n) (hhi : n ≤ maxTagged) : (tagged n).untag = n := by
  unfold minTagged at hlo
  unfold maxTagged at hhi
  have hnat := toNat_tagged n
  have hof : ((BitVec.ofInt 64 n).toNat : Int) = n % 2 ^ 64 := by
    rw [BitVec.toNat_ofInt]
    omega
  rw [untag, BitVec.toInt_sshiftRight, BitVec.toInt_eq_toNat_cond, Int.shiftRight_eq_div_pow]
  split <;> omega

/-- The payload of a tagged word is in range and determines the word. -/
theorem tagged_untag {w : PolyWord} (h : w.isTagged = true) :
    minTagged ≤ w.untag ∧ w.untag ≤ maxTagged ∧ tagged w.untag = w := by
  rw [isTagged_eq] at h
  have hodd := of_decide_eq_true h
  have hlt := w.addr_lt
  unfold addr at hodd hlt
  have hval : w.untag =
      if w.toNat < 2 ^ 63 then (w.toNat / 2 : Int) else (w.toNat / 2 : Int) - 2 ^ 63 := by
    rw [untag, BitVec.toInt_sshiftRight, BitVec.toInt_eq_toNat_cond, Int.shiftRight_eq_div_pow]
    split <;> split <;> omega
  have hof : ((BitVec.ofInt 64 w.untag).toNat : Int) = w.untag % 2 ^ 64 := by
    rw [BitVec.toNat_ofInt]
    omega
  have hword := toNat_tagged w.untag
  generalize w.untag = n at hval hof hword ⊢
  unfold minTagged maxTagged
  refine ⟨?_, ?_, BitVec.eq_of_toNat_eq ?_⟩ <;> split at hval <;> omega

end PolyWord

/-! ## The flag byte -/

def fByteObj : BitVec 8 := 0x01#8
def fCodeObj : BitVec 8 := 0x02#8
def fClosureObj : BitVec 8 := 0x03#8
def fNoOverwrite : BitVec 8 := 0x08#8
def fNegativeBit : BitVec 8 := 0x10#8
def fWeakBit : BitVec 8 := 0x20#8
def fMutableBit : BitVec 8 := 0x40#8
def fTombstoneBit : BitVec 8 := 0x80#8

/-- The flag byte sits in the top byte of a length word. -/
abbrev flagsShift : Nat := 56

def flagsMask : PolyWord := 0xff#64 <<< flagsShift

def lengthMask : PolyWord := ~~~flagsMask

/-- Pack a length (in words) and a flag byte into a length word. -/
def makeLengthWord (length : Nat) (flags : BitVec 8) : PolyWord :=
  BitVec.ofNat 64 length ||| (flags.setWidth 64 <<< flagsShift)

def lengthOf (w : PolyWord) : Nat := (w &&& lengthMask).toNat

def flagsOf (w : PolyWord) : BitVec 8 := (w >>> flagsShift).setWidth 8

/-- Low two bits of the flag byte: the type code. -/
def typeOf (w : PolyWord) : BitVec 8 := flagsOf w &&& 0x03#8

def isMutable (w : PolyWord) : Bool := flagsOf w &&& fMutableBit != 0#8

def isWeak (w : PolyWord) : Bool := flagsOf w &&& fWeakBit != 0#8

theorem getLsbD_flagsMask (i : Nat) : flagsMask.getLsbD i = decide (56 ≤ i ∧ i < 64) := by
  have h : (0xff#64) = BitVec.ofNat 64 (2 ^ 8 - 1) := rfl
  rw [flagsMask, h, BitVec.getLsbD_shiftLeft, BitVec.getLsbD_ofNat, Nat.testBit_two_pow_sub_one]
  simp only [flagsShift]
  by_cases h64 : i < 64
  · by_cases h56 : i < 56
    · have hlt : ¬ 56 ≤ i := by omega
      simp [h56, hlt]
    · have hlt : i - 56 < 8 := by omega
      have hge : 56 ≤ i := by omega
      simp [h64, h56, hlt, hge, Nat.lt_trans hlt]
  · simp [h64]

theorem makeLengthWord_lengthOf_flagsOf (w : PolyWord) :
    makeLengthWord (lengthOf w) (flagsOf w) = w := by
  apply BitVec.eq_of_getLsbD_eq
  intro i hi
  have hm := getLsbD_flagsMask i
  simp only [makeLengthWord, lengthOf, flagsOf, lengthMask, flagsShift, BitVec.ofNat_toNat,
    BitVec.setWidth_eq, BitVec.getLsbD_or, BitVec.getLsbD_and, BitVec.getLsbD_not, hm,
    BitVec.getLsbD_shiftLeft, BitVec.getLsbD_setWidth, BitVec.getLsbD_ushiftRight, hi]
  by_cases h56 : i < 56
  · have : ¬ 56 ≤ i := by omega
    simp [h56, this]
  · have hge : 56 ≤ i := by omega
    have hsub : i - 56 < 8 := by omega
    have hsub' : i - 56 < 64 := by omega
    have hadd : 56 + (i - 56) = i := by omega
    simp [h56, hge, hsub, hsub', hadd]

theorem lengthOf_lt (w : PolyWord) : lengthOf w < 0x100000000000000 := by
  refine Nat.lt_of_lt_of_le (@Nat.lt_pow_two_of_testBit 56 _ ?_) (by decide)
  intro i hi
  have h : (lengthOf w).testBit i = (w &&& lengthMask).getLsbD i := rfl
  rw [h, BitVec.getLsbD_and, lengthMask, BitVec.getLsbD_not, getLsbD_flagsMask]
  by_cases h64 : i < 64
  · simp [h64, hi]
  · simp [h64]

theorem lengthOf_makeLengthWord {n : Nat} (flags : BitVec 8) (h : n < 0x100000000000000) :
    lengthOf (makeLengthWord n flags) = n := by
  have hword : makeLengthWord n flags &&& lengthMask = BitVec.ofNat 64 n := by
    apply BitVec.eq_of_getLsbD_eq
    intro i hi
    rw [BitVec.getLsbD_and, lengthMask, BitVec.getLsbD_not, getLsbD_flagsMask, makeLengthWord,
      BitVec.getLsbD_or, BitVec.getLsbD_shiftLeft]
    by_cases h56 : i < 56
    · have hge : ¬56 ≤ i := by omega
      simp [flagsShift, h56, hge, hi]
    · have hge : 56 ≤ i := by omega
      have hbit : n.testBit i = false :=
        Nat.testBit_lt_two_pow (Nat.lt_of_lt_of_le h (Nat.pow_le_pow_right (n := 2) (by decide) hge))
      have hzero : (BitVec.ofNat 64 n).getLsbD i = false := by
        rw [BitVec.getLsbD_ofNat, hbit, Bool.and_false]
      rw [hzero]
      simp [hge, hi]
  rw [lengthOf, hword, BitVec.toNat_ofNat, Nat.mod_eq_of_lt (by omega)]

theorem flagsOf_makeLengthWord {n : Nat} (flags : BitVec 8) (h : n < 0x100000000000000) :
    flagsOf (makeLengthWord n flags) = flags := by
  apply BitVec.eq_of_getLsbD_eq
  intro i hi
  have hbit : n.testBit (56 + i) = false :=
    Nat.testBit_lt_two_pow (Nat.lt_of_lt_of_le h
      (Nat.pow_le_pow_right (n := 2) (by decide) (Nat.le_add_right 56 i)))
  have hzero : (BitVec.ofNat 64 n).getLsbD (56 + i) = false := by
    rw [BitVec.getLsbD_ofNat, hbit, Bool.and_false]
  have h64 : 56 + i < 64 := by omega
  rw [flagsOf, makeLengthWord, BitVec.getLsbD_setWidth, BitVec.getLsbD_ushiftRight,
    BitVec.getLsbD_or, hzero]
  simp [flagsShift, hi, h64]

/-! ## Tombstones -/

/-- `(F_TOMBSTONE_BIT as usize) << FLAGS_SHIFT`. -/
def tombBits : PolyWord := fTombstoneBit.setWidth 64 <<< flagsShift

/-- Has the object been forwarded? -/
def isTombstone (lw : PolyWord) : Bool := flagsOf lw &&& fTombstoneBit != 0#8

/-- The word stored over a forwarded object's length word. -/
def tombstone (newBody : Nat) : PolyWord := PolyWord.fromAddr newBody ||| tombBits

/-- The address of the copy, read back from a tombstone. -/
def forwardPtr (lw : PolyWord) : Nat := (lw &&& ~~~tombBits).addr

theorem tombBits_eq_twoPow : tombBits = BitVec.twoPow 64 63 := by decide

theorem isTombstone_eq (lw : PolyWord) : isTombstone lw = lw.getLsbD 63 := by
  have h : fTombstoneBit = BitVec.twoPow 8 7 := by decide
  have hz : BitVec.twoPow 8 7 ≠ 0#8 := by decide
  have hbit : (flagsOf lw).getLsbD 7 = lw.getLsbD 63 := by
    simp [flagsOf, flagsShift]
  rw [isTombstone, h, BitVec.and_twoPow, hbit]
  cases lw.getLsbD 63 <;> simp [hz]

theorem getLsbD_63_of_lt {a : Nat} (h : a < 0x8000000000000000) :
    (PolyWord.fromAddr a).getLsbD 63 = false := by
  have hm := BitVec.msb_eq_decide (PolyWord.fromAddr a)
  rw [BitVec.msb_eq_getLsbD_last] at hm
  have ha : (PolyWord.fromAddr a).toNat = a := PolyWord.addr_fromAddr (by omega)
  simp only [ha] at hm
  rw [hm]
  exact decide_eq_false (by omega)

theorem isTombstone_tombstone (a : Nat) : isTombstone (tombstone a) = true := by
  rw [isTombstone_eq, tombstone, tombBits_eq_twoPow, BitVec.getLsbD_or]
  simp

/-- Below `2^63` an address survives the round trip through a tombstone. -/
theorem forwardPtr_tombstone {a : Nat} (h : a < 0x8000000000000000) :
    forwardPtr (tombstone a) = a := by
  have hb := getLsbD_63_of_lt h
  have hw : tombstone a &&& ~~~tombBits = PolyWord.fromAddr a := by
    rw [tombstone, tombBits_eq_twoPow]
    apply BitVec.eq_of_getLsbD_eq
    intro i hi
    simp only [BitVec.getLsbD_and, BitVec.getLsbD_or, BitVec.getLsbD_not, BitVec.getLsbD_twoPow, hi]
    by_cases h63 : i = 63
    · subst h63
      rw [hb]
      rfl
    · simp [Ne.symm h63]
  rw [forwardPtr, hw]
  exact PolyWord.addr_fromAddr (by omega)
