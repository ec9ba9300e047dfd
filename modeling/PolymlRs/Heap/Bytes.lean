import Mathlib.Data.List.GetD
import PolymlRs.Heap.MemorySpace
import PolymlRs.Lib.Radix

set_option autoImplicit false

/-! # Bytes of the heap

The bodies of byte objects, code objects and boxed integers are read and written byte by byte. A
word holds its bytes in little-endian order. -/

/-- The word with the bytes `f 0`, ..., `f 7`. -/
def PolyWord.ofBytes (f : Nat → UInt8) : PolyWord :=
  BitVec.ofNat 64 (Nat.ofDigits 256 ((List.range 8).map (fun i => (f i).toNat)))

namespace Mem

/-- The byte at address `x`. -/
def byteAt (m : Mem) (x : Nat) : UInt8 := UInt8.ofNat ((m (x - x % 8)).toNat / 256 ^ (x % 8))

/-- The `n` bytes from address `a` on. -/
def readBytes (m : Mem) (a n : Nat) : List UInt8 := (List.range n).map (fun i => m.byteAt (a + i))

/-- The word at an address that may not be aligned. -/
def readUnaligned (m : Mem) (p : Nat) : PolyWord := .ofBytes (fun i => m.byteAt (p + i))

/-- `copy_nonoverlapping` of `bs` to address `a`. -/
def writeBytes (m : Mem) (a : Nat) (bs : List UInt8) : Mem := fun w =>
  if a < w + 8 ∧ w < a + bs.length then
    .ofBytes (fun i =>
      if a ≤ w + i ∧ w + i < a + bs.length then bs.getD (w + i - a) 0 else m.byteAt (w + i))
  else m w

/-- Write the words `ws` one after the other from address `p` on. -/
def putWords (m : Mem) (p : Nat) : List PolyWord → Mem
  | [] => m
  | w :: ws => putWords (Function.update m p w) (p + wordBytes) ws

end Mem

theorem UInt8.toNat_lt_256 (b : UInt8) : b.toNat < 256 := b.toNat_lt

theorem PolyWord.toNat_ofBytes (f : Nat → UInt8) :
    (PolyWord.ofBytes f).toNat = Nat.ofDigits 256 ((List.range 8).map (fun i => (f i).toNat)) := by
  have hlt : Nat.ofDigits 256 ((List.range 8).map (fun i => (f i).toNat)) < 2 ^ 64 := by
    have h := @Nat.ofDigits_lt_base_pow_length 256 ((List.range 8).map (fun i => (f i).toNat))
      (by decide) (by simpa using fun i _ => (f i).toNat_lt_256)
    rwa [List.length_map, List.length_range] at h
  rw [PolyWord.ofBytes, BitVec.toNat_ofNat, Nat.mod_eq_of_lt hlt]

/-- The bytes of a word are what it was made from. -/
theorem PolyWord.byte_ofBytes (f : Nat → UInt8) {j : Nat} (hj : j < 8) :
    UInt8.ofNat ((PolyWord.ofBytes f).toNat / 256 ^ j) = f j := by
  have hdigit := @Radix.ofDigits_div_mod 256 ((List.range 8).map (fun i => (f i).toNat)) (by decide)
    (by simpa using fun i _ => (f i).toNat_lt_256) j (by simpa using hj)
  rw [PolyWord.toNat_ofBytes]
  apply UInt8.toNat_inj.1
  rw [UInt8.toNat_ofNat', hdigit]
  simp

theorem PolyWord.ofBytes_congr {f g : Nat → UInt8} (h : ∀ i < 8, f i = g i) :
    PolyWord.ofBytes f = PolyWord.ofBytes g := by
  unfold PolyWord.ofBytes
  rw [List.map_congr_left (fun i hi => congrArg UInt8.toNat (h i (List.mem_range.1 hi)))]

namespace Mem

variable (m : Mem)

theorem writeBytes_outside {a w : Nat} {bs : List UInt8} (h : w + 8 ≤ a ∨ a + bs.length ≤ w) :
    m.writeBytes a bs w = m w := by
  have hout : ¬(a < w + 8 ∧ w < a + bs.length) := by omega
  rw [writeBytes, if_neg hout]

theorem byteAt_writeBytes (a : Nat) (bs : List UInt8) (x : Nat) :
    (m.writeBytes a bs).byteAt x =
      if a ≤ x ∧ x < a + bs.length then bs.getD (x - a) 0 else m.byteAt x := by
  have hsplit : x - x % 8 + x % 8 = x := Nat.sub_add_cancel (Nat.mod_le x 8)
  have hmod : x % 8 < 8 := Nat.mod_lt x (by decide)
  unfold byteAt writeBytes
  by_cases hover : a < x - x % 8 + 8 ∧ x - x % 8 < a + bs.length
  · rw [if_pos hover, PolyWord.byte_ofBytes _ hmod]
    simp only [hsplit, byteAt]
  · have hout : ¬(a ≤ x ∧ x < a + bs.length) := by omega
    rw [if_neg hover, if_neg hout]

theorem byteAt_writeBytes_inside {a i : Nat} {bs : List UInt8} (h : i < bs.length) :
    (m.writeBytes a bs).byteAt (a + i) = bs.getD i 0 := by
  rw [byteAt_writeBytes, if_pos (by omega), Nat.add_sub_cancel_left]

theorem byteAt_writeBytes_outside {a x : Nat} {bs : List UInt8}
    (h : x < a ∨ a + bs.length ≤ x) : (m.writeBytes a bs).byteAt x = m.byteAt x := by
  rw [byteAt_writeBytes, if_neg (by omega)]

/-- Writing one list of bytes behind another. -/
theorem writeBytes_append (a : Nat) (xs ys : List UInt8) :
    m.writeBytes a (xs ++ ys) = (m.writeBytes a xs).writeBytes (a + xs.length) ys := by
  funext w
  by_cases hys : a + xs.length < w + 8 ∧ w < a + xs.length + ys.length
  · have hall : a < w + 8 ∧ w < a + (xs ++ ys).length := by
      rw [List.length_append]
      omega
    rw [writeBytes, if_pos hall, writeBytes, if_pos hys]
    refine PolyWord.ofBytes_congr (fun i _ => ?_)
    rw [byteAt_writeBytes, List.length_append]
    by_cases hin : a + xs.length ≤ w + i ∧ w + i < a + xs.length + ys.length
    · have hsub : w + i - (a + xs.length) = w + i - a - xs.length := by omega
      rw [if_pos (by omega), if_pos hin, List.getD_append_right _ _ _ _ (by omega), hsub]
    · rw [if_neg hin]
      by_cases hx : a ≤ w + i ∧ w + i < a + xs.length
      · rw [if_pos (by omega), if_pos hx, List.getD_append _ _ _ _ (by omega)]
      · rw [if_neg (by omega), if_neg hx]
  · have hsame : (m.writeBytes a xs).writeBytes (a + xs.length) ys w = m.writeBytes a xs w := by
      rw [writeBytes, if_neg hys]
    rw [hsame, writeBytes, writeBytes, List.length_append]
    by_cases hxs : a < w + 8 ∧ w < a + xs.length
    · rw [if_pos (by omega), if_pos hxs]
      refine PolyWord.ofBytes_congr (fun i hi => ?_)
      by_cases hx : a ≤ w + i
      · rw [if_pos (by omega), if_pos (by omega), List.getD_append _ _ _ _ (by omega)]
      · rw [if_neg (by omega), if_neg (by omega)]
    · rw [if_neg (by omega), if_neg hxs]

@[simp] theorem length_readBytes (a n : Nat) : (m.readBytes a n).length = n := by
  rw [readBytes, List.length_map, List.length_range]

/-- Bytes that were written are read back. -/
theorem readBytes_writeBytes (a : Nat) (bs : List UInt8) :
    (m.writeBytes a bs).readBytes a bs.length = bs := by
  apply List.ext_getElem
  · simp [readBytes]
  · intro i _ hi
    simp only [readBytes, List.getElem_map, List.getElem_range]
    rw [byteAt_writeBytes_inside m hi, List.getD_eq_getElem?_getD, List.getElem?_eq_getElem hi, Option.getD_some]

variable {m}

/-- Reading depends on the bytes read. -/
theorem readBytes_congr {m' : Mem} {a n : Nat}
    (h : ∀ i, i < n → m'.byteAt (a + i) = m.byteAt (a + i)) : m'.readBytes a n = m.readBytes a n := by
  unfold readBytes
  exact List.map_congr_left (fun i hi => h i (List.mem_range.1 hi))

theorem byteAt_congr {m' : Mem} {x : Nat} (h : m' (x - x % 8) = m (x - x % 8)) :
    m'.byteAt x = m.byteAt x := by
  rw [byteAt, byteAt, h]

/-- Reading depends on the whole words from `p` up to `e` that the bytes lie in. -/
theorem readBytes_words {m' : Mem} {p e x n : Nat} (hp : p % 8 = 0) (he : e % 8 = 0)
    (hm : ∀ a, p ≤ a → a + 8 ≤ e → m' a = m a) (hx : p ≤ x) (hn : x + n ≤ e) :
    m'.readBytes x n = m.readBytes x n := by
  apply readBytes_congr
  intro i hi
  apply byteAt_congr
  apply hm <;> omega

/-- The first of the bytes that were written. -/
theorem readBytes_writeBytes_take (m : Mem) (a : Nat) {n : Nat} (bs : List UInt8)
    (hn : n ≤ bs.length) : (m.writeBytes a bs).readBytes a n = bs.take n := by
  have hall := readBytes_writeBytes m a bs
  unfold readBytes at hall ⊢
  have htake := congrArg (List.take n) hall
  rw [← List.map_take, List.take_range, Nat.min_eq_left hn] at htake
  exact htake

theorem readBytes_add (m : Mem) (a i j : Nat) :
    m.readBytes a (i + j) = m.readBytes a i ++ m.readBytes (a + i) j := by
  unfold readBytes
  rw [List.range_add, List.map_append, List.map_map]
  exact congrArg _ (List.map_congr_left (fun k _ => by simp only [Function.comp, Nat.add_assoc]))

/-- A word is its eight bytes. -/
theorem toNat_eq_ofDigits {w : Nat} (hw : w % 8 = 0) :
    (m w).toNat = Nat.ofDigits 256 ((m.readBytes w 8).map UInt8.toNat) := by
  have hlt : (m w).toNat < 256 ^ 8 := (m w).isLt
  have hbyte : ∀ i, i < 8 → (m.byteAt (w + i)).toNat = (m w).toNat / 256 ^ i % 256 := by
    intro i hi
    have hmod : (w + i) % 8 = i := by omega
    rw [byteAt, hmod, Nat.add_sub_cancel, UInt8.toNat_ofNat']
  rw [readBytes, List.map_map]
  have hmap : (List.range 8).map (UInt8.toNat ∘ fun i => m.byteAt (w + i)) =
      (List.range 8).map (fun i => (m w).toNat / 256 ^ i % 256) :=
    List.map_congr_left (fun i hi => hbyte i (List.mem_range.1 hi))
  rw [hmap]
  simp only [List.range_succ, List.range_zero, List.nil_append, List.cons_append, List.map_cons,
    List.map_nil, Nat.ofDigits_cons, Nat.ofDigits_nil]
  omega

/-- The words from `a` on, as limbs. -/
def limbs (m : Mem) (a k : Nat) : List Nat := (List.range k).map (fun i => (m (a + 8 * i)).toNat)

/-- The bytes of `k` words are the digits of the number with those limbs. -/
theorem ofDigits_readBytes {a k : Nat} (ha : a % 8 = 0) :
    Nat.ofDigits 256 ((m.readBytes a (8 * k)).map UInt8.toNat) = Nat.ofDigits (2 ^ 64) (m.limbs a k) := by
  have hsplit : m.readBytes a (8 * k) = (List.range k).flatMap (fun i => m.readBytes (a + 8 * i) 8) := by
    induction k with
    | zero => rfl
    | succ k ih =>
      rw [List.range_succ, List.flatMap_append, ← ih]
      simp only [readBytes, List.flatMap_cons, List.flatMap_nil, List.append_nil, Nat.mul_succ,
        List.range_add, List.map_append, List.map_map]
      congr 1
  have hlimb : m.limbs a k = (List.range k).map
      (fun i => Nat.ofDigits 256 ((m.readBytes (a + 8 * i) 8).map UInt8.toNat)) :=
    List.map_congr_left (fun i _ => toNat_eq_ofDigits (by omega))
  have hblocks := @Radix.ofDigits_flatMap Nat 256 8
    (fun i => (m.readBytes (a + 8 * i) 8).map UInt8.toNat) (List.range k)
    (fun i _ => by simp [readBytes])
  have hbase : (256 : Nat) ^ 8 = 2 ^ 64 := by norm_num
  rw [hsplit, hlimb, List.map_flatMap, hblocks, hbase]

theorem putWords_outside {m : Mem} {p a : Nat} {ws : List PolyWord}
    (h : a < p ∨ p + 8 * ws.length ≤ a) : m.putWords p ws a = m a := by
  induction ws generalizing m p with
  | nil => rfl
  | cons w ws ih =>
    rw [List.length_cons] at h
    rw [putWords, ih (by unfold wordBytes; omega), Function.update_of_ne (by omega)]

theorem putWords_inside {m : Mem} {p i : Nat} {ws : List PolyWord} (h : i < ws.length) :
    m.putWords p ws (p + 8 * i) = ws[i] := by
  induction ws generalizing m p i with
  | nil => cases h
  | cons w ws ih =>
    cases i with
    | zero =>
      rw [putWords, putWords_outside (Or.inl (by unfold wordBytes; omega))]
      exact Function.update_self ..
    | succ i =>
      have haddr : p + 8 * (i + 1) = p + wordBytes + 8 * i := by unfold wordBytes; omega
      rw [putWords, haddr, ih (Nat.lt_of_succ_lt_succ h), List.getElem_cons_succ]

end Mem
