import PolymlRs.Heap.Bytes

set_option autoImplicit false

/-! # Boxed integers

An ML integer is a tagged word, or a byte object that holds the magnitude in little-endian limbs and
the sign in its flags. `Canonical` is the representation ML equality relies on: tagged exactly when
the value fits, no leading zero limb otherwise. -/

/-- `process::exit` after an allocation that found no room: what its message reports. -/
structure HeapExhausted where
  requested : Nat
  used : Nat
  capacity : Nat
deriving DecidableEq, Repr

/-- What the runtime functions for integers use of their context. -/
structure RtsContext where
  mem : Mem
  allocSpace : Option MemorySpace
  raisedException : Option PolyWord
  /-- In untrusted mode, the live spaces an argument may point into. -/
  safeSpaces : Option (List (Nat × Nat))

namespace MemorySpace

def allocOrExit (s : MemorySpace) (nWords : Nat) : Except HeapExhausted (MemorySpace × Nat) :=
  match s.tryAlloc nWords with
  | some r => .ok r
  | none => .error ⟨nWords, s.used, s.capacity⟩

end MemorySpace

def Mem.setLengthWord (m : Mem) (p nWords : Nat) (flags : BitVec 8) : Mem :=
  Function.update m (p - wordBytes) (makeLengthWord nWords flags)

/-! ## Reading -/

/-- `usize::MAX`, the length of an argument nothing is known about. -/
def unbounded : Nat := 2 ^ 64 - 1

/-- The object a runtime argument points to, if its whole body lies in one of the live spaces. -/
def validateObjFit (ranges : List (Nat × Nat)) (m : Mem) (w : PolyWord) : Option (Nat × Nat) :=
  if w.isDataPtr then
    if w.addr % wordBytes ≠ 0 then none
    else
      match ranges.find? (fun r => r.1 + wordBytes ≤ w.addr ∧ w.addr < r.2) with
      | none => none
      | some r =>
        let nWords := lengthOf (m (w.addr - wordBytes))
        if nWords * wordBytes < 2 ^ 64 ∧ nWords * wordBytes ≤ r.2 - w.addr then some (w.addr, nWords)
        else none
  else none

def safeRtsArgObj (spaces : Option (List (Nat × Nat))) (m : Mem) (w : PolyWord) :
    Option (Nat × Nat) :=
  match spaces with
  | none => if w.isDataPtr then some (w.addr, unbounded) else none
  | some ranges => validateObjFit ranges m w

/-- `BigInt::from_bytes_le`. -/
def fromBytesLe (negative : Bool) (bytes : List UInt8) : Int :=
  let magnitude : Nat := Nat.ofDigits 256 (bytes.map UInt8.toNat)
  if negative then -(magnitude : Int) else magnitude

def polyWordToBigint (spaces : Option (List (Nat × Nat))) (m : Mem) (w : PolyWord) : Option Int :=
  if w.isTagged then some w.untag
  else
    match safeRtsArgObj spaces m w with
    | none => none
    | some (p, bound) =>
      let lw := m (p - wordBytes)
      let nWords := min (lengthOf lw) bound
      some (fromBytesLe (flagsOf lw &&& fNegativeBit != 0#8) (m.readBytes p (nWords * wordBytes)))

/-! ## Writing -/

/-- The value is in the tagged range. -/
def FitsTagged (n : Int) : Prop := PolyWord.minTagged ≤ n ∧ n ≤ PolyWord.maxTagged

instance (n : Int) : Decidable (FitsTagged n) := inferInstanceAs (Decidable (_ ∧ _))

/-- `n.try_into::<i64>()`, kept when it is in the tagged range. -/
def i64FromBigintInTagRange (n : Int) : Option Int :=
  if -(2 ^ 63) ≤ n ∧ n < 2 ^ 63 then
    if FitsTagged n then some n else none
  else none

/-- The magnitude bytes of `BigInt::to_bytes_le`; zero has one byte. -/
def toBytesLe (n : Int) : List UInt8 :=
  if n = 0 then [0] else (Nat.digits 256 n.natAbs).map UInt8.ofNat

def bigintToPolyWord (ctx : RtsContext) (n : Int) : Except HeapExhausted (PolyWord × RtsContext) :=
  match i64FromBigintInTagRange n with
  | some v => .ok (.tagged v, ctx)
  | none =>
    let magBytes := toBytesLe n
    if magBytes = [] then .ok (.tagged 0, ctx)
    else
      let nWords := (magBytes.length + (wordBytes - 1)) / wordBytes
      match ctx.allocSpace with
      | none => .ok (.tagged 0, ctx)
      | some space => do
        let (space, p) ← space.allocOrExit nWords
        let flags := if n < 0 then fByteObj ||| fNegativeBit else fByteObj
        let mem := (ctx.mem.setLengthWord p nWords flags).writeBytes p magBytes
        -- zero the tail of the last word
        let zeros := nWords * wordBytes - magBytes.length
        let mem := mem.writeBytes (p + magBytes.length) (List.replicate zeros 0)
        pure (.fromAddr p, { ctx with allocSpace := some space, mem })

/-! ## The canonical representation -/

/-- The body of a boxed integer of `k` limbs at address `p`. -/
structure BoxedInt (m : Mem) (p k : Nat) (n : Int) : Prop where
  aligned : p % 8 = 0
  header : 8 ≤ p
  lengthWord : m (p - 8) = makeLengthWord k (if n < 0 then fByteObj ||| fNegativeBit else fByteObj)
  length : k < 0x100000000000000
  magnitude : Nat.ofDigits (2 ^ 64) (m.limbs p k) = n.natAbs
  leading : ∃ i, k = i + 1 ∧ m (p + 8 * i) ≠ 0#64
  large : ¬FitsTagged n

/-- The word represents the integer. -/
inductive Canonical (m : Mem) : PolyWord → Int → Prop
  | short {n : Int} (h : FitsTagged n) : Canonical m (.tagged n) n
  | boxed {n : Int} {p k : Nat} (hp : p < 0x10000000000000000) (h : BoxedInt m p k n) :
    Canonical m (.fromAddr p) n

/-- In untrusted mode, the argument is tagged or its object lies in the live space of its address. -/
def RtsContext.Live (ctx : RtsContext) (w : PolyWord) : Prop :=
  ∀ ranges, ctx.safeSpaces = some ranges → w.isTagged = false →
    ∃ r, ranges.find? (fun r => r.1 + wordBytes ≤ w.addr ∧ w.addr < r.2) = some r ∧
      lengthOf (ctx.mem (w.addr - wordBytes)) * wordBytes ≤ r.2 - w.addr

/-- A running thread's context: it has a nursery and no exception is pending. -/
structure RtsContext.Ready (ctx : RtsContext) (s : MemorySpace) : Prop where
  nursery : ctx.allocSpace = some s
  calm : ctx.raisedException = none
  aligned : s.start % 8 = 0
  used : s.used ≤ s.capacity
  /-- User addresses have at most 56 bits. -/
  addressable : s.limit ≤ 0x100000000000000

/-! ## Reading gives the value back -/

theorem isDataPtr_fromAddr {p : Nat} (hp : p < 0x10000000000000000) (haligned : p % 8 = 0)
    (hpos : 8 ≤ p) : (PolyWord.fromAddr p).isDataPtr = true := by
  have htag := PolyWord.isTagged_fromAddr hp
  have hodd : decide (p % 2 = 1) = false := decide_eq_false (by omega)
  have hne : PolyWord.fromAddr p ≠ 0#64 := by
    intro h
    have haddr := PolyWord.addr_fromAddr hp
    rw [h, PolyWord.addr, BitVec.toNat_ofNat] at haddr
    omega
  rw [hodd, PolyWord.isTagged, bne_eq_false_iff_eq] at htag
  simp [PolyWord.isDataPtr, hne, htag]

theorem isTagged_fromAddr_aligned {p : Nat} (hp : p < 0x10000000000000000) (haligned : p % 8 = 0) :
    (PolyWord.fromAddr p).isTagged = false := by
  rw [PolyWord.isTagged_fromAddr hp]
  exact decide_eq_false (by omega)

/-- The sign flag and the magnitude determine the integer. -/
theorem fromBytesLe_boxed {m : Mem} {p k : Nat} {n : Int} (h : BoxedInt m p k n) :
    fromBytesLe (flagsOf (m (p - 8)) &&& fNegativeBit != 0#8) (m.readBytes p (k * 8)) = n := by
  have hflags : (flagsOf (m (p - 8)) &&& fNegativeBit != 0#8) = decide (n < 0) := by
    rw [h.lengthWord, flagsOf_makeLengthWord _ h.length]
    by_cases hneg : n < 0
    · rw [if_pos hneg, decide_eq_true hneg]
      decide
    · rw [if_neg hneg, decide_eq_false hneg]
      decide
  have hmag := Mem.ofDigits_readBytes (m := m) (k := k) h.aligned
  rw [h.magnitude] at hmag
  rw [hflags, fromBytesLe, Nat.mul_comm k 8, hmag]
  by_cases hneg : n < 0
  · simp only [decide_eq_true hneg, if_true]
    omega
  · simp only [decide_eq_false hneg, Bool.false_eq_true, if_false]
    omega

theorem safeRtsArgObj_boxed {ctx : RtsContext} {p k : Nat} {n : Int} (hp : p < 0x10000000000000000)
    (h : BoxedInt ctx.mem p k n) (hlive : ctx.Live (.fromAddr p)) :
    ∃ bound, safeRtsArgObj ctx.safeSpaces ctx.mem (.fromAddr p) = some (p, bound) ∧ k ≤ bound := by
  have hptr := isDataPtr_fromAddr hp h.aligned h.header
  have haddr := PolyWord.addr_fromAddr hp
  have hk := h.length
  have hlen : lengthOf (ctx.mem (p - wordBytes)) = k := by
    rw [h.lengthWord, lengthOf_makeLengthWord _ h.length]
  cases hspaces : ctx.safeSpaces with
  | none =>
    refine ⟨unbounded, ?_, ?_⟩
    · simp only [safeRtsArgObj, hptr, if_true, haddr]
    · unfold unbounded
      omega
  | some ranges =>
    obtain ⟨r, hfind, hfit⟩ := hlive ranges hspaces (isTagged_fromAddr_aligned hp h.aligned)
    rw [haddr] at hfind hfit
    rw [hlen] at hfit
    have haligned : ¬p % wordBytes ≠ 0 := by simpa using h.aligned
    have hroom : k * wordBytes < 2 ^ 64 ∧ k * wordBytes ≤ r.2 - p := by
      refine ⟨?_, hfit⟩
      unfold wordBytes
      omega
    refine ⟨k, ?_, Nat.le_refl k⟩
    simp only [safeRtsArgObj, validateObjFit, hptr, if_true, haddr, if_neg haligned, hfind, hlen,
      if_pos hroom]

/-- Reading a canonical representation. -/
theorem polyWordToBigint_canonical {ctx : RtsContext} {w : PolyWord} {n : Int}
    (h : Canonical ctx.mem w n) (hlive : ctx.Live w) :
    polyWordToBigint ctx.safeSpaces ctx.mem w = some n := by
  cases h with
  | short hfits =>
    rw [polyWordToBigint, if_pos (PolyWord.isTagged_tagged n), PolyWord.untag_tagged hfits.1 hfits.2]
  | boxed hp hbox =>
    rename_i p k
    obtain ⟨bound, harg, hbound⟩ := safeRtsArgObj_boxed hp hbox hlive
    have hlen : lengthOf (ctx.mem (p - wordBytes)) = k := by
      rw [hbox.lengthWord, lengthOf_makeLengthWord _ hbox.length]
    have htag := isTagged_fromAddr_aligned hp hbox.aligned
    simp only [polyWordToBigint, htag, Bool.false_eq_true, if_false, harg, hlen, Nat.min_eq_left hbound]
    rw [fromBytesLe_boxed hbox]

/-! ## Writing gives a canonical representation -/

/-- The number of limbs of a magnitude. -/
def limbCount (n : Int) : Nat := (Nat.digits (2 ^ 64) n.natAbs).length

/-- The words, length word included, that the representation of `n` takes. -/
def allocWords (n : Int) : Nat := if FitsTagged n then 0 else limbCount n + 1

/-- The context after `words` words were allocated and written: everything else is as before. -/
structure RtsContext.Grown (s : MemorySpace) (ctx ctx' : RtsContext) (words : Nat) : Prop where
  nursery : ctx'.allocSpace = some { s with used := s.used + words }
  raised : ctx'.raisedException = ctx.raisedException
  spaces : ctx'.safeSpaces = ctx.safeSpaces
  frame : ∀ a, a + 8 ≤ s.start + 8 * s.used ∨ s.start + 8 * (s.used + words) ≤ a →
    ctx'.mem a = ctx.mem a

theorem i64FromBigintInTagRange_eq (n : Int) :
    i64FromBigintInTagRange n = if FitsTagged n then some n else none := by
  unfold i64FromBigintInTagRange
  by_cases h : FitsTagged n
  · have hi64 : -(2 ^ 63) ≤ n ∧ n < 2 ^ 63 := by
      obtain ⟨hlo, hhi⟩ := h
      unfold PolyWord.minTagged at hlo
      unfold PolyWord.maxTagged at hhi
      omega
    rw [if_pos hi64, if_pos h]
  · rw [if_neg h]
    split <;> rfl

theorem toBytesLe_ne_nil (n : Int) : toBytesLe n ≠ [] := by
  unfold toBytesLe
  split
  · simp
  · rw [ne_eq, List.map_eq_nil_iff]
    exact Nat.digits_ne_nil_iff_ne_zero.2 (by omega)

/-- Outside the tagged range the bytes are the base 256 digits. -/
theorem toBytesLe_large {n : Int} (h : ¬FitsTagged n) :
    n ≠ 0 ∧ toBytesLe n = (Nat.digits 256 n.natAbs).map UInt8.ofNat := by
  have hne : n ≠ 0 := by
    rintro rfl
    exact h (by decide)
  exact ⟨hne, by rw [toBytesLe, if_neg hne]⟩

theorem map_toNat_toBytesLe {n : Int} (h : ¬FitsTagged n) :
    (toBytesLe n).map UInt8.toNat = Nat.digits 256 n.natAbs := by
  rw [(toBytesLe_large h).2, List.map_map]
  refine (List.map_congr_left (fun d hd => ?_)).trans (List.map_id _)
  have hlt := Nat.digits_lt_base (by decide) hd
  simp only [Function.comp_apply, UInt8.toNat_ofNat', id_eq]
  exact Nat.mod_eq_of_lt hlt

/-- Bytes in whole words are limbs. -/
theorem div_ceil_eq_limbCount {n : Int} (h : ¬FitsTagged n) :
    ((toBytesLe n).length + (wordBytes - 1)) / wordBytes = limbCount n := by
  have hlen : (toBytesLe n).length = (Nat.digits 256 n.natAbs).length := by
    rw [(toBytesLe_large h).2, List.length_map]
  have hbytes : ∀ k, k < (Nat.digits 256 n.natAbs).length ↔ 256 ^ k ≤ n.natAbs := fun k =>
    Nat.lt_digits_length_iff (by decide) n.natAbs
  have hlimbs : ∀ k, k < limbCount n ↔ (2 ^ 64) ^ k ≤ n.natAbs := fun k =>
    Nat.lt_digits_length_iff (by decide) n.natAbs
  have hpow : ∀ k, (2 ^ 64) ^ k = 256 ^ (8 * k) := by
    intro k
    rw [Nat.pow_mul]
    norm_num
  have hiff : ∀ k, k < limbCount n ↔ 8 * k < (Nat.digits 256 n.natAbs).length := by
    intro k
    rw [hlimbs, hbytes, hpow]
  have hupper := hiff (limbCount n)
  rw [hlen]
  unfold wordBytes
  rcases Nat.eq_zero_or_pos (limbCount n) with hz | hpos
  · omega
  · have hlower := hiff (limbCount n - 1)
    omega

theorem limbCount_pos {n : Int} (h : ¬FitsTagged n) : 0 < limbCount n := by
  unfold limbCount
  rw [List.length_pos_iff]
  have hne := (toBytesLe_large h).1
  exact Nat.digits_ne_nil_iff_ne_zero.2 (by omega)

/-- The memory after a boxed integer was written at `p`. -/
def Mem.putBigint (m : Mem) (p : Nat) (n : Int) : Mem :=
  ((m.setLengthWord p (limbCount n) (if n < 0 then fByteObj ||| fNegativeBit else fByteObj)).writeBytes
    p (toBytesLe n)).writeBytes (p + (toBytesLe n).length)
      (List.replicate (limbCount n * wordBytes - (toBytesLe n).length) 0)

theorem length_toBytesLe_le {n : Int} (h : ¬FitsTagged n) : (toBytesLe n).length ≤ limbCount n * 8 := by
  have hceil := div_ceil_eq_limbCount h
  unfold wordBytes at hceil
  omega

theorem readBytes_putBigint {m : Mem} {p : Nat} {n : Int} (h : ¬FitsTagged n) :
    (m.putBigint p n).readBytes p (8 * limbCount n) =
      toBytesLe n ++ List.replicate (8 * limbCount n - (toBytesLe n).length) 0 := by
  have hle := length_toBytesLe_le h
  apply List.ext_getElem
  · rw [List.length_append, List.length_replicate, Mem.readBytes, List.length_map, List.length_range]
    omega
  · intro i hi _
    have hi' : i < 8 * limbCount n := by simpa [Mem.readBytes] using hi
    simp only [Mem.readBytes, List.getElem_map, List.getElem_range, Mem.putBigint, wordBytes]
    by_cases hlt : i < (toBytesLe n).length
    · rw [Mem.byteAt_writeBytes_outside _ (Or.inl (by omega)), Mem.byteAt_writeBytes_inside _ hlt,
        List.getD_eq_getElem?_getD, List.getElem?_eq_getElem hlt, Option.getD_some,
        List.getElem_append_left hlt]
    · have hzero : i - (toBytesLe n).length < limbCount n * 8 - (toBytesLe n).length := by omega
      have haddr : p + i = p + (toBytesLe n).length + (i - (toBytesLe n).length) := by omega
      rw [haddr, Mem.byteAt_writeBytes_inside _ (by simpa using hzero),
        List.getElem_append_right (by omega)]
      simp [List.getD_eq_getElem?_getD, hzero]

theorem putBigint_boxed {m : Mem} {p : Nat} {n : Int} (h : ¬FitsTagged n) (haligned : p % 8 = 0)
    (hp : 8 ≤ p) (hlen : limbCount n < 0x100000000000000) :
    BoxedInt (m.putBigint p n) p (limbCount n) n := by
  have hmag : Nat.ofDigits (2 ^ 64) ((m.putBigint p n).limbs p (limbCount n)) = n.natAbs := by
    have hbytes := Mem.ofDigits_readBytes (m := m.putBigint p n) (k := limbCount n) haligned
    rw [readBytes_putBigint h, List.map_append, map_toNat_toBytesLe h, List.map_replicate] at hbytes
    have hzero : Nat.ofDigits 256 (Nat.digits 256 n.natAbs ++
        List.replicate (8 * limbCount n - (toBytesLe n).length) (UInt8.toNat 0)) = n.natAbs := by
      show Nat.ofDigits 256 (_ ++ List.replicate _ 0) = _
      rw [Nat.ofDigits_append_replicate_zero, Nat.ofDigits_digits]
    rw [← hbytes, hzero]
  obtain ⟨i, hi⟩ : ∃ i, limbCount n = i + 1 := Nat.exists_eq_succ_of_ne_zero (limbCount_pos h).ne'
  have hword : (m.putBigint p n) (p - 8) =
      makeLengthWord (limbCount n) (if n < 0 then fByteObj ||| fNegativeBit else fByteObj) := by
    rw [Mem.putBigint, Mem.writeBytes_outside _ (Or.inl (by omega)),
      Mem.writeBytes_outside _ (Or.inl (by omega)), Mem.setLengthWord]
    exact Function.update_self ..
  refine ⟨haligned, hp, hword, hlen, hmag, ⟨i, hi, fun hzero => ?_⟩, h⟩
  -- a zero in the last limb would leave too few limbs for the magnitude
  have hlast : ((m.putBigint p n).limbs p (limbCount n))[i]? = some 0 := by
    simp [Mem.limbs, hi, hzero]
  have hlimb : ∀ d ∈ (m.putBigint p n).limbs p (limbCount n), d < 2 ^ 64 := by
    intro d hd
    obtain ⟨j, _, rfl⟩ := List.mem_map.1 hd
    exact BitVec.isLt _
  have hlt := Radix.lt_of_getLast_eq_zero (b := 2 ^ 64) (by decide) hlimb
    (by rw [Mem.limbs, List.length_map, List.length_range, hi]) hlast
  have hpow := Radix.pow_le_of_length_digits (b := 2 ^ 64) (n := n.natAbs) (k := i) (by decide)
    (by have := (toBytesLe_large h).1; omega) (by rw [← limbCount, hi]; exact Nat.lt_succ_self i)
  rw [hmag] at hlt
  omega

theorem putBigint_frame {m : Mem} {p : Nat} {n : Int} (h : ¬FitsTagged n) (hp : 8 ≤ p) {a : Nat}
    (ha : a + 8 ≤ p - 8 ∨ p + 8 * limbCount n ≤ a) : m.putBigint p n a = m a := by
  have hle := length_toBytesLe_le h
  have hpos := limbCount_pos h
  rw [Mem.putBigint, Mem.writeBytes_outside _ (by rw [List.length_replicate]; unfold wordBytes; omega),
    Mem.writeBytes_outside _ (by omega), Mem.setLengthWord, Function.update_of_ne]
  unfold wordBytes
  omega

/-- The nursery has room for `words` words, length words included. -/
def MemorySpace.HasRoom (s : MemorySpace) (words : Nat) : Prop := s.used + words ≤ s.capacity

instance (s : MemorySpace) (words : Nat) : Decidable (s.HasRoom words) :=
  inferInstanceAs (Decidable (_ ≤ _))

/-- The space after `words` words were handed out. -/
abbrev MemorySpace.grow (s : MemorySpace) (words : Nat) : MemorySpace := { s with used := s.used + words }

theorem MemorySpace.hasRoom_grow (s : MemorySpace) (m n : Nat) :
    (s.grow m).HasRoom n ↔ s.HasRoom (m + n) := by
  unfold HasRoom
  rw [← Nat.add_assoc]

theorem MemorySpace.HasRoom.mono {s : MemorySpace} {m n : Nat} (h : s.HasRoom n) (hle : m ≤ n) :
    s.HasRoom m := Nat.le_trans (Nat.add_le_add_left hle _) h

theorem MemorySpace.allocOrExit_eq (s : MemorySpace) (n : Nat) :
    s.allocOrExit n = if s.HasRoom (n + 1) then .ok (s.grow (n + 1), s.start + 8 * (s.used + 1))
      else .error ⟨n, s.used, s.capacity⟩ := by
  have hsum : s.used + 1 + n = s.used + (n + 1) := by omega
  simp only [allocOrExit, tryAlloc, hsum]
  by_cases hroom : s.HasRoom (n + 1)
  · rw [if_neg (Nat.not_lt.2 hroom), if_pos hroom]
  · rw [if_pos (Nat.lt_of_not_le hroom), if_neg hroom]

/-- What the encoder does outside the tagged range. -/
theorem bigintToPolyWord_large {ctx : RtsContext} {s : MemorySpace} {n : Int} (h : ¬FitsTagged n)
    (hs : ctx.allocSpace = some s) :
    bigintToPolyWord ctx n =
      if s.HasRoom (limbCount n + 1) then
        .ok (.fromAddr (s.start + 8 * (s.used + 1)),
          { ctx with
            allocSpace := some (s.grow (limbCount n + 1))
            mem := ctx.mem.putBigint (s.start + 8 * (s.used + 1)) n })
      else .error ⟨limbCount n, s.used, s.capacity⟩ := by
  unfold bigintToPolyWord
  rw [i64FromBigintInTagRange_eq, if_neg h]
  simp only [if_neg (toBytesLe_ne_nil n), div_ceil_eq_limbCount h, hs, MemorySpace.allocOrExit_eq]
  by_cases hroom : s.HasRoom (limbCount n + 1)
  · rw [if_pos hroom, if_pos hroom]
    rfl
  · rw [if_neg hroom, if_neg hroom]
    rfl

/-- A word that is a pointer names an object that ends by address `e`. -/
def Mem.EndsBy (m : Mem) (e : Nat) (w : PolyWord) : Prop :=
  w.isTagged = false → w.addr + 8 * lengthOf (m (w.addr - 8)) ≤ e

/-- A representation only depends on the memory up to the end of its object. -/
theorem Canonical.congr {m m' : Mem} {w : PolyWord} {n : Int} {e : Nat} (h : Canonical m w n)
    (hend : m.EndsBy e w) (heq : ∀ a, a % 8 = 0 → a < e → m' a = m a) : Canonical m' w n := by
  cases h with
  | short hfits => exact .short hfits
  | boxed hp hbox =>
    rename_i p k
    have hle := hend (isTagged_fromAddr_aligned hp hbox.aligned)
    rw [PolyWord.addr_fromAddr hp, hbox.lengthWord, lengthOf_makeLengthWord _ hbox.length] at hle
    obtain ⟨i, hi, hne⟩ := hbox.leading
    have hheader := hbox.header
    have haligned := hbox.aligned
    have hlimbs : m'.limbs p k = m.limbs p k :=
      List.map_congr_left (fun j hj => by
        have hj := List.mem_range.1 hj
        rw [heq _ (by omega) (by omega)])
    refine .boxed hp ⟨hbox.aligned, hbox.header, ?_, hbox.length, ?_, ⟨i, hi, ?_⟩, hbox.large⟩
    · rw [heq _ (by omega) (by omega), hbox.lengthWord]
    · rw [hlimbs, hbox.magnitude]
    · rwa [heq _ (by omega) (by omega)]

namespace RtsContext.Grown

variable {s : MemorySpace} {ctx ctx₁ ctx₂ : RtsContext} {m n : Nat}

theorem refl (h : ctx.allocSpace = some s) : Grown s ctx ctx 0 := ⟨h, rfl, rfl, fun _ _ => rfl⟩

/-- Two allocations in a row are one. -/
theorem trans (h₁ : Grown s ctx ctx₁ m) (h₂ : Grown (s.grow m) ctx₁ ctx₂ n) :
    Grown s ctx ctx₂ (m + n) := by
  refine ⟨?_, h₂.raised.trans h₁.raised, h₂.spaces.trans h₁.spaces, fun a ha => ?_⟩
  · rw [h₂.nursery, Nat.add_assoc]
  · rw [h₂.frame a (by simp only; omega), h₁.frame a (by omega)]

/-- What was in the nursery stays. -/
theorem below (h : Grown s ctx ctx₁ m) (haligned : s.start % 8 = 0) :
    ∀ a, a % 8 = 0 → a < s.start + 8 * s.used → ctx₁.mem a = ctx.mem a :=
  fun a ha hlt => h.frame a (Or.inl (by omega))

theorem ready (h : Grown s ctx ctx₁ m) (hctx : ctx.Ready s) (hroom : s.HasRoom m) :
    ctx₁.Ready (s.grow m) :=
  ⟨h.nursery, h.raised.trans hctx.calm, hctx.aligned, hroom, hctx.addressable⟩

end RtsContext.Grown

/-- A call has stored the representation `w` of `n` and left everything else as it was. -/
structure Stored (s : MemorySpace) (ctx : RtsContext) (n : Int) (w : PolyWord) (ctx' : RtsContext) :
    Prop where
  canonical : Canonical ctx'.mem w n
  grown : ctx.Grown s ctx' (allocWords n)
  ends : ctx'.mem.EndsBy (s.start + 8 * (s.used + allocWords n)) w

/-- Storing an integer, when there is room for it. -/
theorem bigintToPolyWord_ok {ctx : RtsContext} {s : MemorySpace} (hctx : ctx.Ready s) (n : Int)
    (hroom : s.HasRoom (allocWords n)) :
    ∃ w ctx', bigintToPolyWord ctx n = .ok (w, ctx') ∧ Stored s ctx n w ctx' := by
  by_cases h : FitsTagged n
  · have hwords : allocWords n = 0 := if_pos h
    refine ⟨.tagged n, ctx, ?_, .short h, ?_, ?_⟩
    · rw [bigintToPolyWord, i64FromBigintInTagRange_eq, if_pos h]
    · rw [hwords]
      exact .refl hctx.nursery
    · intro htag
      rw [PolyWord.isTagged_tagged] at htag
      cases htag
  · have hwords : allocWords n = limbCount n + 1 := if_neg h
    have hlimit := hctx.addressable
    have haligned := hctx.aligned
    unfold MemorySpace.limit wordBytes at hlimit
    rw [hwords] at hroom
    unfold MemorySpace.HasRoom at hroom
    have hp : s.start + 8 * (s.used + 1) < 0x10000000000000000 := by omega
    have hbox := putBigint_boxed (m := ctx.mem) (p := s.start + 8 * (s.used + 1)) h (by omega)
      (by omega) (by omega)
    refine ⟨_, _, (bigintToPolyWord_large h hctx.nursery).trans (if_pos hroom), .boxed hp hbox, ?_, ?_⟩
    · rw [hwords]
      exact ⟨rfl, rfl, rfl, fun a ha => putBigint_frame h (by omega) (by omega)⟩
    · intro _
      show (PolyWord.fromAddr _).addr + 8 * lengthOf (ctx.mem.putBigint _ n ((PolyWord.fromAddr _).addr - 8)) ≤ _
      rw [PolyWord.addr_fromAddr hp, hbox.lengthWord, lengthOf_makeLengthWord _ hbox.length, hwords]
      omega

/-- Without room for it the process exits. -/
theorem bigintToPolyWord_exit {ctx : RtsContext} {s : MemorySpace} (hctx : ctx.Ready s) (n : Int)
    (hroom : ¬s.HasRoom (allocWords n)) : ∃ e, bigintToPolyWord ctx n = .error e := by
  have h : ¬FitsTagged n := by
    intro hfits
    refine hroom ?_
    rw [allocWords, if_pos hfits]
    exact hctx.used
  rw [allocWords, if_neg h] at hroom
  exact ⟨_, (bigintToPolyWord_large h hctx.nursery).trans (if_neg hroom)⟩
