import PolymlRs.Rts.ArbitraryExact
import PolymlRs.Lib.TwosComplement

set_option autoImplicit false

/-! # Bits of arbitrary-precision integers

`PolyOrArbitrary`, `PolyAndArbitrary` and `PolyXorArbitrary`, the two shifts, and the low-order word.
Bit operations are those of two's complement. A shift takes its count as a signed integer, though an ML
word of 63 bits was tagged: from `2 ^ 62` on the count is negative, and nothing is shifted. -/

/-! ## Runtime functions -/

/-- `opFast` works on the tagged words. -/
def logicalArbitrary (ctx : RtsContext) (arg1 arg2 : PolyWord)
    (opFast : PolyWord → PolyWord → PolyWord) (opSlow : Int → Int → Int) : RtsResult :=
  if (bothTagged arg1 arg2).isSome then .ok (opFast arg1 arg2, ctx)
  else match bothBigint ctx arg1 arg2 with
    | some (a, b) => bigintToPolyWord ctx (opSlow a b)
    | none => .ok (.tagged 0, ctx)

def polyOrArbitrary (ctx : RtsContext) (_tid arg1 arg2 : PolyWord) : RtsResult :=
  logicalArbitrary ctx arg1 arg2 (fun v w => v ||| w) Int.lor

def polyAndArbitrary (ctx : RtsContext) (_tid arg1 arg2 : PolyWord) : RtsResult :=
  logicalArbitrary ctx arg1 arg2 (fun v w => v &&& w) Int.land

/-- The tag bits cancel. -/
def polyXorArbitrary (ctx : RtsContext) (_tid arg1 arg2 : PolyWord) : RtsResult :=
  logicalArbitrary ctx arg1 arg2 (fun v w => (v ^^^ w) ||| 1#64) Int.xor

/-- `op` shifts a big integer. -/
def shiftArbitrary (ctx : RtsContext) (arg shift : PolyWord) (op : Int → Nat → Int) : RtsResult :=
  if shift.isTagged then
    if shift.untag ≤ 0 then .ok (arg, ctx)
    else match polyWordToBigint ctx.safeSpaces ctx.mem arg with
      | none => .ok (.tagged 0, ctx)
      | some n => bigintToPolyWord ctx (op n shift.untag.toNat)
  else .ok (.tagged 0, ctx)

def polyShiftLeftArbitrary (ctx : RtsContext) (_tid arg shift : PolyWord) : RtsResult :=
  shiftArbitrary ctx arg shift (fun n count => n <<< count)

/-- The shift of a big integer rounds towards negative infinity. -/
def polyShiftRightArbitrary (ctx : RtsContext) (_tid arg shift : PolyWord) : RtsResult :=
  shiftArbitrary ctx arg shift (fun n count => n >>> count)

/-- `contains_with_header`. -/
def containsWithHeader (ranges : List (Nat × Nat)) (p : Nat) : Bool :=
  ranges.any (fun r => decide (r.1 < p ∧ p < r.2))

def safeRtsArgPtr (spaces : Option (List (Nat × Nat))) (w : PolyWord) : Option Nat :=
  if w.isDataPtr then
    match spaces with
    | none => some w.addr
    | some ranges => if containsWithHeader ranges w.addr then some w.addr else none
  else none

/-- The low word, boxed as a byte object of one word. -/
def polyGetLowOrderAsLargeWord (ctx : RtsContext) (_tid arg : PolyWord) : RtsResult :=
  let lowWord : Option PolyWord :=
    if arg.isTagged then some (BitVec.ofInt 64 arg.untag)
    else match safeRtsArgPtr ctx.safeSpaces arg with
      | none => none
      | some p =>
        -- limbs hold a magnitude
        if flagsOf (ctx.mem (p - wordBytes)) &&& fNegativeBit != 0#8 then some (0#64 - ctx.mem p)
        else some (ctx.mem p)
  match lowWord with
  | none => .ok (.tagged 0, ctx)
  | some low =>
    match ctx.allocSpace with
    | none => .ok (.tagged 0, ctx)
    | some space => do
      let (space, p) ← space.allocOrExit 1
      let mem : Mem := Function.update (ctx.mem.setLengthWord p 1 fByteObj) p low
      pure (.fromAddr p, { ctx with allocSpace := some space, mem })

/-! ## Tagged words -/

theorem getLsbD_tagged (n : Int) (i : Nat) :
    (PolyWord.tagged n).getLsbD i = (decide (i < 64) && (decide (i = 0) || n.testBit (i - 1))) := by
  rw [PolyWord.tagged, BitVec.getLsbD_or, BitVec.getLsbD_shiftLeft, BitVec.getLsbD_ofInt_testBit,
    BitVec.getLsbD_one]
  by_cases h0 : i = 0
  · simp [h0]
  · by_cases hi : i < 64
    · have h1 : 1 ≤ i := by omega
      have hi' : i - 1 < 64 := by omega
      simp [h0, hi, hi', Nat.not_lt.2 h1]
    · simp [h0, hi]

theorem tagged_or (a b : Int) :
    PolyWord.tagged a ||| PolyWord.tagged b = .tagged (Int.lor a b) := by
  refine BitVec.eq_of_getLsbD_eq (fun i hi => ?_)
  simp only [BitVec.getLsbD_or, getLsbD_tagged, Int.testBit_lor, hi, decide_true, Bool.true_and]
  cases decide (i = 0) <;> rfl

theorem tagged_and (a b : Int) :
    PolyWord.tagged a &&& PolyWord.tagged b = .tagged (Int.land a b) := by
  refine BitVec.eq_of_getLsbD_eq (fun i hi => ?_)
  simp only [BitVec.getLsbD_and, getLsbD_tagged, Int.testBit_land, hi, decide_true, Bool.true_and]
  cases decide (i = 0) <;> rfl

theorem tagged_xor (a b : Int) :
    (PolyWord.tagged a ^^^ PolyWord.tagged b) ||| 1#64 = .tagged (Int.xor a b) := by
  refine BitVec.eq_of_getLsbD_eq (fun i hi => ?_)
  simp only [BitVec.getLsbD_or, BitVec.getLsbD_xor, BitVec.getLsbD_one, getLsbD_tagged,
    Int.testBit_lxor, hi, decide_true, Bool.true_and]
  cases decide (i = 0) <;> simp

theorem fitsTagged_iff (n : Int) : FitsTagged n ↔ -(2 ^ 62) ≤ n ∧ n < 2 ^ 62 := by
  unfold FitsTagged PolyWord.minTagged PolyWord.maxTagged
  omega

/-- An operation on bits stays in the tagged range. -/
theorem fitsTagged_of_testBit {f : Bool → Bool → Bool} {a b r : Int}
    (hr : ∀ i, r.testBit i = f (a.testBit i) (b.testBit i)) (ha : FitsTagged a) (hb : FitsTagged b) :
    FitsTagged r := by
  rw [fitsTagged_iff] at ha hb ⊢
  exact Int.bounded_of_testBit hr ha hb

/-! ## Results -/

/-- The call returns a representation of `r` and leaves what there was, or exits when there is no room
for it. -/
def GivesInt (s : MemorySpace) (ctx : RtsContext) (out : RtsResult) (r : Int) : Prop :=
  (∃ w ctx', out = .ok (w, ctx') ∧ Canonical ctx'.mem w r ∧ ∃ words, ctx.Grown s ctx' words) ∨
    ¬s.HasRoom (allocWords r) ∧ ∃ e, out = .error e

/-- The call returns a byte object of one word that holds `v`, or exits when there is no room for it. -/
def GivesLargeWord (s : MemorySpace) (ctx : RtsContext) (out : RtsResult) (v : PolyWord) : Prop :=
  if s.HasRoom 2 then
    ∃ p ctx', out = .ok (.fromAddr p, ctx') ∧ ctx'.mem (p - 8) = makeLengthWord 1 fByteObj ∧
      ctx'.mem p = v ∧ ctx.Grown s ctx' 2
  else ∃ e, out = .error e

variable {s : MemorySpace} {ctx : RtsContext} {arg arg1 arg2 : PolyWord} {a b : Int}

theorem ReturnsInt.gives {out : RtsResult} {r : Int} (h : ReturnsInt s ctx out r) :
    GivesInt s ctx out r := by
  unfold ReturnsInt at h
  split at h
  · obtain ⟨w, ctx', hout, hstored⟩ := h
    exact .inl ⟨w, ctx', hout, hstored.canonical, _, hstored.grown⟩
  next hroom => exact .inr ⟨hroom, h⟩

/-- The operand itself is the result. -/
theorem givesInt_same (hctx : ctx.Ready s) (h : Canonical ctx.mem arg a) :
    GivesInt s ctx (.ok (arg, ctx)) a :=
  .inl ⟨arg, ctx, rfl, h, 0, .refl hctx.nursery⟩

/-- A word represents one integer. -/
theorem Canonical.unique {m : Mem} {w : PolyWord} {n n' : Int} (h : Canonical m w n)
    (h' : Canonical m w n') : n = n' := by
  let trusted : RtsContext :=
    { mem := m, allocSpace := none, raisedException := none, safeSpaces := none }
  have hlive : trusted.Live w := fun _ hranges => nomatch hranges
  have hn : polyWordToBigint trusted.safeSpaces trusted.mem w = some n :=
    polyWordToBigint_canonical h hlive
  have hn' : polyWordToBigint trusted.safeSpaces trusted.mem w = some n' :=
    polyWordToBigint_canonical h' hlive
  exact Option.some.inj (hn.symm.trans hn')

/-! ## Bit operations -/

theorem logicalArbitrary_canonical (hctx : ctx.Ready s) (h1 : Canonical ctx.mem arg1 a)
    (h2 : Canonical ctx.mem arg2 b) (hl1 : ctx.Live arg1) (hl2 : ctx.Live arg2)
    {opFast : PolyWord → PolyWord → PolyWord} {op : Int → Int → Int} {f : Bool → Bool → Bool}
    (hfast : ∀ a b, opFast (.tagged a) (.tagged b) = .tagged (op a b))
    (hbits : ∀ a b i, (op a b).testBit i = f (a.testBit i) (b.testBit i)) :
    GivesInt s ctx (logicalArbitrary ctx arg1 arg2 opFast op) (op a b) := by
  unfold logicalArbitrary
  rw [bothTagged_canonical h1 h2]
  by_cases hfit : FitsTagged a ∧ FitsTagged b
  · have hr : FitsTagged (op a b) := fitsTagged_of_testBit (hbits a b) hfit.1 hfit.2
    rw [if_pos hfit, h1.eq_tagged hfit.1, h2.eq_tagged hfit.2, hfast]
    exact givesInt_same hctx (.short hr)
  · rw [if_neg hfit, bothBigint_canonical h1 h2 hl1 hl2]
    exact (returnsInt_bigint hctx _).gives

/-! ## Shifts -/

/-- The count of a shift, as the functions see it. -/
theorem untag_shift {count : Nat} (hcount : count < 2 ^ 63) :
    (PolyWord.tagged count).untag = if count < 2 ^ 62 then (count : Int) else count - 2 ^ 63 := by
  split
  next h =>
    exact PolyWord.untag_tagged (by unfold PolyWord.minTagged; omega)
      (by unfold PolyWord.maxTagged; omega)
  next h =>
    have hword : PolyWord.tagged count = PolyWord.tagged (count - 2 ^ 63) := by
      refine BitVec.eq_of_toNat_eq ?_
      have h1 := PolyWord.toNat_tagged count
      have h2 := PolyWord.toNat_tagged (count - 2 ^ 63)
      rw [BitVec.toNat_ofInt] at h1 h2
      omega
    rw [hword]
    exact PolyWord.untag_tagged (by unfold PolyWord.minTagged; omega)
      (by unfold PolyWord.maxTagged; omega)

/-- A count below `2 ^ 62` is what is shifted by; from there on nothing is shifted. -/
theorem shiftArbitrary_canonical (h : Canonical ctx.mem arg a) (hl : ctx.Live arg) {count : Nat}
    (hcount : count < 2 ^ 63) (op : Int → Nat → Int) :
    shiftArbitrary ctx arg (.tagged count) op =
      if 0 < count ∧ count < 2 ^ 62 then bigintToPolyWord ctx (op a count) else .ok (arg, ctx) := by
  unfold shiftArbitrary
  rw [if_pos (PolyWord.isTagged_tagged _), untag_shift hcount]
  by_cases hlow : count < 2 ^ 62
  · rw [if_pos hlow]
    by_cases hpos : 0 < count
    · rw [if_neg (by omega), if_pos ⟨hpos, hlow⟩, polyWordToBigint_canonical h hl, Int.toNat_natCast]
    · rw [if_pos (by omega), if_neg (by omega)]
  · rw [if_neg hlow, if_pos (by omega), if_neg (by omega)]

/-- A shift is right up to count `2 ^ 62`, and beyond when it changes nothing. -/
theorem shiftArbitrary_gives_iff (hctx : ctx.Ready s) (h : Canonical ctx.mem arg a)
    (hl : ctx.Live arg) {count : Nat} (hcount : count < 2 ^ 63) (op : Int → Nat → Int)
    (hzero : op a 0 = a) :
    GivesInt s ctx (shiftArbitrary ctx arg (.tagged count) op) (op a count) ↔
      count < 2 ^ 62 ∨ op a count = a := by
  rw [shiftArbitrary_canonical h hl hcount]
  by_cases hlow : count < 2 ^ 62
  · refine iff_of_true ?_ (.inl hlow)
    by_cases hpos : 0 < count
    · rw [if_pos ⟨hpos, hlow⟩]
      exact (returnsInt_bigint hctx _).gives
    · rw [if_neg (by omega)]
      obtain rfl : count = 0 := by omega
      rw [hzero]
      exact givesInt_same hctx h
  · rw [if_neg (by omega)]
    constructor
    · rintro (⟨w, ctx', hout, hw, -⟩ | ⟨-, e, he⟩)
      · cases hout
        exact .inr (hw.unique h)
      · cases he
    · rintro (hlt | hsame)
      · exact absurd hlt hlow
      · rw [hsame]
        exact givesInt_same hctx h

theorem mul_pow_eq_self {count : Nat} (hcount : 2 ^ 62 ≤ count) (n : Int) :
    n * 2 ^ count = n ↔ n = 0 := by
  have h2 : (2 : Int) ^ count ≠ 1 := by
    intro h
    have hlt : (1 : Int) < 2 ^ count := one_lt_pow₀ (by decide) (by omega)
    omega
  constructor
  · intro h
    by_contra hn
    exact h2 (mul_left_cancel₀ hn (h.trans (mul_one n).symm))
  · rintro rfl
    exact zero_mul _

/-! ## The low-order word -/

/-- The first limb of a magnitude. -/
theorem toNat_low {m : Mem} {p k : Nat} (h : BoxedInt m p k a) : (m p).toNat = a.natAbs % 2 ^ 64 := by
  obtain ⟨i, rfl, -⟩ := h.leading
  rw [← h.magnitude, Mem.limbs, List.range_succ_eq_map, List.map_cons, Nat.ofDigits_cons, Nat.mul_zero,
    Nat.add_zero, Nat.add_mul_mod_self_left, Nat.mod_eq_of_lt (m p).isLt]

/-- The low word of a number, from the sign and the first limb. -/
theorem low_boxed {m : Mem} {p k : Nat} (h : BoxedInt m p k a) :
    (if flagsOf (m (p - 8)) &&& fNegativeBit != 0#8 then 0#64 - m p else m p) = BitVec.ofInt 64 a := by
  have hlow := toNat_low h
  have hflags : (flagsOf (m (p - 8)) &&& fNegativeBit != 0#8) = decide (a < 0) := by
    rw [h.lengthWord, flagsOf_makeLengthWord _ h.length]
    by_cases hneg : a < 0
    · rw [if_pos hneg, decide_eq_true hneg]
      decide
    · rw [if_neg hneg, decide_eq_false hneg]
      decide
  refine BitVec.eq_of_toNat_eq ?_
  rw [hflags, BitVec.toNat_ofInt]
  by_cases hneg : a < 0
  · rw [decide_eq_true hneg, if_pos rfl, BitVec.toNat_sub, hlow, BitVec.toNat_ofNat]
    omega
  · rw [decide_eq_false hneg, if_neg Bool.false_ne_true, hlow]
    omega

theorem safeRtsArgPtr_boxed {p k : Nat} (hp : p < 0x10000000000000000) (h : BoxedInt ctx.mem p k a)
    (hlive : ctx.Live (.fromAddr p)) : safeRtsArgPtr ctx.safeSpaces (.fromAddr p) = some p := by
  unfold safeRtsArgPtr
  rw [if_pos (isDataPtr_fromAddr hp h.aligned h.header), PolyWord.addr_fromAddr hp]
  cases hspaces : ctx.safeSpaces with
  | none => rfl
  | some ranges =>
    obtain ⟨r, hfind, -⟩ := hlive ranges hspaces (isTagged_fromAddr_aligned hp h.aligned)
    have hr := List.find?_some hfind
    rw [PolyWord.addr_fromAddr hp, decide_eq_true_eq] at hr
    refine if_pos (List.any_eq_true.2 ⟨r, List.mem_of_find?_eq_some hfind, ?_⟩)
    rw [decide_eq_true_eq]
    exact ⟨by have := hr.1; unfold wordBytes at this; omega, hr.2⟩

theorem polyGetLowOrderAsLargeWord_canonical (hctx : ctx.Ready s) (h : Canonical ctx.mem arg a)
    (hl : ctx.Live arg) (tid : PolyWord) :
    GivesLargeWord s ctx (polyGetLowOrderAsLargeWord ctx tid arg) (BitVec.ofInt 64 a) := by
  have hlow : (if arg.isTagged then some (BitVec.ofInt 64 arg.untag)
      else match safeRtsArgPtr ctx.safeSpaces arg with
        | none => none
        | some p =>
          if flagsOf (ctx.mem (p - wordBytes)) &&& fNegativeBit != 0#8 then some (0#64 - ctx.mem p)
          else some (ctx.mem p)) = some (BitVec.ofInt 64 a) := by
    cases h with
    | short hfits =>
      rw [if_pos (PolyWord.isTagged_tagged a), PolyWord.untag_tagged hfits.1 hfits.2]
    | boxed hp hbox =>
      rw [isTagged_fromAddr_aligned hp hbox.aligned, if_neg Bool.false_ne_true,
        safeRtsArgPtr_boxed hp hbox hl, ← low_boxed hbox]
      exact (apply_ite some _ _ _).symm
  unfold polyGetLowOrderAsLargeWord GivesLargeWord
  simp only [hlow, hctx.nursery, MemorySpace.allocOrExit_eq]
  by_cases hroom : s.HasRoom 2
  · rw [if_pos hroom, if_pos hroom]
    refine ⟨s.start + 8 * (s.used + 1), _, rfl, ?_, Function.update_self .., rfl, rfl, rfl,
      fun c hc => ?_⟩
    · refine (Function.update_of_ne ?_ _ _).trans (Function.update_self ..)
      omega
    · refine (Function.update_of_ne ?_ _ _).trans (Function.update_of_ne ?_ _ _)
      · dsimp only
        omega
      · dsimp only [wordBytes]
        omega
  · rw [if_neg hroom, if_neg hroom]
    exact ⟨_, rfl⟩

/-! ## All operations -/

/-- What the operations do on operands with the values `a` and `b` and the shift count `count`. -/
structure BitwiseExact (s : MemorySpace) (ctx : RtsContext) (arg1 arg2 : PolyWord) (count : Nat)
    (a b : Int) : Prop where
  and : ∃ r, (∀ i, r.testBit i = (a.testBit i && b.testBit i)) ∧
    ∀ tid, GivesInt s ctx (polyAndArbitrary ctx tid arg1 arg2) r
  or : ∃ r, (∀ i, r.testBit i = (a.testBit i || b.testBit i)) ∧
    ∀ tid, GivesInt s ctx (polyOrArbitrary ctx tid arg1 arg2) r
  xor : ∃ r, (∀ i, r.testBit i = Bool.xor (a.testBit i) (b.testBit i)) ∧
    ∀ tid, GivesInt s ctx (polyXorArbitrary ctx tid arg1 arg2) r
  shiftLeft : ∀ tid, GivesInt s ctx (polyShiftLeftArbitrary ctx tid arg1 (.tagged count))
    (a * 2 ^ count)
  /-- Floor division. -/
  shiftRight : ∀ tid, GivesInt s ctx (polyShiftRightArbitrary ctx tid arg1 (.tagged count))
    (a.fdiv (2 ^ count))
  lowOrder : ∀ tid, GivesLargeWord s ctx (polyGetLowOrderAsLargeWord ctx tid arg1)
    (BitVec.ofInt 64 a)

theorem polyShiftLeftArbitrary_gives_iff (hctx : ctx.Ready s) (h : Canonical ctx.mem arg a)
    (hl : ctx.Live arg) {count : Nat} (hcount : count < 2 ^ 63) (tid : PolyWord) :
    GivesInt s ctx (polyShiftLeftArbitrary ctx tid arg (.tagged count)) (a * 2 ^ count) ↔
      count < 2 ^ 62 ∨ a = 0 := by
  have hiff := shiftArbitrary_gives_iff hctx h hl hcount (fun n k => n <<< k) (by simp)
  simp only [Int.shiftLeft_eq] at hiff
  rw [polyShiftLeftArbitrary]
  simp only [Int.shiftLeft_eq]
  rw [hiff]
  by_cases hlow : count < 2 ^ 62
  · exact iff_of_true (.inl hlow) (.inl hlow)
  · rw [mul_pow_eq_self (by omega)]

theorem fdiv_pow_eq_self {count : Nat} (hcount : 0 < count) (n : Int) :
    n.fdiv (2 ^ count) = n ↔ n = 0 ∨ n = -1 := by
  have h2 : (2 : Int) ≤ 2 ^ count := le_self_pow₀ (by decide) (by omega)
  rw [Int.fdiv_eq_ediv_of_nonneg _ (by omega), Int.ediv_eq_iff_of_pos (by omega)]
  constructor
  · intro h
    by_contra hn
    rcases lt_or_ge n 0 with hneg | hpos
    · have hle : (n + 1) * 2 ^ count ≤ (n + 1) * 2 := Int.mul_le_mul_of_nonpos_left (by omega) h2
      rw [add_mul, one_mul] at hle
      omega
    · have hle : n * 2 ≤ n * 2 ^ count := Int.mul_le_mul_of_nonneg_left h2 hpos
      omega
  · rintro (rfl | rfl) <;> omega

theorem fdiv_pow_eq_zero {n : Int} {k count : Nat} (hn : 0 ≤ n) (hlt : n < 2 ^ k) (hk : k ≤ count) :
    n.fdiv (2 ^ count) = 0 := by
  have hpow : (2 : Int) ^ k ≤ 2 ^ count := pow_le_pow_right₀ (by decide) hk
  rw [Int.fdiv_eq_ediv_of_nonneg _ (by positivity)]
  exact Int.ediv_eq_zero_of_lt hn (by omega)

/-- The result of a right shift is also right for `0` and `-1`. -/
theorem polyShiftRightArbitrary_gives_iff (hctx : ctx.Ready s) (h : Canonical ctx.mem arg a)
    (hl : ctx.Live arg) {count : Nat} (hcount : count < 2 ^ 63) (tid : PolyWord) :
    GivesInt s ctx (polyShiftRightArbitrary ctx tid arg (.tagged count)) (a.fdiv (2 ^ count)) ↔
      count < 2 ^ 62 ∨ a = 0 ∨ a = -1 := by
  have hshift : ∀ (n : Int) (k : Nat), n >>> k = n.fdiv (2 ^ k) := fun n k => by
    rw [Int.shiftRight_eq_div_pow, Int.fdiv_eq_ediv_of_nonneg _ (by positivity)]
    simp
  have hiff := shiftArbitrary_gives_iff hctx h hl hcount (fun n k => n >>> k) (by simp)
  simp only [hshift] at hiff
  rw [polyShiftRightArbitrary]
  simp only [hshift]
  rw [hiff]
  by_cases hlow : count < 2 ^ 62
  · exact iff_of_true (.inl hlow) (.inl hlow)
  · rw [fdiv_pow_eq_self (by omega)]

/-- Everything but a shift by a count from `2 ^ 62` on is exact. -/
theorem bitwise_exact_iff (hctx : ctx.Ready s) (h1 : Canonical ctx.mem arg1 a)
    (h2 : Canonical ctx.mem arg2 b) (hl1 : ctx.Live arg1) (hl2 : ctx.Live arg2) {count : Nat}
    (hcount : count < 2 ^ 63) :
    BitwiseExact s ctx arg1 arg2 count a b ↔ count < 2 ^ 62 ∨ a = 0 := by
  constructor
  · intro h
    exact (polyShiftLeftArbitrary_gives_iff hctx h1 hl1 hcount 0#64).1 (h.shiftLeft 0#64)
  · intro h
    refine ⟨⟨Int.land a b, Int.testBit_land a b, fun tid => ?_⟩,
      ⟨Int.lor a b, Int.testBit_lor a b, fun tid => ?_⟩,
      ⟨Int.xor a b, Int.testBit_lxor a b, fun tid => ?_⟩, fun tid => ?_, fun tid => ?_, fun tid => ?_⟩
    · exact logicalArbitrary_canonical hctx h1 h2 hl1 hl2 tagged_and Int.testBit_land
    · exact logicalArbitrary_canonical hctx h1 h2 hl1 hl2 tagged_or Int.testBit_lor
    · exact logicalArbitrary_canonical hctx h1 h2 hl1 hl2 tagged_xor Int.testBit_lxor
    · exact (polyShiftLeftArbitrary_gives_iff hctx h1 hl1 hcount tid).2 h
    · exact (polyShiftRightArbitrary_gives_iff hctx h1 hl1 hcount tid).2 (h.imp_right .inl)
    · exact polyGetLowOrderAsLargeWord_canonical hctx h1 hl1 tid

/-- `2 ^ 62` and `-1`, and a shift by more than a word. -/
theorem bitwise_exact_boxed :
    BitwiseExact boxedNursery boxedContext (.fromAddr 4104) (.tagged (-1)) 70 (2 ^ 62) (-1) :=
  (bitwise_exact_iff boxedContext_ready boxedContext_canonical (.short (by decide)) boxedContext_live
    (RtsContext.live_tagged _) (by decide)).2 (.inl (by decide))

/-- Shifting `5` to the right by the largest word gives `5`, and not `0`. -/
theorem not_bitwise_exact :
    polyShiftRightArbitrary boxedContext 0#64 (.tagged 5) (.tagged (2 ^ 63 - 1 : Nat)) =
        .ok (.tagged 5, boxedContext) ∧
      (5 : Int).fdiv (2 ^ (2 ^ 63 - 1)) = 0 ∧
      ¬BitwiseExact boxedNursery boxedContext (.tagged 5) (.tagged 0) (2 ^ 63 - 1) 5 0 := by
  have h5 : Canonical boxedContext.mem (.tagged 5) 5 := .short (by decide)
  have hl : boxedContext.Live (.tagged 5) := RtsContext.live_tagged 5
  have hcount : 2 ^ 63 - 1 < 2 ^ 63 := by decide
  refine ⟨?_, ?_, fun h => ?_⟩
  · rw [polyShiftRightArbitrary, shiftArbitrary_canonical h5 hl hcount, if_neg (by decide)]
  · exact fdiv_pow_eq_zero (k := 3) (by decide) (by decide) (by decide)
  · have := (polyShiftRightArbitrary_gives_iff boxedContext_ready h5 hl hcount 0#64).1
      (h.shiftRight 0#64)
    omega
