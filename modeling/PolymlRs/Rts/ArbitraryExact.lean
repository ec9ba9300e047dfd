import PolymlRs.Rts.Arbitrary

set_option autoImplicit false

/-! # Integer arithmetic is exact

On canonical operands every operation returns the canonical representation of the exact result, as
long as the nursery has room for it; without room the process exits. A zero divisor raises `Div`,
and nothing else does. -/

/-! ## Operands -/

section Operands

variable {m : Mem} {w : PolyWord} {n : Int}

theorem Canonical.isTagged (h : Canonical m w n) : w.isTagged = decide (FitsTagged n) := by
  cases h with
  | short hfits => rw [PolyWord.isTagged_tagged, decide_eq_true hfits]
  | boxed hp hbox => rw [isTagged_fromAddr_aligned hp hbox.aligned, decide_eq_false hbox.large]

theorem Canonical.eq_tagged (h : Canonical m w n) (hfits : FitsTagged n) : w = .tagged n := by
  cases h with
  | short _ => rfl
  | boxed hp hbox => exact absurd hfits hbox.large

theorem Canonical.untag (h : Canonical m w n) (hfits : FitsTagged n) : w.untag = n := by
  rw [h.eq_tagged hfits, PolyWord.untag_tagged hfits.1 hfits.2]

theorem bothTagged_canonical {v w : PolyWord} {x y : Int} (hv : Canonical m v x)
    (hw : Canonical m w y) :
    bothTagged v w = if FitsTagged x ∧ FitsTagged y then some (x, y) else none := by
  rw [bothTagged, hv.isTagged, hw.isTagged]
  by_cases hx : FitsTagged x
  · by_cases hy : FitsTagged y
    · simp [hx, hy, hv.untag hx, hw.untag hy]
    · simp [hy]
  · simp [hx]

theorem bothBigint_canonical {ctx : RtsContext} {v w : PolyWord} {x y : Int}
    (hv : Canonical ctx.mem v x) (hw : Canonical ctx.mem w y) (hlv : ctx.Live v) (hlw : ctx.Live w) :
    bothBigint ctx v w = some (x, y) := by
  simp only [bothBigint, polyWordToBigint_canonical hv hlv, polyWordToBigint_canonical hw hlw]

end Operands

/-! ## Results -/

/-- The call returns the canonical representation of `r`, or exits when there is no room for it. -/
def ReturnsInt (s : MemorySpace) (ctx : RtsContext) (out : RtsResult) (r : Int) : Prop :=
  if s.HasRoom (allocWords r) then ∃ w ctx', out = .ok (w, ctx') ∧ Stored s ctx r w ctx'
  else ∃ e, out = .error e

variable {s : MemorySpace} {ctx : RtsContext}

theorem returnsInt_bigint (hctx : ctx.Ready s) (n : Int) :
    ReturnsInt s ctx (bigintToPolyWord ctx n) n := by
  unfold ReturnsInt
  split
  · rename_i hroom
    exact bigintToPolyWord_ok hctx n hroom
  · rename_i hroom
    exact bigintToPolyWord_exit hctx n hroom

/-- Outside the big-integer path the result is what that path would have returned. -/
theorem bigintToPolyWord_short (ctx : RtsContext) {n : Int} (h : FitsTagged n) :
    bigintToPolyWord ctx n = .ok (.tagged n, ctx) := by
  rw [bigintToPolyWord, i64FromBigintInTagRange_eq, if_pos h]

/-! ## Addition, subtraction and multiplication -/

theorem checkedI128_eq_some {n : Int} (h : FitsTagged n) : checkedI128 n = some n := by
  obtain ⟨hlo, hhi⟩ := h
  unfold PolyWord.minTagged at hlo
  unfold PolyWord.maxTagged at hhi
  have hrange : -(2 ^ 127) ≤ n ∧ n < 2 ^ 127 := by omega
  rw [checkedI128, if_pos hrange]

/-- The fast path gives a result exactly when operands and result fit, and then it is exact. -/
theorem arbFast_canonical {m : Mem} {arg1 arg2 : PolyWord} {a b : Int} (h1 : Canonical m arg1 a)
    (h2 : Canonical m arg2 b) (op : Int → Int → Int) :
    arbFast arg1 arg2 (fun x y => checkedI128 (op x y)) =
      if (FitsTagged b ∧ FitsTagged a) ∧ FitsTagged (op b a) then some (.tagged (op b a)) else none := by
  unfold arbFast
  rw [bothTagged_canonical h2 h1]
  by_cases hfit : FitsTagged b ∧ FitsTagged a
  · rw [if_pos hfit]
    by_cases hr : FitsTagged (op b a)
    · simp only [checkedI128_eq_some hr, if_pos hr, if_pos (And.intro hfit hr)]
    · rw [if_neg (fun h => hr h.2)]
      simp only [checkedI128]
      split
      · rfl
      · rename_i r hsome
        split at hsome
        · cases hsome
          rw [if_neg hr]
        · cases hsome
  · rw [if_neg hfit, if_neg (fun h => hfit h.1)]

theorem arbSlow_canonical {arg1 arg2 : PolyWord} {a b : Int} (h1 : Canonical ctx.mem arg1 a)
    (h2 : Canonical ctx.mem arg2 b) (hl1 : ctx.Live arg1) (hl2 : ctx.Live arg2)
    (op : Int → Int → Int) : arbSlow ctx arg1 arg2 op = bigintToPolyWord ctx (op b a) := by
  simp only [arbSlow, bothBigint_canonical h2 h1 hl2 hl1]

/-- The two paths of a binary operation agree. -/
theorem arbBinop_canonical {arg1 arg2 : PolyWord} {a b : Int} (h1 : Canonical ctx.mem arg1 a)
    (h2 : Canonical ctx.mem arg2 b) (hl1 : ctx.Live arg1) (hl2 : ctx.Live arg2)
    (op : Int → Int → Int) :
    arbBinop ctx arg1 arg2 (fun x y => checkedI128 (op x y)) op = bigintToPolyWord ctx (op b a) := by
  unfold arbBinop
  rw [arbFast_canonical h1 h2, arbSlow_canonical h1 h2 hl1 hl2]
  by_cases hfit : (FitsTagged b ∧ FitsTagged a) ∧ FitsTagged (op b a)
  · rw [if_pos hfit, bigintToPolyWord_short ctx hfit.2]
  · rw [if_neg hfit]

/-! ## Division and remainder -/

/-- A quotient of tagged integers only leaves the range at `minTagged / -1`. -/
theorem fitsTagged_tdiv {a b : Int} (ha : FitsTagged a) (hb : b ≠ 0)
    (hne : ¬(a = PolyWord.minTagged ∧ b = -1)) : FitsTagged (a.tdiv b) := by
  rcases eq_or_ne b (-1) with rfl | hneg
  · have hneg : a.tdiv (-1) = -a := by rw [Int.tdiv_neg, Int.tdiv_one]
    rw [hneg]
    unfold FitsTagged PolyWord.minTagged PolyWord.maxTagged at *
    omega
  · rcases eq_or_ne b 1 with rfl | hone
    · rwa [Int.tdiv_one]
    · have hhalf : a.natAbs / b.natAbs ≤ a.natAbs / 2 := Nat.div_le_div_left (by omega) (by decide)
      have hquot : (a.tdiv b).natAbs = a.natAbs / b.natAbs := Int.natAbs_tdiv a b
      unfold FitsTagged PolyWord.minTagged PolyWord.maxTagged at *
      omega

/-- A remainder is smaller than the divisor. -/
theorem fitsTagged_tmod (a : Int) {b : Int} (hfits : FitsTagged b) (hb : b ≠ 0) :
    FitsTagged (a.tmod b) := by
  have hmod : (a.tmod b).natAbs = a.natAbs % b.natAbs := Int.natAbs_tmod a b
  have hlt : a.natAbs % b.natAbs < b.natAbs := Nat.mod_lt _ (by omega)
  unfold FitsTagged PolyWord.minTagged PolyWord.maxTagged at *
  omega

/-- The divisor is zero: both paths raise `Div`. Otherwise both paths agree. -/
theorem arbDivRem_canonical {arg1 arg2 : PolyWord} {a b : Int} (h1 : Canonical ctx.mem arg1 a)
    (h2 : Canonical ctx.mem arg2 b) (hl1 : ctx.Live arg1) (hl2 : ctx.Live arg2)
    {op : Int → Int → Int}
    (hop : FitsTagged a → FitsTagged b → b ≠ 0 → ¬(a = PolyWord.minTagged ∧ b = -1) →
      FitsTagged (op a b)) :
    arbDivRem ctx arg1 arg2 op = if b = 0 then raiseDiv ctx else bigintToPolyWord ctx (op a b) := by
  have hslow : divRemSlow ctx arg1 arg2 op =
      if b = 0 then raiseDiv ctx else bigintToPolyWord ctx (op a b) := by
    simp only [divRemSlow, bothBigint_canonical h1 h2 hl1 hl2]
  unfold arbDivRem
  rw [bothTagged_canonical h2 h1]
  by_cases hfit : FitsTagged b ∧ FitsTagged a
  · rw [if_pos hfit]
    by_cases hb : b = 0
    · simp only [if_pos hb]
    · by_cases hover : a = PolyWord.minTagged ∧ b = -1
      · simp only [if_neg hb, hslow, if_neg (not_not.2 hover)]
      · simp only [if_neg hb, if_pos hover,
          bigintToPolyWord_short ctx (hop hfit.2 hfit.1 hb hover)]
  · simp only [if_neg hfit, hslow]

/-! ## Tuples and strings -/

/-- An ordinary object with the given words. -/
structure IsTuple (m : Mem) (p : Nat) (words : List PolyWord) : Prop where
  aligned : p % 8 = 0
  header : 8 ≤ p
  address : p < 0x10000000000000000
  lengthWord : m (p - 8) = makeLengthWord words.length 0x00#8
  body : ∀ (i : Nat) (h : i < words.length), m (p + 8 * i) = words[i]

/-- A string object holding `bytes`. -/
structure IsString (m : Mem) (p : Nat) (bytes : List UInt8) : Prop where
  lengthWord : m (p - 8) = makeLengthWord (1 + (bytes.length + 7) / 8) fByteObj
  length : m p = BitVec.ofNat 64 bytes.length
  chars : m.readBytes (p + 8) bytes.length = bytes

theorem allocTuple_ready (hctx : ctx.Ready s) (absent : PolyWord) (words : List PolyWord) :
    (s.HasRoom (words.length + 1) → ∃ p ctx', allocTuple ctx absent words = .ok (.fromAddr p, ctx') ∧
      ctx.Grown s ctx' (words.length + 1) ∧ IsTuple ctx'.mem p words) ∧
    (¬s.HasRoom (words.length + 1) → ∃ e, allocTuple ctx absent words = .error e) := by
  unfold allocTuple
  simp only [hctx.nursery, MemorySpace.allocOrExit_eq]
  constructor
  · intro hroom
    rw [if_pos hroom]
    have haligned := hctx.aligned
    have hlimit := hctx.addressable
    unfold MemorySpace.limit wordBytes at hlimit
    unfold MemorySpace.HasRoom at hroom
    refine ⟨_, _, rfl, ⟨rfl, rfl, rfl, fun a ha => ?_⟩, by omega, by omega, by omega, ?_,
      fun i hi => Mem.putWords_inside hi⟩
    · refine (Mem.putWords_outside (by omega)).trans (Function.update_of_ne ?_ _ _)
      unfold wordBytes
      omega
    · refine (Mem.putWords_outside (Or.inl (by omega))).trans ?_
      exact Function.update_self ..
  · intro hroom
    rw [if_neg hroom]
    exact ⟨_, rfl⟩

/-- The memory after the name was written at `p`. -/
theorem isString_written (m : Mem) {p : Nat} (hp : 8 ≤ p) :
    IsString ((Mem.writeBytes (Function.update (m.setLengthWord p 2 fByteObj) p
      (BitVec.ofNat 64 divName.length)) (p + 8) divName).writeBytes
        (p + 8 + divName.length) (List.replicate 5 0)) p divName := by
  refine ⟨?_, ?_, ?_⟩
  · rw [Mem.writeBytes_outside _ (Or.inl (by omega)), Mem.writeBytes_outside _ (Or.inl (by omega)),
      Function.update_of_ne (by omega), Mem.setLengthWord]
    exact Function.update_self ..
  · rw [Mem.writeBytes_outside _ (Or.inl (by omega)), Mem.writeBytes_outside _ (Or.inl (by omega))]
    exact Function.update_self ..
  · rw [Mem.readBytes_congr
      (fun i hi => Mem.byteAt_writeBytes_outside _ (Or.inl (Nat.add_lt_add_left hi _)))]
    exact Mem.readBytes_writeBytes _ _ _

theorem allocPolyString_divName (hctx : ctx.Ready s) :
    (s.HasRoom 3 → ∃ ctx', allocPolyString ctx divName =
      .ok (.fromAddr (s.start + 8 * (s.used + 1)), ctx') ∧ ctx.Grown s ctx' 3 ∧
        IsString ctx'.mem (s.start + 8 * (s.used + 1)) divName) ∧
    (¬s.HasRoom 3 → ∃ e, allocPolyString ctx divName = .error e) := by
  have hbody : (divName.length + (wordBytes - 1)) / wordBytes = 1 := by decide
  have hlen : divName.length = 3 := rfl
  unfold allocPolyString
  simp only [hctx.nursery, hbody, MemorySpace.allocOrExit_eq]
  constructor
  · intro hroom
    rw [if_pos hroom]
    refine ⟨_, rfl, ⟨rfl, rfl, rfl, fun a ha => ?_⟩, isString_written ctx.mem (by omega)⟩
    simp only [wordBytes, hlen]
    refine (Mem.writeBytes_outside _ (by rw [List.length_replicate]; omega)).trans ?_
    refine (Mem.writeBytes_outside _ (by rw [hlen]; omega)).trans ?_
    rw [Function.update_of_ne (by omega), Mem.setLengthWord,
      Function.update_of_ne (by unfold wordBytes; omega)]
  · intro hroom
    rw [if_neg hroom]
    exact ⟨_, rfl⟩

/-- Only the memory of the string matters. -/
theorem IsString.congr {m m' : Mem} {p : Nat} {bytes : List UInt8} (h : IsString m p bytes)
    (hp : p % 8 = 0) {e : Nat} (hend : p + 8 + bytes.length ≤ e)
    (heq : ∀ a, a % 8 = 0 → a < e → m' a = m a) : IsString m' p bytes := by
  refine ⟨?_, ?_, ?_⟩
  · rw [heq _ (by omega) (by omega), h.lengthWord]
  · rw [heq _ hp (by omega), h.length]
  · rw [Mem.readBytes_congr
      (fun i hi => Mem.byteAt_congr (heq _ (by omega) (by omega))), h.chars]

/-! ## The `Div` exception -/

/-- The packet a handler for `Div` matches: four words, the first of them the identity. -/
def IsDivPacket (m : Mem) (w : PolyWord) : Prop :=
  ∃ p q, w = .fromAddr p ∧ IsTuple m p [.tagged 7, .fromAddr q, .tagged 0, .tagged 0] ∧
    IsString m q divName

/-- The words of the packet and of its name. -/
abbrev divWords : Nat := 8

/-- The call raises `Div`, or exits when there is no room for the packet. -/
def RaisesDiv (s : MemorySpace) (ctx : RtsContext) (out : RtsResult) : Prop :=
  if s.HasRoom divWords then
    ∃ w packet ctx', out = .ok (w, { ctx' with raisedException := some packet }) ∧
      ctx.Grown s ctx' divWords ∧ IsDivPacket ctx'.mem packet
  else ∃ e, out = .error e

theorem raiseDiv_ready (hctx : ctx.Ready s) : RaisesDiv s ctx (raiseDiv ctx) := by
  obtain ⟨hname, hnameExit⟩ := allocPolyString_divName hctx
  unfold RaisesDiv raiseDiv makeDivException makePervasiveExn
  by_cases hroom3 : s.HasRoom 3
  · obtain ⟨ctx₁, hrun, hgrown, hstr⟩ := hname hroom3
    have hready := hgrown.ready hctx hroom3
    obtain ⟨hpacket, hpacketExit⟩ := allocTuple_ready hready .zero
      [.tagged 7, .fromAddr (s.start + 8 * (s.used + 1)), .tagged 0, .tagged 0]
    have hsum : s.HasRoom divWords ↔ (s.grow 3).HasRoom 5 := (s.hasRoom_grow 3 5).symm
    by_cases hroom : s.HasRoom divWords
    · obtain ⟨p, ctx₂, hrun₂, hgrown₂, htuple⟩ := hpacket (hsum.1 hroom)
      rw [if_pos hroom, hrun]
      simp only [bind, Except.bind]
      rw [hrun₂]
      refine ⟨_, _, ctx₂, rfl, hgrown.trans hgrown₂, p, _, rfl, htuple, ?_⟩
      have hlen : divName.length = 3 := rfl
      have haligned := hctx.aligned
      have hend : s.start + 8 * (s.used + 1) + 8 + divName.length ≤ s.start + 8 * (s.used + 3) := by
        omega
      exact hstr.congr (by omega) hend (hgrown₂.below haligned)
    · obtain ⟨e, he⟩ := hpacketExit (fun h => hroom (hsum.2 h))
      rw [if_neg hroom, hrun]
      simp only [bind, Except.bind]
      rw [he]
      exact ⟨e, rfl⟩
  · obtain ⟨e, he⟩ := hnameExit hroom3
    have hroom : ¬s.HasRoom divWords := fun h => hroom3 (h.mono (by decide))
    rw [if_neg hroom, he]
    exact ⟨e, rfl⟩

/-! ## Quotient and remainder -/

/-- The words of the two results and of the tuple. -/
abbrev pairWords (q r : Int) : Nat := allocWords q + allocWords r + 3

/-- The call returns a tuple of canonical representations of `q` and `r`, or exits when there is no
room for all three objects. -/
def ReturnsPair (s : MemorySpace) (ctx : RtsContext) (out : RtsResult) (q r : Int) : Prop :=
  if s.HasRoom (pairWords q r) then
    ∃ p qWord rWord ctx', out = .ok (.fromAddr p, ctx') ∧ ctx.Grown s ctx' (pairWords q r) ∧
      IsTuple ctx'.mem p [qWord, rWord] ∧ Canonical ctx'.mem qWord q ∧ Canonical ctx'.mem rWord r
  else ∃ e, out = .error e

/-- Storing both results and then the tuple. -/
theorem returnsPair_stored (hctx : ctx.Ready s) (a b : Int) :
    ReturnsPair s ctx (do
      let (q, r, ctx) ← storeQuotRem ctx a b
      allocPair ctx q r) (a.tdiv b) (a.tmod b) := by
  unfold ReturnsPair storeQuotRem allocPair
  by_cases hq : s.HasRoom (allocWords (a.tdiv b))
  · obtain ⟨qWord, ctx₁, hrun₁, hst₁⟩ := bigintToPolyWord_ok hctx _ hq
    have hctx₁ := hst₁.grown.ready hctx hq
    by_cases hr : (s.grow (allocWords (a.tdiv b))).HasRoom (allocWords (a.tmod b))
    · obtain ⟨rWord, ctx₂, hrun₂, hst₂⟩ := bigintToPolyWord_ok hctx₁ _ hr
      have hctx₂ := hst₂.grown.ready hctx₁ hr
      obtain ⟨htuple, htupleExit⟩ := allocTuple_ready hctx₂ (.tagged 0) [qWord, rWord]
      have hsum : ((s.grow (allocWords (a.tdiv b))).grow (allocWords (a.tmod b))).HasRoom 3 ↔
          s.HasRoom (pairWords (a.tdiv b) (a.tmod b)) := by
        rw [MemorySpace.hasRoom_grow, MemorySpace.hasRoom_grow, ← Nat.add_assoc]
      rw [hrun₁]
      simp only [bind, Except.bind]
      rw [hrun₂]
      simp only [pure, Except.pure]
      by_cases hroom : s.HasRoom (pairWords (a.tdiv b) (a.tmod b))
      · obtain ⟨p, ctx₃, hrun₃, hgrown₃, hpair⟩ := htuple (hsum.2 hroom)
        have haligned := hctx.aligned
        rw [if_pos hroom, hrun₃]
        refine ⟨p, qWord, rWord, ctx₃, rfl, ?_, hpair, ?_, ?_⟩
        · rw [pairWords, Nat.add_assoc]
          exact hst₁.grown.trans (hst₂.grown.trans hgrown₃)
        · refine hst₁.canonical.congr hst₁.ends (fun x h0 hlt => ?_)
          have hlt₂ := Nat.lt_of_lt_of_le hlt (Nat.add_le_add_left (Nat.mul_le_mul_left 8
            (Nat.le_add_right (s.used + allocWords (a.tdiv b)) (allocWords (a.tmod b)))) s.start)
          rw [hgrown₃.below haligned x h0 hlt₂, hst₂.grown.below haligned x h0 hlt]
        · exact hst₂.canonical.congr hst₂.ends (hgrown₃.below haligned)
      · obtain ⟨e, he⟩ := htupleExit (fun h => hroom (hsum.1 h))
        rw [if_neg hroom, he]
        exact ⟨e, rfl⟩
    · obtain ⟨e, he⟩ := bigintToPolyWord_exit hctx₁ _ hr
      have hroom : ¬s.HasRoom (pairWords (a.tdiv b) (a.tmod b)) := fun h =>
        hr ((MemorySpace.hasRoom_grow ..).2 (h.mono (Nat.le_add_right _ _)))
      rw [if_neg hroom, hrun₁]
      simp only [bind, Except.bind]
      rw [he]
      exact ⟨e, rfl⟩
  · obtain ⟨e, he⟩ := bigintToPolyWord_exit hctx _ hq
    have hroom : ¬s.HasRoom (pairWords (a.tdiv b) (a.tmod b)) := fun h =>
      hq (h.mono (Nat.le_trans (Nat.le_add_right _ _) (Nat.le_add_right _ _)))
    rw [if_neg hroom, he]
    exact ⟨e, rfl⟩

theorem polyQuotRemArbitraryPair_canonical {arg1 arg2 : PolyWord} {a b : Int} (hctx : ctx.Ready s)
    (h1 : Canonical ctx.mem arg1 a) (h2 : Canonical ctx.mem arg2 b) (hl1 : ctx.Live arg1)
    (hl2 : ctx.Live arg2) (tid : PolyWord) :
    if b = 0 then RaisesDiv s ctx (polyQuotRemArbitraryPair ctx tid arg1 arg2)
    else ReturnsPair s ctx (polyQuotRemArbitraryPair ctx tid arg1 arg2) (a.tdiv b) (a.tmod b) := by
  unfold polyQuotRemArbitraryPair
  rw [bothTagged_canonical h2 h1]
  by_cases hb : b = 0
  · rw [if_pos hb]
    by_cases hfit : FitsTagged b ∧ FitsTagged a
    · simp only [if_pos hfit, if_pos hb]
      exact raiseDiv_ready hctx
    · simp only [if_neg hfit, bothBigint_canonical h1 h2 hl1 hl2, if_pos hb]
      exact raiseDiv_ready hctx
  · rw [if_neg hb]
    by_cases hfit : FitsTagged b ∧ FitsTagged a
    · by_cases hover : a = PolyWord.minTagged ∧ b = -1
      · simp only [if_pos hfit, if_neg hb, if_pos hover]
        exact returnsPair_stored hctx a b
      · -- both results fit: nothing but the tuple is allocated
        have hstore := returnsPair_stored hctx a b
        simp only [storeQuotRem, bigintToPolyWord_short _ (fitsTagged_tdiv hfit.2 hb hover),
          bigintToPolyWord_short _ (fitsTagged_tmod a hfit.1 hb)] at hstore
        simp only [if_pos hfit, if_neg hb, if_neg hover]
        exact hstore
    · simp only [if_neg hfit, bothBigint_canonical h1 h2 hl1 hl2, if_neg hb]
      exact returnsPair_stored hctx a b

/-! ## Comparison -/

theorem polyCompareArbitrary_canonical {arg1 arg2 : PolyWord} {a b : Int}
    (h1 : Canonical ctx.mem arg1 a) (h2 : Canonical ctx.mem arg2 b) (hl1 : ctx.Live arg1)
    (hl2 : ctx.Live arg2) :
    polyCompareArbitrary ctx arg1 arg2 = .tagged (Int.sign (a - b)) := by
  have hboth := bothBigint_canonical h1 h2 hl1 hl2
  have hsame : arg1 = arg2 → a = b := by
    rintro rfl
    have h := polyWordToBigint_canonical h1 hl1
    rw [polyWordToBigint_canonical h2 hl2] at h
    exact (Option.some.inj h).symm
  unfold polyCompareArbitrary
  split
  · rename_i heq
    rw [hsame heq, Int.sub_self, Int.sign_zero]
  · simp only [hboth]
    rcases lt_trichotomy a b with hlt | rfl | hgt
    · rw [compare_lt_iff_lt.2 hlt, Int.sign_eq_neg_one_of_neg (by omega)]
    · rw [compare_eq_iff_eq.2 rfl, Int.sub_self, Int.sign_zero]
    · rw [compare_gt_iff_gt.2 hgt, Int.sign_eq_one_of_pos (by omega)]

/-! ## The interpreter's instructions -/

/-- The instruction replaces its two operands by the canonical representation of `r`, or the process
exits when there is no room for it. -/
def ReplacesTop (s : MemorySpace) (st : ArbState) (out : Except ArbStop ArbState)
    (rest : List PolyWord) (r : Int) : Prop :=
  if s.HasRoom (allocWords r) then
    ∃ w st', out = .ok st' ∧ st'.stack = w :: rest ∧ Stored s st.ctx r w st'.ctx
  else ∃ e, out = .error (.exit e)

theorem arbPair_canonical {st : ArbState} {x y : PolyWord} {rest : List PolyWord} {a b : Int}
    (hctx : st.ctx.Ready s) (hstack : st.stack = x :: y :: rest) (hy : Canonical st.mem y a)
    (hx : Canonical st.mem x b) (hly : st.ctx.Live y) (hlx : st.ctx.Live x) (op : Int → Int → Int) :
    ReplacesTop s st (arbPair st op) rest (op a b) := by
  have hboth := @bothBigint_canonical st.ctx y x a b hy hx hly hlx
  have hpop : st.pop = .ok (x, { st with stack := y :: rest }) := by
    simp only [ArbState.pop, hstack]
  unfold arbPair
  rw [hpop]
  simp only [bind, Except.bind, ArbState.peek]
  by_cases hfast : (x.isTagged && y.isTagged && decide (FitsTagged (op y.untag x.untag))) = true
  · rw [if_pos hfast]
    rw [hx.isTagged, hy.isTagged, Bool.and_eq_true, Bool.and_eq_true, decide_eq_true_eq,
      decide_eq_true_eq, decide_eq_true_eq] at hfast
    obtain ⟨⟨hb, ha⟩, hr⟩ := hfast
    rw [hx.untag hb, hy.untag ha] at hr ⊢
    have hwords : allocWords (op a b) = 0 := if_pos hr
    have hroom : s.HasRoom 0 := hctx.used
    unfold ReplacesTop
    rw [hwords, if_pos hroom]
    refine ⟨_, _, rfl, rfl, .short hr, ?_, fun htag => ?_⟩
    · rw [hwords]
      exact .refl hctx.nursery
    · rw [PolyWord.isTagged_tagged] at htag
      cases htag
  · rw [if_neg hfast]
    have hinner : ({ st.ctx with safeSpaces := none } : RtsContext).Ready s :=
      ⟨hctx.nursery, rfl, hctx.aligned, hctx.used, hctx.addressable⟩
    have hvia : arbViaBigint { st with stack := y :: rest } x y op =
        bigintToPolyWord { st.ctx with safeSpaces := none } (op a b) := by
      have hboth' : bothBigint (ArbState.ctx { st with stack := y :: rest }) y x = some (a, b) := hboth
      simp only [arbViaBigint, hboth']
      rfl
    unfold ReplacesTop
    rw [hvia]
    by_cases hroom : s.HasRoom (allocWords (op a b))
    · obtain ⟨w, inner, hrun, hst⟩ := bigintToPolyWord_ok hinner (op a b) hroom
      rw [if_pos hroom, hrun]
      refine ⟨w, _, rfl, rfl, hst.canonical, ?_, hst.ends⟩
      exact ⟨hst.grown.nursery, rfl, rfl, hst.grown.frame⟩
    · obtain ⟨e, he⟩ := bigintToPolyWord_exit hinner (op a b) hroom
      rw [if_neg hroom, he]
      exact ⟨e, rfl⟩

/-! ## All operations -/

/-- What the operations do on the operands `arg1` and `arg2` with the values `a` and `b`. -/
structure ArbitraryExact (s : MemorySpace) (ctx : RtsContext) (arg1 arg2 : PolyWord) (a b : Int) :
    Prop where
  add : ∀ tid, ReturnsInt s ctx (polyAddArbitrary ctx tid arg1 arg2) (a + b)
  subtract : ∀ tid, ReturnsInt s ctx (polySubtractArbitrary ctx tid arg1 arg2) (a - b)
  multiply : ∀ tid, ReturnsInt s ctx (polyMultiplyArbitrary ctx tid arg1 arg2) (a * b)
  divide : ∀ tid, if b = 0 then RaisesDiv s ctx (polyDivideArbitrary ctx tid arg1 arg2)
    else ReturnsInt s ctx (polyDivideArbitrary ctx tid arg1 arg2) (a.tdiv b)
  remainder : ∀ tid, if b = 0 then RaisesDiv s ctx (polyRemainderArbitrary ctx tid arg1 arg2)
    else ReturnsInt s ctx (polyRemainderArbitrary ctx tid arg1 arg2) (a.tmod b)
  quotRemPair : ∀ tid, if b = 0 then RaisesDiv s ctx (polyQuotRemArbitraryPair ctx tid arg1 arg2)
    else ReturnsPair s ctx (polyQuotRemArbitraryPair ctx tid arg1 arg2) (a.tdiv b) (a.tmod b)
  compare : polyCompareArbitrary ctx arg1 arg2 = .tagged (Int.sign (a - b))
  /-- Where the fast path of an operation gives a result, the big-integer path gives the same. -/
  binopPaths : ∀ op : Int → Int → Int,
    arbBinop ctx arg1 arg2 (fun x y => checkedI128 (op x y)) op = arbSlow ctx arg1 arg2 op
  dividePaths : arbDivRem ctx arg1 arg2 Int.tdiv = divRemSlow ctx arg1 arg2 Int.tdiv
  remainderPaths : arbDivRem ctx arg1 arg2 Int.tmod = divRemSlow ctx arg1 arg2 Int.tmod
  arbAdd : ∀ st rest, st.ctx = ctx → st.stack = arg2 :: arg1 :: rest →
    ReplacesTop s st (arbAddPair st) rest (a + b)
  arbSub : ∀ st rest, st.ctx = ctx → st.stack = arg2 :: arg1 :: rest →
    ReplacesTop s st (arbSubPair st) rest (a - b)
  arbMult : ∀ st rest, st.ctx = ctx → st.stack = arg2 :: arg1 :: rest →
    ReplacesTop s st (arbMultPair st) rest (a * b)

theorem arbitrary_exact {arg1 arg2 : PolyWord} {a b : Int} (hctx : ctx.Ready s)
    (h1 : Canonical ctx.mem arg1 a) (h2 : Canonical ctx.mem arg2 b) (hl1 : ctx.Live arg1)
    (hl2 : ctx.Live arg2) : ArbitraryExact s ctx arg1 arg2 a b := by
  have hslow : ∀ op, divRemSlow ctx arg1 arg2 op =
      if b = 0 then raiseDiv ctx else bigintToPolyWord ctx (op a b) := by
    intro op
    simp only [divRemSlow, bothBigint_canonical h1 h2 hl1 hl2]
  have hdivide := arbDivRem_canonical h1 h2 hl1 hl2
    (fun ha _ hb hne => fitsTagged_tdiv ha hb hne)
  have hremainder := arbDivRem_canonical h1 h2 hl1 hl2
    (fun _ hfits hb _ => fitsTagged_tmod a hfits hb)
  have harb : ∀ op st rest, st.ctx = ctx → st.stack = arg2 :: arg1 :: rest →
      ReplacesTop s st (arbPair st op) rest (op a b) := by
    rintro op st rest rfl hstack
    exact arbPair_canonical hctx hstack h1 h2 hl1 hl2 op
  refine ⟨fun tid => ?_, fun tid => ?_, fun tid => ?_, fun tid => ?_, fun tid => ?_, fun tid => ?_,
    polyCompareArbitrary_canonical h1 h2 hl1 hl2, fun op => ?_, ?_, ?_, harb _, harb _, harb _⟩
  · rw [polyAddArbitrary, arbBinop_canonical h1 h2 hl1 hl2, Int.add_comm b a]
    exact returnsInt_bigint hctx _
  · rw [polySubtractArbitrary, arbBinop_canonical h2 h1 hl2 hl1]
    exact returnsInt_bigint hctx _
  · rw [polyMultiplyArbitrary, arbBinop_canonical h1 h2 hl1 hl2, Int.mul_comm b a]
    exact returnsInt_bigint hctx _
  · rw [polyDivideArbitrary, hdivide]
    split
    · exact raiseDiv_ready hctx
    · exact returnsInt_bigint hctx _
  · rw [polyRemainderArbitrary, hremainder]
    split
    · exact raiseDiv_ready hctx
    · exact returnsInt_bigint hctx _
  · exact polyQuotRemArbitraryPair_canonical hctx h1 h2 hl1 hl2 tid
  · rw [arbBinop_canonical h1 h2 hl1 hl2, arbSlow_canonical h1 h2 hl1 hl2]
  · rw [hdivide, hslow]
  · rw [hremainder, hslow]

/-- A nursery that holds the boxed integer `2 ^ 62`. -/
def boxedNursery : MemorySpace := { start := 4096, capacity := 64, used := 2, spare := none }

def boxedContext : RtsContext where
  mem := fun a =>
    if a = 4096 then makeLengthWord 1 fByteObj
    else if a = 4104 then BitVec.ofNat 64 (2 ^ 62)
    else 0#64
  allocSpace := some boxedNursery
  raisedException := none
  safeSpaces := some [(4096, 4608)]

theorem boxedContext_ready : boxedContext.Ready boxedNursery :=
  ⟨rfl, rfl, by decide, by decide, by decide⟩

theorem boxedContext_canonical : Canonical boxedContext.mem (.fromAddr 4104) (2 ^ 62) :=
  .boxed (by decide)
    ⟨by decide, by decide, by decide, by decide, by decide, ⟨0, rfl, by decide⟩, by decide⟩

theorem boxedContext_live : boxedContext.Live (.fromAddr 4104) := by
  intro ranges hranges _
  cases hranges
  exact ⟨(4096, 4608), by decide, by decide⟩

/-- A tagged word needs no space. -/
theorem RtsContext.live_tagged (n : Int) : ctx.Live (.tagged n) := by
  intro ranges _ htag
  rw [PolyWord.isTagged_tagged] at htag
  cases htag

/-- `2 ^ 62` and `-1`: every result but the difference shrinks back to a tagged word. -/
theorem arbitrary_exact_boxed :
    ArbitraryExact boxedNursery boxedContext (.fromAddr 4104) (.tagged (-1)) (2 ^ 62) (-1) :=
  arbitrary_exact boxedContext_ready boxedContext_canonical (.short (by decide)) boxedContext_live
    (RtsContext.live_tagged _)
