import PolymlRs.Rts.ArbitraryExact
import Mathlib.Data.Int.GCD

set_option autoImplicit false

/-! # Greatest common divisor and least common multiple

`PolyGCDArbitrary` and `PolyLCMArbitrary`. Tagged operands go through Euclid's loop on magnitudes, as
long as the result fits; the least common multiple has the sign of the product. -/

/-! ## Runtime functions -/

/-- The loop `while b != 0`. -/
def euclid (a b : Nat) : Nat := if b = 0 then a else euclid b (a % b)
termination_by b
decreasing_by exact Nat.mod_lt a (by omega)

/-- The magnitudes are at most `2 ^ 62`, so that the cast to `isize` changes nothing. -/
def gcdFast (arg1 arg2 : PolyWord) : Option PolyWord :=
  match bothTagged arg2 arg1 with
  | none => none
  | some (x, y) =>
    let g : Int := euclid x.natAbs y.natAbs
    if FitsTagged g then some (.tagged g) else none

def gcdSlow (ctx : RtsContext) (arg1 arg2 : PolyWord) : RtsResult :=
  match bothBigint ctx arg1 arg2 with
  | none => .ok (.tagged 0, ctx)
  | some (a, b) => bigintToPolyWord ctx (Int.gcd a b)

def polyGcdArbitrary (ctx : RtsContext) (_tid arg1 arg2 : PolyWord) : RtsResult :=
  match gcdFast arg1 arg2 with
  | some w => .ok (w, ctx)
  | none => gcdSlow ctx arg1 arg2

/-- The product `checked_mul` of two `usize`. -/
def checkedMulUsize (a b : Nat) : Option Nat := if a * b < 2 ^ 64 then some (a * b) else none

/-- The signed result for two operands that are not zero, where it fits. -/
def lcmFast (x y : Int) : Option PolyWord :=
  let g := euclid x.natAbs y.natAbs
  match checkedMulUsize (x.natAbs / g) y.natAbs with
  | none => none
  | some mag =>
    if mag ≤ 2 ^ 63 - 1 then
      let v : Int := if decide (x < 0) != decide (y < 0) then -(mag : Int) else mag
      if FitsTagged v then some (.tagged v) else none
    else none

/-- The magnitude, then the sign. -/
def lcmSlow (ctx : RtsContext) (arg1 arg2 : PolyWord) : RtsResult :=
  match bothBigint ctx arg1 arg2 with
  | none => .ok (.tagged 0, ctx)
  | some (a, b) =>
    let l : Int := Int.lcm a b
    bigintToPolyWord ctx
      (if (decide (a < 0) != decide (b < 0)) && decide (l ≠ 0) then -l else l)

def polyLcmArbitrary (ctx : RtsContext) (_tid arg1 arg2 : PolyWord) : RtsResult :=
  match bothTagged arg2 arg1 with
  | some (x, y) =>
    if x = 0 ∧ y = 0 then raiseDiv ctx
    else if x = 0 ∨ y = 0 then .ok (.tagged 0, ctx)
    else match lcmFast x y with
      | some w => .ok (w, ctx)
      | none => lcmSlow ctx arg1 arg2
  | none => lcmSlow ctx arg1 arg2

/-! ## Euclid's loop -/

theorem euclid_eq_gcd (a b : Nat) : euclid a b = Nat.gcd a b := by
  induction b using Nat.strong_induction_on generalizing a with
  | _ b ih =>
    rw [euclid]
    by_cases hb : b = 0
    · rw [if_pos hb, hb, Nat.gcd_zero_right]
    · have hlt : a % b < b := Nat.mod_lt a (by omega)
      rw [if_neg hb, ih _ hlt, Nat.gcd_comm a b, Nat.gcd_rec b a, Nat.gcd_comm]

/-! ## The sign of a least common multiple -/

theorem natAbs_mul_div_gcd (a b : Int) : a.natAbs * (b.natAbs / Int.gcd a b) = Int.lcm a b := by
  rw [Int.lcm_eq_mul_div, Nat.mul_div_assoc _ (Int.gcd_dvd_natAbs_right a b)]

/-- `x * (y / gcd)` is the least common multiple, with the sign of the product. -/
theorem mul_div_gcd (a b : Int) :
    a * b.tdiv (Int.gcd a b) =
      if decide (a < 0) != decide (b < 0) then -(Int.lcm a b : Int) else Int.lcm a b := by
  have h := natAbs_mul_div_gcd a b
  have hcast : ((a.natAbs : Int)) * ((b.natAbs / Int.gcd a b : Nat) : Int) = Int.lcm a b := by
    exact_mod_cast h
  have hdiv : b.tdiv (Int.gcd a b) =
      if b < 0 then -((b.natAbs / Int.gcd a b : Nat) : Int) else (b.natAbs / Int.gcd a b : Nat) := by
    split
    next hneg =>
      have hb : b = -(b.natAbs : Int) := by omega
      rw [hb, Int.neg_tdiv, Int.natAbs_neg, Int.natAbs_natCast, Int.gcd_neg]
      rfl
    next hpos =>
      have hb : b = (b.natAbs : Int) := by omega
      rw [hb, Int.natAbs_natCast]
      rfl
  rw [hdiv, ← hcast]
  by_cases ha : a < 0
  · have habs : (a.natAbs : Int) = -a := by omega
    by_cases hb : b < 0 <;> simp [ha, hb, habs]
  · have habs : (a.natAbs : Int) = a := by omega
    by_cases hb : b < 0 <;> simp [ha, hb, habs]

/-- The result of the function, by its two cases. -/
theorem signed_lcm (a b : Int) :
    (if (decide (a < 0) != decide (b < 0)) && decide ((Int.lcm a b : Int) ≠ 0) then
        -(Int.lcm a b : Int) else Int.lcm a b) = a * b.tdiv (Int.gcd a b) := by
  rw [mul_div_gcd]
  by_cases hzero : Int.lcm a b = 0
  · simp [hzero]
  · simp [hzero]

variable {s : MemorySpace} {ctx : RtsContext} {arg1 arg2 : PolyWord} {a b : Int}

/-! ## The two paths -/

theorem gcdSlow_canonical (h1 : Canonical ctx.mem arg1 a) (h2 : Canonical ctx.mem arg2 b)
    (hl1 : ctx.Live arg1) (hl2 : ctx.Live arg2) :
    gcdSlow ctx arg1 arg2 = bigintToPolyWord ctx (Int.gcd a b) := by
  simp only [gcdSlow, bothBigint_canonical h1 h2 hl1 hl2]

theorem lcmSlow_canonical (h1 : Canonical ctx.mem arg1 a) (h2 : Canonical ctx.mem arg2 b)
    (hl1 : ctx.Live arg1) (hl2 : ctx.Live arg2) :
    lcmSlow ctx arg1 arg2 = bigintToPolyWord ctx (a * b.tdiv (Int.gcd a b)) := by
  simp only [lcmSlow, bothBigint_canonical h1 h2 hl1 hl2, signed_lcm]

/-- Where the loop gives a result, it is the one of the other path. -/
theorem gcdFast_eq {w : PolyWord} (h1 : Canonical ctx.mem arg1 a) (h2 : Canonical ctx.mem arg2 b)
    (hl1 : ctx.Live arg1) (hl2 : ctx.Live arg2) (hw : gcdFast arg1 arg2 = some w) :
    gcdSlow ctx arg1 arg2 = .ok (w, ctx) := by
  rw [gcdSlow_canonical h1 h2 hl1 hl2]
  unfold gcdFast at hw
  rw [bothTagged_canonical h2 h1] at hw
  split at hw
  · cases hw
  next x y hxy =>
    split at hxy
    next hfit =>
      obtain ⟨rfl, rfl⟩ : b = x ∧ a = y := by simpa using hxy
      have hg : (euclid b.natAbs a.natAbs : Int) = Int.gcd a b := by
        rw [euclid_eq_gcd, Nat.gcd_comm]
        rfl
      dsimp only at hw
      rw [hg] at hw
      split at hw
      next hg =>
        cases hw
        exact bigintToPolyWord_short ctx hg
      · cases hw
    · cases hxy

theorem lcmFast_eq {w : PolyWord} (hw : lcmFast b a = some w) :
    FitsTagged (a * b.tdiv (Int.gcd a b)) ∧ w = .tagged (a * b.tdiv (Int.gcd a b)) := by
  unfold lcmFast at hw
  dsimp only at hw
  have hg : euclid b.natAbs a.natAbs = Int.gcd b a := euclid_eq_gcd _ _
  have hmag : b.natAbs / Int.gcd b a * a.natAbs = Int.lcm a b := by
    rw [Nat.mul_comm, Int.gcd_comm, natAbs_mul_div_gcd]
  rw [hg, checkedMulUsize, hmag] at hw
  split at hw
  · cases hw
  next mag hmul =>
    obtain rfl : Int.lcm a b = mag := by
      split at hmul
      · exact Option.some.inj hmul
      · cases hmul
    have hsign : (decide (b < 0) != decide (a < 0)) = (decide (a < 0) != decide (b < 0)) :=
      bne_comm
    rw [hsign, ← mul_div_gcd] at hw
    split at hw
    · split at hw
      next hfit =>
        cases hw
        exact ⟨hfit, rfl⟩
      · cases hw
    · cases hw

/-- With a zero and another operand the result is zero. -/
theorem mul_div_gcd_zero (h : a = 0 ∨ b = 0) : a * b.tdiv (Int.gcd a b) = 0 := by
  rcases h with rfl | rfl
  · exact zero_mul _
  · rw [Int.zero_tdiv, mul_zero]

/-- Unless both are zero, the function is the slow path. -/
theorem polyLcmArbitrary_eq (h1 : Canonical ctx.mem arg1 a) (h2 : Canonical ctx.mem arg2 b)
    (hl1 : ctx.Live arg1) (hl2 : ctx.Live arg2) (tid : PolyWord) :
    polyLcmArbitrary ctx tid arg1 arg2 =
      if a = 0 ∧ b = 0 then raiseDiv ctx else lcmSlow ctx arg1 arg2 := by
  unfold polyLcmArbitrary
  rw [bothTagged_canonical h2 h1]
  by_cases hfit : FitsTagged b ∧ FitsTagged a
  · rw [if_pos hfit]
    dsimp only
    by_cases hzero : a = 0 ∧ b = 0
    · rw [if_pos hzero, if_pos hzero.symm]
    · rw [if_neg hzero, if_neg (fun h => hzero h.symm)]
      by_cases hone : a = 0 ∨ b = 0
      · rw [if_pos hone.symm, lcmSlow_canonical h1 h2 hl1 hl2, mul_div_gcd_zero hone,
          bigintToPolyWord_short ctx (by decide)]
      · rw [if_neg (fun h => hone h.symm)]
        cases hw : lcmFast b a with
        | none => rfl
        | some w =>
          obtain ⟨hr, rfl⟩ := lcmFast_eq hw
          rw [lcmSlow_canonical h1 h2 hl1 hl2, bigintToPolyWord_short ctx hr]
  · rw [if_neg hfit]
    have hzero : ¬(a = 0 ∧ b = 0) := by
      rintro ⟨rfl, rfl⟩
      exact hfit ⟨by decide, by decide⟩
    rw [if_neg hzero]

/-! ## Both functions -/

/-- What the functions do on operands with the values `a` and `b`. -/
structure GcdExact (s : MemorySpace) (ctx : RtsContext) (arg1 arg2 : PolyWord) (a b : Int) :
    Prop where
  gcd : ∀ tid, ReturnsInt s ctx (polyGcdArbitrary ctx tid arg1 arg2) (Int.gcd a b)
  lcm : ∀ tid, if a = 0 ∧ b = 0 then RaisesDiv s ctx (polyLcmArbitrary ctx tid arg1 arg2)
    else ReturnsInt s ctx (polyLcmArbitrary ctx tid arg1 arg2) (a * b.tdiv (Int.gcd a b))
  /-- Where the loop gives a result, the big-integer path gives the same. -/
  gcdPaths : ∀ w, gcdFast arg1 arg2 = some w → gcdSlow ctx arg1 arg2 = .ok (w, ctx)
  lcmPaths : ∀ w, lcmFast b a = some w → lcmSlow ctx arg1 arg2 = .ok (w, ctx)

theorem gcd_exact (hctx : ctx.Ready s) (h1 : Canonical ctx.mem arg1 a)
    (h2 : Canonical ctx.mem arg2 b) (hl1 : ctx.Live arg1) (hl2 : ctx.Live arg2) :
    GcdExact s ctx arg1 arg2 a b := by
  refine ⟨fun tid => ?_, fun tid => ?_, fun w hw => gcdFast_eq h1 h2 hl1 hl2 hw, fun w hw => ?_⟩
  · have hgcd : polyGcdArbitrary ctx tid arg1 arg2 = gcdSlow ctx arg1 arg2 := by
      unfold polyGcdArbitrary
      cases hw : gcdFast arg1 arg2 with
      | none => rfl
      | some w => exact (gcdFast_eq h1 h2 hl1 hl2 hw).symm
    rw [hgcd, gcdSlow_canonical h1 h2 hl1 hl2]
    exact returnsInt_bigint hctx _
  · rw [polyLcmArbitrary_eq h1 h2 hl1 hl2]
    split
    · exact raiseDiv_ready hctx
    · rw [lcmSlow_canonical h1 h2 hl1 hl2]
      exact returnsInt_bigint hctx _
  · obtain ⟨hr, rfl⟩ := lcmFast_eq hw
    rw [lcmSlow_canonical h1 h2 hl1 hl2, bigintToPolyWord_short ctx hr]

/-- `2 ^ 62` and the most negative tagged integer: the divisor leaves the tagged range, the multiple is
the second number. Of 12 and -18 the loop gives the divisor. -/
theorem gcd_exact_boxed :
    GcdExact boxedNursery boxedContext (.fromAddr 4104) (.tagged (-(2 ^ 62))) (2 ^ 62) (-(2 ^ 62)) ∧
      GcdExact boxedNursery boxedContext (.tagged 12) (.tagged (-18)) 12 (-18) ∧
      gcdFast (.tagged 12) (.tagged (-18)) = some (.tagged 6) :=
  ⟨gcd_exact boxedContext_ready boxedContext_canonical (.short (by decide)) boxedContext_live
      (RtsContext.live_tagged _),
    gcd_exact boxedContext_ready (.short (by decide)) (.short (by decide)) (RtsContext.live_tagged _)
      (RtsContext.live_tagged _),
    by decide +kernel⟩
