import PolymlRs.Jit.Execute

set_option autoImplicit false

/-! # The same words

Where the interpreter takes words off its stack and puts others there, the code emitted for the instruction
computes the same words from the same words, and leaves the same heap. -/

/-! ## Tagged words -/

namespace PolyWord

/-- The tag bit is free after the shift. -/
theorem shiftLeft_or_one (w : PolyWord) : w <<< 1 ||| 1#64 = w <<< 1 + 1#64 := by
  refine (BitVec.add_eq_or_of_and_eq_zero _ _ (BitVec.eq_of_getLsbD_eq (fun i hi => ?_))).symm
  by_cases h0 : i = 0
  · subst h0
    simp
  · simp [BitVec.getLsbD_one, h0]

theorem tagged_toInt (w : PolyWord) : tagged w.toInt = w <<< 1 ||| 1#64 := by
  rw [tagged, BitVec.ofInt_toInt]

theorem tagged_natCast (n : Nat) : tagged n = BitVec.ofNat 64 n <<< 1 ||| 1#64 := by
  rw [tagged, BitVec.ofInt_natCast]

theorem shiftLeft_one_eq (w : PolyWord) : w <<< 1 = w * 2#64 := by
  rw [BitVec.shiftLeft_eq_mul_twoPow]
  rfl

/-- A tagged integer is an odd number. -/
theorem tagged_eq (n : Int) : tagged n = BitVec.ofInt 64 (n * 2 + 1) := by
  rw [tagged, shiftLeft_or_one, shiftLeft_one_eq, BitVec.ofInt_add, BitVec.ofInt_mul]
  rfl

theorem untagBits_toInt (w : PolyWord) : w.untagBits.toInt = w.untag := rfl

/-- Both shifts have the same bits but for the highest one. -/
theorem untagBits_shiftLeft (w : PolyWord) : w.untagBits <<< 1 = (w >>> 1) <<< 1 := by
  refine BitVec.eq_of_getLsbD_eq (fun i hi => ?_)
  simp only [untagBits, BitVec.getLsbD_shiftLeft, BitVec.getLsbD_sshiftRight, BitVec.getLsbD_ushiftRight]
  by_cases h0 : i = 0
  · simp [h0]
  · have h1 : 1 + (i - 1) = i := by omega
    have h2 : i - 1 < 64 := by omega
    simp [h0, hi, h1, h2]

theorem untagBits_and_63 (w : PolyWord) : w.untagBits &&& 63#64 = (w >>> 1) &&& 63#64 := by
  refine BitVec.eq_of_getLsbD_eq (fun i hi => ?_)
  simp only [untagBits, BitVec.getLsbD_and, BitVec.getLsbD_sshiftRight, BitVec.getLsbD_ushiftRight]
  by_cases h6 : i < 6
  · have h1 : 1 + i < 64 := by omega
    have h2 : ¬ 64 ≤ i := by omega
    simp [h1, h2]
  · have h63 : (63#64).getLsbD i = false := by
      have hlt : (63#64).toNat < 2 ^ i :=
        Nat.lt_of_lt_of_le (by decide : 63 < 2 ^ 6) (Nat.pow_le_pow_right (by decide) (by omega))
      exact Nat.testBit_lt_two_pow hlt
    simp [h63]

theorem and_63_lt (w : PolyWord) : (w &&& 63#64).toNat < 64 := by
  have h := Nat.and_le_right (n := w.toNat) (m := 63)
  rw [BitVec.toNat_and]
  exact Nat.lt_succ_of_le h

theorem untag_range (w : PolyWord) : -2 ^ 62 ≤ w.untag ∧ w.untag < 2 ^ 62 := by
  have h1 := BitVec.le_toInt w
  have h2 := BitVec.toInt_lt (x := w)
  rw [untag, BitVec.toInt_sshiftRight, Int.shiftRight_eq_div_pow]
  omega

theorem untagBits_ne_intMin (w : PolyWord) : w.untagBits ≠ BitVec.intMin 64 := by
  intro h
  have hr := w.untag_range
  rw [← untagBits_toInt, h] at hr
  exact absurd hr.1 (by decide)

theorem untag_eq_zero_iff (w : PolyWord) : w.untag = 0 ↔ w.untagBits = 0#64 := by
  rw [← untagBits_toInt]
  exact ⟨fun h => BitVec.eq_of_toInt_eq h, fun h => by rw [h]; rfl⟩

end PolyWord

theorem Ir.tag_eq (n : Int) : Ir.tag n = PolyWord.tagged n := (PolyWord.tagged_eq n).symm

/-! ## Length words -/

theorem cellFlags_eq (lw : PolyWord) : PolyWord.tagged (flagsOf lw).toNat = (lw >>> 56) <<< 1 ||| 1#64 := by
  have hflags : BitVec.ofNat 64 (flagsOf lw).toNat = lw >>> 56 := by
    refine BitVec.eq_of_toNat_eq ?_
    have hlt := lw.isLt
    rw [flagsOf, flagsShift, BitVec.toNat_ofNat, BitVec.toNat_setWidth, BitVec.toNat_ushiftRight,
      Nat.shiftRight_eq_div_pow]
    omega
  rw [PolyWord.tagged_natCast, hflags]

theorem cellLength_eq (lw : PolyWord) :
    PolyWord.tagged (lengthOf lw) = (lw &&& 0x00ffffffffffffff#64) <<< 1 ||| 1#64 := by
  have hmask : lengthMask = 0x00ffffffffffffff#64 := by decide
  rw [PolyWord.tagged_natCast, lengthOf, BitVec.ofNat_toNat, BitVec.setWidth_eq, hmask]

/-! ## Operations on two words -/

/-- The operands on which the code of an instruction computes what the interpreter computes. -/
def BinaryOp.Alike (op : BinaryOp) (x y : PolyWord) : Prop :=
  match op with
  | .fixedAdd | .fixedSub | .fixedMult => x.isTagged = true ∧ y.isTagged = true
  | _ => True

section Binary

variable {o : Surroundings} {h : NativeState} {x y r : PolyWord}

theorem exec_compare (cc : IntCC) :
    (Ir.compare cc x y).exec (machine o) h = some (.goesOn (boolWord (cc.holds x y)) h) := by
  have hrun : (Ir.compare cc x y).exec (machine o) h =
      some (.goesOn ((if cc.holds x y then 1#64 else 0#64) <<< 1 + 1#64) h) := rfl
  rw [hrun]
  cases cc.holds x y <;> rfl

/-- A division whose divisor is not zero. -/
theorem exec_guardedDivide (op : IrBinary) {q : PolyWord} (hop : op.run (y >>> 1) (x >>> 1) = some q)
    (hx : ¬ x >>> 1 = 0#64) :
    (Ir.guardedDivide (fun a b => Ir.value (.binary op a b)) x y).exec (machine o) h =
      some (.goesOn (q <<< 1 ||| 1#64) h) := by
  have hzero : (machine o).ins (.icmp .equal (x >>> 1) 0#64) h = some (0#64, h) := by
    simp [machine, Ins.run, IntCC.holds, hx]
  have hdiv : (machine o).ins (.binary op (y >>> 1) (x >>> 1)) h = some (q, h) := by
    simp only [machine, Ins.run, hop, Option.map_some]
  have hselect (a b : PolyWord) : (machine o).ins (.select 0#64 a b) h = some (b, h) := rfl
  refine (Emit.exec_ins rfl).trans ?_
  refine (Emit.exec_ins rfl).trans ?_
  refine (Emit.exec_ins rfl).trans ?_
  refine (Emit.exec_ins hzero).trans ?_
  refine (Emit.exec_ins rfl).trans ?_
  refine (Emit.exec_ins (hselect _ _)).trans ?_
  refine (Emit.exec_ins hdiv).trans ?_
  exact Emit.exec_ins (hselect _ _)

theorem fixedResult_eq {t : Int} (h : fixedResult t = some r) : r = .tagged t := by
  unfold fixedResult at h
  split at h
  · exact (Option.some.inj h).symm
  · cases h

theorem tagged_add (a b : Int) : PolyWord.tagged a + .tagged b - 1#64 = .tagged (a + b) := by
  have hone : (1#64) = BitVec.ofInt 64 1 := rfl
  rw [BitVec.sub_eq_iff_eq_add, PolyWord.tagged_eq, PolyWord.tagged_eq, PolyWord.tagged_eq, hone,
    ← BitVec.ofInt_add, ← BitVec.ofInt_add]
  exact congrArg (BitVec.ofInt 64) (by omega)

theorem tagged_sub (a b : Int) : PolyWord.tagged a - .tagged b + 1#64 = .tagged (a - b) := by
  have hone : (1#64) = BitVec.ofInt 64 1 := rfl
  have hsub : PolyWord.tagged a - .tagged b = .ofInt 64 ((a - b) * 2) := by
    rw [BitVec.sub_eq_iff_eq_add, PolyWord.tagged_eq, PolyWord.tagged_eq, ← BitVec.ofInt_add]
    exact congrArg (BitVec.ofInt 64) (by omega)
  rw [hsub, PolyWord.tagged_eq, hone, ← BitVec.ofInt_add]

/-- `(w - 1) >> 1` of a tagged integer. -/
theorem sshiftRight_of_tagged {w : PolyWord} (hw : w.isTagged = true) :
    (w - 1#64).sshiftRight 1 = .ofInt 64 w.untag := by
  obtain ⟨hlo, hhi, heq⟩ := PolyWord.tagged_untag hw
  generalize w.untag = n at hlo hhi heq ⊢
  unfold PolyWord.minTagged at hlo
  unfold PolyWord.maxTagged at hhi
  have hsub : w - 1#64 = .ofInt 64 (n * 2) := by
    rw [← heq, PolyWord.tagged_eq, BitVec.ofInt_add]
    exact BitVec.add_sub_cancel _ _
  have hint : (BitVec.ofInt 64 (n * 2)).toInt = n * 2 := by
    rw [BitVec.toInt_ofInt]
    exact Int.bmod_eq_of_le (by omega) (by omega)
  have hshift : ((BitVec.ofInt 64 (n * 2)).sshiftRight 1).toInt = n := by
    rw [BitVec.toInt_sshiftRight, hint, Int.shiftRight_eq_div_pow]
    omega
  rw [hsub]
  conv => rhs; rw [← hshift]
  rw [BitVec.ofInt_toInt]

theorem exec_binary {op : BinaryOp} (hr : binOp op x y = some r) (ha : op.Alike x y) :
    (Ir.binary op x y).exec (machine o) h = some (.goesOn r h) := by
  have hret {v : PolyWord} (hv : v = r) :
      (some (.goesOn v h) : Option (Emit.Outcome PolyWord NativeState PolyWord)) = some (.goesOn r h) := by
    rw [hv]
  cases op with
  | fixedAdd =>
    refine hret ?_
    obtain ⟨-, -, hx⟩ := PolyWord.tagged_untag ha.1
    obtain ⟨-, -, hy⟩ := PolyWord.tagged_untag ha.2
    rw [fixedResult_eq hr, ← tagged_add, hx, hy]
  | fixedSub =>
    refine hret ?_
    obtain ⟨-, -, hx⟩ := PolyWord.tagged_untag ha.1
    obtain ⟨-, -, hy⟩ := PolyWord.tagged_untag ha.2
    rw [fixedResult_eq hr, ← tagged_sub, hx, hy]
  | fixedMult =>
    refine hret (v := (((x - 1#64).sshiftRight 1) * ((y - 1#64).sshiftRight 1)) <<< 1 + 1#64) ?_
    rw [fixedResult_eq hr, sshiftRight_of_tagged ha.1, sshiftRight_of_tagged ha.2, ← BitVec.ofInt_mul,
      ← PolyWord.shiftLeft_or_one]
    rfl
  | fixedQuot =>
    unfold binOp at hr
    dsimp only at hr
    split at hr
    · cases hr
    rename_i hx
    obtain rfl := Option.some.inj hr
    have hx0 : ¬(x.untagBits = 0#64 ∨ y.untagBits = BitVec.intMin 64 ∧ x.untagBits = -1#64) := by
      rintro (hx' | ⟨hy', -⟩)
      · exact hx (x.untag_eq_zero_iff.2 hx')
      · exact y.untagBits_ne_intMin hy'
    have hdiv : (machine o).ins (.binary .sdiv y.untagBits x.untagBits) h =
        some (y.untagBits.sdiv x.untagBits, h) := by
      simp only [machine, Ins.run, IrBinary.run, if_neg hx0, Option.map_some]
    have hint : (y.untagBits.sdiv x.untagBits).toInt = y.untag.tdiv x.untag :=
      BitVec.toInt_sdiv_of_ne_or_ne _ _ (Or.inl y.untagBits_ne_intMin)
    refine (Emit.exec_ins rfl).trans ?_
    refine (Emit.exec_ins rfl).trans ?_
    refine (Emit.exec_ins hdiv).trans (hret ?_)
    rw [← hint, PolyWord.tagged_toInt, PolyWord.shiftLeft_or_one]
  | fixedRem =>
    unfold binOp at hr
    dsimp only at hr
    split at hr
    · cases hr
    rename_i hx
    obtain rfl := Option.some.inj hr
    have hx0 : ¬ x.untagBits = 0#64 := fun hx' => hx (x.untag_eq_zero_iff.2 hx')
    have hrem : (machine o).ins (.binary .srem y.untagBits x.untagBits) h =
        some (y.untagBits.srem x.untagBits, h) := by
      simp only [machine, Ins.run, IrBinary.run, if_neg hx0, Option.map_some]
    have hint : (y.untagBits.srem x.untagBits).toInt = y.untag.tmod x.untag := BitVec.toInt_srem _ _
    refine (Emit.exec_ins rfl).trans ?_
    refine (Emit.exec_ins rfl).trans ?_
    refine (Emit.exec_ins hrem).trans (hret ?_)
    rw [← hint, PolyWord.tagged_toInt, PolyWord.shiftLeft_or_one]
  | wordAdd =>
    obtain rfl := Option.some.inj hr
    rfl
  | wordSub =>
    obtain rfl := Option.some.inj hr
    rfl
  | wordMult =>
    obtain rfl := Option.some.inj hr
    refine hret (v := (x.untagBits * y.untagBits) <<< 1 ||| 1#64) ?_
    have heq : (x.untagBits * y.untagBits) <<< 1 = ((x >>> 1) * (y >>> 1)) <<< 1 := by
      have hx := x.untagBits_shiftLeft
      have hy := y.untagBits_shiftLeft
      rw [PolyWord.shiftLeft_one_eq, PolyWord.shiftLeft_one_eq] at hx hy
      calc (x.untagBits * y.untagBits) <<< 1
          = x.untagBits * (y.untagBits * 2#64) := by rw [PolyWord.shiftLeft_one_eq, BitVec.mul_assoc]
        _ = (y >>> 1) * (x.untagBits * 2#64) := by
          rw [hy, ← BitVec.mul_assoc, BitVec.mul_comm x.untagBits, BitVec.mul_assoc]
        _ = ((x >>> 1) * (y >>> 1)) <<< 1 := by
          rw [hx, ← BitVec.mul_assoc, BitVec.mul_comm (y >>> 1), PolyWord.shiftLeft_one_eq]
    rw [heq]
  | wordDiv =>
    unfold binOp at hr
    dsimp only at hr
    split at hr
    · cases hr
    rename_i hx
    obtain rfl := Option.some.inj hr
    exact exec_guardedDivide .udiv (if_neg hx) hx
  | wordMod =>
    unfold binOp at hr
    dsimp only at hr
    split at hr
    · cases hr
    rename_i hx
    obtain rfl := Option.some.inj hr
    exact exec_guardedDivide .urem (if_neg hx) hx
  | wordAnd =>
    obtain rfl := Option.some.inj hr
    rfl
  | wordOr =>
    obtain rfl := Option.some.inj hr
    rfl
  | wordXor =>
    obtain rfl := Option.some.inj hr
    rfl
  | wordShiftLeft =>
    obtain rfl := Option.some.inj hr
    refine hret (v := ((y >>> 1) <<< ((x.untagBits &&& 63#64).toNat % 64)) <<< 1 ||| 1#64) ?_
    rw [x.untagBits_and_63, Nat.mod_eq_of_lt (PolyWord.and_63_lt _)]
  | wordShiftRLog =>
    obtain rfl := Option.some.inj hr
    refine hret (v := ((y >>> 1) >>> ((x.untagBits &&& 63#64).toNat % 64)) <<< 1 ||| 1#64) ?_
    rw [x.untagBits_and_63, Nat.mod_eq_of_lt (PolyWord.and_63_lt _)]
  | equalWord | lessSigned | lessUnsigned | lessEqSigned | lessEqUnsigned | greaterSigned | greaterUnsigned
  | greaterEqSigned | greaterEqUnsigned =>
    obtain rfl := Option.some.inj hr
    exact exec_compare _

end Binary

/-! ## Loads and stores -/

section Fragments

variable {o : Surroundings} {s : NativeState} {r : PolyWord}

theorem add_ofInt_zero (a : PolyWord) : a + .ofInt 64 0 = a := by
  rw [BitVec.ofInt_ofNat]
  exact BitVec.add_zero a

/-- The address of a field. -/
theorem add_ofInt_mul (base : PolyWord) (k : Nat) :
    base + .ofInt 64 ((k : Int) * 8) = base.wordAt (.ofNat 64 k) := by
  rw [PolyWord.wordAt, BitVec.ofInt_mul, BitVec.ofInt_natCast]
  rfl

theorem add_ofInt_neg_eight (a : PolyWord) : a + .ofInt 64 (-8) = a - 8#64 := by
  rw [BitVec.sub_eq_add_neg]
  rfl

theorem Surroundings.Apart.slotAt {a : PolyWord} (ha : o.Apart a) (live : Nat) : o.slotAt live a = none := by
  have hout := ha.2
  unfold Surroundings.slotAt at hout ⊢
  dsimp only at hout ⊢
  split at hout
  · cases hout
  · exact if_neg (by omega)

theorem read_apart {a : PolyWord} (ha : o.Apart a) : s.read o a = s.heap.read a := by
  rw [NativeState.read, ha.1, ha.slotAt]

theorem write_apart {a w : PolyWord} (ha : o.Apart a) :
    s.write o a w = { s with heap := s.heap.write a w } := by
  rw [NativeState.write, ha.1, ha.slotAt]

theorem load_zero (a : PolyWord) (ha : o.Apart a) :
    (machine o).ins (.load a 0) s = some (s.heap.read a, s) := by
  simp only [machine, Ins.run, add_ofInt_zero, read_apart ha]

theorem load_at (base : PolyWord) (k : Nat) :
    (machine o).ins (.load base ((k : Int) * 8)) s = some (s.read o (base.wordAt (.ofNat 64 k)), s) := by
  simp only [machine, Ins.run, add_ofInt_mul]

theorem load_field (base : PolyWord) (k : Nat) (ha : o.Apart (base.wordAt (.ofNat 64 k))) :
    (machine o).ins (.load base ((k : Int) * 8)) s =
      some (s.heap.read (base.wordAt (.ofNat 64 k)), s) := by
  rw [load_at, read_apart ha]

theorem load_lengthWord (p : PolyWord) (ha : o.Apart (p - 8#64)) :
    (machine o).ins (.load p (-8)) s = some (s.heap.read (p - 8#64), s) := by
  simp only [machine, Ins.run, add_ofInt_neg_eight, read_apart ha]

theorem store_at (w base : PolyWord) (k : Nat) :
    (machine o).eff (.store w base ((k : Int) * 8)) s = some (s.write o (base.wordAt (.ofNat 64 k)) w) := by
  simp only [machine, Eff.run, add_ofInt_mul]

theorem store_field (w base : PolyWord) (k : Nat) (ha : o.Apart (base.wordAt (.ofNat 64 k))) :
    (machine o).eff (.store w base ((k : Int) * 8)) s =
      some { s with heap := s.heap.write (base.wordAt (.ofNat 64 k)) w } := by
  rw [store_at, write_apart ha]

theorem store_zero (w a : PolyWord) (ha : o.Apart a) :
    (machine o).eff (.store w a 0) s = some { s with heap := s.heap.write a w } := by
  simp only [machine, Eff.run, add_ofInt_zero, write_apart ha]

theorem exec_loadIndexed {kind : LoadKind} {index base : PolyWord}
    (ha : kind ≠ .mlByte → o.Apart (base.wordAt index.untagBits))
    (hr : loadOp s.heap kind index base = some r) :
    (Ir.loadIndexed kind index base).exec (machine o) s = some (.goesOn r s) := by
  have hret {v : PolyWord} (hv : v = r) :
      (some (.goesOn v s) : Option (Emit.Outcome PolyWord NativeState PolyWord)) = some (.goesOn r s) := by
    rw [hv]
  cases kind with
  | untagged =>
    have hload := load_zero (s := s) _ (ha (by decide))
    unfold loadOp at hr
    dsimp only at hr
    split at hr
    · obtain rfl := Option.some.inj hr
      refine (Emit.exec_ins rfl).trans ?_
      refine (Emit.exec_ins rfl).trans ?_
      refine (Emit.exec_ins rfl).trans ?_
      refine (Emit.exec_ins rfl).trans ?_
      refine (Emit.exec_ins hload).trans ?_
      refine hret (v := s.heap.read (base.wordAt index.untagBits) <<< 1 + 1#64) ?_
      rw [PolyWord.tagged_toInt, PolyWord.shiftLeft_or_one]
    · cases hr
  | mlByte =>
    obtain rfl := Option.some.inj hr
    rw [PolyWord.tagged_toInt]
    refine (Emit.exec_ins rfl).trans ?_
    refine (Emit.exec_ins rfl).trans ?_
    exact Emit.exec_ins rfl
  | mlWord =>
    obtain rfl := Option.some.inj hr
    refine (Emit.exec_ins rfl).trans ?_
    refine (Emit.exec_ins rfl).trans ?_
    refine (Emit.exec_ins rfl).trans ?_
    refine (Emit.exec_ins rfl).trans ?_
    exact Emit.exec_ins (load_zero _ (ha (by decide)))

theorem exec_storeIndexed (kind : StoreKind) (toStore index base : PolyWord)
    (ha : kind ≠ .mlByte → o.Apart (base.wordAt index.untagBits)) :
    (Ir.storeIndexed kind toStore index base).exec (machine o) s =
      some (.goesOn () { s with heap := storeOp s.heap kind toStore index base }) := by
  cases kind with
  | untagged =>
    refine (Emit.exec_ins rfl).trans ?_
    refine (Emit.exec_ins rfl).trans ?_
    refine (Emit.exec_ins rfl).trans ?_
    refine (Emit.exec_ins rfl).trans ?_
    refine (Emit.exec_ins rfl).trans ?_
    exact Emit.exec_eff (store_zero _ _ (ha (by decide)))
  | mlByte => rfl
  | mlWord =>
    refine (Emit.exec_ins rfl).trans ?_
    refine (Emit.exec_ins rfl).trans ?_
    refine (Emit.exec_ins rfl).trans ?_
    refine (Emit.exec_ins rfl).trans ?_
    exact Emit.exec_eff (store_zero _ _ (ha (by decide)))

theorem clamp_eq {w : PolyWord} (hw : 0 ≤ w.toInt) : clamp w = w := by
  have hslt : w.slt 0#64 = false := by
    rw [BitVec.slt_eq_decide]
    simpa using hw
  rw [clamp, hslt]
  rfl

theorem clamp_ofNat {n : Nat} (hn : n < 256) : (clamp (.ofNat 64 n)).toNat = n := by
  have hnat : (BitVec.ofNat 64 n).toNat = n := Nat.mod_eq_of_lt (by omega)
  have hint : (BitVec.ofNat 64 n).toInt = n := by
    rw [BitVec.toInt_eq_toNat_of_lt (by omega), hnat]
  rw [clamp_eq (by omega), hnat]

theorem exec_blockCall {op : BlockKind} {p1 off1 p2 off2 length : PolyWord} (h1 : 0 ≤ off1.untag)
    (h2 : 0 ≤ off2.untag) (hlen : 0 ≤ length.untag) :
    (Ir.blockCall op p1 off1 p2 off2 length).exec (machine o) s =
      some (.goesOn (blockOp s.heap op p1 off1.untagBits p2 off2.untagBits length.untagBits).1
        { s with heap := (blockOp s.heap op p1 off1.untagBits p2 off2.untagBits length.untagBits).2 }) := by
  have hcall : s.heap.blockTrampoline op p1 off1.untagBits p2 off2.untagBits length.untagBits =
      blockOp s.heap op p1 off1.untagBits p2 off2.untagBits length.untagBits := by
    have hc1 : clamp off1.untagBits = off1.untagBits := clamp_eq h1
    have hc2 : clamp off2.untagBits = off2.untagBits := clamp_eq h2
    have hclen : clamp length.untagBits = length.untagBits := clamp_eq hlen
    simp only [Heap.blockTrampoline, hc1, hc2, hclen]
    cases op with
    | moveWord | moveByte => rfl
    | equalByte =>
      dsimp only [blockOp, boolWord]
      split <;> rfl
    | compareByte =>
      dsimp only [blockOp]
      cases bytesCmp _ _ <;> rfl
  refine (Emit.exec_ins rfl).trans ?_
  refine (Emit.exec_ins rfl).trans ?_
  refine (Emit.exec_ins rfl).trans ?_
  refine (Emit.exec_ins (congrArg (fun r => some (s.onHeap r)) hcall)).trans ?_
  cases op <;> rfl

/-- The mutable bit is taken out. -/
theorem exec_clearMutableBit (ptr : PolyWord) (ha : o.Apart (ptr - 8#64)) :
    (Ir.clearMutableBit ptr).exec (machine o) s = some (.goesOn () { s with
      heap := s.heap.write (ptr - 8#64)
        (s.heap.read (ptr - 8#64) &&& ~~~(fMutableBit.setWidth 64 <<< flagsShift)) }) := by
  have haddr : (machine o).ins (.iaddImm ptr (-8)) s = some (ptr - 8#64, s) :=
    congrArg (fun a => some (a, s)) (add_ofInt_neg_eight ptr)
  refine (Emit.exec_ins haddr).trans ?_
  refine (Emit.exec_ins (load_zero _ ha)).trans ?_
  refine (Emit.exec_ins rfl).trans ?_
  refine (Emit.exec_ins rfl).trans ?_
  exact Emit.exec_eff (store_zero _ _ ha)

theorem and_one (w : PolyWord) : w &&& 1#64 = if w.isTagged then 1#64 else 0#64 := by
  have hnat : (w &&& 1#64).toNat = w.toNat % 2 := by
    rw [BitVec.toNat_and]
    exact Nat.and_one_is_mod _
  refine BitVec.eq_of_toNat_eq ?_
  rw [hnat, PolyWord.isTagged_eq, PolyWord.addr]
  by_cases hodd : w.toNat % 2 = 1
  · rw [hodd]
    rfl
  · have heven : w.toNat % 2 = 0 := by omega
    rw [heven]
    rfl

theorem exec_lowBit (w : PolyWord) :
    (Ir.lowBit w).exec (machine o) s = some (.goesOn (boolWord w.isTagged) s) := by
  have hrun : (Ir.lowBit w).exec (machine o) s = some (.goesOn ((w &&& 1#64) <<< 1 + 1#64) s) := rfl
  rw [hrun, and_one]
  cases w.isTagged <;> rfl

end Fragments

/-! ## The words just allocated -/

namespace Heap

variable {h h' : Heap} {a p : PolyWord} {n : Nat} {flags : BitVec 8}

/-- The word at `a` lies outside the part of the allocation space that is still free. -/
def Allocated (h : Heap) (a : PolyWord) : Prop :=
  ∀ space, h.space = some space → space.limit ≤ 2 ^ 64 ∧
    (a.toNat + 8 ≤ space.start + 8 * space.used ∨ space.limit ≤ a.toNat)

theorem length_toNeBytes (w : PolyWord) : w.toNeBytes.length = 8 := by
  rw [PolyWord.toNeBytes, List.length_map, List.length_range]

theorem read_write_outside {w : PolyWord} (hout : a.toNat + 8 ≤ p.toNat ∨ p.toNat + 8 ≤ a.toNat) :
    (h.write p w).read a = h.read a := by
  refine PolyWord.ofBytes_congr (fun i hi => ?_)
  refine Mem.byteAt_writeBytes_outside h.mem ?_
  rw [length_toNeBytes]
  omega

theorem read_fillWords_outside {ws : List PolyWord} (hp : p.toNat + 8 * ws.length ≤ 2 ^ 64)
    (hout : a.toNat + 8 ≤ p.toNat ∨ p.toNat + 8 * ws.length ≤ a.toNat) :
    (h.fillWords p ws).read a = h.read a := by
  induction ws generalizing h p with
  | nil => rfl
  | cons w ws ih =>
    rw [List.length_cons] at hp hout
    rw [fillWords]
    cases ws with
    | nil => exact read_write_outside (by simpa using hout)
    | cons w' ws =>
      rw [List.length_cons] at hp hout
      have hnext : (p + 8#64).toNat = p.toNat + 8 := by
        rw [BitVec.toNat_add]
        exact Nat.mod_eq_of_lt (by simp; omega)
      rw [ih (by rw [hnext, List.length_cons]; omega) (by rw [hnext, List.length_cons]; omega)]
      exact read_write_outside (by omega)

/-- Allocating an object and writing words behind its first one leaves what was allocated before. -/
theorem Allocated.read_eq (ha : h.Allocated a) (halloc : h.allocate (n + 1) flags = some (p, h'))
    {ws : List PolyWord} (hws : ws.length ≤ n) : (h'.fillWords (p + 8#64) ws).read a = h.read a := by
  unfold allocate at halloc
  cases hspace : h.space with
  | none => simp [hspace] at halloc
  | some space =>
    obtain ⟨hlimit, hout⟩ := ha space hspace
    rw [hspace, Option.bind_some] at halloc
    cases htry : space.tryAlloc (n + 1) with
    | none => simp [htry] at halloc
    | some r =>
      rw [htry] at halloc
      obtain ⟨hp, hh⟩ := Prod.mk.inj (Option.some.inj halloc)
      unfold MemorySpace.tryAlloc at htry
      dsimp only at htry
      split at htry
      · cases htry
      · rename_i hroom
        obtain rfl := Option.some.inj htry
        unfold MemorySpace.limit at hlimit hout
        rw [wordBytes] at hlimit hout
        have hbody : p.toNat = space.start + 8 * (space.used + 1) := by
          rw [← hp]
          exact PolyWord.addr_fromAddr (by dsimp only [wordBytes]; omega)
        have hlength : (p - 8#64).toNat = space.start + 8 * space.used := by
          rw [BitVec.toNat_sub_of_le (by rw [BitVec.le_def, hbody]; simp; omega), hbody]
          simp
          omega
        have hfill : (h'.fillWords (p + 8#64) ws).read a = h'.read a := by
          cases ws with
          | nil => rfl
          | cons w ws =>
            have hnext : (p + 8#64).toNat = p.toNat + 8 := by
              rw [List.length_cons] at hws
              rw [BitVec.toNat_add]
              exact Nat.mod_eq_of_lt (by simp; omega)
            exact read_fillWords_outside (by omega) (by omega)
        rw [hfill, ← hh, hp]
        exact read_write_outside (by omega)

end Heap

/-- A closure whose code is copied. -/
def Heap.Source (h : Heap) (src : PolyWord) : Prop := src.isDataPtr = true ∧ h.Allocated src

/-- A closure with the code of another one. -/
theorem exec_closureAlloc {o : Surroundings} {f : Trampoline PolyWord} {flags : BitVec 8} {src p : PolyWord}
    {words : List PolyWord} {s : NativeState} {h' : Heap}
    (hf : f.run o s = some (s.onHeap (s.heap.orTagged0 (s.heap.closureAlloc flags src words))))
    (hsrc : s.heap.Source src) (halloc : s.heap.allocate (words.length + 1) flags = some (p, h')) :
    (machine o).ins (.call f) s =
      some (p, { s with heap := h'.fillWords p (s.heap.read src :: words) }) := by
  have hobj : s.heap.closureAlloc flags src words = some (p, h'.fillWords p (s.heap.read src :: words)) := by
    rw [Heap.closureAlloc, hsrc.1, if_pos rfl, Heap.allocObject, List.length_cons, halloc]
    rfl
  refine hf.trans ?_
  rw [hobj]
  rfl
