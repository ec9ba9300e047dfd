import PolymlRs.Interp.Disasm

set_option autoImplicit false

/-! # Instruction lengths in the translator

The translator steps over instructions by a table of its own, and the filter that chooses what to install
by the disassembler's. Both are held against what the interpreter takes. -/

/-! ## The translator's table -/

inductive TranslateError
  | truncated (pc : Nat)
  | unsupported (op : UInt8) (pc : Nat)
  | underflow (pc : Nat)
  | fellOffEnd
deriving DecidableEq, Repr

/-- The arms of `opcode_total_len` by their length. -/
def totalLenArms : List (Nat × List UInt8) :=
  [(1,
     [instrCallFastRts0, instrCallFastRts1, instrCallFastRts2, instrCallFastRts3, instrCallFastRts4,
      instrCallFastRts5, instrCallClosure, instrTuple2, instrTuple3, instrTuple4, instrConst0,
      instrConst1, instrConst2, instrConst3, instrConst4, instrConst10, instrReturn1, instrFixedAdd,
      instrFixedSub, instrFixedMult, instrFixedQuot, instrFixedRem, instrWordAdd, instrWordSub,
      instrWordMult, instrWordAnd, instrWordOr, instrWordXor, instrWordShiftLeft, instrWordShiftRLog,
      instrEqualWord, instrLessSigned, instrLessUnsigned, instrLessEqSigned, instrLessEqUnsigned,
      instrGreaterSigned, instrGreaterUnsigned, instrGreaterEqSigned, instrGreaterEqUnsigned,
      instrLocal0, instrLocal1, instrLocal2, instrLocal3, instrLocal4, instrLocal5, instrLocal6,
      instrLocal7, instrLocal8, instrLocal9, instrLocal10, instrLocal11, instrLocal12, instrLocal13,
      instrLocal14, instrLocal15, instrWordDiv, instrWordMod, instrIndirect0, instrIndirect1,
      instrIndirect2, instrIndirect3, instrIndirect4, instrIndirect5, instrIndirect0Local0, instrNoOp,
      instrReset1, instrReset2, instrResetR1, instrResetR2, instrResetR3, instrReturn2, instrReturn3,
      instrAllocByteMem, instrAllocWordMemory, instrStoreUntagged, instrRaiseEx, instrDeleteHandler,
      instrAllocRef, instrCellLength, instrLoadMlByte, instrLoadMlWord, instrNotBoolean, instrIsTagged,
      instrLoadUntagged, instrStoreMlWord, instrStoreMlByte, instrBlockMoveWord, instrBlockMoveByte,
      instrBlockEqualByte, instrBlockCompareByte, instrPushHandler, instrLock, instrClearMutable,
      instrCellFlags, instrGetThreadId, instrLdexc]),
   (2,
     [instrConstIntB, instrJump8, instrJump8False, instrJump8True, instrJumpBack8, instrLocalB,
      instrIndirectLocalB0, instrIndirectLocalB1, instrIndirectClosureB0, instrIndirectClosureB1,
      instrIndirectClosureB2, instrConstAddr8_0, instrConstAddr8_1, instrCallConstAddr8_0,
      instrCallConstAddr8_1, instrCallLocalB, instrTupleB, instrIsTaggedLocalB, instrReturnB,
      instrClosureB, instrSetHandler8, instrResetB, instrResetRB, instrSetStackValB, instrIndirectB,
      instrStackContainerB, instrMoveToContainerB, instrIndirectContainerB, instrAllocMutClosureB,
      instrMoveToMutClosureB]),
   (3,
     [instrIndirectLocalBb, instrIndirectClosureBb, instrJumpTaggedLocal, instrConstAddr8_8,
      instrCallConstAddr8_8, instrReturnW, instrConstIntW, instrTailBB, instrSetHandler16, instrJump16,
      instrJumpBack16, instrJump16False, instrJump16True]),
   (4,
     [instrJumpNeqLocal, instrJumpNeqLocalInd, instrConstAddr16_8, instrCallConstAddr16_8])]

def opcodeTotalLen (bc : List UInt8) (pc : Nat) : Except TranslateError Nat :=
  match bc[pc]? with
  | none => .error (.truncated pc)
  | some op =>
    if op = instrCase16 then
      if pc + 2 ≥ bc.length then .error (.truncated pc) else .ok (1 + 2 + readU16Le bc (pc + 1) * 2)
    else
      match totalLenArms.find? (fun arm => decide (op ∈ arm.2)) with
      | some (n, _) => .ok n
      | none => .error (.unsupported op pc)

/-! ## The filter's scans -/

def isCallConstAddr (b : UInt8) : Bool :=
  b == instrCallConstAddr8_0 || b == instrCallConstAddr8_1 || b == instrCallConstAddr8_8 ||
    b == instrCallConstAddr16_8

def isConstAddr (b : UInt8) : Bool :=
  b == instrConstAddr8_0 || b == instrConstAddr8_1 || b == instrConstAddr8_8 || b == instrConstAddr16_8

def isCallFastRts (b : UInt8) : Bool := instrCallFastRts0 ≤ b && b ≤ instrCallFastRts5

structure BlockerScan where
  callLocalB : Bool := false
  callConstAddr : Bool := false
  constAddr : Bool := false
  callFastRts : Bool := false

/-- Record the blocker that stands at an instruction boundary. -/
def BlockerScan.record (scan : BlockerScan) (op : UInt8) : BlockerScan where
  callLocalB := scan.callLocalB || op == instrCallLocalB
  callConstAddr := scan.callConstAddr || isCallConstAddr op
  constAddr := scan.constAddr || isConstAddr op
  callFastRts := scan.callFastRts || isCallFastRts op

/-- The instruction that a scan stands at, when the scan can go on from it. -/
def trusted (bc : List UInt8) (pc : Nat) : Option Disasm.DecodedOp :=
  let d := Disasm.decode bc pc
  if bc[pc]? = some instrEscape then none
  else if d.totalLen = 0 then none
  else if d.op ≠ instrCase16 ∧ d.mnemonic = "?" then none
  else some d

def scanBlockersBoundaryAware (bc : List UInt8) : Option BlockerScan :=
  Stride.walk bc.length (fun pc scan => (trusted bc pc).map (fun d => (d.totalLen, scan.record d.op))) 0 {}

/-- A return stands at `pc`, or the idiom that moves the result into place and returns. -/
def tailAt (bc : List UInt8) (pc : Nat) : Bool :=
  bc[pc]? == some instrReturn1 || bc[pc]? == some instrReturn2 || bc[pc]? == some instrReturn3 ||
    bc[pc]? == some instrReturnB || bc[pc]? == some instrReturnW ||
    (bc[pc]? == some instrLocal0 && bc[pc + 1]? == some instrResetR1 && bc[pc + 2]? == some instrReturn1)

def ccaAllTailEquivalent (bc : List UInt8) : Option Bool :=
  Stride.walk bc.length (fun pc allTail => (trusted bc pc).map (fun d =>
    (d.totalLen, allTail && (!isCallConstAddr d.op || tailAt bc (pc + d.totalLen))))) 0 true

def ccaInstallSafe (bc : List UInt8) : Bool :=
  !bc.any isCallConstAddr || ccaAllTailEquivalent bc == some true

/-! ## The lengths agree -/

theorem fetches_totalLenArms : ∀ arm ∈ totalLenArms, ∀ op ∈ arm.2,
    op ≠ instrEscape ∧ (stepOneArms.fetches op).map (1 + Fetch.widths ·) = some arm.1 := by
  decide +kernel

/-- Where the translator's table has a length, the interpreter takes as much. -/
theorem consumed_of_opcodeTotalLen {bc : List UInt8} {pc n : Nat} (h : opcodeTotalLen bc pc = .ok n) :
    consumed bc pc = some n := by
  unfold opcodeTotalLen at h
  cases hop : bc[pc]? with
  | none => simp [hop] at h
  | some op =>
    simp only [hop] at h
    simp only [consumed, hop]
    by_cases hcase : op = instrCase16
    · rw [if_pos hcase] at h ⊢
      split at h
      · exact absurd h (by simp)
      · obtain rfl := Except.ok.inj h
        rfl
    · rw [if_neg hcase] at h ⊢
      split at h
      next ops hfind =>
        have harm := List.mem_of_find?_eq_some hfind
        have hmem : op ∈ ops := by simpa using List.find?_some hfind
        obtain rfl := Except.ok.inj h
        obtain ⟨hesc, hlen⟩ := fetches_totalLenArms _ harm op hmem
        rw [if_neg hesc]
        exact hlen
      · exact absurd h (by simp)

namespace Body

variable (b : Body)

/-- The disassembler reads an instruction before `pc` with a byte too many. -/
def OverreadBefore (pc : Nat) : Prop :=
  ∃ q op, Boundary b.bytes q ∧ q < pc ∧ b.bytes[q]? = some op ∧ op ∈ Disasm.overread

variable {b}

theorem trusted_spec {bc : List UInt8} {pc : Nat} {op : UInt8} {d : Disasm.DecodedOp}
    (hop : bc[pc]? = some op) (h : trusted bc pc = some d) : op ≠ instrEscape ∧ d = Disasm.decode bc pc := by
  simp only [trusted, Option.ite_none_left_eq_some, Option.some.injEq] at h
  obtain ⟨hesc, -, -, rfl⟩ := h
  exact ⟨fun heq => hesc (by rw [hop, heq]), rfl⟩

theorem trusted_totalLen {pc : Nat} {op : UInt8} {d : Disasm.DecodedOp} (hpc : Boundary b.bytes pc)
    (hop : b.bytes[pc]? = some op) (hover : op ∉ Disasm.overread) (h : trusted b.bytes pc = some d) :
    consumed b.bytes pc = some d.totalLen := by
  have hlt : pc < b.bytes.length := (List.getElem?_eq_some_iff.1 hop).1
  obtain ⟨k, hk, hfit⟩ := b.whole pc hpc hlt
  obtain ⟨hesc, rfl⟩ := trusted_spec hop h
  rw [hk, Disasm.decode_totalLen hop hk hfit, if_neg hesc, if_neg hover, Nat.add_zero]

/-- What a scan notes at a boundary stays noted, when the scan is on the boundaries as far as there. -/
theorem scan_notes {σ : Type} {P : σ → Prop} {note : Nat → Disasm.DecodedOp → σ → σ}
    (keeps : ∀ p d s, P s → P (note p d s)) {pc : Nat} {op : UInt8} (hpc : Boundary b.bytes pc)
    (hop : b.bytes[pc]? = some op) (hover : ¬ b.OverreadBefore pc)
    (notes : op ≠ instrEscape → ∀ s, P (note pc (Disasm.decode b.bytes pc) s)) {s t : σ}
    (h : Stride.walk b.bytes.length
      (fun p s => (trusted b.bytes p).map (fun d => (d.totalLen, note p d s))) 0 s = some t) : P t := by
  have hlt : pc < b.bytes.length := (List.getElem?_eq_some_iff.1 hop).1
  refine Stride.walk_sets ?_ ?_ hlt hpc ?_ h
  · intro p s l s' hv hs
    obtain ⟨d, -, hd⟩ := Option.map_eq_some_iff.1 hv
    obtain ⟨-, rfl⟩ := Prod.mk.inj hd
    exact keeps p d s hs
  · intro s l s' hv
    obtain ⟨d, htrust, hd⟩ := Option.map_eq_some_iff.1 hv
    obtain ⟨-, rfl⟩ := Prod.mk.inj hd
    obtain ⟨hesc, rfl⟩ := trusted_spec hop htrust
    exact notes hesc s
  · intro q hq hqpc s l s' hv
    obtain ⟨d, htrust, hd⟩ := Option.map_eq_some_iff.1 hv
    obtain ⟨rfl, -⟩ := Prod.mk.inj hd
    have hqop : b.bytes[q]? = some b.bytes[q] := List.getElem?_eq_getElem (Nat.lt_trans hqpc hlt)
    have hnot : b.bytes[q] ∉ Disasm.overread := fun hmem => hover ⟨q, _, hq, hqpc, hqop, hmem⟩
    rw [trusted_totalLen hq hqop hnot htrust]
    rfl

/-- The scan has the flag of the blocker `op`, when it is one. -/
structure Flags (scan : BlockerScan) (op : UInt8) : Prop where
  callLocalB : op = instrCallLocalB → scan.callLocalB = true
  callConstAddr : isCallConstAddr op = true → scan.callConstAddr = true
  constAddr : isConstAddr op = true → scan.constAddr = true
  callFastRts : isCallFastRts op = true → scan.callFastRts = true

theorem Flags.record (scan : BlockerScan) (op : UInt8) : Flags (scan.record op) op := by
  constructor <;> intro h <;> simp [BlockerScan.record, h]

theorem Flags.record_of {scan : BlockerScan} {op : UInt8} (h : Flags scan op) (op' : UInt8) :
    Flags (scan.record op') op := by
  constructor <;> intro hop
  · simp [BlockerScan.record, h.callLocalB hop]
  · simp [BlockerScan.record, h.callConstAddr hop]
  · simp [BlockerScan.record, h.constAddr hop]
  · simp [BlockerScan.record, h.callFastRts hop]

theorem flags_of_scan {scan : BlockerScan} (h : scanBlockersBoundaryAware b.bytes = some scan) {pc : Nat}
    {op : UInt8} (hpc : Boundary b.bytes pc) (hop : b.bytes[pc]? = some op)
    (hover : ¬ b.OverreadBefore pc) : Flags scan op := by
  refine scan_notes (P := fun scan => Flags scan op) (fun p d s hs => hs.record_of d.op) hpc hop hover
    (fun _ s => ?_) h
  rw [Disasm.decode_op hop]
  exact Flags.record s op

/-- A return follows the instruction at `pc`. -/
def ReturnFollows (bytes : List UInt8) (pc : Nat) : Prop :=
  ∃ k, consumed bytes pc = some k ∧ tailAt bytes (pc + k) = true

theorem callConstAddr_notMem_overread : ∀ op ∈ Disasm.overread, isCallConstAddr op = false := by
  decide +kernel

theorem returnFollows_of_allTail (h : ccaAllTailEquivalent b.bytes = some true) {pc : Nat} {op : UInt8}
    (hpc : Boundary b.bytes pc) (hop : b.bytes[pc]? = some op) (hcca : isCallConstAddr op = true)
    (hover : ¬ b.OverreadBefore pc) : ReturnFollows b.bytes pc := by
  have hlt : pc < b.bytes.length := (List.getElem?_eq_some_iff.1 hop).1
  obtain ⟨k, hk, hfit⟩ := b.whole pc hpc hlt
  have hnot : op ∉ Disasm.overread := fun hmem => by
    simp [callConstAddr_notMem_overread op hmem] at hcca
  refine ⟨k, hk, scan_notes (P := fun t : Bool => t = true → tailAt b.bytes (pc + k) = true)
    (fun p d s hs ht => hs (Bool.and_eq_true_iff.1 ht).1) hpc hop hover (fun hesc s ht => ?_) h rfl⟩
  have htail := (Bool.and_eq_true_iff.1 ht).2
  rw [Disasm.decode_op hop, hcca, Disasm.decode_totalLen hop hk hfit, if_neg hesc, if_neg hnot] at htail
  simpa using htail

end Body

namespace Body

/-! ## The claims about a body -/

/-- `decode` gives the right length at every boundary. -/
def DecodesRight (b : Body) : Prop :=
  ∀ pc k, Boundary b.bytes pc → consumed b.bytes pc = some k → (Disasm.decode b.bytes pc).totalLen = k

/-- The table is right up to the instructions it gives a byte too many; behind an `ESCAPE` only the
    extended opcode is counted. -/
theorem decodesRight_iff (b : Body) : b.DecodesRight ↔
    ∀ pc op k, Boundary b.bytes pc → b.bytes[pc]? = some op → consumed b.bytes pc = some k →
      op ∉ Disasm.overread ∧ (op = instrEscape → k = 2) := by
  constructor
  · intro h pc op k hpc hop hk
    have hlen := h pc k hpc hk
    rw [Disasm.decode_totalLen hop hk (b.fits hpc hk)] at hlen
    by_cases hesc : op = instrEscape
    · rw [if_pos hesc] at hlen
      exact ⟨hesc ▸ Disasm.escape_notMem_overread, fun _ => hlen.symm⟩
    · rw [if_neg hesc] at hlen
      refine ⟨fun hmem => ?_, fun heq => absurd heq hesc⟩
      rw [if_pos hmem] at hlen
      omega
  · intro h pc k hpc hk
    cases hop : b.bytes[pc]? with
    | none => simp [consumed, hop] at hk
    | some op =>
      obtain ⟨hnot, hesc⟩ := h pc op k hpc hop hk
      rw [Disasm.decode_totalLen hop hk (b.fits hpc hk), if_neg hnot]
      split
      next heq => exact (hesc heq).symm
      · rfl

/-- The lengths, and what the scans find, as far as no instruction is read with a byte too many. -/
theorem lengths_and_scans (b : Body) :
    (∀ pc op k, Boundary b.bytes pc → b.bytes[pc]? = some op → consumed b.bytes pc = some k →
      (op ∉ Disasm.overread →
        (Disasm.decode b.bytes pc).totalLen = if op = instrEscape then 2 else k) ∧
      ∀ n, opcodeTotalLen b.bytes pc = .ok n → n = k) ∧
    (∀ scan, scanBlockersBoundaryAware b.bytes = some scan →
      ∀ pc op, Boundary b.bytes pc → b.bytes[pc]? = some op → ¬ b.OverreadBefore pc → Flags scan op) ∧
    (ccaAllTailEquivalent b.bytes = some true →
      ∀ pc op, Boundary b.bytes pc → b.bytes[pc]? = some op → isCallConstAddr op = true →
        ¬ b.OverreadBefore pc → ReturnFollows b.bytes pc) := by
  refine ⟨fun pc op k hpc hop hk => ⟨fun hnot => ?_, fun n hn => ?_⟩,
    fun scan h pc op hpc hop hover => flags_of_scan h hpc hop hover,
    fun h pc op hpc hop hcca hover => returnFollows_of_allTail h hpc hop hcca hover⟩
  · rw [Disasm.decode_totalLen hop hk (b.fits hpc hk), if_neg hnot, Nat.add_zero]
  · exact Option.some.inj ((consumed_of_opcodeTotalLen hn).symm.trans hk)

/-- What the filter lets through has a return after each call of a constant. -/
theorem returnFollows_of_ccaInstallSafe {b : Body} (h : ccaInstallSafe b.bytes = true) {pc : Nat}
    {op : UInt8} (hpc : Boundary b.bytes pc) (hop : b.bytes[pc]? = some op)
    (hcca : isCallConstAddr op = true) (hover : ¬ b.OverreadBefore pc) : ReturnFollows b.bytes pc := by
  have hany : b.bytes.any isCallConstAddr = true :=
    List.any_eq_true.2 ⟨op, List.mem_of_getElem? hop, hcca⟩
  simp only [ccaInstallSafe, hany, Bool.not_true, Bool.false_or, beq_iff_eq] at h
  exact returnFollows_of_allTail h hpc hop hcca hover

theorem boundary_cases {bytes : List UInt8} {p pc k : Nat}
    (h : Stride.Reaches bytes.length (fun p => (consumed bytes p).getD 0) p pc)
    (hk : consumed bytes p = some k) :
    pc = p ∨ Stride.Reaches bytes.length (fun p => (consumed bytes p).getD 0) (p + k) pc := by
  cases h with
  | refl => exact .inl rfl
  | step _ h => exact .inr (by simpa [hk] using h)

/-- `CONST_INT_B` with a byte that could be a call, `CALL_CONST_ADDR8_0`, then `RETURN_1`. -/
def tailCall : Body where
  bytes := [instrConstIntB, instrCallConstAddr8_0, instrCallConstAddr8_0, 1, instrReturn1]
  whole := by
    intro pc hpc hlt
    rcases boundary_cases hpc (k := 2) rfl with rfl | hpc
    · exact ⟨2, rfl, by decide⟩
    · rcases boundary_cases hpc (k := 2) rfl with rfl | hpc
      · exact ⟨2, rfl, by decide⟩
      · rcases boundary_cases hpc (k := 1) rfl with rfl | hpc
        · exact ⟨1, rfl, by decide⟩
        · exact absurd hlt (Nat.not_lt.2 hpc.le)

theorem tailCall_scans : ∃ scan, scanBlockersBoundaryAware tailCall.bytes = some scan ∧
    scan.callConstAddr = true ∧ ReturnFollows tailCall.bytes 2 := by
  have h2 : Boundary tailCall.bytes 2 := .step (by decide) (.refl 2)
  have hover : ¬ tailCall.OverreadBefore 2 := by
    rintro ⟨q, op, -, hq, hop, hmem⟩
    have hnone : Disasm.overread.all (fun op => !(tailCall.bytes.take 2).contains op) = true := rfl
    have htake : (tailCall.bytes.take 2)[q]? = some op := by
      rw [List.getElem?_take_of_lt hq]
      exact hop
    have hout := List.all_eq_true.1 hnone op hmem
    rw [List.contains_iff_mem.2 (List.mem_of_getElem? htake)] at hout
    cases hout
  obtain ⟨-, hscan, htail⟩ := lengths_and_scans tailCall
  have hs : scanBlockersBoundaryAware tailCall.bytes = some { callConstAddr := true } := by
    rw [scanBlockersBoundaryAware, Stride.walk_visit (by decide) rfl (by decide) (by decide),
      Stride.walk_visit (by decide) rfl (by decide) (by decide),
      Stride.walk_visit (by decide) rfl (by decide) (by decide), Stride.walk_of_le (by decide)]
    rfl
  have ht : ccaAllTailEquivalent tailCall.bytes = some true := by
    rw [ccaAllTailEquivalent, Stride.walk_visit (by decide) rfl (by decide) (by decide),
      Stride.walk_visit (by decide) rfl (by decide) (by decide),
      Stride.walk_visit (by decide) rfl (by decide) (by decide), Stride.walk_of_le (by decide)]
    rfl
  exact ⟨_, hs, (hscan _ hs 2 instrCallConstAddr8_0 h2 rfl hover).callConstAddr rfl,
    htail ht 2 instrCallConstAddr8_0 h2 rfl rfl hover⟩

/-- `ESCAPE`, `INDIRECT_W` and its index. -/
def indirectW : Body where
  bytes := [instrEscape, extinstrIndirectW, 0, 0]
  whole := by
    intro pc hpc hlt
    rcases boundary_cases hpc (k := 4) rfl with rfl | hpc
    · exact ⟨4, rfl, by decide⟩
    · exact absurd hlt (Nat.not_lt.2 hpc.le)

theorem not_decodesRight_indirectW : ¬ indirectW.DecodesRight := fun h =>
  absurd (h 0 4 (.refl 0) rfl) (by decide)

end Body
