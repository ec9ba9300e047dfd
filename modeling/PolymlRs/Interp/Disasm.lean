import PolymlRs.Interp.Opcodes
import PolymlRs.Lib.Stride
import Mathlib.Data.List.Basic

set_option autoImplicit false

/-! # The disassembler, and what an instruction takes

`decode` tells how long the instruction at a place is, from a table of its own. `consumed` is what the
interpreter takes for it: the opcode, the bytes its arm fetches, and the jump table of a `CASE16`. -/

def readU16Le (bytes : List UInt8) (offset : Nat) : Nat :=
  (bytes.getD offset 0).toNat + (bytes.getD (offset + 1) 0).toNat * 256

namespace Disasm

/-- Without the summary of the immediates, which only listings read. -/
structure DecodedOp where
  op : UInt8
  mnemonic : String
  totalLen : Nat

def mnemonics : List (UInt8 × String) :=
  [(instrJump8, "JUMP8"), (instrJump8False, "JUMP8_FALSE"), (instrJump8True, "JUMP8_TRUE"),
   (instrJump16, "JUMP16"), (instrJump16False, "JUMP16_FALSE"), (instrJump16True, "JUMP16_TRUE"),
   (instrJumpBack8, "JUMP_BACK8"), (instrJumpBack16, "JUMP_BACK16"), (instrLoadMlWord, "LOAD_ML_WORD"),
   (instrLoadMlByte, "LOAD_ML_BYTE"), (instrStoreMlWord, "STORE_ML_WORD"),
   (instrStoreMlByte, "STORE_ML_BYTE"), (instrLoadUntagged, "LOAD_UNTAGGED"),
   (instrStoreUntagged, "STORE_UNTAGGED"), (instrAllocRef, "ALLOC_REF"),
   (instrAllocWordMemory, "ALLOC_WORD_MEMORY"), (instrAllocByteMem, "ALLOC_BYTE_MEM"),
   (instrAllocMutClosureB, "ALLOC_MUT_CLOSURE_B"), (instrBlockMoveWord, "BLOCK_MOVE_WORD"),
   (instrBlockMoveByte, "BLOCK_MOVE_BYTE"), (instrBlockEqualByte, "BLOCK_EQUAL_BYTE"),
   (instrBlockCompareByte, "BLOCK_COMPARE_BYTE"), (instrCase16, "CASE16"),
   (instrCallClosure, "CALL_CLOSURE"), (instrCallLocalB, "CALL_LOCAL_B"),
   (instrCallConstAddr8_0, "CALL_CONST_ADDR8_0"), (instrCallConstAddr8_1, "CALL_CONST_ADDR8_1"),
   (instrCallConstAddr8_8, "CALL_CONST_ADDR8_8"), (instrCallConstAddr16_8, "CALL_CONST_ADDR16_8"),
   (instrCallFastRts0, "CALL_FAST_RTS0"), (instrCallFastRts1, "CALL_FAST_RTS1"),
   (instrCallFastRts2, "CALL_FAST_RTS2"), (instrCallFastRts3, "CALL_FAST_RTS3"),
   (instrCallFastRts4, "CALL_FAST_RTS4"), (instrCallFastRts5, "CALL_FAST_RTS5"),
   (instrReturnW, "RETURN_W"), (instrReturnB, "RETURN_B"), (instrReturn1, "RETURN_1"),
   (instrReturn2, "RETURN_2"), (instrReturn3, "RETURN_3"), (instrStackContainerB, "STACK_CONTAINER_B"),
   (instrStackSize16, "STACK_SIZE16"), (instrRaiseEx, "RAISE_EX"),
   (instrConstAddr16_8, "CONST_ADDR16_8"), (instrConstAddr8_8, "CONST_ADDR8_8"),
   (instrConstAddr8_0, "CONST_ADDR8_0"), (instrConstAddr8_1, "CONST_ADDR8_1"),
   (instrConstIntW, "CONST_INT_W"), (instrIndirectLocalBb, "INDIRECT_LOCAL_BB"),
   (instrIndirectLocalB0, "INDIRECT_LOCAL_B0"), (instrIndirectLocalB1, "INDIRECT_LOCAL_B1"),
   (instrIndirectClosureBb, "INDIRECT_CLOSURE_BB"), (instrIndirectClosureB0, "INDIRECT_CLOSURE_B0"),
   (instrIndirectClosureB1, "INDIRECT_CLOSURE_B1"), (instrIndirectClosureB2, "INDIRECT_CLOSURE_B2"),
   (instrIndirectContainerB, "INDIRECT_CONTAINER_B"), (instrIndirect0Local0, "INDIRECT_0_LOCAL_0"),
   (instrLocalW, "LOCAL_W"), (instrLocalB, "LOCAL_B"), (instrIndirectB, "INDIRECT_B"),
   (instrMoveToContainerB, "MOVE_TO_CONTAINER_B"), (instrMoveToMutClosureB, "MOVE_TO_MUT_CLOSURE_B"),
   (instrSetStackValB, "SET_STACK_VAL_B"), (instrResetB, "RESET_B"), (instrResetRB, "RESET_R_B"),
   (instrReset1, "RESET_1"), (instrReset2, "RESET_2"), (instrResetR1, "RESET_R_1"),
   (instrResetR2, "RESET_R_2"), (instrResetR3, "RESET_R_3"), (instrConstIntB, "CONST_INT_B"),
   (instrLocal0, "LOCAL_0"), (instrLocal1, "LOCAL_1"), (instrLocal2, "LOCAL_2"),
   (instrLocal3, "LOCAL_3"), (instrLocal4, "LOCAL_4"), (instrLocal5, "LOCAL_5"),
   (instrLocal6, "LOCAL_6"), (instrLocal7, "LOCAL_7"), (instrLocal8, "LOCAL_8"),
   (instrLocal9, "LOCAL_9"), (instrLocal10, "LOCAL_10"), (instrLocal11, "LOCAL_11"),
   (instrLocal12, "LOCAL_12"), (instrLocal13, "LOCAL_13"), (instrLocal14, "LOCAL_14"),
   (instrLocal15, "LOCAL_15"), (instrIndirect0, "INDIRECT_0"), (instrIndirect1, "INDIRECT_1"),
   (instrIndirect2, "INDIRECT_2"), (instrIndirect3, "INDIRECT_3"), (instrIndirect4, "INDIRECT_4"),
   (instrIndirect5, "INDIRECT_5"), (instrConst0, "CONST_0"), (instrConst1, "CONST_1"),
   (instrConst2, "CONST_2"), (instrConst3, "CONST_3"), (instrConst4, "CONST_4"),
   (instrConst10, "CONST_10"), (instrNoOp, "NO_OP"), (instrTupleB, "TUPLE_B"), (instrTuple2, "TUPLE_2"),
   (instrTuple3, "TUPLE_3"), (instrTuple4, "TUPLE_4"), (instrLock, "LOCK"), (instrLdexc, "LDEXC"),
   (instrPushHandler, "PUSH_HANDLER"), (instrTailBB, "TAIL_B_B"), (instrSetHandler8, "SET_HANDLER8"),
   (instrSetHandler16, "SET_HANDLER16"), (instrDeleteHandler, "DELETE_HANDLER"),
   (instrNotBoolean, "NOT_BOOLEAN"), (instrIsTagged, "IS_TAGGED"),
   (instrIsTaggedLocalB, "IS_TAGGED_LOCAL_B"), (instrCellLength, "CELL_LENGTH"),
   (instrCellFlags, "CELL_FLAGS"), (instrClearMutable, "CLEAR_MUTABLE"), (instrEqualWord, "EQUAL_WORD"),
   (instrLessSigned, "LESS_SIGNED"), (instrLessUnsigned, "LESS_UNSIGNED"),
   (instrLessEqSigned, "LESS_EQ_SIGNED"), (instrLessEqUnsigned, "LESS_EQ_UNSIGNED"),
   (instrGreaterSigned, "GREATER_SIGNED"), (instrGreaterUnsigned, "GREATER_UNSIGNED"),
   (instrGreaterEqSigned, "GREATER_EQ_SIGNED"), (instrGreaterEqUnsigned, "GREATER_EQ_UNSIGNED"),
   (instrFixedAdd, "FIXED_ADD"), (instrFixedSub, "FIXED_SUB"), (instrFixedMult, "FIXED_MULT"),
   (instrFixedQuot, "FIXED_QUOT"), (instrFixedRem, "FIXED_REM"), (instrWordAdd, "WORD_ADD"),
   (instrWordSub, "WORD_SUB"), (instrWordMult, "WORD_MULT"), (instrWordDiv, "WORD_DIV"),
   (instrWordMod, "WORD_MOD"), (instrWordAnd, "WORD_AND"), (instrWordOr, "WORD_OR"),
   (instrWordXor, "WORD_XOR"), (instrWordShiftLeft, "WORD_SHIFT_LEFT"),
   (instrWordShiftRLog, "WORD_SHIFT_R_LOG"), (instrArbAdd, "ARB_ADD"),
   (instrArbSubtract, "ARB_SUBTRACT"), (instrArbMultiply, "ARB_MULTIPLY"),
   (instrAtomicIncr, "ATOMIC_INCR"), (instrAtomicDecr, "ATOMIC_DECR"),
   (instrGetThreadId, "GET_THREAD_ID"), (instrJumpTaggedLocal, "JUMP_TAGGED_LOCAL"),
   (instrJumpNeqLocal, "JUMP_NEQ_LOCAL"), (instrJumpNeqLocalInd, "JUMP_NEQ_LOCAL_IND"),
   (instrClosureB, "CLOSURE_B"), (instrEscape, "ESCAPE"), (instrEnterIntX86, "ENTER_INT_X86"),
   (instrEnterIntArm64, "ENTER_INT_ARM64")]

def opcodeName (op : UInt8) : String := (mnemonics.lookup op).getD "?"

def oneByte : List UInt8 :=
  [instrJump8, instrJump8False, instrJump8True, instrJumpBack8, instrLocalB, instrIndirectB,
   instrConstIntB, instrResetB, instrResetRB, instrReturnB, instrTupleB, instrClosureB,
   instrSetHandler8, instrPushHandler, instrMoveToContainerB, instrSetStackValB, instrStackContainerB,
   instrIndirectContainerB, instrIndirectClosureB0, instrIndirectClosureB1, instrIndirectClosureB2,
   instrIndirectLocalB0, instrIndirectLocalB1, instrIsTaggedLocalB, instrMoveToMutClosureB,
   instrAllocMutClosureB, instrCallLocalB, instrConstAddr8_0, instrConstAddr8_1, instrCallConstAddr8_0,
   instrCallConstAddr8_1, instrCallFastRts0, instrCallFastRts1, instrCallFastRts2, instrCallFastRts3,
   instrCallFastRts4, instrCallFastRts5]

def twoBytes : List UInt8 :=
  [instrJump16, instrJump16False, instrJump16True, instrJumpBack16, instrLocalW, instrConstIntW,
   instrReturnW, instrSetHandler16, instrStackSize16, instrIndirectLocalBb, instrIndirectClosureBb,
   instrConstAddr8_8, instrCallConstAddr8_8, instrJumpTaggedLocal, instrTailBB]

def threeBytes : List UInt8 :=
  [instrJumpNeqLocal, instrJumpNeqLocalInd, instrConstAddr16_8, instrCallConstAddr16_8]

def immBytes (op : UInt8) : Nat :=
  if op ∈ oneByte then 1 else if op ∈ twoBytes then 2 else if op ∈ threeBytes then 3 else 0

def decode (bytecode : List UInt8) (pc : Nat) : DecodedOp :=
  match bytecode[pc]? with
  | none => ⟨0, "<EOF>", 0⟩
  | some op =>
    if op = instrCase16 then
      if pc + 2 < bytecode.length then ⟨op, opcodeName op, 1 + 2 + readU16Le bytecode (pc + 1) * 2⟩
      else ⟨op, opcodeName op, 1⟩
    else if op = instrEscape then ⟨op, opcodeName op, 2⟩
    else ⟨op, opcodeName op, 1 + immBytes op⟩

end Disasm

/-! ## What the interpreter takes -/

/-- The opcode at `pc` with what its arm fetches. The arm of a `CASE16` reads its jump table, too. -/
def consumed (bytecode : List UInt8) (pc : Nat) : Option Nat :=
  match bytecode[pc]? with
  | none => none
  | some op =>
    if op = instrCase16 then
      some (1 + Fetch.width .u16Le + readU16Le bytecode (pc + 1) * 2)
    else if op = instrEscape then
      (bytecode[pc + 1]?.bind dispatchExtendedArms.fetches).map (2 + Fetch.widths ·)
    else
      (stepOneArms.fetches op).map (1 + Fetch.widths ·)

/-- Instructions of the interpreter, one after the other, start at `pc`. -/
def Boundary (bytecode : List UInt8) (pc : Nat) : Prop :=
  Stride.Reaches bytecode.length (fun p => (consumed bytecode p).getD 0) 0 pc

/-- A body of whole instructions that the interpreter executes. -/
structure Body where
  bytes : List UInt8
  whole : ∀ pc, Boundary bytes pc → pc < bytes.length →
    ∃ k, consumed bytes pc = some k ∧ pc + k ≤ bytes.length

theorem Body.fits (b : Body) {pc k : Nat} (hpc : Boundary b.bytes pc)
    (hk : consumed b.bytes pc = some k) : pc + k ≤ b.bytes.length := by
  have hlt : pc < b.bytes.length := by
    by_contra hge
    simp [consumed, List.getElem?_eq_none (Nat.not_lt.1 hge)] at hk
  obtain ⟨k', hk', hfit⟩ := b.whole pc hpc hlt
  exact Option.some.inj (hk.symm.trans hk') ▸ hfit

theorem Arms.mem_of_fetches {arms : Arms} {op : UInt8} {fetches : List Fetch}
    (h : arms.fetches op = some fetches) : ∃ ops, (fetches, ops) ∈ arms ∧ op ∈ ops := by
  obtain ⟨arm, harm, rfl⟩ := Option.map_eq_some_iff.1 h
  exact ⟨arm.2, List.mem_of_find?_eq_some harm, by simpa using List.find?_some harm⟩

namespace Disasm

/-- The table gives a byte too many to these: the stub of a fast runtime call is on the stack, and the
    offset of a handler stands in the next instruction. -/
def overread : List UInt8 :=
  [instrCallFastRts0, instrCallFastRts1, instrCallFastRts2, instrCallFastRts3, instrCallFastRts4,
   instrCallFastRts5, instrPushHandler]

theorem immBytes_stepOneArms : ∀ arm ∈ stepOneArms, ∀ op ∈ arm.2,
    immBytes op = Fetch.widths arm.1 + if op ∈ overread then 1 else 0 := by
  decide +kernel

theorem immBytes_of_fetches {op : UInt8} {fetches : List Fetch}
    (h : stepOneArms.fetches op = some fetches) :
    immBytes op = Fetch.widths fetches + if op ∈ overread then 1 else 0 := by
  obtain ⟨ops, harm, hop⟩ := Arms.mem_of_fetches h
  exact immBytes_stepOneArms _ harm op hop

theorem case16_notMem_overread : instrCase16 ∉ overread := by decide

theorem escape_notMem_overread : instrEscape ∉ overread := by decide

/-- What `decode` says of an instruction that is all there. -/
theorem decode_totalLen {bytecode : List UInt8} {pc k : Nat} {op : UInt8}
    (hop : bytecode[pc]? = some op) (hk : consumed bytecode pc = some k)
    (hfit : pc + k ≤ bytecode.length) :
    (decode bytecode pc).totalLen =
      if op = instrEscape then 2 else k + if op ∈ overread then 1 else 0 := by
  simp only [consumed, hop] at hk
  simp only [decode, hop]
  by_cases hcase : op = instrCase16
  · subst hcase
    rw [if_pos rfl, Option.some.injEq] at hk
    subst hk
    have hcount : pc + 2 < bytecode.length := by
      simp only [Fetch.width] at hfit
      omega
    rw [if_pos rfl, if_pos hcount, if_neg case16_notMem_overread]
    rfl
  · rw [if_neg hcase] at hk ⊢
    by_cases hesc : op = instrEscape
    · rw [if_pos hesc, if_pos hesc]
    · rw [if_neg hesc] at hk
      obtain ⟨fetches, hf, rfl⟩ := Option.map_eq_some_iff.1 hk
      rw [if_neg hesc, if_neg hesc, immBytes_of_fetches hf]
      exact (Nat.add_assoc ..).symm

theorem decode_op {bytecode : List UInt8} {pc : Nat} {op : UInt8} (hop : bytecode[pc]? = some op) :
    (decode bytecode pc).op = op := by
  simp only [decode, hop]
  split
  · split <;> rfl
  · split <;> rfl

end Disasm
