import PolymlRs.Jit.InstrLengths

set_option autoImplicit false

/-! # The instructions of a function body

What the translator's two passes and the interpreter take an instruction to be: its opcode's family and
its operands. All three read the operands behind the opcode in the same places; what an instruction does is
a matter of each of them. -/

/-- What `LOAD_*` reads at an index into the object below it. -/
inductive LoadKind
  | untagged
  | mlByte
  | mlWord
deriving DecidableEq, Repr

inductive StoreKind
  | untagged
  | mlByte
  | mlWord
deriving DecidableEq, Repr

inductive BlockKind
  | moveWord
  | moveByte
  | equalByte
  | compareByte
deriving DecidableEq, Repr

/-- The instructions that take the top word `x` and the word `y` below it. -/
inductive BinaryOp
  | fixedAdd
  | fixedSub
  | fixedMult
  | fixedQuot
  | fixedRem
  | wordAdd
  | wordSub
  | wordMult
  | wordDiv
  | wordMod
  | wordAnd
  | wordOr
  | wordXor
  | wordShiftLeft
  | wordShiftRLog
  | equalWord
  | lessSigned
  | lessUnsigned
  | lessEqSigned
  | lessEqUnsigned
  | greaterSigned
  | greaterUnsigned
  | greaterEqSigned
  | greaterEqUnsigned
deriving DecidableEq, Repr

inductive Instruction
  | const (n : Nat)
  | localAt (depth : Nat)
  | indirectLocal (depth slot : Nat)
  | indirectClosure (depth slot : Nat)
  | isTaggedLocal (depth : Nat)
  | jumpTaggedLocal (depth off : Nat)
  /-- `JUMP_NEQ_LOCAL`, and `JUMP_NEQ_LOCAL_IND` when `ind`. -/
  | jumpNeqLocal (ind : Bool) (depth : Nat) (want : UInt8) (off : Nat)
  | indirect (field : Nat)
  | load (kind : LoadKind)
  | store (kind : StoreKind)
  | block (op : BlockKind)
  | stackContainer (n : Nat)
  | moveToContainer (k : Nat)
  | indirectContainer (k : Nat)
  | lock
  | clearMutable
  | cellFlags
  | cellLength
  | getThreadId
  | ldexc
  | pushHandler
  | setHandler (off : Nat)
  | deleteHandler
  | raiseEx
  | allocMutClosure (n : Nat)
  | moveToMutClosure (slot : Nat)
  | closure (n : Nat)
  | allocRef
  | tuple (n : Nat)
  | allocByteMem
  | allocWordMemory
  | noOp
  | reset (n : Nat)
  | resetR (n : Nat)
  | setStackVal (idx : Nat)
  | binary (op : BinaryOp)
  | notBoolean
  | isTagged
  | callFastRts (n : Nat)
  | callLocal (n : Nat)
  | callClosure
  | constAddr (op : UInt8) (off idx : Nat)
  | callConstAddr (op : UInt8) (off idx : Nat)
  | tail (tailCount skip : Nat)
  | ret (n : Nat)
  | jump (off : Nat)
  | jumpBack (op : UInt8) (off immBytes : Nat)
  /-- `JUMP*_FALSE` when `onFalse`, else `JUMP*_TRUE`. -/
  | jumpCond (onFalse : Bool) (off : Nat)
  | case16 (arg1 : Nat)
deriving DecidableEq, Repr

/-! ## Reading an instruction -/

section Fetch

variable (bytecode : List UInt8)

/-- The operand byte at `pc`. -/
def imm8 (pc : Nat) : Nat := (bytecode.getD pc 0).toNat

/-- `i` has `n` operand bytes from `pc` on. -/
def operands (pc n : Nat) (i : Instruction) : Except TranslateError (Instruction × Nat) :=
  if pc + n > bytecode.length then .error (.truncated pc) else .ok (i, pc + n)

/-- `read_const_addr_operands`, which takes its bytes one by one. -/
def constOperands (pc n : Nat) (i : Instruction) : Except TranslateError (Instruction × Nat) :=
  if pc + n > bytecode.length then .error (.truncated bytecode.length) else .ok (i, pc + n)

/-- The opcodes without operands that belong to no family. -/
def plainInstrs : List (UInt8 × Instruction) :=
  [(instrConst10, .const 10), (instrLocal12, .localAt 12), (instrLocal13, .localAt 13),
   (instrLocal14, .localAt 14), (instrLocal15, .localAt 15),
   (instrIndirect0Local0, .indirectLocal 0 0), (instrLoadUntagged, .load .untagged),
   (instrLoadMlByte, .load .mlByte), (instrLoadMlWord, .load .mlWord),
   (instrStoreUntagged, .store .untagged), (instrStoreMlByte, .store .mlByte),
   (instrStoreMlWord, .store .mlWord), (instrBlockMoveWord, .block .moveWord),
   (instrBlockMoveByte, .block .moveByte), (instrBlockEqualByte, .block .equalByte),
   (instrBlockCompareByte, .block .compareByte), (instrLock, .lock), (instrClearMutable, .clearMutable),
   (instrCellFlags, .cellFlags), (instrCellLength, .cellLength), (instrGetThreadId, .getThreadId),
   (instrLdexc, .ldexc), (instrPushHandler, .pushHandler), (instrDeleteHandler, .deleteHandler),
   (instrRaiseEx, .raiseEx), (instrAllocRef, .allocRef), (instrTuple2, .tuple 2), (instrTuple3, .tuple 3),
   (instrTuple4, .tuple 4), (instrAllocByteMem, .allocByteMem), (instrAllocWordMemory, .allocWordMemory),
   (instrNoOp, .noOp), (instrReset1, .reset 1), (instrReset2, .reset 2), (instrResetR1, .resetR 1),
   (instrResetR2, .resetR 2), (instrResetR3, .resetR 3), (instrNotBoolean, .notBoolean),
   (instrIsTagged, .isTagged), (instrCallClosure, .callClosure), (instrReturn1, .ret 1),
   (instrReturn2, .ret 2), (instrReturn3, .ret 3), (instrFixedAdd, .binary .fixedAdd),
   (instrFixedSub, .binary .fixedSub), (instrFixedMult, .binary .fixedMult),
   (instrFixedQuot, .binary .fixedQuot), (instrFixedRem, .binary .fixedRem),
   (instrWordAdd, .binary .wordAdd), (instrWordSub, .binary .wordSub), (instrWordMult, .binary .wordMult),
   (instrWordDiv, .binary .wordDiv), (instrWordMod, .binary .wordMod), (instrWordAnd, .binary .wordAnd),
   (instrWordOr, .binary .wordOr), (instrWordXor, .binary .wordXor),
   (instrWordShiftLeft, .binary .wordShiftLeft), (instrWordShiftRLog, .binary .wordShiftRLog),
   (instrEqualWord, .binary .equalWord), (instrLessSigned, .binary .lessSigned),
   (instrLessUnsigned, .binary .lessUnsigned), (instrLessEqSigned, .binary .lessEqSigned),
   (instrLessEqUnsigned, .binary .lessEqUnsigned), (instrGreaterSigned, .binary .greaterSigned),
   (instrGreaterUnsigned, .binary .greaterUnsigned), (instrGreaterEqSigned, .binary .greaterEqSigned),
   (instrGreaterEqUnsigned, .binary .greaterEqUnsigned)]

/-- The opcodes with one operand byte, from that byte. -/
def byteInstrs (n : Nat) : List (UInt8 × Instruction) :=
  [(instrConstIntB, .const n), (instrLocalB, .localAt n), (instrIndirectLocalB0, .indirectLocal n 0),
   (instrIndirectLocalB1, .indirectLocal n 1), (instrIndirectClosureB0, .indirectClosure n 0),
   (instrIndirectClosureB1, .indirectClosure n 1), (instrIndirectClosureB2, .indirectClosure n 2),
   (instrIsTaggedLocalB, .isTaggedLocal n), (instrIndirectB, .indirect n),
   (instrStackContainerB, .stackContainer n), (instrMoveToContainerB, .moveToContainer n),
   (instrIndirectContainerB, .indirectContainer n), (instrSetHandler8, .setHandler n),
   (instrAllocMutClosureB, .allocMutClosure n), (instrMoveToMutClosureB, .moveToMutClosure n),
   (instrClosureB, .closure n), (instrTupleB, .tuple n), (instrResetB, .reset n), (instrResetRB, .resetR n),
   (instrSetStackValB, .setStackVal n), (instrCallLocalB, .callLocal n), (instrReturnB, .ret n),
   (instrJump8, .jump n), (instrJumpBack8, .jumpBack instrJumpBack8 n 1),
   (instrJump8False, .jumpCond true n), (instrJump8True, .jumpCond false n)]

/-- The opcodes with a two-byte operand. -/
def wideInstrs (n : Nat) : List (UInt8 × Instruction) :=
  [(instrConstIntW, .const n), (instrSetHandler16, .setHandler n), (instrReturnW, .ret n),
   (instrJump16, .jump n), (instrJumpBack16, .jumpBack instrJumpBack16 n 2),
   (instrJump16False, .jumpCond true n), (instrJump16True, .jumpCond false n), (instrCase16, .case16 n)]

/-- The opcodes with several operand bytes. -/
def longInstrs (pc : Nat) : List (UInt8 × Nat × Instruction) :=
  let a := imm8 bytecode pc
  let b := imm8 bytecode (pc + 1)
  [(instrIndirectLocalBb, 2, .indirectLocal a b), (instrIndirectClosureBb, 2, .indirectClosure a b),
   (instrJumpTaggedLocal, 2, .jumpTaggedLocal a b), (instrTailBB, 2, .tail a b),
   (instrJumpNeqLocal, 3, .jumpNeqLocal false a (bytecode.getD (pc + 1) 0) (imm8 bytecode (pc + 2))),
   (instrJumpNeqLocalInd, 3, .jumpNeqLocal true a (bytecode.getD (pc + 1) 0) (imm8 bytecode (pc + 2)))]

/-- A constant's byte offset and its index: the opcodes that end in `0`, `1` and `8`. -/
def constInstrs (pc : Nat) : List (UInt8 × Nat × Instruction) :=
  let a := imm8 bytecode pc
  let b := imm8 bytecode (pc + 1)
  let wide := readU16Le bytecode pc
  let c := imm8 bytecode (pc + 2)
  [(instrConstAddr8_0, 1, .constAddr instrConstAddr8_0 a 3),
   (instrConstAddr8_1, 1, .constAddr instrConstAddr8_1 a 4),
   (instrConstAddr8_8, 2, .constAddr instrConstAddr8_8 a (b + 3)),
   (instrConstAddr16_8, 3, .constAddr instrConstAddr16_8 wide (c + 3)),
   (instrCallConstAddr8_0, 1, .callConstAddr instrCallConstAddr8_0 a 3),
   (instrCallConstAddr8_1, 1, .callConstAddr instrCallConstAddr8_1 a 4),
   (instrCallConstAddr8_8, 2, .callConstAddr instrCallConstAddr8_8 a (b + 3)),
   (instrCallConstAddr16_8, 3, .callConstAddr instrCallConstAddr16_8 wide (c + 3))]

/-- The instruction at `opPc`, and where the next one starts. -/
def fetchInstr (opPc : Nat) : Except TranslateError (Instruction × Nat) :=
  let op := bytecode.getD opPc 0
  let pc := opPc + 1
  if instrConst0 ≤ op ∧ op ≤ instrConst4 then .ok (.const (op - instrConst0).toNat, pc)
  else if instrLocal0 ≤ op ∧ op ≤ instrLocal11 then .ok (.localAt (op - instrLocal0).toNat, pc)
  else if instrIndirect0 ≤ op ∧ op ≤ instrIndirect5 then .ok (.indirect (op - instrIndirect0).toNat, pc)
  else if isCallFastRts op then .ok (.callFastRts (op - instrCallFastRts0).toNat, pc)
  else match plainInstrs.lookup op with
  | some i => .ok (i, pc)
  | none => match (byteInstrs (imm8 bytecode pc)).lookup op with
    | some i => operands bytecode pc 1 i
    | none => match (wideInstrs (readU16Le bytecode pc)).lookup op with
      | some i => operands bytecode pc 2 i
      | none => match (longInstrs bytecode pc).lookup op with
        | some (n, i) => operands bytecode pc n i
        | none => match (constInstrs bytecode pc).lookup op with
          | some (n, i) => constOperands bytecode pc n i
          | none => .error (.unsupported op opPc)

variable {bytecode}

theorem operands_le {pc n next : Nat} {i j : Instruction} (h : operands bytecode pc n i = .ok (j, next)) :
    pc ≤ next := by
  unfold operands at h
  split at h
  · cases h
  · obtain ⟨-, rfl⟩ := Prod.mk.inj (Except.ok.inj h)
    exact Nat.le_add_right pc n

theorem constOperands_le {pc n next : Nat} {i j : Instruction}
    (h : constOperands bytecode pc n i = .ok (j, next)) : pc ≤ next := by
  unfold constOperands at h
  split at h
  · cases h
  · obtain ⟨-, rfl⟩ := Prod.mk.inj (Except.ok.inj h)
    exact Nat.le_add_right pc n

/-- The opcode itself is taken. -/
theorem fetchInstr_lt {opPc next : Nat} {i : Instruction} (h : fetchInstr bytecode opPc = .ok (i, next)) :
    opPc < next := by
  have hnext : opPc + 1 ≤ next := by
    unfold fetchInstr at h
    dsimp only at h
    split at h
    · exact Nat.le_of_eq (Prod.mk.inj (Except.ok.inj h)).2
    split at h
    · exact Nat.le_of_eq (Prod.mk.inj (Except.ok.inj h)).2
    split at h
    · exact Nat.le_of_eq (Prod.mk.inj (Except.ok.inj h)).2
    split at h
    · exact Nat.le_of_eq (Prod.mk.inj (Except.ok.inj h)).2
    split at h
    · exact Nat.le_of_eq (Prod.mk.inj (Except.ok.inj h)).2
    split at h
    · exact operands_le h
    split at h
    · exact operands_le h
    split at h
    · exact operands_le h
    split at h
    · exact constOperands_le h
    · cases h
  exact hnext

end Fetch
