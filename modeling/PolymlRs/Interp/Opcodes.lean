import Mathlib.Algebra.GroupWithZero.Nat

set_option autoImplicit false

/-! # Opcodes of the bytecode

The instructions that the interpreter has an arm for, and what the arm fetches after the opcode. -/

def instrJump8 : UInt8 := 0x02
def instrJump8False : UInt8 := 0x03
def instrLoadMlWord : UInt8 := 0x04
def instrStoreMlWord : UInt8 := 0x05
def instrAllocRef : UInt8 := 0x06
def instrBlockMoveWord : UInt8 := 0x07
def instrLoadUntagged : UInt8 := 0x08
def instrStoreUntagged : UInt8 := 0x09
def instrCase16 : UInt8 := 0x0a
def instrCallClosure : UInt8 := 0x0c
def instrReturnW : UInt8 := 0x0d
def instrStackContainerB : UInt8 := 0x0e
def instrRaiseEx : UInt8 := 0x10
def instrLocalW : UInt8 := 0x13
def instrConstAddr16_8 : UInt8 := 0x14
def instrConstAddr8_8 : UInt8 := 0x15
def instrCallLocalB : UInt8 := 0x16
def instrCallConstAddr8_8 : UInt8 := 0x17
def instrCallConstAddr16_8 : UInt8 := 0x18
def instrConstIntW : UInt8 := 0x1b
def instrJumpBack8 : UInt8 := 0x1e
def instrReturnB : UInt8 := 0x1f
def instrJumpBack16 : UInt8 := 0x20
def instrIndirectLocalBb : UInt8 := 0x21
def instrLocalB : UInt8 := 0x22
def instrIndirectB : UInt8 := 0x23
def instrMoveToContainerB : UInt8 := 0x24
def instrSetStackValB : UInt8 := 0x25
def instrResetB : UInt8 := 0x26
def instrResetRB : UInt8 := 0x27
def instrConstIntB : UInt8 := 0x28
def instrLocal0 : UInt8 := 0x29
def instrLocal1 : UInt8 := 0x2a
def instrLocal2 : UInt8 := 0x2b
def instrLocal3 : UInt8 := 0x2c
def instrLocal4 : UInt8 := 0x2d
def instrLocal5 : UInt8 := 0x2e
def instrLocal6 : UInt8 := 0x2f
def instrLocal7 : UInt8 := 0x30
def instrLocal8 : UInt8 := 0x31
def instrLocal9 : UInt8 := 0x32
def instrLocal10 : UInt8 := 0x33
def instrLocal11 : UInt8 := 0x34
def instrIndirect0 : UInt8 := 0x35
def instrIndirect1 : UInt8 := 0x36
def instrIndirect2 : UInt8 := 0x37
def instrIndirect3 : UInt8 := 0x38
def instrIndirect4 : UInt8 := 0x39
def instrIndirect5 : UInt8 := 0x3a
def instrConst0 : UInt8 := 0x3b
def instrConst1 : UInt8 := 0x3c
def instrConst2 : UInt8 := 0x3d
def instrConst3 : UInt8 := 0x3e
def instrConst4 : UInt8 := 0x3f
def instrConst10 : UInt8 := 0x40
def instrReturn1 : UInt8 := 0x42
def instrReturn2 : UInt8 := 0x43
def instrReturn3 : UInt8 := 0x44
def instrLocal12 : UInt8 := 0x45
def instrJump8True : UInt8 := 0x46
def instrJump16True : UInt8 := 0x47
def instrLocal13 : UInt8 := 0x49
def instrLocal14 : UInt8 := 0x4a
def instrLocal15 : UInt8 := 0x4b
def instrArbAdd : UInt8 := 0x4c
def instrArbSubtract : UInt8 := 0x4d
def instrArbMultiply : UInt8 := 0x4e
def instrReset1 : UInt8 := 0x50
def instrReset2 : UInt8 := 0x51
def instrNoOp : UInt8 := 0x52
def instrIndirectClosureBb : UInt8 := 0x54
def instrConstAddr8_0 : UInt8 := 0x55
def instrConstAddr8_1 : UInt8 := 0x56
def instrCallConstAddr8_0 : UInt8 := 0x57
def instrCallConstAddr8_1 : UInt8 := 0x58
def instrResetR1 : UInt8 := 0x64
def instrResetR2 : UInt8 := 0x65
def instrResetR3 : UInt8 := 0x66
def instrTupleB : UInt8 := 0x68
def instrTuple2 : UInt8 := 0x69
def instrTuple3 : UInt8 := 0x6a
def instrTuple4 : UInt8 := 0x6b
def instrLock : UInt8 := 0x6c
def instrLdexc : UInt8 := 0x6d
def instrIndirectContainerB : UInt8 := 0x74
def instrMoveToMutClosureB : UInt8 := 0x75
def instrAllocMutClosureB : UInt8 := 0x76
def instrIndirectClosureB0 : UInt8 := 0x77
def instrPushHandler : UInt8 := 0x78
def instrIndirectClosureB1 : UInt8 := 0x7a
def instrTailBB : UInt8 := 0x7b
def instrIndirectClosureB2 : UInt8 := 0x7c
def instrSetHandler8 : UInt8 := 0x81
def instrCallFastRts0 : UInt8 := 0x83
def instrCallFastRts1 : UInt8 := 0x84
def instrCallFastRts2 : UInt8 := 0x85
def instrCallFastRts3 : UInt8 := 0x86
def instrCallFastRts4 : UInt8 := 0x87
def instrCallFastRts5 : UInt8 := 0x88
def instrNotBoolean : UInt8 := 0x91
def instrIsTagged : UInt8 := 0x92
def instrCellLength : UInt8 := 0x93
def instrCellFlags : UInt8 := 0x94
def instrClearMutable : UInt8 := 0x95
def instrAtomicIncr : UInt8 := 0x97
def instrAtomicDecr : UInt8 := 0x98
def instrEqualWord : UInt8 := 0xa0
def instrLessSigned : UInt8 := 0xa2
def instrLessUnsigned : UInt8 := 0xa3
def instrLessEqSigned : UInt8 := 0xa4
def instrLessEqUnsigned : UInt8 := 0xa5
def instrGreaterSigned : UInt8 := 0xa6
def instrGreaterUnsigned : UInt8 := 0xa7
def instrGreaterEqSigned : UInt8 := 0xa8
def instrGreaterEqUnsigned : UInt8 := 0xa9
def instrFixedAdd : UInt8 := 0xaa
def instrFixedSub : UInt8 := 0xab
def instrFixedMult : UInt8 := 0xac
def instrFixedQuot : UInt8 := 0xad
def instrFixedRem : UInt8 := 0xae
def instrWordAdd : UInt8 := 0xb1
def instrWordSub : UInt8 := 0xb2
def instrWordMult : UInt8 := 0xb3
def instrWordDiv : UInt8 := 0xb4
def instrWordMod : UInt8 := 0xb5
def instrWordAnd : UInt8 := 0xb7
def instrWordOr : UInt8 := 0xb8
def instrWordXor : UInt8 := 0xb9
def instrWordShiftLeft : UInt8 := 0xba
def instrWordShiftRLog : UInt8 := 0xbb
def instrAllocByteMem : UInt8 := 0xbd
def instrIndirectLocalB1 : UInt8 := 0xc1
def instrIsTaggedLocalB : UInt8 := 0xc2
def instrJumpNeqLocalInd : UInt8 := 0xc3
def instrJumpTaggedLocal : UInt8 := 0xc4
def instrJumpNeqLocal : UInt8 := 0xc5
def instrIndirect0Local0 : UInt8 := 0xc6
def instrIndirectLocalB0 : UInt8 := 0xc7
def instrClosureB : UInt8 := 0xd0
def instrGetThreadId : UInt8 := 0xd9
def instrAllocWordMemory : UInt8 := 0xda
def instrLoadMlByte : UInt8 := 0xdc
def instrStoreMlByte : UInt8 := 0xe4
def instrEnterIntArm64 : UInt8 := 0xe9
def instrBlockMoveByte : UInt8 := 0xec
def instrBlockEqualByte : UInt8 := 0xed
def instrBlockCompareByte : UInt8 := 0xee
def instrDeleteHandler : UInt8 := 0xf1
def instrJump16 : UInt8 := 0xf7
def instrJump16False : UInt8 := 0xf8
def instrSetHandler16 : UInt8 := 0xf9
def instrStackSize16 : UInt8 := 0xfc
def instrEscape : UInt8 := 0xfe
def instrEnterIntX86 : UInt8 := 0xff

/-! ## Extended opcodes, after an `ESCAPE` -/

def extinstrAllocMutClosureW : UInt8 := 0x0f
def extinstrIndirectClosureW : UInt8 := 0x10
def extinstrIndirectW : UInt8 := 0x14
def extinstrMoveToMutClosureW : UInt8 := 0x16
def extinstrResetW : UInt8 := 0x18
def extinstrResetRW : UInt8 := 0x19
def extinstrCallFastRrToR : UInt8 := 0x1c
def extinstrCallFastRgToR : UInt8 := 0x1d
def extinstrLoadPolyWord : UInt8 := 0x20
def extinstrLoadNativeWord : UInt8 := 0x21
def extinstrStorePolyWord : UInt8 := 0x22
def extinstrStoreNativeWord : UInt8 := 0x23
def extinstrJump32True : UInt8 := 0x48
def extinstrFloatAbs : UInt8 := 0x56
def extinstrFloatNeg : UInt8 := 0x57
def extinstrFixedIntToFloat : UInt8 := 0x58
def extinstrFloatToReal : UInt8 := 0x59
def extinstrRealToFloat : UInt8 := 0x5a
def extinstrFloatEqual : UInt8 := 0x5b
def extinstrFloatLess : UInt8 := 0x5c
def extinstrFloatLessEq : UInt8 := 0x5d
def extinstrFloatGreater : UInt8 := 0x5e
def extinstrFloatGreaterEq : UInt8 := 0x5f
def extinstrFloatAdd : UInt8 := 0x60
def extinstrFloatSub : UInt8 := 0x61
def extinstrFloatMult : UInt8 := 0x62
def extinstrFloatDiv : UInt8 := 0x63
def extinstrTupleW : UInt8 := 0x67
def extinstrRealToInt : UInt8 := 0x6e
def extinstrFloatToInt : UInt8 := 0x6f
def extinstrCallFastFToF : UInt8 := 0x70
def extinstrCallFastGToF : UInt8 := 0x71
def extinstrCallFastFfToF : UInt8 := 0x72
def extinstrCallFastFgToF : UInt8 := 0x73
def extinstrRealUnordered : UInt8 := 0x79
def extinstrFloatUnordered : UInt8 := 0x7a
def extinstrTail : UInt8 := 0x7c
def extinstrCallFastRToR : UInt8 := 0x8f
def extinstrCallFastGToR : UInt8 := 0x90
def extinstrCreateMutex : UInt8 := 0x91
def extinstrLockMutex : UInt8 := 0x92
def extinstrTryLockMutex : UInt8 := 0x93
def extinstrAtomicExchAdd : UInt8 := 0x96
def extinstrAtomicReset : UInt8 := 0x99
def extinstrLongWToTagged : UInt8 := 0x9a
def extinstrSignedToLongW : UInt8 := 0x9b
def extinstrUnsignedToLongW : UInt8 := 0x9c
def extinstrRealAbs : UInt8 := 0x9d
def extinstrRealNeg : UInt8 := 0x9e
def extinstrFixedIntToReal : UInt8 := 0x9f
def extinstrWordShiftRArith : UInt8 := 0xbc
def extinstrLgWordEqual : UInt8 := 0xbe
def extinstrLgWordLess : UInt8 := 0xc0
def extinstrLgWordLessEq : UInt8 := 0xc1
def extinstrLgWordGreater : UInt8 := 0xc2
def extinstrLgWordGreaterEq : UInt8 := 0xc3
def extinstrLgWordAdd : UInt8 := 0xc4
def extinstrLgWordSub : UInt8 := 0xc5
def extinstrLgWordMult : UInt8 := 0xc6
def extinstrLgWordDiv : UInt8 := 0xc7
def extinstrLgWordMod : UInt8 := 0xc8
def extinstrLgWordAnd : UInt8 := 0xc9
def extinstrLgWordOr : UInt8 := 0xca
def extinstrLgWordXor : UInt8 := 0xcb
def extinstrLgWordShiftLeft : UInt8 := 0xcc
def extinstrLgWordShiftRLog : UInt8 := 0xcd
def extinstrLgWordShiftRArith : UInt8 := 0xce
def extinstrRealEqual : UInt8 := 0xcf
def extinstrClosureW : UInt8 := 0xd0
def extinstrRealLess : UInt8 := 0xd1
def extinstrRealLessEq : UInt8 := 0xd2
def extinstrRealGreater : UInt8 := 0xd3
def extinstrRealGreaterEq : UInt8 := 0xd4
def extinstrRealAdd : UInt8 := 0xd5
def extinstrRealSub : UInt8 := 0xd6
def extinstrRealMult : UInt8 := 0xd7
def extinstrRealDiv : UInt8 := 0xd8
def extinstrLoadC8 : UInt8 := 0xdd
def extinstrLoadC16 : UInt8 := 0xde
def extinstrLoadC32 : UInt8 := 0xdf
def extinstrLoadC64 : UInt8 := 0xe0
def extinstrLoadCFloat : UInt8 := 0xe1
def extinstrLoadCDouble : UInt8 := 0xe2
def extinstrStoreC8 : UInt8 := 0xe5
def extinstrStoreC16 : UInt8 := 0xe6
def extinstrStoreC32 : UInt8 := 0xe7
def extinstrStoreC64 : UInt8 := 0xe8
def extinstrStoreCFloat : UInt8 := 0xe9
def extinstrStoreCDouble : UInt8 := 0xea
def extinstrLog2Word : UInt8 := 0xef
def extinstrConstAddr32_16 : UInt8 := 0xf0
def extinstrJump32 : UInt8 := 0xf2
def extinstrJump32False : UInt8 := 0xf3
def extinstrAllocCSpace : UInt8 := 0xfd
def extinstrFreeCSpace : UInt8 := 0xfe

/-! ## What an arm fetches -/

inductive Fetch
  | u8
  | u16Le
  | u32Le

def Fetch.width : Fetch → Nat
  | .u8 => 1
  | .u16Le => 2
  | .u32Le => 4

def Fetch.widths (fetches : List Fetch) : Nat := (fetches.map Fetch.width).sum

/-- The arms of one kind: what they fetch, and their opcodes. -/
abbrev Arms := List (List Fetch × List UInt8)

def Arms.fetches (arms : Arms) (op : UInt8) : Option (List Fetch) :=
  (arms.find? (fun arm => decide (op ∈ arm.2))).map Prod.fst

/-- The arms of `step_one`, but `CASE16` and `ESCAPE`. -/
def stepOneArms : Arms :=
  [([],
     [instrNoOp, instrConst0, instrConst1, instrConst2, instrConst3, instrConst4, instrConst10,
      instrLocal0, instrLocal1, instrLocal2, instrLocal3, instrLocal4, instrLocal5, instrLocal6,
      instrLocal7, instrLocal8, instrLocal9, instrLocal10, instrLocal11, instrLocal12, instrLocal13,
      instrLocal14, instrLocal15, instrAllocRef, instrTuple2, instrTuple3, instrTuple4, instrLock,
      instrClearMutable, instrAllocByteMem, instrAllocWordMemory, instrCellLength, instrCellFlags,
      instrGetThreadId, instrCallFastRts0, instrCallFastRts1, instrCallFastRts2, instrCallFastRts3,
      instrCallFastRts4, instrCallFastRts5, instrLoadMlWord, instrLoadMlByte, instrLoadUntagged,
      instrStoreMlWord, instrStoreMlByte, instrStoreUntagged, instrBlockMoveByte, instrBlockMoveWord,
      instrBlockEqualByte, instrBlockCompareByte, instrPushHandler, instrDeleteHandler, instrLdexc,
      instrRaiseEx, instrIndirect0Local0, instrIndirect0, instrIndirect1, instrIndirect2,
      instrIndirect3, instrIndirect4, instrIndirect5, instrCallClosure, instrFixedAdd, instrFixedSub,
      instrFixedMult, instrFixedQuot, instrFixedRem, instrArbAdd, instrArbSubtract, instrArbMultiply,
      instrWordAdd, instrWordSub, instrWordMult, instrWordAnd, instrWordOr, instrWordXor,
      instrWordShiftLeft, instrWordShiftRLog, instrWordDiv, instrWordMod, instrEqualWord,
      instrLessSigned, instrLessUnsigned, instrLessEqSigned, instrLessEqUnsigned, instrGreaterSigned,
      instrGreaterUnsigned, instrGreaterEqSigned, instrGreaterEqUnsigned, instrNotBoolean,
      instrIsTagged, instrReset1, instrReset2, instrResetR1, instrResetR2, instrResetR3,
      instrAtomicIncr, instrAtomicDecr, instrReturn1, instrReturn2, instrReturn3]),
   ([.u16Le],
     [instrStackSize16, instrConstIntW, instrLocalW, instrSetHandler16, instrJump16, instrJumpBack16,
      instrJump16False, instrJump16True, instrReturnW]),
   ([.u8],
     [instrConstIntB, instrLocalB, instrTupleB, instrClosureB, instrAllocMutClosureB,
      instrMoveToMutClosureB, instrStackContainerB, instrMoveToContainerB, instrIndirectContainerB,
      instrSetHandler8, instrIndirectLocalB0, instrIndirectLocalB1, instrIsTaggedLocalB,
      instrSetStackValB, instrIndirectClosureB0, instrIndirectClosureB1, instrIndirectClosureB2,
      instrIndirectB, instrConstAddr8_0, instrConstAddr8_1, instrCallConstAddr8_0,
      instrCallConstAddr8_1, instrCallLocalB, instrJump8, instrJumpBack8, instrJump8False,
      instrJump8True, instrResetB, instrResetRB, instrReturnB]),
   ([.u8, .u8],
     [instrTailBB, instrIndirectLocalBb, instrJumpTaggedLocal, instrIndirectClosureBb,
      instrConstAddr8_8, instrCallConstAddr8_8]),
   ([.u8, .u8, .u8],
     [instrJumpNeqLocal, instrJumpNeqLocalInd]),
   ([.u16Le, .u8],
     [instrConstAddr16_8, instrCallConstAddr16_8])]

/-- The arms of `dispatch_extended`. -/
def dispatchExtendedArms : Arms :=
  [([],
     [extinstrCreateMutex, extinstrLockMutex, extinstrTryLockMutex, extinstrAtomicReset,
      extinstrAtomicExchAdd, extinstrLoadC8, extinstrLoadC16, extinstrLoadC32, extinstrLoadC64,
      extinstrLoadCFloat, extinstrLoadCDouble, extinstrStoreC8, extinstrStoreC16, extinstrStoreC32,
      extinstrStoreC64, extinstrStoreCFloat, extinstrStoreCDouble, extinstrAllocCSpace,
      extinstrFreeCSpace, extinstrLog2Word, extinstrLongWToTagged, extinstrSignedToLongW,
      extinstrUnsignedToLongW, extinstrLoadPolyWord, extinstrLoadNativeWord, extinstrStorePolyWord,
      extinstrStoreNativeWord, extinstrFloatAbs, extinstrFloatNeg, extinstrFloatAdd, extinstrFloatSub,
      extinstrFloatMult, extinstrFloatDiv, extinstrFloatEqual, extinstrFloatLess, extinstrFloatLessEq,
      extinstrFloatGreater, extinstrFloatGreaterEq, extinstrFloatUnordered, extinstrFixedIntToFloat,
      extinstrFloatToReal, extinstrCallFastRToR, extinstrCallFastGToR, extinstrCallFastRrToR,
      extinstrCallFastRgToR, extinstrCallFastFToF, extinstrCallFastGToF, extinstrCallFastFfToF,
      extinstrCallFastFgToF, extinstrRealAbs, extinstrRealNeg, extinstrRealAdd, extinstrRealSub,
      extinstrRealMult, extinstrRealDiv, extinstrRealEqual, extinstrRealLess, extinstrRealLessEq,
      extinstrRealGreater, extinstrRealGreaterEq, extinstrRealUnordered, extinstrFixedIntToReal,
      extinstrWordShiftRArith, extinstrLgWordAdd, extinstrLgWordSub, extinstrLgWordMult,
      extinstrLgWordDiv, extinstrLgWordMod, extinstrLgWordAnd, extinstrLgWordOr, extinstrLgWordXor,
      extinstrLgWordShiftLeft, extinstrLgWordShiftRLog, extinstrLgWordShiftRArith, extinstrLgWordEqual,
      extinstrLgWordLess, extinstrLgWordLessEq, extinstrLgWordGreater, extinstrLgWordGreaterEq]),
   ([.u16Le],
     [extinstrIndirectW, extinstrTupleW, extinstrAllocMutClosureW, extinstrMoveToMutClosureW,
      extinstrClosureW, extinstrIndirectClosureW, extinstrResetW, extinstrResetRW]),
   ([.u8],
     [extinstrRealToFloat, extinstrFloatToInt, extinstrRealToInt]),
   ([.u32Le, .u16Le],
     [extinstrConstAddr32_16]),
   ([.u16Le, .u16Le],
     [extinstrJump32, extinstrJump32False, extinstrJump32True, extinstrTail])]
