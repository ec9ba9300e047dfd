import PolymlRs.Heap.Bytes
import PolymlRs.Jit.Arity
import PolymlRs.Jit.Region
import Mathlib.Data.List.Sort

set_option autoImplicit false

/-! # Which regions are compiled

From a code object in memory the code objects that it calls by constant are found, and what these call.
Each is cut off at its constants, checked to have instructions of the subset only, and lowered
instruction by instruction; places that are jumped to get blocks of their own. One code object that does
not pass leaves the whole region to the interpreter. -/

namespace Region

/-! ## Reading an instruction

The compiler reads the bytecode that it has cut out of the object, with zeros behind its end; the
interpreter reads the memory. -/

section Decode

variable (get : Nat → UInt8) (pc : Nat)

def immWide : Nat := (get (pc + 1)).toNat + (get (pc + 2)).toNat * 256

/-- The place behind the instruction. -/
def afterOp : Nat := pc + 1 + Disasm.immBytes (get pc)

/-- Where the constant of the instruction lies in the object. -/
def constReadAt : Nat :=
  let imm (i : Nat) := (get (pc + i)).toNat
  let op := get pc
  let after := afterOp get pc
  if op ∈ [instrConstAddr8_0, instrCallConstAddr8_0] then after + imm 1 + 3 * 8
  else if op ∈ [instrConstAddr8_1, instrCallConstAddr8_1] then after + imm 1 + 4 * 8
  else if op ∈ [instrConstAddr8_8, instrCallConstAddr8_8] then after + imm 1 + (imm 2 + 3) * 8
  else after + immWide get pc + (imm 3 + 3) * 8

/-- The instructions of the subset. `callee` is the code object that a constant at a place of the object
leads to. -/
def opcodeArms (callee : Nat → Option Nat) : List (List UInt8 × Opcode) :=
  let imm (i : Nat) := (get (pc + i)).toNat
  let wide := immWide get pc
  let op := get pc
  let after := afterOp get pc
  let back (off : Nat) : Opcode := if off ≤ pc then .jump (pc - off) else .unsupported
  [([instrNoOp], .noOp),
   ([instrStackSize16], .stackSize16 wide),
   ([instrConst0, instrConst1, instrConst2, instrConst3, instrConst4, instrConst10, instrConstIntB,
     instrConstIntW, instrConstAddr8_0, instrConstAddr8_1, instrConstAddr8_8, instrConstAddr16_8],
     .pushConst),
   ([instrLocal0, instrLocal1, instrLocal2, instrLocal3, instrLocal4, instrLocal5, instrLocal6,
     instrLocal7, instrLocal8, instrLocal9, instrLocal10, instrLocal11],
     .peekPush (op - instrLocal0).toNat),
   ([instrLocal12], .peekPush 12), ([instrLocal13], .peekPush 13), ([instrLocal14], .peekPush 14),
   ([instrLocal15], .peekPush 15), ([instrLocalB], .peekPush (imm 1)), ([instrLocalW], .peekPush wide),
   ([instrIndirect0, instrIndirect1, instrIndirect2, instrIndirect3, instrIndirect4, instrIndirect5,
     instrIndirectB], .indirect),
   ([instrIndirectLocalB0, instrIndirectLocalB1, instrIndirectLocalBb], .indirectLocal (imm 1)),
   ([instrIndirect0Local0], .indirectLocal 0),
   ([instrReset1], .reset 1), ([instrReset2], .reset 2), ([instrResetB], .reset (imm 1)),
   ([instrResetR1], .resetR 1), ([instrResetR2], .resetR 2), ([instrResetR3], .resetR 3),
   ([instrResetRB], .resetR (imm 1)),
   ([instrJump8], .jump (after + imm 1)), ([instrJump16], .jump (after + wide)),
   ([instrJumpBack8], back (imm 1)), ([instrJumpBack16], back wide),
   ([instrJump8False, instrJump8True], .condJump (after + imm 1)),
   ([instrJump16False, instrJump16True], .condJump (after + wide)),
   ([instrJumpNeqLocal, instrJumpNeqLocalInd], .localJump (imm 1) (after + imm 3)),
   ([instrJumpTaggedLocal], .localJump (imm 1) (after + imm 2)),
   ([instrSetStackValB], .setStackVal (imm 1)), ([instrIsTaggedLocalB], .isTaggedLocal (imm 1)),
   ([instrLoadMlWord, instrLoadMlByte, instrLoadUntagged], .loadMl),
   ([instrStoreMlWord, instrStoreUntagged], .storeMl),
   ([instrCellLength, instrCellFlags], .cellIntro),
   ([instrFixedAdd, instrFixedSub, instrFixedMult], .fixedArith),
   ([instrFixedQuot, instrFixedRem], .fixedDivrem),
   ([instrWordAdd, instrWordSub, instrWordMult, instrWordAnd, instrWordOr, instrWordXor,
     instrWordShiftLeft, instrWordShiftRLog], .wordBin),
   ([instrWordDiv, instrWordMod], .wordDivmod),
   ([instrEqualWord, instrLessSigned, instrLessUnsigned, instrLessEqSigned, instrLessEqUnsigned,
     instrGreaterSigned, instrGreaterUnsigned, instrGreaterEqSigned, instrGreaterEqUnsigned], .cmp),
   ([instrNotBoolean, instrIsTagged], .tagTest),
   ([instrReturn1], .ret 1), ([instrReturn2], .ret 2), ([instrReturn3], .ret 3),
   ([instrReturnB], .ret (imm 1)), ([instrReturnW], .ret wide),
   ([instrCallConstAddr8_0, instrCallConstAddr8_1, instrCallConstAddr8_8, instrCallConstAddr16_8],
     .callConstAddr (callee (constReadAt get pc))),
   ([instrCallLocalB], .callLocal (imm 1)), ([instrCallClosure], .callClosure),
   ([instrStackContainerB], .stackContainer (imm 1)),
   ([instrTuple2], .allocTuple 2), ([instrTuple3], .allocTuple 3), ([instrTuple4], .allocTuple 4),
   ([instrTupleB], .allocTuple (imm 1)), ([instrClosureB], .allocClosure (imm 1)),
   ([instrAllocRef], .allocRef), ([instrAllocWordMemory], .allocWordMemory),
   ([instrAllocByteMem], .allocByteMem)]

/-- The instruction at `pc`. -/
def opcodeAt (callee : Nat → Option Nat) : Opcode :=
  match (opcodeArms get pc callee).find? (fun arm => decide (get pc ∈ arm.1)) with
  | some (_, op) => op
  | none => .unsupported

end Decode

/-- `is_supported`. -/
def supportedOps : List UInt8 :=
  [instrNoOp, instrStackSize16,
   instrConst0, instrConst1, instrConst2, instrConst3, instrConst4, instrConst10, instrConstIntB,
   instrConstIntW,
   instrLocal0, instrLocal1, instrLocal2, instrLocal3, instrLocal4, instrLocal5, instrLocal6, instrLocal7,
   instrLocal8, instrLocal9, instrLocal10, instrLocal11, instrLocal12, instrLocal13, instrLocal14,
   instrLocal15, instrLocalB, instrLocalW,
   instrIndirect0, instrIndirect1, instrIndirect2, instrIndirect3, instrIndirect4, instrIndirect5,
   instrIndirectB, instrIndirectLocalB0, instrIndirectLocalB1, instrIndirect0Local0, instrIndirectLocalBb,
   instrReset1, instrReset2, instrResetB, instrResetR1, instrResetR2, instrResetR3, instrResetRB,
   instrJump8, instrJump16, instrJumpBack8, instrJumpBack16, instrJump8False, instrJump16False,
   instrJump8True, instrJump16True, instrJumpNeqLocal, instrJumpNeqLocalInd, instrJumpTaggedLocal,
   instrSetStackValB, instrIsTaggedLocalB,
   instrLoadMlWord, instrLoadMlByte, instrLoadUntagged, instrStoreMlWord, instrStoreUntagged,
   instrCellLength, instrCellFlags,
   instrConstAddr8_0, instrConstAddr8_1, instrConstAddr8_8, instrConstAddr16_8,
   instrFixedAdd, instrFixedSub, instrFixedMult, instrFixedQuot, instrFixedRem,
   instrWordAdd, instrWordSub, instrWordMult, instrWordAnd, instrWordOr, instrWordXor, instrWordShiftLeft,
   instrWordShiftRLog, instrWordDiv, instrWordMod,
   instrEqualWord, instrLessSigned, instrLessUnsigned, instrLessEqSigned, instrLessEqUnsigned,
   instrGreaterSigned, instrGreaterUnsigned, instrGreaterEqSigned, instrGreaterEqUnsigned,
   instrNotBoolean, instrIsTagged,
   instrReturn1, instrReturn2, instrReturn3, instrReturnB, instrReturnW,
   instrCallConstAddr8_0, instrCallConstAddr8_1, instrCallConstAddr8_8, instrCallConstAddr16_8,
   instrCallLocalB, instrCallClosure,
   instrStackContainerB, instrTuple2, instrTuple3, instrTuple4, instrTupleB, instrClosureB, instrAllocRef,
   instrAllocWordMemory, instrAllocByteMem]

/-! ## A code object -/

/-- Why a region is not compiled. -/
inductive BailReason
  | unsupportedOpcode (op : UInt8) (name : String) (pc : Nat)
  | truncated (pc : Nat)
  | unresolvableCallee (pc : Nat)
  | jumpMidInstruction (target : Nat)
  | regionTooLarge
  /-- Cranelift refuses a function. -/
  | moduleError
deriving DecidableEq, Repr

/-- A code object, with its bytecode cut out. -/
structure ResolvedCode where
  addr : Nat
  bytecode : List UInt8
  fullBody : List UInt8
  arity : Nat

/-- A word that may be the address of an object. -/
def isAligned (w : PolyWord) : Bool := w != 0#64 && w &&& 7#64 == 0#64

def resolveCode (m : Mem) (addr : Nat) : Option ResolvedCode := do
  if addr = 0 ∨ addr % 8 ≠ 0 ∨ m.objLen addr < 2 then none
  let bytecode ← bytecodeOf m addr
  let arity ← arityFromReturnScan bytecode
  some { addr, bytecode, fullBody := m.readBytes addr (m.objLen addr * 8), arity }

namespace ResolvedCode

variable (m : Mem) (rc : ResolvedCode) (pc : Nat)

def byte (i : Nat) : UInt8 := rc.bytecode.getD i 0

/-- The place behind the instruction at `pc`, by `decode`. -/
def after : Nat := pc + (Disasm.decode rc.bytecode pc).totalLen

/-- All operands of the instruction are in the bytecode. -/
def whole : Bool := rc.after pc ≤ rc.bytecode.length

/-- The word at a place of the object. -/
def constWord (readAt : Nat) : Option PolyWord :=
  if rc.whole pc ∧ readAt + 8 ≤ rc.fullBody.length then
    some (.ofBytes (fun i => rc.fullBody.getD (readAt + i) 0))
  else none

def ccaTargetCodeAddr (readAt : Nat) : Option Nat := do
  let closure ← rc.constWord pc readAt
  if isAligned closure then
    let codeObj := m closure.toNat
    if isAligned codeObj then some codeObj.toNat else none
  else none

/-- The instruction at `pc`. An operand behind the end of the bytecode counts as zero. -/
def opcode : Opcode := opcodeAt rc.byte pc (rc.ccaTargetCodeAddr m pc)

/-- The places where instructions start, from `pc` on. -/
def boundaries : Nat → Nat → List Nat
  | 0, _ => []
  | fuel + 1, pc => if pc < rc.bytecode.length then pc :: boundaries fuel (rc.after pc) else []

/-- The check of a code object, which gives those it calls. -/
def preflight : List Nat → Except BailReason (List Nat)
  | [] => .ok []
  | pc :: rest =>
    let op := rc.byte pc
    if op ∉ supportedOps then .error (.unsupportedOpcode op (Disasm.opcodeName op) pc)
    else if isCallConstAddr op then
      match rc.ccaTargetCodeAddr m pc (constReadAt rc.byte pc) with
      | none => .error (.unresolvableCallee pc)
      | some callee => do
        let more ← preflight rest
        .ok (callee :: more)
    else preflight rest

/-! ### Blocks -/

def jumpTarget : Option Nat :=
  if rc.whole pc then
    match rc.opcode m pc with
    | .jump t | .condJump t | .localJump _ t => some t
    | _ => none
  else none

/-- The places that jumps go to, and those behind jumps. -/
def targets (starts : List Nat) : List Nat → Except BailReason (List Nat)
  | [] => .ok []
  | pc :: rest => match rc.jumpTarget m pc with
    | none => targets starts rest
    | some t =>
      if t ∈ starts ∨ t = rc.bytecode.length then do
        let more ← targets starts rest
        .ok (t :: (if rc.after pc ∈ starts then rc.after pc :: more else more))
      else .error (.jumpMidInstruction t)

/-- All places where instructions start. -/
def starts : List Nat := rc.boundaries rc.bytecode.length 0

/-- `compute_block_offsets`, without the entry. -/
def computeBlockOffsets : Except BailReason (List Nat) := rc.targets m rc.starts rc.starts

/-- There is a block at `t`. -/
def blockAt (blocks : List Nat) (t : Nat) : Except BailReason Unit :=
  if t ∈ blocks ∧ t ≠ 0 ∧ t < rc.bytecode.length then .ok () else .error (.jumpMidInstruction t)

/-- Lower the instruction at `pc`; it may end its block. -/
def emitOne (blocks : List Nat) : Except BailReason Bool :=
  match rc.opcode m pc with
  | .unsupported =>
    let op := rc.byte pc
    if op ∈ [instrJumpBack8, instrJumpBack16] then .error (.truncated pc)
    else .error (.unsupportedOpcode op (Disasm.opcodeName op) pc)
  | .jump t =>
    if rc.whole pc then do
      rc.blockAt blocks t
      .ok true
    else .error (.truncated pc)
  | .condJump t | .localJump _ t =>
    if rc.whole pc then do
      rc.blockAt blocks t
      rc.blockAt blocks (rc.after pc)
      .ok true
    else .error (.truncated pc)
  | .ret _ => .ok true
  | .callConstAddr none => .error (.unresolvableCallee pc)
  | .pushConst =>
    if isConstAddr (rc.byte pc) && (rc.constWord pc (constReadAt rc.byte pc)).isNone then
      .error (.truncated pc)
    else .ok false
  | _ => .ok false

/-- The places with code. What no block leads to, behind the end of a block, has none. Cranelift's
verifier refuses a function that does not end with the end of a block. -/
def emitAllBlocks (blocks : List Nat) : List Nat → Bool → Except BailReason (List Nat)
  | [], terminated => if terminated then .ok [] else .error .moduleError
  | pc :: rest, terminated =>
    if pc ≠ 0 ∧ pc ∉ blocks ∧ terminated = true then emitAllBlocks blocks rest true
    else do
      let ends ← rc.emitOne m pc blocks
      let more ← emitAllBlocks blocks rest ends
      .ok (pc :: more)

/-- `define_function`, up to what Cranelift makes of it. -/
def defineFunction : Except BailReason (List Nat) := do
  let blocks ← rc.computeBlockOffsets m
  rc.emitAllBlocks m blocks rc.starts false

end ResolvedCode

/-! ## The regions -/

/-- `MAX_REGION_FUNCS`. -/
def maxRegionFuncs : Nat := 256

/-- The loop of `build_region`, with the number of functions it may still add: the functions of the
region, and its calls. The worklist is a stack. -/
def discover (m : Mem) : Nat → List Nat → List Nat → List (Nat × Nat) →
    Except BailReason (List Nat × List (Nat × Nat))
  | remaining, worklist, resolved, edges =>
    match worklist.dropWhile (fun addr => decide (addr ∈ resolved)) with
    | [] => .ok (resolved, edges)
    | addr :: rest =>
      match remaining with
      | 0 => .error .regionTooLarge
      | remaining + 1 =>
        match resolveCode m addr with
        | none => .error (.unresolvableCallee 0)
        | some rc => do
          let callees ← rc.preflight m rc.starts
          discover m remaining (callees.reverse ++ rest) (addr :: resolved)
            (edges ++ callees.map (fun callee => (addr, callee)))

/-- Remove a function whose callers have all been removed, and go on with those it calls. -/
def removeSources (edges : List (Nat × Nat)) : Nat → List Nat → (Nat → Nat) → Nat
  | 0, _, _ | _, [], _ => 0
  | fuel + 1, n :: queue, indeg =>
    let (indeg, queue) := edges.foldl (fun (indeg, queue) edge =>
      if edge.1 = n then
        (Function.update indeg edge.2 (indeg edge.2 - 1),
          if indeg edge.2 - 1 = 0 then edge.2 :: queue else queue)
      else (indeg, queue)) (indeg, queue)
    removeSources edges fuel queue indeg + 1

/-- `call_graph_has_cycle`: some function cannot be removed. -/
def callGraphHasCycle (resolved : List Nat) (edges : List (Nat × Nat)) : Bool :=
  let indeg := fun n => (edges.filter (fun edge => edge.2 = n)).length
  removeSources edges resolved.length (resolved.filter (fun n => indeg n = 0)) indeg
    != resolved.length

/-- A region: its root and all its functions. -/
structure CompiledMemRegion where
  root : Nat
  funcs : List Nat
  recursive : Bool
deriving DecidableEq, Repr

section Build

variable (m : Mem) (compiles : Nat → Bool)

/-- Define functions, and note which are defined. A function cannot be defined twice. -/
def defineAll : List Nat → List Nat → Except BailReason Unit × List Nat
  | [], defined => (.ok (), defined)
  | addr :: rest, defined => match resolveCode m addr with
    | none => (.error (.unresolvableCallee 0), defined)
    | some rc => match rc.defineFunction m with
      | .error e => (.error e, defined)
      | .ok _ =>
        if compiles addr = true ∧ addr ∉ defined then defineAll rest (addr :: defined)
        else (.error .moduleError, defined)

/-- The functions are defined in the order of their addresses. -/
def buildRegion (root : Nat) (defined : List Nat) : Except BailReason CompiledMemRegion × List Nat :=
  match discover m maxRegionFuncs [root] [] [] with
  | .error e => (.error e, defined)
  | .ok (funcs, edges) => match defineAll m compiles (funcs.insertionSort (· ≤ ·)) defined with
    | (.error e, defined) => (.error e, defined)
    | (.ok (), defined) => (.ok { root, funcs, recursive := callGraphHasCycle funcs edges }, defined)

/-- The regions of the roots that are not recursive. All go into one module. -/
def buildAll : List Nat → List Nat → List CompiledMemRegion
  | [], _ => []
  | root :: roots, defined => match buildRegion m compiles root defined with
    | (.error _, defined) => buildAll roots defined
    | (.ok region, defined) =>
      if region.recursive then buildAll roots defined else region :: buildAll roots defined

/-- The regions that are registered. -/
def installWholeRegion (finalizes : Bool) (roots : List Nat) : List CompiledMemRegion :=
  if finalizes then buildAll m compiles roots [] else []

end Build

end Region
