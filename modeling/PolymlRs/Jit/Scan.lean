import PolymlRs.Jit.Arity
import PolymlRs.Jit.Instruction

set_option autoImplicit false

/-! # The translator's first pass

Before a body is translated, the depth of the operand stack is worked out for every place that control
reaches. A worklist follows the edges of the control flow: a place that is jumped to gets a block, and all
jumps to it have to agree on the depth; a place that is only fallen into is scanned at the depth it is
fallen into at. Where the code falls into a block, it may do so with a deeper stack than the block takes. -/

/-- What `compile_with_consts` is given: a code object, the place its bytecode ends, and the heap that it
    lies in, which stands still meanwhile. -/
structure CompileInput where
  fullBody : List UInt8
  bytecodeEnd : Nat
  heap : Mem
  /-- The address of `fullBody`. -/
  codeStart : Nat

/-- Where control goes after an instruction, and how deep the stack is there. -/
structure ControlEdge where
  pc : Nat
  depth : Nat
  isBlockTarget : Bool
deriving DecidableEq, Repr

def computeArgCount (bytecode : List UInt8) (entryPc prologueArgCount : Nat) : Nat :=
  if prologueArgCount > 0 ∨ entryPc > 0 then prologueArgCount
  else
    let inferred := (inferArgCount bytecode entryPc).getD 0
    let fromReturn := ((arityFromReturnScan bytecode).map (· + 2)).getD 0
    max inferred fromReturn

namespace CompileInput

variable (c : CompileInput)

def bytecode : List UInt8 := c.fullBody.take c.bytecodeEnd

/-- Where the body starts. -/
def entryPc : Nat := (functionPrologue c.bytecode).1

/-- The words that the code reads from its caller's frame. -/
def argCount : Nat := computeArgCount c.bytecode c.entryPc (functionPrologue c.bytecode).2

/-- Where a constant is read, from the end of the instruction. -/
def readAt (pc off idx : Nat) : Nat := pc + off + idx * 8

/-- The closure that a `CALL_CONST_ADDR*` finds in the constant area now. -/
def constClosure (readAt : Nat) : Nat := (PolyWord.ofBytes (fun i => c.fullBody.getD (readAt + i) 0)).toNat

/-! ## One instruction -/

/-- The successors of an instruction that was read between `opPc` and `pc`. -/
def scanInstr (i : Instruction) (opPc pc depth : Nat) : Except TranslateError (List ControlEdge) :=
  -- of at least `need` words, `pop` are taken away and `push` put in their place
  let shape (need pop push : Nat) (err : Nat) : Except TranslateError (List ControlEdge) :=
    if depth < need then .error (.underflow err) else .ok [⟨pc, depth - pop + push, false⟩]
  let leave (need : Nat) : Except TranslateError (List ControlEdge) :=
    if depth < need then .error (.underflow opPc) else .ok []
  let branch (need off : Nat) : Except TranslateError (List ControlEdge) :=
    if depth < need then .error (.underflow opPc)
    else .ok [⟨pc + off, depth, true⟩, ⟨pc, depth, true⟩]
  match i with
  | .const _ | .constAddr _ _ _ | .getThreadId | .ldexc | .pushHandler | .setHandler _ => shape 0 0 1 opPc
  | .localAt d | .indirectLocal d _ | .indirectClosure d _ | .isTaggedLocal d => shape (d + 1) 0 1 opPc
  | .indirect _ | .indirectContainer _ | .lock | .clearMutable | .cellFlags | .cellLength
  | .allocMutClosure _ | .allocRef | .notBoolean | .isTagged => shape 1 1 1 opPc
  | .load _ | .allocByteMem | .binary _ => shape 2 2 1 opPc
  | .store _ | .allocWordMemory => shape 3 3 1 opPc
  | .block _ => shape 5 5 1 opPc
  | .stackContainer n => shape 0 0 (n + 1) opPc
  | .moveToContainer _ | .moveToMutClosure _ => shape 2 1 0 opPc
  | .noOp => shape 0 0 0 opPc
  | .reset n => shape n n 0 opPc
  | .resetR n => shape (n + 1) n 0 (pc - 1)
  | .setStackVal _ | .deleteHandler => shape 1 1 0 opPc
  | .callFastRts n => shape (n + 1) (n + 1) 1 opPc
  | .callLocal n => shape (n + 1) n 1 opPc
  | .callClosure => if depth = 0 then .error (.underflow opPc) else .ok [⟨pc, 1, false⟩]
  | .tuple n => shape n n 1 (pc - 1)
  | .closure n => shape (n + 1) (n + 1) 1 opPc
  | .callConstAddr op off idx =>
      if readAt pc off idx + 8 > c.fullBody.length then .error (.unsupported op pc)
      else match closureArityFromAddr c.heap (c.constClosure (readAt pc off idx)) with
      | none => .error (.unsupported op pc)
      | some n => shape n n 1 pc
  | .tail tailCount _ => if tailCount < 2 then .error (.unsupported instrTailBB opPc) else leave tailCount
  | .raiseEx | .ret _ => leave 1
  | .jumpTaggedLocal d off | .jumpNeqLocal _ d _ off => branch (d + 1) off
  | .jump off => .ok [⟨pc + off, depth, true⟩]
  | .jumpBack op off immBytes =>
      let opcodeTotalLen := 1 + immBytes
      if pc < off + opcodeTotalLen then .error (.unsupported op (pc - opcodeTotalLen))
      else .ok [⟨pc - off - opcodeTotalLen, depth, true⟩]
  | .jumpCond _ off =>
      if depth = 0 then .error (.underflow pc)
      else .ok [⟨pc + off, depth - 1, true⟩, ⟨pc, depth - 1, true⟩]
  | .case16 arg1 =>
      if depth = 0 then .error (.underflow pc)
      else do
        let cases ← (List.range arg1).mapM (fun i =>
          let entryPos := pc + i * 2
          if entryPos + 1 ≥ c.bytecode.length then .error (.truncated entryPos)
          else .ok (⟨pc + readU16Le c.bytecode entryPos, depth - 1, true⟩ : ControlEdge))
        .ok (⟨pc + arg1 * 2, depth - 1, true⟩ :: cases)

def scanOneOpcode (opPc depth : Nat) : Except TranslateError (List ControlEdge) := do
  let (i, pc) ← fetchInstr c.bytecode opPc
  c.scanInstr i opPc pc depth

end CompileInput

/-! ## The worklist -/

/-- What the scan has found out, and where it has still to look. -/
structure Scan where
  /-- The depth of a place that was fallen into. -/
  depthAt : Nat → Option Nat
  /-- The depth of a place that was jumped to. -/
  targets : Nat → Option Nat
  worklist : List Nat

namespace Scan

def scanDepth (s : Scan) (pc : Nat) : Option Nat := (s.targets pc).or (s.depthAt pc)

def addTarget (s : Scan) (pc depth : Nat) : Scan :=
  { s with targets := Function.update s.targets pc (some depth), worklist := pc :: s.worklist }

def addDepth (s : Scan) (pc depth : Nat) : Scan :=
  { s with depthAt := Function.update s.depthAt pc (some depth), worklist := pc :: s.worklist }

/-- Merge one edge of the instruction just scanned, in a body of `len` bytes. -/
def mergeEdge (len : Nat) (s : Scan) (e : ControlEdge) : Except TranslateError Scan :=
  if e.pc ≥ len then .error .fellOffEnd
  else if e.isBlockTarget then
    match s.targets e.pc with
    | some existing => if existing = e.depth then .ok s else .error (.unsupported 0xFE e.pc)
    | none =>
      if (s.depthAt e.pc).any (fun ft => decide (ft < e.depth)) then .error (.unsupported 0xFD e.pc)
      else .ok (s.addTarget e.pc e.depth)
  else
    match s.targets e.pc with
    | some t => if e.depth < t then .error (.unsupported 0xFD e.pc) else .ok s
    | none =>
      match s.depthAt e.pc with
      | some existing => if existing = e.depth then .ok s else .error (.unsupported 0xFE e.pc)
      | none => .ok (s.addDepth e.pc e.depth)

end Scan

namespace CompileInput

variable (c : CompileInput)

/-- Take a place off the worklist. -/
def scanRound (pc : Nat) (s : Scan) : Except TranslateError Scan :=
  if pc ≥ c.bytecode.length then .error .fellOffEnd
  else match s.scanDepth pc with
  | none => .ok s
  | some depth => do
    let edges ← c.scanOneOpcode pc depth
    edges.foldlM (Scan.mergeEdge c.bytecode.length) s

def scanLoop : Nat → Scan → Option (Except TranslateError Scan)
  | 0, _ => none
  | fuel + 1, s =>
    match s.worklist with
    | [] => some (.ok s)
    | pc :: worklist =>
      match c.scanRound pc { s with worklist } with
      | .error e => some (.error e)
      | .ok s => scanLoop fuel s

def scanStart : Scan where
  depthAt := Function.update (fun _ => none) c.entryPc (some c.argCount)
  targets := fun _ => none
  worklist := [c.entryPc]

/-- The blocks of the body and their depths. An entry that lies behind the bytecode panics. Every place is
    taken off the worklist at most twice. -/
def scanBranchTargets : Option (Except TranslateError (Nat → Option Nat)) :=
  if c.entryPc ≥ c.bytecode.length then none
  else (c.scanLoop (2 * c.bytecode.length + 1) c.scanStart).map (·.map Scan.targets)

end CompileInput
