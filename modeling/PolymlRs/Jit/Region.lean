import Mathlib.Algebra.Group.Int.Defs
import Mathlib.Algebra.GroupWithZero.Nat
import PolymlRs.Heap.MemorySpace

set_option autoImplicit false

/-! # The instructions of regions on the stack of the interpreter

A region is a code object with all the code it calls by constant, compiled as a whole. Its native code
works on the stack of the interpreter.

Here are the stack pointers of both: what the interpreter does with each instruction of the subset that
regions are compiled from, and where the native code stores. A jump gives the place it goes to. The words
on the stack are left out: what they decide, such as whether a jump is taken, comes with each step as
`Data`, and is the same for both. So does the memory. -/

namespace Region

/-! ## Instructions -/

/-- An instruction, by what lowers it. -/
inductive Opcode
  | noOp
  | stackSize16 (needed : Nat)
  /-- `CONST_*` and `CONST_ADDR*`. -/
  | pushConst
  /-- `LOCAL_*`. -/
  | peekPush (depth : Nat)
  | indirect
  | indirectLocal (depth : Nat)
  | reset (n : Nat)
  | resetR (n : Nat)
  | jump (target : Nat)
  | condJump (target : Nat)
  /-- `JUMP_NEQ_LOCAL*` and `JUMP_TAGGED_LOCAL`. -/
  | localJump (depth target : Nat)
  | setStackVal (idx : Nat)
  | isTaggedLocal (depth : Nat)
  | loadMl
  | storeMl
  | cellIntro
  | fixedArith
  | fixedDivrem
  | wordBin
  | wordDivmod
  | cmp
  /-- `NOT_BOOLEAN` and `IS_TAGGED`. -/
  | tagTest
  | ret (n : Nat)
  /-- `CALL_CONST_ADDR*`, with the code object of the closure, if it is one. -/
  | callConstAddr (callee : Option Nat)
  | callClosure
  | callLocal (depth : Nat)
  | stackContainer (n : Nat)
  | allocTuple (n : Nat)
  | allocClosure (n : Nat)
  | allocRef
  | allocWordMemory
  | allocByteMem
  /-- Any other instruction, and a jump to before the code. -/
  | unsupported
deriving DecidableEq, Repr

def Opcode.isStackSize16 : Opcode → Bool
  | .stackSize16 _ => true
  | _ => false

/-- What ends a run. -/
inductive Stop
  | stackOverflow
  | stackUnderflow
  | divByZero
  /-- An exception that nothing above the dispatch handles. -/
  | raised
  | other
deriving DecidableEq, Repr

/-- What the interpreter does with an instruction outside the subset. -/
inductive Other
  | goes (code pc sp : Nat)
  /-- A call, after which the caller goes on at `pc`. -/
  | calls (callee pc sp : Nat)
  | raises
  | stops (e : Stop)
deriving DecidableEq, Repr

/-- The memory, and what the words decide. -/
structure Data where
  mem : Mem
  taken : Bool
  /-- An overflow, or a zero divisor. -/
  raises : Bool
  /-- There is no room for an allocation. -/
  exhausted : Bool
  /-- The code object of the closure that is called, if it is one. -/
  closure : Option Nat
  /-- The handler of an exception: how many frames are above it, where it goes on, and its stack
  pointer. -/
  handler : Option (Nat × Nat × Nat)
  other : Other

/-- Where a run goes after an instruction. -/
inductive Flow
  | next
  | goto (target : Nat)
  | call (callee : Nat)
  | callDynamic (closure : Option Nat)
  | ret
  | raise
  | stop (e : Stop)
deriving DecidableEq, Repr

/-! ## The interpreter -/

section Interpreter

variable (len : Nat)

def push (sp : Int) : Except Stop Int := if sp = 0 then .error .stackOverflow else .ok (sp - 1)

def pop (sp : Int) : Except Stop Int :=
  if (len : Int) ≤ sp then .error .stackUnderflow else .ok (sp + 1)

def peek (depth : Nat) (sp : Int) : Except Stop Unit :=
  if (len : Int) ≤ sp + depth then .error .stackUnderflow else .ok ()

def dropN (n : Nat) (sp : Int) : Except Stop Int :=
  if (len : Int) < sp + n then .error .stackUnderflow else .ok (sp + n)

/-- `reset`: the top replaces what is `n` below it. -/
def resetTo (n : Nat) (sp : Int) : Except Stop Int :=
  if (len : Int) ≤ sp + n then .error .stackUnderflow else .ok (sp + n)

def pushMany : Nat → Int → Except Stop Int
  | 0, sp => .ok sp
  | n + 1, sp => do pushMany n (← push sp)

def popMany : Nat → Int → Except Stop Int
  | 0, sp => .ok sp
  | n + 1, sp => do popMany n (← pop len sp)

/-- `SET_STACK_VAL_B`, after the pop. -/
def setSlot (idx : Nat) (sp : Int) : Except Stop Unit :=
  if idx = 0 ∨ (len : Int) ≤ sp + (idx - 1) then .error .stackUnderflow else .ok ()

def allocate (d : Data) : Except Stop Unit := if d.exhausted then .error .other else .ok ()

/-- One instruction: the stack pointer after it, and where to go. -/
def Opcode.interpret (d : Data) (sp : Int) : Opcode → Except Stop (Int × Flow)
  | .noOp => .ok (sp, .next)
  | .stackSize16 needed => if sp < needed then .error .stackOverflow else .ok (sp, .next)
  | .pushConst => do .ok (← push sp, .next)
  | .peekPush depth | .indirectLocal depth | .isTaggedLocal depth => do
    peek len depth sp
    .ok (← push sp, .next)
  | .indirect | .tagTest => do .ok (← push (← pop len sp), .next)
  | .cellIntro => do
    peek len 0 sp
    .ok (← push (← pop len sp), .next)
  | .reset n => do .ok (← dropN len n sp, .next)
  | .resetR n => do .ok (← resetTo len n sp, .next)
  | .jump target => .ok (sp, .goto target)
  | .condJump target => do .ok (← pop len sp, if d.taken then .goto target else .next)
  | .localJump depth target => do
    peek len depth sp
    .ok (sp, if d.taken then .goto target else .next)
  | .setStackVal idx => do
    let sp ← pop len sp
    setSlot len idx sp
    .ok (sp, .next)
  | .loadMl => do
    let sp ← pop len sp
    peek len 0 sp
    .ok (← push (← pop len sp), .next)
  | .storeMl => do
    let sp ← popMany len 2 sp
    peek len 0 sp
    .ok (← push (← pop len sp), .next)
  -- what is pushed is the result, or the packet of the exception
  | .fixedArith => do .ok (← push (← popMany len 2 sp), if d.raises then .raise else .next)
  | .fixedDivrem | .wordDivmod => do
    let sp ← popMany len 2 sp
    if d.raises then .error .divByZero else .ok (← push sp, .next)
  | .wordBin | .cmp => do .ok (← push (← popMany len 2 sp), .next)
  -- the result, the closure, the return address and the arguments
  | .ret n => do .ok (← push (← popMany len n (← popMany len 3 sp)), .ret)
  | .callConstAddr callee => match callee with
    | some callee => .ok (sp, .call callee)
    | none => .error .other
  | .callClosure => do .ok (← pop len sp, .callDynamic d.closure)
  | .callLocal depth => do
    peek len depth sp
    .ok (sp, .callDynamic d.closure)
  -- the slots, and the reference to them
  | .stackContainer n => do .ok (← push (← pushMany n sp), .next)
  | .allocTuple n => do
    allocate d
    .ok (← push (← popMany len n sp), .next)
  | .allocClosure n => do
    allocate d
    let sp ← popMany len n sp
    peek len 0 sp
    .ok (← push (← pop len sp), .next)
  | .allocRef => do
    peek len 0 sp
    allocate d
    .ok (← push (← pop len sp), .next)
  | .allocWordMemory => do
    peek len 2 sp
    let sp ← popMany len 2 sp
    allocate d
    .ok (← push (← pop len sp), .next)
  | .allocByteMem => do
    let sp ← pop len sp
    peek len 0 sp
    allocate d
    .ok (← push (← pop len sp), .next)
  | .unsupported => .error .other

end Interpreter

/-! ## Native code -/

/-- The native code of one instruction: the slots it stores to, the stack pointer after it, and where to
go. Nothing is checked but in `STACK_SIZE16`. -/
def Opcode.emit (d : Data) (sp : Int) : Opcode → List Int × Int × Flow
  | .noOp => ([], sp, .next)
  -- the comparison is unsigned
  | .stackSize16 needed =>
    ([], sp, if sp % 2 ^ 64 < needed then .stop .stackOverflow else .next)
  | .pushConst | .peekPush _ | .indirectLocal _ | .isTaggedLocal _ => ([sp - 1], sp - 1, .next)
  | .indirect | .tagTest | .cellIntro => ([sp], sp, .next)
  | .reset n => ([], sp + n, .next)
  | .resetR n => ([sp + n], sp + n, .next)
  | .jump target => ([], sp, .goto target)
  | .condJump target => ([], sp + 1, if d.taken then .goto target else .next)
  | .localJump _ target => ([], sp, if d.taken then .goto target else .next)
  | .setStackVal idx => ([sp + 1 + (idx - 1)], sp + 1, .next)
  | .loadMl => ([sp + 1], sp + 1, .next)
  | .storeMl => ([sp + 2], sp + 2, .next)
  | .fixedArith => if d.raises then ([], sp, .raise) else ([sp + 1], sp + 1, .next)
  | .fixedDivrem | .wordDivmod =>
    if d.raises then ([], sp, .stop .divByZero) else ([sp + 1], sp + 1, .next)
  | .wordBin | .cmp => ([sp + 1], sp + 1, .next)
  | .ret n => ([sp + (n + 2)], sp + (n + 2), .ret)
  | .callConstAddr callee => match callee with
    | some callee => ([], sp, .call callee)
    -- no region has it
    | none => ([], sp, .stop .other)
  | .callClosure => ([], sp + 1, .callDynamic d.closure)
  | .callLocal _ => ([], sp, .callDynamic d.closure)
  | .stackContainer n =>
    ((List.range n).map (fun k : Nat => sp - n + k) ++ [sp - n - 1], sp - n - 1, .next)
  -- an allocation that fails counts as a stack overflow
  | .allocTuple n =>
    if d.exhausted then ([], sp, .stop .stackOverflow) else ([sp + (n - 1)], sp + (n - 1), .next)
  | .allocClosure n =>
    if d.exhausted then ([], sp, .stop .stackOverflow) else ([sp + n], sp + n, .next)
  | .allocRef => if d.exhausted then ([], sp, .stop .stackOverflow) else ([sp], sp, .next)
  | .allocWordMemory =>
    if d.exhausted then ([], sp, .stop .stackOverflow) else ([sp + 2], sp + 2, .next)
  | .allocByteMem =>
    if d.exhausted then ([], sp, .stop .stackOverflow) else ([sp + 1], sp + 1, .next)
  -- no region has it
  | .unsupported => ([], sp, .stop .other)

end Region
