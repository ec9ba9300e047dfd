import PolymlRs.Heap.Bytes
import PolymlRs.Interp.Calls
import PolymlRs.Interp.Opcodes
import PolymlRs.Lib.Fallible
import PolymlRs.Lib.UpTo

set_option autoImplicit false

/-! # Steps and bursts

`step_one` runs an instruction through helpers that read and write the interpreter. `step_burst` has a
second arm for the most frequent instructions: it works on copies of the program counter, the stack pointer
and the bounds of the code, gives up where anything is unusual, and leaves the instruction to `step_one`
then.

There is one thread, nothing is traced, and no native code is registered. What `step_one` does with all
other instructions, with an overflow, in a collection and to check what an untrusted program hands it, is
left open. -/

/-- What stops a step. -/
inductive StepError
  | pcOutOfBounds (offset size : Nat)
  | interp (e : InterpError)
deriving DecidableEq, Repr

/-- The interpreter and what it runs on. -/
structure StepState (R : Type) where
  interp : Interpreter
  mem : Mem
  /-- The address of the stack, which containers are reached by. -/
  stackAt : Nat
  allocSpace : Option MemorySpace
  gcTriggerWords : Nat
  /-- The exit code, once `PolyFinish` was called. -/
  finish : Option Int
  /-- What only other instructions use. -/
  rest : R

abbrev StepRun (R : Type) := Fallible (StepState R) StepError

/-- What is left open. -/
structure StepEnv (R : Type) where
  requestGcCollect : StepState R → StepState R
  raiseOverflow : StepRun R StepResult
  untrustedField : PolyWord → Nat → StepRun R PolyWord
  checkPcConstBounds : Nat → Nat → StepRun R Unit
  untrustedValidateCall : PolyWord → StepRun R Unit
  otherArm : UInt8 → StepRun R StepResult

/-- The instructions that have two arms. -/
inductive FastInstr
  | const (n : Nat)
  | constIntB
  | local (depth : Nat)
  | localB
  | reset1
  | resetR2
  | jump8
  | jumpBack8
  | jump8False
  | jumpNeqLocal
  | setStackValB
  | indirectLocal (field : Nat)
  | fixedAdd
  | fixedSub
  | wordAdd
  | equalWord
  | lessSigned
  | lessEqUnsigned
  | callConstAddr8_0
  | return1
deriving DecidableEq, Repr

def fastInstrs : List (UInt8 × FastInstr) :=
  [(instrConst0, .const 0), (instrConst1, .const 1), (instrConst2, .const 2),
    (instrConstIntB, .constIntB),
    (instrLocal0, .local 0), (instrLocal1, .local 1), (instrLocal2, .local 2), (instrLocal3, .local 3),
    (instrLocal4, .local 4), (instrLocal5, .local 5), (instrLocal6, .local 6), (instrLocal7, .local 7),
    (instrLocalB, .localB), (instrReset1, .reset1), (instrResetR2, .resetR2), (instrJump8, .jump8),
    (instrJumpBack8, .jumpBack8), (instrJump8False, .jump8False), (instrJumpNeqLocal, .jumpNeqLocal),
    (instrSetStackValB, .setStackValB), (instrIndirectLocalB0, .indirectLocal 0),
    (instrIndirectLocalB1, .indirectLocal 1), (instrFixedAdd, .fixedAdd), (instrFixedSub, .fixedSub),
    (instrWordAdd, .wordAdd), (instrEqualWord, .equalWord), (instrLessSigned, .lessSigned),
    (instrLessEqUnsigned, .lessEqUnsigned), (instrCallConstAddr8_0, .callConstAddr8_0),
    (instrReturn1, .return1)]

variable {R : Type}

/-! ## The state -/

namespace StepState

variable (s : StepState R)

/-- The memory and the stack in it. -/
def memory : Mem := fun a =>
  if s.stackAt ≤ a ∧ a < s.stackAt + wordBytes * s.interp.stack.length then
    s.interp.stack.getD ((a - s.stackAt) / wordBytes) PolyWord.zero
  else s.mem a

def slot (i : Nat) : PolyWord := s.interp.stack.getD i PolyWord.zero

def setPc (pc : Nat) : StepState R := { s with interp := { s.interp with pc } }

/-- Write a slot, without moving the stack pointer. -/
def setSlot (i : Nat) (w : PolyWord) : StepState R :=
  { s with interp := { s.interp with stack := s.interp.stack.set i w } }

def gcTriggerMet : Bool :=
  decide (0 < s.gcTriggerWords) && s.allocSpace.any (fun space => decide (s.gcTriggerWords ≤ space.used))

def pcInBounds : Bool :=
  s.interp.codeStart == 0 || decide (s.interp.codeStart ≤ s.interp.pc ∧ s.interp.pc ≤ s.interp.codeEnd)

/-- An `isize` that is cast to `usize`. -/
def pcOffsetForErr : StepError :=
  .pcOutOfBounds (ptrOffset 0 (offsetFrom s.interp.pc s.interp.codeStart))
    (ptrOffset 0 (offsetFrom s.interp.codeEnd s.interp.codeStart))

end StepState

/-! ## Step by step -/

namespace StepRun

open Fallible

def push (w : PolyWord) : StepRun R Unit := make fun s =>
  match s.interp.push w with
  | .error e => (.error (.interp e), s)
  | .ok interp => (.ok (), { s with interp })

def pop : StepRun R PolyWord := make fun s =>
  match s.interp.pop with
  | .error e => (.error (.interp e), s)
  | .ok (w, interp) => (.ok w, { s with interp })

def peek (depth : Nat) : StepRun R PolyWord := make fun s =>
  if s.interp.stack.length ≤ s.interp.sp + depth then (.error (.interp .stackUnderflow), s)
  else (.ok (s.slot (s.interp.sp + depth)), s)

def popMany : Nat → StepRun R Unit
  | 0 => pure ()
  | n + 1 => do
    let _ ← pop
    popMany n

def fetchU8 : StepRun R UInt8 := make fun s =>
  if s.interp.codeEnd ≤ s.interp.pc then (.error s.pcOffsetForErr, s)
  else (.ok (s.memory.byteAt s.interp.pc), s.setPc (s.interp.pc + 1))

def pcOffsetSigned (delta : Int) : StepRun R Unit := make fun s =>
  let s := s.setPc (ptrOffset s.interp.pc delta)
  if s.pcInBounds then (.ok (), s) else (.error s.pcOffsetForErr, s)

def pushContinue (w : PolyWord) : StepRun R StepResult := do
  push w
  pure .continue

def dupLocal (depth : Nat) : StepRun R StepResult := do
  let v ← peek depth
  pushContinue v

/-- Keep the top and drop `n` words below it. -/
def reset (n : Nat) : StepRun R StepResult := make fun s =>
  let newSp := s.interp.sp + n
  if s.interp.stack.length ≤ newSp then (.error (.interp .stackUnderflow), s)
  else
    let stack := s.interp.stack.set newSp (s.slot s.interp.sp)
    (.ok .continue, { s with interp := s.interp.withStack stack newSp })

def dropN (n : Nat) : StepRun R StepResult := make fun s =>
  let newSp := s.interp.sp + n
  if s.interp.stack.length < newSp then (.error (.interp .stackUnderflow), s)
  else (.ok .continue, { s with interp := s.interp.withStack s.interp.stack newSp })

def binOpWord (f : PolyWord → PolyWord → PolyWord) : StepRun R StepResult := do
  let x ← pop
  let y ← pop
  pushContinue (f x y)

def binOpCmp (f : PolyWord → PolyWord → Bool) : StepRun R StepResult := do
  let x ← pop
  let y ← pop
  pushContinue (if f x y then .tagged 1 else .tagged 0)

/-- `fixed_add` and `fixed_sub`. -/
def fixedOp (env : StepEnv R) (f : Int → Int → Int) : StepRun R StepResult := do
  let x ← pop
  let y ← pop
  let t := f x.untag y.untag
  if PolyWord.minTagged ≤ t ∧ t ≤ PolyWord.maxTagged then pushContinue (.tagged t)
  else env.raiseOverflow

/-- Pop a word and write it `idx - 1` words below. -/
def setStackVal (idx : Nat) : StepRun R StepResult := do
  let u ← pop
  if idx = 0 then throw (.interp .stackUnderflow)
  else make fun s =>
    let target := s.interp.sp + (idx - 1)
    if target < s.interp.stack.length then (.ok .continue, s.setSlot target u)
    else (.error (.interp .stackUnderflow), s)

def jumpNeqLocal (depth want off : Nat) : StepRun R StepResult := do
  let u ← peek depth
  if u.isTagged ∧ u.untag = want then pure .continue
  else
    pcOffsetSigned off
    pure .continue

def heapRead (p : Nat) : StepRun R PolyWord := look (fun s => s.memory.readUnaligned p)

def indirectLocal (env : StepEnv R) (depth field : Nat) : StepRun R StepResult := do
  let u ← peek depth
  if ← look (fun s => s.interp.untrusted) then
    let val ← env.untrustedField u field
    pushContinue val
  else
    let val ← heapRead (u.addr + wordBytes * field)
    pushContinue val

def readPcConst (env : StepEnv R) (byteOff idx : Nat) : StepRun R PolyWord := do
  if ← look (fun s => s.interp.untrusted) then env.checkPcConstBounds byteOff idx
  look (fun s => s.memory.readUnaligned (s.interp.pc + byteOff + wordBytes * idx))

def doCall (env : StepEnv R) (closure : PolyWord) : StepRun R Unit := do
  if ← look (fun s => s.interp.untrusted) then env.untrustedValidateCall closure
  if !closure.isDataPtr || closure.addr % 8 != 0 then throw (.interp (.notAClosure closure))
  let retPc ← look (fun s => PolyWord.fromAddr s.interp.pc)
  push retPc
  push closure
  let codeWord ← look (fun s => s.memory closure.addr)
  -- an exception packet that is called by mistake
  if codeWord = closure then throw (.interp (.notAClosure closure))
  change fun s =>
    { s with interp := (s.interp.pushFrame.recordCall codeWord.addr).enter s.memory codeWord.addr }

def popFrame (retPc : Nat) : StepRun R StepResult := make fun s =>
  match s.interp.frames.getLast? with
  | none => (.error (.interp .stackUnderflow), s)
  | some (callerStart, callerEnd) =>
    (.ok .continue, { s with interp := s.interp.resume s.interp.frames.dropLast callerStart callerEnd retPc })

def doReturn (returnCount : Nat) : StepRun R StepResult := do
  let result ← pop
  let _ ← pop
  let retPc ← pop
  popMany returnCount
  push result
  if retPc = PolyWord.zero then
    let result ← pop
    pure (.returned result)
  else popFrame retPc.addr

/-- The arms of `step_one` for the instructions that have two. -/
def arm (env : StepEnv R) : FastInstr → StepRun R StepResult
  | .const n => pushContinue (.tagged n)
  | .constIntB => do
    let n ← fetchU8
    pushContinue (.tagged n.toNat)
  | .local depth => dupLocal depth
  | .localB => do
    let n ← fetchU8
    dupLocal n.toNat
  | .reset1 => dropN 1
  | .resetR2 => reset 2
  | .jump8 => do
    let off ← fetchU8
    pcOffsetSigned off.toNat
    pure .continue
  | .jumpBack8 => do
    let off ← fetchU8
    pcOffsetSigned (-(off.toNat + 2))
    pure .continue
  | .jump8False => do
    let off ← fetchU8
    let v ← pop
    if v = .tagged 0 then
      pcOffsetSigned off.toNat
    pure .continue
  | .jumpNeqLocal => do
    let depth ← fetchU8
    let want ← fetchU8
    let off ← fetchU8
    jumpNeqLocal depth.toNat want.toNat off.toNat
  | .setStackValB => do
    let idx ← fetchU8
    setStackVal idx.toNat
  | .indirectLocal field => do
    let depth ← fetchU8
    indirectLocal env depth.toNat field
  | .fixedAdd => fixedOp env (fun x y => x + y)
  | .fixedSub => fixedOp env (fun x y => y - x)
  | .wordAdd => binOpWord (fun x y => y + x - .tagged 0)
  | .equalWord => binOpCmp (fun x y => x == y)
  | .lessSigned => binOpCmp (fun x y => y.slt x)
  | .lessEqUnsigned => binOpCmp (fun x y => y.ule x)
  | .callConstAddr8_0 => do
    let imm ← fetchU8
    let closure ← readPcConst env imm.toNat 3
    doCall env closure
    pure .continue
  | .return1 => doReturn 1

/-- The collection that is due before an instruction. -/
def collectIfDue (env : StepEnv R) : StepRun R Unit :=
  change fun s => if s.gcTriggerMet then env.requestGcCollect s else s

def execute (env : StepEnv R) (op : UInt8) : StepRun R StepResult :=
  match fastInstrs.lookup op with
  | some i => arm env i
  | none => env.otherArm op

def stepOne (env : StepEnv R) : StepRun R StepResult := do
  match ← look (fun s => s.finish) with
  | some code =>
    change fun s => { s with finish := none }
    pure (.returned (.tagged code))
  | none =>
    collectIfDue env
    let op ← fetchU8
    execute env op

end StepRun

/-! ## In bursts -/

/-- The copies that the fast tier works on. -/
structure Locals where
  pc : Nat
  sp : Nat
  codeStart : Nat
  codeEnd : Nat
deriving DecidableEq, Repr

namespace StepState

variable (s : StepState R)

def locals : Locals := ⟨s.interp.pc, s.interp.sp, s.interp.codeStart, s.interp.codeEnd⟩

/-- The copies are written back. -/
def commit (l : Locals) : StepState R := { s with interp := { s.interp with pc := l.pc, sp := l.sp } }

/-- The byte `k` behind the opcode. -/
def operand (l : Locals) (k : Nat) : Nat := (s.memory.byteAt (l.pc + k)).toNat

end StepState

/-- What the fast tier does with an instruction. -/
inductive TierStep (R : Type)
  | abandon
  | next (l : Locals) (s : StepState R)
  /-- The instruction is done, and the bounds of the code are not known any more. -/
  | stop (s : StepState R)
  /-- The burst ends with it. -/
  | leave (r : Except StepError StepResult) (s : StepState R)

namespace TierStep

/-- Go on at `pc` in the same code object. -/
def jumpTo (l : Locals) (s : StepState R) (pc : Nat) : TierStep R :=
  if pc < l.codeStart ∨ l.codeEnd ≤ pc then .abandon else .next { l with pc } s

/-- The arms that pop two words and push one. -/
def binary (l : Locals) (s : StepState R) (f : PolyWord → PolyWord → Option PolyWord) : TierStep R :=
  if s.interp.stack.length ≤ l.sp + 1 then .abandon
  else match f (s.slot l.sp) (s.slot (l.sp + 1)) with
  | none => .abandon
  | some w => .next { l with pc := l.pc + 1, sp := l.sp + 1 } (s.setSlot (l.sp + 1) w)

/-- The helpers of `step_one` on the interpreter itself, which the copies are read from again. -/
def frontier (l : Locals) (s : StepState R) (run : StepRun R StepResult) : TierStep R :=
  match run.exec (s.commit l) with
  | (.ok .continue, s) => if s.interp.codeStart = 0 then .stop s else .next s.locals s
  | (r, s) => .leave r s

def fixed (t : Int) : Option PolyWord :=
  if t < PolyWord.minTagged ∨ PolyWord.maxTagged < t then none else some (.tagged t)

def compare (b : Bool) : Option PolyWord := some (.tagged (if b then 1 else 0))

/-- The arms of the fast tier. -/
def arm (env : StepEnv R) (l : Locals) (s : StepState R) : FastInstr → TierStep R
  | .const n =>
    if l.sp = 0 then .abandon
    else .next { l with pc := l.pc + 1, sp := l.sp - 1 } (s.setSlot (l.sp - 1) (.tagged n))
  | .constIntB =>
    if l.codeEnd ≤ l.pc + 1 ∨ l.sp = 0 then .abandon
    else .next { l with pc := l.pc + 2, sp := l.sp - 1 } (s.setSlot (l.sp - 1) (.tagged (s.operand l 1)))
  | .local depth =>
    let idx := l.sp + depth
    if s.interp.stack.length ≤ idx ∨ l.sp = 0 then .abandon
    else .next { l with pc := l.pc + 1, sp := l.sp - 1 } (s.setSlot (l.sp - 1) (s.slot idx))
  | .localB =>
    if l.codeEnd ≤ l.pc + 1 ∨ l.sp = 0 then .abandon
    else
      let idx := l.sp + s.operand l 1
      if s.interp.stack.length ≤ idx then .abandon
      else .next { l with pc := l.pc + 2, sp := l.sp - 1 } (s.setSlot (l.sp - 1) (s.slot idx))
  | .reset1 =>
    if s.interp.stack.length < l.sp + 1 then .abandon
    else .next { l with pc := l.pc + 1, sp := l.sp + 1 } s
  | .resetR2 =>
    let newSp := l.sp + 2
    if s.interp.stack.length ≤ newSp then .abandon
    else .next { l with pc := l.pc + 1, sp := newSp } (s.setSlot newSp (s.slot l.sp))
  | .jump8 =>
    if l.codeEnd ≤ l.pc + 1 then .abandon else jumpTo l s (ptrOffset l.pc (2 + s.operand l 1))
  | .jumpBack8 =>
    if l.codeEnd ≤ l.pc + 1 then .abandon else jumpTo l s (ptrOffset l.pc (-(s.operand l 1)))
  | .jump8False =>
    if l.codeEnd ≤ l.pc + 1 ∨ s.interp.stack.length ≤ l.sp then .abandon
    else if s.slot l.sp = .tagged 0 then
      jumpTo { l with sp := l.sp + 1 } s (ptrOffset l.pc (2 + s.operand l 1))
    else .next { l with pc := l.pc + 2, sp := l.sp + 1 } s
  | .jumpNeqLocal =>
    if l.codeEnd ≤ l.pc + 3 then .abandon
    else
      let idx := l.sp + s.operand l 1
      if s.interp.stack.length ≤ idx then .abandon
      else if (s.slot idx).isTagged ∧ (s.slot idx).untag = s.operand l 2 then
        .next { l with pc := l.pc + 4 } s
      else jumpTo l s (ptrOffset l.pc (4 + s.operand l 3))
  | .setStackValB =>
    if l.codeEnd ≤ l.pc + 1 ∨ s.interp.stack.length ≤ l.sp then .abandon
    else
      let idx := s.operand l 1
      if idx = 0 then .abandon
      else
        let target := l.sp + 1 + (idx - 1)
        if s.interp.stack.length ≤ target then .abandon
        else .next { l with pc := l.pc + 2, sp := l.sp + 1 } (s.setSlot target (s.slot l.sp))
  | .indirectLocal field =>
    if l.codeEnd ≤ l.pc + 1 ∨ l.sp = 0 then .abandon
    else
      let idx := l.sp + s.operand l 1
      if s.interp.stack.length ≤ idx then .abandon
      else if (s.slot idx).isTagged then .abandon
      else
        let val := s.memory.readUnaligned ((s.slot idx).addr + wordBytes * field)
        .next { l with pc := l.pc + 2, sp := l.sp - 1 } (s.setSlot (l.sp - 1) val)
  | .fixedAdd => binary l s (fun x y => fixed (x.untag + y.untag))
  | .fixedSub => binary l s (fun x y => fixed (y.untag - x.untag))
  | .wordAdd => binary l s (fun x y => some (y + x - .tagged 0))
  | .equalWord => binary l s (fun x y => compare (x == y))
  | .lessSigned => binary l s (fun x y => compare (y.slt x))
  | .lessEqUnsigned => binary l s (fun x y => compare (y.ule x))
  | .callConstAddr8_0 =>
    if l.codeEnd ≤ l.pc + 1 then .abandon
    else
      frontier { l with pc := l.pc + 2 } s do
        let closure ← StepRun.readPcConst env (s.operand l 1) 3
        StepRun.doCall env closure
        pure .continue
  | .return1 => frontier { l with pc := l.pc + 1 } s (StepRun.doReturn 1)

end TierStep

/-- One instruction of the fast tier. -/
def tierStep (env : StepEnv R) (l : Locals) (s : StepState R) : TierStep R :=
  if l.codeEnd ≤ l.pc then .abandon
  else match fastInstrs.lookup (s.memory.byteAt l.pc) with
  | none => .abandon
  | some i => .arm env l s i

/-- The fast tier, with `n` steps left: how many it takes, whether the burst ends there, and the state that
    it leaves. -/
def tier (env : StepEnv R) : Nat → Locals → StepState R →
    Nat × Option (Except StepError StepResult) × StepState R
  | 0, l, s => (0, none, s.commit l)
  | n + 1, l, s =>
    match tierStep env l s with
    | .abandon => (0, none, s.commit l)
    | .next l s => ((tier env n l s).1 + 1, (tier env n l s).2)
    | .stop s => (1, none, s)
    | .leave r s => (1, some r, s)

/-- Nothing is to be done but instructions, and nothing is to be checked. -/
def StepState.Quiet (s : StepState R) : Prop :=
  s.interp.untrusted = false ∧ s.finish = none ∧ s.gcTriggerMet = false

/-- What lets the fast tier run. -/
def StepState.Fast (s : StepState R) : Prop := s.Quiet ∧ s.interp.codeStart ≠ 0

instance (s : StepState R) : Decidable s.Quiet := inferInstanceAs (Decidable (_ ∧ _ ∧ _))

instance (s : StepState R) : Decidable s.Fast := inferInstanceAs (Decidable (_ ∧ _))

/-- The fast tier, or nothing. -/
def fastTier (env : StepEnv R) (quota : Nat) (s : StepState R) :
    Nat × Option (Except StepError StepResult) × StepState R :=
  if s.Fast then tier env quota s.locals s else (0, none, s)

/-- The outcome that stops a burst. -/
def outcome : Except StepError StepResult → Option (Except StepError StepResult)
  | .ok .continue => none
  | r => some r

/-- One call of `step_one`. -/
def generalStep (env : StepEnv R) (s : StepState R) : Option (Except StepError StepResult) × StepState R :=
  let (r, t) := (StepRun.stepOne env).exec s
  (outcome r, t)

/-- A burst of at most `quota` steps: how many were counted, and what it ends with, if not `Continue`. -/
def stepBurst (env : StepEnv R) (quota : Nat) (s : StepState R) :
    Nat × Option (Except StepError StepResult) × StepState R :=
  if quota = 0 then (0, none, s)
  else match fastTier env quota s with
    | (done, some r, s) => (done, some r, s)
    | (done, none, s) =>
      if quota ≤ done then (done, none, s)
      else match generalStep env s with
      | (some r, s) => (done + 1, some r, s)
      | (none, s) =>
        let later := stepBurst env (quota - (done + 1)) s
        (done + 1 + later.1, later.2)
termination_by quota
decreasing_by omega
