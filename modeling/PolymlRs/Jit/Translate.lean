import PolymlRs.Jit.Scan
import PolymlRs.Lib.Emit

set_option autoImplicit false

/-! # The translator's second pass

The second pass walks over the bytecode once, from its first byte to its last, and keeps the operand stack
as a list of the values that the emitted code has at that place. At a place that has a block it hands the
stack to the block and goes on with the block's parameters; behind the end of a block it steps over the
instructions until the next block starts. Stacks are written with the top first. -/

/-! ## The emitted instructions -/

/-- A condition of `icmp`. -/
inductive IntCC
  | equal
  | signedLessThan
  | unsignedLessThan
  | signedLessThanOrEqual
  | unsignedLessThanOrEqual
  | signedGreaterThan
  | unsignedGreaterThan
  | signedGreaterThanOrEqual
  | unsignedGreaterThanOrEqual

inductive IrBinary
  | iadd
  | isub
  | imul
  | udiv
  | urem
  | sdiv
  | srem
  | band
  | bor
  | bxor
  | ishl
  | ushr

/-- A call of a trampoline. The words that are spilled to a buffer for it are listed as they lie there, and
    their number goes with them. -/
inductive Trampoline (V : Type)
  | rts (stub : V) (args : List V)
  | closureCall (closure : V) (args : List V)
  | dynamicCall (closure : V) (spill : List V)
  | allocTuple (values : List V)
  | allocClosure (captures : List V) (src : V)
  | allocByteMem (nWords flags : V)
  | allocMutClosure (n src : V)
  | block (op : BlockKind) (p1 off1 p2 off2 length : V)
  | getThreadId

/-- The instructions that give a value. -/
inductive Ins (V : Type)
  | iconst (n : PolyWord)
  | binary (op : IrBinary) (a b : V)
  | iaddImm (a : V) (n : Int)
  | ishlImm (a : V) (n : Nat)
  | ushrImm (a : V) (n : Nat)
  | sshrImm (a : V) (n : Nat)
  | icmp (cc : IntCC) (a b : V)
  | uextend (a : V)
  | select (cond a b : V)
  | load (base : V) (off : Int)
  | load8 (addr : V)
  /-- The address of a slot on the native stack, of `n` words that are set to `init`. Each instruction at a
      place `id` of the body that makes a container has a slot of its own. -/
  | stackSlot (id n : Nat) (init : V)
  | call (f : Trampoline V)

/-- The instructions that do not. -/
inductive Eff (V : Type)
  | store (value addr : V) (off : Int)
  | istore8 (value addr : V)
  /-- The loop that sets the first `length` words at `body`. -/
  | fill (body length init : V)

abbrev Ir (V α : Type) := Emit Ins Eff TranslateError V α

/-- Where the second pass stands, and whether the block it was in has ended. -/
structure Walk (V : Type) where
  pc : Nat
  stack : List V
  returned : Bool

namespace Ir

variable {V : Type}

def value (i : Ins V) : Ir V V := .ins i .done

def effect (i : Eff V) : Ir V Unit := .eff i (.done ())

abbrev iconst (n : PolyWord) : Ir V V := value (.iconst n)
abbrev iadd (a b : V) : Ir V V := value (.binary .iadd a b)
abbrev isub (a b : V) : Ir V V := value (.binary .isub a b)
abbrev imul (a b : V) : Ir V V := value (.binary .imul a b)
abbrev udiv (a b : V) : Ir V V := value (.binary .udiv a b)
abbrev urem (a b : V) : Ir V V := value (.binary .urem a b)
abbrev sdiv (a b : V) : Ir V V := value (.binary .sdiv a b)
abbrev srem (a b : V) : Ir V V := value (.binary .srem a b)
abbrev band (a b : V) : Ir V V := value (.binary .band a b)
abbrev bor (a b : V) : Ir V V := value (.binary .bor a b)
abbrev bxor (a b : V) : Ir V V := value (.binary .bxor a b)
abbrev ishl (a b : V) : Ir V V := value (.binary .ishl a b)
abbrev ushr (a b : V) : Ir V V := value (.binary .ushr a b)
abbrev iaddImm (a : V) (n : Int) : Ir V V := value (.iaddImm a n)
abbrev ishlImm (a : V) (n : Nat) : Ir V V := value (.ishlImm a n)
abbrev ushrImm (a : V) (n : Nat) : Ir V V := value (.ushrImm a n)
abbrev sshrImm (a : V) (n : Nat) : Ir V V := value (.sshrImm a n)
abbrev icmp (cc : IntCC) (a b : V) : Ir V V := value (.icmp cc a b)
abbrev uextend (a : V) : Ir V V := value (.uextend a)
abbrev select (cond a b : V) : Ir V V := value (.select cond a b)
abbrev load (base : V) (off : Int) : Ir V V := value (.load base off)
abbrev load8 (addr : V) : Ir V V := value (.load8 addr)
abbrev stackSlot (id n : Nat) (init : V) : Ir V V := value (.stackSlot id n init)
abbrev call (f : Trampoline V) : Ir V V := value (.call f)
abbrev store (v addr : V) (off : Int) : Ir V Unit := effect (.store v addr off)
abbrev istore8 (v addr : V) : Ir V Unit := effect (.istore8 v addr)
abbrev fill (body length init : V) : Ir V Unit := effect (.fill body length init)

/-! ## Values -/

/-- A small integer as a word. -/
def tag (n : Int) : PolyWord := BitVec.ofInt 64 (n * 2 + 1)

/-- `(v << 1) + 1`. -/
def retagAdd (v : V) : Ir V V := do
  let doubled ← ishlImm v 1
  let one ← iconst 1#64
  iadd doubled one

/-- `(v << 1) | 1`. -/
def retagOr (v : V) : Ir V V := do
  let shifted ← ishlImm v 1
  let one ← iconst 1#64
  bor shifted one

/-- The low bit of `v`, tagged. -/
def lowBit (v : V) : Ir V V := do
  let one ← iconst 1#64
  let lsb ← band v one
  let doubled ← ishlImm lsb 1
  iadd doubled one

/-- The address of the word with a tagged index. -/
def indexWord (base indexTag : V) : Ir V V := do
  let index ← sshrImm indexTag 1
  let eight ← iconst 8#64
  let off ← imul index eight
  iadd base off

/-- `x CC y`, tagged. -/
def compare (cc : IntCC) (x y : V) : Ir V V := do
  let cmp ← icmp cc x y
  let cmp64 ← uextend cmp
  retagAdd cmp64

/-- `WORD_DIV` and `WORD_MOD`: a zero divisor gives zero. -/
def guardedDivide (divide : V → V → Ir V V) (x y : V) : Ir V V := do
  let xn ← ushrImm x 1
  let yn ← ushrImm y 1
  let zero ← iconst 0#64
  let isZero ← icmp .equal xn zero
  let oneConst ← iconst 1#64
  let safeX ← select isZero oneConst xn
  let q ← divide yn safeX
  let qOrZero ← select isZero zero q
  let shifted ← ishlImm qOrZero 1
  bor shifted oneConst

/-- `WORD_SHIFT_LEFT` and `WORD_SHIFT_R_LOG`. -/
def shiftBy (shift : V → V → Ir V V) (x y : V) : Ir V V := do
  let one ← iconst 1#64
  let mask63 ← iconst 63#64
  let sUnt ← sshrImm x 1
  let sLim ← band sUnt mask63
  let vUnt ← ushrImm y 1
  let shifted ← shift vUnt sLim
  let retagged ← ishlImm shifted 1
  bor retagged one

/-- The result of `op` on the top word `x` and the word `y` below it. -/
def binary (op : BinaryOp) (x y : V) : Ir V V :=
  match op with
  | .fixedAdd => do
      let sum ← iadd x y
      let one ← iconst 1#64
      isub sum one
  | .fixedSub => do
      let diff ← isub y x
      let one ← iconst 1#64
      iadd diff one
  | .fixedMult => do
      let one ← iconst 1#64
      let xMinus1 ← isub x one
      let xn ← sshrImm xMinus1 1
      let yMinus1 ← isub y one
      let yn ← sshrImm yMinus1 1
      let prod ← imul xn yn
      let doubled ← ishlImm prod 1
      iadd doubled one
  | .fixedQuot => do
      let xn ← sshrImm x 1
      let yn ← sshrImm y 1
      let resultN ← sdiv yn xn
      retagAdd resultN
  | .fixedRem => do
      let xn ← sshrImm x 1
      let yn ← sshrImm y 1
      let resultN ← srem yn xn
      retagAdd resultN
  | .wordAdd => do
      let sum ← iadd y x
      let one ← iconst 1#64
      isub sum one
  | .wordSub => do
      let diff ← isub y x
      let one ← iconst 1#64
      iadd diff one
  | .wordMult => do
      let xs ← sshrImm x 1
      let ys ← sshrImm y 1
      let prod ← imul xs ys
      retagOr prod
  | .wordDiv => guardedDivide udiv x y
  | .wordMod => guardedDivide urem x y
  | .wordAnd => band y x
  | .wordOr => bor y x
  | .wordXor => do
      let xor ← bxor y x
      let one ← iconst 1#64
      bor xor one
  | .wordShiftLeft => shiftBy ishl x y
  | .wordShiftRLog => shiftBy ushr x y
  | .equalWord => compare .equal x y
  | .lessSigned => compare .signedLessThan y x
  | .lessUnsigned => compare .unsignedLessThan y x
  | .lessEqSigned => compare .signedLessThanOrEqual y x
  | .lessEqUnsigned => compare .unsignedLessThanOrEqual y x
  | .greaterSigned => compare .signedGreaterThan y x
  | .greaterUnsigned => compare .unsignedGreaterThan y x
  | .greaterEqSigned => compare .signedGreaterThanOrEqual y x
  | .greaterEqUnsigned => compare .unsignedGreaterThanOrEqual y x

/-- What `LOAD_*` puts in the place of `base`. -/
def loadIndexed (kind : LoadKind) (indexTag base : V) : Ir V V :=
  match kind with
  | .untagged => do
      let addr ← indexWord base indexTag
      let val ← load addr 0
      retagAdd val
  | .mlByte => do
      let index ← sshrImm indexTag 1
      let addr ← iadd base index
      let b ← load8 addr
      let b64 ← uextend b
      retagOr b64
  | .mlWord => do
      let addr ← indexWord base indexTag
      load addr 0

def storeIndexed (kind : StoreKind) (toStore indexTag base : V) : Ir V Unit :=
  match kind with
  | .untagged => do
      let raw ← sshrImm toStore 1
      let addr ← indexWord base indexTag
      store raw addr 0
  | .mlByte => do
      let index ← sshrImm indexTag 1
      let addr ← iadd base index
      let valU8 ← sshrImm toStore 1
      istore8 valU8 addr
  | .mlWord => do
      let addr ← indexWord base indexTag
      store toStore addr 0

/-- Take the mutable bit out of the length word of the object at `ptr`. -/
def clearMutableBit (ptr : V) : Ir V Unit := do
  let lwAddr ← iaddImm ptr (-8)
  let lw ← load lwAddr 0
  let mask ← iconst (~~~(0x40#64 <<< 56))
  let newLw ← band lw mask
  store newLw lwAddr 0

/-- The result of a block operation on what lies below the top: `p1`, `off1`, `p2`, `off2`, `length`. -/
def blockCall (op : BlockKind) (p1 off1Tag p2 off2Tag lengthTag : V) : Ir V V := do
  let length ← sshrImm lengthTag 1
  let off2 ← sshrImm off2Tag 1
  let off1 ← sshrImm off1Tag 1
  let r ← call (.block op p1 off1 p2 off2 length)
  match op with
  | .moveWord | .moveByte => iconst (tag 0)
  | .equalByte | .compareByte => pure r

end Ir

/-! ## One instruction -/

open Ir

/-- `CALL_CLOSURE` stands before a return. -/
def directTail (bytecode : List UInt8) (pc : Nat) : Bool :=
  let nextOp := bytecode.getD pc 0
  nextOp == instrReturn1 || nextOp == instrReturn2 || nextOp == instrReturn3 || nextOp == instrReturnB ||
    nextOp == instrReturnW

/-- `CALL_CLOSURE` stands before `LOCAL_0; RESET_R_1; RETURN_1`. -/
def cleanupTail (bytecode : List UInt8) (pc : Nat) : Bool :=
  bytecode[pc]? == some 0x29 && bytecode[pc + 1]? == some 0x64 && bytecode[pc + 2]? == some 0x42

namespace CompileInput

variable {V : Type} (c : CompileInput) (blockAt : Nat → Option Nat)

/-- The edge to the block at `pc`, which should be registered. -/
def toBlock (pc : Nat) (args : List V) : Ir V (Edge V) :=
  match blockAt pc with
  | some _ => .done ⟨pc, args⟩
  | none => .panic

def case16Edge (tableStart : Nat) (args : List V) (i : Nat) : Ir V (Edge V) :=
  let entryPos := tableStart + i * 2
  if entryPos + 1 ≥ c.bytecode.length then .fail (.truncated entryPos)
  else toBlock blockAt (tableStart + readU16Le c.bytecode entryPos) args

/-- The body of the loop, for the instruction `i` that was read between `opPc` and `pc`. -/
def translateInstr (i : Instruction) (opPc pc : Nat) (stack : List V) : Ir V (Walk V) :=
  let go (stack : List V) : Ir V (Walk V) := .done ⟨pc, stack, false⟩
  let leave (t : Terminator V) (pc : Nat) (stack : List V) : Ir V (Walk V) :=
    .leave t (.done ⟨pc, stack, true⟩)
  let underflow : Ir V (Walk V) := .fail (.underflow opPc)
  -- push a value that is made from the slot `d` below the top
  let push (d : Nat) (f : V → Ir V V) : Ir V (Walk V) :=
    match stack[d]? with
    | none => underflow
    | some v => do
      let r ← f v
      go (r :: stack)
  -- put a value in the place of the top
  let replace (f : V → Ir V V) : Ir V (Walk V) :=
    match stack with
    | [] => underflow
    | v :: rest => do
      let r ← f v
      go (r :: rest)
  let branch (cond : V) (thenPc elsePc : Nat) (args : List V) : Ir V (Walk V) := do
    let thenEdge ← toBlock blockAt thenPc args
    let elseEdge ← toBlock blockAt elsePc args
    leave (.brif cond thenEdge elseEdge) pc args
  match i with
  | .const n => do
      let v ← iconst (tag n)
      go (v :: stack)
  | .localAt d => push d pure
  | .indirectLocal d slot => push d (fun base => load base (slot * 8))
  | .indirectClosure d slot => push d (fun base => load base ((1 + slot) * 8))
  | .isTaggedLocal d => push d lowBit
  | .noOp => go stack
  | .reset n => if stack.length < n then underflow else go (stack.drop n)
  | .resetR n =>
      if stack.length < n + 1 then .fail (.underflow (pc - 1)) else go (stack.take 1 ++ stack.drop (n + 1))
  | .tuple n =>
      if stack.length < n then .fail (.underflow (pc - 1))
      else do
        let r ← call (.allocTuple (stack.take n).reverse)
        go (r :: stack.drop n)
  | .callClosure =>
      let direct := directTail c.bytecode pc
      let cleanup := cleanupTail c.bytecode pc
      if !direct && !cleanup then .fail (.unsupported instrCallClosure opPc)
      else match stack with
      | [] => underflow
      | closure :: rest => do
        let r ← call (.dynamicCall closure rest.reverse)
        if cleanup then leave (.ret r) (pc + 3) rest else go [r]
  | .callLocal n =>
      match stack.drop n with
      | [] => underflow
      | closure :: rest => do
        let r ← call (.closureCall closure (stack.take n))
        go (r :: closure :: rest)
  | .callFastRts n =>
      match stack with
      | [] => underflow
      | stub :: rest =>
        if rest.length < n then underflow
        else do
          let r ← call (.rts stub (rest.take n))
          go (r :: rest.drop n)
  | .constAddr op off idx =>
      if readAt pc off idx + 8 > c.fullBody.length then .fail (.unsupported op pc)
      else do
        let base ← iconst (.ofNat 64 (c.codeStart + readAt pc off idx))
        let val ← load base 0
        go (val :: stack)
  | .callConstAddr op off idx =>
      if readAt pc off idx + 8 > c.fullBody.length then .fail (.unsupported op pc)
      else match closureArityFromAddr c.heap (c.constClosure (readAt pc off idx)) with
      | none => .fail (.unsupported op (pc - 2))
      | some n =>
        if stack.length < n then .fail (.underflow (pc - 2))
        else do
          let base ← iconst (.ofNat 64 (c.codeStart + readAt pc off idx))
          let closure ← load base 0
          let r ← call (.closureCall closure (stack.take n))
          go (r :: stack.drop n)
  | .indirect field => replace (fun base => load base (field * 8))
  | .load kind =>
      match stack with
      | indexTag :: base :: rest => do
        let r ← loadIndexed kind indexTag base
        go (r :: rest)
      | _ => underflow
  | .store kind =>
      match stack with
      | toStore :: indexTag :: base :: rest => do
        storeIndexed kind toStore indexTag base
        let tag0 ← iconst (tag 0)
        go (tag0 :: rest)
      | _ => underflow
  | .pushHandler => do
      let zero ← iconst 0#64
      go (zero :: stack)
  | .stackContainer n => do
      let tag0 ← iconst (tag 0)
      let ptr ← stackSlot opPc n tag0
      go (ptr :: List.replicate n tag0 ++ stack)
  | .moveToContainer k =>
      match stack with
      | v :: ptr :: rest => do
        store v ptr (k * 8)
        go (ptr :: rest)
      | _ => underflow
  | .indirectContainer k => replace (fun ptr => load ptr (k * 8))
  | .lock => replace (fun ptr => do
      clearMutableBit ptr
      pure ptr)
  | .clearMutable => replace (fun ptr => do
      clearMutableBit ptr
      iconst (tag 0))
  | .getThreadId => do
      let r ← call .getThreadId
      go (r :: stack)
  | .ldexc => do
      let zero ← iconst (tag 0)
      go (zero :: stack)
  | .allocMutClosure n => replace (fun src => do
      let nV ← iconst (.ofNat 64 n)
      call (.allocMutClosure nV src))
  | .moveToMutClosure slot =>
      match stack with
      | v :: target :: rest => do
        store v target ((slot + 1) * 8)
        go (target :: rest)
      | _ => underflow
  | .block op =>
      match stack with
      | lengthTag :: off2Tag :: p2 :: off1Tag :: p1 :: rest => do
        let r ← blockCall op p1 off1Tag p2 off2Tag lengthTag
        go (r :: rest)
      | _ => underflow
  | .jumpTaggedLocal d off =>
      match stack[d]? with
      | none => underflow
      | some v => do
        let one ← iconst 1#64
        let lsb ← band v one
        branch lsb (pc + off) pc stack
  | .jumpNeqLocal ind d want off =>
      match stack[d]? with
      | none => underflow
      | some localV => do
        let v ← if ind then load localV 0 else pure localV
        let wantTagged ← iconst (tag want.toInt8.toInt)
        let eq ← icmp .equal v wantTagged
        branch eq pc (pc + off) stack
  | .binary op =>
      match stack with
      | x :: y :: rest => do
        let r ← Ir.binary op x y
        go (r :: rest)
      | _ => underflow
  | .setStackVal idx =>
      if idx = 0 then underflow
      else match stack with
      | [] => underflow
      | v :: rest => if idx - 1 ≥ rest.length then underflow else go (rest.set (idx - 1) v)
  | .ret _ =>
      match stack with
      | [] => underflow
      | v :: rest => leave (.ret v) pc rest
  | .raiseEx =>
      match stack with
      | [] => underflow
      | _ :: rest => do
        let zero ← iconst (tag 0)
        leave (.ret zero) pc rest
  | .setHandler _ => do
      let zero ← iconst (tag 0)
      go (zero :: stack)
  | .deleteHandler =>
      match stack with
      | [] => underflow
      | _ :: rest => go rest
  | .allocByteMem =>
      match stack with
      | flags :: length :: rest => do
        let lengthU ← sshrImm length 1
        let flagsU ← sshrImm flags 1
        let r ← call (.allocByteMem lengthU flagsU)
        go (r :: rest)
      | _ => underflow
  | .allocWordMemory =>
      match stack with
      | init :: flags :: length :: rest => do
        let lengthU ← sshrImm length 1
        let flagsU ← sshrImm flags 1
        let r ← call (.allocByteMem lengthU flagsU)
        fill r lengthU init
        go (r :: rest)
      | _ => underflow
  | .closure n =>
      match stack.drop n with
      | [] => underflow
      | src :: rest => do
        let r ← call (.allocClosure (stack.take n).reverse src)
        go (r :: rest)
  | .cellLength => replace (fun p => do
      let lw ← load p (-8)
      let mask ← iconst 0x00ffffffffffffff#64
      let len ← band lw mask
      retagOr len)
  | .cellFlags => replace (fun p => do
      let lw ← load p (-8)
      let flags ← ushrImm lw 56
      retagOr flags)
  | .notBoolean => replace (fun v => do
      let tag0 ← iconst (tag 0)
      let tag1 ← iconst (tag 1)
      let isFalse ← icmp .equal v tag0
      select isFalse tag1 tag0)
  | .isTagged => replace lowBit
  | .allocRef => replace (fun init => call (.allocTuple [init]))
  | .tail tailCount _ =>
      if tailCount < 2 then .fail (.unsupported instrTailBB pc)
      else if stack.length < tailCount then .fail (.underflow pc)
      else match stack with
      -- the placeholder for the return address is dropped
      | _ :: closure :: rest => do
        let r ← call (.closureCall closure (rest.take (tailCount - 2)))
        leave (.ret r) pc (rest.drop (tailCount - 2))
      | _ => .panic
  | .jump off => do
      let target ← toBlock blockAt (pc + off) stack
      leave (.jump target) pc stack
  | .jumpBack _ off immBytes =>
      -- a target before the body has no block
      if pc < off + 1 + immBytes then .panic
      else do
        let target ← toBlock blockAt (pc - off - 1 - immBytes) stack
        leave (.jump target) pc stack
  | .jumpCond onFalse off =>
      match stack with
      | [] => .fail (.underflow (pc - 2))
      | cond :: rest => do
        let zero ← iconst (tag 0)
        let isZero ← icmp .equal cond zero
        if onFalse then branch isZero (pc + off) pc rest else branch isZero pc (pc + off) rest
  | .case16 arg1 =>
      match stack with
      | [] => underflow
      | selector :: rest => do
        let untagged ← sshrImm selector 1
        let default ← toBlock blockAt (pc + arg1 * 2) rest
        let cases ← (List.range arg1).mapM (c.case16Edge blockAt pc rest)
        let arg1V ← iconst (.ofNat 64 arg1)
        let oob ← icmp .unsignedGreaterThanOrEqual untagged arg1V
        leave (.brTable oob untagged default cases) (pc + arg1 * 2) rest

def translateOne (opPc : Nat) (stack : List V) : Ir V (Walk V) :=
  match fetchInstr c.bytecode opPc with
  | .error e => .fail e
  | .ok (i, pc) => c.translateInstr blockAt i opPc pc stack

/-! ## The loop -/

/-- The stack that is handed to a block: of a deeper one, the values on top are dropped. -/
def truncate (expected : Nat) (stack : List V) : List V := stack.drop (stack.length - expected)

/-- One round. -/
def round (w : Walk V) : Ir V (Walk V) :=
  match blockAt w.pc with
  | some expected =>
      if w.returned then .params expected (c.translateOne blockAt w.pc)
      else
        let stack := truncate expected w.stack
        if stack.length < expected then .fail (.underflow w.pc)
        else .leave (.jump ⟨w.pc, stack⟩) (.params expected (c.translateOne blockAt w.pc))
  | none =>
      if w.returned then
        match opcodeTotalLen c.bytecode w.pc with
        | .error e => .fail e
        | .ok len => .done { w with pc := w.pc + len }
      else c.translateOne blockAt w.pc w.stack

def translateLoop : Nat → Walk V → Ir V Unit
  | 0, _ => .panic
  | fuel + 1, w =>
    if w.pc ≥ c.bytecode.length then if w.returned then .done () else .fail .fellOffEnd
    else do
      let w ← c.round blockAt w
      translateLoop fuel w

/-- The second pass. The stack is seeded with the words of the argument buffer, the last one on top. -/
def translate : Ir V Unit :=
  .params c.argCount (fun args => c.translateLoop blockAt (c.bytecode.length + 1) ⟨c.entryPc, args, false⟩)

/-- The states that the loop comes to. -/
inductive Walks : Walk V → Prop
  | entry (args : List V) (h : args.length = c.argCount) : Walks ⟨c.entryPc, args, false⟩
  | round {w w' : Walk V} (h : Walks w) (hpc : w.pc < c.bytecode.length)
      (hr : (c.round blockAt w).Reaches w') : Walks w'

end CompileInput
