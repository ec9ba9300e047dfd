import PolymlRs.Jit.Scan
import PolymlRs.Rts.CodeCalls

set_option autoImplicit false

/-! # The interpreter in a function body

What the interpreter does, word by word, with the instructions that the translator knows. Of the stack there
are the live words, the top first and those of the callers behind; it lies apart from the memory that words
point into, but for the containers on it. A call is over when the callee has returned, and no collection
happens on the way. Where an exception is raised or the function is left, there is no next state. -/

/-! ## The heap -/

/-- What the interpreter shares with the native code that it calls. -/
structure Heap where
  mem : Mem
  space : Option MemorySpace
  /-- The cached thread object. -/
  threadObject : Option PolyWord

namespace Heap

variable (h : Heap)

def read (a : PolyWord) : PolyWord := h.mem.readUnaligned a.toNat

def readByte (a : PolyWord) : PolyWord := .ofNat 64 (h.mem.byteAt a.toNat).toNat

def write (a w : PolyWord) : Heap := { h with mem := h.mem.writeBytes a.toNat w.toNeBytes }

def writeByte (a w : PolyWord) : Heap := { h with mem := h.mem.writeBytes a.toNat [UInt8.ofNat w.toNat] }

/-- Write words next to each other. -/
def fillWords (h : Heap) (p : PolyWord) : List PolyWord → Heap
  | [] => h
  | w :: ws => (h.write p w).fillWords (p + 8#64) ws

/-- `std::ptr::copy`, which moves overlapping bytes rightly. -/
def copyBytes (src dst : PolyWord) (n : Nat) : Heap :=
  { h with mem := h.mem.writeBytes dst.toNat (h.mem.readBytes src.toNat n) }

/-- A body of `n` words behind its length word. -/
def allocate (n : Nat) (flags : BitVec 8) : Option (PolyWord × Heap) :=
  match h.space.bind (·.tryAlloc n) with
  | none => none
  | some (space, p) =>
    let body := PolyWord.fromAddr p
    some (body, { h with space := some space }.write (body - 8#64) (makeLengthWord n flags))

/-- An object with the body `words`. -/
def allocObject (flags : BitVec 8) (words : List PolyWord) : Option (PolyWord × Heap) :=
  (h.allocate words.length flags).map (fun r => (r.1, r.2.fillWords r.1 words))

/-- The thread object, which is made when it is first asked for. The root thread's has its number and its
    flags in it when there are real threads. -/
def allocStubThreadObject (rootThread : Option Int) : Option (PolyWord × Heap) :=
  match h.threadObject with
  | some t => some (t, h)
  | none =>
    (h.allocObject fMutableBit (List.replicate 8 (.tagged 0))).map (fun r =>
      let h := match rootThread with
        | none => r.2
        | some id => r.2.fillWords r.1 [.tagged id, .tagged 5]
      (r.1, { h with threadObject := some r.1 }))

end Heap

/-! ## Words -/

/-- The address of the word `index` behind `base`. -/
def PolyWord.wordAt (base index : PolyWord) : PolyWord := base + index * 8#64

/-- `untag() as usize`, as a word. -/
def PolyWord.untagBits (w : PolyWord) : PolyWord := w.sshiftRight 1

def boolWord (b : Bool) : PolyWord := if b then .tagged 1 else .tagged 0

/-- A result of the fixed precision arithmetic, which overflows outside the range of tagged integers. -/
def fixedResult (t : Int) : Option PolyWord :=
  if PolyWord.minTagged ≤ t ∧ t ≤ PolyWord.maxTagged then some (.tagged t) else none

/-- What the instruction puts in the place of `x`, the top, and of `y`; nothing where it raises an exception
    or stops the interpreter. -/
def binOp (op : BinaryOp) (x y : PolyWord) : Option PolyWord :=
  match op with
  | .fixedAdd => fixedResult (x.untag + y.untag)
  | .fixedSub => fixedResult (y.untag - x.untag)
  | .fixedMult => fixedResult (x.untag * y.untag)
  | .fixedQuot => if x.untag = 0 then none else some (.tagged (y.untag.tdiv x.untag))
  | .fixedRem => if x.untag = 0 then none else some (.tagged (y.untag.tmod x.untag))
  | .wordAdd => some (y + x - .tagged 0)
  | .wordSub => some (y - x + .tagged 0)
  | .wordMult => some (((x >>> 1) * (y >>> 1)) <<< 1 ||| 1#64)
  | .wordDiv => if x >>> 1 = 0#64 then none else some (((y >>> 1) / (x >>> 1)) <<< 1 ||| 1#64)
  | .wordMod => if x >>> 1 = 0#64 then none else some (((y >>> 1) % (x >>> 1)) <<< 1 ||| 1#64)
  | .wordAnd => some (y &&& x)
  | .wordOr => some (y ||| x)
  | .wordXor => some ((y ^^^ x) ||| .tagged 0)
  | .wordShiftLeft => some (((y >>> 1) <<< ((x >>> 1) &&& 63#64).toNat) <<< 1 ||| 1#64)
  | .wordShiftRLog => some (((y >>> 1) >>> ((x >>> 1) &&& 63#64).toNat) <<< 1 ||| 1#64)
  | .equalWord => some (boolWord (x == y))
  | .lessSigned => some (boolWord (y.slt x))
  | .lessUnsigned => some (boolWord (y.ult x))
  | .lessEqSigned => some (boolWord (y.sle x))
  | .lessEqUnsigned => some (boolWord (y.ule x))
  | .greaterSigned => some (boolWord (x.slt y))
  | .greaterUnsigned => some (boolWord (x.ult y))
  | .greaterEqSigned => some (boolWord (x.sle y))
  | .greaterEqUnsigned => some (boolWord (x.ule y))

/-- The order of byte slices. -/
def bytesCmp : List UInt8 → List UInt8 → Ordering
  | [], [] => .eq
  | [], _ :: _ => .lt
  | _ :: _, [] => .gt
  | a :: as, b :: bs => if a < b then .lt else if b < a then .gt else bytesCmp as bs

/-- `LOAD_*`. -/
def loadOp (h : Heap) (kind : LoadKind) (index base : PolyWord) : Option PolyWord :=
  match kind with
  | .untagged =>
      if base.isDataPtr then some (.tagged (h.read (base.wordAt index.untagBits)).toInt) else none
  | .mlByte => some (.tagged (h.readByte (base + index.untagBits)).toInt)
  | .mlWord => some (h.read (base.wordAt index.untagBits))

/-- `STORE_*`. -/
def storeOp (h : Heap) (kind : StoreKind) (toStore index base : PolyWord) : Heap :=
  match kind with
  | .untagged => h.write (base.wordAt index.untagBits) toStore.untagBits
  | .mlByte => h.writeByte (base + index.untagBits) toStore.untagBits
  | .mlWord => h.write (base.wordAt index.untagBits) toStore

/-- `BLOCK_*`, with the offsets and the length untagged. -/
def blockOp (h : Heap) (op : BlockKind) (p1 off1 p2 off2 length : PolyWord) : PolyWord × Heap :=
  match op with
  | .moveWord => (.tagged 0, h.copyBytes (p1.wordAt off1) (p2.wordAt off2) (length.toNat * 8))
  | .moveByte => (.tagged 0, h.copyBytes (p1 + off1) (p2 + off2) length.toNat)
  | .equalByte =>
      (boolWord (h.mem.readBytes (p1 + off1).toNat length.toNat ==
        h.mem.readBytes (p2 + off2).toNat length.toNat), h)
  | .compareByte =>
      (match bytesCmp (h.mem.readBytes (p1 + off1).toNat length.toNat)
          (h.mem.readBytes (p2 + off2).toNat length.toNat) with
        | .eq => .tagged 0
        | .lt => .tagged (-1)
        | .gt => .tagged 1, h)

/-! ## One step -/

/-- A callee that has returned. -/
structure Returned where
  /-- How many words its return takes off the stack. -/
  taken : Nat
  result : PolyWord
  /-- The words below these. Of the containers there the callee may have been told. -/
  below : List PolyWord
  heap : Heap

/-- The stacks as native code sees them. -/
structure NativeFrame where
  /-- The containers in its own frame. A container is called by the place of the instruction that makes it. -/
  container : Nat → Nat → PolyWord
  /-- The words of the interpreter's stack below the arguments, the top first. -/
  outer : List PolyWord

/-- What native code works on. -/
structure NativeState where
  heap : Heap
  frame : NativeFrame

/-- What a body's code has to do with: the callees and the runtime, called by the interpreter and through the
    trampolines of native code, and where things lie. -/
structure Surroundings where
  /-- The slots of the interpreter's stack, how many of the lowest lie below the arguments, and the address of
      the first slot. -/
  stackLen : Nat
  outerLen : Nat
  stackAt : Nat
  /-- Where native code has its containers, and which word of which one lies at an address. -/
  nativeSlot : Nat → PolyWord
  nativeAt : PolyWord → Option (Nat × Nat)
  /-- The root thread's number, when there are real threads. -/
  rootThread : Option Int
  /-- `do_call` with the words on the stack, and the callee until it has returned. -/
  doCall : PolyWord → List PolyWord → Heap → Option Returned
  /-- A function of the runtime that `rts_call` calls, with the first argument first. -/
  rts : PolyWord → List PolyWord → Heap → Option (PolyWord × Heap)
  /-- `jit_dispatch_closure_call` and `rts_trampoline`, with the first argument first. -/
  closureCall : PolyWord → List PolyWord → NativeState → Option (PolyWord × NativeState)
  rtsTrampoline : PolyWord → List PolyWord → Heap → Option (PolyWord × Heap)

/-- The interpreter in a body. -/
structure Activation where
  pc : Nat
  /-- The live words, the top first. -/
  stack : List PolyWord
  heap : Heap
  handlerSp : Nat
  exceptionPacket : Option PolyWord

/-- The position of the slot at `a` among `live` live words. -/
def Surroundings.slotAt (o : Surroundings) (live : Nat) (a : PolyWord) : Option Nat :=
  let sp := o.stackLen - live
  if o.stackAt + 8 * sp ≤ a.toNat ∧ a.toNat < o.stackAt + 8 * o.stackLen then
    some ((a.toNat - o.stackAt) / 8 - sp)
  else none

/-- The word at `a` lies on neither stack. -/
def Surroundings.Apart (o : Surroundings) (a : PolyWord) : Prop :=
  o.nativeAt a = none ∧ o.slotAt o.stackLen a = none

namespace CompileInput

variable (c : CompileInput) (o : Surroundings)

/-- The address of a constant that is read behind `pc`. -/
def constAt (pc off idx : Nat) : PolyWord := .ofNat 64 (c.codeStart + readAt pc off idx)

/-- The instruction `i`, whose operands have been fetched, with `pc` behind them. -/
def stepInstr (i : Instruction) (pc : Nat) (s : Activation) : Option Activation :=
  let go (stack : List PolyWord) (heap : Heap) : Option Activation :=
    if stack.length ≤ o.stackLen then some { s with pc, stack, heap } else none
  let jump (target : Nat) (stack : List PolyWord) : Option Activation :=
    if target ≤ c.bytecode.length then some { s with pc := target, stack } else none
  -- push what is made from the slot `d` below the top
  let push (d : Nat) (f : PolyWord → PolyWord) : Option Activation :=
    match s.stack[d]? with
    | none => none
    | some w => go (f w :: s.stack) s.heap
  -- put a word in the place of the top
  let replace (f : PolyWord → Option (PolyWord × Heap)) : Option Activation :=
    match s.stack with
    | [] => none
    | w :: rest => match f w with
      | none => none
      | some (r, heap) => go (r :: rest) heap
  -- go on where a call has returned
  let after (r : Option Returned) : Option Activation :=
    match r with
    | none => none
    | some r => go (r.result :: r.below) r.heap
  match i with
  | .const n => go (.tagged n :: s.stack) s.heap
  | .localAt d => push d id
  | .indirectLocal d slot => push d (fun w => s.heap.read (w.wordAt (.ofNat 64 slot)))
  | .indirectClosure d slot => push d (fun w => s.heap.read (w.wordAt (.ofNat 64 (1 + slot))))
  | .isTaggedLocal d => push d (fun w => boolWord w.isTagged)
  | .jumpTaggedLocal d off =>
      match s.stack[d]? with
      | none => none
      | some w => if w.isTagged then jump (pc + off) s.stack else some { s with pc }
  | .jumpNeqLocal ind d want off =>
      match s.stack[d]? with
      | none => none
      | some w =>
        let u := if ind then s.heap.read w else w
        if u.isTagged && u.untag == want.toNat then some { s with pc } else jump (pc + off) s.stack
  | .indirect field => replace (fun w => some (s.heap.read (w.wordAt (.ofNat 64 field)), s.heap))
  | .load kind =>
      match s.stack with
      | index :: base :: rest => match loadOp s.heap kind index base with
        | none => none
        | some r => go (r :: rest) s.heap
      | _ => none
  | .store kind =>
      match s.stack with
      | toStore :: index :: base :: rest => go (.tagged 0 :: rest) (storeOp s.heap kind toStore index base)
      | _ => none
  | .block op =>
      match s.stack with
      | length :: off2 :: p2 :: off1 :: p1 :: rest =>
        let r := blockOp s.heap op p1 off1.untagBits p2 off2.untagBits length.untagBits
        go (r.1 :: rest) r.2
      | _ => none
  | .stackContainer n =>
      let slots := List.replicate n (.tagged 0) ++ s.stack
      go (.ofNat 64 (o.stackAt + 8 * (o.stackLen - slots.length)) :: slots) s.heap
  | .moveToContainer k =>
      match s.stack with
      | u :: ref :: rest =>
        let a := ref.wordAt (.ofNat 64 k)
        match o.slotAt (rest.length + 1) a with
        | some j => go ((ref :: rest).set j u) s.heap
        | none => go (ref :: rest) (s.heap.write a u)
      | _ => none
  | .indirectContainer k =>
      match s.stack with
      | ref :: rest =>
        let a := ref.wordAt (.ofNat 64 k)
        match o.slotAt (rest.length + 1) a with
        | some j => go ((ref :: rest).getD j .zero :: rest) s.heap
        | none => go (s.heap.read a :: rest) s.heap
      | _ => none
  | .lock => replace (fun w => some (w, s.heap.write (w - 8#64)
      (s.heap.read (w - 8#64) &&& ~~~(fMutableBit.setWidth 64 <<< flagsShift))))
  | .clearMutable => replace (fun w => some (.tagged 0, s.heap.write (w - 8#64)
      (s.heap.read (w - 8#64) &&& ~~~(fMutableBit.setWidth 64 <<< flagsShift))))
  | .cellFlags => replace (fun w => some (.tagged (flagsOf (s.heap.read (w - 8#64))).toNat, s.heap))
  | .cellLength => replace (fun w => some (.tagged (lengthOf (s.heap.read (w - 8#64))), s.heap))
  | .getThreadId =>
      match s.heap.allocStubThreadObject o.rootThread with
      | none => none
      | some (t, heap) => go (t :: s.stack) heap
  | .ldexc => go (s.exceptionPacket.getD (.tagged 0) :: s.stack) s.heap
  | .pushHandler => go (.ofNat 64 s.handlerSp :: s.stack) s.heap
  | .setHandler off =>
      (go (.ofNat 64 (c.codeStart + pc + off) :: s.stack) s.heap).map (fun s =>
        { s with handlerSp := o.stackLen - s.stack.length })
  | .deleteHandler =>
      match s.stack with
      | [] => none
      | result :: rest =>
        let sp := o.stackLen - rest.length
        -- below `sp` are the words that were live once
        if s.handlerSp + 1 < sp then none
        else match rest.drop (s.handlerSp + 1 - sp) with
        | [] => none
        | old :: rest => some { s with pc, stack := result :: rest, handlerSp := old.toNat }
  | .allocMutClosure n => replace (fun src =>
      (s.heap.allocate (n + 1) (fClosureObj ||| fMutableBit)).map (fun r =>
        (r.1, r.2.fillWords r.1 (r.2.read src :: List.replicate n (.tagged 0)))))
  | .moveToMutClosure slot =>
      match s.stack with
      | u :: target :: rest =>
        go (target :: rest) (s.heap.write (target.wordAt (.ofNat 64 (slot + 1))) u)
      | _ => none
  | .closure n =>
      if s.stack.length < n then none
      else match s.heap.allocate (n + 1) fClosureObj, s.stack.drop n with
      | some (p, heap), src :: rest =>
        let captures := (s.stack.take n).reverse
        -- the captures are in place when the code's address is read
        let codeAddr := (heap.fillWords (p + 8#64) captures).read src
        go (p :: rest) (heap.fillWords p (codeAddr :: captures))
      | _, _ => none
  | .allocRef => replace (fun init => s.heap.allocObject fMutableBit [init])
  | .tuple n =>
      if s.stack.length < n then none
      else match s.heap.allocObject 0#8 (s.stack.take n).reverse with
      | none => none
      | some (p, heap) => go (p :: s.stack.drop n) heap
  | .allocByteMem =>
      match s.stack with
      | flags :: length :: rest =>
        match s.heap.allocate length.untagBits.toNat (flags.untagBits.setWidth 8) with
        | none => none
        | some (p, heap) => go (p :: rest) heap
      | _ => none
  | .allocWordMemory =>
      match s.stack with
      | init :: flags :: length :: rest =>
        match s.heap.allocObject (flags.untagBits.setWidth 8)
            (List.replicate length.untagBits.toNat init) with
        | none => none
        | some (p, heap) => go (p :: rest) heap
      | _ => none
  | .noOp => some { s with pc }
  | .reset n => if s.stack.length < n then none else some { s with pc, stack := s.stack.drop n }
  | .resetR n =>
      if s.stack.length < n + 1 then none
      else some { s with pc, stack := s.stack.take 1 ++ s.stack.drop (n + 1) }
  | .setStackVal idx =>
      match s.stack with
      | [] => none
      | u :: rest =>
        if idx = 0 ∨ rest.length ≤ idx - 1 then none else some { s with pc, stack := rest.set (idx - 1) u }
  | .binary op =>
      match s.stack with
      | x :: y :: rest => match binOp op x y with
        | none => none
        | some r => go (r :: rest) s.heap
      | _ => none
  | .notBoolean => replace (fun w => some (boolWord (w == .tagged 0), s.heap))
  | .isTagged => replace (fun w => some (boolWord w.isTagged, s.heap))
  | .callFastRts n =>
      match s.stack with
      | [] => none
      | stub :: rest =>
        if rest.length < n then none
        else match o.rts stub (rest.take n).reverse s.heap with
        | none => none
        | some (r, heap) => go (r :: rest.drop n) heap
  | .callLocal n =>
      match s.stack[n]? with
      | none => none
      | some closure => after (o.doCall closure s.stack s.heap)
  | .callClosure =>
      match s.stack with
      | [] => none
      | closure :: rest => after (o.doCall closure rest s.heap)
  | .constAddr _ off idx => go (s.heap.read (c.constAt pc off idx) :: s.stack) s.heap
  | .callConstAddr _ off idx => after (o.doCall (s.heap.read (c.constAt pc off idx)) s.stack s.heap)
  | .jump off => jump (pc + off) s.stack
  | .jumpBack _ off immBytes =>
      if pc < off + 1 + immBytes then none else jump (pc - (off + 1 + immBytes)) s.stack
  | .jumpCond onFalse off =>
      match s.stack with
      | [] => none
      | w :: rest =>
        if (w == .tagged 0) == onFalse then jump (pc + off) rest else some { s with pc, stack := rest }
  | .case16 arg1 =>
      match s.stack with
      | [] => none
      | selector :: rest =>
        let u := selector.untag
        if u < 0 ∨ u ≥ arg1 then jump (pc + arg1 * 2) rest
        else jump (pc + readU16Le c.bytecode (pc + u.toNat * 2)) rest
  | .raiseEx | .tail _ _ | .ret _ => none

/-- `step_one`. -/
def stepOne (s : Activation) : Option Activation :=
  if s.pc ≥ c.bytecode.length then none
  else match fetchInstr c.bytecode s.pc with
  | .error _ => none
  | .ok (i, pc) => c.stepInstr o i pc s

end CompileInput
