import PolymlRs.Interp.StepOne
import PolymlRs.Jit.Translate

set_option autoImplicit false

/-! # Running the emitted code

The machine that native code runs on. A trampoline works on the heap of the interpreter that has called the
code, and code may be handed the address of a container on that interpreter's stack. Of the native stack there
are the containers; both stacks lie apart from the memory that other words point into. -/

/-- Nothing where the machine traps. -/
def IrBinary.run (op : IrBinary) (a b : PolyWord) : Option PolyWord :=
  match op with
  | .iadd => some (a + b)
  | .isub => some (a - b)
  | .imul => some (a * b)
  | .udiv => if b = 0#64 then none else some (a / b)
  | .urem => if b = 0#64 then none else some (a % b)
  | .sdiv => if b = 0#64 ∨ a = BitVec.intMin 64 ∧ b = -1#64 then none else some (a.sdiv b)
  | .srem => if b = 0#64 then none else some (a.srem b)
  | .band => some (a &&& b)
  | .bor => some (a ||| b)
  | .bxor => some (a ^^^ b)
  | .ishl => some (a <<< (b.toNat % 64))
  | .ushr => some (a >>> (b.toNat % 64))

def IntCC.holds (cc : IntCC) (a b : PolyWord) : Bool :=
  match cc with
  | .equal => a == b
  | .signedLessThan => a.slt b
  | .unsignedLessThan => a.ult b
  | .signedLessThanOrEqual => a.sle b
  | .unsignedLessThanOrEqual => a.ule b
  | .signedGreaterThan => b.slt a
  | .unsignedGreaterThan => b.ult a
  | .signedGreaterThanOrEqual => b.sle a
  | .unsignedGreaterThanOrEqual => b.ule a

/-- `n.max(0)`. -/
def clamp (n : PolyWord) : PolyWord := if n.slt 0#64 then 0#64 else n

/-! ## The trampolines -/

namespace Heap

variable (h : Heap)

/-- An allocation that fails gives `TAGGED(0)`. -/
def orTagged0 (r : Option (PolyWord × Heap)) : PolyWord × Heap := r.getD (1#64, h)

/-- `jit_dispatch_closure_alloc` and `jit_dispatch_alloc_mut_closure`, with the words behind the address of
    the code. -/
def closureAlloc (flags : BitVec 8) (src : PolyWord) (words : List PolyWord) : Option (PolyWord × Heap) :=
  if src.isDataPtr then h.allocObject flags (h.read src :: words) else none

/-- The block trampolines. -/
def blockTrampoline (op : BlockKind) (p1 off1 p2 off2 length : PolyWord) : PolyWord × Heap :=
  let off1 := clamp off1
  let off2 := clamp off2
  let length := (clamp length).toNat
  let slice1 := h.mem.readBytes (p1 + off1).toNat length
  let slice2 := h.mem.readBytes (p2 + off2).toNat length
  match op with
  | .moveWord => (1#64, h.copyBytes (p1.wordAt off1) (p2.wordAt off2) (length * 8))
  | .moveByte => (1#64, h.copyBytes (p1 + off1) (p2 + off2) length)
  | .equalByte => (if slice1 == slice2 then 3#64 else 1#64, h)
  | .compareByte =>
      (match bytesCmp slice1 slice2 with
        | .lt => -1#64
        | .eq => 1#64
        | .gt => 3#64, h)

end Heap

/-- The same frame with another heap. -/
def NativeState.onHeap (s : NativeState) (r : PolyWord × Heap) : PolyWord × NativeState :=
  (r.1, { s with heap := r.2 })

/-- The word that a trampoline returns. The words in a buffer are listed as they lie there: the arguments of
    a call with the last one first. -/
def Trampoline.run (o : Surroundings) (f : Trampoline PolyWord) (s : NativeState) :
    Option (PolyWord × NativeState) :=
  let h := s.heap
  match f with
  | .rts stub args => (o.rtsTrampoline stub args.reverse h).map s.onHeap
  | .closureCall closure args => o.closureCall closure args.reverse s
  | .dynamicCall closure spill =>
      match jitDispatchDynamicCall h.mem closure spill with
      | .error _ => some (1#64, s)
      | .ok args => o.closureCall closure args s
  | .allocTuple values => some (s.onHeap (h.orTagged0 (h.allocObject 0#8 values)))
  | .allocClosure captures src => some (s.onHeap (h.orTagged0 (h.closureAlloc fClosureObj src captures)))
  | .allocByteMem nWords flags =>
      some (s.onHeap (h.orTagged0 (h.allocate (clamp nWords).toNat (flags.setWidth 8))))
  | .allocMutClosure n src =>
      some (s.onHeap (h.orTagged0 (h.closureAlloc (fClosureObj ||| fMutableBit) src
        (List.replicate (clamp n).toNat (.tagged 0)))))
  | .block op p1 off1 p2 off2 length => some (s.onHeap (h.blockTrampoline op p1 off1 p2 off2 length))
  | .getThreadId => some (s.onHeap (h.orTagged0 (h.allocStubThreadObject o.rootThread)))

/-! ## The machine -/

namespace NativeFrame

variable (f : NativeFrame)

def setContainer (id k : Nat) (w : PolyWord) : NativeFrame :=
  { f with container := Function.update f.container id (Function.update (f.container id) k w) }

/-- A container whose words are all set. -/
def newContainer (id n : Nat) (w : PolyWord) : NativeFrame :=
  { f with container := Function.update f.container id (fun k => if k < n then w else f.container id k) }

theorem setContainer_self (id k : Nat) (w : PolyWord) : (f.setContainer id k w).container id k = w := by
  simp only [setContainer, Function.update_self]

theorem newContainer_of_lt {id n k : Nat} {w : PolyWord} (hk : k < n) :
    (f.newContainer id n w).container id k = w := by
  simp only [newContainer, Function.update_self, if_pos hk]

theorem setContainer_of_ne {id k id' k' : Nat} {w : PolyWord} (h : ¬(id' = id ∧ k' = k)) :
    (f.setContainer id k w).container id' k' = f.container id' k' := by
  simp only [setContainer]
  by_cases hid : id' = id
  · subst hid
    have hk : k' ≠ k := fun hk => h ⟨rfl, hk⟩
    rw [Function.update_self, Function.update_of_ne hk]
  · rw [Function.update_of_ne hid]

end NativeFrame

namespace NativeState

variable (o : Surroundings) (s : NativeState)

/-- A word of a container, of the interpreter's stack or of the heap. -/
def read (a : PolyWord) : PolyWord :=
  match o.nativeAt a, o.slotAt o.outerLen a with
  | some (id, k), _ => s.frame.container id k
  | none, some j => s.frame.outer.getD j .zero
  | none, none => s.heap.read a

def write (a w : PolyWord) : NativeState :=
  match o.nativeAt a, o.slotAt o.outerLen a with
  | some (id, k), _ => { s with frame := s.frame.setContainer id k w }
  | none, some j => { s with frame.outer := s.frame.outer.set j w }
  | none, none => { s with heap := s.heap.write a w }

end NativeState

def Ins.run (o : Surroundings) (i : Ins PolyWord) (s : NativeState) : Option (PolyWord × NativeState) :=
  match i with
  | .iconst n => some (n, s)
  | .binary op a b => (op.run a b).map (·, s)
  | .iaddImm a n => some (a + .ofInt 64 n, s)
  | .ishlImm a n => some (a <<< (n % 64), s)
  | .ushrImm a n => some (a >>> (n % 64), s)
  | .sshrImm a n => some (a.sshiftRight (n % 64), s)
  | .icmp cc a b => some (if cc.holds a b then 1#64 else 0#64, s)
  | .uextend a => some (a, s)
  | .select cond a b => some (if cond = 0#64 then b else a, s)
  | .load base off => some (s.read o (base + .ofInt 64 off), s)
  | .load8 addr => some (s.heap.readByte addr, s)
  | .stackSlot id n init => some (o.nativeSlot id, { s with frame := s.frame.newContainer id n init })
  | .call f => f.run o s

def Eff.run (o : Surroundings) (i : Eff PolyWord) (s : NativeState) : Option NativeState :=
  match i with
  | .store value addr off => some (s.write o (addr + .ofInt 64 off) value)
  | .istore8 value addr => some { s with heap := s.heap.writeByte addr value }
  | .fill body length init =>
      some { s with heap := s.heap.fillWords body (List.replicate (clamp length).toNat init) }

/-- The index of a jump table is the low half of the word. -/
def machine (o : Surroundings) : Emit.Machine Ins Eff PolyWord NativeState where
  ins := Ins.run o
  eff := Eff.run o
  isZero v := v == 0#64
  index v := v.toNat % 2 ^ 32

/-! ## The code of a body -/

namespace CompileInput

variable (c : CompileInput) (blockAt : Nat → Option Nat) (o : Surroundings)

/-- The second pass emits code for the instruction at `pc`, over the values `stack`. -/
def Emitted (pc : Nat) (stack : List PolyWord) : Prop :=
  match blockAt pc with
  | some expected => stack.length = expected ∧ ∃ w : Walk PolyWord, c.Walks blockAt w ∧ w.pc = pc
  | none => c.Walks blockAt ⟨pc, stack, false⟩

/-- The values at `pc` when it is come to with `stack`. -/
def arrive (pc : Nat) (stack : List PolyWord) : List PolyWord :=
  match blockAt pc with
  | some expected => truncate expected stack
  | none => stack

/-- The native code, entered with `args` and the state `s₀`, comes to the instruction at a place with these
    values. -/
inductive Comes (args : List PolyWord) (s₀ : NativeState) : Nat → List PolyWord → NativeState → Prop
  | entry : Comes args s₀ c.entryPc (arrive blockAt c.entryPc args) s₀
  | goes {pc pc' : Nat} {stack stack' : List PolyWord} {s s' : NativeState} (hc : Comes args s₀ pc stack s)
      (he : c.Emitted blockAt pc stack) (hpc : pc < c.bytecode.length)
      (hx : (c.translateOne blockAt pc stack).exec (machine o) s =
        some (.goesOn ⟨pc', stack', false⟩ s')) :
      Comes args s₀ pc' (arrive blockAt pc' stack') s'
  | jumps {pc pc' : Nat} {stack stack' : List PolyWord} {s s' : NativeState} (hc : Comes args s₀ pc stack s)
      (he : c.Emitted blockAt pc stack) (hpc : pc < c.bytecode.length)
      (hx : (c.translateOne blockAt pc stack).exec (machine o) s = some (.jumps ⟨pc', stack'⟩ s')) :
      Comes args s₀ pc' stack' s'

/-- The second pass does not give up on the body, and on its way comes to every block. -/
structure Translated : Prop where
  accepts : ¬ (c.translate blockAt : Ir PolyWord Unit).Refuses
  fills : ∀ pc, (blockAt pc).isSome → ∃ w : Walk PolyWord, c.Walks blockAt w ∧ w.pc = pc

end CompileInput
