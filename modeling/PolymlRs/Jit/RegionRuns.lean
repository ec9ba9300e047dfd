import PolymlRs.Gc.Collector
import PolymlRs.Jit.Memtrans

set_option autoImplicit false

/-! # Runs of region code

The interpreter dispatches a call of the root of a region to its native code, and native code calls the
interpreter for every callee that is not a constant. Both move one stack pointer. A run is the same with
native code and without, but for the region code itself; it notes what the interpreter finds wrong there,
and what native code does not look for. -/

namespace Region

/-! ## The code that runs -/

/-- The memory that regions are compiled from, the code objects offered as roots, what Cranelift makes of
their functions, and the length of the stack. -/
structure World where
  mem : Mem
  roots : List Nat
  compiles : Nat → Bool
  finalizes : Bool
  len : Nat

namespace World

variable (w : World)

def regions : List CompiledMemRegion := installWholeRegion w.mem w.compiles w.finalizes w.roots

/-- The code objects whose calls are dispatched. -/
def registered : List Nat := w.regions.map (·.root)

/-- The instruction that there is native code for at `pc` of the code object `a`, and the place behind
it. -/
def compiled (a pc : Nat) : Option (Opcode × Nat) :=
  match resolveCode w.mem a with
  | none => none
  | some rc => match rc.defineFunction w.mem with
    | .error _ => none
    | .ok places => if pc ∈ places then some (rc.opcode w.mem pc, rc.after pc) else none

end World

/-- The code object that `do_call` goes to, if the closure has one. -/
def doCallTarget (m : Mem) (closure : PolyWord) : Option Nat :=
  if isAligned closure ∧ m closure.toNat ≠ closure then some (m closure.toNat).toNat else none

/-- The instruction that the interpreter reads at `pc` of the code object `a`, and the place behind it.
Fetching stops where the constants begin. What follows the byte of an instruction outside the subset is
not read here. -/
def interpInstr (m : Mem) (a pc : Nat) : Option (Opcode × Nat) :=
  let get (i : Nat) := m.byteAt (a + i)
  let op := opcodeAt get pc (fun readAt => doCallTarget m (m.readUnaligned (a + readAt)))
  let fetched := if op = .unsupported then pc + 1 else afterOp get pc
  if a + fetched ≤ (constSegmentForCode m a).1 then some (op, afterOp get pc) else none

/-! ## States -/

/-- An activation, and whether it is one of region code. -/
structure Frame where
  code : Nat
  pc : Nat
  region : Bool
deriving DecidableEq, Repr

/-- The last four say what has happened so far. -/
structure State where
  /-- The innermost first; none when the dispatch has returned. -/
  frames : List Frame
  sp : Int
  stop : Option Stop
  /-- Native code has stored outside the stack. -/
  outside : Bool
  /-- The interpreter has found the stack full at a push of region code. -/
  unchecked : Bool
  /-- The interpreter has found the stack too short for an instruction of region code. -/
  short : Bool
  /-- The interpreter has read another instruction of region code than was compiled, or none. -/
  differs : Bool
deriving DecidableEq, Repr

namespace State

def store (len : Nat) (slots : List Int) (s : State) : State :=
  { s with outside := s.outside || slots.any (fun i => decide (i < 0 ∨ (len : Int) ≤ i)) }

/-- An error, in region code where it is not checked for or elsewhere. -/
def fail (e : Stop) (inRegion : Bool) (s : State) : State :=
  { s with
    stop := some e
    unchecked := s.unchecked || (inRegion && decide (e = .stackOverflow))
    short := s.short || (inRegion && decide (e = .stackUnderflow)) }

/-- Push the return address and the closure, and begin with the code: `dispatch_region` and
`emit_call_cca` for region code, otherwise `do_call` and `region_interp_call`. -/
def enter (native : Bool) (len callee : Nat) (region : Bool) (s : State) : State :=
  let frames := { code := callee, pc := 0, region } :: s.frames
  if native && region then
    { s.store len [s.sp - 1, s.sp - 2] with frames, sp := s.sp - 2 }
  else match pushMany 2 s.sp with
    | .ok sp => { s with frames, sp }
    | .error e => s.fail e region

/-- Unwind to the handler. Region code has none. -/
def raise (len : Nat) (d : Data) (s : State) : State :=
  match d.handler with
  | none => { s with stop := some .raised }
  | some (above, pc, sp) => match s.frames.drop above with
    | [] => { s with stop := some .raised }
    | f :: rest =>
      if f.region || decide (len < sp) then { s with stop := some .raised }
      else { s with frames := { f with pc } :: rest, sp }

/-- Go on after an instruction of the frame `f`, which is on top of `rest`. The next instruction is at
`after`. -/
def follow (native : Bool) (w : World) (d : Data) (f : Frame) (rest : List Frame) (after : Nat)
    (s : State) : Flow → State
  | .next => { s with frames := { f with pc := after } :: rest }
  | .goto target => { s with frames := { f with pc := target } :: rest }
  | .call callee =>
    enter native w.len callee (f.region || decide (callee ∈ w.registered))
      { s with frames := { f with pc := after } :: rest }
  | .callDynamic none =>
    -- native code has pushed by the time the closure is looked at
    if native && f.region then match pushMany 2 s.sp with
      | .ok _ => s.fail .other false
      | .error e => s.fail e false
    else s.fail .other false
  -- a call from native code is interpreted
  | .callDynamic (some callee) =>
    enter native w.len callee (!f.region && decide (callee ∈ w.registered))
      { s with frames := { f with pc := after } :: rest }
  | .ret => { s with frames := rest }
  | .raise => s.raise w.len d
  | .stop e => s.fail e false

/-- An instruction outside the subset. -/
def interpretOther (native : Bool) (w : World) (d : Data) (f : Frame) (rest : List Frame) (s : State) :
    State :=
  match d.other with
  | .goes code pc sp =>
    if w.len < sp then s.fail .stackUnderflow false
    else { s with frames := { code, pc, region := false } :: rest, sp }
  | .calls callee pc sp =>
    if w.len < sp then s.fail .stackUnderflow false
    else enter native w.len callee (decide (callee ∈ w.registered))
      { s with frames := { f with pc } :: rest, sp }
  | .raises => s.raise w.len d
  | .stops e => s.fail e false

/-- One instruction of native code. -/
def stepNative (w : World) (d : Data) (f : Frame) (rest : List Frame) (s : State) : State :=
  match w.compiled f.code f.pc with
  | none => s.fail .other false
  | some (op, after) =>
    let (slots, sp, flow) := op.emit d s.sp
    ({ s.store w.len slots with sp }).follow true w d f rest after flow

/-- Note whether the interpreter reads what was compiled. -/
def noteRead (w : World) (d : Data) (f : Frame) (s : State) : State :=
  { s with differs := s.differs ||
      (f.region && decide (interpInstr d.mem f.code f.pc ≠ w.compiled f.code f.pc)) }

/-- One instruction of the interpreter. -/
def stepInterp (native : Bool) (w : World) (d : Data) (f : Frame) (rest : List Frame) (s : State) :
    State :=
  let s := s.noteRead w d f
  match interpInstr d.mem f.code f.pc with
  | none => s.fail .other false
  | some (op, after) =>
    if op = .unsupported then s.interpretOther native w d f rest
    else match op.interpret w.len d s.sp with
      | .error e => s.fail e (f.region && !op.isStackSize16)
      | .ok (sp, flow) => ({ s with sp }).follow native w d f rest after flow

/-- One instruction: native for region code when `native` is set, otherwise interpreted. -/
def step (native : Bool) (w : World) (s : State) (d : Data) : State :=
  match s.stop, s.frames with
  | none, f :: rest =>
    if native && f.region then s.stepNative w d f rest else s.stepInterp native w d f rest
  | _, _ => s

/-- A dispatch of `root` that is about to begin. -/
def dispatch (native : Bool) (w : World) (root sp : Nat) : State :=
  enter native w.len root true
    { frames := [], sp, stop := none, outside := false, unchecked := false, short := false,
      differs := false }

/-- The dispatch and what follows, with what the words decide at each instruction. -/
def run (native : Bool) (w : World) (root sp : Nat) (ds : List Data) : State :=
  ds.foldl (step native w) (dispatch native w root sp)

end State

end Region
