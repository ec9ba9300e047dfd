import Mathlib.Data.List.Basic

set_option autoImplicit false

/-! # The call stack of a program

What a stack of calls and handlers is for, apart from how an interpreter keeps it: which code is running,
where it goes on when it returns, and where an exception takes it. `CallStack.step` is partial: it follows
only what well-formed code does. A function returns with the number of arguments it was called with, a
handler is saved, set and then taken away in order, no other instruction touches what the calls and the
handlers have put on the stack, and nothing runs off the end of its code. -/

/-- A place in the code `[start, stop)`. -/
structure CodePoint where
  start : Nat
  stop : Nat
  pc : Nat
deriving DecidableEq, Repr

namespace CodePoint

/-- There is code, and the place is in it or right behind it. -/
structure Valid (p : CodePoint) : Prop where
  pos : 0 < p.start
  nonempty : p.start < p.stop
  start_le : p.start ≤ p.pc
  le_stop : p.pc ≤ p.stop
  addressable : p.stop < 0x8000000000000000

/-- The first place of a code. -/
def entry (start stop : Nat) : CodePoint := { start, stop, pc := start }

def range (p : CodePoint) : Nat × Nat := (p.start, p.stop)

/-- The same place after the code has moved. -/
def move (f : Nat → Nat) (p : CodePoint) : CodePoint :=
  { start := f p.start, stop := f p.start + (p.stop - p.start), pc := f p.start + (p.pc - p.start) }

/-- Is there code at `[start, stop)`? -/
def IsCode (start stop : Nat) : Prop := 0 < start ∧ start < stop ∧ stop < 0x8000000000000000

instance (start stop : Nat) : Decidable (IsCode start stop) := by
  unfold IsCode
  infer_instance

theorem IsCode.valid {start stop : Nat} (h : IsCode start stop) : (entry start stop).Valid :=
  ⟨h.1, h.2.1, Nat.le_refl _, Nat.le_of_lt h.2.1, h.2.2⟩

end CodePoint

/-- What a call or a handler has put on the stack, by the slots it lies in. -/
inductive StackMark
  /-- The return address of a function called with `args` arguments, null where it has no caller. -/
  | frame (slot args : Nat) (caller : Option CodePoint)
  /-- The handler register, before the next handler is set. -/
  | saved (slot : Nat)
  /-- A handler: where it starts, and above it the saved register. -/
  | handler (slot : Nat) (entry : CodePoint)
deriving DecidableEq, Repr

namespace StackMark

def low : StackMark → Nat
  | frame slot _ _ | saved slot | handler slot _ => slot

/-- The slots that nothing else may write. -/
def slots : StackMark → List Nat
  | frame slot _ _ | saved slot => [slot]
  | handler slot _ => [slot, slot + 1]

/-- The first slot that is not the mark's, nor that of an argument. -/
def above : StackMark → Nat
  | frame slot args _ => slot + 1 + args
  | saved slot => slot + 1
  | handler slot _ => slot + 2

/-- The place that is gone back to. -/
def point : StackMark → Option CodePoint
  | frame _ _ caller => caller
  | saved _ => none
  | handler _ entry => some entry

def move (f : Nat → Nat) : StackMark → StackMark
  | frame slot args caller => frame slot args (caller.map (CodePoint.move f))
  | saved slot => saved slot
  | handler slot entry => handler slot (entry.move f)

theorem point_move (f : Nat → Nat) (m : StackMark) : (m.move f).point = m.point.map (CodePoint.move f) := by
  cases m <;> rfl

def isHandler : StackMark → Bool
  | handler _ _ => true
  | _ => false

end StackMark

/-- The code that runs, the top of the stack, and what the calls and handlers have put there, the latest
first. -/
structure CallStack where
  sp : Nat
  now : CodePoint
  marks : List StackMark
deriving DecidableEq, Repr

/-- What an instruction does to the call stack, once it has been fetched. -/
inductive Event
  /-- Fetching, a jump, or any other instruction: it writes the slots `writes`. -/
  | other (sp pc : Nat) (writes : List Nat)
  | call (args start stop : Nat)
  /-- Native code has a function interpreted: it returns to nobody. -/
  | dispatch (args start stop : Nat)
  | ret (args : Nat)
  /-- The return address is pushed once more, for the function that takes over. -/
  | tail (retAddr tailCount skip start stop : Nat)
  | pushHandler
  | setHandler (entry : Nat)
  | deleteHandler
  | raise
  /-- A collection, which moves the code that starts at `a` to `move a`. -/
  | collect (move : Nat → Nat)

namespace CallStack

/-- Where a function goes on: null where nobody has called it. -/
def retAddr (caller : Option CodePoint) : Nat := (caller.map CodePoint.pc).getD 0

/-- Do the slots below `n` belong to the running function? -/
def free (n : Nat) : List StackMark → Bool
  | [] => false
  | m :: _ => decide (n ≤ m.low)

def step (a : CallStack) : Event → Option CallStack
  | .other sp pc writes =>
    if free sp a.marks ∧ ∀ m ∈ a.marks, ∀ i ∈ m.slots, i ∉ writes then
      some { a with sp, now := { a.now with pc } }
    else none
  | .call args start stop =>
    if 2 ≤ a.sp ∧ free (a.sp + args) a.marks ∧ a.now.pc < a.now.stop ∧ CodePoint.IsCode start stop then
      some { sp := a.sp - 2, now := .entry start stop
             marks := .frame (a.sp - 1) args (some a.now) :: a.marks }
    else none
  | .dispatch args start stop =>
    if args + 2 ≤ a.sp ∧ free a.sp a.marks ∧ CodePoint.IsCode start stop then
      some { sp := a.sp - (args + 2), now := .entry start stop
             marks := .frame (a.sp - (args + 1)) args none :: a.marks }
    else none
  | .ret args => match a.marks with
    | .frame slot n (some caller) :: rest =>
      if n = args ∧ a.sp + 2 = slot then some { sp := slot + n, now := caller, marks := rest } else none
    | _ => none
  | .tail addr tailCount skip start stop => match a.marks with
    | .frame slot n caller :: rest =>
      if 2 ≤ tailCount ∧ a.sp + tailCount + skip = slot + 1 + n ∧ addr = retAddr caller ∧
          CodePoint.IsCode start stop then
        some { sp := a.sp + skip, now := .entry start stop
               marks := .frame (a.sp + skip + 1) (tailCount - 2) caller :: rest }
      else none
    | _ => none
  | .pushHandler =>
    if 0 < a.sp ∧ free a.sp a.marks then
      some { a with sp := a.sp - 1, marks := .saved (a.sp - 1) :: a.marks }
    else none
  | .setHandler entry => match a.marks with
    | .saved slot :: rest =>
      if a.sp = slot ∧ 0 < slot ∧ a.now.start ≤ entry ∧ entry < a.now.stop then
        some { a with sp := slot - 1, marks := .handler (slot - 1) { a.now with pc := entry } :: rest }
      else none
    | _ => none
  | .deleteHandler => match a.marks with
    | .handler slot _ :: rest => if a.sp < slot then some { a with sp := slot + 1, marks := rest } else none
    | _ => none
  | .raise => match a.marks.dropWhile (fun m => !m.isHandler) with
    | .handler slot entry :: rest => some { sp := slot + 2, now := entry, marks := rest }
    | _ => none
  | .collect f => some { a with now := a.now.move f, marks := a.marks.map (StackMark.move f) }

/-- The call stack after the events, if they are those of well-formed code. -/
def run (a : CallStack) : List Event → Option CallStack
  | [] => some a
  | e :: es => (a.step e).bind (fun a => a.run es)

theorem run_append (a : CallStack) (es es' : List Event) :
    a.run (es ++ es') = (a.run es).bind (fun b => b.run es') := by
  induction es generalizing a with
  | nil => rfl
  | cons e es ih => simp only [List.cons_append, run, Option.bind_assoc, ih]

/-- The code of the callers, that of the outermost first. -/
def frameRanges : List StackMark → List (Nat × Nat)
  | [] => []
  | .frame _ _ caller :: marks => frameRanges marks ++ caller.toList.map CodePoint.range
  | _ :: marks => frameRanges marks

@[simp] theorem frameRanges_handler (slot : Nat) (entry : CodePoint) (marks : List StackMark) :
    frameRanges (.handler slot entry :: marks) = frameRanges marks := rfl

/-- The handlers, the outermost first: how many callers each has below it, `depth` of them outside this
stack, and the code of the function that has set it. -/
def handlerEntries (depth : Nat) : List StackMark → List (Nat × Nat × Nat)
  | [] => []
  | .handler _ entry :: marks =>
    handlerEntries depth marks ++ [(depth + (frameRanges marks).length, entry.range)]
  | _ :: marks => handlerEntries depth marks

/-- The slot of the latest handler. -/
def handlerTop (none : Nat) : List StackMark → Nat
  | [] => none
  | .handler slot _ :: _ => slot
  | _ :: marks => handlerTop none marks

end CallStack
