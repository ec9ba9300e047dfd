import PolymlRs.Interp.Calls
import PolymlRs.Interp.Gc

set_option autoImplicit false

/-! # Calls from a compiled region

A compiled region calls a closure through `region_interp_call`, which enters the interpreter once more
on the same stack and puts the registers back afterwards. What the callee does to the side stacks is a
`Callee` run: any instructions and any collections, as long as it takes back only what it has pushed.
`regionInterpCall_keeps_iff` says when the interpreter is as it was. -/

/-! ## Handlers -/

namespace Interpreter

/-- `SET_HANDLER`: `entry` is the address of the handler. -/
def setHandler (s : Interpreter) (entry : Nat) : Except InterpError Interpreter := do
  let s ← s.push (PolyWord.fromAddr entry)
  .ok { s with
    handlerSp := s.sp
    handlerFramesDepth := s.handlerFramesDepth ++ [(s.frames.length, s.codeStart, s.codeEnd)] }

/-- `DELETE_HANDLER`: the result replaces the handler frame. -/
def deleteHandler (s : Interpreter) : Except InterpError Interpreter := do
  let (result, s) ← s.pop
  match s.stack[s.handlerSp + 1]? with
  -- the index panics
  | none => .error .other
  | some oldHandler => .ok { s with
      stack := s.stack.set (s.handlerSp + 1) result
      sp := s.handlerSp + 1
      handlerSp := oldHandler.toNat
      handlerFramesDepth := s.handlerFramesDepth.dropLast }

/-- `do_raise_ex`: unwind to the handler. Without one the packet is recorded all the same. -/
def doRaiseEx (s : Interpreter) : Except InterpError Unit × Interpreter :=
  match s.stack[s.sp]? with
  | none => (.error .stackUnderflow, s)
  | some exn =>
    let s := { s with exceptionPacket := some exn }
    if s.stack.length ≤ s.handlerSp then (.error .unhandledException, s)
    else match s.stack[s.handlerSp]?, s.stack[s.handlerSp + 1]? with
    | some handlerPc, some oldHandler =>
      let (targetDepth, hStart, hEnd) := s.handlerFramesDepth.getLast?.getD (0, 0, 0)
      (.ok (), { s with
        sp := s.handlerSp + 2
        handlerSp := oldHandler.toNat
        pc := handlerPc.addr
        handlerFramesDepth := s.handlerFramesDepth.dropLast
        frames := s.frames.take targetDepth
        codeStart := hStart
        codeEnd := hEnd })
    | _, _ => (.error .other, s)

/-! ## The call -/

end Interpreter

/-- What a region gets back. The packet is written only when something was raised. -/
structure RegionRet where
  newSp : Nat
  raised : Bool
  exnPacket : Option PolyWord
deriving DecidableEq, Repr

def regionExnOverflow : PolyWord := 0x0001000000000002#64
def regionExnDivzero : PolyWord := 0x0002000000000002#64
def regionExnStackoverflow : PolyWord := 0x0003000000000002#64

namespace Interpreter

def regionRaised (s : Interpreter) (packet : PolyWord) : RegionRet :=
  { newSp := s.sp, raised := true, exnPacket := some packet }

/-- The frame of the callee: no handler, a null return address and the closure on top of the arguments.
The left case is an early return. -/
def regionEnter (m : Mem) (s : Interpreter) (spAtTopArg : Nat) (closure : PolyWord) :
    (RegionRet × Interpreter) ⊕ Interpreter :=
  let s := { s with handlerSp := s.stack.length, sp := spAtTopArg }
  match s.push PolyWord.zero with
  | .error _ => .inl (s.regionRaised regionExnStackoverflow, s)
  | .ok s => match s.push closure with
    | .error _ => .inl (s.regionRaised regionExnStackoverflow, s)
    | .ok s =>
      -- a misrouted call counts as a raise
      if !closure.isDataPtr then .inl (s.regionRaised regionExnOverflow, s)
      else .inr (s.pushFrame.enter m (m closure.addr).addr)

/-- Put back what was saved. -/
def regionRestore (saved s : Interpreter) : Interpreter :=
  { s with
    pc := saved.pc
    codeStart := saved.codeStart
    codeEnd := saved.codeEnd
    frames := s.frames.take saved.frames.length
    handlerSp := saved.handlerSp
    handlerFramesDepth := s.handlerFramesDepth.take saved.handlerFramesDepth.length }

/-- What the region is told about the run. -/
def regionResult (s : Interpreter) : Except InterpError StepResult → RegionRet × Interpreter
  | .ok (.returned result) => match s.push result with
    | .error _ => (s.regionRaised regionExnStackoverflow, s)
    | .ok s => ({ newSp := s.sp, raised := false, exnPacket := none }, s)
  | .error .unhandledException =>
    (s.regionRaised (s.exceptionPacket.getD regionExnOverflow), s)
  | .error .divByZero => (s.regionRaised regionExnDivzero, s)
  | .error .stackOverflow => (s.regionRaised regionExnStackoverflow, s)
  | .ok .continue | .error _ => (s.regionRaised regionExnOverflow, s)

/-- `region_interp_call`; `run` is the interpreter loop. -/
def regionInterpCall (m : Mem) (run : Interpreter → Except InterpError StepResult × Interpreter)
    (s : Interpreter) (spAtTopArg : Nat) (closure : PolyWord) : RegionRet × Interpreter :=
  match s.regionEnter m spAtTopArg closure with
  | .inl early => early
  | .inr callee =>
    let (result, ran) := run callee
    (s.regionRestore ran).regionResult result

end Interpreter

/-! ## What a callee does to the side stacks -/

/-- A pointer into the code at `r.1` after that code has moved. -/
def moveRange (move : Nat → Nat) (r : Nat × Nat) : Nat × Nat :=
  (move r.1, ptrOffset (move r.1) (offsetFrom r.2 r.1))

/-- What a collection that moves the code at `a` to `move a` does to the code pointers of a thread. -/
structure CodeMoved (move : Nat → Nat) (t t' : ThreadContext) : Prop where
  code : (t'.codeStart, t'.codeEnd) = moveRange move (t.codeStart, t.codeEnd)
  pc : (t'.codeStart, t'.pc) = moveRange move (t.codeStart, t.pc)
  frames : t'.frames = t.frames.map (moveRange move)
  handlers : t'.handlerFramesDepth = t.handlerFramesDepth.map (fun f => (f.1, moveRange move f.2))

/-- A thread that a collection writes back has moved so. -/
theorem codeMoved_writeBack {t : ThreadContext} {r : ThreadRoots} (hpub : Publishes t r)
    (hq : r.quiesced = false) (hsp : t.sp ≤ t.stack.length) (h : HeapView) (φ : Nat → Nat) :
    CodeMoved (fun a => (h.relocate φ true (PolyWord.fromAddr a)).addr) t (r.writeBack h φ t) := by
  rw [writeBack_eq hpub hq hsp]
  exact ⟨rfl, rfl, rfl, rfl⟩

/-- An instruction, as far as the side stacks go; the last two are those of a nested call. -/
inductive Instr : Interpreter → Interpreter → Prop
  | other {s s' : Interpreter} (hframes : s'.frames = s.frames)
      (hhandlers : s'.handlerFramesDepth = s.handlerFramesDepth) : Instr s s'
  | call {s : Interpreter} (m : Mem) (codeObj : Nat) :
      Instr s ((s.pushFrame.recordCall codeObj).enter m codeObj)
  | ret {s s' : Interpreter} {n : Nat} (h : s.doReturn n = .ok (.continue, s')) : Instr s s'
  | setHandler {s s' : Interpreter} {entry : Nat} (h : s.setHandler entry = .ok s') : Instr s s'
  | deleteHandler {s s' : Interpreter} (h : s.deleteHandler = .ok s') : Instr s s'
  | raise {s s' : Interpreter} (h : s.doRaiseEx = (.ok (), s')) : Instr s s'
  | regionEnter {m : Mem} {s s' : Interpreter} {spAtTopArg : Nat} {closure : PolyWord}
      (h : s.regionEnter m spAtTopArg closure = .inr s') : Instr s s'
  | regionRestore (saved s : Interpreter) : Instr s (saved.regionRestore s)

/-- The run of a callee with the moves of the collections in it. It never takes back one of the first
`depth` frames or of the first `handlers` handler entries: these are its caller's. -/
inductive Callee (depth handlers : Nat) : Interpreter → List (Nat → Nat) → Interpreter → Prop
  | stop (s : Interpreter) : Callee depth handlers s [] s
  | instr {s s' s'' : Interpreter} {moves : List (Nat → Nat)} (hi : Instr s s')
      (hframes : depth ≤ s'.frames.length) (hhandlers : handlers ≤ s'.handlerFramesDepth.length)
      (hr : Callee depth handlers s' moves s'') : Callee depth handlers s moves s''
  | collect {s s'' : Interpreter} {t : ThreadContext} {move : Nat → Nat} {moves : List (Nat → Nat)}
      (hc : CodeMoved move s.toThreadContext t)
      (hr : Callee depth handlers { s with toThreadContext := t } moves s'') :
      Callee depth handlers s (move :: moves) s''

/-! ## What is below stays -/

/-- The side stacks of `s'` are those of `s`. -/
def Interpreter.SameSides (s s' : Interpreter) : Prop :=
  s'.frames = s.frames ∧ s'.handlerFramesDepth = s.handlerFramesDepth

namespace Interpreter

variable {s s' : Interpreter}

theorem pop_sides {w : PolyWord} (h : s.pop = .ok (w, s')) : s.SameSides s' := by
  unfold pop at h
  split at h
  · cases h
  · cases h
    exact ⟨rfl, rfl⟩

theorem push_sides {w : PolyWord} (h : s.push w = .ok s') : s.SameSides s' := by
  unfold push at h
  split at h
  · cases h
  · cases h
    exact ⟨rfl, rfl⟩

theorem SameSides.trans {s'' : Interpreter} (h : s.SameSides s') (h' : s'.SameSides s'') :
    s.SameSides s'' := ⟨h'.1.trans h.1, h'.2.trans h.2⟩

theorem popMany_sides {n : Nat} (h : s.popMany n = .ok s') : s.SameSides s' := by
  induction n generalizing s with
  | zero =>
    cases h
    exact ⟨rfl, rfl⟩
  | succ n ih =>
    cases hp : s.pop with
    | error e => simp [popMany, hp, bind, Except.bind] at h
    | ok p =>
      simp only [popMany, hp, bind, Except.bind] at h
      exact (pop_sides hp).trans (ih h)

/-- A return takes back the topmost frame. -/
theorem doReturn_sides {n : Nat} (h : s.doReturn n = .ok (.continue, s')) :
    s'.frames = s.frames.dropLast ∧ s'.handlerFramesDepth = s.handlerFramesDepth := by
  simp only [doReturn, bind, Except.bind] at h
  split at h <;> try cases h
  rename_i p₁ h₁
  split at h <;> try cases h
  rename_i p₂ h₂
  split at h <;> try cases h
  rename_i p₃ h₃
  split at h <;> try cases h
  rename_i s₄ h₄
  split at h <;> try cases h
  rename_i s₅ h₅
  have hsides := (((((pop_sides h₁).trans (pop_sides h₂)).trans (pop_sides h₃)).trans
    (popMany_sides h₄)).trans (push_sides h₅))
  split at h
  · split at h <;> cases h
  · split at h <;> cases h
    exact ⟨congrArg List.dropLast hsides.1, hsides.2⟩

theorem setHandler_sides {entry : Nat} (h : s.setHandler entry = .ok s') :
    s'.frames = s.frames ∧ s'.handlerFramesDepth =
      s.handlerFramesDepth ++ [(s.frames.length, s'.codeStart, s'.codeEnd)] := by
  simp only [setHandler, bind, Except.bind] at h
  split at h <;> try cases h
  rename_i s₁ h₁
  have hsides := push_sides h₁
  exact ⟨hsides.1, by rw [hsides.1, hsides.2]⟩

theorem deleteHandler_sides (h : s.deleteHandler = .ok s') :
    s'.frames = s.frames ∧ s'.handlerFramesDepth = s.handlerFramesDepth.dropLast := by
  simp only [deleteHandler, bind, Except.bind] at h
  split at h <;> try cases h
  rename_i p₁ h₁
  split at h <;> try cases h
  have hsides := pop_sides h₁
  exact ⟨hsides.1, congrArg List.dropLast hsides.2⟩

theorem doRaiseEx_sides (h : s.doRaiseEx = (.ok (), s')) :
    (∃ d, s'.frames = s.frames.take d) ∧
      s'.handlerFramesDepth = s.handlerFramesDepth.dropLast := by
  unfold doRaiseEx at h
  split at h <;> try cases h
  dsimp only at h
  split at h <;> try cases h
  split at h <;> cases h
  exact ⟨⟨_, rfl⟩, rfl⟩

/-- The callee is entered when there is room for its frame and it is a pointer. The caller's frame is
pushed for it. -/
theorem regionEnter_eq (m : Mem) (spAtTopArg : Nat) (closure : PolyWord) :
    (2 ≤ spAtTopArg ∧ closure.isDataPtr = true ∧
      ∃ s', s.regionEnter m spAtTopArg closure = .inr s' ∧
        s'.frames = s.frames ++ [(s.codeStart, s.codeEnd)] ∧
        s'.handlerFramesDepth = s.handlerFramesDepth) ∨
    (¬ (2 ≤ spAtTopArg ∧ closure.isDataPtr = true) ∧
      ∃ ret s', s.regionEnter m spAtTopArg closure = .inl (ret, s') ∧
        ∃ stack sp, s' = { s with stack, sp, handlerSp := s.stack.length }) := by
  unfold regionEnter
  match spAtTopArg with
  | 0 => 
    right
    exact ⟨by simp, _, _, rfl, s.stack, 0, rfl⟩
  | 1 => 
    right
    exact ⟨by simp, _, _, rfl, s.stack.set 0 PolyWord.zero, 0, rfl⟩
  | sp + 2 => 
    cases hc : closure.isDataPtr with
    | true => 
      left
      exact ⟨by omega, rfl, _, rfl, rfl, rfl⟩
    | false =>
      right
      exact ⟨by simp, _, _, rfl, _, sp, rfl⟩

end Interpreter

/-- A stack before and after pushes only, or pops only. -/
def Stacked {α : Type} (l l' : List α) : Prop := l <+: l' ∨ l' <+: l

theorem Stacked.take {α : Type} {l l' : List α} (h : Stacked l l') {n : Nat} (hn : n ≤ l.length)
    (hn' : n ≤ l'.length) : l'.take n = l.take n := by
  rcases h with ⟨r, rfl⟩ | ⟨r, rfl⟩
  · exact List.take_append_of_le_length hn
  · exact (List.take_append_of_le_length hn').symm

theorem Stacked.of_eq {α : Type} {l l' : List α} (h : l' = l) : Stacked l l' :=
  Or.inl (h ▸ List.prefix_rfl)

/-- No instruction changes an entry of a side stack in place. -/
theorem Instr.stacked {s s' : Interpreter} (hi : Instr s s') :
    Stacked s.frames s'.frames ∧ Stacked s.handlerFramesDepth s'.handlerFramesDepth := by
  cases hi with
  | other hframes hhandlers => exact ⟨.of_eq hframes, .of_eq hhandlers⟩
  | call m codeObj => exact ⟨Or.inl (List.prefix_append _ _), .of_eq rfl⟩
  | ret h =>
    obtain ⟨hframes, hhandlers⟩ := Interpreter.doReturn_sides h
    exact ⟨Or.inr (hframes ▸ List.dropLast_prefix _), .of_eq hhandlers⟩
  | setHandler h =>
    obtain ⟨hframes, hhandlers⟩ := Interpreter.setHandler_sides h
    exact ⟨.of_eq hframes, Or.inl (hhandlers ▸ List.prefix_append _ _)⟩
  | deleteHandler h =>
    obtain ⟨hframes, hhandlers⟩ := Interpreter.deleteHandler_sides h
    exact ⟨.of_eq hframes, Or.inr (hhandlers ▸ List.dropLast_prefix _)⟩
  | raise h =>
    obtain ⟨⟨d, hframes⟩, hhandlers⟩ := Interpreter.doRaiseEx_sides h
    exact ⟨Or.inr (hframes ▸ List.take_prefix _ _), Or.inr (hhandlers ▸ List.dropLast_prefix _)⟩
  | @regionEnter m s s' spAtTopArg closure h =>
    rcases s.regionEnter_eq m spAtTopArg closure with ⟨-, -, t, ht, hframes, hhandlers⟩ |
      ⟨-, ret, t, ht, -⟩
    · obtain rfl : s' = t := Sum.inr.inj (h.symm.trans ht)
      exact ⟨Or.inl (hframes ▸ List.prefix_append _ _), .of_eq hhandlers⟩
    · cases h.symm.trans ht
  | regionRestore saved => exact ⟨Or.inr (List.take_prefix _ _), Or.inr (List.take_prefix _ _)⟩

/-- A pointer into code after all the moves. -/
def moveAll (moves : List (Nat → Nat)) (r : Nat × Nat) : Nat × Nat :=
  moves.foldl (fun r move => moveRange move r) r

/-- Where the code at `a` is after all the moves. -/
def moveCode (moves : List (Nat → Nat)) (a : Nat) : Nat := moves.foldl (fun a move => move a) a

theorem ptrOffset_self {p a : Nat} (hp : p < addressSpace) : ptrOffset a (offsetFrom p a) = p := by
  rw [ptrOffset, offsetFrom, Int.add_emod, Int.bmod_emod, ← Int.add_emod,
    show (a : Int) + ((p : Int) - a) = p by omega, Int.emod_eq_of_lt (by omega) (by omega)]
  rfl

theorem ptrOffset_lt (p : Nat) (off : Int) : ptrOffset p off < addressSpace := by
  rw [ptrOffset, addressSpace]
  omega

/-- The pointer keeps its distance from the start of the code. -/
theorem moveAll_eq {moves : List (Nat → Nat)} {a p : Nat} (hp : p < addressSpace) :
    moveAll moves (a, p) =
      (moveCode moves a, ptrOffset (moveCode moves a) (offsetFrom p a)) := by
  induction moves generalizing a p with
  | nil => rw [moveCode, List.foldl_nil, ptrOffset_self hp]; rfl
  | cons move moves ih =>
    have hmoved := ih (a := move a) (ptrOffset_lt (move a) (offsetFrom p a))
    rw [offsetFrom_ptrOffset] at hmoved
    exact hmoved

/-- What lies below the depth of the call has only been moved. -/
theorem Callee.keepsBelow {depth handlers : Nat} {s s' : Interpreter} {moves : List (Nat → Nat)}
    (hr : Callee depth handlers s moves s') (hframes : depth ≤ s.frames.length)
    (hhandlers : handlers ≤ s.handlerFramesDepth.length) :
    s'.frames.take depth = (s.frames.take depth).map (moveAll moves) ∧
      s'.handlerFramesDepth.take handlers =
        (s.handlerFramesDepth.take handlers).map (fun f => (f.1, moveAll moves f.2)) := by
  induction hr with
  | stop s => exact ⟨(List.map_id _).symm, (List.map_id _).symm⟩
  | instr hi hf hh hr ih =>
    obtain ⟨hframes', hhandlers'⟩ := ih hf hh
    rw [hframes', hhandlers', hi.stacked.1.take hframes hf, hi.stacked.2.take hhandlers hh]
    exact ⟨rfl, rfl⟩
  | collect hc hr ih =>
    obtain ⟨hframes', hhandlers'⟩ := ih (by rw [hc.frames, List.length_map]; exact hframes)
      (by rw [hc.handlers, List.length_map]; exact hhandlers)
    rw [hframes', hhandlers', hc.frames, hc.handlers, ← List.map_take, ← List.map_take, List.map_map,
      List.map_map]
    exact ⟨rfl, rfl⟩

/-! ## What the call keeps -/

/-- The interpreter `s'` is where `s` was, after the moves. -/
structure Kept (moves : List (Nat → Nat)) (s s' : Interpreter) : Prop where
  pc : (s'.codeStart, s'.pc) = moveAll moves (s.codeStart, s.pc)
  code : (s'.codeStart, s'.codeEnd) = moveAll moves (s.codeStart, s.codeEnd)
  frames : s'.frames = s.frames.map (moveAll moves)
  handlers : s'.handlerFramesDepth =
    s.handlerFramesDepth.map (fun f => (f.1, moveAll moves f.2))
  handlerSp : s'.handlerSp = s.handlerSp

namespace Interpreter

/-- The loop `run` is a run of the callee, when it is entered. -/
def CalleeRuns (m : Mem) (run : Interpreter → Except InterpError StepResult × Interpreter)
    (s : Interpreter) (spAtTopArg : Nat) (closure : PolyWord) (moves : List (Nat → Nat)) : Prop :=
  match s.regionEnter m spAtTopArg closure with
  | .inl _ => moves = []
  | .inr callee =>
    Callee s.frames.length s.handlerFramesDepth.length callee moves (run callee).2

/-- The result does not depend on what has been put back. -/
theorem regionResult_snd (s : Interpreter) (r : Except InterpError StepResult) :
    ∃ stack sp, (s.regionResult r).2 = s.withStack stack sp := by
  unfold regionResult
  split
  · split
    · exact ⟨_, _, s.withStack_self.symm⟩
    · rename_i h
      unfold push at h
      split at h <;> cases h
      exact ⟨_, _, rfl⟩
  all_goals exact ⟨_, _, s.withStack_self.symm⟩

/-- When `region_interp_call` leaves the interpreter as it was: if the callee runs, the code of the
caller must be where it was when the call began; if not, there must have been no handler. -/
theorem regionInterpCall_keeps_iff (m : Mem)
    (run : Interpreter → Except InterpError StepResult × Interpreter) (s : Interpreter)
    (spAtTopArg : Nat) (closure : PolyWord) (moves : List (Nat → Nat)) (hpc : s.pc < addressSpace)
    (hend : s.codeEnd < addressSpace) (hrun : s.CalleeRuns m run spAtTopArg closure moves) :
    Kept moves s (s.regionInterpCall m run spAtTopArg closure).2 ↔
      if 2 ≤ spAtTopArg ∧ closure.isDataPtr = true then moveCode moves s.codeStart = s.codeStart
      else s.handlerSp = s.stack.length := by
  rcases s.regionEnter_eq m spAtTopArg closure with ⟨hsp, hclosure, callee, henter, hframes, hhandlers⟩ |
    ⟨hno, ret, s', henter, stack, sp, rfl⟩
  · rw [if_pos ⟨hsp, hclosure⟩]
    rw [CalleeRuns, henter] at hrun
    obtain ⟨hbelow, hbelow'⟩ := hrun.keepsBelow (by rw [hframes]; simp) (by rw [hhandlers])
    rw [hframes, List.take_left] at hbelow
    rw [hhandlers, List.take_length] at hbelow'
    obtain ⟨stack, sp, hresult⟩ := (s.regionRestore (run callee).2).regionResult_snd (run callee).1
    have hafter : (s.regionInterpCall m run spAtTopArg closure).2 =
        (s.regionRestore (run callee).2).withStack stack sp := by
      rw [regionInterpCall, henter]
      exact hresult
    rw [hafter]
    constructor
    · intro hkept
      have hpc' := congrArg Prod.fst hkept.pc
      rw [moveAll_eq hpc] at hpc'
      exact hpc'.symm
    · intro hstill
      refine ⟨?_, ?_, hbelow, hbelow', rfl⟩
      · rw [moveAll_eq hpc, hstill, ptrOffset_self hpc]
        rfl
      · rw [moveAll_eq hend, hstill, ptrOffset_self hend]
        rfl
  · rw [if_neg hno]
    rw [CalleeRuns, henter] at hrun
    have hafter : (s.regionInterpCall m run spAtTopArg closure).2 =
        { s with stack, sp, handlerSp := s.stack.length } := by
      rw [regionInterpCall, henter]
    rw [hafter, hrun]
    constructor
    · exact fun hkept => hkept.handlerSp.symm
    · exact fun hsp => ⟨rfl, rfl, (List.map_id _).symm, (List.map_id _).symm, hsp.symm⟩

end Interpreter

/-- A collection moves the code pointers of the collecting thread as `CodeMoved` says. -/
theorem GcRelocated.codeMoved {s s' : GcState} {copied : List Nat} {φ : Nat → Nat}
    (hr : GcRelocated s s' copied φ) (hcode : s.self.codeStart ≠ 0)
    (hsp : s.self.sp ≤ s.self.stack.length) :
    CodeMoved (fun a => ((poolView s.mem s.nurseries).relocate φ true (PolyWord.fromAddr a)).addr)
      s.self s'.self :=
  hr.self ▸ codeMoved_writeBack (publishes_capture s.self) (decide_eq_false hcode) hsp _ φ

/-! ## A caller that moves

The code of the caller is a heap object at `0x1008`, and the callee collects once. -/

def movingMem : Mem := fun a =>
  if a = 0x1000 then makeLengthWord 3 fCodeObj
  else if a = 0x1018 then BitVec.ofInt 64 (-8)
  else if a = 0x8008 then PolyWord.fromAddr 0x9008
  else PolyWord.zero

def movingSpace : MemorySpace := { start := 0x1000, capacity := 8, used := 4, spare := none }

def movingCaller : Interpreter :=
  { stack := List.replicate 8 PolyWord.zero, sp := 6, pc := 0x100a, codeStart := 0x1008
    codeEnd := 0x1018, frames := [], handlerFramesDepth := [], exceptionPacket := none
    threadObject := none, bootstrapTailCall := PolyWord.zero
    recentCallTargets := List.replicate 16 0, handlerSp := 4
    recentCallIdx := 0, untrusted := false }

/-- The machine while `callee` runs. -/
def movingState (callee : Interpreter) : GcState :=
  { mem := movingMem, nurseries := [movingSpace], self := callee.toThreadContext, threadObjAddr := 0
    peers := [], imageMutableRoots := [] }

/-- A callee that collects and returns. -/
def movingRun (callee : Interpreter) : Except InterpError StepResult × Interpreter :=
  match gc weakEnv (movingState callee) with
  | none => (.error .other, callee)
  | some (s, _) => (.ok (.returned (PolyWord.tagged 0)), { callee with toThreadContext := s.self })

def movingMove (a : Nat) : Nat := if a = 0x1008 then 0x4008 else a

/-- The callee at its first instruction. -/
def movingCallee : Interpreter :=
  { movingCaller with
    stack := movingCaller.stack.set 4 (PolyWord.fromAddr 0x8008), sp := 4, pc := 0x9008
    codeStart := 0x9008, codeEnd := 0x9010, frames := [(0x1008, 0x1018)], handlerSp := 8 }

theorem moving_enter :
    movingCaller.regionEnter movingMem 6 (PolyWord.fromAddr 0x8008) = .inr movingCallee := by
  decide

theorem moving_callee : Callee 0 0 movingCallee [movingMove] (movingRun movingCallee).2 := by
  have hself : (gc weakEnv (movingState movingCallee)).map (fun r => r.1.self) = some
      { movingCallee.toThreadContext with
        stack := List.replicate 4 (PolyWord.tagged 0) ++ movingCallee.stack.drop 4
        frames := [(0x4008, 0x4018)] } := by decide +kernel
  obtain ⟨⟨s, used⟩, hgc, hs⟩ := Option.map_eq_some_iff.1 hself
  have hmoved : CodeMoved movingMove movingCallee.toThreadContext s.self := by
    rw [hs]
    exact ⟨by decide, by decide, by decide, by decide⟩
  rw [movingRun, hgc]
  exact .collect hmoved (.stop _)

theorem regionInterpCall_keeps_iff_moving :
    Kept [movingMove] movingCaller
      (movingCaller.regionInterpCall movingMem movingRun 6 (PolyWord.fromAddr 0x8008)).2 ↔
    moveCode [movingMove] 0x1008 = 0x1008 := by
  have hrun : movingCaller.CalleeRuns movingMem movingRun 6 (PolyWord.fromAddr 0x8008)
      [movingMove] := by
    rw [Interpreter.CalleeRuns, moving_enter]
    exact moving_callee
  exact movingCaller.regionInterpCall_keeps_iff movingMem movingRun 6 (PolyWord.fromAddr 0x8008)
    [movingMove] (by decide) (by decide) hrun

/-- The caller's code is at `0x4008` after the collection, but the interpreter goes on at `0x100a`; and
a call of an integer leaves no handler where there was one. -/
theorem not_kept :
    (movingCaller.CalleeRuns movingMem movingRun 6 (PolyWord.fromAddr 0x8008) [movingMove] ∧
      ¬ Kept [movingMove] movingCaller
        (movingCaller.regionInterpCall movingMem movingRun 6 (PolyWord.fromAddr 0x8008)).2) ∧
    (movingCaller.CalleeRuns movingMem movingRun 6 (PolyWord.tagged 0) [] ∧
      ¬ Kept [] movingCaller
        (movingCaller.regionInterpCall movingMem movingRun 6 (PolyWord.tagged 0)).2) := by
  refine ⟨⟨?_, fun hkept => ?_⟩, ⟨?_, fun hkept => ?_⟩⟩
  · rw [Interpreter.CalleeRuns, moving_enter]
    exact moving_callee
  · have hpc := congrArg Prod.fst hkept.pc
    rw [Interpreter.regionInterpCall, moving_enter] at hpc
    obtain ⟨stack, sp, hresult⟩ := (movingCaller.regionRestore
      (movingRun movingCallee).2).regionResult_snd (movingRun movingCallee).1
    dsimp only at hpc
    rw [hresult] at hpc
    exact absurd (show 0x1008 = 0x4008 from hpc) (by decide)
  · rfl
  · have hsp := hkept.handlerSp
    exact absurd hsp (by decide)
