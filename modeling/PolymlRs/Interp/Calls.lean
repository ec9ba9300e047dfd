import PolymlRs.Interp.ThreadRoots

set_option autoImplicit false

/-! # Calls, returns and tail calls

The stack of an interpreter grows down: the slots from `sp` on are live. A call pushes the return
address and the closure and remembers the bounds of the caller's code on the side stack `frames`; a
return takes all of it back. A tail call moves the words of the new frame over those of the current one,
in place, and leaves `frames` alone: `doTailCall_eq` says that this is a return followed by a call, if the
call is interpreted. -/

/-- What stops an interpreter, as far as the calls go. -/
inductive InterpError
  | stackOverflow
  | stackUnderflow
  | notAClosure (w : PolyWord)
  | badImage
  | divByZero
  | unhandledException
  | other
deriving DecidableEq, Repr

/-- What a step ends with. -/
inductive StepResult
  | continue
  | returned (w : PolyWord)
deriving DecidableEq, Repr

/-- The state the calls use. -/
structure Interpreter extends ThreadContext where
  handlerSp : Nat
  recentCallIdx : Nat
  untrusted : Bool
deriving DecidableEq, Repr

/-- Native code: what the interpreter does instead of entering the closure. -/
abbrev NativeCall := Mem → Interpreter → PolyWord → Except InterpError (Mem × Interpreter)

/-- The native code an interpreter knows, by the code word of a closure, and the check of a closure in
untrusted mode. -/
structure Native where
  validateCall : PolyWord → Bool
  /-- The compiled region of a code object, when regions can be dispatched. -/
  region : PolyWord → Option NativeCall
  /-- The compiled function of a code object, outside other compiled functions. -/
  jit : PolyWord → Option NativeCall

namespace Interpreter

/-- The live part of the stack, the top first. -/
def live (s : Interpreter) : List PolyWord := s.stack.drop s.sp

def withStack (s : Interpreter) (stack : List PolyWord) (sp : Nat) : Interpreter := { s with stack, sp }

def push (s : Interpreter) (w : PolyWord) : Except InterpError Interpreter :=
  if s.sp = 0 then .error .stackOverflow
  else .ok (s.withStack (s.stack.set (s.sp - 1) w) (s.sp - 1))

def pop (s : Interpreter) : Except InterpError (PolyWord × Interpreter) :=
  match s.stack[s.sp]? with
  | none => .error .stackUnderflow
  | some w => .ok (w, s.withStack s.stack (s.sp + 1))

/-- Pop `n` words. -/
def popMany (s : Interpreter) : Nat → Except InterpError Interpreter
  | 0 => .ok s
  | n + 1 => do
    let (_, s) ← s.pop
    s.popMany n

/-- Enter the code object `codeObj` at its first byte. -/
def enter (m : Mem) (s : Interpreter) (codeObj : Nat) : Interpreter :=
  { s with codeStart := codeObj, codeEnd := (constSegmentForCode m codeObj).1, pc := codeObj }

/-- Save the caller's bounds on the side stack. -/
def pushFrame (s : Interpreter) : Interpreter := { s with frames := s.frames ++ [(s.codeStart, s.codeEnd)] }

/-- Note the call in the ring of recent call targets. -/
def recordCall (s : Interpreter) (codeObj : Nat) : Interpreter :=
  { s with
    recentCallTargets := s.recentCallTargets.set s.recentCallIdx codeObj
    recentCallIdx := (s.recentCallIdx + 1) % s.recentCallTargets.length }

def doCall (native : Native) (m : Mem) (s : Interpreter) (closure : PolyWord) :
    Except InterpError (Mem × Interpreter) :=
  if s.untrusted && !native.validateCall closure then .error .badImage
  else if !closure.isDataPtr || closure.addr % 8 != 0 then .error (.notAClosure closure)
  else match native.region (m closure.addr) with
  | some call => call m s closure
  | none => match native.jit (m closure.addr) with
    | some call => call m s closure
    | none => do
      let s ← s.push (PolyWord.fromAddr s.pc)
      let s ← s.push closure
      let codeWord := m closure.addr
      -- an exception packet that is called by mistake
      if codeWord = closure then .error (.notAClosure closure)
      else .ok (m, (s.pushFrame.recordCall codeWord.addr).enter m codeWord.addr)

/-- Go on in the caller. -/
def resume (s : Interpreter) (frames : List (Nat × Nat)) (callerStart callerEnd pc : Nat) :
    Interpreter := { s with frames, codeStart := callerStart, codeEnd := callerEnd, pc }

/-- `RETURN_N`: result, closure, return address and `returnCount` arguments. A null return address
yields to the host. -/
def doReturn (s : Interpreter) (returnCount : Nat) : Except InterpError (StepResult × Interpreter) := do
  let (result, s) ← s.pop
  let (_, s) ← s.pop
  let (retPc, s) ← s.pop
  let s ← s.popMany returnCount
  let s ← s.push result
  if retPc = PolyWord.zero then
    let (result, s) ← s.pop
    .ok (.returned result, s)
  else match s.frames.getLast? with
  | none => .error .stackUnderflow
  | some (callerStart, callerEnd) =>
    .ok (.continue, s.resume s.frames.dropLast callerStart callerEnd retPc.addr)

/-- Copy the `n` words below `src` to below `dst`, the highest first. -/
def copyDown (stack : List PolyWord) (src dst : Nat) : Nat → List PolyWord
  | 0 => stack
  | n + 1 =>
    copyDown (stack.set (dst - 1) (stack.getD (src - 1) PolyWord.zero)) (src - 1) (dst - 1) n

def doTailCall (m : Mem) (s : Interpreter) (tailCount skip : Nat) : Except InterpError Interpreter :=
  if tailCount < 2 then .error .stackUnderflow
  else
    let tailPtr := s.sp + tailCount
    if tailPtr + skip > s.stack.length then .error .stackUnderflow
    else do
      let s := s.withStack (copyDown s.stack tailPtr (tailPtr + skip) tailCount) (s.sp + skip)
      let (retPc, s) ← s.pop
      let (closure, s) ← s.pop
      if !closure.isDataPtr then .error (.notAClosure closure)
      else do
        let s ← s.push retPc
        let s ← s.push closure
        -- `frames` keeps the entry of the caller: the callee returns to it
        .ok (s.enter m (m closure.addr).addr)

/-! ## The stack operations -/

section Stack

variable (s : Interpreter) {stack : List PolyWord} {sp : Nat}

theorem withStack_self : s.withStack s.stack s.sp = s := rfl

@[simp] theorem withStack_withStack (stack' : List PolyWord) (sp' : Nat) :
    (s.withStack stack sp).withStack stack' sp' = s.withStack stack' sp' := rfl

@[simp] theorem stack_withStack : (s.withStack stack sp).stack = stack := rfl

@[simp] theorem sp_withStack : (s.withStack stack sp).sp = sp := rfl

@[simp] theorem live_withStack : (s.withStack stack sp).live = stack.drop sp := rfl

theorem push_withStack (stack : List PolyWord) (sp : Nat) (w : PolyWord) (h : 0 < sp) :
    (s.withStack stack sp).push w = .ok (s.withStack (stack.set (sp - 1) w) (sp - 1)) := by
  simp [push, withStack, Nat.ne_of_gt h]

theorem drop_set_pred (stack : List PolyWord) (sp : Nat) (w : PolyWord) (h : 0 < sp)
    (hle : sp ≤ stack.length) :
    (stack.set (sp - 1) w).drop (sp - 1) = w :: stack.drop sp := by
  have hlt : sp - 1 < sp := Nat.sub_lt h Nat.one_pos
  rw [List.drop_eq_getElem_cons (by rw [List.length_set]; exact Nat.lt_of_lt_of_le hlt hle),
    List.getElem_set_self, Nat.sub_add_cancel h, List.drop_set_of_lt hlt]

theorem lt_length_of_drop {w : PolyWord} {rest : List PolyWord} (h : stack.drop sp = w :: rest) :
    sp < stack.length := by
  by_contra hge
  rw [List.drop_eq_nil_of_le (Nat.le_of_not_lt hge)] at h
  cases h

theorem drop_succ {w : PolyWord} {rest : List PolyWord} (h : stack.drop sp = w :: rest) :
    stack.drop (sp + 1) = rest := by
  rw [List.drop_eq_getElem_cons (lt_length_of_drop h)] at h
  injection h

theorem pop_withStack {w : PolyWord} {rest : List PolyWord} (h : stack.drop sp = w :: rest) :
    (s.withStack stack sp).pop = .ok (w, s.withStack stack (sp + 1)) := by
  have hlt := lt_length_of_drop h
  rw [List.drop_eq_getElem_cons hlt] at h
  injection h with hw
  simp [pop, withStack, List.getElem?_eq_getElem hlt, hw]

theorem popMany_withStack {ws rest : List PolyWord} (h : stack.drop sp = ws ++ rest) :
    (s.withStack stack sp).popMany ws.length = .ok (s.withStack stack (sp + ws.length)) := by
  induction ws generalizing sp with
  | nil => rfl
  | cons w ws ih =>
    have hmany := ih (drop_succ h)
    rw [Nat.add_assoc, Nat.add_comm 1] at hmany
    simp only [List.length_cons, popMany, pop_withStack s h, bind, Except.bind, hmany]

/-- What a return does to a frame: the result replaces the arguments, the caller goes on. -/
theorem doReturn_eq {result closure retPc : PolyWord} {args rest : List PolyWord}
    {frames : List (Nat × Nat)} {callerStart callerEnd : Nat}
    (h : stack.drop sp = result :: closure :: retPc :: args ++ rest) (hret : retPc ≠ PolyWord.zero)
    (hframes : s.frames = frames ++ [(callerStart, callerEnd)]) :
    ∃ stack', (s.withStack stack sp).doReturn args.length = .ok (.continue,
        (s.resume frames callerStart callerEnd retPc.addr).withStack stack' (sp + 2 + args.length)) ∧
      stack'.length = stack.length ∧ stack'.drop (sp + 2 + args.length) = result :: rest := by
  have h2 := drop_succ h
  have h3 := drop_succ h2
  have h4 := drop_succ h3
  have hlen : sp + 1 + 1 + 1 + args.length ≤ stack.length := by
    have := congrArg List.length h
    simp at this
    omega
  have hrest : stack.drop (sp + 1 + 1 + 1 + args.length) = rest := by
    rw [← List.drop_drop, h4]
    simp
  have hsp : sp + 1 + 1 + 1 + args.length - 1 = sp + 2 + args.length := by omega
  have hpush := push_withStack s stack (sp + 1 + 1 + 1 + args.length) result
    (by omega)
  have hlive := drop_set_pred stack (sp + 1 + 1 + 1 + args.length) result
    (by omega) hlen
  rw [hsp] at hpush hlive
  refine ⟨stack.set (sp + 2 + args.length) result, ?_, List.length_set .., hlive.trans (by rw [hrest])⟩
  have hlast : (s.withStack (stack.set (sp + 2 + args.length) result)
      (sp + 2 + args.length)).frames.getLast? = some (callerStart, callerEnd) := by
    simp [withStack, hframes]
  simp only [doReturn, pop_withStack s h, pop_withStack s h2, pop_withStack s h3,
    popMany_withStack s h4, hpush, bind, Except.bind, if_neg hret, hlast]
  simp [withStack, resume, hframes]

theorem length_copyDown (src dst n : Nat) : (copyDown stack src dst n).length = stack.length := by
  induction n generalizing stack src dst with
  | zero => rfl
  | succ n ih => rw [copyDown, ih, List.length_set]

/-- The words arrive whole, however the two places overlap: the highest is copied first. -/
theorem copyDown_getElem? (src dst n : Nat) (hle : src ≤ dst) (hlen : dst + n ≤ stack.length) (j : Nat) :
    (copyDown stack (src + n) (dst + n) n)[j]? =
      if dst ≤ j ∧ j < dst + n then stack[src + (j - dst)]? else stack[j]? := by
  induction n generalizing stack with
  | zero =>
    rw [if_neg (by omega)]
    rfl
  | succ n ih =>
    have hset : dst + n < stack.length := hlen
    have hsrc : src + n < stack.length := Nat.lt_of_le_of_lt (Nat.add_le_add_right hle n) hset
    rw [copyDown, Nat.add_succ_sub_one, Nat.add_succ_sub_one, ih (by rw [List.length_set]; omega)]
    by_cases hin : dst ≤ j ∧ j < dst + n
    · -- what is still to be copied lies below the slot just written
      rw [if_pos hin, if_pos (by omega), List.getElem?_set_ne (by omega)]
    · rw [if_neg hin]
      by_cases hj : j = dst + n
      · subst hj
        rw [if_pos (by omega), List.getElem?_set_self hset, Nat.add_sub_cancel_left,
          List.getD_eq_getElem?_getD, List.getElem?_eq_getElem hsrc]
        rfl
      · rw [if_neg (by omega), List.getElem?_set_ne (Ne.symm hj)]

/-- The words on top of the stack take the place of the words they skip. -/
theorem drop_copyDown {ws skipped rest : List PolyWord} (h : stack.drop sp = ws ++ skipped ++ rest)
    (hle : sp ≤ stack.length) :
    (copyDown stack (sp + ws.length) (sp + ws.length + skipped.length) ws.length).drop
      (sp + skipped.length) = ws ++ rest := by
  have hlen : ws.length + skipped.length + rest.length = stack.length - sp := by
    have := congrArg List.length h
    simp at this
    omega
  have hdst : sp + ws.length + skipped.length = sp + skipped.length + ws.length := by omega
  have hold : ∀ i, stack[sp + i]? = (ws ++ skipped ++ rest)[i]? := by
    intro i
    rw [← h, List.getElem?_drop]
  refine List.ext_getElem? (fun i => ?_)
  rw [hdst, List.getElem?_drop, copyDown_getElem? _ _ _ (Nat.le_add_right ..) (by omega)]
  by_cases hi : i < ws.length
  · rw [if_pos (by omega), Nat.add_sub_cancel_left, hold, List.append_assoc,
      List.getElem?_append_left hi, List.getElem?_append_left hi]
  · rw [if_neg (by omega), Nat.add_assoc, hold, List.getElem?_append_right (by simp; omega),
      List.getElem?_append_right (by omega)]
    congr 1
    simp
    omega

/-- A tail call: the new frame lies where the old one lay, below it nothing has changed. -/
theorem doTailCall_eq_ok {m : Mem} {retPc closure : PolyWord} {args skipped rest : List PolyWord}
    (h : stack.drop sp = retPc :: closure :: args ++ skipped ++ rest)
    (hclosure : closure.isDataPtr = true) :
    ∃ stack', (s.withStack stack sp).doTailCall m (args.length + 2) skipped.length =
        .ok ((s.withStack stack' (sp + skipped.length)).enter m (m closure.addr).addr) ∧
      stack'.length = stack.length ∧
      stack'.drop (sp + skipped.length) = closure :: retPc :: args ++ rest := by
  have hlt := @lt_length_of_drop stack sp retPc (closure :: args ++ skipped ++ rest) h
  have hlen : args.length + 2 + skipped.length + rest.length = stack.length - sp := by
    have := congrArg List.length h
    simp at this
    omega
  have hcopy := @drop_copyDown stack sp (retPc :: closure :: args) skipped rest h (Nat.le_of_lt hlt)
  simp only [List.length_cons] at hcopy
  generalize hst : copyDown stack (sp + (args.length + 2)) (sp + (args.length + 2) + skipped.length)
    (args.length + 2) = st at hcopy
  have hstlen : st.length = stack.length := by rw [← hst, length_copyDown]
  have h1 := drop_succ hcopy
  have h2 := drop_succ h1
  have hpush1 := push_withStack s st (sp + skipped.length + 1 + 1) retPc (by omega)
  have hlive1 := drop_set_pred st (sp + skipped.length + 1 + 1) retPc
    (by omega) (by omega)
  rw [Nat.add_sub_cancel] at hpush1 hlive1
  have hpush2 := push_withStack s (st.set (sp + skipped.length + 1) retPc)
    (sp + skipped.length + 1) closure (by omega)
  have hlive2 := drop_set_pred (st.set (sp + skipped.length + 1) retPc)
    (sp + skipped.length + 1) closure (by omega) (by rw [List.length_set]; omega)
  rw [Nat.add_sub_cancel] at hpush2 hlive2
  refine ⟨(st.set (sp + skipped.length + 1) retPc).set (sp + skipped.length) closure, ?_, ?_, ?_⟩
  · have hroom : ¬ sp + (args.length + 2) + skipped.length > stack.length := by omega
    have htwo : ¬ args.length + 2 < 2 := by omega
    simp only [doTailCall, if_neg htwo, stack_withStack, sp_withStack, if_neg hroom,
      withStack_withStack, hst, pop_withStack s hcopy, pop_withStack s h1, bind, Except.bind, hclosure,
      Bool.not_true, Bool.false_eq_true, if_false, hpush1, hpush2]
  · rw [List.length_set, List.length_set, hstlen]
  · rw [hlive2, hlive1, h2]
    rfl

/-- An interpreted call: the return address and the closure on top of the arguments, and the bounds of
the caller's code on `frames`. -/
theorem doCall_eq_ok (native : Native) (m : Mem) {closure : PolyWord} (stack : List PolyWord) (sp : Nat)
    (hsp : 2 ≤ sp) (hle : sp ≤ stack.length) (hclosure : closure.isDataPtr = true)
    (halign : closure.addr % 8 = 0)
    (hself : m closure.addr ≠ closure)
    (hvalid : s.untrusted = true → native.validateCall closure = true)
    (hregion : native.region (m closure.addr) = none) (hjit : native.jit (m closure.addr) = none) :
    ∃ stack', (s.withStack stack sp).doCall native m closure =
        .ok (m, ((s.withStack stack' (sp - 2)).pushFrame.recordCall (m closure.addr).addr).enter m
          (m closure.addr).addr) ∧
      stack'.length = stack.length ∧
      stack'.drop (sp - 2) = closure :: PolyWord.fromAddr s.pc :: stack.drop sp := by
  have hpush1 := push_withStack s stack sp (PolyWord.fromAddr s.pc)
    (Nat.lt_of_lt_of_le Nat.two_pos hsp)
  have hlive1 := drop_set_pred stack sp (PolyWord.fromAddr s.pc)
    (Nat.lt_of_lt_of_le Nat.two_pos hsp) hle
  have hpush2 := push_withStack s (stack.set (sp - 1) (PolyWord.fromAddr s.pc)) (sp - 1) closure
    (Nat.sub_pos_of_lt hsp)
  have hlive2 := drop_set_pred (stack.set (sp - 1) (PolyWord.fromAddr s.pc)) (sp - 1) closure
    (Nat.sub_pos_of_lt hsp)
    (by rw [List.length_set]; exact Nat.le_trans (Nat.sub_le sp 1) hle)
  have huntrusted : (s.untrusted && !native.validateCall closure) = false := by
    cases hu : s.untrusted with
    | false => rfl
    | true => simp [hvalid hu]
  refine ⟨_, ?_, ?_, hlive2.trans (by rw [hlive1])⟩
  · have hpc : (s.withStack stack sp).pc = s.pc := rfl
    have hun : (s.withStack stack sp).untrusted = s.untrusted := rfl
    simp only [doCall, hun, huntrusted, hclosure, halign, hregion, hjit, hpc, hpush1, hpush2, bind,
      Except.bind, Bool.false_eq_true, Bool.not_true, bne_self_eq_false, Bool.or_self, if_false,
      if_neg hself]
    rfl
  · rw [List.length_set, List.length_set]

end Stack

/-- The stack with `live` as its live part. -/
def withLive (s : Interpreter) (live : List PolyWord) : Interpreter :=
  s.withStack (s.stack.take (s.stack.length - live.length) ++ live) (s.stack.length - live.length)

/-- What code that runs can see of the interpreter: the free part of the stack only by its size, and
nothing of the ring of call targets. -/
structure Visible where
  live : List PolyWord
  room : Nat
  pc : Nat
  codeStart : Nat
  codeEnd : Nat
  frames : List (Nat × Nat)
  handlerSp : Nat
  handlerFramesDepth : List (Nat × Nat × Nat)
  exceptionPacket : Option PolyWord
  threadObject : Option PolyWord
  bootstrapTailCall : PolyWord
  untrusted : Bool
deriving DecidableEq

def visible (s : Interpreter) : Visible :=
  { s with live := s.live, room := s.sp }

theorem withLive_eq (s : Interpreter) (live : List PolyWord) (h : live.length ≤ s.stack.length) :
    ∃ stack, s.withLive live = s.withStack stack (s.stack.length - live.length) ∧
      stack.length = s.stack.length ∧ stack.drop (s.stack.length - live.length) = live := by
  refine ⟨_, rfl, ?_, ?_⟩
  · rw [List.length_append, List.length_take]
    omega
  · rw [List.drop_append_of_le_length (by rw [List.length_take]; omega),
      List.drop_of_length_le (by rw [List.length_take]; omega)]
    rfl

/-- A tail call from a frame of `skip` words is a return from the frame and a call of the closure from
the point the frame returns to, when that call is interpreted. -/
theorem doTailCall_eq {native : Native} {m : Mem} {s : Interpreter}
    {retPc closure result self : PolyWord} {args locals own rest : List PolyWord}
    {frames : List (Nat × Nat)} {callerStart callerEnd tailCount skip : Nat}
    (hlive : s.live = retPc :: closure :: args ++ (locals ++ self :: retPc :: own) ++ rest)
    (htail : tailCount = args.length + 2) (hskip : skip = locals.length + 2 + own.length)
    (hret : retPc ≠ PolyWord.zero) (hframes : s.frames = frames ++ [(callerStart, callerEnd)])
    (hclosure : closure.isDataPtr = true) (halign : closure.addr % 8 = 0)
    (hself : m closure.addr ≠ closure)
    (hvalid : s.untrusted = true → native.validateCall closure = true)
    (hregion : native.region (m closure.addr) = none) (hjit : native.jit (m closure.addr) = none) :
    ∃ t v x, s.doTailCall m tailCount skip = .ok t ∧
      (s.withLive (result :: self :: retPc :: own ++ rest)).doReturn own.length = .ok (.continue, v) ∧
      (v.withLive (args ++ rest)).doCall native m closure = .ok (m, x) ∧
      t.visible = x.visible ∧ t.live = closure :: retPc :: args ++ rest ∧
      ∀ (z : Interpreter) (value : PolyWord), z.frames = t.frames → z.live = value :: t.live →
        ∃ z', z.doReturn args.length = .ok (.continue, z') ∧ z'.live = value :: rest ∧
          z'.frames = frames ∧ z'.codeStart = callerStart ∧ z'.codeEnd = callerEnd ∧
          z'.pc = retPc.addr := by
  have hlen : args.length + 2 + skip + rest.length = s.stack.length - s.sp := by
    have := congrArg List.length hlive
    simp [live] at this
    omega
  have hsp := @lt_length_of_drop s.stack s.sp _ _ hlive
  -- the tail call
  obtain ⟨st, htc, hst, hstlive⟩ := doTailCall_eq_ok s (m := m) hlive hclosure
  have hskip' : (locals ++ self :: retPc :: own).length = skip := by
    simp [hskip]
    omega
  rw [hskip', withStack_self, ← htail] at htc
  rw [hskip'] at hstlive
  -- the return
  obtain ⟨st1, hwl1, hst1, hdrop1⟩ := s.withLive_eq (result :: self :: retPc :: own ++ rest)
    (by simp; omega)
  obtain ⟨st2, hdr, hst2, hdrop2⟩ := doReturn_eq s hdrop1 hret hframes
  -- the call
  obtain ⟨st3, hwl3, hst3, hdrop3⟩ := ((s.resume frames callerStart callerEnd retPc.addr).withStack st2
    (s.stack.length - (result :: self :: retPc :: own ++ rest).length + 2 + own.length)).withLive_eq
      (args ++ rest) (by simp; omega)
  simp only [stack_withStack, withStack_withStack] at hwl3 hst3 hdrop3
  have hroom : st2.length - (args ++ rest).length = s.sp + skip + 2 := by
    simp
    omega
  rw [hroom] at hwl3 hdrop3
  obtain ⟨st4, hdc, hst4, hdrop4⟩ := doCall_eq_ok
    (s.resume frames callerStart callerEnd retPc.addr) native m st3 (s.sp + skip + 2) (by omega)
    (by omega) hclosure halign hself hvalid hregion hjit
  have hword : PolyWord.fromAddr retPc.addr = retPc := BitVec.ofNat_toNat ..
  rw [Nat.add_sub_cancel, hdrop3] at hdrop4
  rw [← hwl1] at hdr
  rw [← hwl3] at hdc
  refine ⟨_, _, _, htc, hdr, hdc, ?_, ?_, ?_⟩
  · have hl : st.drop (s.sp + skip) = st4.drop (s.sp + skip) := by
      rw [hstlive, hdrop4]
      exact congrArg (fun w => closure :: w :: (args ++ rest)) hword.symm
    simp [visible, enter, recordCall, pushFrame, resume, withStack, live, hl, hframes]
  · exact hstlive
  · intro z value hzf hzl
    have hzl' : z.stack.drop z.sp = value :: closure :: retPc :: args ++ rest := hzl.trans
      (congrArg (value :: ·) hstlive)
    obtain ⟨st5, hdr5, -, hdrop5⟩ := doReturn_eq z hzl' hret (hzf.trans hframes)
    exact ⟨_, hdr5, hdrop5, rfl, rfl, rfl, rfl⟩

/-- A frame of one local and one argument is about to call the closure at `0x2000` with two arguments;
it returns into the code object at `0x3000`. -/
def loopState : Interpreter :=
  { stack := [0#64, 0x3008#64, 0x2000#64, 5#64, 7#64, 9#64, 0x2010#64, 0x3008#64, 11#64, 13#64]
    sp := 1, pc := 0x1004, codeStart := 0x1000, codeEnd := 0x1010, frames := [(0x3000, 0x3010)]
    handlerFramesDepth := [], exceptionPacket := none, threadObject := none
    bootstrapTailCall := PolyWord.zero, recentCallTargets := [0], handlerSp := 10
    recentCallIdx := 0, untrusted := false }

/-- The closure at `0x2000` is of the code object at `0x1000`. -/
def loopMem : Mem := fun a => if a = 0x2000 then 0x1000#64 else if a = 0x0ff8 then 2#64 else 0#64

/-- No native code. -/
def interpreted : Native :=
  { validateCall := fun _ => true, region := fun _ => none, jit := fun _ => none }

theorem doTailCall_eq_loop :
    ∃ t v x, loopState.doTailCall loopMem 4 4 = .ok t ∧
      (loopState.withLive [15#64, 0x2010#64, 0x3008#64, 11#64, 13#64]).doReturn 1 =
        .ok (.continue, v) ∧
      (v.withLive [5#64, 7#64, 13#64]).doCall interpreted loopMem 0x2000#64 = .ok (loopMem, x) ∧
      t.visible = x.visible := by
  have hlive : loopState.live = 0x3008#64 :: 0x2000#64 :: [5#64, 7#64] ++
      ([9#64] ++ 0x2010#64 :: 0x3008#64 :: [11#64]) ++ [13#64] := rfl
  have hframes : loopState.frames = [] ++ [(0x3000, 0x3010)] := rfl
  obtain ⟨t, v, x, ht, hv, hx, heq, -⟩ := @doTailCall_eq interpreted loopMem loopState 0x3008#64
    0x2000#64 15#64 0x2010#64 [5#64, 7#64] [9#64] [11#64] [13#64] [] 0x3000 0x3010 4 4 hlive rfl rfl
    (by decide) hframes (by decide) (by decide) (by decide) (by decide) rfl rfl
  exact ⟨t, v, x, ht, hv, hx, heq⟩

/-- The code object at `0x1000` has a compiled function of two arguments, which gives 7. -/
def compiled : Native :=
  { interpreted with
    jit := fun w => if w = 0x1000#64 then
      some (fun m s _ => .ok (m, s.withLive (15#64 :: s.live.drop 2))) else none }

/-- The call runs the compiled function, the tail call enters the interpreted one. -/
theorem doTailCall_ne_compiled :
    ∃ t v x, loopState.doTailCall loopMem 4 4 = .ok t ∧
      (loopState.withLive [15#64, 0x2010#64, 0x3008#64, 11#64, 13#64]).doReturn 1 =
        .ok (.continue, v) ∧
      (v.withLive [5#64, 7#64, 13#64]).doCall compiled loopMem 0x2000#64 = .ok (loopMem, x) ∧
      t.visible ≠ x.visible := ⟨_, _, _, rfl, rfl, rfl, by decide⟩

end Interpreter
