import PolymlRs.Interp.CallStack
import PolymlRs.Interp.RegionCall
import PolymlRs.Interp.StackSlots

set_option autoImplicit false

/-! # The side stacks of the interpreter

The interpreter keeps the bounds of the callers' code in `frames` and those of the handlers' code in
`handler_frames_depth`, beside the stack, where the return addresses and the handlers themselves lie among
all other words. `Tracks` says that the three fit together, and that they are a `CallStack`. Each
instruction keeps it so; runs and their collections are in `Interp.SideStackRuns`. -/

open CallStack

/-! ## What the interpreter does -/

namespace Interpreter

/-- A push that does nothing where there is no room. -/
def seedPush (s : Interpreter) (w : PolyWord) : Interpreter :=
  match s.push w with
  | .ok s => s
  | .error _ => s

def jitSetCodeSegmentToClosure (m : Mem) (s : Interpreter) (closure : PolyWord) :
    Except InterpError Interpreter :=
  if !closure.isDataPtr then .error (.notAClosure closure)
  else
    let codeWord := m closure.addr
    if !codeWord.isDataPtr then .error (.notAClosure closure) else .ok (s.enter m codeWord.addr)

/-- How `jit_dispatch_closure_call` enters the interpreter: the frame by hand, nothing on `frames`. -/
def jitDispatchEnter (m : Mem) (s : Interpreter) (closure : PolyWord) (args : List PolyWord) :
    Except InterpError Interpreter :=
  (((args.foldl seedPush s).seedPush PolyWord.zero).seedPush closure).jitSetCodeSegmentToClosure m closure

end Interpreter

/-- Where the program counter can get to: a byte is fetched only before the end of the code, and a jump
that leaves it is an error. -/
inductive PcRuns (start stop : Nat) : Nat → Nat → Prop
  | stay (pc : Nat) : PcRuns start stop pc pc
  | fetch {pc pc' : Nat} (h : pc < stop) (hr : PcRuns start stop (pc + 1) pc') : PcRuns start stop pc pc'
  | jump {pc target pc' : Nat} (h : start ≤ target ∧ target ≤ stop) (hr : PcRuns start stop target pc') :
      PcRuns start stop pc pc'

/-- The code that starts at `a` is at `move a` after the collection, which has copied objects to `φ`. -/
def GcState.codeMove (s : GcState) (φ : Nat → Nat) (a : Nat) : Nat :=
  ((poolView s.mem s.nurseries).relocate φ true (PolyWord.fromAddr a)).addr

/-- The thread `t` of the machine, which collects or is parked, is `t'` after the collection. -/
inductive ThreadIn (s s' : GcState) : ThreadContext → ThreadContext → Prop
  | collects : ThreadIn s s' s.self s'.self
  | parked {i : Nat} {p p' : Peer} {t t' : ThreadContext} {r r' : ThreadRoots} (hp : s.peers[i]? = some p)
      (hr : p.parkedRoots = some (.thread t r)) (hpub : Publishes t r) (hp' : s'.peers[i]? = some p')
      (hr' : p'.parkedRoots = some (.thread t' r')) : ThreadIn s s' t t'

/-- The code that the thread has the bounds of. -/
def ThreadContext.codeRanges (t : ThreadContext) : List (Nat × Nat) :=
  (t.codeStart, t.codeEnd) :: (t.frames ++ t.handlerFramesDepth.map Prod.snd)

/-- What the interpreter does at an event. A call that native code takes over is an `other` instruction: it
has to leave the registers and the side stacks as they were. -/
inductive Exec (native : Native) : Event → Interpreter → Interpreter → Prop
  | other {s s' : Interpreter} {writes : List Nat} (hpc : PcRuns s.codeStart s.codeEnd s.pc s'.pc)
      (hlength : s'.stack.length = s.stack.length)
      (hwrites : ∀ i, i ∉ writes → s'.stack[i]? = s.stack[i]?)
      (hcode : s'.codeStart = s.codeStart ∧ s'.codeEnd = s.codeEnd) (hsides : s.SameSides s')
      (hhandler : s'.handlerSp = s.handlerSp) : Exec native (.other s'.sp s'.pc writes) s s'
  | call {m m' : Mem} {s s' : Interpreter} {closure : PolyWord} (args : Nat)
      (hregion : native.region (m closure.addr) = none) (hjit : native.jit (m closure.addr) = none)
      (h : s.doCall native m closure = .ok (m', s')) :
      Exec native (.call args s'.codeStart s'.codeEnd) s s'
  | dispatch {m : Mem} {s s' : Interpreter} {closure : PolyWord} {args : List PolyWord}
      (h : s.jitDispatchEnter m closure args = .ok s') :
      Exec native (.dispatch args.length s'.codeStart s'.codeEnd) s s'
  | ret {s s' : Interpreter} {args : Nat} (h : s.doReturn args = .ok (.continue, s')) :
      Exec native (.ret args) s s'
  | tail {m : Mem} {s s' : Interpreter} {retPc : PolyWord} {tailCount skip : Nat}
      (hretPc : s.stack[s.sp]? = some retPc) (h : s.doTailCall m tailCount skip = .ok s') :
      Exec native (.tail retPc.addr tailCount skip s'.codeStart s'.codeEnd) s s'
  | pushHandler {s s' : Interpreter} (h : s.push (.ofNat 64 s.handlerSp) = .ok s') :
      Exec native .pushHandler s s'
  | setHandler {s s' : Interpreter} {entry : Nat} (h : s.setHandler entry = .ok s') :
      Exec native (.setHandler entry) s s'
  | deleteHandler {s s' : Interpreter} (h : s.deleteHandler = .ok s') : Exec native .deleteHandler s s'
  /-- `RAISE_EX`, `Overflow`, `Interrupt` and an exception of a runtime call have all pushed the packet
  before: an `other` instruction. -/
  | raise {s s' : Interpreter} (h : s.doRaiseEx = (.ok (), s')) : Exec native .raise s s'
  /-- The slots of the stack have no addresses in a from-space, and the heap is in order. -/
  | collect {env : GcEnv} {g g' : GcState} {used : Option Nat} {copied : List Nat} {φ : Nat → Nat}
      {s : Interpreter} {t : ThreadContext} (hpool : PoolOk g.mem g.nurseries)
      (hslots : ∀ a ≤ s.stack.length, ¬ InSpaces g.nurseries a)
      (hcode : ∀ f ∈ s.codeRanges, CodeRange (InSpaces g.nurseries) (poolView g.mem g.nurseries) f.1 f.2)
      (hgc : gc env g = some (g', used)) (hmoved : GcRelocated g g' copied φ)
      (hin : ThreadIn g g' s.toThreadContext t) :
      Exec native (.collect (g.codeMove φ)) s { s with toThreadContext := t }

/-- The interpreter from event to event. -/
inductive Runs (native : Native) : Interpreter → List Event → Interpreter → Prop
  | stop (s : Interpreter) : Runs native s [] s
  | next {s s' s'' : Interpreter} {e : Event} {es : List Event} (he : Exec native e s s')
      (hr : Runs native s' es s'') : Runs native s (e :: es) s''

/-! ## How the stacks fit together -/

/-- The words of a mark, with the marks `below` it on the stack. -/
def StackMark.Holds (stack : List PolyWord) (below : List StackMark) : StackMark → Prop
  | .frame slot _ caller => stack[slot]? = some (PolyWord.fromAddr (retAddr caller))
  | .saved slot => stack[slot]? = some (.ofNat 64 (handlerTop stack.length below))
  | .handler slot entry => stack[slot]? = some (PolyWord.fromAddr entry.pc) ∧
      stack[slot + 1]? = some (.ofNat 64 (handlerTop stack.length below))

/-- The marks lie on the stack from `sp` on, one above the other. -/
def Laid (stack : List PolyWord) : Nat → List StackMark → Prop
  | sp, [] => sp ≤ stack.length
  | sp, m :: below => sp ≤ m.low ∧ m.Holds stack below ∧ Laid stack m.above below

namespace Interpreter

def point (s : Interpreter) : CodePoint := { start := s.codeStart, stop := s.codeEnd, pc := s.pc }

end Interpreter

/-- The interpreter is at the call stack `a`. `depth` callers and `handlers` handlers are those of an
interpreter that this one is nested in. -/
structure Tracks (depth handlers : Nat) (s : Interpreter) (a : CallStack) : Prop where
  sp : s.sp = a.sp
  now : s.point = a.now
  valid : a.now.Valid
  laid : Laid s.stack a.sp a.marks
  /-- Every place that is gone back to is in the code it belongs to. -/
  points : ∀ m ∈ a.marks, ∀ p, m.point = some p → p.Valid ∧ p.pc < p.stop
  frames : ∃ outer, outer.length = depth ∧ s.frames = outer ++ frameRanges a.marks
  entries : ∃ outer, outer.length = handlers ∧ s.handlerFramesDepth = outer ++ handlerEntries depth a.marks
  handlerSp : s.handlerSp = handlerTop s.stack.length a.marks
  fits : s.stack.length < 0x8000000000000000

/-! ## The marks on the stack -/

section Laid

variable {stack stack' : List PolyWord} {sp sp' : Nat} {marks : List StackMark}

theorem StackMark.low_le_above (m : StackMark) : m.low ≤ m.above := by
  cases m <;> simp only [StackMark.low, StackMark.above] <;> omega

theorem StackMark.low_le_slots {m : StackMark} {i : Nat} (hi : i ∈ m.slots) : m.low ≤ i := by
  cases m <;> simp only [StackMark.slots, List.mem_cons, List.not_mem_nil, or_false] at hi <;>
    simp only [StackMark.low] <;> omega

theorem Laid.le_length (h : Laid stack sp marks) : sp ≤ stack.length := by
  induction marks generalizing sp with
  | nil => exact h
  | cons m below ih =>
    obtain ⟨hlow, -, hbelow⟩ := h
    exact Nat.le_trans hlow (Nat.le_trans m.low_le_above (ih hbelow))

theorem Laid.mono (h : Laid stack sp marks) (hle : sp' ≤ sp) : Laid stack sp' marks := by
  cases marks with
  | nil => exact Nat.le_trans hle h
  | cons m below => exact ⟨Nat.le_trans hle h.1, h.2⟩

/-- The stack pointer may be anywhere below the latest mark. -/
theorem Laid.of_free (h : Laid stack sp marks) (hfree : free sp' marks = true) :
    Laid stack sp' marks := by
  cases marks with
  | nil => cases hfree
  | cons m below => exact ⟨of_decide_eq_true hfree, h.2⟩

theorem Laid.le_slots (h : Laid stack sp marks) {m : StackMark} (hm : m ∈ marks) {i : Nat}
    (hi : i ∈ m.slots) : sp ≤ i := by
  induction marks generalizing sp with
  | nil => cases hm
  | cons m' below ih =>
    obtain ⟨hlow, -, hbelow⟩ := h
    rcases List.mem_cons.1 hm with rfl | hm
    · exact Nat.le_trans hlow (StackMark.low_le_slots hi)
    · exact Nat.le_trans hlow (Nat.le_trans m'.low_le_above (ih hbelow hm))

theorem StackMark.Holds.congr {m : StackMark} {below : List StackMark} (h : m.Holds stack below)
    (hlength : stack'.length = stack.length) (hslots : ∀ i ∈ m.slots, stack'[i]? = stack[i]?) :
    m.Holds stack' below := by
  cases m with
  | frame slot args caller => exact (hslots slot (by simp [StackMark.slots])).trans h
  | saved slot =>
    rw [StackMark.Holds, hlength]
    exact (hslots slot (by simp [StackMark.slots])).trans h
  | handler slot entry =>
    rw [StackMark.Holds, hlength]
    exact ⟨(hslots slot (by simp [StackMark.slots])).trans h.1,
      (hslots (slot + 1) (by simp [StackMark.slots])).trans h.2⟩

/-- Only the slots of the marks matter. -/
theorem Laid.congr (h : Laid stack sp marks) (hlength : stack'.length = stack.length)
    (hslots : ∀ m ∈ marks, ∀ i ∈ m.slots, stack'[i]? = stack[i]?) : Laid stack' sp marks := by
  induction marks generalizing sp with
  | nil => exact Nat.le_trans h (Nat.le_of_eq hlength.symm)
  | cons m below ih =>
    obtain ⟨hlow, hholds, hbelow⟩ := h
    exact ⟨hlow, hholds.congr hlength (hslots m List.mem_cons_self),
      ih hbelow (fun m' hm' => hslots m' (List.mem_cons_of_mem _ hm'))⟩

/-- What happens below `sp` leaves the marks alone. -/
theorem Laid.congr_from (h : Laid stack sp marks) (hlength : stack'.length = stack.length)
    (hfrom : ∀ i, sp ≤ i → stack'[i]? = stack[i]?) : Laid stack' sp marks :=
  h.congr hlength (fun _ hm i hi => hfrom i (h.le_slots hm hi))

/-- The marks below a mark, and its own words. -/
theorem Laid.at_mark {above below : List StackMark} {m : StackMark}
    (h : Laid stack sp (above ++ m :: below)) :
    sp ≤ m.low ∧ m.Holds stack below ∧ Laid stack m.above below := by
  induction above generalizing sp with
  | nil => exact h
  | cons m' above ih =>
    obtain ⟨hlow, -, hbelow⟩ := h
    obtain ⟨hle, hrest⟩ := ih hbelow
    exact ⟨Nat.le_trans hlow (Nat.le_trans m'.low_le_above hle), hrest⟩

theorem Laid.handlerTop_le (h : Laid stack sp marks) : handlerTop stack.length marks ≤ stack.length := by
  induction marks generalizing sp with
  | nil => exact Nat.le_refl _
  | cons m below ih =>
    obtain ⟨-, -, hbelow⟩ := h
    cases m with
    | frame slot args caller => exact ih hbelow
    | saved slot => exact ih hbelow
    | handler slot entry => exact Nat.le_trans (Nat.le_add_right ..) hbelow.le_length

end Laid

theorem PcRuns.inside {start stop pc pc' : Nat} (h : PcRuns start stop pc pc') (hlo : start ≤ pc)
    (hhi : pc ≤ stop) : start ≤ pc' ∧ pc' ≤ stop := by
  induction h with
  | stay pc => exact ⟨hlo, hhi⟩
  | fetch h hr ih => exact ih (Nat.le_succ_of_le hlo) h
  | jump h hr ih => exact ih h.1 h.2

theorem frameRanges_append (above below : List StackMark) :
    frameRanges (above ++ below) = frameRanges below ++ frameRanges above := by
  induction above with
  | nil => simp [frameRanges]
  | cons m above ih =>
    cases m with
    | frame slot args caller => simp [frameRanges, ih]
    | saved slot => exact ih
    | handler slot entry => exact ih

theorem handlerEntries_append {above : List StackMark} (h : ∀ m ∈ above, m.isHandler = false) (depth : Nat)
    (below : List StackMark) : handlerEntries depth (above ++ below) = handlerEntries depth below := by
  induction above with
  | nil => rfl
  | cons m above ih =>
    have hrest := ih (fun m' hm' => h m' (List.mem_cons_of_mem _ hm'))
    cases m with
    | frame slot args caller => exact hrest
    | saved slot => exact hrest
    | handler slot entry => exact absurd (h _ List.mem_cons_self) (by simp [StackMark.isHandler])

theorem handlerTop_append {above : List StackMark} (h : ∀ m ∈ above, m.isHandler = false) (none : Nat)
    (below : List StackMark) : handlerTop none (above ++ below) = handlerTop none below := by
  induction above with
  | nil => rfl
  | cons m above ih =>
    have hrest := ih (fun m' hm' => h m' (List.mem_cons_of_mem _ hm'))
    cases m with
    | frame slot args caller => exact hrest
    | saved slot => exact hrest
    | handler slot entry => exact absurd (h _ List.mem_cons_self) (by simp [StackMark.isHandler])

/-- Where an exception goes: the marks above the latest handler are lost. -/
theorem step_raise {a a' : CallStack} (h : a.step .raise = some a') :
    ∃ above slot entry below, a.marks = above ++ .handler slot entry :: below ∧
      (∀ m ∈ above, m.isHandler = false) ∧ a' = { sp := slot + 2, now := entry, marks := below } := by
  have hsplit := List.takeWhile_append_dropWhile (p := fun m : StackMark => !m.isHandler) (l := a.marks)
  simp only [step] at h
  split at h
  · rename_i slot entry below hdrop
    cases h
    refine ⟨_, slot, entry, below, hdrop ▸ hsplit.symm, fun m hm => ?_, rfl⟩
    simpa using List.all_eq_true.1 List.all_takeWhile m hm
  · cases h

/-! ## One step -/

namespace Interpreter

variable {s s' : Interpreter}

theorem push_ok {w : PolyWord} (h : s.push w = .ok s') :
    0 < s.sp ∧ s' = s.withStack (s.stack.set (s.sp - 1) w) (s.sp - 1) := by
  unfold push at h
  split at h
  · cases h
  · rename_i hsp
    cases h
    exact ⟨Nat.pos_of_ne_zero hsp, rfl⟩

theorem pop_ok {w : PolyWord} (h : s.pop = .ok (w, s')) :
    s.stack[s.sp]? = some w ∧ s' = s.withStack s.stack (s.sp + 1) := by
  unfold pop at h
  split at h
  · cases h
  · rename_i hw
    cases h
    exact ⟨hw, rfl⟩

/-- An interpreted call that succeeds. -/
theorem doCall_ok {native : Native} {m m' : Mem} {closure : PolyWord}
    (hregion : native.region (m closure.addr) = none) (hjit : native.jit (m closure.addr) = none)
    (h : s.doCall native m closure = .ok (m', s')) :
    2 ≤ s.sp ∧ ∃ codeObj, s' = ((s.withStack
      ((s.stack.set (s.sp - 1) (PolyWord.fromAddr s.pc)).set (s.sp - 2) closure)
        (s.sp - 2)).pushFrame.recordCall codeObj).enter m codeObj := by
  simp only [doCall, hregion, hjit, bind, Except.bind] at h
  split at h
  · cases h
  · split at h
    · cases h
    · split at h
      · cases h
      · rename_i s₁ h₁
        split at h
        · cases h
        · rename_i s₂ h₂
          obtain ⟨hpos, rfl⟩ := push_ok h₁
          obtain ⟨hpos', rfl⟩ := push_ok h₂
          split at h
          · cases h
          · cases h
            refine ⟨by simp at hpos'; omega, (m closure.addr).addr, ?_⟩
            simp only [stack_withStack, sp_withStack, withStack_withStack, Nat.sub_sub]

theorem seedPush_eq {w : PolyWord} (h : 0 < s.sp) :
    s.seedPush w = s.withStack (s.stack.set (s.sp - 1) w) (s.sp - 1) := by
  simp only [seedPush, push, if_neg (Nat.ne_of_gt h)]

/-- The arguments are pushed below the old top. -/
theorem foldl_seedPush {args : List PolyWord} (h : args.length ≤ s.sp) :
    ∃ stack', args.foldl seedPush s = s.withStack stack' (s.sp - args.length) ∧
      stack'.length = s.stack.length ∧ ∀ i, s.sp ≤ i → stack'[i]? = s.stack[i]? := by
  induction args generalizing s with
  | nil => exact ⟨s.stack, rfl, rfl, fun _ _ => rfl⟩
  | cons w args ih =>
    rw [List.length_cons] at h
    obtain ⟨stack', hfold, hlength, hkeeps⟩ := @ih (s.seedPush w) (by
      rw [seedPush_eq (by omega), sp_withStack]
      omega)
    rw [seedPush_eq (by omega)] at hfold hlength hkeeps
    simp only [stack_withStack, sp_withStack, withStack_withStack, List.length_set] at hfold hlength hkeeps
    refine ⟨stack', ?_, hlength, fun i hi => ?_⟩
    · rw [List.foldl_cons, seedPush_eq (by omega), hfold, List.length_cons, Nat.sub_sub, Nat.add_comm 1]
    · rw [hkeeps i (by omega), List.getElem?_set_ne (by omega)]

theorem jitDispatchEnter_ok {m : Mem} {closure : PolyWord} {args : List PolyWord}
    (hroom : args.length + 2 ≤ s.sp) (hle : s.sp ≤ s.stack.length)
    (h : s.jitDispatchEnter m closure args = .ok s') :
    ∃ codeObj stack', s' = (s.withStack stack' (s.sp - (args.length + 2))).enter m codeObj ∧
      stack'.length = s.stack.length ∧ (∀ i, s.sp ≤ i → stack'[i]? = s.stack[i]?) ∧
      stack'[s.sp - (args.length + 1)]? = some PolyWord.zero := by
  obtain ⟨stack', hfold, hlength, hkeeps⟩ := foldl_seedPush (s := s) (show args.length ≤ s.sp by omega)
  have hpush := seedPush_eq (s := s.withStack stack' (s.sp - args.length)) (w := PolyWord.zero)
    (by rw [sp_withStack]; omega)
  have hpush' := seedPush_eq (s := (s.withStack stack' (s.sp - args.length)).seedPush PolyWord.zero)
    (w := closure) (by rw [hpush, sp_withStack, sp_withStack]; omega)
  rw [hpush] at hpush'
  simp only [stack_withStack, sp_withStack, withStack_withStack] at hpush hpush'
  rw [jitDispatchEnter, hfold, hpush, hpush', jitSetCodeSegmentToClosure] at h
  split at h
  · cases h
  · dsimp only at h
    split at h
    · cases h
    · cases h
      refine ⟨(m closure.addr).addr, (stack'.set (s.sp - args.length - 1) PolyWord.zero).set
        (s.sp - args.length - 1 - 1) closure, ?_, ?_, fun i hi => ?_, ?_⟩
      · rw [show s.sp - args.length - 1 - 1 = s.sp - (args.length + 2) by omega]
      · rw [List.length_set, List.length_set, hlength]
      · rw [List.getElem?_set_ne (by omega), List.getElem?_set_ne (by omega), hkeeps i hi]
      · rw [List.getElem?_set_ne (by omega), show s.sp - args.length - 1 = s.sp - (args.length + 1) by omega,
          List.getElem?_set_self (by omega)]

/-- A tail call that succeeds. -/
theorem doTailCall_ok {m : Mem} {retPc closure : PolyWord} {args skipped rest : List PolyWord}
    {tailCount skip : Nat} (hlive : s.stack.drop s.sp = retPc :: closure :: args ++ skipped ++ rest)
    (hargs : args.length = tailCount - 2) (hskip : skipped.length = skip) (htwo : 2 ≤ tailCount)
    (h : s.doTailCall m tailCount skip = .ok s') :
    ∃ codeObj stack', stack'.length = s.stack.length ∧
      stack'.drop (s.sp + skip) = closure :: retPc :: args ++ rest ∧
      s' = (s.withStack stack' (s.sp + skip)).enter m codeObj := by
  have hclosure : closure.isDataPtr = true := by
    by_contra hno
    rw [Bool.not_eq_true] at hno
    have hsp := @lt_length_of_drop s.stack s.sp _ _ hlive
    have hlen : tailCount + skip + rest.length = s.stack.length - s.sp := by
      have := congrArg List.length hlive
      simp at this
      omega
    have hcopy := @drop_copyDown s.stack s.sp (retPc :: closure :: args) skipped rest hlive
      (Nat.le_of_lt hsp)
    have hcount : (retPc :: closure :: args).length = tailCount := by
      simp
      omega
    rw [hcount, hskip] at hcopy
    have hroom : ¬ s.sp + tailCount + skip > s.stack.length := by omega
    simp only [doTailCall, if_neg (Nat.not_lt.2 htwo), if_neg hroom, pop_withStack s hcopy,
      pop_withStack s (drop_succ hcopy), bind, Except.bind, hno, Bool.not_false, if_true] at h
    cases h
  obtain ⟨stack', htail, hlength, hdrop⟩ := doTailCall_eq_ok s (m := m) hlive hclosure
  rw [withStack_self, hargs, hskip, show tailCount - 2 + 2 = tailCount by omega, h] at htail
  cases htail
  exact ⟨_, stack', hlength, hskip ▸ hdrop, rfl⟩

end Interpreter

theorem CodePoint.Valid.addr_pc {p : CodePoint} (h : p.Valid) : (PolyWord.fromAddr p.pc).addr = p.pc :=
  PolyWord.addr_fromAddr (by have := h.le_stop; have := h.addressable; omega)

theorem CodePoint.Valid.fromAddr_ne_zero {p : CodePoint} (h : p.Valid) :
    PolyWord.fromAddr p.pc ≠ PolyWord.zero := by
  intro hzero
  have haddr := h.addr_pc
  rw [hzero] at haddr
  have hpos := h.pos
  have hle := h.start_le
  have hnull : PolyWord.zero.addr = 0 := rfl
  omega

theorem drop_split {α : Type} {l : List α} {i n : Nat} (h : i + n ≤ l.length) :
    ∃ ws, ws.length = n ∧ l.drop i = ws ++ l.drop (i + n) := by
  refine ⟨(l.drop i).take n, ?_, ?_⟩
  · rw [List.length_take, List.length_drop]
    omega
  · rw [← List.drop_drop, List.take_append_drop]

theorem getElem?_of_drop_eq {α : Type} {l l' : List α} {i j : Nat} (h : l'.drop i = l.drop i)
    (hj : i ≤ j) : l'[j]? = l[j]? := by
  obtain ⟨k, rfl⟩ := Nat.exists_eq_add_of_le hj
  rw [← List.getElem?_drop, h, List.getElem?_drop]

section Steps

variable {depth handlers : Nat} {s s' : Interpreter} {a a' : CallStack}

theorem Tracks.other (ht : Tracks depth handlers s a) {writes : List Nat}
    (hpc : PcRuns s.codeStart s.codeEnd s.pc s'.pc) (hlength : s'.stack.length = s.stack.length)
    (hwrites : ∀ i, i ∉ writes → s'.stack[i]? = s.stack[i]?)
    (hcode : s'.codeStart = s.codeStart ∧ s'.codeEnd = s.codeEnd) (hsides : s.SameSides s')
    (hhandler : s'.handlerSp = s.handlerSp) (hstep : a.step (.other s'.sp s'.pc writes) = some a') :
    Tracks depth handlers s' a' := by
  simp only [step] at hstep
  split at hstep
  · rename_i hok
    cases hstep
    obtain ⟨hfree, hslots⟩ := hok
    have hvalid := ht.valid
    rw [← ht.now] at hvalid
    obtain ⟨hlo, hhi⟩ := hpc.inside hvalid.start_le hvalid.le_stop
    refine ⟨rfl, ?_, ?_, ?_, ht.points, ?_, ?_, ?_, ?_⟩
    · rw [← ht.now]
      simp [Interpreter.point, hcode]
    · rw [← ht.now]
      exact ⟨hvalid.pos, hvalid.nonempty, hlo, hhi, hvalid.addressable⟩
    · exact (ht.laid.of_free hfree).congr hlength (fun m hm i hi => hwrites i (hslots m hm i hi))
    · rw [hsides.1]
      exact ht.frames
    · rw [hsides.2]
      exact ht.entries
    · rw [hhandler, hlength]
      exact ht.handlerSp
    · rw [hlength]
      exact ht.fits
  · cases hstep

theorem Tracks.call (ht : Tracks depth handlers s a) {native : Native} {m m' : Mem} {closure : PolyWord}
    {args : Nat} (hregion : native.region (m closure.addr) = none)
    (hjit : native.jit (m closure.addr) = none) (h : s.doCall native m closure = .ok (m', s'))
    (hstep : a.step (.call args s'.codeStart s'.codeEnd) = some a') : Tracks depth handlers s' a' := by
  obtain ⟨hsp, codeObj, rfl⟩ := Interpreter.doCall_ok hregion hjit h
  have hlaid := ht.laid
  have hsp' := ht.sp
  simp only [step] at hstep
  split at hstep
  · rename_i hok
    cases hstep
    obtain ⟨-, hfree, hbefore, hcode⟩ := hok
    have hlength : ((s.stack.set (s.sp - 1) (PolyWord.fromAddr s.pc)).set (s.sp - 2) closure).length =
      s.stack.length := by rw [List.length_set, List.length_set]
    have hle := hlaid.le_length
    have hpc : s.pc = a.now.pc := congrArg CodePoint.pc ht.now
    have hret : ((s.stack.set (s.sp - 1) (PolyWord.fromAddr s.pc)).set (s.sp - 2) closure)[s.sp - 1]? =
        some (PolyWord.fromAddr s.pc) := by
      rw [List.getElem?_set_ne (by omega), List.getElem?_set_self (by omega)]
    obtain ⟨outer, houter, hframes⟩ := ht.frames
    refine ⟨?_, rfl, hcode.valid, ?_, ?_, ?_, ht.entries, ?_, ?_⟩
    · exact congrArg (· - 2) hsp'
    · refine ⟨?_, ?_, ?_⟩
      · simp only [StackMark.low]
        omega
      · exact hsp' ▸ hpc ▸ hret
      · refine ((hlaid.of_free hfree).mono ?_).congr hlength (fun m hm i hi => ?_)
        · simp only [StackMark.above]
          omega
        · have := hlaid.le_slots hm hi
          exact (List.getElem?_set_ne (by omega)).trans (List.getElem?_set_ne (by omega))
    · intro m hm p hp
      rcases List.mem_cons.1 hm with rfl | hm
      · cases hp
        exact ⟨ht.valid, hbefore⟩
      · exact ht.points m hm p hp
    · have hrange : (s.codeStart, s.codeEnd) = a.now.range := congrArg CodePoint.range ht.now
      refine ⟨outer, houter, ?_⟩
      show s.frames ++ [(s.codeStart, s.codeEnd)] = _
      rw [hframes, hrange, List.append_assoc]
      rfl
    · exact ht.handlerSp.trans (congrArg (fun n => handlerTop n a.marks) hlength.symm)
    · exact hlength ▸ ht.fits
  · cases hstep

theorem Tracks.dispatch (ht : Tracks depth handlers s a) {m : Mem} {closure : PolyWord}
    {args : List PolyWord} (h : s.jitDispatchEnter m closure args = .ok s')
    (hstep : a.step (.dispatch args.length s'.codeStart s'.codeEnd) = some a') :
    Tracks depth handlers s' a' := by
  have hlaid := ht.laid
  have hsp := ht.sp
  have hle := hlaid.le_length
  simp only [step] at hstep
  split at hstep
  · rename_i hok
    cases hstep
    obtain ⟨hroom, hfree, hcode⟩ := hok
    obtain ⟨codeObj, stack', rfl, hlength, hkeeps, hnull⟩ :=
      Interpreter.jitDispatchEnter_ok (hsp ▸ hroom) (hsp ▸ hle) h
    obtain ⟨outer, houter, hframes⟩ := ht.frames
    refine ⟨congrArg (· - _) hsp, rfl, hcode.valid, ⟨?_, ?_, ?_⟩, ?_,
      ⟨outer, houter, hframes.trans (congrArg (outer ++ ·) (List.append_nil _).symm)⟩, ht.entries, ?_, ?_⟩
    · simp only [StackMark.low]
      omega
    · exact hsp ▸ hnull
    · refine ((hlaid.of_free hfree).mono ?_).congr_from hlength (fun i hi => hkeeps i ?_)
      · simp only [StackMark.above]
        omega
      · simp only [StackMark.above] at hi
        omega
    · intro m' hm p hp
      rcases List.mem_cons.1 hm with rfl | hm
      · cases hp
      · exact ht.points m' hm p hp
    · exact ht.handlerSp.trans (congrArg (fun n => handlerTop n a.marks) hlength.symm)
    · exact Nat.lt_of_le_of_lt (Nat.le_of_eq hlength) ht.fits
  · cases hstep

theorem Tracks.ret (ht : Tracks depth handlers s a) {args : Nat}
    (h : s.doReturn args = .ok (.continue, s')) (hstep : a.step (.ret args) = some a') :
    Tracks depth handlers s' a' := by
  obtain ⟨sp, now, marks⟩ := a
  simp only [step] at hstep
  split at hstep
  · rename_i slot n caller below
    split at hstep
    · rename_i hok
      cases hstep
      obtain ⟨rfl, rfl⟩ := hok
      obtain ⟨hlow, hword, hbelow⟩ := ht.laid
      obtain rfl : s.sp = sp := ht.sp
      obtain ⟨hcaller, hbefore⟩ := ht.points _ List.mem_cons_self caller rfl
      simp only [StackMark.above] at hbelow
      have hle := hbelow.le_length
      -- the frame: result, closure, return address, arguments
      obtain ⟨argWords, hargs, hdrop⟩ := @drop_split _ s.stack (s.sp + 3) n (by omega)
      have hlive : s.stack.drop s.sp = s.stack[s.sp] :: s.stack[s.sp + 1] ::
          PolyWord.fromAddr caller.pc :: argWords ++ s.stack.drop (s.sp + 3 + n) := by
        rw [List.drop_eq_getElem_cons (by omega), List.drop_eq_getElem_cons (by omega),
          List.drop_eq_getElem_cons (by omega), hdrop]
        have hretPc : s.stack[s.sp + 1 + 1] = PolyWord.fromAddr caller.pc :=
          Option.some.inj ((List.getElem?_eq_getElem (by omega)).symm.trans hword)
        rw [hretPc]
        rfl
      obtain ⟨outer, houter, hframes⟩ := ht.frames
      have hframes' : s.frames = (outer ++ frameRanges below) ++ [caller.range] := by
        rw [hframes, List.append_assoc]
        rfl
      obtain ⟨stack', hret, hlength, hdrop'⟩ :=
        Interpreter.doReturn_eq s hlive hcaller.fromAddr_ne_zero hframes'
      rw [Interpreter.withStack_self, hargs, h] at hret
      cases hret
      have hsame := Interpreter.drop_succ hdrop'
      rw [hargs, show s.sp + 2 + n + 1 = s.sp + 3 + n by omega] at hsame
      have hlaid := (hbelow.mono (show s.sp + 3 + n ≤ s.sp + 2 + 1 + n by omega)).congr_from hlength
        (fun i hi => getElem?_of_drop_eq hsame hi)
      refine ⟨rfl, ?_, hcaller, hlaid.mono (show s.sp + 2 + n ≤ s.sp + 3 + n by omega), ?_,
        ⟨outer, houter, rfl⟩, ht.entries, ?_, ?_⟩
      · show CodePoint.mk caller.start caller.stop (PolyWord.fromAddr caller.pc).addr = caller
        rw [hcaller.addr_pc]
      · exact fun m hm => ht.points m (List.mem_cons_of_mem _ hm)
      · exact ht.handlerSp.trans (congrArg (fun n => handlerTop n below) hlength.symm)
      · exact Nat.lt_of_le_of_lt (Nat.le_of_eq hlength) ht.fits
    · cases hstep
  · cases hstep

theorem Tracks.tail (ht : Tracks depth handlers s a) {m : Mem} {retPc : PolyWord} {tailCount skip : Nat}
    (hretPc : s.stack[s.sp]? = some retPc) (h : s.doTailCall m tailCount skip = .ok s')
    (hstep : a.step (.tail retPc.addr tailCount skip s'.codeStart s'.codeEnd) = some a') :
    Tracks depth handlers s' a' := by
  obtain ⟨sp, now, marks⟩ := a
  simp only [step] at hstep
  split at hstep
  · rename_i slot n caller below
    split at hstep
    · rename_i hok
      cases hstep
      obtain ⟨htwo, hend, haddr, hcode⟩ := hok
      obtain ⟨hlow, hword, hbelow⟩ := ht.laid
      obtain rfl : s.sp = sp := ht.sp
      simp only [StackMark.above] at hbelow
      have hle := hbelow.le_length
      have hptr : retPc = PolyWord.fromAddr (retAddr caller) := by rw [← haddr, PolyWord.fromAddr_addr]
      -- the words that are moved, and those they are moved over
      obtain ⟨argWords, hargs, hdrop⟩ := @drop_split _ s.stack (s.sp + 2) (tailCount - 2) (by omega)
      obtain ⟨skipped, hskipped, hdrop'⟩ := @drop_split _ s.stack (s.sp + tailCount) skip (by omega)
      have hlive : s.stack.drop s.sp = retPc :: s.stack[s.sp + 1] :: argWords ++ skipped ++
          s.stack.drop (s.sp + tailCount + skip) := by
        have htop : s.stack[s.sp] = retPc :=
          Option.some.inj ((List.getElem?_eq_getElem (by omega)).symm.trans hretPc)
        rw [List.drop_eq_getElem_cons (by omega), List.drop_eq_getElem_cons (by omega), htop, hdrop,
          show s.sp + 2 + (tailCount - 2) = s.sp + tailCount by omega, hdrop']
        simp
      obtain ⟨codeObj, stack', hlength, hdrop'', rfl⟩ := Interpreter.doTailCall_ok hlive hargs hskipped
        htwo h
      have hsame : stack'.drop (s.sp + tailCount + skip) = s.stack.drop (s.sp + tailCount + skip) := by
        have hover := congrArg (List.drop (2 + argWords.length)) hdrop''
        rw [List.drop_drop, show s.sp + skip + (2 + argWords.length) = s.sp + tailCount + skip by omega]
          at hover
        simpa [Nat.add_comm 2] using hover
      have hnew : stack'[s.sp + skip + 1]? = some (PolyWord.fromAddr (retAddr caller)) := by
        rw [← List.getElem?_drop, hdrop'', hptr]
        rfl
      refine ⟨rfl, rfl, hcode.valid, ⟨Nat.le_succ _, hnew, ?_⟩, ?_, ht.frames, ht.entries, ?_, ?_⟩
      · refine (hbelow.congr_from hlength (fun i hi => getElem?_of_drop_eq hsame (by omega))).mono ?_
        simp only [StackMark.above]
        omega
      · intro m' hm' p hp
        rcases List.mem_cons.1 hm' with rfl | hm'
        · exact ht.points _ List.mem_cons_self p hp
        · exact ht.points m' (List.mem_cons_of_mem _ hm') p hp
      · exact ht.handlerSp.trans (congrArg (fun n => handlerTop n below) hlength.symm)
      · exact Nat.lt_of_le_of_lt (Nat.le_of_eq hlength) ht.fits
    · cases hstep
  · cases hstep

theorem Tracks.pushHandler (ht : Tracks depth handlers s a)
    (h : s.push (.ofNat 64 s.handlerSp) = .ok s') (hstep : a.step .pushHandler = some a') :
    Tracks depth handlers s' a' := by
  obtain ⟨hpos, rfl⟩ := Interpreter.push_ok h
  have hsp := ht.sp
  have hle := ht.laid.le_length
  simp only [step] at hstep
  split at hstep
  · rename_i hok
    cases hstep
    have hlength : (s.stack.set (s.sp - 1) (.ofNat 64 s.handlerSp)).length = s.stack.length :=
      List.length_set ..
    refine ⟨congrArg (· - 1) hsp, ht.now, ht.valid, ⟨Nat.le_refl _, ?_, ?_⟩, ?_, ht.frames, ht.entries, ?_,
      ?_⟩
    · show (s.stack.set (s.sp - 1) (.ofNat 64 s.handlerSp))[a.sp - 1]? = _
      rw [← hsp, List.getElem?_set_self (by omega), Interpreter.stack_withStack, hlength, ← ht.handlerSp]
    · refine (ht.laid.mono ?_).congr_from hlength (fun i hi => List.getElem?_set_ne ?_)
      · simp only [StackMark.above]
        omega
      · simp only [StackMark.above] at hi
        omega
    · intro m hm p hp
      rcases List.mem_cons.1 hm with rfl | hm
      · cases hp
      · exact ht.points m hm p hp
    · exact ht.handlerSp.trans (congrArg (fun n => handlerTop n a.marks) hlength.symm)
    · exact hlength ▸ ht.fits
  · cases hstep

theorem Tracks.setHandler (ht : Tracks depth handlers s a) {entry : Nat}
    (h : s.setHandler entry = .ok s') (hstep : a.step (.setHandler entry) = some a') :
    Tracks depth handlers s' a' := by
  obtain ⟨sp, now, marks⟩ := a
  simp only [step] at hstep
  split at hstep
  · rename_i slot below
    split at hstep
    · rename_i hok
      cases hstep
      obtain ⟨rfl, hpos, hlo, hhi⟩ := hok
      obtain rfl : s.sp = sp := ht.sp
      obtain ⟨-, hword, hbelow⟩ := ht.laid
      simp only [StackMark.above] at hbelow
      have hle := hbelow.le_length
      simp only [Interpreter.setHandler, bind, Except.bind] at h
      split at h <;> try cases h
      rename_i s₁ h₁
      obtain ⟨-, rfl⟩ := Interpreter.push_ok h₁
      have hlength : (s.stack.set (s.sp - 1) (PolyWord.fromAddr entry)).length = s.stack.length :=
        List.length_set ..
      have hrange : (s.codeStart, s.codeEnd) = now.range := congrArg CodePoint.range ht.now
      obtain ⟨outer, houter, hframes⟩ := ht.frames
      obtain ⟨outer', houter', hentries⟩ := ht.entries
      refine ⟨rfl, ht.now, ht.valid, ⟨Nat.le_refl _, ⟨?_, ?_⟩, ?_⟩, ?_, ht.frames, ?_, rfl, ?_⟩
      · exact List.getElem?_set_self (by omega)
      · show (s.stack.set (s.sp - 1) (PolyWord.fromAddr entry))[s.sp - 1 + 1]? = _
        rw [show s.sp - 1 + 1 = s.sp by omega, List.getElem?_set_ne (by omega)]
        exact hword.trans (congrArg (fun n => some (BitVec.ofNat 64 (handlerTop n below))) hlength.symm)
      · refine (hbelow.mono ?_).congr_from hlength (fun i hi => List.getElem?_set_ne ?_)
        · simp only [StackMark.above]
          omega
        · simp only [StackMark.above] at hi
          omega
      · intro m hm p hp
        rcases List.mem_cons.1 hm with rfl | hm
        · cases hp
          exact ⟨⟨ht.valid.pos, ht.valid.nonempty, hlo, Nat.le_of_lt hhi, ht.valid.addressable⟩, hhi⟩
        · exact ht.points m (List.mem_cons_of_mem _ hm) p hp
      · refine ⟨outer', houter', ?_⟩
        show s.handlerFramesDepth ++ [(s.frames.length, s.codeStart, s.codeEnd)] = _
        rw [hentries, hframes, List.length_append, houter, hrange, List.append_assoc]
        rfl
      · exact hlength ▸ ht.fits
    · cases hstep
  · cases hstep

theorem Laid.toNat_handlerTop {stack : List PolyWord} {sp : Nat} {marks : List StackMark}
    (h : Laid stack sp marks) (hfits : stack.length < 0x8000000000000000) :
    (BitVec.ofNat 64 (handlerTop stack.length marks)).toNat = handlerTop stack.length marks :=
  Nat.mod_eq_of_lt (by have := h.handlerTop_le; omega)

theorem Tracks.deleteHandler (ht : Tracks depth handlers s a) (h : s.deleteHandler = .ok s')
    (hstep : a.step .deleteHandler = some a') : Tracks depth handlers s' a' := by
  obtain ⟨sp, now, marks⟩ := a
  simp only [step] at hstep
  split at hstep
  · rename_i slot entry below
    split at hstep
    · rename_i hok
      cases hstep
      obtain ⟨-, ⟨-, hold⟩, hbelow⟩ := ht.laid
      have htop : s.handlerSp = slot := ht.handlerSp
      simp only [Interpreter.deleteHandler, bind, Except.bind] at h
      split at h <;> try cases h
      rename_i p hpop
      obtain ⟨-, hp⟩ := Interpreter.pop_ok hpop
      rw [hp, Interpreter.stack_withStack, show (s.withStack s.stack (s.sp + 1)).handlerSp = slot from htop,
        hold] at h
      cases h
      have hlength : (s.stack.set (slot + 1) p.1).length = s.stack.length := List.length_set ..
      obtain ⟨outer, houter, hentries⟩ := ht.entries
      have hlaid : Laid (s.stack.set (slot + 1) p.1) (slot + 1 + 1) below :=
        hbelow.congr_from hlength (fun i hi => List.getElem?_set_ne (Nat.ne_of_lt hi))
      refine ⟨rfl, ht.now, ht.valid, hlaid.mono (Nat.le_succ _), ?_, ht.frames, ⟨outer, houter, ?_⟩, ?_, ?_⟩
      · exact fun m hm => ht.points m (List.mem_cons_of_mem _ hm)
      · show s.handlerFramesDepth.dropLast = _
        rw [hentries, handlerEntries, ← List.append_assoc, List.dropLast_concat]
      · show (BitVec.ofNat 64 (handlerTop s.stack.length below)).toNat = _
        rw [hbelow.toNat_handlerTop ht.fits]
        exact congrArg (fun n => handlerTop n below) hlength.symm
      · exact hlength ▸ ht.fits
    · cases hstep
  · cases hstep

theorem Tracks.raise (ht : Tracks depth handlers s a) (h : s.doRaiseEx = (.ok (), s'))
    (hstep : a.step .raise = some a') : Tracks depth handlers s' a' := by
  obtain ⟨above, slot, entry, below, hmarks, habove, rfl⟩ := step_raise hstep
  obtain ⟨hlow, ⟨hentry, hold⟩, hbelow⟩ := (hmarks ▸ ht.laid).at_mark
  have htop : s.handlerSp = slot := by
    rw [ht.handlerSp, hmarks, handlerTop_append habove]
    rfl
  obtain ⟨outer, houter, hframes⟩ := ht.frames
  obtain ⟨outer', houter', hentries⟩ := ht.entries
  obtain ⟨hvalid, -⟩ := ht.points (.handler slot entry) (by rw [hmarks]; simp) entry rfl
  rw [hmarks, frameRanges_append, frameRanges_handler, ← List.append_assoc] at hframes
  rw [hmarks, handlerEntries_append habove, handlerEntries, ← List.append_assoc] at hentries
  unfold Interpreter.doRaiseEx at h
  split at h
  · cases h
  · dsimp only at h
    split at h
    · cases h
    · rw [htop, hentry, hold, hentries, List.getLast?_concat, hframes] at h
      cases h
      refine ⟨rfl, ?_, hvalid, hbelow, ?_, ⟨outer, houter, ?_⟩, ⟨outer', houter', ?_⟩, ?_, ht.fits⟩
      · show CodePoint.mk entry.start entry.stop (PolyWord.fromAddr entry.pc).addr = entry
        rw [hvalid.addr_pc]
      · exact fun m hm => ht.points m (by rw [hmarks]; simp [hm])
      · exact List.take_left' (List.length_append.trans (congrArg (· + _) houter))
      · exact List.dropLast_concat
      · exact hbelow.toNat_handlerTop ht.fits

end Steps
