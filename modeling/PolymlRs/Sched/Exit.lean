import PolymlRs.Sched.LostWake

set_option autoImplicit false

/-! # Process exit

`PolyFinish` and `PolyTerminate` cannot end the process: they store the code in a flag, and every
thread looks at the flag before it executes an instruction. Whoever sees it kills the other threads and
ends its run with the code. The exit adds to the blocking calls how far each thread is with its
instruction (`StepPhase`), because the flag is not looked at in the fast tier, in a kernel call or at a
safepoint. -/

/-- How a run ends. -/
inductive RunOutcome
  | returned (w : PolyWord)
  | stepBudgetExhausted
  | halted
deriving DecidableEq

/-- How far a thread is with an instruction. -/
inductive StepPhase
  /-- About to look at the exit flag. -/
  | between
  /-- The flag was clear: one instruction may be executed. -/
  | clear
  /-- In the fast tier. -/
  | burst
  /-- In a kernel call; when `sliced`, one that looks for requests every 100 ms. -/
  | kernel (sliced : Bool)
  /-- A runtime call is done and about to process the requests; when `raised`, with an exception. -/
  | rtsReturn (raised : Bool)
  /-- About to unwind to the handler of an exception. -/
  | raising
deriving DecidableEq

/-! ## The flag -/

/-- `(code as usize).wrapping_add(1)`. -/
def finishWord (exitCode : PolyWord) : BitVec 64 := BitVec.ofInt 64 exitCode.untag + 1#64

/-- The code in the flag; 0 is no request. -/
def finishRequested (flag : BitVec 64) : Option Int :=
  if flag = 0#64 then none else some (flag - 1#64).toInt

theorem finishWord_eq_zero {exitCode : PolyWord} : finishWord exitCode = 0#64 ↔ exitCode.untag = -1 := by
  have hneg : (BitVec.ofInt 64 exitCode.untag + 1#64 = 0#64) ↔
      BitVec.ofInt 64 exitCode.untag = -1#64 := by
    constructor
    · intro h
      rw [← BitVec.add_sub_cancel (BitVec.ofInt 64 exitCode.untag) 1#64, h]
      rfl
    · intro h
      rw [h]
      rfl
  rw [finishWord, hneg, PolyWord.untag, BitVec.ofInt_toInt]
  exact ⟨fun h => by rw [h]; rfl, fun h => BitVec.eq_of_toInt_eq h⟩

theorem finishRequested_finishWord {exitCode : PolyWord} (h : exitCode.untag ≠ -1) :
    finishRequested (finishWord exitCode) = some exitCode.untag := by
  rw [finishRequested, if_neg (fun h0 => h (finishWord_eq_zero.1 h0)), finishWord,
    BitVec.add_sub_cancel, PolyWord.untag, BitVec.ofInt_toInt]

/-! ## The machine -/

namespace BlockOp

variable {Tid Mid : Type}

/-- The thread that takes the step. -/
def actor : BlockOp Tid Mid → Tid
  | .lockMutex t _ | .tryLockMutex t _ | .atomicReset t _ | .mutexBlock t | .blockCheck t
  | .blockSample t | .blockRecheck t | .mutexUnlock t _ | .condVarWait t _ _ | .condSample t
  | .condRelease t | .condCheck t | .condVarWake t _ | .wakeCheck t _ | .waitForSignal t
  | .signalSample t | .signalCheck t | .wake t | .notify t | .makeThreadRequest t _ _ | .writeCopy t
  | .finish t | .finishSnapshot t | .finishStore t | .loadRequests t _ | .storeNone t
  | .exchangeNone t | .clearCopy t | .setAttributes t _ | .fork t _ _ | .killSelf t
  | .exitParked t => t

/-- Does the step begin an instruction? -/
def startsInstruction : BlockOp Tid Mid → Bool
  | .lockMutex _ _ | .tryLockMutex _ _ | .atomicReset _ _ | .mutexBlock _ | .mutexUnlock _ _
  | .condVarWait _ _ _ | .condVarWake _ _ | .waitForSignal _ | .makeThreadRequest _ _ _
  | .setAttributes _ _ | .fork _ _ _ | .killSelf _ => true
  | .loadRequests _ synch => synch
  | _ => false

end BlockOp

/-- The blocking calls, the exit flag, and what every thread does about it. -/
structure ExitState (Tid Mid : Type) where
  block : BlockState Tid Mid
  /-- `FINISH_REQUESTED`. -/
  finishFlag : BitVec 64
  phase : Tid → StepPhase
  /-- What the run of the thread ends with, once that is settled. -/
  outcome : Tid → Option RunOutcome
  /-- Who has requested an exit so far, and with which code. -/
  requested : List (Tid × PolyWord)
  /-- Has the thread taken a step or passed a safepoint since an exit was requested? -/
  stepped : Tid → Bool
  /-- Has a thread killed all the others? -/
  broadcast : Bool

/-- One atomic step of a thread. -/
inductive ExitOp (Tid Mid : Type)
  | block (op : BlockOp Tid Mid)
  /-- `step_one` loads the exit flag. -/
  | poll (t : Tid)
  /-- An instruction that touches nothing the threads share. -/
  | plain (t : Tid)
  /-- An instruction of the fast tier. -/
  | burstStep (t : Tid)
  | endBurst (t : Tid)
  /-- `PolyFinish` or `PolyTerminate`. -/
  | polyFinish (t : Tid) (exitCode : PolyWord)
  /-- Any other runtime call. -/
  | rtsCall (t : Tid) (raised : Bool)
  /-- A runtime call that waits in the kernel. -/
  | parkWhileBlocking (t : Tid) (sliced : Bool)
  /-- `should_abort`, after a slice of the wait. -/
  | shouldAbort (t : Tid)
  | kernelReturn (t : Tid) (raised : Bool)
  /-- An asynchronous `SIGINT` at a safepoint. -/
  | takeInterrupt (t : Tid)
  /-- The exception has a handler. -/
  | doRaiseEx (t : Tid)
  /-- The run ends with an error: of an instruction, or an exception without a handler. -/
  | halt (t : Tid)
  /-- The top frame returns. -/
  | doReturn (t : Tid) (w : PolyWord)
  /-- The steps the main thread may take are used up. -/
  | exhaust (t : Tid)
  /-- A thread that has consumed a kill loads the flag. -/
  | returnCode (t : Tid)

namespace ExitOp

variable {Tid Mid : Type}

def actor : ExitOp Tid Mid → Tid
  | .block op => op.actor
  | .poll t | .plain t | .burstStep t | .endBurst t | .polyFinish t _ | .rtsCall t _
  | .parkWhileBlocking t _ | .shouldAbort t | .kernelReturn t _ | .takeInterrupt t | .doRaiseEx t
  | .halt t | .doReturn t _ | .exhaust t | .returnCode t => t

end ExitOp

namespace ExitState

variable {Tid Mid : Type}

/-- The thread is between the accesses of its instruction, and in this phase. -/
def Ready (s : ExitState Tid Mid) (t : Tid) (phase : StepPhase) : Prop :=
  s.phase t = phase ∧ s.block.AtInstruction t ∧ s.block.delivery t = .idle

/-- The phases in which a thread takes a step of the blocking calls. -/
def BlockReady (s : ExitState Tid Mid) : BlockOp Tid Mid → Prop
  -- the flag is loaded by `poll`
  | .finish _ => False
  | .loadRequests t false => s.phase t = .between ∨ ∃ raised, s.phase t = .rtsReturn raised
  | .exitParked t => s.outcome t ≠ none
  | op => op.startsInstruction = true → s.phase op.actor = .clear

def Enabled (s : ExitState Tid Mid) : ExitOp Tid Mid → Prop
  | .block op => s.block.Enabled op ∧ s.BlockReady op
  | .poll t | .takeInterrupt t => s.Ready t .between
  | .plain t | .polyFinish t _ | .rtsCall t _ | .parkWhileBlocking t _ => s.Ready t .clear
  | .burstStep t | .doReturn t _ => s.Ready t .clear ∨ s.Ready t .burst
  | .endBurst t => s.Ready t .burst
  | .shouldAbort t => s.Ready t (.kernel true)
  | .kernelReturn t _ => ∃ sliced, s.Ready t (.kernel sliced)
  | .doRaiseEx t => s.Ready t .raising
  | .halt t => s.Ready t .clear ∨ s.Ready t .burst ∨ s.Ready t .raising
  | .exhaust t => t = s.block.main ∧ s.Ready t .between
  | .returnCode t => s.block.pos t = .returned ∧ s.outcome t = none

section Ops

variable [DecidableEq Tid]

def setPhase (s : ExitState Tid Mid) (t : Tid) (phase : StepPhase) : ExitState Tid Mid :=
  { s with phase := Function.update s.phase t phase }

def setOutcome (s : ExitState Tid Mid) (t : Tid) (o : RunOutcome) : ExitState Tid Mid :=
  { s with outcome := Function.update s.outcome t (some o) }

/-- The thread takes a step or passes a safepoint. -/
def pass (s : ExitState Tid Mid) (t : Tid) : ExitState Tid Mid :=
  { s with stepped := Function.update s.stepped t (s.stepped t || !s.requested.isEmpty) }

/-- The run loop of the thread is left. -/
def endRun (s : ExitState Tid Mid) (t : Tid) (o : RunOutcome) : ExitState Tid Mid :=
  ({ s with block := s.block.setPos t .returned }.setPhase t .between).setOutcome t o

/-! ## The flag check of `step_one` -/

/-- The flag stays set for the other threads, if there are any. -/
def poll (s : ExitState Tid Mid) (t : Tid) : ExitState Tid Mid :=
  match finishRequested s.finishFlag with
  | none => (s.pass t).setPhase t .clear
  | some code =>
    { (s.pass t).setOutcome t (.returned (PolyWord.tagged code)) with
      block := s.block.finish t
      finishFlag := if s.block.registry.length > 1 then s.finishFlag else 0#64 }

/-- The kill does not say why: the code is in the flag. -/
def returnCode (s : ExitState Tid Mid) (t : Tid) : ExitState Tid Mid :=
  s.setOutcome t (.returned (PolyWord.tagged ((finishRequested s.finishFlag).getD 0)))

def polyFinish (s : ExitState Tid Mid) (t : Tid) (exitCode : PolyWord) : ExitState Tid Mid :=
  { s with finishFlag := finishWord exitCode, requested := (t, exitCode) :: s.requested }.setPhase t
    (.rtsReturn false)

/-- A wait that is aborted raises `EINTR`. -/
def shouldAbort (s : ExitState Tid Mid) (t : Tid) : ExitState Tid Mid :=
  if s.block.skipWait t then s.setPhase t (.rtsReturn true) else s

/-- In the fast tier every instruction is a step of its own: the flag was looked at before the first. -/
def passBurst (s : ExitState Tid Mid) (t : Tid) : ExitState Tid Mid :=
  if s.phase t = .burst then s.pass t else s

/-! ## The steps of the blocking calls -/

variable [DecidableEq Mid]

/-- A delivered interrupt is raised, and so is the exception of a runtime call unless a request
supersedes it. -/
def phaseAfter (s : ExitState Tid Mid) : BlockOp Tid Mid → StepPhase
  | .clearCopy _ => .raising
  | .loadRequests t synch =>
    if s.phase t = .rtsReturn true ∧ (s.block.loadRequests t synch).delivery t = .idle then .raising
    else .between
  | _ => .between

/-- Does the thread process its requests? -/
def atSafepoint (s : ExitState Tid Mid) : BlockOp Tid Mid → Bool
  | .loadRequests _ _ => true
  | .signalCheck t => decide (s.block.requests t = .kill)
  | _ => false

/-- `PolyThreadKillSelf`, and `PolyWaitForSignal` when it is killed, return 0. -/
def ownOutcome (s : ExitState Tid Mid) : BlockOp Tid Mid → Option RunOutcome
  | .killSelf _ => some (.returned (PolyWord.tagged 0))
  | .signalCheck t =>
    if s.block.requests t = .kill then some (.returned (PolyWord.tagged 0)) else none
  | _ => none

/-- Is this the last step of a thread that has killed all the others? -/
def endsBroadcast (s : ExitState Tid Mid) : BlockOp Tid Mid → Bool
  | .notify t => match s.block.pos t with
    | .finishing _ => true
    | _ => false
  | _ => false

def execBlock (s : ExitState Tid Mid) (op : BlockOp Tid Mid) : ExitState Tid Mid :=
  let t := op.actor
  { s with
    block := s.block.exec op
    phase := Function.update s.phase t (s.phaseAfter op)
    outcome := Function.update s.outcome t ((s.ownOutcome op).or (s.outcome t))
    stepped := Function.update s.stepped t
      (s.stepped t || (s.atSafepoint op && !s.requested.isEmpty))
    broadcast := s.broadcast || s.endsBroadcast op }

def exec (s : ExitState Tid Mid) : ExitOp Tid Mid → ExitState Tid Mid
  | .block op => s.execBlock op
  | .poll t => s.poll t
  | .plain t | .endBurst t | .doRaiseEx t => s.setPhase t .between
  | .burstStep t => (s.passBurst t).setPhase t .burst
  | .polyFinish t exitCode => s.polyFinish t exitCode
  | .rtsCall t raised | .kernelReturn t raised => s.setPhase t (.rtsReturn raised)
  | .parkWhileBlocking t sliced => s.setPhase t (.kernel sliced)
  | .shouldAbort t => s.shouldAbort t
  | .takeInterrupt t => (s.pass t).setPhase t .raising
  | .halt t => (s.passBurst t).endRun t .halted
  | .doReturn t w => (s.passBurst t).endRun t (.returned w)
  | .exhaust t => s.endRun t .stepBudgetExhausted
  | .returnCode t => s.returnCode t

/-- Only the main thread runs, and no exit is requested. -/
def new (main : Tid) (st : InterruptState) (word : Mid → PolyWord) : ExitState Tid Mid :=
  { block := .new main st word, finishFlag := 0#64, phase := fun _ => .between,
    outcome := fun _ => none, requested := [], stepped := fun _ => false, broadcast := false }

end Ops

end ExitState

/-- The machine of the exit. -/
def exitMachine (Tid Mid : Type) [DecidableEq Tid] [DecidableEq Mid] :
    Machine (ExitState Tid Mid) (ExitOp Tid Mid) where
  Enabled := ExitState.Enabled
  exec := ExitState.exec

/-! ## The exit of the process -/

namespace BlockPos

variable {Tid Mid : Type}

/-- The run loop has ended. -/
@[simp] def Ended : BlockPos Tid Mid → Prop
  | .returned | .exiting | .exited => True
  | _ => False

end BlockPos

namespace ExitState

variable {Tid Mid : Type} [DecidableEq Tid] [DecidableEq Mid]

def Requester (s : ExitState Tid Mid) (t : Tid) : Prop := ∃ e ∈ s.requested, e.1 = t

/-- The run of the thread returns the code of one of the requests. -/
def ReturnsCode (s : ExitState Tid Mid) (t : Tid) : Prop :=
  ∃ e ∈ s.requested, s.outcome t = some (.returned (PolyWord.tagged e.2.untag))

/-- The thread ends its run with a requested code, and no other thread has to do anything for it. -/
def EndsAlone (s : ExitState Tid Mid) (t : Tid) : Prop :=
  ∃ ops : List (ExitOp Tid Mid), (∀ op ∈ ops, op.actor = t) ∧
    (exitMachine Tid Mid).Trace (fun _ _ => True) s ops ∧ (ops.foldl exec s).ReturnsCode t

/-- The exit gets through to the main thread and to all others. -/
structure ExitsProperly (s : ExitState Tid Mid) : Prop where
  root : s.stepped s.block.main = true →
    s.ReturnsCode s.block.main ∨ s.outcome s.block.main = none ∧ s.EndsAlone s.block.main
  others : ∀ t, s.Requester t → (s.block.pos t).Ended → ∀ u ∈ s.block.registry, u ≠ t →
    (s.block.pos u).Ended ∨
      s.block.requests u = .kill ∧ ¬ s.block.Stranded u ∧ s.phase u ≠ .kernel false

/-- The other threads are killed, or there are none. -/
def Informed (s : ExitState Tid Mid) : Prop := s.broadcast = true ∨ s.block.registry.length ≤ 1

/-- A thread kills the others, or has. -/
def Broadcasting (s : ExitState Tid Mid) : Prop :=
  s.broadcast = true ∨ ∃ v rest, s.block.pos v = .finishing rest

/-- The main thread is not killed in `PolyWaitForSignal`; a thread that has requested an exit does not
consume a kill before the other threads are killed; from the snapshot of the threads on none is forked;
and the thread that is killed next is not in a kernel call that does not look for requests. -/
def BlockGuarded (s : ExitState Tid Mid) : BlockOp Tid Mid → Prop
  | .signalCheck t => t = s.block.main → s.requested ≠ [] → s.block.requests t ≠ .kill
  | .storeNone t => s.Requester t → s.Informed
  | .fork _ _ _ => ¬ s.Broadcasting
  | .finishStore t => ∀ u rest, s.block.pos t = .finishing (u :: rest) → s.phase u ≠ .kernel false
  | _ => True

/-- Besides: once the others are killed, no wait of the blocking calls is entered with a request unseen;
from the snapshot on, a thread that is killed enters no kernel call that does not look for requests. The
code is not -1. The main thread does not return from its top frame in the fast tier, get an exception
without a handler at a safepoint or use up its steps after the request. -/
def ExitGuarded (s : ExitState Tid Mid) : ExitOp Tid Mid → Prop
  | .block op => (s.broadcast = true → s.block.SampleGuarded op) ∧ s.BlockGuarded op
  | .polyFinish _ exitCode => exitCode.untag ≠ -1
  | .parkWhileBlocking t sliced => s.Broadcasting → s.block.requests t = .kill → sliced = true
  | .doReturn t _ => t = s.block.main → s.phase t = .burst → s.requested = []
  | .halt t =>
    (t = s.block.main → (s.phase t = .burst → s.requested = []) ∧
      (s.phase t = .raising → s.stepped t = false)) ∧ (s.Requester t → s.Informed)
  | .exhaust t => s.stepped t = false
  | _ => True

end ExitState
