import PolymlRs.Heap.PolyWord
import PolymlRs.Lib.Interleaving
import Mathlib.Data.List.Basic

set_option autoImplicit false

/-! # Blocking, waking and requests

The threads of a parallel runtime as far as they block on the event generation: the mutex
instructions, the runtime calls that wait or wake, and the requests one thread posts to another. One
step is one access to something the threads share; a thread's next access is given by its position
(`BlockPos`), and by what it is doing about a request it has loaded (`Delivery`). The threads are any
type `Tid`, the mutexes any type `Mid`. -/

/-- A pending interrupt or kill request. -/
inductive Request
  | none
  | interrupt
  | kill
deriving DecidableEq, Repr

namespace Request

/-- The value of the constant. -/
def code : Request → Nat
  | none => 0
  | interrupt => 1
  | kill => 2

/-- `fetch_max`: a kill is not overridden by an interrupt. -/
def max (a b : Request) : Request := if a.code < b.code then b else a

end Request

/-- The interrupt state in a thread's flags word. -/
inductive InterruptState
  | ignore
  | synch
  | asynch
  | asynchOnce
deriving DecidableEq, Repr

/-- Interrupts are delivered at safepoints. -/
def InterruptState.isAsynch : InterruptState → Bool
  | .asynch | .asynchOnce => true
  | .ignore | .synch => false

/-- What a thread is doing about a request it has loaded. -/
inductive Delivery
  | idle
  /-- About to store `NONE` for a kill. -/
  | kill
  /-- About to exchange `INTERRUPT` for `NONE`. -/
  | interrupt
  /-- About to clear the request copy of the interrupt it has taken. -/
  | clear
deriving DecidableEq, Repr

/-- Where a thread is. -/
inductive BlockPos (Tid Mid : Type)
  | unborn
  /-- Between two instructions. -/
  | running
  /-- `LOCK_MUTEX` reported failure: about to call `PolyThreadMutexBlock`. -/
  | refused (m : Mid)
  /-- About to retry `LOCK_MUTEX`. -/
  | retry (m : Mid)
  /-- `ATOMIC_RESET` reported contention: about to call `PolyThreadMutexUnlock`. -/
  | contended (m : Mid)
  /-- In `PolyThreadMutexBlock`, which has found a peer. -/
  | blockEntered (m : Mid)
  /-- No request keeps it from waiting; about to sample the generation. -/
  | blockChecked (m : Mid)
  /-- About to look at the word again. -/
  | blockSampled (m : Mid) (since : Nat)
  | blockAsleep (m : Mid) (since : Nat)
  | blockReturning (m : Mid)
  /-- In `PolyThreadMutexUnlock`, about to wake the blocked threads. -/
  | unlockStored (m : Mid)
  /-- In `PolyThreadCondVarWait` or, when `timed`, in `PolyThreadCondVarWaitUntil`. -/
  | condEntered (m : Mid) (timed : Bool)
  | condSampled (m : Mid) (since : Nat) (timed : Bool)
  /-- The mutex is released; about to wake the threads blocked on it. -/
  | condReleased (m : Mid) (since : Nat) (timed : Bool)
  /-- About to look for a request. -/
  | condNotified (since : Nat) (timed : Bool)
  | condAsleep (since : Nat) (timed : Bool)
  | condReturning
  /-- In `PolyThreadCondVarWake`, which has found the handle of the target. -/
  | wakeFound (target : Tid)
  | waking (target : Tid)
  /-- In the loop of `PolyWaitForSignal`. -/
  | signalLoop
  | signalAsleep (since : Nat)
  | signalWoken
  /-- In `make_thread_request`: the request is posted, its copy is not written yet. -/
  | posting (target : Tid) (req : Request)
  | posted
  /-- The exit flag is seen, and there are peers to kill. -/
  | finishEntered
  /-- Kill the threads of the list, then wake everybody. -/
  | finishing (rest : List Tid)
  /-- The run loop has ended. -/
  | returned
  /-- Off the registry, about to wake the joiners. -/
  | exiting
  | exited
deriving DecidableEq, Repr

/-- What the blocking calls use of the runtime. The block generation counts without the wrap-around of
the source's `u64`. -/
structure BlockState (Tid Mid : Type) where
  main : Tid
  registry : List Tid
  blockGen : Nat
  /-- The first word of every mutex. -/
  word : Mid → PolyWord
  requests : Tid → Request
  /-- Word 3 of every thread object. -/
  requestCopy : Tid → PolyWord
  interruptState : Tid → InterruptState
  pos : Tid → BlockPos Tid Mid
  delivery : Tid → Delivery
  /-- Has a wake reported success for the thread since it last released a mutex to wait? -/
  woken : Tid → Bool
  /-- Has a wake reported failure for it since then? -/
  wakeRefused : Tid → Bool

/-- One atomic step of a thread. -/
inductive BlockOp (Tid Mid : Type)
  | lockMutex (t : Tid) (m : Mid)
  | tryLockMutex (t : Tid) (m : Mid)
  | atomicReset (t : Tid) (m : Mid)
  | mutexBlock (t : Tid)
  /-- Load the requests and decide whether to wait. -/
  | blockCheck (t : Tid)
  | blockSample (t : Tid)
  | blockRecheck (t : Tid)
  | mutexUnlock (t : Tid) (m : Mid)
  | condVarWait (t : Tid) (m : Mid) (timed : Bool)
  | condSample (t : Tid)
  | condRelease (t : Tid)
  | condCheck (t : Tid)
  | condVarWake (t target : Tid)
  /-- Load the target's requests; `ignored` says what its flags show when they are needed. -/
  | wakeCheck (t : Tid) (ignored : Bool)
  | waitForSignal (t : Tid)
  | signalSample (t : Tid)
  | signalCheck (t : Tid)
  /-- Look at the generation in `block_until_event`, or, in a timed wait, give up. -/
  | wake (t : Tid)
  /-- Bump the generation. -/
  | notify (t : Tid)
  | makeThreadRequest (t target : Tid) (req : Request)
  | writeCopy (t : Tid)
  /-- `PolyFinish` has been called: the next step of the thread sees the flag. -/
  | finish (t : Tid)
  | finishSnapshot (t : Tid)
  | finishStore (t : Tid)
  /-- `process_asynch_requests`, or `test_synchronous_requests` when `synch`, loads the requests. -/
  | loadRequests (t : Tid) (synch : Bool)
  | storeNone (t : Tid)
  | exchangeNone (t : Tid)
  | clearCopy (t : Tid)
  | setAttributes (t : Tid) (st : InterruptState)
  | fork (t child : Tid) (st : InterruptState)
  | killSelf (t : Tid)
  | exitParked (t : Tid)
deriving DecidableEq

namespace BlockState

variable {Tid Mid : Type}

/-- The thread is between two instructions, where the safepoint checks run. -/
def AtInstruction (s : BlockState Tid Mid) (t : Tid) : Prop :=
  match s.pos t with
  | .running | .refused _ | .retry _ | .contended _ => True
  | _ => False

/-- The thread is at a place where pending requests are processed. -/
def AtCheck (s : BlockState Tid Mid) (t : Tid) : Prop :=
  match s.pos t with
  | .running | .refused _ | .retry _ | .contended _ | .blockReturning _ | .condReturning => True
  | _ => False

/-- When a thread can take a step. -/
def Enabled (s : BlockState Tid Mid) : BlockOp Tid Mid → Prop
  | .lockMutex t m => s.delivery t = .idle ∧ (s.pos t = .running ∨ s.pos t = .retry m)
  | .tryLockMutex t _ => s.delivery t = .idle ∧ s.pos t = .running
  | .atomicReset t _ => s.delivery t = .idle ∧ s.pos t = .running
  | .mutexBlock t => s.delivery t = .idle ∧ ∃ m, s.pos t = .refused m
  | .blockCheck t => ∃ m, s.pos t = .blockEntered m
  | .blockSample t => ∃ m, s.pos t = .blockChecked m
  | .blockRecheck t => ∃ m since, s.pos t = .blockSampled m since
  | .mutexUnlock t m => s.delivery t = .idle ∧ (s.pos t = .running ∨ s.pos t = .contended m)
  | .condVarWait t _ _ => s.delivery t = .idle ∧ s.pos t = .running
  | .condSample t => ∃ m timed, s.pos t = .condEntered m timed
  | .condRelease t => ∃ m since timed, s.pos t = .condSampled m since timed
  | .condCheck t => ∃ since timed, s.pos t = .condNotified since timed
  | .condVarWake t _ => s.delivery t = .idle ∧ s.pos t = .running
  | .wakeCheck t _ => ∃ target, s.pos t = .wakeFound target
  | .waitForSignal t => s.delivery t = .idle ∧ s.pos t = .running
  | .signalSample t => s.pos t = .signalLoop
  | .signalCheck t => s.pos t = .signalWoken
  | .wake t => match s.pos t with
    | .blockAsleep _ _ | .condAsleep _ _ | .signalAsleep _ => True
    | _ => False
  | .notify t => match s.pos t with
    | .unlockStored _ | .condReleased _ _ _ | .waking _ | .posted | .finishing [] | .exiting => True
    | _ => False
  | .makeThreadRequest t target req =>
    s.delivery t = .idle ∧ s.pos t = .running ∧ s.pos target ≠ .unborn ∧ req ≠ .none
  | .writeCopy t => ∃ target req, s.pos t = .posting target req
  | .finish t => s.delivery t = .idle ∧ s.AtInstruction t
  | .finishSnapshot t => s.pos t = .finishEntered
  | .finishStore t => ∃ u rest, s.pos t = .finishing (u :: rest)
  | .loadRequests t synch => s.delivery t = .idle ∧ s.AtCheck t ∧ (synch = true → s.pos t = .running)
  | .storeNone t => s.delivery t = .kill ∧ s.AtInstruction t
  | .exchangeNone t => s.delivery t = .interrupt ∧ s.AtInstruction t
  | .clearCopy t => s.delivery t = .clear ∧ s.AtInstruction t
  | .setAttributes t _ => s.delivery t = .idle ∧ s.pos t = .running
  | .fork t child _ => s.delivery t = .idle ∧ s.pos t = .running ∧ s.pos child = .unborn
  | .killSelf t => s.delivery t = .idle ∧ s.pos t = .running
  | .exitParked t => s.pos t = .returned

section Setters

variable [DecidableEq Tid]

def setPos (s : BlockState Tid Mid) (t : Tid) (p : BlockPos Tid Mid) : BlockState Tid Mid :=
  { s with pos := Function.update s.pos t p }

def setRequests (s : BlockState Tid Mid) (t : Tid) (req : Request) : BlockState Tid Mid :=
  { s with requests := Function.update s.requests t req }

def setRequestCopy (s : BlockState Tid Mid) (t : Tid) (w : PolyWord) : BlockState Tid Mid :=
  { s with requestCopy := Function.update s.requestCopy t w }

def setDelivery (s : BlockState Tid Mid) (t : Tid) (d : Delivery) : BlockState Tid Mid :=
  { s with delivery := Function.update s.delivery t d }

def setInterruptState (s : BlockState Tid Mid) (t : Tid) (st : InterruptState) :
    BlockState Tid Mid :=
  { s with interruptState := Function.update s.interruptState t st }

@[simp] theorem pos_setPos_self (s : BlockState Tid Mid) (t : Tid) (p : BlockPos Tid Mid) :
    (s.setPos t p).pos t = p := Function.update_self ..

theorem pos_setPos_ne (s : BlockState Tid Mid) {t u : Tid} (p : BlockPos Tid Mid) (h : u ≠ t) :
    (s.setPos t p).pos u = s.pos u := Function.update_of_ne h ..

end Setters

/-- `notify_block_event`. -/
def bump (s : BlockState Tid Mid) : BlockState Tid Mid := { s with blockGen := s.blockGen + 1 }

section Ops

variable [DecidableEq Tid] [DecidableEq Mid]

def setWord (s : BlockState Tid Mid) (m : Mid) (w : PolyWord) : BlockState Tid Mid :=
  { s with word := Function.update s.word m w }

/-! ## The mutex instructions -/

/-- `fetch_add(2)`. -/
def lockMutex (s : BlockState Tid Mid) (t : Tid) (m : Mid) : BlockState Tid Mid :=
  (s.setWord m (s.word m + 2#64)).setPos t
    (if s.word m = PolyWord.tagged 0 then .running else .refused m)

/-- `compare_exchange(TAGGED(0), TAGGED(1))`. -/
def tryLockMutex (s : BlockState Tid Mid) (m : Mid) : BlockState Tid Mid :=
  if s.word m = PolyWord.tagged 0 then s.setWord m (PolyWord.tagged 1) else s

/-- `swap(TAGGED(0))`, and whether this thread was the only locker. -/
def atomicReset (s : BlockState Tid Mid) (t : Tid) (m : Mid) : BlockState Tid Mid :=
  (s.setWord m (PolyWord.tagged 0)).setPos t
    (if s.word m = PolyWord.tagged 1 then .running else .contended m)

/-! ## `PolyThreadMutexBlock` and `PolyThreadMutexUnlock` -/

/-- Without a peer the generic stub resets the word. -/
def mutexBlock (s : BlockState Tid Mid) (t : Tid) : BlockState Tid Mid :=
  match s.pos t with
  | .refused m =>
    if s.registry.length ≤ 1 then (s.setWord m (PolyWord.tagged 0)).setPos t (.retry m)
    else s.setPos t (.blockEntered m)
  | _ => s

/-- Killed, or interrupted while interrupts are processed asynchronously. -/
def skipWait (s : BlockState Tid Mid) (t : Tid) : Bool :=
  match s.requests t with
  | .kill => true
  | .interrupt => (s.interruptState t).isAsynch
  | .none => false

def blockCheck (s : BlockState Tid Mid) (t : Tid) : BlockState Tid Mid :=
  match s.pos t with
  | .blockEntered m => s.setPos t (if s.skipWait t then .blockReturning m else .blockChecked m)
  | _ => s

def blockSample (s : BlockState Tid Mid) (t : Tid) : BlockState Tid Mid :=
  match s.pos t with
  | .blockChecked m => s.setPos t (.blockSampled m s.blockGen)
  | _ => s

/-- Look at the word again after sampling the generation. -/
def blockRecheck (s : BlockState Tid Mid) (t : Tid) : BlockState Tid Mid :=
  match s.pos t with
  | .blockSampled m since =>
    s.setPos t (if s.word m ≠ PolyWord.tagged 0 then .blockAsleep m since else .blockReturning m)
  | _ => s

def mutexUnlock (s : BlockState Tid Mid) (t : Tid) (m : Mid) : BlockState Tid Mid :=
  (s.setWord m (PolyWord.tagged 0)).setPos t (.unlockStored m)

/-! ## Condition variables -/

/-- Without a peer the generic stub returns. -/
def condVarWait (s : BlockState Tid Mid) (t : Tid) (m : Mid) (timed : Bool) : BlockState Tid Mid :=
  if s.registry.length ≤ 1 then s else s.setPos t (.condEntered m timed)

/-- Sample the generation before the mutex is released. -/
def condSample (s : BlockState Tid Mid) (t : Tid) : BlockState Tid Mid :=
  match s.pos t with
  | .condEntered m timed => s.setPos t (.condSampled m s.blockGen timed)
  | _ => s

def condRelease (s : BlockState Tid Mid) (t : Tid) : BlockState Tid Mid :=
  match s.pos t with
  | .condSampled m since timed =>
    { (s.setWord m (PolyWord.tagged 0)).setPos t (.condReleased m since timed) with
      woken := Function.update s.woken t false
      wakeRefused := Function.update s.wakeRefused t false }
  | _ => s

/-- Any pending request skips the wait; otherwise wait past the thread's own bump. -/
def condCheck (s : BlockState Tid Mid) (t : Tid) : BlockState Tid Mid :=
  match s.pos t with
  | .condNotified since timed =>
    s.setPos t (if s.requests t = .none then .condAsleep (since + 1) timed else .condReturning)
  | _ => s

/-- A target off the registry has no handle. -/
def condVarWake (s : BlockState Tid Mid) (t target : Tid) : BlockState Tid Mid :=
  if target ∈ s.registry then s.setPos t (.wakeFound target) else s

/-- A thread that is interrupted before it is signalled is not woken. -/
def wakeCheck (s : BlockState Tid Mid) (t : Tid) (ignored : Bool) : BlockState Tid Mid :=
  match s.pos t with
  | .wakeFound target =>
    if s.requests target = .none ∨ s.requests target = .interrupt ∧ ignored = true then
      s.setPos t (.waking target)
    else { s.setPos t .running with wakeRefused := Function.update s.wakeRefused target true }
  | _ => s

/-! ## `PolyWaitForSignal` -/

def waitForSignal (s : BlockState Tid Mid) (t : Tid) : BlockState Tid Mid := s.setPos t .signalLoop

def signalSample (s : BlockState Tid Mid) (t : Tid) : BlockState Tid Mid :=
  s.setPos t (.signalAsleep s.blockGen)

/-- Only a kill ends the loop. -/
def signalCheck (s : BlockState Tid Mid) (t : Tid) : BlockState Tid Mid :=
  s.setPos t (if s.requests t = .kill then .returned else .signalLoop)

/-! ## The generation -/

/-- `block_until_event`: wait on while the generation is `since`. A timed wait also ends by itself. -/
def wake (s : BlockState Tid Mid) (t : Tid) : BlockState Tid Mid :=
  match s.pos t with
  | .blockAsleep m since => if s.blockGen = since then s else s.setPos t (.blockReturning m)
  | .condAsleep since timed =>
    if s.blockGen = since ∧ timed = false then s else s.setPos t .condReturning
  | .signalAsleep since => if s.blockGen = since then s else s.setPos t .signalWoken
  | _ => s

/-- A thread that owes a bump gives it. -/
def notify (s : BlockState Tid Mid) (t : Tid) : BlockState Tid Mid :=
  match s.pos t with
  | .unlockStored _ | .posted => s.bump.setPos t .running
  | .condReleased _ since timed => s.bump.setPos t (.condNotified since timed)
  | .waking target => { s.bump.setPos t .running with woken := Function.update s.woken target true }
  | .finishing _ => s.bump.setPos t .returned
  | .exiting => s.bump.setPos t .exited
  | _ => s

/-! ## Requests -/

/-- Post `req`; a request that is already pending is not mirrored again. -/
def makeThreadRequest (s : BlockState Tid Mid) (t target : Tid) (req : Request) :
    BlockState Tid Mid :=
  let prev := s.requests target
  if prev.code < req.code then (s.setRequests target (prev.max req)).setPos t (.posting target req)
  else s.setRequests target (prev.max req)

/-- Mirror the request into the target's thread object. -/
def writeCopy (s : BlockState Tid Mid) (t : Tid) : BlockState Tid Mid :=
  match s.pos t with
  | .posting target req => (s.setRequestCopy target (PolyWord.tagged req.code)).setPos t .posted
  | _ => s

/-- Without a peer the run just ends. -/
def finish (s : BlockState Tid Mid) (t : Tid) : BlockState Tid Mid :=
  s.setPos t (if s.registry.length > 1 then .finishEntered else .returned)

def finishSnapshot (s : BlockState Tid Mid) (t : Tid) : BlockState Tid Mid :=
  s.setPos t (.finishing (s.registry.filter (fun u => decide (u ≠ t))))

def finishStore (s : BlockState Tid Mid) (t : Tid) : BlockState Tid Mid :=
  match s.pos t with
  | .finishing (u :: rest) => (s.setRequests u .kill).setPos t (.finishing rest)
  | _ => s

/-- Is a pending interrupt deliverable here? -/
def deliverable (s : BlockState Tid Mid) (t : Tid) (synch : Bool) : Bool :=
  if synch then decide (s.interruptState t = .synch) else (s.interruptState t).isAsynch

/-- Where a runtime call that has processed the requests returns to. -/
def afterCheck (s : BlockState Tid Mid) (t : Tid) : BlockState Tid Mid :=
  match s.pos t with
  | .blockReturning m => s.setPos t (.retry m)
  | .condReturning => s.setPos t .running
  | _ => s

/-- From its first asynchronous interrupt on, the thread is interrupted synchronously. -/
def downgrade (s : BlockState Tid Mid) (t : Tid) : BlockState Tid Mid :=
  if s.interruptState t = .asynchOnce then s.setInterruptState t .synch else s

def loadRequests (s : BlockState Tid Mid) (t : Tid) (synch : Bool) : BlockState Tid Mid :=
  match s.requests t with
  | .kill => (s.afterCheck t).setDelivery t .kill
  | .interrupt =>
    if s.deliverable t synch then ((s.downgrade t).afterCheck t).setDelivery t .interrupt
    else s.afterCheck t
  | .none => s.afterCheck t

/-- A kill is consumed; the copy is left as it is. -/
def storeNone (s : BlockState Tid Mid) (t : Tid) : BlockState Tid Mid :=
  ((s.setRequests t .none).setDelivery t .idle).setPos t .returned

/-- Consume the interrupt, unless it has become a kill since it was loaded. -/
def exchangeNone (s : BlockState Tid Mid) (t : Tid) : BlockState Tid Mid :=
  if s.requests t = .interrupt then (s.setRequests t .none).setDelivery t .clear
  else s.setDelivery t .idle

/-- Clear the copy and raise `Interrupt`. -/
def clearCopy (s : BlockState Tid Mid) (t : Tid) : BlockState Tid Mid :=
  ((s.setRequestCopy t (PolyWord.tagged 0)).setDelivery t .idle).setPos t .running

/-! ## Threads -/

/-- A child starts without a request. -/
def fork (s : BlockState Tid Mid) (child : Tid) (st : InterruptState) : BlockState Tid Mid :=
  { ((((s.setRequests child .none).setRequestCopy child (PolyWord.tagged 0)).setInterruptState child
      st).setDelivery child .idle).setPos child .running with registry := s.registry ++ [child] }

/-- Leave the registry; a child then wakes its joiners. -/
def exitParked (s : BlockState Tid Mid) (t : Tid) : BlockState Tid Mid :=
  { s.setPos t (if t = s.main then .exited else .exiting) with
    registry := s.registry.filter (fun u => decide (u ≠ t)) }

def exec (s : BlockState Tid Mid) : BlockOp Tid Mid → BlockState Tid Mid
  | .lockMutex t m => s.lockMutex t m
  | .tryLockMutex _ m => s.tryLockMutex m
  | .atomicReset t m => s.atomicReset t m
  | .mutexBlock t => s.mutexBlock t
  | .blockCheck t => s.blockCheck t
  | .blockSample t => s.blockSample t
  | .blockRecheck t => s.blockRecheck t
  | .mutexUnlock t m => s.mutexUnlock t m
  | .condVarWait t m timed => s.condVarWait t m timed
  | .condSample t => s.condSample t
  | .condRelease t => s.condRelease t
  | .condCheck t => s.condCheck t
  | .condVarWake t target => s.condVarWake t target
  | .wakeCheck t ignored => s.wakeCheck t ignored
  | .waitForSignal t => s.waitForSignal t
  | .signalSample t => s.signalSample t
  | .signalCheck t => s.signalCheck t
  | .wake t => s.wake t
  | .notify t => s.notify t
  | .makeThreadRequest t target req => s.makeThreadRequest t target req
  | .writeCopy t => s.writeCopy t
  | .finish t => s.finish t
  | .finishSnapshot t => s.finishSnapshot t
  | .finishStore t => s.finishStore t
  | .loadRequests t synch => s.loadRequests t synch
  | .storeNone t => s.storeNone t
  | .exchangeNone t => s.exchangeNone t
  | .clearCopy t => s.clearCopy t
  | .setAttributes t st => s.setInterruptState t st
  | .fork _ child st => s.fork child st
  | .killSelf t => s.setPos t .returned
  | .exitParked t => s.exitParked t

end Ops

/-- Only the main thread runs, and nothing is pending; the mutexes hold whatever the image has. -/
def new [DecidableEq Tid] (main : Tid) (st : InterruptState) (word : Mid → PolyWord) :
    BlockState Tid Mid :=
  { main, registry := [main], blockGen := 0, word, requests := fun _ => .none,
    requestCopy := fun _ => PolyWord.tagged 0, interruptState := fun _ => st,
    pos := Function.update (fun _ => .unborn) main .running, delivery := fun _ => .idle,
    woken := fun _ => false, wakeRefused := fun _ => false }

end BlockState

/-- The machine of the blocking calls. -/
def blockMachine (Tid Mid : Type) [DecidableEq Tid] [DecidableEq Mid] :
    Machine (BlockState Tid Mid) (BlockOp Tid Mid) :=
  { Enabled := BlockState.Enabled, exec := BlockState.exec }

/-- The proof behind the numerals that name one of two threads. -/
theorem BlockState.neZero_two : NeZero 2 := ⟨by decide⟩

/-- One of two threads, and a mutex that nobody holds. -/
def BlockState.alone : BlockState (Fin 2) Unit := new 0 .synch (fun _ => PolyWord.tagged 0)
