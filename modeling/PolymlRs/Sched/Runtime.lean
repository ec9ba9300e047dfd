import Mathlib.Data.List.Basic
import Mathlib.Logic.Function.Basic

set_option autoImplicit false

/-! # The scheduler

The giant lock and the stop-the-world handshake, as a step function. One step is one critical
section of the scheduler's inner lock: from the moment a thread takes the lock to the moment it
returns or waits on a condition variable. A wait is a position the thread is at (`Pos`), and waking
up, for whatever reason, is a step of its own that checks the condition of the wait again. The
threads are any type `Tid`, and `Roots` stands for the published root sets, which the scheduler
hands on without looking inside. -/

/-- The part of a thread handle that the handshake uses. -/
structure ThreadHandle (Roots : Type) where
  /-- Does the thread hold ML memory? -/
  inMl : Bool
  /-- The collector's only route to the thread's roots. -/
  parkedRoots : Option Roots

/-- Where a thread is, as far as the scheduler is concerned. -/
inductive Pos (Tid Roots : Type)
  /-- Outside every scheduler operation. -/
  | idle
  /-- Registered by its parent, and not running yet. -/
  | forked
  /-- Its spawn failed, and `parent` is about to take it off the registry. -/
  | abandoned (parent : Tid)
  /-- First wait of `register_and_acquire_ml_memory`. -/
  | registering (roots : Roots)
  /-- Waiting to take ML memory. -/
  | taking
  /-- The forced hand-off of `yield_ml_memory`. -/
  | handoff
  /-- In `exit_parked`, called for thread `t`. -/
  | exiting (t : Tid)
  /-- Lost the election of `request_gc_parallel`. -/
  | losing
  /-- The collector, at its stop-the-world barrier. -/
  | barrier
  /-- The collector, inside its callback. -/
  | collecting
deriving DecidableEq

/-- The `Runtime` with its `SchedInner` and every thread's handle and position. -/
structure Runtime (Tid Roots : Type) where
  /-- `POLY_PARALLEL`: runners do not exclude each other. -/
  parallel : Bool
  gcRequested : Bool
  /-- The lock-free mirror of `gcRequested`. -/
  gcRequestedAtomic : Bool
  gcCount : Nat
  running : Nat
  waiters : Nat
  registry : List Tid
  handle : Tid → ThreadHandle Roots
  pos : Tid → Pos Tid Roots

namespace Runtime

variable {Tid Roots : Type}

/-- A fresh runtime: no thread has been registered. -/
def new (Tid Roots : Type) (parallel : Bool) : Runtime Tid Roots :=
  { parallel, gcRequested := false, gcRequestedAtomic := false, gcCount := 0, running := 0,
    waiters := 0, registry := [], handle := fun _ => { inMl := false, parkedRoots := none },
    pos := fun _ => .idle }

/-- Is the thread the collector, at its barrier or in its callback? -/
def IsCollector (s : Runtime Tid Roots) (t : Tid) : Prop := s.pos t = .barrier ∨ s.pos t = .collecting

section Ops

variable [DecidableEq Tid]

def setPos (s : Runtime Tid Roots) (t : Tid) (p : Pos Tid Roots) : Runtime Tid Roots :=
  { s with pos := Function.update s.pos t p }

def setHandle (s : Runtime Tid Roots) (t : Tid) (h : ThreadHandle Roots) : Runtime Tid Roots :=
  { s with handle := Function.update s.handle t h }

/-- Publish `roots` and count as outside ML. -/
def publish (s : Runtime Tid Roots) (t : Tid) (roots : Roots) : Runtime Tid Roots :=
  s.setHandle t { inMl := false, parkedRoots := some roots }

/-- The condition of the acquire loops. -/
def mustWait (s : Runtime Tid Roots) : Bool :=
  (!s.parallel && decide (s.running > 0)) || s.gcRequested

/-- Retract the published roots and become a running thread. -/
def becomeRunning (s : Runtime Tid Roots) (t : Tid) : Runtime Tid Roots :=
  { s.setHandle t { inMl := true, parkedRoots := none } with running := s.running + 1 }

/-- Check the condition of the acquire loop: wait on, or win. -/
def awaitTurn (s : Runtime Tid Roots) (t : Tid) : Runtime Tid Roots :=
  if s.mustWait then s.setPos t .taking
  else ({ s with waiters := s.waiters - 1 }.becomeRunning t).setPos t .idle

/-- Queue up for ML memory. -/
def enqueue (s : Runtime Tid Roots) (t : Tid) : Runtime Tid Roots :=
  { s with waiters := s.waiters + 1 }.awaitTurn t

def acquireMlMemory (s : Runtime Tid Roots) (t : Tid) (roots : Roots) : Runtime Tid Roots :=
  (s.publish t roots).enqueue t

/-- `register_and_acquire_ml_memory` does not join a collection in progress. -/
def registerAndAcquireMlMemory (s : Runtime Tid Roots) (t : Tid) (roots : Roots) :
    Runtime Tid Roots :=
  if s.gcRequested then s.setPos t (.registering roots)
  else
    let s := s.publish t roots
    { s with registry := s.registry ++ [t] }.enqueue t

/-- The parent stores the roots of a thread it is about to register. -/
def publishForkRoots (s : Runtime Tid Roots) (t : Tid) (roots : Roots) : Runtime Tid Roots :=
  s.setHandle t { s.handle t with parkedRoots := some roots }

def registerThreadPublished (s : Runtime Tid Roots) (t : Tid) : Runtime Tid Roots :=
  { s with registry := s.registry ++ [t] }.setPos t .forked

def acquireMlMemoryKeepPublished (s : Runtime Tid Roots) (t : Tid) : Runtime Tid Roots :=
  (s.setHandle t { s.handle t with inMl := false }).enqueue t

/-- Publish, then stop counting as running. -/
def releaseMlMemory (s : Runtime Tid Roots) (t : Tid) (roots : Roots) : Runtime Tid Roots :=
  { s.publish t roots with running := s.running - 1 }

def releaseMlMemoryPublishing (s : Runtime Tid Roots) (t : Tid) (roots : Roots) :
    Runtime Tid Roots :=
  { s.publish t roots with running := s.running - 1 }

def reacquireMlMemory (s : Runtime Tid Roots) (t : Tid) : Runtime Tid Roots := s.enqueue t

def safepointPark (s : Runtime Tid Roots) (t : Tid) (roots : Roots) : Runtime Tid Roots :=
  { s.publish t roots with running := s.running - 1 }.enqueue t

/-- The hand-off loop of a yield: insist that a queued peer has run. -/
def awaitHandoff (s : Runtime Tid Roots) (t : Tid) : Runtime Tid Roots :=
  if 0 < s.waiters ∧ s.running = 0 ∧ s.gcRequested = false then s.setPos t .handoff
  else s.enqueue t

def yieldMlMemory (s : Runtime Tid Roots) (t : Tid) (roots : Roots) : Runtime Tid Roots :=
  if s.parallel then s
  else if s.waiters = 0 then s
  else { s.publish t roots with running := s.running - 1 }.awaitHandoff t

/-- Take `t` off the registry; its roots become unreachable. -/
def deregister (s : Runtime Tid Roots) (t : Tid) : Runtime Tid Roots :=
  { s with registry := s.registry.filter (fun u => decide (u ≠ t)) }.setHandle t
    { inMl := false, parkedRoots := none }

def exitRunning (s : Runtime Tid Roots) (t : Tid) : Runtime Tid Roots :=
  { s.deregister t with running := s.running - 1 }

/-- `exit_parked`, called by `caller` for the thread `t`: by the thread itself, or by its parent
when the thread could not be spawned. -/
def exitParked (s : Runtime Tid Roots) (caller t : Tid) : Runtime Tid Roots :=
  if s.gcRequested then s.setPos caller (.exiting t)
  else ((s.deregister t).setPos t .idle).setPos caller .idle

/-- The predicate of the stop-the-world barrier. -/
def allParked (s : Runtime Tid Roots) (t : Tid) : Bool :=
  s.registry.all (fun u =>
    decide (u = t) || (!(s.handle u).inMl && (s.handle u).parkedRoots.isSome))

/-- Check the barrier: go on to the callback, or wait. -/
def awaitParked (s : Runtime Tid Roots) (t : Tid) : Runtime Tid Roots :=
  if s.allParked t then s.setPos t .collecting else s.setPos t .barrier

def requestGc (s : Runtime Tid Roots) (t : Tid) : Runtime Tid Roots :=
  { s with gcRequested := true, gcRequestedAtomic := true }.awaitParked t

/-- The loser of the election waits the collection out. -/
def awaitCollected (s : Runtime Tid Roots) (t : Tid) : Runtime Tid Roots :=
  if s.gcRequested then s.setPos t .losing else (s.becomeRunning t).setPos t .idle

def requestGcParallel (s : Runtime Tid Roots) (t : Tid) (roots : Roots) : Runtime Tid Roots :=
  if s.gcRequested then { s.publish t roots with running := s.running - 1 }.awaitCollected t
  else { s with gcRequested := true, gcRequestedAtomic := true }.awaitParked t

/-- The callback has returned. -/
def finishGc (s : Runtime Tid Roots) (t : Tid) : Runtime Tid Roots :=
  { s with gcRequested := false, gcRequestedAtomic := false, gcCount := s.gcCount + 1 }.setPos t
    .idle

/-- A waiting thread has the inner lock again and checks what it waits for. -/
def wake (s : Runtime Tid Roots) (t : Tid) : Runtime Tid Roots :=
  match s.pos t with
  | .registering roots => (s.setPos t .idle).registerAndAcquireMlMemory t roots
  | .taking => s.awaitTurn t
  | .handoff => s.awaitHandoff t
  | .exiting u => s.exitParked t u
  | .losing => s.awaitCollected t
  | .barrier => s.awaitParked t
  | _ => s

end Ops

end Runtime

/-- One critical section of the inner lock. -/
inductive SchedOp (Tid Roots : Type)
  | acquireMlMemory (t : Tid) (roots : Roots)
  | registerAndAcquireMlMemory (t : Tid) (roots : Roots)
  | publishForkRoots (t : Tid) (roots : Roots)
  | registerThreadPublished (t : Tid)
  | acquireMlMemoryKeepPublished (t : Tid)
  | releaseMlMemory (t : Tid) (roots : Roots)
  | releaseMlMemoryPublishing (t : Tid) (roots : Roots)
  | reacquireMlMemory (t : Tid)
  | safepointPark (t : Tid) (roots : Roots)
  | yieldMlMemory (t : Tid) (roots : Roots)
  | exitRunning (t : Tid)
  | exitParked (caller t : Tid)
  | requestGc (t : Tid)
  | requestGcParallel (t : Tid) (roots : Roots)
  | finishGc (t : Tid)
  | wake (t : Tid)

namespace Runtime

variable {Tid Roots : Type} [DecidableEq Tid]

/-- The spawn of `t` failed: from here on its parent alone handles it. -/
def abandon (s : Runtime Tid Roots) (caller t : Tid) : Runtime Tid Roots :=
  if caller = t then s else s.setPos t (.abandoned caller)

def exec (s : Runtime Tid Roots) : SchedOp Tid Roots → Runtime Tid Roots
  | .acquireMlMemory t roots => s.acquireMlMemory t roots
  | .registerAndAcquireMlMemory t roots => s.registerAndAcquireMlMemory t roots
  | .publishForkRoots t roots => s.publishForkRoots t roots
  | .registerThreadPublished t => s.registerThreadPublished t
  | .acquireMlMemoryKeepPublished t => s.acquireMlMemoryKeepPublished t
  | .releaseMlMemory t roots => s.releaseMlMemory t roots
  | .releaseMlMemoryPublishing t roots => s.releaseMlMemoryPublishing t roots
  | .reacquireMlMemory t => s.reacquireMlMemory t
  | .safepointPark t roots => s.safepointPark t roots
  | .yieldMlMemory t roots => s.yieldMlMemory t roots
  | .exitRunning t => s.exitRunning t
  | .exitParked caller t => (s.abandon caller t).exitParked caller t
  | .requestGc t => s.requestGc t
  | .requestGcParallel t roots => s.requestGcParallel t roots
  | .finishGc t => s.finishGc t
  | .wake t => s.wake t

/-- The thread is between operations and holds ML memory. -/
def RunsMl (s : Runtime Tid Roots) (t : Tid) : Prop := s.pos t = .idle ∧ (s.handle t).inMl = true

/-- The thread is between operations, registered, and outside ML memory. -/
def Parked (s : Runtime Tid Roots) (t : Tid) : Prop :=
  s.pos t = .idle ∧ t ∈ s.registry ∧ (s.handle t).inMl = false

/-- When an operation may be called: its documented contract. -/
def Enabled (s : Runtime Tid Roots) : SchedOp Tid Roots → Prop
  | .acquireMlMemory t _ => s.Parked t
  | .registerAndAcquireMlMemory t _ => s.pos t = .idle ∧ t ∉ s.registry
  | .publishForkRoots t _ => s.pos t = .idle ∧ t ∉ s.registry
  | .registerThreadPublished t =>
    s.pos t = .idle ∧ t ∉ s.registry ∧ (s.handle t).parkedRoots.isSome = true
  | .acquireMlMemoryKeepPublished t => s.Parked t ∨ s.pos t = .forked
  | .releaseMlMemory t _ => s.RunsMl t
  | .releaseMlMemoryPublishing t _ => s.RunsMl t
  | .reacquireMlMemory t => s.Parked t
  | .safepointPark t _ => s.RunsMl t
  | .yieldMlMemory t _ => s.RunsMl t
  | .exitRunning t => s.RunsMl t
  | .exitParked caller t => s.pos caller = .idle ∧ (caller = t ∧ s.Parked t ∨ s.pos t = .forked)
  -- the caller is THE running thread
  | .requestGc t => s.RunsMl t ∧ ∀ u ∈ s.registry, (s.handle u).inMl = true → u = t
  | .requestGcParallel t _ => s.RunsMl t
  | .finishGc t => s.pos t = .collecting
  | .wake t => match s.pos t with
    | .registering _ | .taking | .handoff | .exiting _ | .losing | .barrier => True
    | _ => False

/-- The states any interleaving of the operations leads to. -/
inductive Reachable (parallel : Bool) : Runtime Tid Roots → Prop
  | new : Reachable parallel (new Tid Roots parallel)
  | step {s : Runtime Tid Roots} (op : SchedOp Tid Roots) (hs : Reachable parallel s)
      (he : s.Enabled op) : Reachable parallel (s.exec op)

end Runtime
