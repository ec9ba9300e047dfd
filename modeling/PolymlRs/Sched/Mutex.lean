import PolymlRs.Heap.PolyWord
import PolymlRs.Lib.Interleaving
import Mathlib.Data.List.Basic

set_option autoImplicit false

/-! # The mutex word

One `Thread.Mutex` and the threads that lock and unlock it by the library protocol, as a step
function. One step is one atomic access to the mutex word or to the block generation; what a thread
does next is its position (`MutexPos`). The word is the counter that the instructions change: `1` is
`TAGGED(0)`, unlocked, and every attempt to lock adds `2`. -/

/-- Where a thread is in the protocol. -/
inductive MutexPos
  /-- Not forked yet, or exited. -/
  | absent
  /-- Outside `lock` and `unlock`. -/
  | idle
  /-- `LOCK_MUTEX` reported failure: about to call `PolyThreadMutexBlock`. -/
  | refused
  /-- In `PolyThreadMutexBlock`, which has sampled the block generation. -/
  | sampled (since : Nat)
  /-- Waiting for an event after generation `since`. -/
  | waiting (since : Nat)
  /-- `PolyThreadMutexBlock` is about to return. -/
  | returning
  /-- About to retry `LOCK_MUTEX`. -/
  | retry
  /-- Between a successful acquire and its `ATOMIC_RESET`. -/
  | critical
  /-- `ATOMIC_RESET` reported contention: about to call `PolyThreadMutexUnlock`. -/
  | contended
  /-- In `PolyThreadMutexUnlock`, before it wakes the blocked threads. -/
  | notifying
deriving DecidableEq

/-- The mutex and what its protocol uses of the runtime. The block generation counts without the
wrap-around of the source's `u64`. -/
structure MutexState (Tid : Type) where
  /-- `POLY_REAL_THREADS`. -/
  realThreads : Bool
  registry : List Tid
  blockGen : Nat
  word : PolyWord
  pos : Tid → MutexPos

/-- One atomic step of a thread. -/
inductive MutexOp (Tid : Type)
  | lockMutex (t : Tid)
  | tryLockMutex (t : Tid)
  | atomicReset (t : Tid)
  /-- `skipWait` says whether a kill or an asynchronous interrupt is pending. -/
  | mutexBlock (t : Tid) (skipWait : Bool)
  | recheck (t : Tid)
  | wake (t : Tid)
  /-- `interrupted` says whether the caller sees an exception instead of a unit return. -/
  | blockReturn (t : Tid) (interrupted : Bool)
  | mutexUnlock (t : Tid)
  | notify (t : Tid)
  /-- Some other mutex or condition variable bumps the generation. -/
  | otherEvent
  | fork (parent t : Tid)
  | exit (t : Tid)
deriving DecidableEq

namespace MutexState

variable {Tid : Type}

/-- A new mutex; only the main thread runs. -/
def new [DecidableEq Tid] (realThreads : Bool) (main : Tid) : MutexState Tid :=
  { realThreads, registry := [main], blockGen := 0, word := .tagged 0,
    pos := Function.update (fun _ => .absent) main .idle }

/-- The thread is between two instructions. -/
def AtInstruction (s : MutexState Tid) (t : Tid) : Prop :=
  match s.pos t with
  | .idle | .refused | .retry | .critical | .contended => True
  | _ => False

/-- When a thread can take a step. -/
def Enabled (s : MutexState Tid) : MutexOp Tid → Prop
  | .lockMutex t => s.pos t = .idle ∨ s.pos t = .retry
  | .tryLockMutex t => s.pos t = .idle
  | .atomicReset t => s.pos t = .critical
  | .mutexBlock t _ => s.pos t = .refused
  | .recheck t => ∃ since, s.pos t = .sampled since
  | .wake t => ∃ since, s.pos t = .waiting since
  | .blockReturn t _ => s.pos t = .returning
  | .mutexUnlock t => s.pos t = .contended
  | .notify t => s.pos t = .notifying
  | .otherEvent => True
  | .fork parent t => s.realThreads = true ∧ s.AtInstruction parent ∧ s.pos t = .absent
  | .exit t => s.AtInstruction t

section Ops

variable [DecidableEq Tid]

def setPos (s : MutexState Tid) (t : Tid) (p : MutexPos) : MutexState Tid :=
  { s with pos := Function.update s.pos t p }

/-- `fetch_add(2)`. -/
def lockMutex (s : MutexState Tid) (t : Tid) : MutexState Tid :=
  let old := s.word
  { s with word := old + 2#64 }.setPos t (if old = PolyWord.tagged 0 then .critical else .refused)

/-- `compare_exchange(TAGGED(0), TAGGED(1))`. -/
def tryLockMutex (s : MutexState Tid) (t : Tid) : MutexState Tid :=
  if s.word = .tagged 0 then { s with word := .tagged 1 }.setPos t .critical else s.setPos t .idle

/-- `swap(TAGGED(0))`, and whether this thread was the only locker. -/
def atomicReset (s : MutexState Tid) (t : Tid) : MutexState Tid :=
  let old := s.word
  { s with word := .tagged 0 }.setPos t (if old = PolyWord.tagged 1 then .idle else .contended)

/-- Without a peer the generic stub resets the word. -/
def mutexBlock (s : MutexState Tid) (t : Tid) (skipWait : Bool) : MutexState Tid :=
  if s.realThreads = false ∨ s.registry.length ≤ 1 then
    { s with word := .tagged 0 }.setPos t .returning
  else if skipWait then s.setPos t .returning
  else s.setPos t (.sampled s.blockGen)

/-- Look at the word again after sampling the generation. -/
def recheck (s : MutexState Tid) (t : Tid) : MutexState Tid :=
  match s.pos t with
  | .sampled since => if s.word ≠ .tagged 0 then s.setPos t (.waiting since) else s.setPos t .returning
  | _ => s

/-- The waiter holds the block lock and looks at the generation. -/
def wake (s : MutexState Tid) (t : Tid) : MutexState Tid :=
  match s.pos t with
  | .waiting since => if s.blockGen = since then s else s.setPos t .returning
  | _ => s

def blockReturn (s : MutexState Tid) (t : Tid) (interrupted : Bool) : MutexState Tid :=
  s.setPos t (if interrupted then .idle else .retry)

/-- Store `TAGGED(0)`; the single-thread stub does nothing else. -/
def mutexUnlock (s : MutexState Tid) (t : Tid) : MutexState Tid :=
  { s with word := .tagged 0 }.setPos t (if s.realThreads then .notifying else .idle)

def notify (s : MutexState Tid) (t : Tid) : MutexState Tid :=
  { s with blockGen := s.blockGen + 1 }.setPos t .idle

def fork (s : MutexState Tid) (t : Tid) : MutexState Tid :=
  { s with registry := s.registry ++ [t] }.setPos t .idle

def exit (s : MutexState Tid) (t : Tid) : MutexState Tid :=
  { s with registry := s.registry.filter (fun u => decide (u ≠ t)) }.setPos t .absent

def exec (s : MutexState Tid) : MutexOp Tid → MutexState Tid
  | .lockMutex t => s.lockMutex t
  | .tryLockMutex t => s.tryLockMutex t
  | .atomicReset t => s.atomicReset t
  | .mutexBlock t skipWait => s.mutexBlock t skipWait
  | .recheck t => s.recheck t
  | .wake t => s.wake t
  | .blockReturn t interrupted => s.blockReturn t interrupted
  | .mutexUnlock t => s.mutexUnlock t
  | .notify t => s.notify t
  | .otherEvent => { s with blockGen := s.blockGen + 1 }
  | .fork _ t => s.fork t
  | .exit t => s.exit t

end Ops

/-- The threads and the mutex. -/
def machine (Tid : Type) [DecidableEq Tid] : Machine (MutexState Tid) (MutexOp Tid) :=
  { Enabled, exec }

/-- At most one thread is between a successful acquire and its `ATOMIC_RESET`. -/
def Exclusive (s : MutexState Tid) : Prop :=
  ∀ t u, s.pos t = .critical → s.pos u = .critical → t = u

/-- No thread is between a successful acquire and its `ATOMIC_RESET`. -/
def Free (s : MutexState Tid) : Prop := ∀ t, s.pos t ≠ .critical

/-- While a thread holds the mutex, no `PolyThreadMutexUnlock` stores `TAGGED(0)` and the counter
does not wrap around to it. -/
def Guarded (s : MutexState Tid) : MutexOp Tid → Prop
  | .mutexUnlock _ => s.Free
  | .lockMutex _ => s.word = BitVec.allOnes 64 → s.Free
  | _ => True

/-! ## What a guarded run preserves -/

/-- The mutex is held by at most one thread, and then its word shows it. -/
structure Safe (s : MutexState Tid) : Prop where
  exclusive : s.Exclusive
  locked : ∀ t, s.pos t = .critical → s.word ≠ PolyWord.tagged 0
  registered : ∀ t, s.pos t ≠ .absent → t ∈ s.registry
  alone : s.realThreads = false → s.registry.length ≤ 1

section Words

variable {s : MutexState Tid} {t : Tid}

/-- An unlocked word means that nobody holds the mutex. -/
theorem Safe.free (hs : s.Safe) (hw : s.word = PolyWord.tagged 0) : s.Free :=
  fun t ht => hs.locked t ht hw

/-- A free mutex may have any word. -/
theorem Safe.store (hs : s.Safe) (hfree : s.Free) (w : PolyWord) : ({ s with word := w }).Safe :=
  ⟨hs.exclusive, fun t ht => absurd ht (hfree t), hs.registered, hs.alone⟩

/-- The only registered thread is not in the critical section, so nobody is. -/
theorem Safe.free_of_alone (hs : s.Safe) (halone : s.registry.length ≤ 1)
    (ht : s.pos t ≠ .absent) (htc : s.pos t ≠ .critical) : s.Free := by
  intro u hu
  have hut : u = t := by
    have humem := hs.registered u (by rw [hu]; decide)
    have htmem := hs.registered t ht
    match hreg : s.registry with
    | [] =>
      rw [hreg] at htmem
      cases htmem
    | [v] =>
      rw [hreg, List.mem_singleton] at humem htmem
      rw [humem, htmem]
    | v :: w :: rest =>
      rw [hreg] at halone
      simp at halone
  rw [hut] at hu
  exact htc hu

end Words

section Steps

variable [DecidableEq Tid] {s : MutexState Tid} {t : Tid}

@[simp] theorem pos_setPos_self (s : MutexState Tid) (t : Tid) (p : MutexPos) :
    (s.setPos t p).pos t = p := Function.update_self ..

theorem pos_setPos_ne (s : MutexState Tid) {t u : Tid} (p : MutexPos) (h : u ≠ t) :
    (s.setPos t p).pos u = s.pos u := Function.update_of_ne h ..

/-- A thread that is in the critical section after a move to another place was there before. -/
theorem critical_of_setPos {p : MutexPos} (hp : p ≠ .critical) {u : Tid}
    (hu : (s.setPos t p).pos u = .critical) : u ≠ t ∧ s.pos u = .critical := by
  by_cases hut : u = t
  · subst hut
    rw [pos_setPos_self] at hu
    exact absurd hu hp
  · rw [pos_setPos_ne s p hut] at hu
    exact ⟨hut, hu⟩

theorem new_pos (realThreads : Bool) (main t : Tid) :
    (new realThreads main).pos t = if t = main then .idle else .absent := by
  show Function.update (fun _ => MutexPos.absent) main .idle t = _
  rw [Function.update_apply]

theorem safe_new (realThreads : Bool) (main : Tid) : (new realThreads main).Safe := by
  have hpos : ∀ t, (new realThreads main).pos t ≠ .critical := by
    intro t
    rw [new_pos]
    split <;> decide
  refine ⟨fun t _ ht => absurd ht (hpos t), fun t ht => absurd ht (hpos t), fun t ht => ?_,
    fun _ => Nat.le_refl 1⟩
  rw [new_pos] at ht
  by_cases h : t = main
  · rw [h]
    exact List.mem_singleton_self main
  · rw [if_neg h] at ht
    exact absurd rfl ht

/-- A thread that runs moves to a place outside the critical section. -/
theorem Safe.move (hs : s.Safe) (ht : s.pos t ≠ .absent) {p : MutexPos} (hp : p ≠ .critical) :
    (s.setPos t p).Safe := by
  refine ⟨fun u v hu hv => ?_, fun u hu => ?_, fun u hu => ?_, hs.alone⟩
  · exact hs.exclusive u v (critical_of_setPos hp hu).2 (critical_of_setPos hp hv).2
  · exact hs.locked u (critical_of_setPos hp hu).2
  · by_cases hut : u = t
    · rw [hut]
      exact hs.registered t ht
    · rw [pos_setPos_ne s p hut] at hu
      exact hs.registered u hu

/-- A thread takes a free mutex and leaves a locked word. -/
theorem Safe.acquire (hs : s.Safe) (hfree : s.Free) (ht : s.pos t ≠ .absent) {w : PolyWord}
    (hw : w ≠ PolyWord.tagged 0) : ({ s with word := w }.setPos t .critical).Safe := by
  have honly : ∀ u, ({ s with word := w }.setPos t .critical).pos u = .critical → u = t := by
    intro u hu
    by_contra hut
    rw [pos_setPos_ne _ _ hut] at hu
    exact hfree u hu
  refine ⟨fun u v hu hv => (honly u hu).trans (honly v hv).symm, fun _ _ => hw, fun u hu => ?_,
    hs.alone⟩
  by_cases hut : u = t
  · rw [hut]
    exact hs.registered t ht
  · rw [pos_setPos_ne _ _ hut] at hu
    exact hs.registered u hu

/-- The reset lets go of the mutex. -/
theorem Safe.atomicReset (hs : s.Safe) (ht : s.pos t = .critical) : (s.atomicReset t).Safe := by
  have hne : s.pos t ≠ .absent := by
    rw [ht]
    decide
  have hleave : ∀ p, p ≠ .critical → ({ s with word := PolyWord.tagged 0 }.setPos t p).Safe := by
    intro p hp
    have hfree : (s.setPos t p).Free := by
      intro u hu
      obtain ⟨hut, hu⟩ := critical_of_setPos hp hu
      exact hut (hs.exclusive u t hu ht)
    exact (hs.move hne hp).store hfree _
  refine hleave _ ?_
  split <;> decide

theorem Safe.lockMutex (hs : s.Safe) (ht : s.pos t ≠ .absent)
    (hguard : s.word = BitVec.allOnes 64 → s.Free) : (s.lockMutex t).Safe := by
  unfold MutexState.lockMutex
  by_cases hold : s.word = PolyWord.tagged 0
  · simp only [hold, if_true]
    exact hs.acquire (hs.free hold) ht (by decide)
  · simp only [if_neg hold]
    have hcount : ({ s with word := s.word + 2#64 }).Safe := by
      refine ⟨hs.exclusive, fun u hu hzero => ?_, hs.registered, hs.alone⟩
      -- the count can only come back to `TAGGED(0)` by wrapping around
      have hwrap : s.word = BitVec.allOnes 64 := by
        have hsum : s.word + 2#64 = PolyWord.tagged 0 := hzero
        calc s.word = s.word + 2#64 - 2#64 := (BitVec.add_sub_cancel ..).symm
          _ = PolyWord.tagged 0 - 2#64 := by rw [hsum]
          _ = BitVec.allOnes 64 := by decide
      exact hguard hwrap u hu
    exact hcount.move ht (by decide)

theorem Safe.tryLockMutex (hs : s.Safe) (ht : s.pos t ≠ .absent) : (s.tryLockMutex t).Safe := by
  unfold MutexState.tryLockMutex
  split
  · rename_i hword
    exact hs.acquire (hs.free hword) ht (by decide)
  · exact hs.move ht (by decide)

/-- Only a thread without a peer resets the word here. -/
theorem Safe.mutexBlock (hs : s.Safe) (ht : s.pos t = .refused) (skipWait : Bool) :
    (s.mutexBlock t skipWait).Safe := by
  have hne : s.pos t ≠ .absent := by
    rw [ht]
    decide
  have hnc : s.pos t ≠ .critical := by
    rw [ht]
    decide
  unfold MutexState.mutexBlock
  split
  · rename_i halone
    have hfree : s.Free := hs.free_of_alone (halone.elim hs.alone id) hne hnc
    exact (hs.store hfree (PolyWord.tagged 0)).move (p := .returning) hne (by decide)
  · split
    · exact hs.move hne (by decide)
    · exact hs.move hne (by simp)

theorem Safe.fork (hs : s.Safe) (hreal : s.realThreads = true) (t : Tid) : (s.fork t).Safe := by
  have hregistry : ({ s with registry := s.registry ++ [t] }).Safe :=
    ⟨hs.exclusive, hs.locked, fun u hu => List.mem_append_left _ (hs.registered u hu),
      fun h => by rw [hreal] at h; cases h⟩
  refine ⟨fun u v hu hv => ?_, fun u hu => ?_, fun u hu => ?_, hregistry.alone⟩
  · exact hs.exclusive u v (critical_of_setPos (by decide) hu).2
      (critical_of_setPos (by decide) hv).2
  · exact hs.locked u (critical_of_setPos (by decide) hu).2
  · by_cases hut : u = t
    · rw [hut]
      exact List.mem_append_right _ (List.mem_singleton_self t)
    · unfold MutexState.fork at hu
      rw [pos_setPos_ne _ _ hut] at hu
      exact hregistry.registered u hu

theorem Safe.exit (hs : s.Safe) (t : Tid) : (s.exit t).Safe := by
  refine ⟨fun u v hu hv => ?_, fun u hu => ?_, fun u hu => ?_, fun h => ?_⟩
  · exact hs.exclusive u v (critical_of_setPos (by decide) hu).2
      (critical_of_setPos (by decide) hv).2
  · exact hs.locked u (critical_of_setPos (by decide) hu).2
  · have hut : u ≠ t := by
      rintro rfl
      exact hu (pos_setPos_self _ _ _)
    unfold MutexState.exit at hu
    rw [pos_setPos_ne _ _ hut] at hu
    exact List.mem_filter.2 ⟨hs.registered u hu, decide_eq_true hut⟩
  · exact Nat.le_trans (List.length_filter_le _ _) (hs.alone h)

/-- One guarded step. -/
theorem Safe.exec {op : MutexOp Tid} (hs : s.Safe) (he : s.Enabled op) (hg : s.Guarded op) :
    (s.exec op).Safe := by
  cases op with
  | lockMutex t =>
    refine hs.lockMutex ?_ hg
    rcases he with h | h <;> rw [h] <;> decide
  | tryLockMutex t =>
    refine hs.tryLockMutex ?_
    rw [show s.pos t = .idle from he]
    decide
  | atomicReset t => exact hs.atomicReset he
  | mutexBlock t skipWait => exact hs.mutexBlock he skipWait
  | recheck t =>
    obtain ⟨since, hpos⟩ := he
    have hne : s.pos t ≠ .absent := by rw [hpos]; simp
    simp only [MutexState.exec, MutexState.recheck, hpos]
    split
    · exact hs.move hne (by simp)
    · exact hs.move hne (by decide)
  | wake t =>
    obtain ⟨since, hpos⟩ := he
    have hne : s.pos t ≠ .absent := by rw [hpos]; simp
    simp only [MutexState.exec, MutexState.wake, hpos]
    split
    · exact hs
    · exact hs.move hne (by decide)
  | blockReturn t interrupted =>
    have hne : s.pos t ≠ .absent := by rw [show s.pos t = .returning from he]; decide
    exact hs.move hne (by split <;> decide)
  | mutexUnlock t =>
    have hne : s.pos t ≠ .absent := by rw [show s.pos t = .contended from he]; decide
    have hp : (if s.realThreads then MutexPos.notifying else .idle) ≠ .critical := by split <;> decide
    exact (hs.store hg (PolyWord.tagged 0)).move hne hp
  | notify t =>
    have hne : s.pos t ≠ .absent := by rw [show s.pos t = .notifying from he]; decide
    have hgen : ({ s with blockGen := s.blockGen + 1 }).Safe :=
      ⟨hs.exclusive, hs.locked, hs.registered, hs.alone⟩
    exact hgen.move hne (by decide)
  | otherEvent => exact ⟨hs.exclusive, hs.locked, hs.registered, hs.alone⟩
  | fork parent t => exact hs.fork he.1 t
  | exit t => exact hs.exit t

/-- A guarded run keeps the invariant. -/
theorem Safe.run {s s' : MutexState Tid} (hs : s.Safe) (hrun : (machine Tid).Run Guarded s s') :
    s'.Safe :=
  hrun.invariant hs (fun _ _ hs he hg => hs.exec he hg)

/-- In a run in which no reset and no wrap-around of the counter hits a held mutex, at most one
thread holds it. -/
theorem exclusive_of_guarded {realThreads : Bool} {main : Tid} {s : MutexState Tid}
    (h : (machine Tid).Run Guarded (new realThreads main) s) : s.Exclusive :=
  ((safe_new realThreads main).run h).exclusive

/-- The guard is what the property needs: after an unguarded reset, the next thread that tries to
lock enters beside the holder. -/
theorem not_exclusive_of_reset {u v : Tid} (ht : s.pos t = .critical) (hut : u ≠ t) (hvt : v ≠ t) :
    ¬((s.mutexUnlock u).lockMutex v).Exclusive := by
  intro h
  refine hvt (h v t ?_ ?_)
  · exact pos_setPos_self _ _ _
  · rw [MutexState.lockMutex, pos_setPos_ne _ _ hvt.symm]
    rw [MutexState.mutexUnlock]
    exact (pos_setPos_ne _ _ hut.symm).trans ht

end Steps

/-- A contended unlock with nobody in between: thread `1` is refused, thread `0` lets go and resets
the word again, and thread `1` gets the mutex. -/
theorem exclusive_of_guarded_handover :
    ((((((((((new true 0).exec (.fork 0 1)).exec (.lockMutex 0)).exec (.lockMutex 1)).exec
      (.atomicReset 0)).exec (.mutexUnlock 0)).exec (.mutexBlock 1 false)).exec (.recheck 1)).exec
        (.blockReturn 1 false)).exec (.lockMutex 1) : MutexState (Fin 2)).Exclusive := by
  have htrace : (machine (Fin 2)).Trace Guarded (new true 0) [.fork 0 1, .lockMutex 0, .lockMutex 1,
      .atomicReset 0, .mutexUnlock 0, .mutexBlock 1 false, .recheck 1, .blockReturn 1 false,
      .lockMutex 1] := by
    refine ⟨⟨rfl, trivial, rfl⟩, trivial, Or.inl rfl, ?_, Or.inl rfl, ?_, rfl, trivial, rfl, ?_, rfl,
      trivial, ⟨0, rfl⟩, trivial, rfl, trivial, Or.inr rfl, ?_, trivial⟩
    · exact fun h => absurd h (by decide)
    · exact fun h => absurd h (by decide)
    · unfold Guarded Free
      decide
    · exact fun h => absurd h (by decide)
  exact exclusive_of_guarded htrace.run

/-- The state after thread `2` took the mutex between the two halves of thread `0`'s unlock, and the
second half let thread `1` in as well. -/
def erasedLock : MutexState (Fin 3) :=
  ((((((((((((new true 0).exec (.fork 0 1)).exec (.fork 0 2)).exec (.lockMutex 0)).exec
    (.lockMutex 1)).exec (.atomicReset 0)).exec (.lockMutex 2)).exec (.mutexUnlock 0)).exec
      (.mutexBlock 1 false)).exec (.recheck 1)).exec (.blockReturn 1 false)).exec (.lockMutex 1))

/-- Two threads hold the mutex at once. -/
theorem not_exclusive_erasedLock :
    ∃ s, (machine (Fin 3)).Reachable (new true 0) s ∧ ¬s.Exclusive := by
  have htrace : (machine (Fin 3)).Trace (fun _ _ => True) (new true 0) [.fork 0 1, .fork 0 2,
      .lockMutex 0, .lockMutex 1, .atomicReset 0, .lockMutex 2, .mutexUnlock 0, .mutexBlock 1 false,
      .recheck 1, .blockReturn 1 false, .lockMutex 1] :=
    ⟨⟨rfl, trivial, rfl⟩, trivial, ⟨rfl, trivial, rfl⟩, trivial, Or.inl rfl, trivial, Or.inl rfl,
      trivial, rfl, trivial, Or.inl rfl, trivial, rfl, trivial, rfl, trivial, ⟨0, rfl⟩, trivial, rfl,
      trivial, Or.inr rfl, trivial, trivial⟩
  refine ⟨erasedLock, htrace.run, fun h => ?_⟩
  exact absurd (h 1 2 rfl rfl) (by decide)

end MutexState
