import PolymlRs.Lib.Interleaving
import PolymlRs.Sched.Safety

set_option autoImplicit false

/-! # Who waits in ML

The collector waits at its barrier until every other thread has left ML. A thread that waits for the
collection to end must therefore have left ML itself. Every operation leaves ML before it waits but
`exit_parked`, which relies on its caller: a parent whose spawn failed calls it from inside ML. -/

namespace Pos

variable {Tid Roots : Type}

/-- The thread waits on a condition variable of the scheduler. -/
def Waiting : Pos Tid Roots → Prop
  | .registering _ | .taking | .handoff | .exiting _ | .losing | .barrier => True
  | _ => False

end Pos

namespace Runtime

variable {Tid Roots : Type}

/-- Only the collector waits in ML, and so not for a thread that waits for it. -/
structure NoCircularWait (s : Runtime Tid Roots) : Prop where
  onlyBarrier : ∀ t ∈ s.registry, (s.pos t).Waiting → (s.handle t).inMl = true → s.pos t = .barrier
  notWaiting : ∀ c, s.pos c = .barrier → ∀ t ∈ s.registry, t ≠ c → (s.handle t).inMl = true →
    ¬ (s.pos t).Waiting

/-- Threads that wait to exit, or to take another off the registry, are outside ML. -/
def ExitsOutside (s : Runtime Tid Roots) : Prop :=
  ∀ t u, s.pos t = .exiting u → (s.handle t).inMl = false

/-- In ML, a parent whose spawn failed takes the child off the registry only while no collection is
    requested. -/
def SpawnGuarded (s : Runtime Tid Roots) : SchedOp Tid Roots → Prop
  | .exitParked caller _ => (s.handle caller).inMl = true → s.gcRequested = false
  | _ => True

theorem SchedInv.noCircularWait {s : Runtime Tid Roots} (hi : SchedInv s) (hx : s.ExitsOutside) :
    NoCircularWait s := by
  have honly : ∀ t ∈ s.registry, (s.pos t).Waiting → (s.handle t).inMl = true → s.pos t = .barrier := by
    intro t hreg hw hml
    have hout : ¬ (s.pos t).Outside := fun ho => by
      rw [(hi.outside t ho).2] at hml
      cases hml
    cases hpos : s.pos t with
    | barrier => rfl
    | registering roots => exact absurd hreg (hi.registering t roots hpos)
    | exiting u =>
      rw [hx t u hpos] at hml
      cases hml
    | taking | handoff | losing =>
      rw [hpos] at hout
      exact absurd trivial hout
    | idle | forked | abandoned | collecting =>
      rw [hpos] at hw
      exact hw.elim
  exact ⟨honly, fun c hc t hreg hne hml hw =>
    hne (hi.unique t c (.inl (honly t hreg hw hml)) (.inl hc))⟩

/-! ## Steps that move one thread -/

/-- The other threads stay where and as they are. -/
def SameBut (t : Tid) (s s' : Runtime Tid Roots) : Prop :=
  ∀ u, u ≠ t → s'.pos u = s.pos u ∧ s'.handle u = s.handle u

/-- Only `t` moves, and it does not wait to exit after that. -/
structure Moves (t : Tid) (s s' : Runtime Tid Roots) : Prop where
  others : SameBut t s s'
  stays : ∀ u, s'.pos t ≠ .exiting u

variable {s s₁ s' : Runtime Tid Roots} {t : Tid}

theorem Moves.exitsOutside (hm : Moves t s s') (hx : s.ExitsOutside) : s'.ExitsOutside := by
  intro u v hu
  have hut : u ≠ t := fun he => hm.stays v (he ▸ hu)
  obtain ⟨hpos, hh⟩ := hm.others u hut
  rw [hh]
  exact hx u v (hpos ▸ hu)

theorem SameBut.refl (t : Tid) (s : Runtime Tid Roots) : SameBut t s s := fun _ _ => ⟨rfl, rfl⟩

theorem SameBut.trans (h : SameBut t s s₁) (h' : SameBut t s₁ s') : SameBut t s s' :=
  fun u hu => ⟨(h' u hu).1.trans (h u hu).1, (h' u hu).2.trans (h u hu).2⟩

/-- The thread ends up between operations. -/
theorem SameBut.idle (hs : SameBut t s s') (hpos : s'.pos t = .idle) : Moves t s s' :=
  ⟨hs, fun u => by simp [hpos]⟩

variable [DecidableEq Tid]

theorem SameBut.setHandle (hs : SameBut t s s₁) (h : ThreadHandle Roots) :
    SameBut t s (s₁.setHandle t h) :=
  hs.trans (fun _ hu => ⟨rfl, Function.update_of_ne hu ..⟩)

theorem SameBut.setPos (hs : SameBut t s s₁) (p : Pos Tid Roots) : SameBut t s (s₁.setPos t p) :=
  hs.trans (fun _ hu => ⟨Function.update_of_ne hu .., rfl⟩)

theorem SameBut.goTo (hs : SameBut t s s₁) {p : Pos Tid Roots} (hp : ∀ u, p ≠ .exiting u) :
    Moves t s (s₁.setPos t p) := by
  refine ⟨hs.setPos p, fun u => ?_⟩
  simp only [Runtime.setPos, Function.update_self]
  exact hp u

theorem SameBut.publish (hs : SameBut t s s₁) (roots : Roots) : SameBut t s (s₁.publish t roots) :=
  hs.setHandle _

theorem SameBut.run (hs : SameBut t s s₁) : Moves t s ((s₁.becomeRunning t).setPos t .idle) := by
  have hsame : SameBut t s (s₁.becomeRunning t) := hs.setHandle _
  exact hsame.goTo (by simp)

theorem SameBut.awaitTurn (hs : SameBut t s s₁) : Moves t s (s₁.awaitTurn t) := by
  rw [Runtime.awaitTurn]
  split
  · exact hs.goTo (by simp)
  · exact SameBut.run hs

theorem SameBut.enqueue (hs : SameBut t s s₁) : Moves t s (s₁.enqueue t) := SameBut.awaitTurn hs

theorem SameBut.awaitHandoff (hs : SameBut t s s₁) : Moves t s (s₁.awaitHandoff t) := by
  rw [Runtime.awaitHandoff]
  split
  · exact hs.goTo (by simp)
  · exact hs.enqueue

theorem SameBut.awaitCollected (hs : SameBut t s s₁) : Moves t s (s₁.awaitCollected t) := by
  rw [Runtime.awaitCollected]
  split
  · exact hs.goTo (by simp)
  · exact hs.run

theorem SameBut.awaitParked (hs : SameBut t s s₁) : Moves t s (s₁.awaitParked t) := by
  rw [Runtime.awaitParked]
  split <;> exact hs.goTo (by simp)

theorem SameBut.registerAndAcquire (hs : SameBut t s s₁) (roots : Roots) :
    Moves t s (s₁.registerAndAcquireMlMemory t roots) := by
  rw [registerAndAcquireMlMemory]
  split
  · exact hs.goTo (by simp)
  · exact SameBut.enqueue (hs.publish roots)

/-! ## The steps of the exit -/

theorem ExitsOutside.exitParked (hx : s.ExitsOutside) {caller : Tid}
    (hc : s.gcRequested = true → (s.handle caller).inMl = false) :
    (s.exitParked caller t).ExitsOutside := by
  intro u v hu
  rw [Runtime.exitParked] at hu ⊢
  split at hu
  next hgc =>
    rw [if_pos hgc]
    by_cases he : u = caller
    · exact he ▸ hc hgc
    · exact hx u v (by simpa [setPos, Function.update_of_ne he] using hu)
  next hgc =>
    rw [if_neg hgc]
    have hcaller : u ≠ caller := by
      rintro rfl
      simp [setPos] at hu
    have ht : u ≠ t := by
      rintro rfl
      simp [setPos, Function.update_of_ne hcaller] at hu
    simp only [setPos, deregister, setHandle, Function.update_of_ne hcaller,
      Function.update_of_ne ht] at hu ⊢
    exact hx u v hu

theorem ExitsOutside.wake (hx : s.ExitsOutside) (t : Tid) : (s.wake t).ExitsOutside := by
  have hsame := SameBut.refl t s
  rw [Runtime.wake]
  split
  · exact ((hsame.setPos .idle).registerAndAcquire _).exitsOutside hx
  · exact hsame.awaitTurn.exitsOutside hx
  · exact hsame.awaitHandoff.exitsOutside hx
  · next u hpos => exact hx.exitParked (fun _ => hx t u hpos)
  · exact hsame.awaitCollected.exitsOutside hx
  · exact hsame.awaitParked.exitsOutside hx
  · exact hx

theorem ExitsOutside.exec (hx : s.ExitsOutside) {op : SchedOp Tid Roots} (he : s.Enabled op)
    (hg : s.SpawnGuarded op) : (s.exec op).ExitsOutside := by
  cases op with
  | acquireMlMemory t roots =>
    have hsame := (SameBut.refl t s).publish roots
    exact hsame.enqueue.exitsOutside hx
  | registerAndAcquireMlMemory t roots =>
    exact ((SameBut.refl t s).registerAndAcquire roots).exitsOutside hx
  | publishForkRoots t roots =>
    have hsame := (SameBut.refl t s).setHandle { s.handle t with parkedRoots := some roots }
    exact (hsame.idle he.1).exitsOutside hx
  | registerThreadPublished t =>
    have hsame : SameBut t s { s with registry := s.registry ++ [t] } := SameBut.refl t s
    exact (hsame.goTo (by simp)).exitsOutside hx
  | acquireMlMemoryKeepPublished t =>
    have hsame := (SameBut.refl t s).setHandle { s.handle t with inMl := false }
    exact hsame.enqueue.exitsOutside hx
  | releaseMlMemory t roots | releaseMlMemoryPublishing t roots =>
    refine Moves.exitsOutside (t := t) ?_ hx
    exact SameBut.idle ((SameBut.refl t s).publish roots) he.1
  | reacquireMlMemory t => exact (SameBut.refl t s).enqueue.exitsOutside hx
  | safepointPark t roots =>
    refine Moves.exitsOutside (t := t) ?_ hx
    exact SameBut.enqueue ((SameBut.refl t s).publish roots)
  | yieldMlMemory t roots =>
    rw [Runtime.exec, yieldMlMemory]
    split
    · exact hx
    · split
      · exact hx
      · refine Moves.exitsOutside (t := t) ?_ hx
        exact SameBut.awaitHandoff ((SameBut.refl t s).publish roots)
  | exitRunning t =>
    refine Moves.exitsOutside (t := t) ?_ hx
    exact SameBut.idle ((SameBut.refl t s).setHandle _) he.1
  | exitParked caller t =>
    have hout : s.gcRequested = true → (s.handle caller).inMl = false := by
      intro hgc
      by_contra hml
      rw [hg (by simpa using hml)] at hgc
      cases hgc
    rw [Runtime.exec, abandon]
    split
    · exact hx.exitParked hout
    · have habandon : (s.setPos t (.abandoned caller)).ExitsOutside :=
        ((SameBut.refl t s).goTo (by simp)).exitsOutside hx
      exact habandon.exitParked hout
  | requestGc t =>
    refine Moves.exitsOutside (t := t) ?_ hx
    exact SameBut.awaitParked (SameBut.refl t s)
  | requestGcParallel t roots =>
    rw [Runtime.exec, requestGcParallel]
    refine Moves.exitsOutside (t := t) ?_ hx
    split
    · exact SameBut.awaitCollected ((SameBut.refl t s).publish roots)
    · exact SameBut.awaitParked (SameBut.refl t s)
  | finishGc t =>
    have hsame : SameBut t s { s with
        gcRequested := false, gcRequestedAtomic := false, gcCount := s.gcCount + 1 } := SameBut.refl t s
    exact (hsame.goTo (by simp)).exitsOutside hx
  | wake t => exact hx.wake t

/-! ## Runs -/

def schedMachine (Tid Roots : Type) [DecidableEq Tid] :
    Machine (Runtime Tid Roots) (SchedOp Tid Roots) where
  Enabled := Enabled
  exec := exec

/-- In a guarded run only the collector waits in ML. -/
theorem noCircularWait_of_guarded {parallel : Bool}
    (hrun : (schedMachine Tid Roots).Run SpawnGuarded (new Tid Roots parallel) s) :
    NoCircularWait s := by
  have hinv : SchedInv s ∧ s.ExitsOutside := by
    refine hrun.invariant (I := fun s => SchedInv s ∧ s.ExitsOutside) ?_ ?_
    · exact ⟨schedInv_new parallel, fun t u hu => by simp [new] at hu⟩
    · rintro s op ⟨hi, hx⟩ he hg
      exact ⟨schedInv_step hi op he, hx.exec he hg⟩
  exact hinv.1.noCircularWait hinv.2

/-- The parent of a failed spawn that is not guarded waits in ML. -/
theorem circularWait_of_unguarded (hi : SchedInv s) {op : SchedOp Tid Roots} (he : s.Enabled op)
    (hg : ¬ s.SpawnGuarded op) : ¬ NoCircularWait (s.exec op) := by
  intro hn
  cases op with
  | exitParked caller t =>
    obtain ⟨hml, hgc⟩ := Classical.not_imp.1 hg
    rw [Bool.not_eq_false] at hgc
    have hexec : (s.exec (.exitParked caller t)).pos caller = .exiting t ∧
        (s.exec (.exitParked caller t)).handle = s.handle ∧
        (s.exec (.exitParked caller t)).registry = s.registry := by
      rw [exec, abandon]
      split <;> simp [exitParked, setPos, hgc]
    have hbar := hn.onlyBarrier caller (by rw [hexec.2.2]; exact hi.inMlReg caller hml)
      (by rw [hexec.1]; trivial) (by rw [hexec.2.1]; exact hml)
    rw [hexec.1] at hbar
    cases hbar
  | _ => exact hg trivial

/-- Threads 0 and 1 enter ML. -/
def enteredState : Runtime Nat Nat :=
  ((new Nat Nat true).exec (.registerAndAcquireMlMemory 0 10)).exec (.registerAndAcquireMlMemory 1 20)

/-- Thread 0 registers thread 2, and thread 1 waits at its barrier for thread 0. -/
def requestedState : Runtime Nat Nat :=
  ((enteredState.exec (.publishForkRoots 2 30)).exec (.registerThreadPublished 2)).exec
    (.requestGcParallel 1 21)

theorem enteredState_run : (schedMachine Nat Nat).Run SpawnGuarded (new Nat Nat true) enteredState := by
  have h : (schedMachine Nat Nat).Run SpawnGuarded (new Nat Nat true) _ :=
    .step (SchedOp.registerAndAcquireMlMemory 0 10) (.refl _) ⟨rfl, List.not_mem_nil⟩ trivial
  exact h.step (SchedOp.registerAndAcquireMlMemory 1 20) ⟨rfl, by decide⟩ trivial

theorem requestedState_run :
    (schedMachine Nat Nat).Run SpawnGuarded (new Nat Nat true) requestedState := by
  have h1 := enteredState_run.step (SchedOp.publishForkRoots 2 30) ⟨rfl, by decide⟩ trivial
  have h2 := h1.step (SchedOp.registerThreadPublished 2) ⟨rfl, by decide, rfl⟩ trivial
  exact h2.step (SchedOp.requestGcParallel 1 21) ⟨rfl, rfl⟩ trivial

theorem noCircularWait_requestedState : NoCircularWait requestedState :=
  noCircularWait_of_guarded requestedState_run

/-- The spawn of thread 2 fails: thread 0 waits in ML for the collection, and thread 1 for thread 0. -/
theorem exists_circularWait :
    ∃ s : Runtime Nat Nat, (schedMachine Nat Nat).Reachable (new Nat Nat true) s ∧ s.pos 1 = .barrier ∧
      s.pos 0 = .exiting 2 ∧ (s.handle 0).inMl = true ∧ ¬ NoCircularWait s := by
  have hrun := requestedState_run.reachable.step (SchedOp.exitParked 0 2) ⟨rfl, .inr rfl⟩ trivial
  refine ⟨_, hrun, rfl, rfl, rfl, fun h => ?_⟩
  exact absurd (h.onlyBarrier 0 (by decide) trivial rfl) (by decide)

end Runtime
