import PolymlRs.Sched.BlockEvents

set_option autoImplicit false

/-! # Requests and sleeping threads

A thread that blocks samples the generation, and sleeps while the generation is the sample; whoever
posts a request bumps the generation afterwards. So a request wakes its target if it is posted after
the sample, and must be seen before the thread sleeps if it is posted earlier. `PolyThreadCondVarWait`
looks for requests after the sample. `PolyThreadMutexBlock` looks before it and `PolyWaitForSignal` not
at all, so that a request in between is missed: `not_stranded_of_guarded` is about the runs without
one, `exists_stranded` gives runs with one. -/

namespace BlockPos

variable {Tid Mid : Type}

/-- Whatever the others do, the thread bumps the generation before it is done with what it is doing.
A thread whose run loop has ended does so if it is a child. -/
@[simp] def Owes (child : Prop) : BlockPos Tid Mid → Prop
  | .unlockStored _ | .condEntered _ _ | .condSampled _ _ _ | .condReleased _ _ _ | .waking _
  | .posting _ _ | .posted | .finishEntered | .finishing _ | .exiting => True
  | .returned => child
  | _ => False

/-- Asleep until the generation is no longer `gen`. -/
def Asleep (gen : Nat) : BlockPos Tid Mid → Prop
  | .blockAsleep _ since | .condAsleep since _ | .signalAsleep since => since = gen
  | _ => False

/-- The thread sleeps on `gen`, or will if it sees nothing that keeps it from sleeping. Only
`PolyThreadCondVarWait` looks at the requests in between, and only the other two count for `all`. -/
@[simp] def Watches (all : Bool) (gen : Nat) : BlockPos Tid Mid → Prop
  | .condAsleep since _ => since = gen
  | .blockSampled _ since | .blockAsleep _ since | .signalAsleep since => all = true ∧ since = gen
  | _ => False

/-- The sample the thread has taken is not from the future. -/
@[simp] def SinceLe (gen : Nat) : BlockPos Tid Mid → Prop
  | .blockSampled _ since | .blockAsleep _ since | .condSampled _ since _ | .condReleased _ since _
  | .condAsleep since _ | .signalAsleep since => since ≤ gen
  | .condNotified since _ => since < gen
  | _ => True

theorem Asleep.watches {gen : Nat} {p : BlockPos Tid Mid} (h : p.Asleep gen) : p.Watches true gen := by
  cases p <;> simp_all [Asleep, Watches]

theorem SinceLe.bump {gen : Nat} {p : BlockPos Tid Mid} (h : p.SinceLe gen) :
    p.SinceLe (gen + 1) := by
  cases p with
  | blockSampled | blockAsleep | condSampled | condReleased | condAsleep | signalAsleep =>
    exact Nat.le_succ_of_le h
  | condNotified => exact Nat.lt_succ_of_lt h
  | _ => trivial

/-- After a bump nobody sleeps on the new generation. -/
theorem SinceLe.not_watches {all : Bool} {gen : Nat} {p : BlockPos Tid Mid} (h : p.SinceLe gen) :
    ¬ p.Watches all (gen + 1) := by
  cases p with
  | blockSampled | blockAsleep | signalAsleep =>
    exact fun hw => Nat.ne_of_lt (Nat.lt_succ_of_le h) hw.2
  | condAsleep => exact Nat.ne_of_lt (Nat.lt_succ_of_le h)
  | _ => exact id

end BlockPos

namespace BlockState

variable {Tid Mid : Type}

/-- The thread is bound to bump the generation. -/
def Owes (s : BlockState Tid Mid) (u : Tid) : Prop := (s.pos u).Owes (u ≠ s.main)

/-- A request is pending for which the blocking call must not sleep. -/
def Alarm (s : BlockState Tid Mid) (t : Tid) : Prop :=
  match s.pos t with
  | .condAsleep _ _ => s.requests t ≠ .none
  | _ => s.skipWait t = true

/-- The thread sleeps on the current generation although a request for it is pending, and no thread
is bound to wake it. -/
def Stranded (s : BlockState Tid Mid) (t : Tid) : Prop :=
  (s.pos t).Asleep s.blockGen ∧ s.Alarm t ∧ ∀ u, ¬ s.Owes u

/-- No request has come in unseen when `PolyThreadMutexBlock` and `PolyWaitForSignal` sample the
generation, unless somebody has still to bump it. -/
def SampleGuarded (s : BlockState Tid Mid) : BlockOp Tid Mid → Prop
  | .blockSample t | .signalSample t => s.skipWait t = true → ∃ u, s.Owes u
  | _ => True

/-- Who watches the generation while a request is pending is going to see it change. -/
structure WakeInv (all : Bool) (s : BlockState Tid Mid) : Prop where
  since : ∀ t, (s.pos t).SinceLe s.blockGen
  watched : ∀ t, (s.pos t).Watches all s.blockGen → s.Alarm t → ∃ u, s.Owes u

namespace WakeInv

variable {all : Bool} {s s' : BlockState Tid Mid} {a : Tid}

theorem not_stranded (h : s.WakeInv true) (t : Tid) : ¬ s.Stranded t := by
  rintro ⟨hasleep, halarm, hnobody⟩
  obtain ⟨u, hu⟩ := h.watched t hasleep.watches halarm
  exact hnobody u hu

/-- The mutex words, the registry and the flags of the threads that do not watch do not matter. -/
theorem congr (h : s.WakeInv all) (hmain : s'.main = s.main) (hgen : s'.blockGen = s.blockGen)
    (hpos : s'.pos = s.pos)
    (hreq : ∀ t, (s.pos t).Watches all s.blockGen → s'.requests t = s.requests t)
    (hint : ∀ t, (s.pos t).Watches all s.blockGen → s'.interruptState t = s.interruptState t) :
    s'.WakeInv all := by
  constructor
  · rw [hpos, hgen]
    exact h.since
  · intro t hw halarm
    rw [hpos, hgen] at hw
    have halarm' : s.Alarm t := by
      simpa only [Alarm, skipWait, hpos, hreq t hw, hint t hw] using halarm
    obtain ⟨u, hu⟩ := h.watched t hw halarm'
    refine ⟨u, ?_⟩
    simpa only [Owes, hpos, hmain] using hu

variable [DecidableEq Tid]

theorem since_setPos (h : ∀ t, (s.pos t).SinceLe s.blockGen) {p : BlockPos Tid Mid}
    (hp : p.SinceLe s.blockGen) (t : Tid) : ((s.setPos a p).pos t).SinceLe s.blockGen := by
  by_cases hta : t = a
  · subst hta
    rw [pos_setPos_self]
    exact hp
  · rw [pos_setPos_ne s p hta]
    exact h t

theorem owes_setPos_ne {u : Tid} {p : BlockPos Tid Mid} (hu : u ≠ a) :
    (s.setPos a p).Owes u ↔ s.Owes u := by
  unfold Owes
  rw [pos_setPos_ne s p hu]
  exact Iff.rfl

@[simp] theorem skipWait_setPos (s : BlockState Tid Mid) (a t : Tid) (p : BlockPos Tid Mid) :
    (s.setPos a p).skipWait t = s.skipWait t := rfl

theorem alarm_setPos_ne {t : Tid} {p : BlockPos Tid Mid} (ht : t ≠ a) :
    (s.setPos a p).Alarm t ↔ s.Alarm t := by
  unfold Alarm
  rw [pos_setPos_ne s p ht]
  exact Iff.rfl

/-- A thread moves; what it owes it still owes. -/
theorem move (h : s.WakeInv all) {q p : BlockPos Tid Mid} (hq : s.pos a = q)
    (howes : q.Owes (a ≠ s.main) → p.Owes (a ≠ s.main)) (hsince : p.SinceLe s.blockGen)
    (hwatch : p.Watches all s.blockGen → (s.setPos a p).Alarm a → ∃ u, (s.setPos a p).Owes u) :
    (s.setPos a p).WakeInv all := by
  refine ⟨since_setPos h.since hsince, ?_⟩
  intro t hw halarm
  by_cases hta : t = a
  · subst hta
    rw [pos_setPos_self] at hw
    exact hwatch hw halarm
  · rw [pos_setPos_ne s p hta] at hw
    obtain ⟨u, hu⟩ := h.watched t hw ((alarm_setPos_ne hta).1 halarm)
    refine ⟨u, ?_⟩
    by_cases hua : u = a
    · subst hua
      unfold Owes at hu ⊢
      rw [pos_setPos_self]
      exact howes (hq ▸ hu)
    · exact (owes_setPos_ne hua).2 hu

/-- The same when the thread does not watch the generation afterwards. -/
theorem move_away (h : s.WakeInv all) {q p : BlockPos Tid Mid} (hq : s.pos a = q)
    (howes : q.Owes (a ≠ s.main) → p.Owes (a ≠ s.main)) (hsince : p.SinceLe s.blockGen)
    (hwatch : ¬ p.Watches all s.blockGen) : (s.setPos a p).WakeInv all :=
  h.move hq howes hsince (fun hw => absurd hw hwatch)

/-- A thread that owes a bump can change any request. -/
theorem owing (h : s.WakeInv all) {p : BlockPos Tid Mid} (howes : p.Owes (a ≠ s.main))
    (hsince : p.SinceLe s.blockGen) (target : Tid) (req : Request) :
    ((s.setRequests target req).setPos a p).WakeInv all := by
  refine ⟨since_setPos (s := s.setRequests target req) h.since hsince, fun _ _ _ => ⟨a, ?_⟩⟩
  unfold Owes
  rw [pos_setPos_self]
  exact howes

/-- After a bump nobody watches the current generation, whatever was missed before. -/
theorem bump (h : ∀ t, (s.pos t).SinceLe s.blockGen) {p : BlockPos Tid Mid}
    (hsince : p.SinceLe (s.blockGen + 1)) (hwatch : ¬ p.Watches all (s.blockGen + 1)) :
    (s.bump.setPos a p).WakeInv all := by
  constructor
  · exact since_setPos (s := s.bump) (fun t => (h t).bump) hsince
  · intro t hw
    by_cases hta : t = a
    · subst hta
      rw [pos_setPos_self] at hw
      exact absurd hw hwatch
    · rw [pos_setPos_ne _ p hta] at hw
      exact absurd hw (h t).not_watches

theorem new (main : Tid) (st : InterruptState) (word : Mid → PolyWord) :
    (BlockState.new main st word).WakeInv all := by
  have hpos : ∀ t, (BlockState.new main st word).pos t = .unborn ∨
      (BlockState.new main st word).pos t = .running := by
    intro t
    simp only [BlockState.new, Function.update_apply]
    split <;> simp
  constructor
  · intro t
    rcases hpos t with h | h <;> simp [h]
  · intro t hw
    rcases hpos t with h | h <;> simp [h] at hw

/-- Posting a request that is not pending yet leaves the poster with a bump to give. -/
theorem makeThreadRequest (h : s.WakeInv all) (target : Tid) (req : Request) :
    (s.makeThreadRequest a target req).WakeInv all := by
  simp only [BlockState.makeThreadRequest]
  split
  · exact h.owing (by simp) (by simp) target _
  · rename_i hle
    have hmax : (s.requests target).max req = s.requests target := by simp [Request.max, hle]
    refine h.congr rfl rfl rfl (fun t _ => ?_) (fun _ _ => rfl)
    simp [setRequests, hmax]

/-- A thread that is awake changes its own request. -/
theorem setRequests (h : s.WakeInv all) (ha : ¬ (s.pos a).Watches all s.blockGen) (req : Request) :
    (s.setRequests a req).WakeInv all := by
  refine h.congr rfl rfl rfl (fun t hw => ?_) (fun _ _ => rfl)
  have hta : t ≠ a := by
    rintro rfl
    exact ha hw
  simp [BlockState.setRequests, hta]

theorem setInterruptState (h : s.WakeInv all) (ha : ¬ (s.pos a).Watches all s.blockGen)
    (st : InterruptState) : (s.setInterruptState a st).WakeInv all := by
  refine h.congr rfl rfl rfl (fun _ _ => rfl) (fun t hw => ?_)
  have hta : t ≠ a := by
    rintro rfl
    exact ha hw
  simp [BlockState.setInterruptState, hta]

theorem setDelivery (h : s.WakeInv all) (d : Delivery) : (s.setDelivery a d).WakeInv all :=
  h.congr rfl rfl rfl (fun _ _ => rfl) (fun _ _ => rfl)

omit [DecidableEq Tid] in
theorem AtCheck.not_watches (h : s.AtCheck a) : ¬ (s.pos a).Watches all s.blockGen := by
  unfold AtCheck at h
  split at h <;> simp_all

omit [DecidableEq Tid] in
theorem AtInstruction.not_watches (h : s.AtInstruction a) :
    ¬ (s.pos a).Watches all s.blockGen := by
  unfold AtInstruction at h
  split at h <;> simp_all

omit [DecidableEq Tid] in
theorem AtInstruction.not_owes (h : s.AtInstruction a) (child : Prop) : ¬ (s.pos a).Owes child := by
  unfold AtInstruction at h
  split at h <;> simp_all

/-- A thread between two instructions owes nothing yet, so it can go anywhere. -/
theorem leave (h : s.WakeInv all) (ha : s.AtInstruction a) {p : BlockPos Tid Mid}
    (hsince : p.SinceLe s.blockGen) (hwatch : ¬ p.Watches all s.blockGen) :
    (s.setPos a p).WakeInv all :=
  h.move_away rfl (fun howes => absurd howes (AtInstruction.not_owes ha _)) hsince hwatch

theorem afterCheck (h : s.WakeInv all) (a : Tid) : (s.afterCheck a).WakeInv all := by
  unfold BlockState.afterCheck
  split <;> rename_i hpos
  · exact h.move_away hpos (by simp) (by simp) (by simp)
  · exact h.move_away hpos (by simp) (by simp) (by simp)
  · exact h

theorem loadRequests (h : s.WakeInv all) (ha : s.AtCheck a) (synch : Bool) :
    (s.loadRequests a synch).WakeInv all := by
  unfold BlockState.loadRequests
  split
  · exact (h.afterCheck a).setDelivery _
  · split
    · unfold downgrade
      split
      · exact ((h.setInterruptState (AtCheck.not_watches ha) .synch).afterCheck a).setDelivery _
      · exact (h.afterCheck a).setDelivery _
    · exact h.afterCheck a
  · exact h.afterCheck a

theorem storeNone (h : s.WakeInv all) (ha : s.AtInstruction a) : (s.storeNone a).WakeInv all :=
  ((h.setRequests (AtInstruction.not_watches ha) .none).setDelivery .idle).leave ha (by simp) (by simp)

theorem exchangeNone (h : s.WakeInv all) (ha : s.AtInstruction a) :
    (s.exchangeNone a).WakeInv all := by
  unfold BlockState.exchangeNone
  split
  · exact (h.setRequests (AtInstruction.not_watches ha) .none).setDelivery _
  · exact h.setDelivery _

theorem clearCopy (h : s.WakeInv all) (ha : s.AtInstruction a) : (s.clearCopy a).WakeInv all := by
  have hcopy : ((s.setRequestCopy a (PolyWord.tagged 0)).setDelivery a .idle).WakeInv all :=
    h.congr rfl rfl rfl (fun _ _ => rfl) (fun _ _ => rfl)
  exact hcopy.leave ha (by simp) (by simp)

theorem fork (h : s.WakeInv all) {child : Tid} (hc : s.pos child = .unborn) (st : InterruptState) :
    (s.fork child st).WakeInv all := by
  have hwatch : ¬ (s.pos child).Watches all s.blockGen := by simp [hc]
  have hset : ((s.setRequests child .none).setInterruptState child st).WakeInv all :=
    (h.setRequests hwatch .none).setInterruptState hwatch st
  exact (hset.move_away (p := .running) hc (by simp) (by simp) (by simp)).congr rfl rfl rfl
    (fun _ _ => rfl) (fun _ _ => rfl)

/-- Leaving the loop of a sleeping thread, or sleeping on. -/
theorem wake (h : s.WakeInv all) (a : Tid) : (s.wake a).WakeInv all := by
  unfold BlockState.wake
  split <;> rename_i hpos
  · split
    · exact h
    · exact h.move_away hpos (by simp) (by simp) (by simp)
  · split
    · exact h
    · exact h.move_away hpos (by simp) (by simp) (by simp)
  · split
    · exact h
    · exact h.move_away hpos (by simp) (by simp) (by simp)
  · exact h

theorem notify (h : s.WakeInv all) (a : Tid) : (s.notify a).WakeInv all := by
  have hsince := h.since a
  unfold BlockState.notify
  split <;> rename_i hpos
  · exact bump h.since (by simp) (by simp)
  · exact bump h.since (by simp) (by simp)
  · rw [hpos] at hsince
    exact bump h.since (by simpa using Nat.lt_succ_of_le hsince) (by simp)
  · exact (bump (p := .running) h.since (by simp) (by simp)).congr rfl rfl rfl (fun _ _ => rfl)
      (fun _ _ => rfl)
  · exact bump h.since (by simp) (by simp)
  · exact bump h.since (by simp) (by simp)
  · exact h

variable [DecidableEq Mid]

/-- One step. The guard matters only if the mutex and signal waits count. -/
theorem exec {op : BlockOp Tid Mid} (h : s.WakeInv all) (he : s.Enabled op)
    (hg : all = true → s.SampleGuarded op) : (s.exec op).WakeInv all := by
  have hword : ∀ m w, (s.setWord m w).WakeInv all :=
    fun m w => h.congr rfl rfl rfl (fun _ _ => rfl) (fun _ _ => rfl)
  cases op with
  | lockMutex t m =>
    simp only [BlockState.exec, BlockState.lockMutex]
    rcases he.2 with hpos | hpos
    · split
      · exact (hword m _).move_away hpos (by simp) (by simp) (by simp)
      · exact (hword m _).move_away hpos (by simp) (by simp) (by simp)
    · split
      · exact (hword m _).move_away hpos (by simp) (by simp) (by simp)
      · exact (hword m _).move_away hpos (by simp) (by simp) (by simp)
  | tryLockMutex t m =>
    simp only [BlockState.exec, BlockState.tryLockMutex]
    split
    · exact hword m _
    · exact h
  | atomicReset t m =>
    simp only [BlockState.exec, BlockState.atomicReset]
    split
    · exact (hword m _).move_away he.2 (by simp) (by simp) (by simp)
    · exact (hword m _).move_away he.2 (by simp) (by simp) (by simp)
  | mutexBlock t =>
    obtain ⟨m, hpos⟩ := he.2
    simp only [BlockState.exec, BlockState.mutexBlock, hpos]
    split
    · exact (hword m _).move_away hpos (by simp) (by simp) (by simp)
    · exact h.move_away hpos (by simp) (by simp) (by simp)
  | blockCheck t =>
    obtain ⟨m, hpos⟩ := he
    simp only [BlockState.exec, BlockState.blockCheck, hpos]
    split
    · exact h.move_away hpos (by simp) (by simp) (by simp)
    · exact h.move_away hpos (by simp) (by simp) (by simp)
  | blockSample t =>
    obtain ⟨m, hpos⟩ := he
    simp only [BlockState.exec, BlockState.blockSample, hpos]
    refine h.move hpos (by simp) (by simp) ?_
    rintro ⟨hall, -⟩ halarm
    obtain ⟨u, hu⟩ := hg hall (by simpa [Alarm] using halarm)
    have hut : u ≠ t := by
      rintro rfl
      simp [Owes, hpos] at hu
    exact ⟨u, (owes_setPos_ne hut).2 hu⟩
  | blockRecheck t =>
    obtain ⟨m, since, hpos⟩ := he
    have hsince := h.since t
    have hwatched := h.watched t
    rw [hpos] at hsince hwatched
    simp only [BlockState.exec, BlockState.blockRecheck, hpos]
    split
    · refine h.move hpos (by simp) hsince ?_
      intro hw halarm
      obtain ⟨u, hu⟩ := hwatched hw (by simpa [Alarm, hpos] using halarm)
      have hut : u ≠ t := by
        rintro rfl
        simp [Owes, hpos] at hu
      exact ⟨u, (owes_setPos_ne hut).2 hu⟩
    · exact h.move_away hpos (by simp) (by simp) (by simp)
  | mutexUnlock t m =>
    rcases he.2 with hpos | hpos
    · exact (hword m _).move_away hpos (by simp) (by simp) (by simp)
    · exact (hword m _).move_away hpos (by simp) (by simp) (by simp)
  | condVarWait t m timed =>
    simp only [BlockState.exec, BlockState.condVarWait]
    split
    · exact h
    · exact h.move_away he.2 (by simp) (by simp) (by simp)
  | condSample t =>
    obtain ⟨m, timed, hpos⟩ := he
    simp only [BlockState.exec, BlockState.condSample, hpos]
    exact h.move_away hpos (by simp) (by simp) (by simp)
  | condRelease t =>
    obtain ⟨m, since, timed, hpos⟩ := he
    have hsince := h.since t
    rw [hpos] at hsince
    simp only [BlockState.exec, BlockState.condRelease, hpos]
    exact ((hword m _).move_away (p := .condReleased m since timed) hpos (by simp) hsince
      (by simp)).congr rfl rfl rfl (fun _ _ => rfl) (fun _ _ => rfl)
  | condCheck t =>
    obtain ⟨since, timed, hpos⟩ := he
    have hsince := h.since t
    rw [hpos] at hsince
    simp only [BlockState.exec, BlockState.condCheck, hpos]
    split
    · rename_i hnone
      -- the requests are loaded after the sample: this path needs no guard
      refine h.move hpos (by simp) hsince (fun _ halarm => ?_)
      simp only [Alarm, pos_setPos_self] at halarm
      exact absurd hnone halarm
    · exact h.move_away hpos (by simp) (by simp) (by simp)
  | condVarWake t target =>
    simp only [BlockState.exec, BlockState.condVarWake]
    split
    · exact h.move_away he.2 (by simp) (by simp) (by simp)
    · exact h
  | wakeCheck t ignored =>
    obtain ⟨target, hpos⟩ := he
    simp only [BlockState.exec, BlockState.wakeCheck, hpos]
    split
    · exact h.move_away hpos (by simp) (by simp) (by simp)
    · exact (h.move_away (p := .running) hpos (by simp) (by simp) (by simp)).congr rfl rfl rfl
        (fun _ _ => rfl) (fun _ _ => rfl)
  | waitForSignal t => exact h.move_away he.2 (by simp) (by simp) (by simp)
  | signalSample t =>
    refine h.move he (by simp) (by simp) ?_
    rintro ⟨hall, -⟩ halarm
    obtain ⟨u, hu⟩ := hg hall (by simpa [Alarm] using halarm)
    have hut : u ≠ t := by
      rintro rfl
      simp [Owes, show s.pos u = .signalLoop from he] at hu
    exact ⟨u, (owes_setPos_ne hut).2 hu⟩
  | signalCheck t =>
    simp only [BlockState.exec, BlockState.signalCheck]
    split
    · exact h.move_away he (by simp) (by simp) (by simp)
    · exact h.move_away he (by simp) (by simp) (by simp)
  | wake t => exact h.wake t
  | notify t => exact h.notify t
  | makeThreadRequest t target req => exact h.makeThreadRequest target req
  | writeCopy t =>
    obtain ⟨target, req, hpos⟩ := he
    simp only [BlockState.exec, BlockState.writeCopy, hpos]
    have hcopy : (s.setRequestCopy target (PolyWord.tagged req.code)).WakeInv all :=
      h.congr rfl rfl rfl (fun _ _ => rfl) (fun _ _ => rfl)
    exact hcopy.move_away hpos (by simp) (by simp) (by simp)
  | finish t =>
    simp only [BlockState.exec, BlockState.finish]
    split
    · exact h.leave he.2 (by simp) (by simp)
    · exact h.leave he.2 (by simp) (by simp)
  | finishSnapshot t => exact h.move_away he (by simp) (by simp) (by simp)
  | finishStore t =>
    obtain ⟨u, rest, hpos⟩ := he
    simp only [BlockState.exec, BlockState.finishStore, hpos]
    exact h.owing (by simp) (by simp) u .kill
  | loadRequests t synch => exact h.loadRequests he.2.1 synch
  | storeNone t => exact h.storeNone he.2
  | exchangeNone t => exact h.exchangeNone he.2
  | clearCopy t => exact h.clearCopy he.2
  | setAttributes t st => exact h.setInterruptState (by simp [he.2]) st
  | fork t child st => exact h.fork he.2.2 st
  | killSelf t => exact h.move_away he.2 (by simp) (by simp) (by simp)
  | exitParked t =>
    simp only [BlockState.exec, BlockState.exitParked]
    refine (h.move_away (p := if t = s.main then .exited else .exiting) he ?_ ?_ ?_).congr rfl rfl rfl
      (fun _ _ => rfl) (fun _ _ => rfl)
    · intro hchild
      simp only [BlockPos.Owes] at hchild
      simp [hchild]
    · split <;> simp
    · split <;> simp

end WakeInv

/-- In a run in which no request comes in unseen before the generation is sampled, a thread for which
a request is pending does not sleep unless somebody is bound to wake it. -/
theorem not_stranded_of_guarded [DecidableEq Tid] [DecidableEq Mid] {main : Tid}
    {st : InterruptState} {word : Mid → PolyWord} {s : BlockState Tid Mid}
    (hrun : (blockMachine Tid Mid).Run SampleGuarded (new main st word) s) (t : Tid) :
    ¬ s.Stranded t := by
  have hinv : s.WakeInv true := hrun.invariant (WakeInv.new main st word)
    (fun _ _ h he hg => h.exec he (fun _ => hg))
  exact hinv.not_stranded t

/-! ## Runs of two threads -/

section Traces

attribute [local instance] BlockState.neZero_two

/-- Thread 1 fails to take the mutex, and gets as far as the check for requests. -/
def refusedRun : List (BlockOp (Fin 2) Unit) :=
  [.fork 0 1 .synch, .lockMutex 0 (), .lockMutex 1 (), .mutexBlock 1, .blockCheck 1]

/-- Thread 0 posts a kill to thread 1. -/
def postRun : List (BlockOp (Fin 2) Unit) := [.makeThreadRequest 0 1 .kill, .writeCopy 0]

/-- Thread 1 goes to sleep. -/
def sleepRun : List (BlockOp (Fin 2) Unit) := [.blockSample 1, .blockRecheck 1]

/-- Thread 1 is killed before it calls `PolyWaitForSignal`. -/
def signalRun : List (BlockOp (Fin 2) Unit) :=
  .fork 0 1 .synch :: postRun ++ [.notify 0, .waitForSignal 1, .signalSample 1]

/-- The kill is posted to the sleeping thread: thread 0 has still to wake it. -/
theorem not_stranded_of_guarded_run :
    ¬ ((refusedRun ++ sleepRun ++ postRun).foldl
      (blockMachine (Fin 2) Unit).exec alone).Stranded 1 := by
  refine not_stranded_of_guarded (Machine.Trace.run ?_) 1
  simp [refusedRun, sleepRun, postRun, Machine.Trace, blockMachine, Enabled, SampleGuarded, exec, new,
    fork, lockMutex, mutexBlock, blockCheck, blockSample, blockRecheck, makeThreadRequest, setPos,
    setWord, setRequests, setRequestCopy, setInterruptState, setDelivery, skipWait, Request.code,
    Function.update, PolyWord.tagged]

/-- The kill is posted between the check and the sample, or before the first sample of
`PolyWaitForSignal`: the thread sleeps although it is killed. -/
theorem exists_stranded :
    (∃ s since, (blockMachine (Fin 2) Unit).Reachable alone s ∧ s.pos 1 = .blockAsleep () since ∧
      s.requests 1 = .kill ∧ s.Stranded 1) ∧
    ∃ s since, (blockMachine (Fin 2) Unit).Reachable alone s ∧ s.pos 1 = .signalAsleep since ∧
      s.requests 1 = .kill ∧ s.Stranded 1 := by
  constructor
  · have htrace : (blockMachine (Fin 2) Unit).Trace (fun _ _ => True) alone
        (refusedRun ++ postRun ++ .notify 0 :: sleepRun) := by
      simp [alone, refusedRun, sleepRun, postRun, Machine.Trace, blockMachine, Enabled, exec, new,
        fork, lockMutex, mutexBlock, blockCheck, blockSample, makeThreadRequest, writeCopy, notify,
        bump, setPos, setWord, setRequests, setRequestCopy, setInterruptState, setDelivery, skipWait,
        Request.code, Function.update, PolyWord.tagged]
    exact ⟨_, 1, htrace.run, by decide, by decide, rfl, rfl, Fin.forall_fin_two.2 ⟨id, id⟩⟩
  · have htrace : (blockMachine (Fin 2) Unit).Trace (fun _ _ => True) alone signalRun := by
      simp [alone, signalRun, postRun, Machine.Trace, blockMachine, Enabled, exec, new, fork,
        makeThreadRequest, writeCopy, notify, bump, waitForSignal, setPos, setRequests, setRequestCopy,
        setInterruptState, setDelivery, Request.code, Function.update]
    exact ⟨_, 1, htrace.run, by decide, by decide, rfl, rfl, Fin.forall_fin_two.2 ⟨id, id⟩⟩

end Traces

end BlockState
