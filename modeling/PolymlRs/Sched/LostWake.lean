import PolymlRs.Sched.RequestWake

set_option autoImplicit false

/-! # Unlocks and wakes

An unlock that finds other lockers bumps the generation, and so does a wake. A thread that blocks on a
mutex looks at the word once more after it has sampled the generation; but the word it sees can be the
lock of a thread that has come in between and that knows of no other locker. `not_lostUnlock_of_guarded`
is about the runs in which this does not happen, `exists_lostUnlock` gives one in which it does. A wake
is never lost (`not_lostWake`): the waiter samples before it releases the mutex, so that its own bump and
that of the wake are two. -/

namespace BlockPos

variable {Tid Mid : Type}

/-- The thread has released `m`, and is going to bump the generation for it. -/
@[simp] def Unlocking (m : Mid) : BlockPos Tid Mid → Prop
  | .contended m' | .unlockStored m' | .condReleased m' _ _ => m' = m
  | _ => False

/-- Asleep in `PolyThreadMutexBlock` until the generation is no longer `gen`. -/
@[simp] def AsleepOn (m : Mid) (gen : Nat) : BlockPos Tid Mid → Prop
  | .blockAsleep m' since => m' = m ∧ since = gen
  | _ => False

/-- The thread is on the registry. -/
@[simp] def Alive : BlockPos Tid Mid → Prop
  | .unborn | .exiting | .exited => False
  | _ => True

/-- A wake for a waiter that has released its mutex is a bump besides its own; a wake is refused only
if there is a request. -/
@[simp] def WakeSeen (gen : Nat) (woken refused pending : Prop) : BlockPos Tid Mid → Prop
  | .condReleased _ since _ | .condAsleep since _ => (woken → since < gen) ∧ (refused → pending)
  | .condNotified since _ => (woken → since + 1 < gen) ∧ (refused → pending)
  | _ => True

/-- Neither asleep in `PolyThreadMutexBlock` nor waiting in `PolyThreadCondVarWait`. -/
@[simp] def Calm : BlockPos Tid Mid → Prop
  | .blockAsleep _ _ | .condReleased _ _ _ | .condNotified _ _ | .condAsleep _ _ => False
  | _ => True

theorem Calm.not_asleepOn {p : BlockPos Tid Mid} (h : p.Calm) (m : Mid) (gen : Nat) :
    ¬ p.AsleepOn m gen := by
  cases p <;> simp_all

theorem Calm.wakeSeen {p : BlockPos Tid Mid} (h : p.Calm) (gen : Nat)
    (woken refused pending : Prop) : p.WakeSeen gen woken refused pending := by
  cases p <;> simp_all

theorem SinceLe.not_asleepOn {p : BlockPos Tid Mid} {gen : Nat} (h : p.SinceLe gen) (m : Mid) :
    ¬ p.AsleepOn m (gen + 1) := by
  cases p with
  | blockAsleep m' since => exact fun hasleep => Nat.ne_of_lt (Nat.lt_succ_of_le h) hasleep.2
  | _ => exact id

theorem WakeSeen.mono {p : BlockPos Tid Mid} {gen gen' : Nat}
    {woken refused pending woken' refused' pending' : Prop}
    (h : p.WakeSeen gen woken refused pending) (hgen : gen ≤ gen') (hwoken : woken' → woken)
    (hrefused : refused' → refused) (hpending : pending → pending') :
    p.WakeSeen gen' woken' refused' pending' := by
  cases p with
  | condReleased m since timed | condAsleep since timed =>
    exact ⟨fun hw => Nat.lt_of_lt_of_le (h.1 (hwoken hw)) hgen,
      fun hr => hpending (h.2 (hrefused hr))⟩
  | condNotified since timed =>
    exact ⟨fun hw => Nat.lt_of_lt_of_le (h.1 (hwoken hw)) hgen,
      fun hr => hpending (h.2 (hrefused hr))⟩
  | _ => trivial

/-- A wake is refused while there is a request. -/
theorem WakeSeen.refuse {p : BlockPos Tid Mid} {gen : Nat} {woken refused pending : Prop}
    (h : p.WakeSeen gen woken refused pending) (hpending : pending) (refused' : Prop) :
    p.WakeSeen gen woken refused' pending := by
  cases p with
  | condReleased m since timed | condNotified since timed | condAsleep since timed =>
    exact ⟨h.1, fun _ => hpending⟩
  | _ => trivial

/-- The bump of a wake. -/
theorem WakeSeen.bump {p : BlockPos Tid Mid} {gen : Nat} {woken refused pending : Prop}
    (h : p.WakeSeen gen woken refused pending) (hsince : p.SinceLe gen) (woken' : Prop) :
    p.WakeSeen (gen + 1) woken' refused pending := by
  cases p with
  | condReleased m since timed | condAsleep since timed =>
    exact ⟨fun _ => Nat.lt_succ_of_le hsince, h.2⟩
  | condNotified since timed => exact ⟨fun _ => Nat.succ_lt_succ hsince, h.2⟩
  | _ => trivial

end BlockPos

namespace BlockState

variable {Tid Mid : Type}

/-- The thread sleeps on the current generation, the mutex it wants is free, and nobody who has
released it has still to bump the generation. -/
def LostUnlock (s : BlockState Tid Mid) (t : Tid) : Prop :=
  ∃ m, (s.pos t).AsleepOn m s.blockGen ∧ s.word m = PolyWord.tagged 0 ∧
    ∀ u, ¬ (s.pos u).Unlocking m

/-- The thread sleeps on the current generation after a wake for it; or after one that was refused,
and nobody is bound to wake it. -/
def LostWake (s : BlockState Tid Mid) (t : Tid) : Prop :=
  ∃ since timed, s.pos t = .condAsleep since timed ∧ since = s.blockGen ∧
    (s.woken t = true ∨ s.wakeRefused t = true ∧ ∀ u, ¬ s.Owes u)

/-- The next unlock of `m` is going to be noticed: the word shows other lockers, or the bump for an
earlier unlock is still to come. -/
def Flagged (s : BlockState Tid Mid) (m : Mid) : Prop :=
  (∃ u, (s.pos u).Unlocking m) ∨ s.word m ≠ PolyWord.tagged 0 ∧ s.word m ≠ PolyWord.tagged 1

/-- Some thread sleeps on the current generation until `m` is unlocked. -/
def Awaited (s : BlockState Tid Mid) (m : Mid) : Prop := ∃ t, (s.pos t).AsleepOn m s.blockGen

/-- A thread does not go to sleep on the lock of one that knows of no other; the count of lockers does
not wrap around; and no thread is stopped between `ATOMIC_RESET` and `PolyThreadMutexUnlock`, unless
another has still to bump the generation. -/
def UnlockGuarded (s : BlockState Tid Mid) : BlockOp Tid Mid → Prop
  | .blockRecheck t => ∀ m since, s.pos t = .blockSampled m since → since = s.blockGen →
    s.word m = PolyWord.tagged 1 → ∃ u, (s.pos u).Unlocking m
  | .lockMutex _ m => s.Awaited m → s.word m = BitVec.allOnes 64 → ∃ u, (s.pos u).Unlocking m
  | .finish t | .storeNone t | .clearCopy t => ∀ m, s.pos t = .contended m → s.Awaited m →
    (∃ u, u ≠ t ∧ (s.pos u).Unlocking m) ∨
      s.word m ≠ PolyWord.tagged 0 ∧ s.word m ≠ PolyWord.tagged 1
  | _ => True

/-- What holds besides `WakeInv`; that unlocks are noticed only if the run is guarded. -/
structure EventInv (guarded : Bool) (s : BlockState Tid Mid) : Prop where
  registered : ∀ t, (s.pos t).Alive → t ∈ s.registry
  seen : ∀ t, (s.pos t).WakeSeen s.blockGen (s.woken t = true) (s.wakeRefused t = true)
    (s.requests t ≠ .none)
  flagged : guarded = true → ∀ m, s.Awaited m → s.Flagged m

namespace EventInv

variable {guarded : Bool} {s s' : BlockState Tid Mid} {a : Tid}

theorem not_lostUnlock (h : s.EventInv true) (t : Tid) : ¬ s.LostUnlock t := by
  rintro ⟨m, hasleep, hfree, hnobody⟩
  rcases h.flagged rfl m ⟨t, hasleep⟩ with ⟨u, hu⟩ | hword
  · exact hnobody u hu
  · exact hword.1 hfree

theorem not_lostWake (h : s.EventInv guarded) (hw : s.WakeInv false) (t : Tid) : ¬ s.LostWake t := by
  rintro ⟨since, timed, hpos, rfl, hwake⟩
  have hseen := h.seen t
  rw [hpos] at hseen
  rcases hwake with hwoken | ⟨hrefused, hnobody⟩
  · exact Nat.lt_irrefl _ (hseen.1 hwoken)
  · obtain ⟨u, hu⟩ := hw.watched t (by simp [hpos]) (by simpa [Alarm, hpos] using hseen.2 hrefused)
    exact hnobody u hu

/-- Nothing the invariant speaks of has changed, except for threads that do not wait. -/
theorem congr (h : s.EventInv guarded) (hpos : s'.pos = s.pos) (hreg : s'.registry = s.registry)
    (hgen : s'.blockGen = s.blockGen) (hword : s'.word = s.word)
    (hwoken : ∀ t, ¬ (s.pos t).Calm → s'.woken t = true → s.woken t = true)
    (hrefused : ∀ t, ¬ (s.pos t).Calm → s'.wakeRefused t = true → s.wakeRefused t = true)
    (hreq : ∀ t, ¬ (s.pos t).Calm → s.requests t ≠ .none → s'.requests t ≠ .none) :
    s'.EventInv guarded := by
  constructor
  · rw [hpos, hreg]
    exact h.registered
  · intro t
    rw [hpos, hgen]
    by_cases hcalm : (s.pos t).Calm
    · exact hcalm.wakeSeen _ _ _ _
    · exact (h.seen t).mono (Nat.le_refl _) (hwoken t hcalm) (hrefused t hcalm) (hreq t hcalm)
  · intro hg m
    simp only [Awaited, Flagged, hpos, hgen, hword]
    exact h.flagged hg m

/-- The word of a mutex changes. -/
theorem setWord [DecidableEq Mid] (h : s.EventInv guarded) (m : Mid) (w : PolyWord)
    (hflag : guarded = true → s.Awaited m → (∃ u, (s.pos u).Unlocking m) ∨
      w ≠ PolyWord.tagged 0 ∧ w ≠ PolyWord.tagged 1) : (s.setWord m w).EventInv guarded := by
  refine ⟨h.registered, h.seen, ?_⟩
  intro hg m' hawait
  by_cases hm : m' = m
  · subst hm
    simpa [Flagged, BlockState.setWord] using hflag hg hawait
  · simpa [Flagged, BlockState.setWord, hm] using h.flagged hg m' hawait

variable [DecidableEq Tid]

theorem registered_setPos (h : s.EventInv guarded) {q p : BlockPos Tid Mid} (hq : s.pos a = q)
    (halive : p.Alive → q.Alive) (t : Tid) (ht : ((s.setPos a p).pos t).Alive) : t ∈ s.registry := by
  by_cases hta : t = a
  · subst hta
    rw [pos_setPos_self] at ht
    exact h.registered t (hq ▸ halive ht)
  · rw [pos_setPos_ne s p hta] at ht
    exact h.registered t ht

theorem seen_setPos (h : s.EventInv guarded) {p : BlockPos Tid Mid}
    (hseen : p.WakeSeen s.blockGen (s.woken a = true) (s.wakeRefused a = true) (s.requests a ≠ .none))
    (t : Tid) : ((s.setPos a p).pos t).WakeSeen s.blockGen (s.woken t = true)
      (s.wakeRefused t = true) (s.requests t ≠ .none) := by
  by_cases hta : t = a
  · subst hta
    rw [pos_setPos_self]
    exact hseen
  · rw [pos_setPos_ne s p hta]
    exact h.seen t

/-- A thread on the registry moves, and does not forget a bump it has to give for an unlock. -/
theorem move (h : s.EventInv guarded) {q p : BlockPos Tid Mid} (hq : s.pos a = q) (halive : p.Alive → q.Alive)
    (hun : ∀ m, q.Unlocking m → p.Unlocking m)
    (hseen : p.WakeSeen s.blockGen (s.woken a = true) (s.wakeRefused a = true) (s.requests a ≠ .none))
    (hasleep : guarded = true → ∀ m, p.AsleepOn m s.blockGen → s.Flagged m) :
    (s.setPos a p).EventInv guarded := by
  refine ⟨h.registered_setPos hq halive, h.seen_setPos hseen, ?_⟩
  rintro hg m ⟨t, ht⟩
  have hflag : s.Flagged m := by
    by_cases hta : t = a
    · subst hta
      rw [pos_setPos_self] at ht
      exact hasleep hg m ht
    · rw [pos_setPos_ne s p hta] at ht
      exact h.flagged hg m ⟨t, ht⟩
  refine hflag.imp ?_ id
  rintro ⟨u, hu⟩
  refine ⟨u, ?_⟩
  by_cases hua : u = a
  · subst hua
    rw [pos_setPos_self]
    exact hun m (hq ▸ hu)
  · rw [pos_setPos_ne s p hua]
    exact hu

/-- The same when the thread waits for nothing afterwards. -/
theorem move_calm (h : s.EventInv guarded) {q p : BlockPos Tid Mid} (hq : s.pos a = q)
    (halive : p.Alive → q.Alive) (hun : ∀ m, q.Unlocking m → p.Unlocking m) (hp : p.Calm) :
    (s.setPos a p).EventInv guarded :=
  h.move hq halive hun (hp.wakeSeen _ _ _ _) (fun _ m hasleep => absurd hasleep (hp.not_asleepOn m _))

/-- A thread unlocks `m` and has to bump the generation for it. -/
theorem unlock [DecidableEq Mid] (h : s.EventInv guarded) {q p : BlockPos Tid Mid} {m : Mid}
    (w : PolyWord) (hq : s.pos a = q) (halive : p.Alive → q.Alive)
    (hun : ∀ m', q.Unlocking m' → p.Unlocking m') (hp : p.Unlocking m)
    (hseen : p.WakeSeen s.blockGen (s.woken a = true) (s.wakeRefused a = true)
      (s.requests a ≠ .none)) : ((s.setWord m w).setPos a p).EventInv guarded := by
  have hmove : (s.setPos a p).EventInv guarded := by
    refine h.move hq halive hun hseen (fun _ m' hasleep => ?_)
    cases p <;> simp_all
  exact hmove.setWord m w (fun _ _ => Or.inl ⟨a, by rw [pos_setPos_self]; exact hp⟩)

/-- After a bump nobody sleeps on the current generation. -/
theorem bump (h : s.EventInv guarded) (hw : s.WakeInv false) {q p : BlockPos Tid Mid}
    (hq : s.pos a = q) (halive : p.Alive → q.Alive) (hp : ∀ m, ¬ p.AsleepOn m (s.blockGen + 1))
    (hseen : p.WakeSeen (s.blockGen + 1) (s.woken a = true) (s.wakeRefused a = true)
      (s.requests a ≠ .none)) : (s.bump.setPos a p).EventInv guarded := by
  have hseen' : ∀ t, (s.pos t).WakeSeen (s.blockGen + 1) (s.woken t = true)
      (s.wakeRefused t = true) (s.requests t ≠ .none) :=
    fun t => (h.seen t).mono (Nat.le_succ _) id id id
  have hbump : s.bump.EventInv false := ⟨h.registered, hseen', by simp⟩
  refine ⟨h.registered_setPos (p := p) hq halive, hbump.seen_setPos hseen, ?_⟩
  rintro - m ⟨t, ht⟩
  by_cases hta : t = a
  · subst hta
    rw [pos_setPos_self] at ht
    exact absurd ht (hp m)
  · rw [pos_setPos_ne _ p hta] at ht
    exact absurd ht ((hw.since t).not_asleepOn m)

/-- A thread is stopped between two instructions: somebody else notices the unlock it has begun. -/
theorem stop (h : s.EventInv guarded) (ha : s.AtInstruction a) {p : BlockPos Tid Mid} (hp : p.Calm)
    (hg : guarded = true → ∀ m, s.pos a = .contended m → s.Awaited m →
      (∃ u, u ≠ a ∧ (s.pos u).Unlocking m) ∨
        s.word m ≠ PolyWord.tagged 0 ∧ s.word m ≠ PolyWord.tagged 1) :
    (s.setPos a p).EventInv guarded := by
  unfold AtInstruction at ha
  split at ha <;> rename_i hpos
  · exact h.move_calm hpos (by simp) (by simp) hp
  · exact h.move_calm hpos (by simp) (by simp) hp
  · exact h.move_calm hpos (by simp) (by simp) hp
  · rename_i m
    refine ⟨h.registered_setPos hpos (by simp), h.seen_setPos (hp.wakeSeen _ _ _ _), ?_⟩
    rintro hgd m' ⟨t, ht⟩
    have hta : t ≠ a := by
      rintro rfl
      rw [pos_setPos_self] at ht
      exact hp.not_asleepOn m' _ ht
    rw [pos_setPos_ne s p hta] at ht
    have hflag : (∃ u, u ≠ a ∧ (s.pos u).Unlocking m') ∨
        s.word m' ≠ PolyWord.tagged 0 ∧ s.word m' ≠ PolyWord.tagged 1 := by
      by_cases hm : m' = m
      · subst hm
        exact hg hgd m' hpos ⟨t, ht⟩
      · refine (h.flagged hgd m' ⟨t, ht⟩).imp ?_ id
        rintro ⟨u, hu⟩
        refine ⟨u, ?_, hu⟩
        rintro rfl
        rw [hpos] at hu
        exact hm hu.symm
    refine hflag.imp ?_ id
    rintro ⟨u, hua, hu⟩
    exact ⟨u, by rw [pos_setPos_ne s p hua]; exact hu⟩
  · cases ha

theorem new (main : Tid) (st : InterruptState) (word : Mid → PolyWord) :
    (BlockState.new main st word).EventInv guarded := by
  have hpos : ∀ t, t ≠ main → (BlockState.new main st word).pos t = .unborn :=
    fun t ht => by simp [BlockState.new, ht]
  have hmain : (BlockState.new main st word).pos main = .running := by simp [BlockState.new]
  have hcalm : ∀ t, ((BlockState.new main st word).pos t).Calm := by
    intro t
    by_cases ht : t = main
    · simp [ht, hmain]
    · simp [hpos t ht]
  refine ⟨fun t ht => ?_, fun t => (hcalm t).wakeSeen _ _ _ _, ?_⟩
  · have htm : t = main := by
      by_contra hne
      simp [hpos t hne] at ht
    simp [htm, BlockState.new]
  · rintro - m ⟨t, ht⟩
    exact absurd ht ((hcalm t).not_asleepOn m _)

theorem makeThreadRequest (h : s.EventInv guarded) (ha : s.pos a = .running) (target : Tid)
    (req : Request) : (s.makeThreadRequest a target req).EventInv guarded := by
  have hmax : ∀ prev : Request, prev ≠ .none → prev.max req ≠ .none := by
    intro prev
    cases prev <;> cases req <;> decide
  have hset : (s.setRequests target ((s.requests target).max req)).EventInv guarded := by
    refine h.congr rfl rfl rfl rfl (fun _ _ => id) (fun _ _ => id) (fun t _ ht => ?_)
    by_cases htt : t = target
    · subst htt
      simpa [setRequests] using hmax _ ht
    · simpa [setRequests, htt] using ht
  simp only [BlockState.makeThreadRequest]
  split
  · exact hset.move_calm ha (by simp) (by simp) (by simp)
  · exact hset

theorem finishStore (h : s.EventInv guarded) {u : Tid} {rest : List Tid}
    (ha : s.pos a = .finishing (u :: rest)) : (s.finishStore a).EventInv guarded := by
  have hset : (s.setRequests u .kill).EventInv guarded := by
    refine h.congr rfl rfl rfl rfl (fun _ _ => id) (fun _ _ => id) (fun t _ ht => ?_)
    by_cases htu : t = u
    · subst htu
      simp [setRequests]
    · simpa [setRequests, htu] using ht
  simp only [BlockState.finishStore, ha]
  exact hset.move_calm ha (by simp) (by simp) (by simp)

theorem setDelivery (h : s.EventInv guarded) (d : Delivery) : (s.setDelivery a d).EventInv guarded :=
  h.congr rfl rfl rfl rfl (fun _ _ => id) (fun _ _ => id) (fun _ _ => id)

theorem afterCheck (h : s.EventInv guarded) (a : Tid) : (s.afterCheck a).EventInv guarded := by
  unfold BlockState.afterCheck
  split <;> rename_i hpos
  · exact h.move_calm hpos (by simp) (by simp) (by simp)
  · exact h.move_calm hpos (by simp) (by simp) (by simp)
  · exact h

theorem loadRequests (h : s.EventInv guarded) (a : Tid) (synch : Bool) :
    (s.loadRequests a synch).EventInv guarded := by
  unfold BlockState.loadRequests
  split
  · exact (h.afterCheck a).setDelivery _
  · split
    · unfold downgrade
      split
      · have hset : (s.setInterruptState a .synch).EventInv guarded :=
          h.congr rfl rfl rfl rfl (fun _ _ => id) (fun _ _ => id) (fun _ _ => id)
        exact (hset.afterCheck a).setDelivery _
      · exact (h.afterCheck a).setDelivery _
    · exact h.afterCheck a
  · exact h.afterCheck a

omit [DecidableEq Tid] in
theorem AtInstruction.calm (h : s.AtInstruction a) : (s.pos a).Calm := by
  unfold AtInstruction at h
  split at h <;> simp_all

/-- A thread between two instructions consumes its request. -/
theorem consume (h : s.EventInv guarded) (ha : s.AtInstruction a) :
    (s.setRequests a .none).EventInv guarded := by
  refine h.congr rfl rfl rfl rfl (fun _ _ => id) (fun _ _ => id) (fun t hcalm ht => ?_)
  have hta : t ≠ a := by
    rintro rfl
    exact hcalm (AtInstruction.calm ha)
  simpa [setRequests, hta] using ht

theorem storeNone (h : s.EventInv guarded) (ha : s.AtInstruction a)
    (hg : guarded = true → s.UnlockGuarded (.storeNone a)) : (s.storeNone a).EventInv guarded :=
  ((h.consume ha).setDelivery .idle).stop ha (by simp) hg

theorem exchangeNone (h : s.EventInv guarded) (ha : s.AtInstruction a) :
    (s.exchangeNone a).EventInv guarded := by
  unfold BlockState.exchangeNone
  split
  · exact (h.consume ha).setDelivery _
  · exact h.setDelivery _

theorem clearCopy (h : s.EventInv guarded) (ha : s.AtInstruction a)
    (hg : guarded = true → s.UnlockGuarded (.clearCopy a)) : (s.clearCopy a).EventInv guarded := by
  have hcopy : ((s.setRequestCopy a (PolyWord.tagged 0)).setDelivery a .idle).EventInv guarded :=
    h.congr rfl rfl rfl rfl (fun _ _ => id) (fun _ _ => id) (fun _ _ => id)
  exact hcopy.stop ha (by simp) hg

/-- A new thread waits for nothing. -/
theorem fork (h : s.EventInv guarded) {child : Tid} (hc : s.pos child = .unborn)
    (st : InterruptState) : (s.fork child st).EventInv guarded := by
  have hpos : ∀ t, t ≠ child → (s.fork child st).pos t = s.pos t := fun t ht => pos_setPos_ne _ _ ht
  have hchild : (s.fork child st).pos child = .running := pos_setPos_self _ _ _
  constructor
  · intro t ht
    simp only [BlockState.fork, List.mem_append, List.mem_singleton]
    by_cases htc : t = child
    · exact Or.inr htc
    · rw [hpos t htc] at ht
      exact Or.inl (h.registered t ht)
  · intro t
    by_cases htc : t = child
    · subst htc
      rw [hchild]
      trivial
    · rw [hpos t htc]
      refine (h.seen t).mono (Nat.le_refl _) id id (fun hreq => ?_)
      simpa [BlockState.fork, setRequests, setRequestCopy, BlockState.setDelivery, setInterruptState,
        setPos, htc] using hreq
  · rintro hg m ⟨t, ht⟩
    have htc : t ≠ child := by
      rintro rfl
      rw [hchild] at ht
      exact ht
    rw [hpos t htc] at ht
    refine (h.flagged hg m ⟨t, ht⟩).imp ?_ id
    rintro ⟨u, hu⟩
    refine ⟨u, ?_⟩
    have huc : u ≠ child := by
      rintro rfl
      simp [hc] at hu
    rw [hpos u huc]
    exact hu

/-- A thread leaves the registry. -/
theorem exitParked (h : s.EventInv guarded) (ha : s.pos a = .returned) :
    (s.exitParked a).EventInv guarded := by
  have hcalm : (if a = s.main then .exited else .exiting : BlockPos Tid Mid).Calm := by
    split <;> simp
  have hmove : (s.setPos a (if a = s.main then .exited else .exiting)).EventInv guarded :=
    h.move_calm ha (by simp) (by simp) hcalm
  refine ⟨fun t ht => ?_, hmove.seen, hmove.flagged⟩
  have hta : t ≠ a := by
    rintro rfl
    simp only [BlockState.exitParked, pos_setPos_self] at ht
    split at ht <;> exact ht
  have hreg : t ∈ s.registry := hmove.registered t ht
  simpa [BlockState.exitParked, hta] using hreg

/-- The wake of a target is one bump more than its own. -/
theorem notify_waking (h : s.EventInv guarded) (hw : s.WakeInv false) {target : Tid}
    (ha : s.pos a = .waking target) : (s.notify a).EventInv guarded := by
  have hbump : (s.bump.setPos a .running).EventInv guarded :=
    h.bump hw ha (by simp) (by simp) (by simp)
  simp only [BlockState.notify, ha]
  refine ⟨hbump.registered, fun t => ?_, hbump.flagged⟩
  by_cases hta : t = a
  · subst hta
    simp
  · have hpos : (s.bump.setPos a .running).pos t = s.pos t := pos_setPos_ne _ _ hta
    rw [hpos]
    exact (h.seen t).bump (hw.since t) _

theorem wake (h : s.EventInv guarded) (a : Tid) : (s.wake a).EventInv guarded := by
  unfold BlockState.wake
  split <;> rename_i hpos
  · split
    · exact h
    · exact h.move_calm hpos (by simp) (by simp) (by simp)
  · split
    · exact h
    · exact h.move_calm hpos (by simp) (by simp) (by simp)
  · split
    · exact h
    · exact h.move_calm hpos (by simp) (by simp) (by simp)
  · exact h

theorem notify (h : s.EventInv guarded) (hw : s.WakeInv false) (a : Tid) :
    (s.notify a).EventInv guarded := by
  by_cases hwaking : ∃ target, s.pos a = .waking target
  · obtain ⟨target, hpos⟩ := hwaking
    exact h.notify_waking hw hpos
  · have hseen := h.seen a
    unfold BlockState.notify
    split <;> rename_i hpos
    · exact h.bump hw hpos (by simp) (by simp) (by simp)
    · exact h.bump hw hpos (by simp) (by simp) (by simp)
    · rw [hpos] at hseen
      refine h.bump hw hpos (by simp) (by simp) ⟨fun hwoken => Nat.succ_lt_succ (hseen.1 hwoken), ?_⟩
      exact hseen.2
    · exact absurd ⟨_, hpos⟩ hwaking
    · exact h.bump hw hpos (by simp) (by simp) (by simp)
    · exact h.bump hw hpos (by simp) (by simp) (by simp)
    · exact h

/-- A wake is refused because of a request. -/
theorem wakeCheck (h : s.EventInv guarded) {target : Tid} (ha : s.pos a = .wakeFound target)
    (ignored : Bool) : (s.wakeCheck a ignored).EventInv guarded := by
  simp only [BlockState.wakeCheck, ha]
  split
  · exact h.move_calm ha (by simp) (by simp) (by simp)
  · rename_i hcond
    have hreq : s.requests target ≠ .none := fun hnone => hcond (Or.inl hnone)
    have hmove : (s.setPos a .running).EventInv guarded :=
      h.move_calm ha (by simp) (by simp) (by simp)
    refine ⟨hmove.registered, fun t => ?_, hmove.flagged⟩
    by_cases htt : t = target
    · subst htt
      exact (hmove.seen t).refuse hreq _
    · refine (hmove.seen t).mono (Nat.le_refl _) id (fun hr => ?_) id
      have hr' : s.wakeRefused t = true := by simpa [htt] using hr
      exact hr'

/-- The waiter releases the mutex; no wake is for it yet. -/
theorem condRelease [DecidableEq Mid] (h : s.EventInv guarded) {m : Mid} {since : Nat} {timed : Bool}
    (ha : s.pos a = .condSampled m since timed) : (s.condRelease a).EventInv guarded := by
  have hfresh : ({ s with
      woken := Function.update s.woken a false
      wakeRefused := Function.update s.wakeRefused a false } :
        BlockState Tid Mid).EventInv guarded := by
    refine h.congr rfl rfl rfl rfl (fun t hcalm ht => ?_) (fun t hcalm ht => ?_) (fun _ _ => id)
    · have hta : t ≠ a := by
        rintro rfl
        simp [ha] at hcalm
      simpa [hta] using ht
    · have hta : t ≠ a := by
        rintro rfl
        simp [ha] at hcalm
      simpa [hta] using ht
  simp only [BlockState.condRelease, ha]
  exact hfresh.unlock (p := .condReleased m since timed) (PolyWord.tagged 0) ha (by simp) (by simp)
    rfl (by simp)

/-- One more locker: the count does not come back to one. -/
theorem tagged_add_two {w : PolyWord} (h0 : w ≠ PolyWord.tagged 0) (hmax : w ≠ BitVec.allOnes 64) :
    w + 2#64 ≠ PolyWord.tagged 0 ∧ w + 2#64 ≠ PolyWord.tagged 1 := by
  rw [show PolyWord.tagged 0 = 1#64 from rfl] at h0 ⊢
  rw [show PolyWord.tagged 1 = 3#64 from rfl]
  rw [show BitVec.allOnes 64 = 18446744073709551615#64 from rfl] at hmax
  constructor <;> bv_omega

theorem lockMutex [DecidableEq Mid] (h : s.EventInv guarded) {q : BlockPos Tid Mid} {m : Mid}
    (ha : s.pos a = q) (halive : q.Alive) (hq : ∀ m', ¬ q.Unlocking m')
    (hg : guarded = true → s.UnlockGuarded (.lockMutex a m)) : (s.lockMutex a m).EventInv guarded := by
  have hword : (s.setWord m (s.word m + 2#64)).EventInv guarded := by
    refine h.setWord m _ (fun hgd hawait => ?_)
    rcases h.flagged hgd m hawait with hun | hword
    · exact Or.inl hun
    · by_cases hmax : s.word m = BitVec.allOnes 64
      · exact Or.inl (hg hgd hawait hmax)
      · exact Or.inr (tagged_add_two hword.1 hmax)
  simp only [BlockState.lockMutex]
  split
  · exact hword.move_calm ha (fun _ => halive) (fun m' hm => absurd hm (hq m')) (by simp)
  · exact hword.move_calm ha (fun _ => halive) (fun m' hm => absurd hm (hq m')) (by simp)

/-- The only locker resets the word: whoever sleeps on it is going to be woken by somebody else. -/
theorem atomicReset [DecidableEq Mid] (h : s.EventInv guarded) (ha : s.pos a = .running) (m : Mid) :
    (s.atomicReset a m).EventInv guarded := by
  simp only [BlockState.atomicReset]
  split
  · rename_i hone
    have hword : (s.setWord m (PolyWord.tagged 0)).EventInv guarded := by
      refine h.setWord m _ (fun hgd hawait => ?_)
      exact Or.inl ((h.flagged hgd m hawait).resolve_right (fun hw => hw.2 hone))
    exact hword.move_calm ha (by simp) (by simp) (by simp)
  · exact h.unlock (PolyWord.tagged 0) ha (by simp) (by simp) rfl (by simp)

omit [DecidableEq Tid] in
/-- Without a peer nobody sleeps. -/
theorem not_awaited_of_alone (h : s.EventInv guarded) {q : BlockPos Tid Mid} (ha : s.pos a = q)
    (hal : q.Alive) (hcalm : q.Calm) (hone : s.registry.length ≤ 1) (m : Mid) : ¬ s.Awaited m := by
  rintro ⟨t, ht⟩
  have hta : t ≠ a := by
    rintro rfl
    exact hcalm.not_asleepOn m _ (ha ▸ ht)
  have hmem : t ∈ s.registry := h.registered t (by cases hpos : s.pos t <;> simp_all)
  have hmem' : a ∈ s.registry := h.registered a (ha ▸ hal)
  match hreg : s.registry with
  | [] => simp [hreg] at hmem
  | [u] =>
    rw [hreg, List.mem_singleton] at hmem hmem'
    exact hta (hmem.trans hmem'.symm)
  | _ :: _ :: _ => simp [hreg] at hone

variable [DecidableEq Mid]

/-- One step. The guard matters only to the unlocks. -/
theorem exec {op : BlockOp Tid Mid} (h : s.EventInv guarded) (hw : s.WakeInv false)
    (he : s.Enabled op) (hg : guarded = true → s.UnlockGuarded op) : (s.exec op).EventInv guarded := by
  cases op with
  | lockMutex t m =>
    rcases he.2 with hpos | hpos
    · exact h.lockMutex hpos (by simp) (by simp) hg
    · exact h.lockMutex hpos (by simp) (by simp) hg
  | tryLockMutex t m =>
    simp only [BlockState.exec, BlockState.tryLockMutex]
    split
    · rename_i hfree
      refine h.setWord m _ (fun hgd hawait => ?_)
      exact Or.inl ((h.flagged hgd m hawait).resolve_right (fun hword => hword.1 hfree))
    · exact h
  | atomicReset t m => exact h.atomicReset he.2 m
  | mutexBlock t =>
    obtain ⟨m, hpos⟩ := he.2
    simp only [BlockState.exec, BlockState.mutexBlock, hpos]
    split
    · rename_i hone
      have hword : (s.setWord m (PolyWord.tagged 0)).EventInv guarded :=
        h.setWord m _ (fun _ hawait => absurd hawait
          (h.not_awaited_of_alone hpos (by simp) (by simp) hone m))
      exact hword.move_calm hpos (by simp) (by simp) (by simp)
    · exact h.move_calm hpos (by simp) (by simp) (by simp)
  | blockCheck t =>
    obtain ⟨m, hpos⟩ := he
    simp only [BlockState.exec, BlockState.blockCheck, hpos]
    split
    · exact h.move_calm hpos (by simp) (by simp) (by simp)
    · exact h.move_calm hpos (by simp) (by simp) (by simp)
  | blockSample t =>
    obtain ⟨m, hpos⟩ := he
    simp only [BlockState.exec, BlockState.blockSample, hpos]
    exact h.move_calm hpos (by simp) (by simp) (by simp)
  | blockRecheck t =>
    obtain ⟨m, since, hpos⟩ := he
    simp only [BlockState.exec, BlockState.blockRecheck, hpos]
    split
    · rename_i hheld
      refine h.move hpos (by simp) (by simp) (by simp) (fun hgd m' hasleep => ?_)
      obtain ⟨rfl, hsince⟩ := hasleep
      by_cases hone : s.word m = PolyWord.tagged 1
      · exact Or.inl (hg hgd m since hpos hsince hone)
      · exact Or.inr ⟨hheld, hone⟩
    · exact h.move_calm hpos (by simp) (by simp) (by simp)
  | mutexUnlock t m =>
    rcases he.2 with hpos | hpos
    · exact h.unlock (PolyWord.tagged 0) hpos (by simp) (by simp) rfl (by simp)
    · exact h.unlock (PolyWord.tagged 0) hpos (by simp) (by simp) rfl (by simp)
  | condVarWait t m timed =>
    simp only [BlockState.exec, BlockState.condVarWait]
    split
    · exact h
    · exact h.move_calm he.2 (by simp) (by simp) (by simp)
  | condSample t =>
    obtain ⟨m, timed, hpos⟩ := he
    simp only [BlockState.exec, BlockState.condSample, hpos]
    exact h.move_calm hpos (by simp) (by simp) (by simp)
  | condRelease t =>
    obtain ⟨m, since, timed, hpos⟩ := he
    exact h.condRelease hpos
  | condCheck t =>
    obtain ⟨since, timed, hpos⟩ := he
    have hseen := h.seen t
    rw [hpos] at hseen
    simp only [BlockState.exec, BlockState.condCheck, hpos]
    split
    · exact h.move hpos (by simp) (by simp) hseen (by simp)
    · exact h.move_calm hpos (by simp) (by simp) (by simp)
  | condVarWake t target =>
    simp only [BlockState.exec, BlockState.condVarWake]
    split
    · exact h.move_calm he.2 (by simp) (by simp) (by simp)
    · exact h
  | wakeCheck t ignored =>
    obtain ⟨target, hpos⟩ := he
    exact h.wakeCheck hpos ignored
  | waitForSignal t => exact h.move_calm he.2 (by simp) (by simp) (by simp)
  | signalSample t => exact h.move_calm he (by simp) (by simp) (by simp)
  | signalCheck t =>
    simp only [BlockState.exec, BlockState.signalCheck]
    split
    · exact h.move_calm he (by simp) (by simp) (by simp)
    · exact h.move_calm he (by simp) (by simp) (by simp)
  | wake t => exact h.wake t
  | notify t => exact h.notify hw t
  | makeThreadRequest t target req => exact h.makeThreadRequest he.2.1 target req
  | writeCopy t =>
    obtain ⟨target, req, hpos⟩ := he
    simp only [BlockState.exec, BlockState.writeCopy, hpos]
    have hcopy : (s.setRequestCopy target (PolyWord.tagged req.code)).EventInv guarded :=
      h.congr rfl rfl rfl rfl (fun _ _ => id) (fun _ _ => id) (fun _ _ => id)
    exact hcopy.move_calm hpos (by simp) (by simp) (by simp)
  | finish t =>
    simp only [BlockState.exec, BlockState.finish]
    split
    · exact h.stop he.2 (by simp) hg
    · exact h.stop he.2 (by simp) hg
  | finishSnapshot t => exact h.move_calm he (by simp) (by simp) (by simp)
  | finishStore t =>
    obtain ⟨u, rest, hpos⟩ := he
    exact h.finishStore hpos
  | loadRequests t synch => exact h.loadRequests t synch
  | storeNone t => exact h.storeNone he.2 hg
  | exchangeNone t => exact h.exchangeNone he.2
  | clearCopy t => exact h.clearCopy he.2 hg
  | setAttributes t st =>
    exact h.congr rfl rfl rfl rfl (fun _ _ => id) (fun _ _ => id) (fun _ _ => id)
  | fork t child st => exact h.fork he.2.2 st
  | killSelf t => exact h.move_calm he.2 (by simp) (by simp) (by simp)
  | exitParked t => exact h.exitParked he

end EventInv

section Runs

variable [DecidableEq Tid] [DecidableEq Mid] {main : Tid} {st : InterruptState}
  {word : Mid → PolyWord} {s : BlockState Tid Mid}

/-- No wake is lost in any interleaving. -/
theorem not_lostWake (hrun : (blockMachine Tid Mid).Reachable (new main st word) s) (t : Tid) :
    ¬ s.LostWake t := by
  have hinv : s.WakeInv false ∧ s.EventInv false := by
    refine hrun.invariant (I := fun s => s.WakeInv false ∧ s.EventInv false) ?_ ?_
    · exact ⟨.new main st word, .new main st word⟩
    · rintro s op ⟨hw, h⟩ he
      exact ⟨hw.exec he (by simp), h.exec hw he (by simp)⟩
  exact hinv.2.not_lostWake hinv.1 t

/-- In a guarded run no unlock is lost, and in no run a wake. -/
theorem not_lost_of_guarded (hrun : (blockMachine Tid Mid).Run UnlockGuarded (new main st word) s)
    (t : Tid) : ¬ s.LostUnlock t ∧ ¬ s.LostWake t := by
  have hinv : s.WakeInv false ∧ s.EventInv true := by
    refine hrun.invariant (I := fun s => s.WakeInv false ∧ s.EventInv true) ?_ ?_
    · exact ⟨.new main st word, .new main st word⟩
    · rintro s op ⟨hw, h⟩ he hg
      exact ⟨hw.exec he (by simp), h.exec hw he (fun _ => hg)⟩
  exact ⟨hinv.2.not_lostUnlock t, not_lostWake hrun.reachable t⟩

end Runs

/-! ## Runs of two threads -/

section Traces

attribute [local instance] BlockState.neZero_two

/-- Thread 0 unlocks the mutex that thread 1 waits for. -/
def unlockRun : List (BlockOp (Fin 2) Unit) := [.atomicReset 0 ()]

/-- Thread 0 unlocks it and locks it again, thread 1 samples the generation before the lock. -/
def relockRun : List (BlockOp (Fin 2) Unit) :=
  [.atomicReset 0 (), .mutexUnlock 0 (), .notify 0, .blockSample 1, .lockMutex 0 (), .blockRecheck 1,
    .atomicReset 0 ()]

/-- Thread 0 unlocks it when thread 1 is asleep: thread 0 has still to bump the generation. -/
theorem not_lost_of_guarded_run :
    ¬ ((refusedRun ++ sleepRun ++ unlockRun).foldl
      (blockMachine (Fin 2) Unit).exec alone).LostUnlock 1 := by
  refine (not_lost_of_guarded (Machine.Trace.run ?_) 1).1
  simp [refusedRun, sleepRun, unlockRun, Machine.Trace, blockMachine, Enabled, UnlockGuarded, exec, new, fork,
    lockMutex, mutexBlock, blockCheck, blockSample, blockRecheck, setPos, setWord, setRequests,
    setRequestCopy, setInterruptState, setDelivery, skipWait, Function.update, PolyWord.tagged]

/-- The second lock leaves no trace of thread 1 in the word, so that the second unlock wakes nobody. -/
theorem exists_lostUnlock :
    ∃ s, (blockMachine (Fin 2) Unit).Reachable alone s ∧ s.LostUnlock 1 := by
  have htrace : (blockMachine (Fin 2) Unit).Trace (fun _ _ => True) alone
      (refusedRun ++ relockRun) := by
    simp [alone, refusedRun, relockRun, Machine.Trace, blockMachine, Enabled, exec, new, fork,
      lockMutex, atomicReset, mutexUnlock, notify, bump, mutexBlock, blockCheck, blockSample,
      blockRecheck, setPos, setWord, setRequests, setRequestCopy, setInterruptState, setDelivery,
      skipWait, Function.update, PolyWord.tagged]
  exact ⟨_, htrace.run, (), ⟨rfl, rfl⟩, rfl, Fin.forall_fin_two.2 ⟨id, id⟩⟩

end Traces

end BlockState
