import PolymlRs.Sched.Exit

set_option autoImplicit false

/-! # What a thread does about the exit

A thread that has taken a step since an exit was requested never executes an instruction again unless it
is in the fast tier, and what its run ends with is settled as soon as it looks at the flag (`Status`). So
is a thread that has requested an exit itself. That a thread finds the flag set rests on what the flag
says (`FlagInv`). -/

/-! ## What one step of the blocking calls does -/

namespace BlockOp

variable {Tid Mid : Type}

/-- The step starts thread `u`. -/
def Forks (u : Tid) : BlockOp Tid Mid → Prop
  | .fork _ child _ => child = u
  | _ => False

end BlockOp

namespace BlockPos

variable {Tid Mid : Type}

/-- The exit code is settled. -/
@[simp] def Leaving : BlockPos Tid Mid → Prop
  | .finishEntered | .finishing _ | .returned | .exiting | .exited => True
  | _ => False

/-- The thread executes ML code. -/
@[simp] def InMl : BlockPos Tid Mid → Prop
  | .running | .refused _ | .retry _ | .contended _ => True
  | _ => False

theorem Ended.leaving {p : BlockPos Tid Mid} (h : p.Ended) : p.Leaving := by
  cases p <;> simp_all

theorem InMl.alive {p : BlockPos Tid Mid} (h : p.InMl) : p.Alive := by
  cases p <;> simp_all

theorem InMl.not_leaving {p : BlockPos Tid Mid} (h : p.InMl) : ¬ p.Leaving := by
  cases p <;> simp_all

end BlockPos

namespace BlockState

variable {Tid Mid : Type} {s s' : BlockState Tid Mid} {op : BlockOp Tid Mid} {t u : Tid}

theorem atInstruction_iff : s.AtInstruction t ↔ (s.pos t).InMl := by
  unfold AtInstruction BlockPos.InMl
  exact Iff.rfl

/-- What a step leaves of the other threads, of the registry and of the kills. -/
structure Effect (op : BlockOp Tid Mid) (s s' : BlockState Tid Mid) : Prop where
  main : s'.main = s.main
  registry : ∀ u ∈ s'.registry, u ∈ s.registry ∨ op.Forks u
  others : ∀ u, u ≠ op.actor → ¬ op.Forks u → s'.pos u = s.pos u ∧ s'.delivery u = s.delivery u
  kill : ∀ u, s.requests u = .kill → ¬ op.Forks u → s'.requests u = .kill ∨ op = .storeNone u

/-- The step neither ends the run of its thread nor is about its requests. -/
def Plain (s : BlockState Tid Mid) : BlockOp Tid Mid → Prop
  | .killSelf _ | .signalCheck _ | .finish _ | .finishSnapshot _ | .finishStore _ | .loadRequests _ _
  | .storeNone _ | .exchangeNone _ | .clearCopy _ | .exitParked _ => False
  | .notify t => ¬ (s.pos t).Leaving
  | _ => True

/-- A thread that has ended its run leaves the registry and wakes its joiners. -/
theorem gone_enabled (he : s.Enabled op) (hp : s.pos op.actor = .unborn ∨ (s.pos op.actor).Ended) :
    op = .exitParked op.actor ∨ op = .notify op.actor := by
  cases op with
  | exitParked t => exact .inl rfl
  | notify t => exact .inr rfl
  | _ =>
    exfalso
    revert hp
    simp only [Enabled, BlockOp.actor, AtInstruction, AtCheck] at he ⊢
    grind [BlockPos.Ended]

/-- A thread on its way out bumps the generation when it has killed the others, and when it is off the
registry. -/
theorem notify_leaving (he : s.Enabled (.notify t : BlockOp Tid Mid)) (hlv : (s.pos t).Leaving) :
    s.pos t = .finishing [] ∨ s.pos t = .exiting := by
  simp only [Enabled] at he
  split at he <;> simp_all

/-- A plain step that does not begin an instruction is one within an instruction. -/
theorem Plain.inside (h : s.Plain op) (he : s.Enabled op) (hi : op.startsInstruction = false) :
    ¬ (s.pos op.actor).InMl ∧ ¬ (s.pos op.actor).Leaving := by
  cases op with
  | _ =>
    simp only [Enabled, BlockOp.actor, Plain, BlockOp.startsInstruction] at * <;>
      grind [BlockPos.InMl, BlockPos.Leaving]

/-- What holds for all waits holds for those that look for requests after the sample. -/
theorem WakeInv.weaken {all : Bool} (h : s.WakeInv all) : s.WakeInv false := by
  refine ⟨h.since, fun t hw => h.watched t ?_⟩
  cases hp : s.pos t <;> simp_all

variable [DecidableEq Tid] [DecidableEq Mid]

theorem exec_effect (op : BlockOp Tid Mid) (s : BlockState Tid Mid) : Effect op s (s.exec op) := by
  cases op with
  | fork t child st =>
    refine ⟨rfl, fun u hu => ?_, fun u _ hne => ?_, fun u hk hne => ?_⟩
    · rw [exec, fork, List.mem_append, List.mem_singleton] at hu
      exact hu.imp_right Eq.symm
    · have hu : u ≠ child := Ne.symm hne
      simp [exec, fork, setPos, setDelivery, setInterruptState, setRequestCopy, setRequests, hu]
    · have hu : u ≠ child := Ne.symm hne
      simp [exec, fork, setPos, setDelivery, setInterruptState, setRequestCopy, setRequests, hu, hk]
  | makeThreadRequest t target req =>
    have hmax : Request.kill.max req = .kill := by cases req <;> rfl
    refine ⟨?_, ?_, fun u hu _ => ?_, fun u hk _ => .inl ?_⟩
    · simp only [exec, makeThreadRequest]
      split <;> rfl
    · simp only [exec, makeThreadRequest]
      split <;> exact fun u hu => .inl hu
    · simp only [BlockOp.actor] at hu
      simp only [exec, makeThreadRequest, setRequests, setPos]
      split <;> simp [hu]
    · simp only [exec, makeThreadRequest, setRequests, setPos]
      by_cases hut : u = target
      · subst hut
        split <;> simp [hk, hmax]
      · split <;> simp [hut, hk]
  | finishStore t =>
    simp only [exec, finishStore, setRequests, setPos]
    split
    · next w rest _ =>
      refine ⟨rfl, fun u hu => .inl hu, fun u hu _ => ?_, fun u hk _ => .inl ?_⟩
      · simp only [BlockOp.actor] at hu
        simp [hu]
      · by_cases huw : u = w
        · simp [huw]
        · simp [huw, hk]
    · exact ⟨rfl, fun u hu => .inl hu, fun u _ _ => ⟨rfl, rfl⟩, fun u hk _ => .inl hk⟩
  | storeNone t =>
    refine ⟨rfl, fun u hu => .inl hu, fun u hu _ => ?_, fun u hk _ => ?_⟩
    · simp only [BlockOp.actor] at hu
      simp [exec, storeNone, setRequests, setPos, setDelivery, hu]
    · by_cases hut : u = t
      · exact .inr (by rw [hut])
      · exact .inl (by simp [exec, storeNone, setRequests, setPos, setDelivery, hut, hk])
  | exchangeNone t =>
    simp only [exec, exchangeNone, setRequests, setDelivery]
    split
    · next hint =>
      refine ⟨rfl, fun u hu => .inl hu, fun u hu _ => ?_, fun u hk _ => .inl ?_⟩
      · simp only [BlockOp.actor] at hu
        simp [hu]
      · have hut : u ≠ t := by
          rintro rfl
          rw [hk] at hint
          cases hint
        simp [hut, hk]
    · refine ⟨rfl, fun u hu => .inl hu, fun u hu _ => ?_, fun u hk _ => .inl hk⟩
      simp only [BlockOp.actor] at hu
      simp [hu]
  | exitParked t =>
    refine ⟨rfl, fun u hu => .inl (List.mem_of_mem_filter hu), fun u hu _ => ?_, fun u hk _ => .inl hk⟩
    simp only [BlockOp.actor] at hu
    simp [exec, exitParked, setPos, hu]
  | _ =>
    -- the requests and the registry stay as they are, and only the actor moves
    simp only [exec, lockMutex, tryLockMutex, atomicReset, mutexBlock, blockCheck, blockSample,
      blockRecheck, mutexUnlock, condVarWait, condSample, condRelease, condCheck, condVarWake, wakeCheck,
      waitForSignal, signalSample, signalCheck, wake, notify, writeCopy, finish, finishSnapshot,
      loadRequests, afterCheck, downgrade, clearCopy, bump, setPos, setWord, setRequestCopy, setDelivery,
      setInterruptState]
    repeat' split
    all_goals
      refine ⟨rfl, fun u hu => .inl hu, fun u hu _ => ?_, fun u hk _ => .inl hk⟩
      simp only [BlockOp.actor] at hu
      simp [hu]

omit [DecidableEq Tid] [DecidableEq Mid] in
theorem AtCheck.not_leaving (h : s.AtCheck t) : ¬ (s.pos t).Leaving := by
  unfold AtCheck at h
  split at h <;> simp_all

omit [DecidableEq Mid] in
theorem AtCheck.afterCheck (h : s.AtCheck t) : ((s.afterCheck t).pos t).InMl := by
  unfold AtCheck at h
  unfold BlockState.afterCheck
  cases hp : s.pos t <;> simp_all

omit [DecidableEq Mid] in
theorem pos_loadRequests (s : BlockState Tid Mid) (t : Tid) (synch : Bool) :
    (s.loadRequests t synch).pos = (s.afterCheck t).pos := by
  have hdown : ((s.downgrade t).afterCheck t).pos = (s.afterCheck t).pos := by
    rw [downgrade]
    split
    · unfold BlockState.afterCheck
      rw [show (s.setInterruptState t .synch).pos = s.pos from rfl]
      split <;> rfl
    · rfl
  rw [loadRequests]
  split
  · rfl
  · split
    · exact hdown
    · rfl
  · rfl

omit [DecidableEq Mid] in
theorem pos_exchangeNone (s : BlockState Tid Mid) (t : Tid) : (s.exchangeNone t).pos = s.pos := by
  rw [exchangeNone]
  split <;> rfl

/-- A run that has ended stays ended. -/
theorem exec_ended (he : s.Enabled op) (h : (s.pos u).Ended) : ((s.exec op).pos u).Ended := by
  by_cases hf : op.Forks u
  · cases op with
    | fork t child st =>
      obtain rfl : child = u := hf
      rw [he.2.2] at h
      exact h.elim
    | _ => exact hf.elim
  by_cases hu : u = op.actor
  · subst hu
    cases op with
    | exitParked t =>
      by_cases htm : t = s.main
      · simp [exec, exitParked, setPos, BlockOp.actor, ← htm]
      · simp [exec, exitParked, setPos, BlockOp.actor, htm]
    | notify t =>
      simp only [Enabled, BlockOp.actor] at he h ⊢
      simp only [exec, notify]
      split at he <;> rename_i hpos <;> simp_all [setPos, bump]
    | _ =>
      -- the actor has not ended its run
      exfalso
      revert h
      simp only [Enabled, BlockOp.actor, AtInstruction, AtCheck] at he ⊢
      grind [BlockPos.Ended]
  · rw [((exec_effect op s).others u hu hf).1]
    exact h

theorem Plain.not_leaving (h : s.Plain op) (he : s.Enabled op) :
    ¬ ((s.exec op).pos op.actor).Leaving := by
  cases op with
  | killSelf | signalCheck | finish | finishSnapshot | finishStore | loadRequests | storeNone
  | exchangeNone | clearCopy | exitParked => exact h.elim
  | fork t child st =>
    have hne : t ≠ child := by
      rintro rfl
      cases he.2.1.symm.trans he.2.2
    simp [exec, fork, setPos, setDelivery, setInterruptState, setRequestCopy, setRequests,
      BlockOp.actor, hne, he.2.1]
  | _ =>
    simp only [Enabled, BlockOp.actor, Plain] at he h ⊢
    simp only [exec, lockMutex, tryLockMutex, atomicReset, mutexBlock, blockCheck, blockSample,
      blockRecheck, mutexUnlock, condVarWait, condSample, condRelease, condCheck, condVarWake, wakeCheck,
      waitForSignal, signalSample, wake, notify, makeThreadRequest, writeCopy, bump, setPos, setWord,
      setRequests, setRequestCopy, setInterruptState]
    repeat' split
    all_goals simp_all [Function.update_self]

end BlockState

/-! ## What holds of each thread -/

/-- The step starts thread `u`. -/
def ExitOp.Forks {Tid Mid : Type} (u : Tid) : ExitOp Tid Mid → Prop
  | .block op => op.Forks u
  | _ => False

namespace ExitState

variable {Tid Mid : Type}

/-- No thread is going to execute anything any more. -/
def Over (s : ExitState Tid Mid) : Prop :=
  ∀ t, s.block.pos t = .unborn ∨ s.block.pos t = .exiting ∨ s.block.pos t = .exited ∨
    s.block.pos t = .returned ∧ s.outcome t ≠ none

variable {s s' : ExitState Tid Mid} {t u : Tid}

/-- The thread does not notice the step. -/
structure Unmoved (u : Tid) (s s' : ExitState Tid Mid) : Prop where
  main : s'.block.main = s.block.main
  pos : s'.block.pos u = s.block.pos u
  delivery : s'.block.delivery u = s.block.delivery u
  phase : s'.phase u = s.phase u
  outcome : s'.outcome u = s.outcome u
  stepped : s'.stepped u = s.stepped u
  requested : s.requested ⊆ s'.requested
  requester : s'.Requester u → s.Requester u

/-- A thread that has taken a step since the request is about to see the flag, or in the fast tier, or has
an exception to raise; so is one that has requested an exit, once it has processed its requests. -/
structure Status (s : ExitState Tid Mid) (t : Tid) : Prop where
  inside : ¬ (s.block.pos t).InMl → s.phase t = .between
  delivering : s.block.delivery t ≠ .idle → s.phase t = .between
  stepped : s.stepped t = true → s.requested ≠ [] ∧
    (s.phase t = .between ∨ s.phase t = .burst ∨ s.phase t = .raising)
  going : s.stepped t = true → s.outcome t = none →
    (s.block.pos t).InMl ∨ s.block.pos t = .returned
  leaving : s.outcome t ≠ none → (s.block.pos t).Leaving
  settled : (s.block.pos t).Leaving → s.block.pos t ≠ .returned → s.outcome t ≠ none
  requester : s.Requester t → ((s.block.pos t).InMl ∨ (s.block.pos t).Leaving) ∧
    (s.phase t = .rtsReturn false ∨
      s.stepped t = true ∧ (s.phase t = .between ∨ s.phase t = .raising))
  code : t = s.block.main → s.stepped t = true → s.outcome t ≠ none → s.ReturnsCode t

namespace Status

/-- A thread that has taken no step since the request and is not about to end its run. -/
theorem fresh (hphase : s.phase t = .between) (hstepped : s.stepped t = false)
    (hout : s.outcome t = none) (hreq : ¬ s.Requester t) (hpos : ¬ (s.block.pos t).Leaving) :
    s.Status t :=
  { inside := fun _ => hphase
    delivering := fun _ => hphase
    stepped := fun h => by simp [hstepped] at h
    going := fun h => by simp [hstepped] at h
    leaving := fun h => absurd hout h
    settled := fun h => absurd h hpos
    requester := fun h => absurd h hreq
    code := fun _ h => by simp [hstepped] at h }

/-- A thread that is on its way out. -/
theorem off (hphase : s.phase t = .between) (hpos : (s.block.pos t).Leaving)
    (hout : s.outcome t = none → s.block.pos t = .returned)
    (hstepped : s.stepped t = true → s.requested ≠ []) (hreq : s.Requester t → s.stepped t = true)
    (hcode : t = s.block.main → s.stepped t = true → s.outcome t ≠ none → s.ReturnsCode t) :
    s.Status t :=
  { inside := fun _ => hphase
    delivering := fun _ => hphase
    stepped := fun h => ⟨hstepped h, .inl hphase⟩
    going := fun _ hn => .inr (hout hn)
    leaving := fun _ => hpos
    settled := fun _ hne hn => hne (hout hn)
    requester := fun h => ⟨.inr hpos, .inr ⟨hreq h, .inl hphase⟩⟩
    code := hcode }

/-- A thread that has processed its requests. -/
theorem checked (hml : (s.block.pos t).InMl) (hout : s.outcome t = none)
    (hphase : s.phase t = .between ∨ s.phase t = .raising ∧ s.block.delivery t = .idle)
    (hstepped : s.stepped t = true → s.requested ≠ []) (hreq : s.Requester t → s.stepped t = true) :
    s.Status t :=
  { inside := fun hn => absurd hml hn
    delivering := fun hn => hphase.resolve_right (fun hp => hn hp.2)
    stepped := fun h => ⟨hstepped h, hphase.imp_right (fun hp => .inr hp.1)⟩
    going := fun _ _ => .inl hml
    leaving := fun hn => absurd hout hn
    settled := fun hlv => absurd hlv hml.not_leaving
    requester := fun h => ⟨.inl hml, .inr ⟨hreq h, hphase.imp_right And.left⟩⟩
    code := fun _ _ hn => absurd hout hn }

/-- A thread at an access of its instruction has not taken a step since the request. -/
theorem untouched (h : s.Status t) (hml : ¬ (s.block.pos t).InMl) (hpos : ¬ (s.block.pos t).Leaving) :
    s.stepped t = false ∧ s.outcome t = none ∧ ¬ s.Requester t := by
  have hout : s.outcome t = none := by
    by_contra hne
    exact hpos (h.leaving hne)
  refine ⟨?_, hout, fun hr => ?_⟩
  · by_contra hst
    rcases h.going (by simpa using hst) hout with hin | hret
    · exact hml hin
    · exact hpos (by simp [hret])
  · exact (h.requester hr).1.elim hml hpos

/-- Nor has one that found the flag clear, or waits in the kernel. -/
theorem untouched_of_phase (h : s.Status t) (hb : s.phase t ≠ .between) (hu : s.phase t ≠ .burst)
    (hr : s.phase t ≠ .raising) (hf : s.phase t ≠ .rtsReturn false) :
    s.stepped t = false ∧ s.outcome t = none ∧ ¬ s.Requester t := by
  have hml : (s.block.pos t).InMl := by
    by_contra hml
    exact hb (h.inside hml)
  have hst : s.stepped t = false := by
    by_contra hst
    rcases (h.stepped (by simpa using hst)).2 with hp | hp | hp
    · exact hb hp
    · exact hu hp
    · exact hr hp
  refine ⟨hst, ?_, fun hreq => ?_⟩
  · by_contra hne
    exact hml.not_leaving (h.leaving hne)
  · rcases (h.requester hreq).2 with hp | ⟨hs, -⟩
    · exact hf hp
    · simp [hst] at hs

/-- A thread that has requested an exit and processed its requests has taken a step since. -/
theorem stepped_of_requester (h : s.Status t) (hp : s.phase t ≠ .rtsReturn false) (hr : s.Requester t) :
    s.stepped t = true :=
  ((h.requester hr).2.resolve_left hp).1

theorem untouched_clear (h : s.Status t) (hc : s.phase t = .clear) :
    s.stepped t = false ∧ s.outcome t = none ∧ ¬ s.Requester t :=
  h.untouched_of_phase (by simp [hc]) (by simp [hc]) (by simp [hc]) (by simp [hc])

theorem untouched_kernel (h : s.Status t) {sliced : Bool} (hk : s.phase t = .kernel sliced) :
    s.stepped t = false ∧ s.outcome t = none ∧ ¬ s.Requester t :=
  h.untouched_of_phase (by simp [hk]) (by simp [hk]) (by simp [hk]) (by simp [hk])

/-- A thread that executes instructions has not requested an exit. -/
theorem not_requester (h : s.Status t) (hp : s.phase t = .clear ∨ s.phase t = .burst) :
    ¬ s.Requester t := by
  intro hr
  rcases (h.requester hr).2 with hf | ⟨-, hb | hb⟩ <;> rcases hp with hp | hp <;> simp [hp] at *

theorem congr (h : s.Status t) (hu : Unmoved t s s') : s'.Status t := by
  have hne : s.requested ≠ [] → s'.requested ≠ [] := by
    intro hn hnil
    exact hn (List.subset_nil.1 (hnil ▸ hu.requested))
  constructor
  · rw [hu.pos, hu.phase]
    exact h.inside
  · rw [hu.delivery, hu.phase]
    exact h.delivering
  · rw [hu.stepped, hu.phase]
    exact fun hst => ⟨hne (h.stepped hst).1, (h.stepped hst).2⟩
  · rw [hu.stepped, hu.outcome, hu.pos]
    exact h.going
  · rw [hu.outcome, hu.pos]
    exact h.leaving
  · rw [hu.pos, hu.outcome]
    exact h.settled
  · rw [hu.pos, hu.phase, hu.stepped]
    exact fun hr => h.requester (hu.requester hr)
  · rw [hu.main, hu.stepped, hu.outcome]
    intro hm hst ho
    obtain ⟨e, he, hcode⟩ := h.code hm hst ho
    exact ⟨e, hu.requested he, hu.outcome.trans hcode⟩

end Status

/-- What the flag says. -/
structure FlagInv (s : ExitState Tid Mid) : Prop where
  code : s.finishFlag ≠ 0#64 →
    ∃ e ∈ s.requested, s.finishFlag = finishWord e.2 ∧ e.2.untag ≠ -1
  cleared : s.requested ≠ [] → s.finishFlag = 0#64 → s.Over

namespace FlagInv

/-- A code found in the flag is a requested one. -/
theorem requested_of_some (h : s.FlagInv) {code : Int} (hc : finishRequested s.finishFlag = some code) :
    ∃ e ∈ s.requested, e.2.untag = code := by
  have hne : s.finishFlag ≠ 0#64 := by
    intro h0
    rw [finishRequested, if_pos h0] at hc
    cases hc
  obtain ⟨e, he, hword, hneg⟩ := h.code hne
  refine ⟨e, he, ?_⟩
  rw [hword, finishRequested_finishWord hneg] at hc
  exact Option.some.inj hc

/-- A thread that finds the flag clear has not missed a request. -/
theorem requested_of_none (h : s.FlagInv) (hc : finishRequested s.finishFlag = none)
    (ht : (s.block.pos t).InMl ∨ s.block.pos t = .returned ∧ s.outcome t = none) : s.requested = [] := by
  by_contra hne
  have h0 : s.finishFlag = 0#64 := by
    by_contra hne0
    rw [finishRequested, if_neg hne0] at hc
    cases hc
  rcases h.cleared hne h0 t with hp | hp | hp | ⟨hp, ho⟩ <;> simp_all

end FlagInv

/-- Nobody but the threads that have ended is left. -/
theorem Over.false (h : s.Over) (ht : (s.block.pos t).InMl) : False := by
  rcases h t with hp | hp | hp | ⟨hp, -⟩ <;> simp [hp] at ht

variable [DecidableEq Tid]

theorem block_passBurst (s : ExitState Tid Mid) (t : Tid) : (s.passBurst t).block = s.block := by
  rw [passBurst]
  split <;> rfl

namespace Status

/-- A thread in ML goes on to another phase. -/
theorem setPhase (h : s.Status t) (hml : (s.block.pos t).InMl) (hidle : s.block.delivery t = .idle)
    {p : StepPhase} (hst : s.stepped t = true → p = .between ∨ p = .burst ∨ p = .raising)
    (hreq : s.Requester t → p = .rtsReturn false ∨
      s.stepped t = true ∧ (p = .between ∨ p = .raising)) : (s.setPhase t p).Status t := by
  have hphase : (s.setPhase t p).phase t = p := Function.update_self ..
  constructor
  · exact fun hout => absurd hml hout
  · exact fun hdel => absurd hidle hdel
  · rw [hphase]
    exact fun hs => ⟨(h.stepped hs).1, hst hs⟩
  · exact h.going
  · exact h.leaving
  · exact h.settled
  · rw [hphase]
    exact fun hr => ⟨(h.requester hr).1, hreq hr⟩
  · exact h.code

/-- So does one that has not taken a step since the request. -/
theorem setPhase_untouched (h : s.Status t) (hml : (s.block.pos t).InMl)
    (hidle : s.block.delivery t = .idle) {p : StepPhase}
    (hun : s.stepped t = false ∧ s.outcome t = none ∧ ¬ s.Requester t) :
    (s.setPhase t p).Status t :=
  h.setPhase hml hidle (fun hs => by simp [hun.1] at hs) (fun hr => absurd hr hun.2.2)

theorem pass (h : s.Status t) (hml : (s.block.pos t).InMl)
    (hp : s.phase t = .between ∨ s.phase t = .burst ∨ s.phase t = .raising) : (s.pass t).Status t := by
  have hout : s.outcome t = none := by
    by_contra hne
    exact hml.not_leaving (h.leaving hne)
  have hstep : (s.pass t).stepped t = (s.stepped t || !s.requested.isEmpty) := Function.update_self ..
  constructor
  · exact h.inside
  · exact h.delivering
  · rw [hstep]
    refine fun hs => ⟨?_, hp⟩
    rcases Bool.or_eq_true_iff.1 hs with hs | hs
    · exact (h.stepped hs).1
    · have hne : s.requested ≠ [] := by simpa using hs
      exact hne
  · exact fun _ _ => .inl hml
  · exact h.leaving
  · exact h.settled
  · rw [hstep]
    intro hr
    refine ⟨(h.requester hr).1, (h.requester hr).2.imp_right (fun hs => ⟨?_, hs.2⟩)⟩
    simp [hs.1]
  · exact fun _ _ hne => absurd hout hne

theorem passBurst (h : s.Status t) (hml : (s.block.pos t).InMl) : (s.passBurst t).Status t := by
  rw [ExitState.passBurst]
  split
  · next hb => exact h.pass hml (.inr (.inl hb))
  · exact h

/-- The main thread ends its run for another reason than the exit only if it has taken no step. -/
theorem endRun (h : s.Status t) (hp : s.phase t ≠ .rtsReturn false)
    (hm : t = s.block.main → s.stepped t = false) (o : RunOutcome) : (s.endRun t o).Status t := by
  have hpos : (s.endRun t o).block.pos t = .returned := BlockState.pos_setPos_self ..
  refine off (Function.update_self ..) (by simp [hpos]) (fun _ => hpos) (fun hs => (h.stepped hs).1)
    (h.stepped_of_requester hp) (fun htm hs => ?_)
  rw [show (s.endRun t o).stepped t = s.stepped t from rfl, hm htm] at hs
  cases hs

/-- A thread ends its run with an instruction, or with an exception that has no handler. -/
theorem leaveRun (h : s.Status t) (hml : (s.block.pos t).InMl)
    (hp : s.phase t = .clear ∨ s.phase t = .burst ∨ s.phase t = .raising)
    (hm : t = s.block.main → (s.phase t = .burst → s.requested = []) ∧
      (s.phase t = .raising → s.stepped t = false)) (o : RunOutcome) :
    ((s.passBurst t).endRun t o).Status t := by
  have hphase : (s.passBurst t).phase t = s.phase t := by
    rw [ExitState.passBurst]
    split <;> rfl
  have hmain : (s.passBurst t).block.main = s.block.main := by rw [block_passBurst]
  refine (h.passBurst hml).endRun ?_ (fun htm => ?_) o
  · rw [hphase]
    rcases hp with hp | hp | hp <;> simp [hp]
  · obtain ⟨hburst, hraise⟩ := hm (htm.trans hmain)
    rcases hp with hp | hp | hp
    · simpa [ExitState.passBurst, hp] using (h.untouched_clear hp).1
    · have hst : s.stepped t = false := by
        by_contra hst
        exact (h.stepped (by simpa using hst)).1 (hburst hp)
      simp [ExitState.passBurst, hp, ExitState.pass, hst, hburst hp]
    · simpa [ExitState.passBurst, hp] using hraise hp

theorem poll (h : s.Status t) (hf : s.FlagInv) (hr : s.Ready t .between) : (s.poll t).Status t := by
  obtain ⟨hphase, hat, hidle⟩ := hr
  have hml := BlockState.atInstruction_iff.1 hat
  rw [ExitState.poll]
  split
  · next hnone =>
    have hreq := hf.requested_of_none hnone (.inl hml)
    have hst : ¬ (s.pass t).stepped t = true := fun hs => ((h.pass hml (.inl hphase)).stepped hs).1 hreq
    refine (h.pass hml (.inl hphase)).setPhase hml hidle (fun hs => absurd hs hst) ?_
    rintro ⟨e, he, -⟩
    rw [show (s.pass t).requested = [] from hreq] at he
    cases he
  · next code hcode =>
    obtain ⟨e, he, hval⟩ := hf.requested_of_some hcode
    have hne : s.requested ≠ [] := List.ne_nil_of_mem he
    have hpass := h.pass hml (.inl hphase)
    have hstep : (s.pass t).stepped t = true := by simp [ExitState.pass, hne]
    have hpos : (s.block.finish t).pos t = .finishEntered ∨ (s.block.finish t).pos t = .returned := by
      simp only [BlockState.finish, BlockState.pos_setPos_self]
      split <;> simp
    have hout : ((s.pass t).setOutcome t (.returned (PolyWord.tagged code))).outcome t =
        some (.returned (PolyWord.tagged code)) := Function.update_self ..
    have hlv : ((s.block.finish t).pos t).Leaving := by rcases hpos with hp | hp <;> simp [hp]
    refine off hphase hlv (fun ho => ?_) (fun _ => hne) (fun _ => hstep) (fun _ _ _ => ?_)
    · rw [hout] at ho
      cases ho
    · exact ⟨e, he, by rw [hout, hval]⟩

theorem polyFinish (h : s.Status t) (hr : s.Ready t .clear) (exitCode : PolyWord) :
    (s.polyFinish t exitCode).Status t := by
  obtain ⟨hphase, hat, hidle⟩ := hr
  have hml := BlockState.atInstruction_iff.1 hat
  obtain ⟨hst, hout, -⟩ := h.untouched_clear hphase
  have hp : (s.polyFinish t exitCode).phase t = .rtsReturn false := Function.update_self ..
  have hst' : ¬ (s.polyFinish t exitCode).stepped t = true := by
    rw [show (s.polyFinish t exitCode).stepped t = false from hst]
    simp
  exact
    { inside := fun hn => absurd hml hn
      delivering := fun hn => absurd hidle hn
      stepped := fun hs => absurd hs hst'
      going := fun hs => absurd hs hst'
      leaving := fun hn => absurd hout hn
      settled := fun hl => absurd hl hml.not_leaving
      requester := fun _ => ⟨.inl hml, .inl hp⟩
      code := fun _ hs => absurd hs hst' }

theorem returnCode (h : s.Status t) (hf : s.FlagInv)
    (he : s.block.pos t = .returned ∧ s.outcome t = none) : (s.returnCode t).Status t := by
  have hphase : s.phase t = .between := h.inside (by simp [he.1])
  have hout : (s.returnCode t).outcome t =
      some (.returned (PolyWord.tagged ((finishRequested s.finishFlag).getD 0))) :=
    Function.update_self ..
  have hpos : (s.returnCode t).block.pos t = .returned := he.1
  refine off hphase (by simp [hpos]) (fun _ => hpos) (fun hs => (h.stepped hs).1)
    (h.stepped_of_requester (by simp [hphase])) (fun _ hs _ => ?_)
  cases hc : finishRequested s.finishFlag with
  | none => exact absurd (hf.requested_of_none hc (.inr he)) (h.stepped hs).1
  | some code =>
    obtain ⟨e, hmem, hval⟩ := hf.requested_of_some hc
    exact ⟨e, hmem, by rw [hout, hc, hval]; rfl⟩

section Block

variable [DecidableEq Mid] {op : BlockOp Tid Mid}

/-- A step within an instruction, or the first of one. -/
theorem plain (h : s.Status op.actor) (hplain : s.block.Plain op) (he : s.block.Enabled op)
    (hr : s.BlockReady op) : (s.execBlock op).Status op.actor := by
  have hun : s.stepped op.actor = false ∧ s.outcome op.actor = none ∧ ¬ s.Requester op.actor := by
    cases hi : op.startsInstruction with
    | false =>
      obtain ⟨hml, hlv⟩ := hplain.inside he hi
      exact h.untouched hml hlv
    | true =>
      refine h.untouched_clear ?_
      cases op <;> first | exact hplain.elim | exact hr hi
  have hown : s.phaseAfter op = .between ∧ s.atSafepoint op = false ∧ s.ownOutcome op = none := by
    cases op <;> first | exact hplain.elim | exact ⟨rfl, rfl, rfl⟩
  refine fresh ?_ ?_ ?_ hun.2.2 (hplain.not_leaving he)
  · simp [execBlock, hown.1]
  · simp [execBlock, hown.2.1, hun.1]
  · simp [execBlock, hown.2.2, hun.2.1]

/-- The thread is on its way out, or goes there. -/
theorem leave (h : s.Status op.actor) (hb : s.phase op.actor = .between)
    (hpos : ((s.block.exec op).pos op.actor).Leaving)
    (hout : (s.execBlock op).outcome op.actor = none → (s.block.exec op).pos op.actor = .returned)
    (hown : s.phaseAfter op = .between ∧ s.atSafepoint op = false ∧ s.ownOutcome op = none) :
    (s.execBlock op).Status op.actor := by
  have hphase : (s.execBlock op).phase op.actor = .between := by simp [execBlock, hown.1]
  have hstep : (s.execBlock op).stepped op.actor = s.stepped op.actor := by simp [execBlock, hown.2.1]
  have hsame : (s.execBlock op).outcome op.actor = s.outcome op.actor := by simp [execBlock, hown.2.2]
  have hmain : (s.execBlock op).block.main = s.block.main := (BlockState.exec_effect op s.block).main
  refine off hphase hpos hout (fun hs => (h.stepped (hstep ▸ hs)).1) (fun hr => ?_) (fun hm hs hne => ?_)
  · rw [hstep]
    exact h.stepped_of_requester (by simp [hb]) hr
  · obtain ⟨e, he, hc⟩ := h.code (hm.trans hmain) (hstep ▸ hs) (hsame ▸ hne)
    exact ⟨e, he, hsame.trans hc⟩

theorem killSelf (h : s.Status t) (hphase : s.phase t = .clear) :
    (s.execBlock (.killSelf t)).Status t := by
  obtain ⟨hst, -, hreq⟩ := h.untouched_clear hphase
  have hpos : (s.execBlock (.killSelf t)).block.pos t = .returned := BlockState.pos_setPos_self ..
  have hst' : ¬ (s.execBlock (.killSelf t)).stepped t = true := by
    simp [execBlock, BlockOp.actor, atSafepoint, hst]
  exact off (Function.update_self ..) (by simp [hpos]) (fun _ => hpos) (fun hs => absurd hs hst')
    (fun hr => absurd hr hreq) (fun _ hs => absurd hs hst')

/-- The signal wait goes on, or is ended by a kill that is not the main thread's. -/
theorem signalCheck (h : s.Status t) (he : s.block.pos t = .signalWoken)
    (hg : t = s.block.main → s.requested ≠ [] → s.block.requests t ≠ .kill) :
    (s.execBlock (.signalCheck t)).Status t := by
  obtain ⟨hst, hout, hreq⟩ := h.untouched (by simp [he]) (by simp [he])
  have hp : (s.execBlock (.signalCheck t)).phase t = .between := Function.update_self ..
  by_cases hk : s.block.requests t = .kill
  · have hpos : (s.execBlock (.signalCheck t)).block.pos t = .returned := by
      simp [execBlock, BlockState.exec, BlockState.signalCheck, hk]
    have hstep : (s.execBlock (.signalCheck t)).stepped t = !s.requested.isEmpty := by
      simp [execBlock, BlockOp.actor, atSafepoint, hk, hst]
    have hne : (s.execBlock (.signalCheck t)).stepped t = true → s.requested ≠ [] := by
      rw [hstep]
      simp
    exact off hp (by simp [hpos]) (fun _ => hpos) hne (fun hr => absurd hr hreq)
      (fun hm hs => absurd hk (hg hm (hne hs)))
  · refine fresh hp ?_ ?_ hreq ?_
    · simp [execBlock, BlockOp.actor, atSafepoint, hk, hst]
    · simp [execBlock, BlockOp.actor, ownOutcome, hk, hout]
    · simp [execBlock, BlockState.exec, BlockState.signalCheck, hk]

theorem loadRequests (h : s.Status t) {synch : Bool} (hat : s.block.AtCheck t) :
    (s.execBlock (.loadRequests t synch)).Status t := by
  have hml : ((s.block.loadRequests t synch).pos t).InMl := by
    rw [BlockState.pos_loadRequests]
    exact hat.afterCheck
  have hout : s.outcome t = none := by
    by_contra hne
    exact hat.not_leaving (h.leaving hne)
  have hphase : (s.execBlock (.loadRequests t synch)).phase t = .between ∨
      (s.execBlock (.loadRequests t synch)).phase t = .raising ∧
        (s.block.loadRequests t synch).delivery t = .idle := by
    simp only [execBlock, BlockOp.actor, phaseAfter, Function.update_self]
    split
    · next hr => exact .inr ⟨rfl, hr.2⟩
    · exact .inl rfl
  have hstep : (s.execBlock (.loadRequests t synch)).stepped t =
      (s.stepped t || !s.requested.isEmpty) := by
    simp [execBlock, BlockOp.actor, atSafepoint]
  refine checked hml ?_ hphase (fun hs => ?_) ?_
  · simp [execBlock, BlockOp.actor, ownOutcome, hout]
  · rw [hstep, Bool.or_eq_true_iff] at hs
    have hne : s.requested ≠ [] := hs.elim (fun hs => (h.stepped hs).1) (fun hs => by simpa using hs)
    exact hne
  · rintro ⟨e, he, -⟩
    have hne : s.requested ≠ [] := List.ne_nil_of_mem he
    rw [hstep]
    simp [hne]

/-- A request that is loaded is consumed, and an interrupt raised. -/
theorem deliver (h : s.Status op.actor) (hd : s.block.delivery op.actor ≠ .idle)
    (hml : (s.block.pos op.actor).InMl) (hml' : ((s.block.exec op).pos op.actor).InMl)
    (hphase : s.phaseAfter op = .between ∨
      s.phaseAfter op = .raising ∧ (s.block.exec op).delivery op.actor = .idle)
    (hown : s.atSafepoint op = false ∧ s.ownOutcome op = none) :
    (s.execBlock op).Status op.actor := by
  have hout : s.outcome op.actor = none := by
    by_contra hne
    exact hml.not_leaving (h.leaving hne)
  have hstep : (s.execBlock op).stepped op.actor = s.stepped op.actor := by simp [execBlock, hown.1]
  refine checked hml' ?_ ?_ (fun hs => (h.stepped (hstep ▸ hs)).1) (fun hr => ?_)
  · simp [execBlock, hown.2, hout]
  · simpa [execBlock] using hphase
  · rw [hstep]
    exact h.stepped_of_requester (by simp [h.delivering hd]) hr

theorem execBlock (h : s.Status op.actor) (he : s.block.Enabled op) (hr : s.BlockReady op)
    (hg : s.BlockGuarded op) : (s.execBlock op).Status op.actor := by
  cases op with
  | finish t => exact hr.elim
  | killSelf t => exact h.killSelf (hr rfl)
  | signalCheck t => exact h.signalCheck he hg
  | loadRequests t synch => exact h.loadRequests he.2.1
  | storeNone t =>
    have hml := BlockState.atInstruction_iff.1 he.2
    have hpos : (s.block.storeNone t).pos t = .returned := BlockState.pos_setPos_self ..
    exact h.leave (h.delivering (by simp [BlockOp.actor, he.1]))
      (by simp [BlockState.exec, BlockOp.actor, hpos]) (fun _ => hpos) ⟨rfl, rfl, rfl⟩
  | exchangeNone t =>
    have hml := BlockState.atInstruction_iff.1 he.2
    exact h.deliver (by simp [BlockOp.actor, he.1]) hml
      (by simpa [BlockState.exec, BlockOp.actor, BlockState.pos_exchangeNone] using hml) (.inl rfl)
      ⟨rfl, rfl⟩
  | clearCopy t =>
    have hml := BlockState.atInstruction_iff.1 he.2
    refine h.deliver (by simp [BlockOp.actor, he.1]) hml ?_ (.inr ⟨rfl, ?_⟩) ⟨rfl, rfl⟩
    · simp [BlockState.exec, BlockState.clearCopy, BlockOp.actor]
    · simp [BlockState.exec, BlockState.clearCopy, BlockOp.actor, BlockState.setPos,
        BlockState.setDelivery]
  | finishSnapshot t =>
    have hpos : s.block.pos t = .finishEntered := he
    have hout := h.settled (by simp [BlockOp.actor, hpos]) (by simp [BlockOp.actor, hpos])
    refine h.leave (h.inside (by simp [BlockOp.actor, hpos])) ?_ (fun hn => ?_) ⟨rfl, rfl, rfl⟩
    · simp [BlockState.exec, BlockState.finishSnapshot, BlockOp.actor]
    · exact absurd hn (by simpa [ExitState.execBlock, ownOutcome] using hout)
  | finishStore t =>
    obtain ⟨u, rest, hpos⟩ := he
    have hout := h.settled (by simp [BlockOp.actor, hpos]) (by simp [BlockOp.actor, hpos])
    refine h.leave (h.inside (by simp [BlockOp.actor, hpos])) ?_ (fun hn => ?_) ⟨rfl, rfl, rfl⟩
    · simp [BlockState.exec, BlockState.finishStore, BlockOp.actor, hpos]
    · exact absurd hn (by simpa [ExitState.execBlock, ownOutcome] using hout)
  | exitParked t =>
    have hpos : s.block.pos t = .returned := he
    have hout : s.outcome t ≠ none := hr
    refine h.leave (h.inside (by simp [BlockOp.actor, hpos])) ?_ (fun hn => ?_) ⟨rfl, rfl, rfl⟩
    · simp only [BlockState.exec, BlockState.exitParked, BlockOp.actor, BlockState.setPos,
        Function.update_self]
      split <;> simp
    · exact absurd hn (by simpa [ExitState.execBlock, ownOutcome, BlockOp.actor] using hout)
  | notify t =>
    by_cases hlv : (s.block.pos t).Leaving
    · have hpos := BlockState.notify_leaving he hlv
      have hout := h.settled hlv (by rcases hpos with hp | hp <;> simp [BlockOp.actor, hp])
      have hb := h.inside (by rcases hpos with hp | hp <;> simp [BlockOp.actor, hp])
      refine h.leave hb ?_ (fun hn => ?_) ⟨rfl, rfl, rfl⟩
      · rcases hpos with hp | hp <;> simp [BlockState.exec, BlockState.notify, BlockOp.actor, hp]
      · exact absurd hn (by simpa [ExitState.execBlock, ownOutcome] using hout)
    · exact h.plain hlv he hr
  | _ => exact h.plain trivial he hr

end Block

variable [DecidableEq Mid] {op : ExitOp Tid Mid}

/-- The thread that takes the step. -/
theorem exec_self (h : s.Status op.actor) (hf : s.FlagInv) (he : s.Enabled op) (hg : s.ExitGuarded op) :
    (s.exec op).Status op.actor := by
  cases op with
  | block op => exact h.execBlock he.1 he.2 hg.2
  | poll t => exact h.poll hf he
  | plain t =>
    exact h.setPhase_untouched (BlockState.atInstruction_iff.1 he.2.1) he.2.2 (h.untouched_clear he.1)
  | rtsCall t raised =>
    exact h.setPhase_untouched (BlockState.atInstruction_iff.1 he.2.1) he.2.2 (h.untouched_clear he.1)
  | parkWhileBlocking t sliced =>
    exact h.setPhase_untouched (BlockState.atInstruction_iff.1 he.2.1) he.2.2 (h.untouched_clear he.1)
  | kernelReturn t raised =>
    obtain ⟨sliced, hphase, hat, hidle⟩ := he
    exact h.setPhase_untouched (BlockState.atInstruction_iff.1 hat) hidle (h.untouched_kernel hphase)
  | shouldAbort t =>
    obtain ⟨hphase, hat, hidle⟩ := he
    simp only [ExitState.exec, ExitState.shouldAbort]
    split
    · exact h.setPhase_untouched (BlockState.atInstruction_iff.1 hat) hidle (h.untouched_kernel hphase)
    · exact h
  | endBurst t =>
    obtain ⟨hphase, hat, hidle⟩ := he
    exact h.setPhase (BlockState.atInstruction_iff.1 hat) hidle (fun _ => .inl rfl)
      (fun hr => absurd hr (h.not_requester (.inr hphase)))
  | doRaiseEx t =>
    obtain ⟨hphase, hat, hidle⟩ := he
    exact h.setPhase (BlockState.atInstruction_iff.1 hat) hidle (fun _ => .inl rfl)
      (fun hr => .inr ⟨h.stepped_of_requester (by simp [ExitOp.actor, hphase]) hr, .inl rfl⟩)
  | takeInterrupt t =>
    obtain ⟨hphase, hat, hidle⟩ := he
    have hml := BlockState.atInstruction_iff.1 hat
    have hpass := h.pass hml (.inl hphase)
    exact hpass.setPhase hml hidle (fun _ => .inr (.inr rfl))
      (fun hr => .inr ⟨hpass.stepped_of_requester (by simp [ExitOp.actor, ExitState.pass, hphase]) hr,
        .inr rfl⟩)
  | burstStep t =>
    have hat : s.block.AtInstruction t := he.elim (·.2.1) (·.2.1)
    have hidle : s.block.delivery t = .idle := he.elim (·.2.2) (·.2.2)
    have hml := BlockState.atInstruction_iff.1 hat
    have hno : ¬ (s.passBurst t).Requester t := by
      rw [ExitState.passBurst]
      split <;> exact h.not_requester (he.imp (·.1) (·.1))
    exact (h.passBurst hml).setPhase (by rwa [block_passBurst]) (by rwa [block_passBurst])
      (fun _ => .inr (.inl rfl)) (fun hr => absurd hr hno)
  | polyFinish t exitCode => exact h.polyFinish he exitCode
  | halt t =>
    have hat : s.block.AtInstruction t := he.elim (·.2.1) (fun hr => hr.elim (·.2.1) (·.2.1))
    exact h.leaveRun (BlockState.atInstruction_iff.1 hat) (he.imp (·.1) (Or.imp (·.1) (·.1))) hg.1 .halted
  | doReturn t w =>
    have hat : s.block.AtInstruction t := he.elim (·.2.1) (·.2.1)
    have hp : s.phase t = .clear ∨ s.phase t = .burst := he.imp (·.1) (·.1)
    refine h.leaveRun (BlockState.atInstruction_iff.1 hat) (hp.imp_right .inl) (fun hm => ⟨hg hm, ?_⟩) _
    intro hr
    rcases hp with hp | hp <;> simp [ExitOp.actor, hp] at hr
  | exhaust t =>
    exact h.endRun (by simp [ExitOp.actor, he.2.1]) (fun _ => hg) _
  | returnCode t => exact h.returnCode hf he

theorem forked (h : s.Status u) (he : s.Enabled op) (hf : op.Forks u) : (s.exec op).Status u := by
  cases op with
  | block op =>
    cases op with
    | fork t child st =>
      obtain rfl : child = u := hf
      have hpos : s.block.pos child = .unborn := he.1.2.2
      have hne : child ≠ t := by
        rintro rfl
        cases hpos.symm.trans he.1.2.1
      obtain ⟨hst, hout, hreq⟩ := h.untouched (by simp [hpos]) (by simp [hpos])
      have hpos' : ((s.exec (.block (.fork t child st))).block.pos child) = .running :=
        BlockState.pos_setPos_self ..
      refine fresh ?_ ?_ ?_ hreq (by simp [hpos'])
      · exact (Function.update_of_ne hne ..).trans (h.inside (by simp [hpos]))
      · exact (Function.update_of_ne hne ..).trans hst
      · exact (Function.update_of_ne hne ..).trans hout
    | _ => exact hf.elim
  | _ => exact hf.elim

end Status

section Exec

variable [DecidableEq Mid] {op : ExitOp Tid Mid}

theorem exec_unmoved (hu : u ≠ op.actor) (hf : ¬ op.Forks u) : Unmoved u s (s.exec op) := by
  cases op with
  | block op =>
    have heff := BlockState.exec_effect op s.block
    obtain ⟨hpos, hdel⟩ := heff.others u hu hf
    exact ⟨heff.main, hpos, hdel, Function.update_of_ne hu .., Function.update_of_ne hu ..,
      Function.update_of_ne hu .., fun _ h => h, id⟩
  | polyFinish t exitCode =>
    have hut : t ≠ u := Ne.symm hu
    refine ⟨rfl, rfl, rfl, Function.update_of_ne hu .., rfl, rfl, List.subset_cons_self .., ?_⟩
    rintro ⟨e, he, heq⟩
    rcases List.mem_cons.1 he with rfl | he
    · exact absurd heq hut
    · exact ⟨e, he, heq⟩
  | _ =>
    simp only [ExitOp.actor] at hu
    simp only [exec, poll, returnCode, shouldAbort, passBurst, pass, setPhase, setOutcome, endRun,
      BlockState.finish, BlockState.setPos]
    repeat' split
    all_goals
      refine ⟨rfl, ?_, rfl, ?_, ?_, ?_, fun _ h => h, id⟩
      all_goals simp [hu]

theorem status_exec (h : ∀ t, s.Status t) (hf : s.FlagInv) (he : s.Enabled op) (hg : s.ExitGuarded op)
    (t : Tid) : (s.exec op).Status t := by
  by_cases hfork : op.Forks t
  · exact (h t).forked he hfork
  · by_cases ht : t = op.actor
    · subst ht
      exact (h _).exec_self hf he hg
    · exact (h t).congr (exec_unmoved ht hfork)

end Exec

end ExitState
