import PolymlRs.Sched.ExitSpread

set_option autoImplicit false

/-! # The exit of a run

`exitsProperly_of_guarded` is about the runs in which nothing gets between a request and the thread that
has to see it. `exists_not_exitsProperly` gives three runs in which the exit is lost or the code is wrong. -/

namespace ExitState

variable {Tid Mid : Type} {s s' : ExitState Tid Mid} {t u : Tid} [DecidableEq Tid]

section Exec

variable [DecidableEq Mid] {op : ExitOp Tid Mid}

/-! ## Runs -/

/-- What holds in every state of a guarded run. The waits that sample with a request unseen count from
the bump on that ends a broadcast. -/
structure ExitInv (s : ExitState Tid Mid) : Prop where
  wake : s.block.WakeInv s.broadcast
  event : s.block.EventInv false
  status : ∀ t, s.Status t
  flag : s.FlagInv
  spread : s.SpreadInv

/-- What a step of the exit is to the blocking calls. -/
theorem block_exec (he : s.Enabled op) : (∃ bop, op = .block bop) ∨
    (s.exec op).broadcast = s.broadcast ∧ ((s.exec op).block = s.block ∨
      (∃ t, s.block.AtInstruction t ∧ (s.exec op).block = s.block.setPos t .returned) ∨
        ∃ t, s.block.Enabled (.finish t) ∧ (s.exec op).block = s.block.exec (.finish t)) := by
  have hburst : ∀ t, (s.passBurst t).broadcast = s.broadcast := by
    intro t
    rw [passBurst]
    split <;> rfl
  cases op with
  | block op => exact .inl ⟨op, rfl⟩
  | poll t =>
    simp only [exec, poll]
    split
    · exact .inr ⟨rfl, .inl rfl⟩
    · exact .inr ⟨rfl, .inr (.inr ⟨t, ⟨he.2.2, he.2.1⟩, rfl⟩)⟩
  | shouldAbort t =>
    simp only [exec, shouldAbort]
    split <;> exact .inr ⟨rfl, .inl rfl⟩
  | burstStep t => exact .inr ⟨hburst t, .inl (block_passBurst s t)⟩
  | halt t =>
    have hat : s.block.AtInstruction t := he.elim (·.2.1) (fun hr => hr.elim (·.2.1) (·.2.1))
    exact .inr ⟨hburst t,
      .inr (.inl ⟨t, hat, by simp [exec, endRun, setOutcome, setPhase, block_passBurst]⟩)⟩
  | doReturn t w =>
    have hat : s.block.AtInstruction t := he.elim (·.2.1) (·.2.1)
    exact .inr ⟨hburst t,
      .inr (.inl ⟨t, hat, by simp [exec, endRun, setOutcome, setPhase, block_passBurst]⟩)⟩
  | exhaust t => exact .inr ⟨rfl, .inr (.inl ⟨t, he.2.2.1, rfl⟩)⟩
  | _ => exact .inr ⟨rfl, .inl rfl⟩

/-- Whoever has gone to sleep with a request unseen is woken when the others are killed. -/
theorem wakeInv_execBlock {op : BlockOp Tid Mid} (h : s.block.WakeInv s.broadcast)
    (he : s.block.Enabled op) (hg : s.broadcast = true → s.block.SampleGuarded op) :
    (s.execBlock op).block.WakeInv (s.execBlock op).broadcast := by
  cases hends : s.endsBroadcast op with
  | false =>
    rw [show (s.execBlock op).broadcast = s.broadcast by simp [execBlock, hends]]
    exact h.exec he hg
  | true =>
    rw [show (s.execBlock op).broadcast = true by simp [execBlock, hends]]
    cases op with
    | notify t =>
      have hpos : ∃ rest, s.block.pos t = .finishing rest := by
        simp only [endsBroadcast] at hends
        split at hends
        · next rest hp => exact ⟨rest, hp⟩
        · cases hends
      obtain ⟨rest, hpos⟩ := hpos
      rw [show (s.execBlock (.notify t)).block = s.block.bump.setPos t .returned by
        simp [execBlock, BlockState.exec, BlockState.notify, hpos]]
      exact .bump h.since (by simp) (by simp)
    | _ => cases hends

namespace ExitInv

theorem exec (h : s.ExitInv) (he : s.Enabled op) (hg : s.ExitGuarded op) : (s.exec op).ExitInv := by
  have hblock : (s.exec op).block.WakeInv (s.exec op).broadcast ∧ (s.exec op).block.EventInv false := by
    rcases block_exec he with ⟨bop, rfl⟩ | ⟨hb, hsame | ⟨t, hat, hret⟩ | ⟨t, hfin, hexec⟩⟩
    · exact ⟨wakeInv_execBlock h.wake he.1 hg.1, h.event.exec h.wake.weaken he.1 (by simp)⟩
    · rw [hb, hsame]
      exact ⟨h.wake, h.event⟩
    · rw [hb, hret]
      exact ⟨h.wake.leave hat (by simp) (by simp), h.event.stop hat (by simp) (by simp)⟩
    · rw [hb, hexec]
      exact ⟨h.wake.exec hfin (fun _ => trivial), h.event.exec h.wake.weaken hfin (by simp)⟩
  exact ⟨hblock.1, hblock.2, status_exec h.status h.flag he hg, h.flag.exec h.event.registered he hg,
    h.spread.exec (h.status _) h.event.registered he hg⟩

omit [DecidableEq Mid] in
theorem new (main : Tid) (st : InterruptState) (word : Mid → PolyWord) :
    (ExitState.new main st word).ExitInv := by
  have hpos : ∀ t, ¬ ((BlockState.new main st word).pos t).Leaving := by
    intro t
    by_cases htm : t = main
    · simp [BlockState.new, htm]
    · simp [BlockState.new, htm]
  refine ⟨.new main st word, .new main st word, fun t => ?_, ?_, ?_⟩
  · exact .fresh rfl rfl rfl (by rintro ⟨e, he, -⟩; cases he) (hpos t)
  · exact ⟨fun hne => absurd rfl hne, fun hne => absurd rfl hne⟩
  · refine ⟨fun v rest hv => ?_, fun hb => ?_, ?_⟩
    · exact absurd (by simp [show (BlockState.new main st word).pos v = _ from hv]) (hpos v)
    · cases hb
    · rintro t ⟨e, he, -⟩
      cases he

end ExitInv

/-! ## The end of a run -/

/-- The flag holds the code of a request. -/
def Flagged (s : ExitState Tid Mid) : Prop :=
  ∃ e ∈ s.requested, finishRequested s.finishFlag = some e.2.untag

namespace EndsAlone

theorem cons (op : ExitOp Tid Mid) (hop : op.actor = t) (he : s.Enabled op) (h : (s.exec op).EndsAlone t) :
    s.EndsAlone t := by
  obtain ⟨ops, hactor, htrace, hcode⟩ := h
  refine ⟨op :: ops, ?_, ⟨he, trivial, htrace⟩, hcode⟩
  intro o ho
  rcases List.mem_cons.1 ho with rfl | ho
  · exact hop
  · exact hactor o ho

theorem now (h : s.ReturnsCode t) : s.EndsAlone t :=
  ⟨[], by simp, trivial, h⟩

/-- The thread looks at the flag. -/
theorem poll (hf : s.Flagged) (hr : s.Ready t .between) : s.EndsAlone t := by
  obtain ⟨e, he, hcode⟩ := hf
  refine cons (.poll t) rfl hr (now ⟨e, ?_, ?_⟩)
  · simp only [exec, ExitState.poll, hcode]
    exact he
  · simp only [exec, ExitState.poll, hcode]
    exact Function.update_self ..

/-- So does one that has consumed a kill. -/
theorem returnCode (hf : s.Flagged) (hpos : s.block.pos t = .returned) (hout : s.outcome t = none) :
    s.EndsAlone t := by
  obtain ⟨e, he, hcode⟩ := hf
  refine cons (.returnCode t) rfl ⟨hpos, hout⟩ (now ⟨e, he, ?_⟩)
  simp only [exec, ExitState.returnCode, hcode]
  exact Function.update_self ..

/-- An exception that has a handler is raised first. -/
theorem raising (hf : s.Flagged) (hr : s.Ready t .raising) : s.EndsAlone t :=
  cons (.doRaiseEx t) rfl hr (poll hf ⟨Function.update_self .., hr.2⟩)

/-- So is the interrupt that has been taken. -/
theorem clearCopy (hf : s.Flagged) (hat : s.block.AtInstruction t) (hd : s.block.delivery t = .clear) :
    s.EndsAlone t := by
  refine cons (.block (.clearCopy t)) rfl ⟨⟨hd, hat⟩, fun hi => by cases hi⟩ (raising hf ⟨?_, ?_, ?_⟩)
  · exact Function.update_self ..
  · rw [BlockState.atInstruction_iff]
    simp [exec, execBlock, BlockState.exec, BlockState.clearCopy]
  · simp [exec, execBlock, BlockState.exec, BlockState.clearCopy, BlockState.setPos,
      BlockState.setDelivery]

theorem exchangeNone (hf : s.Flagged) (hat : s.block.AtInstruction t)
    (hd : s.block.delivery t = .interrupt) : s.EndsAlone t := by
  have hat' : (s.block.exchangeNone t).AtInstruction t := by
    rw [BlockState.atInstruction_iff, BlockState.pos_exchangeNone]
    exact BlockState.atInstruction_iff.1 hat
  refine cons (.block (.exchangeNone t)) rfl ⟨⟨hd, hat⟩, fun hi => by cases hi⟩ ?_
  by_cases hint : s.block.requests t = .interrupt
  · refine clearCopy hf hat' ?_
    simp [exec, execBlock, BlockState.exec, BlockState.exchangeNone, hint, BlockState.setDelivery]
  · refine poll hf ⟨Function.update_self .., hat', ?_⟩
    simp [exec, execBlock, BlockState.exec, BlockState.exchangeNone, hint, BlockState.setDelivery]

theorem storeNone (hf : s.Flagged) (hat : s.block.AtInstruction t) (hd : s.block.delivery t = .kill)
    (hout : s.outcome t = none) : s.EndsAlone t := by
  refine cons (.block (.storeNone t)) rfl ⟨⟨hd, hat⟩, fun hi => by cases hi⟩
    (returnCode hf (BlockState.pos_setPos_self ..) ?_)
  simp [exec, execBlock, BlockOp.actor, ownOutcome, hout]

end EndsAlone

namespace ExitInv

/-- A thread that has taken a step since the request needs no other thread to end its run. -/
theorem endsAlone (h : s.ExitInv) (hst : s.stepped t = true) (hout : s.outcome t = none) :
    s.EndsAlone t := by
  have hgoing := (h.status t).going hst hout
  have hf : s.Flagged := by
    cases hc : finishRequested s.finishFlag with
    | none =>
      have hnil := h.flag.requested_of_none hc (hgoing.imp_right (fun hp => ⟨hp, hout⟩))
      exact absurd hnil ((h.status t).stepped hst).1
    | some code =>
      obtain ⟨e, he, hval⟩ := h.flag.requested_of_some hc
      exact ⟨e, he, by rw [hc, hval]⟩
  rcases hgoing with hml | hret
  · have hat := BlockState.atInstruction_iff.2 hml
    cases hd : s.block.delivery t with
    | kill => exact .storeNone hf hat hd hout
    | interrupt => exact .exchangeNone hf hat hd
    | clear => exact .clearCopy hf hat hd
    | idle =>
      rcases ((h.status t).stepped hst).2 with hp | hp | hp
      · exact .poll hf ⟨hp, hat, hd⟩
      · exact .cons (.endBurst t) rfl ⟨hp, hat, hd⟩
          (.poll hf ⟨Function.update_self .., hat, hd⟩)
      · exact .raising hf ⟨hp, hat, hd⟩
  · exact .returnCode hf hret hout

theorem exitsProperly (h : s.ExitInv) : s.ExitsProperly := by
  constructor
  · intro hst
    cases hout : s.outcome s.block.main with
    | none => exact .inr ⟨rfl, h.endsAlone hst hout⟩
    | some o =>
      refine .inl ((h.status _).code rfl hst ?_)
      rw [hout]
      simp
  · intro t ht hend u hu hut
    rcases h.spread.ended t ht hend with hb | hall
    · refine (h.spread.broadcast hb u hu).imp_right (fun hk => ⟨hk.1, ?_, hk.2⟩)
      have hwake : s.block.WakeInv true := hb ▸ h.wake
      exact hwake.not_stranded u
    · exact absurd (hall u hu) hut

end ExitInv

/-- In a guarded run the exit gets through to all threads. -/
theorem exitsProperly_of_guarded {main : Tid} {st : InterruptState} {word : Mid → PolyWord}
    (hrun : (exitMachine Tid Mid).Run ExitGuarded (new main st word) s) : s.ExitsProperly := by
  have hinv : s.ExitInv := hrun.invariant (I := ExitInv) (.new main st word)
    (fun _ _ h he hg => h.exec he hg)
  exact hinv.exitsProperly

end Exec

/-! ## Runs of two threads -/

section Traces

attribute [local instance] BlockState.neZero_two

/-- The main thread of two, about to look at the flag. -/
def start : ExitState (Fin 2) Unit := new 0 .synch (fun _ => PolyWord.tagged 0)

/-- Thread 0 requests an exit with code -1, and returns 5. -/
def minusOneRun : List (ExitOp (Fin 2) Unit) :=
  [.poll 0, .polyFinish 0 (PolyWord.tagged (-1)), .block (.loadRequests 0 false), .poll 0,
    .doReturn 0 (PolyWord.tagged 5)]

/-- Thread 0 starts thread 1. -/
def forkRun : List (ExitOp (Fin 2) Unit) := [.poll 0, .block (.fork 0 1 .synch), .poll 0, .poll 1]

/-- Thread 1 requests an exit with code 7, and processes its requests. -/
def requestRun : List (ExitOp (Fin 2) Unit) :=
  [.polyFinish 1 (PolyWord.tagged 7), .block (.loadRequests 1 false)]

/-- It sees the flag and kills thread 0. -/
def broadcastRun : List (ExitOp (Fin 2) Unit) :=
  [.poll 1, .block (.finishSnapshot 1), .block (.finishStore 1), .block (.notify 1)]

/-- Thread 0 waits for a signal, and is killed. -/
def signalWaitRun : List (ExitOp (Fin 2) Unit) :=
  forkRun ++ [.block (.waitForSignal 0), .block (.signalSample 0)] ++ requestRun ++ broadcastRun ++
    [.block (.wake 0), .block (.signalCheck 0)]

/-- Thread 0 has killed thread 1, and waits in the kernel when that consumes the kill. -/
def killedRun : List (ExitOp (Fin 2) Unit) :=
  forkRun ++ [.block (.makeThreadRequest 0 1 .kill), .block (.writeCopy 0), .block (.notify 0), .poll 0,
    .parkWhileBlocking 0 true] ++ requestRun ++
    [.block (.storeNone 1), .returnCode 1, .block (.exitParked 1), .block (.notify 1)]

/-- Thread 0 has started thread 1. -/
def forkedState : ExitState (Fin 2) Unit := (start.exec (.poll 0)).exec (.block (.fork 0 1 .synch))

/-- Thread 0 writes something, and then waits in the kernel while thread 1 requests an exit. -/
def parkedRun : List (ExitOp (Fin 2) Unit) :=
  [.poll 0, .poll 1, .parkWhileBlocking 0 false, .kernelReturn 0 false, .block (.loadRequests 0 false),
    .poll 0, .parkWhileBlocking 0 true] ++ requestRun ++ broadcastRun ++
    [.shouldAbort 0, .block (.loadRequests 0 false), .block (.storeNone 0), .returnCode 0]

/-- Thread 0 is killed, and the exit gets through. -/
theorem exitsProperly_parkedRun :
    (parkedRun.foldl exec forkedState).ExitsProperly ∧
      (parkedRun.foldl exec forkedState).outcome 0 = some (.returned (PolyWord.tagged 7)) ∧
      (parkedRun.foldl exec forkedState).stepped 0 = true := by
  have hnew : ∀ v rest, (start.poll 0).block.pos v ≠ .finishing rest := by
    refine Fin.forall_fin_two.2 ⟨fun rest h => ?_, fun rest h => ?_⟩
    · have hpos : (start.poll 0).block.pos 0 = .running := rfl
      cases hpos.symm.trans h
    · have hpos : (start.poll 0).block.pos 1 = .unborn := rfl
      cases hpos.symm.trans h
  have hpoll : (exitMachine (Fin 2) Unit).Run ExitGuarded start _ :=
    .step (ExitOp.poll 0) (.refl _) ⟨rfl, trivial, rfl⟩ trivial
  have hfork := hpoll.step (ExitOp.block (.fork 0 1 .synch)) ⟨⟨rfl, rfl, rfl⟩, fun _ => rfl⟩
    ⟨fun _ => trivial, fun hb => hb.elim (fun hb => by cases hb) (fun ⟨v, rest, hp⟩ => hnew v rest hp)⟩
  have htrace : (exitMachine (Fin 2) Unit).Trace ExitGuarded forkedState parkedRun := by
    simp [parkedRun, forkedState, requestRun, broadcastRun, Machine.Trace, exitMachine, Enabled,
      ExitGuarded, BlockGuarded, Ready, BlockReady, Informed, start, new, exec, poll, pass, setPhase,
      setOutcome, finishRequested, execBlock, polyFinish, phaseAfter, atSafepoint, ownOutcome,
      endsBroadcast, shouldAbort, BlockOp.actor, BlockOp.startsInstruction, BlockState.SampleGuarded,
      BlockState.new, BlockState.Enabled, BlockState.AtInstruction, BlockState.AtCheck,
      BlockState.exec, BlockState.loadRequests, BlockState.afterCheck, BlockState.fork,
      BlockState.finish, BlockState.finishSnapshot, BlockState.finishStore, BlockState.storeNone,
      BlockState.notify, BlockState.bump, BlockState.skipWait, BlockState.setPos,
      BlockState.setRequests, BlockState.setRequestCopy, BlockState.setInterruptState,
      BlockState.setDelivery, Function.update, finishWord, PolyWord.tagged, PolyWord.untag]
  exact ⟨exitsProperly_of_guarded (htrace.run_from hfork), by decide +kernel, by decide +kernel⟩

/-- The three runs are runs of the machine. -/
theorem lostRuns_trace :
    (exitMachine (Fin 2) Unit).Trace (fun _ _ => True) start minusOneRun ∧
      (exitMachine (Fin 2) Unit).Trace (fun _ _ => True) start signalWaitRun ∧
        (exitMachine (Fin 2) Unit).Trace (fun _ _ => True) start killedRun := by
  simp [minusOneRun, signalWaitRun, killedRun, forkRun, requestRun, broadcastRun, Machine.Trace,
    exitMachine, Enabled, Ready, BlockReady, start, new, exec, poll, pass, setPhase, setOutcome,
    finishRequested, execBlock, polyFinish, phaseAfter, returnCode, ownOutcome, BlockOp.actor,
    BlockOp.startsInstruction, BlockState.new, BlockState.Enabled, BlockState.AtInstruction,
    BlockState.AtCheck, BlockState.exec, BlockState.loadRequests, BlockState.afterCheck,
    BlockState.fork, BlockState.waitForSignal, BlockState.signalSample, BlockState.finish,
    BlockState.finishSnapshot, BlockState.finishStore, BlockState.notify, BlockState.bump,
    BlockState.wake, BlockState.makeThreadRequest, BlockState.writeCopy, BlockState.storeNone,
    BlockState.exitParked, BlockState.setPos, BlockState.setRequests, BlockState.setRequestCopy,
    BlockState.setInterruptState, BlockState.setDelivery, Request.code, Request.max, Function.update,
    finishWord, PolyWord.tagged, PolyWord.untag]

/-- Code -1 is no request; the main thread is killed for the exit and returns 0; and a thread that is
killed before it sees its own request kills nobody. -/
theorem exists_not_exitsProperly :
    (∃ s, (exitMachine (Fin 2) Unit).Reachable start s ∧ s.requested = [(0, PolyWord.tagged (-1))] ∧
      s.outcome 0 = some (.returned (PolyWord.tagged 5)) ∧ ¬ s.ExitsProperly) ∧
    (∃ s, (exitMachine (Fin 2) Unit).Reachable start s ∧ s.requested = [(1, PolyWord.tagged 7)] ∧
      s.outcome 0 = some (.returned (PolyWord.tagged 0)) ∧ ¬ s.ExitsProperly) ∧
    ∃ s, (exitMachine (Fin 2) Unit).Reachable start s ∧ s.requested = [(1, PolyWord.tagged 7)] ∧
      s.block.pos 1 = .exited ∧ s.phase 0 = .kernel true ∧ s.block.requests 0 = .none ∧
      ¬ s.ExitsProperly := by
  obtain ⟨hminus, hsignal, hkilled⟩ := lostRuns_trace
  refine ⟨⟨_, hminus.run, by decide, by decide, fun h => ?_⟩,
    ⟨_, hsignal.run, by decide, by decide, fun h => ?_⟩,
    ⟨_, hkilled.run, by decide, by decide, by decide, by decide, fun h => ?_⟩⟩
  · rcases h.root (by decide) with ⟨e, he, hcode⟩ | ⟨hout, -⟩
    · obtain rfl : e = (0, PolyWord.tagged (-1)) := List.mem_singleton.1 he
      revert hcode
      decide
    · revert hout
      decide
  · rcases h.root (by decide) with ⟨e, he, hcode⟩ | ⟨hout, -⟩
    · obtain rfl : e = (1, PolyWord.tagged 7) := List.mem_singleton.1 he
      revert hcode
      decide
    · revert hout
      decide
  · have hreq : (killedRun.foldl exec start).Requester 1 :=
      ⟨(1, PolyWord.tagged 7), List.mem_singleton.2 rfl, rfl⟩
    rcases h.others 1 hreq trivial 0 (by decide) (by decide) with hend | ⟨hk, -⟩
    · exact hend
    · revert hk
      decide

end Traces

end ExitState
