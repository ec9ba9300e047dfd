import PolymlRs.Sched.ExitStatus

set_option autoImplicit false

/-! # How the exit spreads

The flag stays set as long as there is a thread to see it (`FlagInv`). The thread that kills the others
has, at any time, only those left to kill that are on its list, and a thread that has requested an exit
ends its run only when all others are killed, or there are none (`SpreadInv`). -/

theorem eq_of_length_le_one {α : Type} {l : List α} {a b : α} (hl : ¬ l.length > 1) (ha : a ∈ l)
    (hb : b ∈ l) : a = b := by
  match l, hl with
  | [], _ => cases ha
  | [c], _ => exact (List.mem_singleton.1 ha).trans (List.mem_singleton.1 hb).symm
  | c :: d :: rest, hl => exact absurd (by simp) hl

namespace ExitState

variable {Tid Mid : Type} [DecidableEq Tid] [DecidableEq Mid] {s s' : ExitState Tid Mid}
  {op : ExitOp Tid Mid} {t u : Tid}

/-! ## The flag -/

/-- When all threads have ended, they can only go off the registry and wake their joiners. -/
theorem over_exec (h : s.Over) (he : s.Enabled op) : (s.exec op).Over := by
  have hself : ∀ t, s.block.AtInstruction t → False := fun t hat =>
    h.false (BlockState.atInstruction_iff.1 hat)
  cases op with
  | block op =>
    have hend : op = .exitParked op.actor ∨ op = .notify op.actor := by
      refine BlockState.gone_enabled he.1 ?_
      rcases h op.actor with hp | hp | hp | ⟨hp, -⟩ <;> simp [hp]
    intro u
    by_cases hu : u = op.actor
    · subst hu
      rcases hend with hop | hop
      · generalize op.actor = t at hop
        subst hop
        simp only [exec, execBlock, BlockState.exec, BlockState.exitParked, BlockState.setPos,
          BlockOp.actor, Function.update_self]
        split <;> simp
      · generalize op.actor = t at hop
        subst hop
        have hp : s.block.pos t = .exiting := by
          rcases h t with hp | hp | hp | ⟨hp, -⟩ <;> simp_all [BlockState.Enabled, Enabled]
        simp [exec, execBlock, BlockState.exec, BlockState.notify, BlockOp.actor, hp]
    · have hfork : ¬ op.Forks u := by
        rcases hend with hop | hop <;> rw [hop] <;> exact id
      have hun : Unmoved u s (s.exec (.block op)) := exec_unmoved hu hfork
      rw [hun.pos, hun.outcome]
      exact h u
  | returnCode t =>
    rcases h t with hp | hp | hp | ⟨-, ho⟩
    · cases hp.symm.trans he.1
    · cases hp.symm.trans he.1
    · cases hp.symm.trans he.1
    · exact absurd he.2 ho
  | burstStep t | doReturn t w => exact (he.elim (fun hr => hself t hr.2.1) (fun hr => hself t hr.2.1)).elim
  | halt t =>
    rcases he with hr | hr | hr <;> exact (hself t hr.2.1).elim
  | kernelReturn t raised =>
    obtain ⟨sliced, hr⟩ := he
    exact (hself t hr.2.1).elim
  | exhaust t => exact (hself t he.2.2.1).elim
  | _ => exact (hself _ he.2.1).elim

namespace FlagInv

omit [DecidableEq Tid] [DecidableEq Mid] in
/-- A step that leaves the flag alone. -/
theorem congr (h : s.FlagInv) (hflag : s'.finishFlag = s.finishFlag) (hreq : s'.requested = s.requested)
    (hover : s.Over → s'.Over) : s'.FlagInv := by
  constructor
  · rw [hflag, hreq]
    exact h.code
  · rw [hflag, hreq]
    exact fun hne h0 => hover (h.cleared hne h0)

omit [DecidableEq Mid] in
/-- The last thread clears the flag. -/
theorem poll (h : s.FlagInv) (hreg : ∀ u, (s.block.pos u).Alive → u ∈ s.block.registry)
    (hr : s.Ready t .between) : (s.poll t).FlagInv := by
  have hml := BlockState.atInstruction_iff.1 hr.2.1
  rw [ExitState.poll]
  split
  · exact h.congr rfl rfl (fun hover => (hover.false hml).elim)
  · next code hcode =>
    have hne : s.finishFlag ≠ 0#64 := by
      intro h0
      rw [finishRequested, if_pos h0] at hcode
      cases hcode
    obtain ⟨e, he, hword, hneg⟩ := h.code hne
    by_cases hlen : s.block.registry.length > 1
    · refine ⟨fun _ => ⟨e, he, ?_, hneg⟩, fun _ h0 => ?_⟩
      · rw [if_pos hlen, hword]
      · rw [if_pos hlen] at h0
        exact absurd h0 hne
    · refine ⟨fun h0 => absurd (if_neg hlen) h0, fun _ _ u => ?_⟩
      by_cases hut : u = t
      · subst hut
        right; right; right
        simp [BlockState.finish, hlen, setOutcome]
      · have hdead : ¬ (s.block.pos u).Alive := fun halive =>
          hut (eq_of_length_le_one hlen (hreg u halive) (hreg t hml.alive))
        have hpos : (s.block.finish t).pos u = s.block.pos u := BlockState.pos_setPos_ne _ _ hut
        simp only [hpos]
        cases hp : s.block.pos u <;> simp_all

theorem exec (h : s.FlagInv) (hreg : ∀ u, (s.block.pos u).Alive → u ∈ s.block.registry)
    (he : s.Enabled op) (hg : s.ExitGuarded op) : (s.exec op).FlagInv := by
  have hover : s.Over → (s.exec op).Over := fun ho => over_exec ho he
  cases op with
  | poll t => exact h.poll hreg he
  | polyFinish t exitCode =>
    refine ⟨fun _ => ⟨(t, exitCode), List.mem_cons_self .., rfl, hg⟩, fun _ h0 => ?_⟩
    exact absurd (finishWord_eq_zero.1 h0) hg
  | shouldAbort t =>
    refine h.congr ?_ ?_ hover
    · simp only [ExitState.exec, shouldAbort]
      split <;> rfl
    · simp only [ExitState.exec, shouldAbort]
      split <;> rfl
  | burstStep t | halt t | doReturn t w =>
    refine h.congr ?_ ?_ hover
    · simp only [ExitState.exec, passBurst]
      split <;> rfl
    · simp only [ExitState.exec, passBurst]
      split <;> rfl
  | _ => exact h.congr rfl rfl hover

end FlagInv

/-! ## The broadcast -/

omit [DecidableEq Tid] [DecidableEq Mid] in
/-- Killed and not in a kernel call that does not look for requests, or past that. -/
def Reached (s : ExitState Tid Mid) (u : Tid) : Prop :=
  (s.block.pos u).Ended ∨ s.block.requests u = .kill ∧ s.phase u ≠ .kernel false

/-- Who is left to kill is on the list of the thread that kills the others, and nobody is left when a
thread that has requested an exit has ended its run. -/
structure SpreadInv (s : ExitState Tid Mid) : Prop where
  finishing : ∀ v rest, s.block.pos v = .finishing rest →
    ∀ u ∈ s.block.registry, u ≠ v → u ∈ rest ∨ s.Reached u
  broadcast : s.broadcast = true → ∀ u ∈ s.block.registry, s.Reached u
  ended : ∀ t, s.Requester t → (s.block.pos t).Ended →
    s.broadcast = true ∨ ∀ u ∈ s.block.registry, u = t

omit [DecidableEq Mid] in
theorem update_phase_ne {f : Tid → StepPhase} {p q : StepPhase} (hp : p ≠ q) (h : f u ≠ q) :
    Function.update f t p u ≠ q := by
  by_cases hut : u = t
  · rw [hut, Function.update_self]
    exact hp
  · rw [Function.update_of_ne hut]
    exact h

omit [DecidableEq Mid] in
/-- No step of the blocking calls is the beginning of a kernel call. -/
theorem phaseAfter_ne_kernel (s : ExitState Tid Mid) (op : BlockOp Tid Mid)
    (sliced : Bool) : s.phaseAfter op ≠ .kernel sliced := by
  cases op with
  | loadRequests t synch =>
    simp only [phaseAfter]
    split <;> simp
  | _ => simp [phaseAfter]

theorem execBlock_phase {op : BlockOp Tid Mid} (h : s.phase u ≠ .kernel false) :
    (s.execBlock op).phase u ≠ .kernel false :=
  update_phase_ne (phaseAfter_ne_kernel s op false) h

theorem reached_execBlock {op : BlockOp Tid Mid} (he : s.block.Enabled op) (hf : ¬ op.Forks u)
    (h : s.Reached u) : (s.execBlock op).Reached u := by
  rcases h with hend | ⟨hk, hp⟩
  · exact .inl (BlockState.exec_ended he hend)
  · rcases (BlockState.exec_effect op s.block).kill u hk hf with hk' | rfl
    · exact .inr ⟨hk', execBlock_phase hp⟩
    · exact .inl (by simp [execBlock, BlockState.exec, BlockState.storeNone])

/-- The ways a thread ends its run within the blocking calls. -/
theorem ended_of_exec {op : BlockOp Tid Mid} (he : s.block.Enabled op) (hr : s.BlockReady op)
    (hnot : ¬ (s.block.pos op.actor).Ended) (hend : ((s.block.exec op).pos op.actor).Ended) :
    op = .killSelf op.actor ∨ op = .storeNone op.actor ∨ s.block.pos op.actor = .signalWoken ∨
      s.endsBroadcast op = true := by
  by_cases hplain : s.block.Plain op
  · exact absurd hend.leaving (hplain.not_leaving he)
  cases op with
  | killSelf t => exact .inl rfl
  | storeNone t => exact .inr (.inl rfl)
  | signalCheck t => exact .inr (.inr (.inl he))
  | finish t => exact hr.elim
  | finishSnapshot t =>
    simp [BlockState.exec, BlockState.finishSnapshot, BlockOp.actor] at hend
  | finishStore t =>
    obtain ⟨u, rest, hpos⟩ := he
    simp [BlockState.exec, BlockState.finishStore, BlockOp.actor, hpos] at hend
  | loadRequests t synch =>
    have hml := BlockState.AtCheck.afterCheck he.2.1
    rw [← BlockState.pos_loadRequests s.block t synch] at hml
    exact absurd hend.leaving hml.not_leaving
  | exchangeNone t =>
    exact absurd (BlockState.pos_exchangeNone s.block t ▸ hend) hnot
  | clearCopy t => simp [BlockState.exec, BlockState.clearCopy, BlockOp.actor] at hend
  | exitParked t => exact absurd (by simp [BlockOp.actor, show s.block.pos t = _ from he]) hnot
  | notify t =>
    rcases BlockState.notify_leaving he (not_not.1 hplain) with hp | hp
    · exact .inr (.inr (.inr (by simp [endsBroadcast, hp])))
    · exact absurd (by simp [BlockOp.actor, hp]) hnot
  | _ => exact absurd trivial hplain

/-- The list of a thread that kills the others is the registry, and then what is left of it. -/
theorem finishing_of_exec {op : BlockOp Tid Mid} (he : s.block.Enabled op) (hr : s.BlockReady op)
    {rest : List Tid} (hpos : (s.block.exec op).pos op.actor = .finishing rest) :
    (op = .finishSnapshot op.actor ∧ rest = s.block.registry.filter (fun u => decide (u ≠ op.actor))) ∨
      op = .finishStore op.actor ∧ ∃ w, s.block.pos op.actor = .finishing (w :: rest) ∧
        (s.block.exec op).requests w = .kill := by
  by_cases hplain : s.block.Plain op
  · exact absurd (by simp [hpos]) (hplain.not_leaving he)
  cases op with
  | finishSnapshot t =>
    simp only [BlockState.exec, BlockState.finishSnapshot, BlockOp.actor, BlockState.pos_setPos_self,
      BlockPos.finishing.injEq] at hpos
    exact .inl ⟨rfl, hpos.symm⟩
  | finishStore t =>
    obtain ⟨w, rest', hold⟩ := he
    simp only [BlockState.exec, BlockState.finishStore, BlockOp.actor, hold, BlockState.pos_setPos_self,
      BlockPos.finishing.injEq] at hpos
    subst hpos
    refine .inr ⟨rfl, w, hold, ?_⟩
    simp [BlockState.exec, BlockState.finishStore, hold, BlockState.setRequests, BlockState.setPos]
  | finish t => exact hr.elim
  | killSelf t => simp [BlockState.exec, BlockOp.actor] at hpos
  | storeNone t => simp [BlockState.exec, BlockState.storeNone, BlockOp.actor] at hpos
  | clearCopy t => simp [BlockState.exec, BlockState.clearCopy, BlockOp.actor] at hpos
  | signalCheck t =>
    simp only [BlockState.exec, BlockState.signalCheck, BlockOp.actor, BlockState.pos_setPos_self] at hpos
    split at hpos <;> cases hpos
  | loadRequests t synch =>
    have hml := BlockState.AtCheck.afterCheck he.2.1
    rw [← BlockState.pos_loadRequests s.block t synch] at hml
    exact absurd (by simp [show (s.block.loadRequests t synch).pos t = _ from hpos]) hml.not_leaving
  | exchangeNone t =>
    have hml := BlockState.atInstruction_iff.1 he.2
    rw [← BlockState.pos_exchangeNone s.block t] at hml
    exact absurd (by simp [show (s.block.exchangeNone t).pos t = _ from hpos]) hml.not_leaving
  | exitParked t =>
    simp only [BlockState.exec, BlockState.exitParked, BlockState.setPos, BlockOp.actor,
      Function.update_self] at hpos
    split at hpos <;> cases hpos
  | notify t =>
    rcases BlockState.notify_leaving he (not_not.1 hplain) with hp | hp <;>
      simp [BlockState.exec, BlockState.notify, BlockOp.actor, hp] at hpos
  | _ => exact absurd trivial hplain

namespace SpreadInv

/-- A step of one thread, none being forked. -/
theorem execBlock {op : BlockOp Tid Mid} (h : s.SpreadInv) (hstat : s.Status op.actor)
    (hreg : (s.block.pos op.actor).Alive → op.actor ∈ s.block.registry) (he : s.block.Enabled op)
    (hr : s.BlockReady op) (hg : s.BlockGuarded op) (hf : ∀ u, ¬ op.Forks u) :
    (s.execBlock op).SpreadInv := by
  have heff := BlockState.exec_effect op s.block
  have hmem : ∀ u ∈ (s.block.exec op).registry, u ∈ s.block.registry :=
    fun u hu => (heff.registry u hu).resolve_right (hf u)
  have hkeep : ∀ u, s.Reached u → (s.execBlock op).Reached u :=
    fun u hu => reached_execBlock he (hf u) hu
  have hends : s.endsBroadcast op = true → ∀ u ∈ s.block.registry, (s.execBlock op).Reached u := by
    intro hb u hu
    cases op with
    | notify t =>
      have hlv : (s.block.pos t).Leaving := by
        simp only [endsBroadcast] at hb
        split at hb <;> simp_all
      rcases BlockState.notify_leaving he hlv with hp | hp
      · by_cases hut : u = t
        · subst hut
          exact .inl (by simp [ExitState.execBlock, BlockState.exec, BlockState.notify, hp])
        · exact hkeep u ((h.finishing t [] hp u hu hut).resolve_left (by simp))
      · simp [endsBroadcast, hp] at hb
    | _ => cases hb
  refine ⟨fun v rest hv u hu huv => ?_, fun hb u hu => ?_, fun t ht hend => ?_⟩
  · by_cases hva : v = op.actor
    · subst hva
      rcases finishing_of_exec he hr hv with ⟨-, hrest⟩ | ⟨hop, w, hold, hkill⟩
      · exact .inl (by simp [hrest, hmem u hu, huv])
      · rcases h.finishing _ _ hold u (hmem u hu) huv with hin | hreach
        · rcases List.mem_cons.1 hin with rfl | hin
          · rw [hop] at hg
            exact .inr (.inr ⟨hkill, execBlock_phase (hg u rest hold)⟩)
          · exact .inl hin
        · exact .inr (hkeep u hreach)
    · have hold : s.block.pos v = .finishing rest := (heff.others v hva (hf v)).1 ▸ hv
      exact (h.finishing v rest hold u (hmem u hu) huv).imp_right (hkeep u)
  · rcases Bool.or_eq_true_iff.1 hb with hb | hb
    · exact hkeep u (h.broadcast hb u (hmem u hu))
    · exact hends hb u (hmem u hu)
  · by_cases hold : (s.block.pos t).Ended
    · exact (h.ended t ht hold).imp (fun hb => by simp [ExitState.execBlock, hb])
        (fun hall u hu => hall u (hmem u hu))
    · by_cases hta : t = op.actor
      · subst hta
        rcases ended_of_exec he hr hold hend with hop | hop | hpos | hb
        · rw [hop] at hr
          exact absurd ht (hstat.not_requester (.inl (hr rfl)))
        · rw [hop] at hg he
          have hml := BlockState.atInstruction_iff.1 he.2
          refine (hg ht).imp (fun hb => by simp [ExitState.execBlock, hb]) (fun hlen u hu => ?_)
          exact eq_of_length_le_one (Nat.not_lt.2 hlen) (hmem u hu)
            (hreg hml.alive)
        · rcases (hstat.requester ht).1 with hp | hp <;> simp [hpos] at hp
        · exact .inl (by simp [ExitState.execBlock, hb])
      · exact absurd ((heff.others t hta (hf t)).1 ▸ hend) hold

/-- A new thread is not on any list, but there is none any more. -/
theorem fork (h : s.SpreadInv) (hreg : ∀ u, (s.block.pos u).Alive → u ∈ s.block.registry) {child : Tid}
    {st : InterruptState} (he : s.block.Enabled (.fork t child st))
    (hg : s.BlockGuarded (.fork t child st)) : (s.execBlock (.fork t child st)).SpreadInv := by
  have hpos : ∀ u, u ≠ child → (s.block.fork child st).pos u = s.block.pos u :=
    fun u hu => BlockState.pos_setPos_ne _ _ hu
  have hchild : (s.block.fork child st).pos child = .running := BlockState.pos_setPos_self ..
  have hnone : s.broadcast = false := by
    by_contra hb
    exact hg (.inl (by simpa using hb))
  refine ⟨fun v rest hv => ?_, fun hb => ?_, fun u hu hend => ?_⟩
  · by_cases hvc : v = child
    · subst hvc
      cases hchild.symm.trans hv
    · exact absurd (.inr ⟨v, rest, (hpos v hvc).symm.trans hv⟩) hg
  · simp [ExitState.execBlock, endsBroadcast, hnone] at hb
  · exfalso
    have huc : u ≠ child := by
      rintro rfl
      rw [show ((s.execBlock (.fork t u st)).block.pos u) = .running from hchild] at hend
      exact hend
    rw [show ((s.execBlock (.fork t child st)).block.pos u) = s.block.pos u from hpos u huc] at hend
    rcases h.ended u hu hend with hb | hall
    · rw [hnone] at hb
      cases hb
    · -- the thread that forks is registered, and has not ended
      have ht : t = u := hall t (hreg t (by simp [he.2.1]))
      rw [← ht, he.2.1] at hend
      exact hend

omit [DecidableEq Tid] [DecidableEq Mid] in
/-- A thread in ML goes elsewhere. -/
theorem move (h : s.SpreadInv) (hml : (s.block.pos t).InMl)
    (hreg : s'.block.registry = s.block.registry) (hreq : s'.block.requests = s.block.requests)
    (hb : s'.broadcast = s.broadcast)
    (hphase : ∀ u, s.Broadcasting → s.block.requests u = .kill → s.phase u ≠ .kernel false →
      s'.phase u ≠ .kernel false)
    (hpos : ∀ u, u ≠ t → s'.block.pos u = s.block.pos u)
    (hnot : ∀ rest, s'.block.pos t ≠ .finishing rest)
    (hrt : ∀ u, u ≠ t → s'.Requester u → s.Requester u)
    (hend : s'.Requester t → (s'.block.pos t).Ended →
      s.broadcast = true ∨ ∀ u ∈ s.block.registry, u = t) : s'.SpreadInv := by
  have hkeep : s.Broadcasting → ∀ u, s.Reached u → s'.Reached u := by
    intro hbr u hu
    refine hu.imp (fun hended => ?_) (fun hk => ⟨by rw [hreq]; exact hk.1, hphase u hbr hk.1 hk.2⟩)
    by_cases hut : u = t
    · subst hut
      exact absurd hended.leaving hml.not_leaving
    · rw [hpos u hut]
      exact hended
  refine ⟨fun v rest hv u hu huv => ?_, fun hbr u hu => ?_, fun u hu hended => ?_⟩
  · by_cases hvt : v = t
    · subst hvt
      exact absurd hv (hnot rest)
    · have hold : s.block.pos v = .finishing rest := hpos v hvt ▸ hv
      exact (h.finishing v rest hold u (hreg ▸ hu) huv).imp_right (hkeep (.inr ⟨v, rest, hold⟩) u)
  · have hold : s.broadcast = true := hb ▸ hbr
    exact hkeep (.inl hold) u (h.broadcast hold u (hreg ▸ hu))
  · rw [hb, hreg]
    by_cases hut : u = t
    · subst hut
      exact hend hu hended
    · exact h.ended u (hrt u hut hu) (hpos u hut ▸ hended)

omit [DecidableEq Tid] [DecidableEq Mid] in
/-- A thread in ML stays there. -/
theorem stay (h : s.SpreadInv) (hml : (s.block.pos t).InMl) (hblock : s'.block = s.block)
    (hb : s'.broadcast = s.broadcast)
    (hphase : ∀ u, s.Broadcasting → s.block.requests u = .kill → s.phase u ≠ .kernel false →
      s'.phase u ≠ .kernel false)
    (hrt : ∀ u, u ≠ t → s'.Requester u → s.Requester u) : s'.SpreadInv := by
  refine h.move hml (by rw [hblock]) (by rw [hblock]) hb hphase (fun u _ => by rw [hblock]) ?_ hrt ?_
  · intro rest hp
    rw [hblock] at hp
    simp [hp] at hml
  · intro _ hend
    rw [hblock] at hend
    exact absurd hend.leaving hml.not_leaving

omit [DecidableEq Mid] in
/-- A thread that has requested an exit ends its run only when the others know. -/
theorem endRun (h : s.SpreadInv) (hml : (s.block.pos t).InMl) (hinf : s.Requester t → s.Informed)
    (hreg : t ∈ s.block.registry) (o : RunOutcome) : (s.endRun t o).SpreadInv := by
  have hpos : (s.endRun t o).block.pos t = .returned := BlockState.pos_setPos_self ..
  refine h.move hml rfl rfl rfl (fun _ _ _ => update_phase_ne (by simp))
    (fun u hu => BlockState.pos_setPos_ne _ _ hu) ?_ (fun _ _ => id) ?_
  · intro rest hp
    cases hpos.symm.trans hp
  · intro hr _
    exact (hinf hr).imp_right (fun hlen u hu => eq_of_length_le_one (Nat.not_lt.2 hlen) hu hreg)

omit [DecidableEq Mid] in
theorem poll (h : s.SpreadInv) (hml : (s.block.pos t).InMl) (hreg : t ∈ s.block.registry) :
    (s.poll t).SpreadInv := by
  rw [ExitState.poll]
  split
  · exact h.stay hml rfl rfl (fun _ _ _ => update_phase_ne (by simp)) (fun _ _ => id)
  · next code hcode =>
    have hpos : (s.block.finish t).pos t =
        if s.block.registry.length > 1 then .finishEntered else .returned :=
      BlockState.pos_setPos_self ..
    refine h.move hml rfl rfl rfl (fun _ _ _ => id) (fun u hu => BlockState.pos_setPos_ne _ _ hu) ?_
      (fun _ _ => id) ?_
    · intro rest hp
      have hp' := hpos.symm.trans hp
      split at hp' <;> cases hp'
    · intro _ hend
      have hend' : ((s.block.finish t).pos t).Ended := hend
      rw [hpos] at hend'
      by_cases hlen : s.block.registry.length > 1
      · rw [if_pos hlen] at hend'
        exact hend'.elim
      · exact .inr (fun u hu => eq_of_length_le_one hlen hu hreg)

omit [DecidableEq Mid] in
theorem passBurst (h : s.SpreadInv) (hml : (s.block.pos t).InMl) : (s.passBurst t).SpreadInv := by
  rw [ExitState.passBurst]
  split
  · exact h.stay hml rfl rfl (fun _ _ _ => id) (fun _ _ => id)
  · exact h

omit [DecidableEq Mid] in
theorem leaveRun (h : s.SpreadInv) (hml : (s.block.pos t).InMl) (hinf : s.Requester t → s.Informed)
    (hreg : t ∈ s.block.registry) (o : RunOutcome) : ((s.passBurst t).endRun t o).SpreadInv := by
  rw [ExitState.passBurst]
  split
  · have hpass : (s.pass t).SpreadInv := h.stay hml rfl rfl (fun _ _ _ => id) (fun _ _ => id)
    exact hpass.endRun hml hinf hreg o
  · exact h.endRun hml hinf hreg o

theorem exec (h : s.SpreadInv) (hstat : s.Status op.actor)
    (hreg : ∀ u, (s.block.pos u).Alive → u ∈ s.block.registry) (he : s.Enabled op)
    (hg : s.ExitGuarded op) : (s.exec op).SpreadInv := by
  have hml : ∀ t, s.block.AtInstruction t → (s.block.pos t).InMl :=
    fun t => BlockState.atInstruction_iff.1
  have hmem : ∀ t, s.block.AtInstruction t → t ∈ s.block.registry :=
    fun t hat => hreg t (hml t hat).alive
  cases op with
  | block op =>
    cases op with
    | fork t child st => exact h.fork hreg he.1 hg.2
    | _ => exact h.execBlock hstat (hreg _) he.1 he.2 hg.2 (fun _ => id)
  | poll t => exact h.poll (hml t he.2.1) (hmem t he.2.1)
  | polyFinish t exitCode =>
    refine h.stay (hml t he.2.1) rfl rfl (fun _ _ _ => update_phase_ne (by simp)) (fun u hu => ?_)
    rintro ⟨e, hmem, heq⟩
    rcases List.mem_cons.1 hmem with rfl | hmem
    · exact absurd heq.symm hu
    · exact ⟨e, hmem, heq⟩
  | shouldAbort t =>
    simp only [ExitState.exec, shouldAbort]
    split
    · exact h.stay (hml t he.2.1) rfl rfl (fun _ _ _ => update_phase_ne (by simp)) (fun _ _ => id)
    · exact h
  | burstStep t =>
    have hat : s.block.AtInstruction t := he.elim (·.2.1) (·.2.1)
    exact (h.passBurst (hml t hat)).stay (t := t) (by rw [block_passBurst]; exact hml t hat) rfl rfl
      (fun _ _ _ => update_phase_ne (by simp)) (fun _ _ => id)
  | kernelReturn t raised =>
    obtain ⟨sliced, hr⟩ := he
    exact h.stay (hml t hr.2.1) rfl rfl (fun _ _ _ => update_phase_ne (by simp)) (fun _ _ => id)
  | parkWhileBlocking t sliced =>
    refine h.stay (hml t he.2.1) rfl rfl (fun u hb hk hp => ?_) (fun _ _ => id)
    by_cases hut : u = t
    · -- a thread that is killed waits only where it looks for requests
      subst hut
      obtain rfl : sliced = true := hg hb hk
      simp [ExitState.exec, ExitState.setPhase]
    · exact (Function.update_of_ne hut ..).trans_ne hp
  | halt t =>
    have hat : s.block.AtInstruction t := he.elim (·.2.1) (fun hr => hr.elim (·.2.1) (·.2.1))
    exact h.leaveRun (hml t hat) hg.2 (hmem t hat) _
  | doReturn t w =>
    have hat : s.block.AtInstruction t := he.elim (·.2.1) (·.2.1)
    exact h.leaveRun (hml t hat) (fun hr => absurd hr (hstat.not_requester (he.imp (·.1) (·.1))))
      (hmem t hat) _
  | exhaust t =>
    refine h.endRun (hml t he.2.2.1) (fun hr => ?_) (hmem t he.2.2.1) _
    have hst := hstat.stepped_of_requester (by simp [ExitOp.actor, he.2.1]) hr
    exact absurd (hst.symm.trans hg) (by simp)
  | returnCode t => exact ⟨h.finishing, h.broadcast, h.ended⟩
  | _ => exact h.stay (hml _ he.2.1) rfl rfl (fun _ _ _ => update_phase_ne (by simp)) (fun _ _ => id)

end SpreadInv

end ExitState
