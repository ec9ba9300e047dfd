import PolymlRs.Interp.StepBurst

set_option autoImplicit false

/-! # A burst is as many steps

What the fast tier does with an instruction is what `step_one` does with it, and where it gives the
instruction up it has done nothing of it. -/

open Fallible

variable {R : Type} {env : StepEnv R} {l l' : Locals} {s s' : StepState R}

theorem ptrOffset_add (p k : Nat) (off : Int) : ptrOffset (p + k) off = ptrOffset p (k + off) := by
  rw [ptrOffset, ptrOffset, Int.natCast_add, Int.add_assoc]

/-! ## Helpers on written-back copies -/

namespace StepRun

theorem exec_fetchU8 (h : l.pc < s.interp.codeEnd) :
    (fetchU8 : StepRun R UInt8).exec (s.commit l) =
      (.ok (s.memory.byteAt l.pc), s.commit { l with pc := l.pc + 1 }) :=
  if_neg (Nat.not_le.2 h)

theorem exec_push (w : PolyWord) (h : l.sp ≠ 0) :
    (push w).exec (s.commit l) = (.ok (), (s.setSlot (l.sp - 1) w).commit { l with sp := l.sp - 1 }) := by
  have hpush : (s.commit l).interp.push w =
      .ok ((s.commit l).interp.withStack (s.interp.stack.set (l.sp - 1) w) (l.sp - 1)) := if_neg h
  rw [push, exec_make, hpush]
  rfl

theorem exec_pop (h : l.sp < s.interp.stack.length) :
    (pop : StepRun R PolyWord).exec (s.commit l) =
      (.ok (s.slot l.sp), s.commit { l with sp := l.sp + 1 }) := by
  have hslot : (s.commit l).interp.stack[(s.commit l).interp.sp]? = some (s.slot l.sp) := by
    rw [StepState.slot, List.getD_eq_getElem _ _ h]
    exact List.getElem?_eq_getElem h
  have hpop : (s.commit l).interp.pop =
      .ok (s.slot l.sp, (s.commit l).interp.withStack s.interp.stack (l.sp + 1)) := by
    unfold Interpreter.pop
    rw [hslot]
    rfl
  rw [pop, exec_make, hpop]
  rfl

theorem exec_peek {depth : Nat} (h : l.sp + depth < s.interp.stack.length) :
    (peek depth).exec (s.commit l) = (.ok (s.slot (l.sp + depth)), s.commit l) :=
  if_neg (Nat.not_le.2 h)

theorem exec_pushContinue (w : PolyWord) (h : l.sp ≠ 0) :
    (pushContinue w).exec (s.commit l) =
      (.ok .continue, (s.setSlot (l.sp - 1) w).commit { l with sp := l.sp - 1 }) :=
  exec_bind_ok _ (exec_push w h)

theorem exec_dupLocal {depth : Nat} (h : l.sp + depth < s.interp.stack.length) (h0 : l.sp ≠ 0) :
    (dupLocal depth).exec (s.commit l) =
      (.ok .continue, (s.setSlot (l.sp - 1) (s.slot (l.sp + depth))).commit { l with sp := l.sp - 1 }) :=
  (exec_bind_ok _ (exec_peek h)).trans (exec_pushContinue _ h0)

/-- A jump that stays in the code object. -/
theorem exec_pcOffsetSigned {delta : Int} {pc : Nat} (hpc : ptrOffset l.pc delta = pc)
    (hlo : s.interp.codeStart ≤ pc) (hhi : pc ≤ s.interp.codeEnd) :
    (pcOffsetSigned delta).exec (s.commit l) = (.ok (), s.commit { l with pc }) := by
  subst hpc
  have hin : ((s.commit l).setPc (ptrOffset l.pc delta)).pcInBounds = true := by
    rw [StepState.pcInBounds, Bool.or_eq_true, decide_eq_true_eq]
    exact .inr ⟨hlo, hhi⟩
  exact if_pos hin

end StepRun

/-! ## The fast tier, arm by arm -/

/-- The copies agree with the interpreter where they are not written back. -/
structure Loaded (l : Locals) (s : StepState R) : Prop where
  codeStart : s.interp.codeStart = l.codeStart
  codeEnd : s.interp.codeEnd = l.codeEnd
  fast : s.Fast

theorem Loaded.locals (h : s.Fast) : Loaded s.locals s := ⟨rfl, rfl, h⟩

theorem Loaded.moved (h : Loaded l s) (pc sp : Nat) : Loaded { l with pc, sp } s :=
  ⟨h.codeStart, h.codeEnd, h.fast⟩

theorem Loaded.setSlot (h : Loaded l s) (i : Nat) (w : PolyWord) : Loaded l (s.setSlot i w) :=
  ⟨h.codeStart, h.codeEnd, h.fast⟩

namespace TierStep

/-- What the fast tier has done is what came of `step_one`. -/
def Follows (run : Except StepError StepResult × StepState R) : TierStep R → Prop
  | .abandon => True
  | .next l s => run = (.ok .continue, s.commit l) ∧ Loaded l s
  | .stop s => run = (.ok .continue, s)
  | .leave r s => run = (r, s) ∧ outcome r = some r

variable {run : Except StepError StepResult × StepState R}

theorem jumpTo_follows (h : Loaded l s) {pc : Nat}
    (hrun : s.interp.codeStart ≤ pc → pc ≤ s.interp.codeEnd →
      run = (.ok .continue, s.commit { l with pc })) : (jumpTo l s pc).Follows run := by
  unfold jumpTo
  split
  · trivial
  · rename_i hpc
    have hlo := h.codeStart
    have hhi := h.codeEnd
    exact ⟨hrun (by omega) (by omega), h.moved pc l.sp⟩

theorem binary_follows (h : Loaded l s) {f : PolyWord → PolyWord → Option PolyWord}
    {k : PolyWord → PolyWord → StepRun R StepResult}
    (hk : ∀ x y w, f x y = some w → k x y = StepRun.pushContinue w) :
    (binary l s f).Follows ((do
      let x ← StepRun.pop
      let y ← StepRun.pop
      k x y : StepRun R StepResult).exec (s.commit { l with pc := l.pc + 1 })) := by
  unfold binary
  split
  · trivial
  rename_i hlen
  replace hlen : l.sp + 1 < s.interp.stack.length := Nat.not_le.1 hlen
  split
  · trivial
  rename_i w hw
  refine ⟨?_, (h.moved _ _).setSlot _ _⟩
  refine Eq.trans (exec_bind_ok _ (StepRun.exec_pop (Nat.lt_of_succ_lt hlen))) ?_
  refine Eq.trans (exec_bind_ok _ (StepRun.exec_pop hlen)) ?_
  rw [hk _ _ w hw]
  exact StepRun.exec_pushContinue w (Nat.succ_ne_zero _)

theorem frontier_follows {c : StepRun R StepResult} (h : Loaded l s)
    (hc : c.Preserves StepState.Quiet) : (frontier l s c).Follows (c.exec (s.commit l)) := by
  have hquiet := hc (s.commit l) h.fast.1
  unfold frontier
  split
  · rename_i t ht
    rw [ht] at hquiet ⊢
    split
    · rfl
    · rename_i hstart
      exact ⟨rfl, .locals ⟨hquiet, hstart⟩⟩
  · rename_i r t hr ht
    rw [ht]
    refine ⟨rfl, ?_⟩
    unfold outcome
    split
    · exact (hr rfl).elim
    · rfl

end TierStep

/-! ### Calls and returns -/

namespace StepRun

theorem push_preserves (w : PolyWord) : (push w : StepRun R Unit).Preserves StepState.Quiet := by
  refine .make (fun s hs => ?_)
  unfold Interpreter.push
  split
  · exact hs
  · rename_i h
    split at h <;> cases h
    exact hs

theorem pop_preserves : (pop : StepRun R PolyWord).Preserves StepState.Quiet := by
  refine .make (fun s hs => ?_)
  unfold Interpreter.pop
  split
  · exact hs
  · rename_i h
    split at h <;> cases h
    exact hs

theorem popMany_preserves : ∀ n, (popMany n : StepRun R Unit).Preserves StepState.Quiet
  | 0 => .pure ()
  | n + 1 => .bind pop_preserves (fun _ => popMany_preserves n)

theorem popFrame_preserves (retPc : Nat) :
    (popFrame retPc : StepRun R StepResult).Preserves StepState.Quiet := by
  refine .make (fun s hs => ?_)
  split
  · exact hs
  · exact hs

theorem doReturn_preserves (n : Nat) : (doReturn n : StepRun R StepResult).Preserves StepState.Quiet :=
  .bind pop_preserves fun _ => .bind pop_preserves fun _ => .bind pop_preserves fun _ =>
    .bind (popMany_preserves n) fun _ => .bind (push_preserves _) fun _ =>
      .ite (.bind pop_preserves fun _ => .pure _) (popFrame_preserves _)

theorem readPcConst_preserves (env : StepEnv R) (byteOff idx : Nat) :
    (readPcConst env byteOff idx).Preserves StepState.Quiet :=
  .look_bind (fun _ hs => hs.1) (.look _)

theorem doCall_preserves (env : StepEnv R) (closure : PolyWord) :
    (doCall env closure).Preserves StepState.Quiet := by
  have henter : ∀ codeWord : PolyWord, (change fun s : StepState R =>
      { s with interp := (s.interp.pushFrame.recordCall codeWord.addr).enter s.memory codeWord.addr } :
        StepRun R Unit).Preserves StepState.Quiet := fun _ => .make fun _ hs => hs
  refine .look_bind (fun _ hs => hs.1) ?_
  rw [if_neg Bool.false_ne_true]
  refine .ite (.bind (.throw _) fun _ => ?_) ?_
  all_goals
    exact .bind (.look _) fun _ => .bind (push_preserves _) fun _ => .bind (push_preserves _) fun _ =>
      .bind (.look _) fun _ => .ite (.bind (.throw _) fun _ => henter _) (henter _)

end StepRun

/-! ### Each arm -/

namespace TierStep

open StepRun

/-- Both arms of an instruction do the same behind its opcode. -/
def Agree (env : StepEnv R) (l : Locals) (s : StepState R) (i : FastInstr) : Prop :=
  (arm env l s i).Follows ((StepRun.arm env i).exec (s.commit { l with pc := l.pc + 1 }))

/-- An arm that starts with an operand. -/
theorem exec_operand (h : Loaded l s) (hpc : ¬ l.codeEnd ≤ l.pc + 1)
    (k : UInt8 → StepRun R StepResult) :
    (do
      let b ← fetchU8
      k b : StepRun R StepResult).exec (s.commit { l with pc := l.pc + 1 }) =
      (k (s.memory.byteAt (l.pc + 1))).exec (s.commit { l with pc := l.pc + 1 + 1 }) := by
  have hlt : l.pc + 1 < s.interp.codeEnd := by
    rw [h.codeEnd]
    exact Nat.not_le.1 hpc
  exact exec_bind_ok _ (exec_fetchU8 hlt)

theorem exec_jump {delta : Int} {pc : Nat} (hpc : ptrOffset l.pc delta = pc)
    (hlo : s.interp.codeStart ≤ pc) (hhi : pc ≤ s.interp.codeEnd) :
    (do
      pcOffsetSigned delta
      pure .continue : StepRun R StepResult).exec (s.commit l) = (.ok .continue, s.commit { l with pc }) :=
  exec_bind_ok _ (exec_pcOffsetSigned hpc hlo hhi)

theorem const_follows (h : Loaded l s) (n : Nat) : Agree env l s (.const n) := by
  unfold Agree arm
  dsimp only
  split
  · trivial
  · rename_i hsp
    exact ⟨exec_pushContinue _ hsp, (h.moved _ _).setSlot _ _⟩

theorem constIntB_follows (h : Loaded l s) : Agree env l s .constIntB := by
  unfold Agree arm
  dsimp only
  split
  · trivial
  · rename_i hroom
    obtain ⟨hpc, hsp⟩ := not_or.1 hroom
    exact ⟨(exec_operand h hpc _).trans (exec_pushContinue _ hsp), (h.moved _ _).setSlot _ _⟩

theorem local_follows (h : Loaded l s) (depth : Nat) : Agree env l s (.local depth) := by
  unfold Agree arm
  dsimp only
  split
  · trivial
  · rename_i hroom
    obtain ⟨hidx, hsp⟩ := not_or.1 hroom
    exact ⟨exec_dupLocal (Nat.not_le.1 hidx) hsp, (h.moved _ _).setSlot _ _⟩

theorem localB_follows (h : Loaded l s) : Agree env l s .localB := by
  unfold Agree arm
  dsimp only
  split
  · trivial
  rename_i hroom
  obtain ⟨hpc, hsp⟩ := not_or.1 hroom
  split
  · trivial
  · rename_i hidx
    refine ⟨?_, (h.moved _ _).setSlot _ _⟩
    exact (exec_operand h hpc _).trans (exec_dupLocal (Nat.not_le.1 hidx) hsp)

theorem reset1_follows (h : Loaded l s) : Agree env l s .reset1 := by
  unfold Agree arm
  dsimp only
  split
  · trivial
  · rename_i hlen
    exact ⟨if_neg hlen, h.moved _ _⟩

theorem resetR2_follows (h : Loaded l s) : Agree env l s .resetR2 := by
  unfold Agree arm
  dsimp only
  split
  · trivial
  · rename_i hlen
    exact ⟨if_neg hlen, (h.moved _ _).setSlot _ _⟩

theorem jump8_follows (h : Loaded l s) : Agree env l s .jump8 := by
  unfold Agree arm
  dsimp only
  split
  · trivial
  · rename_i hpc
    refine jumpTo_follows h (fun hlo hhi => (exec_operand h hpc _).trans (exec_jump ?_ hlo hhi))
    exact ptrOffset_add l.pc 2 _

theorem jumpBack8_follows (h : Loaded l s) : Agree env l s .jumpBack8 := by
  unfold Agree arm
  dsimp only
  split
  · trivial
  · rename_i hpc
    refine jumpTo_follows h (fun hlo hhi => (exec_operand h hpc _).trans (exec_jump ?_ hlo hhi))
    refine (ptrOffset_add l.pc 2 _).trans (congrArg (ptrOffset l.pc) ?_)
    show (2 : Int) + -((s.operand l 1 : Int) + 2) = -(s.operand l 1 : Int)
    omega

theorem jump8False_follows (h : Loaded l s) : Agree env l s .jump8False := by
  unfold Agree arm
  dsimp only
  split
  · trivial
  rename_i hroom
  obtain ⟨hpc, hsp⟩ := not_or.1 hroom
  have hrun : (StepRun.arm env .jump8False).exec (s.commit { l with pc := l.pc + 1 }) = _ :=
    (exec_operand h hpc _).trans (exec_bind_ok _ (exec_pop (Nat.not_le.1 hsp)))
  rw [hrun]
  split
  · refine jumpTo_follows (h.moved l.pc (l.sp + 1)) (fun hlo hhi => exec_jump ?_ hlo hhi)
    exact ptrOffset_add l.pc 2 _
  · exact ⟨rfl, h.moved _ _⟩

theorem jumpNeqLocal_follows (h : Loaded l s) : Agree env l s .jumpNeqLocal := by
  unfold Agree arm
  dsimp only
  split
  · trivial
  rename_i hpc
  split
  · trivial
  rename_i hidx
  have hpeek := exec_peek (s := s) (l := { l with pc := l.pc + 4 }) (Nat.not_le.1 hidx)
  have hrun : (StepRun.arm env .jumpNeqLocal).exec (s.commit { l with pc := l.pc + 1 }) =
      (jumpNeqLocal (s.operand l 1) (s.operand l 2) (s.operand l 3)).exec
        (s.commit { l with pc := l.pc + 4 }) :=
    (exec_operand h (by omega) _).trans
      ((exec_operand (h.moved (l.pc + 1) l.sp) (by dsimp only; omega) _).trans
        (exec_operand (h.moved (l.pc + 2) l.sp) (by dsimp only; omega) _))
  rw [hrun, jumpNeqLocal, exec_bind_ok _ hpeek]
  split
  · exact ⟨rfl, h.moved _ _⟩
  · refine jumpTo_follows h (fun hlo hhi => exec_jump ?_ hlo hhi)
    exact ptrOffset_add l.pc 4 _

theorem setStackValB_follows (h : Loaded l s) : Agree env l s .setStackValB := by
  unfold Agree arm
  dsimp only
  split
  · trivial
  rename_i hroom
  obtain ⟨hpc, hsp⟩ := not_or.1 hroom
  split
  · trivial
  rename_i hidx
  split
  · trivial
  rename_i htarget
  have hpop := exec_pop (s := s) (l := { l with pc := l.pc + 2 }) (Nat.not_le.1 hsp)
  have hrun : (StepRun.arm env .setStackValB).exec (s.commit { l with pc := l.pc + 1 }) =
      (setStackVal (s.operand l 1)).exec (s.commit { l with pc := l.pc + 2 }) := exec_operand h hpc _
  rw [hrun, setStackVal, exec_bind_ok _ hpop, if_neg hidx]
  exact ⟨if_pos (Nat.not_le.1 htarget), (h.moved _ _).setSlot _ _⟩

theorem indirectLocal_follows (h : Loaded l s) (field : Nat) : Agree env l s (.indirectLocal field) := by
  unfold Agree arm
  dsimp only
  split
  · trivial
  rename_i hroom
  obtain ⟨hpc, hsp⟩ := not_or.1 hroom
  split
  · trivial
  rename_i hidx
  split
  · trivial
  have hpeek := exec_peek (s := s) (l := { l with pc := l.pc + 2 }) (Nat.not_le.1 hidx)
  have htrusted : (look (fun s => s.interp.untrusted) : StepRun R Bool).exec
      (s.commit { l with pc := l.pc + 2 }) = (.ok false, s.commit { l with pc := l.pc + 2 }) :=
    congrArg (fun b => (Except.ok b, s.commit { l with pc := l.pc + 2 })) h.fast.1.1
  have hrun : (StepRun.arm env (.indirectLocal field)).exec (s.commit { l with pc := l.pc + 1 }) =
      (indirectLocal env (s.operand l 1) field).exec (s.commit { l with pc := l.pc + 2 }) :=
    exec_operand h hpc _
  rw [hrun, indirectLocal, exec_bind_ok _ hpeek, exec_bind_ok _ htrusted, if_neg Bool.false_ne_true]
  exact ⟨exec_pushContinue _ hsp, (h.moved _ _).setSlot _ _⟩

/-- An overflow is left to `step_one`. -/
theorem fixed_follows (h : Loaded l s) (f : Int → Int → Int) :
    (binary l s (fun x y => fixed (f x.untag y.untag))).Follows
      ((fixedOp env f).exec (s.commit { l with pc := l.pc + 1 })) := by
  refine binary_follows h (fun x y w hw => ?_)
  unfold fixed at hw
  split at hw
  · cases hw
  · rename_i hrange
    obtain ⟨hlo, hhi⟩ := not_or.1 hrange
    obtain rfl := Option.some.inj hw
    exact if_pos ⟨Int.not_lt.1 hlo, Int.not_lt.1 hhi⟩

theorem compare_follows (h : Loaded l s) (f : PolyWord → PolyWord → Bool) :
    (binary l s (fun x y => compare (f x y))).Follows
      ((binOpCmp f).exec (s.commit { l with pc := l.pc + 1 })) := by
  refine binary_follows h (fun x y w hw => ?_)
  obtain rfl := Option.some.inj hw
  cases f x y <;> rfl

theorem callConstAddr8_0_follows (h : Loaded l s) : Agree env l s .callConstAddr8_0 := by
  unfold Agree arm
  dsimp only
  split
  · trivial
  rename_i hpc
  have hrun := exec_operand h hpc (fun imm => do
    let closure ← readPcConst env imm.toNat 3
    doCall env closure
    pure .continue)
  have hquiet : (do
      let closure ← readPcConst env (s.operand l 1) 3
      doCall env closure
      pure .continue : StepRun R StepResult).Preserves StepState.Quiet :=
    .bind (readPcConst_preserves env _ _) fun closure =>
      .bind (doCall_preserves env closure) fun _ => .pure _
  exact hrun ▸ frontier_follows (h.moved (l.pc + 2) l.sp) hquiet

/-- What the fast tier does with an instruction is what `step_one` does with it. -/
theorem arm_follows (h : Loaded l s) (i : FastInstr) : Agree env l s i := by
  cases i with
  | const n => exact const_follows h n
  | constIntB => exact constIntB_follows h
  | «local» depth => exact local_follows h depth
  | localB => exact localB_follows h
  | reset1 => exact reset1_follows h
  | resetR2 => exact resetR2_follows h
  | jump8 => exact jump8_follows h
  | jumpBack8 => exact jumpBack8_follows h
  | jump8False => exact jump8False_follows h
  | jumpNeqLocal => exact jumpNeqLocal_follows h
  | setStackValB => exact setStackValB_follows h
  | indirectLocal field => exact indirectLocal_follows h field
  | fixedAdd => exact fixed_follows h (fun x y => x + y)
  | fixedSub => exact fixed_follows h (fun x y => y - x)
  | wordAdd => exact binary_follows h (fun x y w hw => congrArg pushContinue (Option.some.inj hw))
  | equalWord => exact compare_follows h (fun x y => x == y)
  | lessSigned => exact compare_follows h (fun x y => y.slt x)
  | lessEqUnsigned => exact compare_follows h (fun x y => y.ule x)
  | callConstAddr8_0 => exact callConstAddr8_0_follows h
  | return1 => exact frontier_follows (h.moved (l.pc + 1) l.sp) (doReturn_preserves 1)

end TierStep

/-! ## Steps of the fast tier -/

theorem exec_stepOne {i : FastInstr} (h : Loaded l s) (hpc : l.pc < l.codeEnd)
    (hi : fastInstrs.lookup (s.memory.byteAt l.pc) = some i) :
    (StepRun.stepOne env).exec (s.commit l) =
      (StepRun.arm env i).exec (s.commit { l with pc := l.pc + 1 }) := by
  obtain ⟨-, hfinish, hgc⟩ := h.fast.1
  have hlook : (look (fun s => s.finish) : StepRun R (Option Int)).exec (s.commit l) =
      (.ok none, s.commit l) :=
    congrArg (fun f => (Except.ok f, s.commit l)) hfinish
  have hcollect : (StepRun.collectIfDue env).exec (s.commit l) = (.ok (), s.commit l) :=
    congrArg (Prod.mk (Except.ok ())) (if_neg (Bool.eq_false_iff.1 hgc))
  have hfetch := StepRun.exec_fetchU8 (s := s) (l := l) (by rwa [h.codeEnd])
  rw [StepRun.stepOne, exec_bind_ok _ hlook, exec_bind_ok _ hcollect, exec_bind_ok _ hfetch,
    StepRun.execute, hi]

theorem tierStep_follows (env : StepEnv R) (h : Loaded l s) :
    (tierStep env l s).Follows ((StepRun.stepOne env).exec (s.commit l)) := by
  unfold tierStep
  split
  · trivial
  rename_i hpc
  split
  · trivial
  · rename_i i hi
    rw [exec_stepOne h (Nat.not_le.1 hpc) hi]
    exact TierStep.arm_follows h i

theorem generalStep_of_next (hf : (TierStep.next l' s').Follows ((StepRun.stepOne env).exec s)) :
    generalStep env s = (none, s'.commit l') := by
  rw [generalStep, hf.1]
  rfl

theorem generalStep_of_stop (hf : (TierStep.stop s').Follows ((StepRun.stepOne env).exec s)) :
    generalStep env s = (none, s') := by
  rw [generalStep, show (StepRun.stepOne env).exec s = _ from hf]
  rfl

theorem generalStep_of_leave {r : Except StepError StepResult}
    (hf : (TierStep.leave r s').Follows ((StepRun.stepOne env).exec s)) :
    generalStep env s = (some r, s') := by
  rw [generalStep, hf.1]
  exact congrArg (fun o => (o, s')) hf.2

/-- The fast tier takes steps of `step_one`, and none of them halfway. -/
theorem tier_follows (h : Loaded l s) (n : Nat) :
    (tier env n l s).1 ≤ n ∧
      upTo (generalStep env) (tier env n l s).1 (s.commit l) = tier env n l s := by
  induction n generalizing l s with
  | zero => exact ⟨Nat.le_refl 0, rfl⟩
  | succ n ih =>
    have hf := tierStep_follows env h
    unfold tier
    cases ht : tierStep env l s with
    | abandon => exact ⟨Nat.zero_le _, rfl⟩
    | next l' s' =>
      rw [ht] at hf
      obtain ⟨hle, hrun⟩ := ih hf.2
      refine ⟨Nat.succ_le_succ hle, ?_⟩
      rw [upTo_succ_of_none (generalStep_of_next hf), hrun]
    | stop s' =>
      rw [ht] at hf
      exact ⟨Nat.succ_le_succ (Nat.zero_le n), upTo_succ_of_none (generalStep_of_stop hf)⟩
    | leave r s' =>
      rw [ht] at hf
      exact ⟨Nat.succ_le_succ (Nat.zero_le n), upTo_succ_of_some (generalStep_of_leave hf)⟩

/-! ## Bursts -/

theorem fastTier_follows (env : StepEnv R) (n : Nat) (s : StepState R) :
    (fastTier env n s).1 ≤ n ∧ upTo (generalStep env) (fastTier env n s).1 s = fastTier env n s := by
  unfold fastTier
  split
  · rename_i h
    exact tier_follows (.locals h) n
  · exact ⟨Nat.zero_le n, rfl⟩

theorem stepBurst_eq_upTo (env : StepEnv R) (quota : Nat) (s : StepState R) :
    stepBurst env quota s = upTo (generalStep env) quota s := by
  induction quota using Nat.strong_induction_on generalizing s with
  | _ quota ih =>
    rw [stepBurst]
    split
    · rename_i hzero
      subst hzero
      rfl
    obtain ⟨hle, hfast⟩ := fastTier_follows env quota s
    split
    · rename_i done r t ht
      rw [ht] at hle hfast
      have hrun := upTo_of_outcome hfast (quota - done)
      rw [Nat.add_sub_cancel' hle] at hrun
      exact hrun.symm
    rename_i done t ht
    rw [ht] at hle hfast
    split
    · rename_i hdone
      rw [Nat.le_antisymm hdone hle]
      exact hfast.symm
    rename_i hdone
    have hadd := upTo_add hfast (quota - (done + 1) + 1)
    rw [show done + (quota - (done + 1) + 1) = quota by omega] at hadd
    rw [hadd]
    split
    · rename_i r u hu
      rw [upTo_succ_of_some hu]
    · rename_i u hu
      rw [upTo_succ_of_none hu, ih _ (by omega)]
      exact Prod.ext (by dsimp only; omega) rfl

/-- A burst is as many steps of `step_one`, with all that they do; and where the fast tier gives an
    instruction up, whole steps have been taken and nothing of it. -/
theorem stepBurst_exact (env : StepEnv R) (quota : Nat) (s : StepState R) :
    stepBurst env quota s = upTo (generalStep env) quota s ∧
      upTo (generalStep env) (fastTier env quota s).1 s = fastTier env quota s :=
  ⟨stepBurst_eq_upTo env quota s, (fastTier_follows env quota s).2⟩

/-! ## A sum -/

/-- 1 + 2, and an instruction that has one arm only. -/
def sumState : StepState Unit where
  interp := {
    stack := List.replicate 4 PolyWord.zero
    sp := 4, pc := 0x1000, codeStart := 0x1000, codeEnd := 0x1008, frames := []
    handlerFramesDepth := [], exceptionPacket := none, threadObject := none
    bootstrapTailCall := PolyWord.zero, recentCallTargets := [0], handlerSp := 4
    recentCallIdx := 0, untrusted := false }
  mem := fun a => if a = 0x1000 then 0x52aa3d3c#64 else 0#64
  stackAt := 0x2000
  allocSpace := none
  gcTriggerWords := 0
  finish := none
  rest := ()

/-- Nothing else happens. -/
def quietEnv : StepEnv Unit where
  requestGcCollect := id
  raiseOverflow := pure .continue
  untrustedField := fun _ _ => pure PolyWord.zero
  checkPcConstBounds := fun _ _ => pure ()
  untrustedValidateCall := fun _ => pure ()
  otherArm := fun _ => pure .continue

example : (fastTier quietEnv 9 sumState).1 = 3 ∧
    (fastTier quietEnv 9 sumState).2.2.interp.live = [7#64] := by decide
