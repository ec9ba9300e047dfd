import PolymlRs.Jit.RegionCode

set_option autoImplicit false

/-! # Native code stays on the stack

Native code checks the stack pointer at a `STACK_SIZE16` only. It stays in the stack, and in step with the
interpreter, as long as the interpreter finds what it checks for in region code: room for each push (of
the handshake of a dispatch, of a call between the functions of a region, of an instruction), words for
each instruction that takes some, and the instructions that were compiled. Where a push finds the stack
full, native code stores outside it. -/

namespace Region

/-! ## One instruction -/

theorem pushMany_eq {n : Nat} {sp : Int} (h : 0 ≤ sp) :
    pushMany n sp = if sp < n then .error .stackOverflow else .ok (sp - n) := by
  induction n generalizing sp with
  | zero => simp [pushMany, h]
  | succ n ih =>
    by_cases hz : sp = 0
    · have : (0 : Int) < n + 1 := by omega
      simp [pushMany, push, hz, bind, Except.bind, this]
    · have hs : (if sp = 0 then .error .stackOverflow else .ok (sp - 1) : Except Stop Int)
          = .ok (sp - 1) := if_neg hz
      simp only [pushMany, push, hs, bind, Except.bind, ih (by omega : 0 ≤ sp - 1)]
      grind

theorem popMany_eq {len n : Nat} {sp : Int} (h : sp ≤ len) :
    popMany len n sp = if (len : Int) < sp + n then .error .stackUnderflow else .ok (sp + n) := by
  induction n generalizing sp with
  | zero => simp [popMany, h]
  | succ n ih =>
    by_cases hz : (len : Int) ≤ sp
    · have : (len : Int) < sp + (n + 1) := by omega
      simp [popMany, pop, hz, bind, Except.bind, this]
    · have hs : (if (len : Int) ≤ sp then .error .stackUnderflow else .ok (sp + 1) : Except Stop Int)
          = .ok (sp + 1) := if_neg hz
      simp only [popMany, pop, hs, bind, Except.bind, ih (by omega : sp + 1 ≤ len)]
      grind

/-- Both do the same, and native code stores in the stack. The stack pointer is of no use to a handler.
-/
def Opcode.Same (len : Nat) (d : Data) (sp : Int) (op : Opcode) (sp' : Int) (flow : Flow) : Prop :=
  0 ≤ sp' ∧ sp' ≤ len ∧ (∀ i ∈ (op.emit d sp).1, 0 ≤ i ∧ i < len) ∧ (op.emit d sp).2.2 = flow ∧
    ((op.emit d sp).2.1 = sp' ∨ flow = .raise)

/-- What native code does when the interpreter reports an error. -/
def Opcode.Fails (d : Data) (sp : Int) (op : Opcode) : Stop → Prop
  | .stackUnderflow => True
  | .stackOverflow =>
    if op.isStackSize16 then op.emit d sp = ([], sp, .stop .stackOverflow)
    else ∃ i ∈ (op.emit d sp).1, i < 0
  | _ => (op.emit d sp).1 = [] ∧ ∃ e, (op.emit d sp).2.2 = .stop e

/-- An instruction of region code, from a stack pointer that is in the stack. -/
theorem Opcode.emit_interpret {len : Nat} {d : Data} {sp : Int} {op : Opcode} (hu : op ≠ .unsupported)
    (h0 : 0 ≤ sp) (hl : sp ≤ len) (hlen : len < 2 ^ 64) :
    match op.interpret len d sp with
    | .ok (sp', flow) => op.Same len d sp sp' flow
    | .error e => op.Fails d sp e := by
  cases op
  case unsupported => exact absurd rfl hu
  all_goals simp (disch := omega) only [Opcode.interpret, push, pop, peek, dropN, resetTo, allocate,
    setSlot, pushMany_eq, popMany_eq, bind, Except.bind, Opcode.Same, Opcode.Fails,
    Opcode.isStackSize16, Opcode.emit]
  -- a push onto a full stack stores below it
  case pushConst =>
    by_cases hs : sp = 0
    · simp [hs]
    · simp only [if_neg hs]
      grind
  case peekPush depth | indirectLocal depth | isTaggedLocal depth =>
    by_cases hp : (len : Int) ≤ sp + depth
    · simp [hp]
    · by_cases hs : sp = 0
      · simp only [if_neg hp, if_pos hs]
        simp [hs]
      · simp only [if_neg hs, if_neg hp]
        grind
  case callConstAddr callee => cases callee <;> grind
  case stackContainer n =>
    have below : sp < n + 1 → ∃ i ∈ (List.range n).map (fun k : Nat => sp - n + k) ++ [sp - n - 1],
        i < 0 := fun hs => ⟨sp - n - 1, by simp, by omega⟩
    by_cases hs : sp < n
    · simp only [if_pos hs]
      exact below (by omega)
    · by_cases hz : sp - n = 0
      · simp only [if_neg hs, if_pos hz]
        exact below (by omega)
      · simp only [if_neg hs, if_neg hz]
        grind
  case allocTuple n =>
    cases d.exhausted with
    | true => grind
    | false =>
      by_cases hl' : (len : Int) < sp + n
      · simp [hl']
      · by_cases hz : sp + n = 0
        · have : sp + ((n : Int) - 1) < 0 := by omega
          simp only [if_neg hl', if_pos hz]
          simp [this]
        · simp only [if_neg hl', if_neg hz]
          grind
  case ret n =>
    by_cases hl' : (len : Int) < sp + (3 : Nat)
    · simp only [if_pos hl']
    · simp (disch := omega) only [if_neg hl', popMany_eq]
      grind
  all_goals
    try split_ifs
    all_goals grind

/-! ## Runs -/

variable {w : World}

namespace State

variable {native : Bool} {d : Data} {s t n p : State} {f : Frame} {rest : List Frame} {after : Nat}

theorem step_of_stop (h : s.stop ≠ none) : step native w s d = s := by
  cases hs : s.stop with
  | none => exact absurd hs h
  | some e => simp [step, hs]

theorem step_cons (hstop : s.stop = none) (hf : s.frames = f :: rest) : step native w s d =
    if native && f.region then s.stepNative w d f rest else s.stepInterp native w d f rest := by
  rw [step, hstop, hf]

theorem store_eq {len : Nat} {slots : List Int} (h : ∀ i ∈ slots, 0 ≤ i ∧ i < len) :
    s.store len slots = s := by
  have hany : slots.any (fun i => decide (i < 0 ∨ (len : Int) ≤ i)) = false := by
    rw [List.any_eq_false]
    intro i hi
    have := h i hi
    simp only [decide_eq_true_eq]
    omega
  rw [store, hany, Bool.or_false]

theorem noteRead_eq
    (h : f.region = false ∨ interpInstr d.mem f.code f.pc = w.compiled f.code f.pc) :
    s.noteRead w d f = s := by
  have hsame : (f.region && decide (interpInstr d.mem f.code f.pc ≠ w.compiled f.code f.pc)) = false := by
    rcases h with h | h <;> simp [h]
  rw [noteRead, hsame, Bool.or_false]

/-! ### What stays noted -/

/-- A store outside the stack stays noted, and what the interpreter has read is noted elsewhere. -/
def Keeps (s s' : State) : Prop :=
  (s.outside = true → s'.outside = true) ∧ s'.differs = s.differs

theorem Keeps.refl (s : State) : Keeps s s := ⟨id, rfl⟩

theorem keeps_store {len : Nat} (slots : List Int) (h : Keeps t s) : Keeps t (s.store len slots) :=
  ⟨fun ht => by simp [store, h.1 ht], h.2⟩

theorem keeps_enter {len callee : Nat} {region : Bool} (h : Keeps t s) :
    Keeps t (s.enter native len callee region) := by
  unfold enter
  split
  · exact keeps_store _ h
  · split <;> exact h

theorem keeps_raise {len : Nat} (h : Keeps t s) : Keeps t (s.raise len d) := by
  unfold raise
  split
  · exact h
  · split
    · exact h
    · split <;> exact h

theorem keeps_follow {flow : Flow} (h : Keeps t s) :
    Keeps t (s.follow native w d f rest after flow) := by
  cases flow with
  | next | goto _ | ret | stop _ => exact h
  | call _ => exact keeps_enter h
  | callDynamic closure =>
    cases closure with
    | some _ => exact keeps_enter h
    | none =>
      simp only [follow]
      split
      · split <;> exact h
      · exact h
  | raise => exact keeps_raise h

theorem keeps_interpretOther (h : Keeps t s) : Keeps t (s.interpretOther native w d f rest) := by
  unfold interpretOther
  split
  · split <;> exact h
  · split
    · exact h
    · exact keeps_enter h
  · exact keeps_raise h
  · exact h

theorem keeps_stepNative (h : Keeps t s) : Keeps t (s.stepNative w d f rest) := by
  unfold stepNative
  split
  · exact h
  next op after _ => exact keeps_follow (keeps_store (op.emit d s.sp).1 h)

theorem keeps_stepInterp (h : Keeps t (s.noteRead w d f)) :
    Keeps t (s.stepInterp native w d f rest) := by
  unfold stepInterp
  dsimp only
  split
  · exact h
  · split
    · exact keeps_interpretOther h
    · split
      · exact h
      · exact keeps_follow h

theorem differs_stepInterp : (s.stepInterp native w d f rest).differs = (s.noteRead w d f).differs :=
  (keeps_stepInterp (.refl _)).2

theorem outside_step (h : s.outside = true) : (step native w s d).outside = true := by
  unfold step
  split
  · split
    · exact (keeps_stepNative (.refl _)).1 h
    · exact (keeps_stepInterp (.refl _)).1 h
  · exact h

theorem differs_step (h : s.differs = true) : (step native w s d).differs = true := by
  unfold step
  split
  · split
    · exact (keeps_stepNative (.refl _)).2.trans h
    · rw [differs_stepInterp, noteRead, h, Bool.true_or]
  · exact h

/-! ### Two runs -/

/-- A state both runs can be in. -/
structure Wf (w : World) (s : State) : Prop where
  nonneg : 0 ≤ s.sp
  le_len : s.sp ≤ w.len
  placed : ∀ f ∈ s.frames, f.region = true → w.Placed f.code f.pc
  outside : s.outside = false
  unchecked : s.unchecked = false

/-- The states of the native and the interpreted run of the same code. -/
inductive Agree (w : World) : State → State → Prop
  | same {s : State} (h : Wf w s) : Agree w s s
  | differs {n p : State} (h : p.differs = true) : Agree w n p
  | short {n p : State} (hp : p.stop ≠ none) (hs : p.short = true) (hu : p.unchecked = false) :
    Agree w n p
  | full {n p : State} (hp : p.stop ≠ none) (hu : p.unchecked = true) (hn : n.outside = true) :
    Agree w n p
  | stopped {n p : State} (hn : n.stop ≠ none) (hp : p.stop ≠ none) (hu : p.unchecked = false)
    (ho : n.outside = false) (h : p.stop = some .stackOverflow → n.stop = some .stackOverflow) :
    Agree w n p

theorem Wf.fail {e : Stop} (hs : Wf w s) : Wf w (s.fail e false) :=
  ⟨hs.nonneg, hs.le_len, hs.placed, hs.outside, by simp [State.fail, hs.unchecked]⟩

/-- The frames are as before but for the instruction that is next. -/
theorem Wf.advance {pc : Nat} (hs : Wf w s) (hf : s.frames = f :: rest)
    (hpc : f.region = true → w.Placed f.code pc) : Wf w { s with frames := { f with pc } :: rest } := by
  refine ⟨hs.nonneg, hs.le_len, ?_, hs.outside, hs.unchecked⟩
  rintro g (_ | ⟨_, hg⟩) hr
  · exact hpc hr
  · exact hs.placed g (hf ▸ List.mem_cons_of_mem f hg) hr

theorem enter_agree {callee : Nat} {region : Bool} (hs : Wf w s)
    (hc : region = true → w.Covered callee) :
    Agree w (s.enter true w.len callee region) (s.enter false w.len callee region) := by
  have hpush := pushMany_eq (n := 2) hs.nonneg
  have hplaced : ∀ f ∈ { code := callee, pc := 0, region } :: s.frames,
      f.region = true → w.Placed f.code f.pc := by
    rintro f (_ | ⟨_, hf⟩) hr
    · exact (hc hr).entry
    · exact hs.placed f hf hr
  by_cases hsp : s.sp < (2 : Nat)
  · rw [if_pos hsp] at hpush
    cases region with
    | false =>
      simp only [enter, hpush, Bool.and_false]
      exact .same hs.fail
    | true =>
      have hneg : s.sp - 1 < 0 ∨ s.sp - 2 < 0 := by omega
      refine .full ?_ ?_ ?_
      · simp [enter, hpush, fail]
      · simp [enter, hpush, fail]
      · simp only [enter, store]
        grind
  · rw [if_neg hsp] at hpush
    have hn : 0 ≤ s.sp - 2 := by omega
    have hl : s.sp - 2 ≤ w.len := by have := hs.le_len; omega
    have hin : s.store w.len [s.sp - 1, s.sp - 2] = s := store_eq (fun i hi => by
      have := hs.le_len
      simp only [List.mem_cons, List.not_mem_nil, or_false] at hi
      omega)
    have heq : s.enter true w.len callee region = s.enter false w.len callee region := by
      cases region <;> simp [enter, hpush, hin]
    rw [heq]
    simp only [enter, hpush, Bool.false_and]
    exact .same ⟨hn, hl, hplaced, hs.outside, hs.unchecked⟩

theorem raise_agree {sp : Int} (hs : Wf w s) :
    Agree w (({ s with sp }).raise w.len d) (s.raise w.len d) := by
  have none_above : Agree w { s with sp, stop := some .raised } { s with stop := some .raised } :=
    .stopped (by simp) (by simp) hs.unchecked hs.outside (by simp)
  unfold raise
  cases d.handler with
  | none => exact none_above
  | some handler =>
    obtain ⟨above, pc, sp'⟩ := handler
    cases hd : s.frames.drop above with
    | nil => simpa only [hd] using none_above
    | cons f rest =>
      simp only [hd]
      split
      · exact none_above
      next hf =>
        simp only [Bool.or_eq_true, decide_eq_true_eq, not_or, Bool.not_eq_true, not_lt] at hf
        have hrest : ∀ g ∈ rest, g ∈ s.frames := fun g hg =>
          List.mem_of_mem_drop (hd ▸ List.mem_cons_of_mem f hg)
        refine .same ⟨by simp, by simpa using hf.2, ?_, hs.outside, hs.unchecked⟩
        rintro g (_ | ⟨_, hg⟩) hr
        · simp [hf.1] at hr
        · exact hs.placed g (hrest g hg) hr

theorem follow_agree {flow : Flow} (hs : Wf w s) (hf : s.frames = f :: rest)
    (hflow : f.region = true → w.LeadsOn f.code after flow) :
    Agree w (s.follow true w d f rest after flow) (s.follow false w d f rest after flow) := by
  cases flow with
  | next | goto _ => exact .same (hs.advance hf hflow)
  | ret =>
    exact .same ⟨hs.nonneg, hs.le_len, fun g hg => hs.placed g (hf ▸ List.mem_cons_of_mem f hg),
      hs.outside, hs.unchecked⟩
  | stop e => exact .same hs.fail
  | raise => exact raise_agree hs
  | call callee =>
    refine enter_agree (hs.advance hf (fun hr => (hflow hr).1)) (fun hr => ?_)
    simp only [Bool.or_eq_true, decide_eq_true_eq] at hr
    exact hr.elim (fun hr => (hflow hr).2) World.covered_of_registered
  | callDynamic closure =>
    cases closure with
    | some callee =>
      refine enter_agree (hs.advance hf hflow) (fun hr => ?_)
      simp only [Bool.and_eq_true, decide_eq_true_eq] at hr
      exact World.covered_of_registered hr.2
    | none =>
      simp only [follow, Bool.true_and, Bool.false_and, Bool.false_eq_true, if_false]
      split
      · split
        · exact .same hs.fail
        · exact .stopped (by simp [fail]) (by simp [fail]) (hs.fail).unchecked hs.outside
            (by simp [fail])
      · exact .same hs.fail

theorem interpretOther_agree (hs : Wf w s) (hf : s.frames = f :: rest) (hr : f.region = false) :
    Agree w (s.interpretOther true w d f rest) (s.interpretOther false w d f rest) := by
  unfold interpretOther
  cases d.other with
  | goes code pc sp =>
    dsimp only
    split
    · exact .same hs.fail
    next hsp =>
      refine .same ⟨by simp, by simpa using hsp, ?_, hs.outside, hs.unchecked⟩
      rintro g (_ | ⟨_, hg⟩) hr
      · simp at hr
      · exact hs.placed g (hf ▸ List.mem_cons_of_mem f hg) hr
  | calls callee pc sp =>
    dsimp only
    split
    · exact .same hs.fail
    next hsp =>
      have hadv : Wf w { s with frames := { f with pc } :: rest } := hs.advance hf (by simp [hr])
      refine enter_agree (s := { s with frames := { f with pc } :: rest, sp }) ?_
        (fun hr => World.covered_of_registered (by simpa using hr))
      exact ⟨by simp, by simpa using hsp, hadv.placed, hs.outside, hs.unchecked⟩
  | raises => exact raise_agree hs
  | stops e => exact .same hs.fail

/-- One instruction of region code. -/
theorem region_agree (hs : Wf w s) (hlen : w.len < 2 ^ 64) (hf : s.frames = f :: rest)
    (hr : f.region = true) : Agree w (s.stepNative w d f rest) (s.stepInterp false w d f rest) := by
  have hplaced := hs.placed f (by simp [hf]) hr
  obtain ⟨⟨op, after⟩, hop⟩ := Option.isSome_iff_exists.1 hplaced.2
  by_cases hread : interpInstr d.mem f.code f.pc = w.compiled f.code f.pc
  case neg =>
    refine .differs ?_
    rw [differs_stepInterp]
    simp [noteRead, hr, hread]
  obtain ⟨hne, hleads⟩ := hplaced.leadsOn hop
  have hspec := op.emit_interpret (d := d) hne hs.nonneg hs.le_len hlen
  have hn : s.stepNative w d f rest =
      ({ s.store w.len (op.emit d s.sp).1 with sp := (op.emit d s.sp).2.1 }).follow true w d f rest after
        (op.emit d s.sp).2.2 := by
    rw [stepNative, hop]
  cases hi : op.interpret w.len d s.sp with
  | ok res =>
    obtain ⟨sp', flow⟩ := res
    rw [hi] at hspec
    obtain ⟨h0, hl, hin, hflow, hsp⟩ := hspec
    have hs' : Wf w { s with sp := sp' } := ⟨h0, hl, hs.placed, hs.outside, hs.unchecked⟩
    have hp : s.stepInterp false w d f rest = ({ s with sp := sp' }).follow false w d f rest after flow := by
      simp only [stepInterp, noteRead_eq (.inr hread), hread, hop, if_neg hne, hi]
    rw [hn, hp, store_eq hin]
    have hlead := hleads d s.sp
    rw [hflow] at hlead ⊢
    rcases hsp with hsp | rfl
    · rw [hsp]
      exact follow_agree hs' hf (fun _ => hlead)
    · exact raise_agree hs'
  | error e =>
    rw [hi] at hspec
    have hp : s.stepInterp false w d f rest = s.fail e (!op.isStackSize16) := by
      simp only [stepInterp, noteRead_eq (.inr hread), hread, hop, if_neg hne, hi, hr, Bool.true_and]
    rw [hn, hp]
    cases e with
    | stackUnderflow =>
      have hsize : op.isStackSize16 = false := by
        cases op <;> first | rfl | (simp only [Opcode.interpret] at hi; split at hi <;> simp at hi)
      exact .short (by simp [fail]) (by simp [fail, hsize]) (by simp [fail, hs.unchecked])
    | stackOverflow =>
      simp only [Opcode.Fails] at hspec
      split at hspec
      next hsize =>
        rw [hspec, store_eq (by simp)]
        exact .stopped (by simp [follow, fail]) (by simp [fail]) (by simp [fail, hsize, hs.unchecked])
          hs.outside (by simp [follow, fail])
      next hsize =>
        obtain ⟨i, hi, hneg⟩ := hspec
        refine .full (by simp [fail]) (by simp [fail, hsize]) ((keeps_follow (.refl _)).1 ?_)
        simp only [store, Bool.or_eq_true, List.any_eq_true, decide_eq_true_eq]
        exact .inr ⟨i, hi, .inl hneg⟩
    | divByZero | raised | other =>
      obtain ⟨hstores, e', he'⟩ := hspec
      rw [hstores, he', store_eq (by simp)]
      exact .stopped (by simp [follow, fail]) (by simp [fail]) (by simp [fail, hs.unchecked])
        hs.outside (by simp [fail])

/-- One instruction that is interpreted in both runs. -/
theorem interp_agree (hs : Wf w s) (hlen : w.len < 2 ^ 64) (hf : s.frames = f :: rest)
    (hr : f.region = false) :
    Agree w (s.stepInterp true w d f rest) (s.stepInterp false w d f rest) := by
  cases hread : interpInstr d.mem f.code f.pc with
  | none =>
    have hstep : ∀ native, s.stepInterp native w d f rest = s.fail .other false := by
      intro native
      simp only [stepInterp, noteRead_eq (.inl hr), hread]
    rw [hstep, hstep]
    exact .same hs.fail
  | some instr =>
    obtain ⟨op, after⟩ := instr
    by_cases hne : op = .unsupported
    · have hstep : ∀ native, s.stepInterp native w d f rest = s.interpretOther native w d f rest := by
        intro native
        simp only [stepInterp, noteRead_eq (.inl hr), hread, if_pos hne]
      rw [hstep, hstep]
      exact interpretOther_agree hs hf hr
    · have hspec := op.emit_interpret (d := d) hne hs.nonneg hs.le_len hlen
      cases hi : op.interpret w.len d s.sp with
      | error e =>
        have hstep : ∀ native, s.stepInterp native w d f rest = s.fail e false := by
          intro native
          simp only [stepInterp, noteRead_eq (.inl hr), hread, if_neg hne, hi, hr, Bool.false_and]
        rw [hstep, hstep]
        exact .same hs.fail
      | ok res =>
        obtain ⟨sp', flow⟩ := res
        rw [hi] at hspec
        have hstep : ∀ native, s.stepInterp native w d f rest =
            ({ s with sp := sp' }).follow native w d f rest after flow := by
          intro native
          simp only [stepInterp, noteRead_eq (.inl hr), hread, if_neg hne, hi]
        rw [hstep, hstep]
        refine follow_agree ?_ hf (by simp [hr])
        exact ⟨hspec.1, hspec.2.1, hs.placed, hs.outside, hs.unchecked⟩

theorem step_agree (hlen : w.len < 2 ^ 64) (h : Agree w n p) :
    Agree w (step true w n d) (step false w p d) := by
  cases h with
  | differs h => exact .differs (differs_step h)
  | short hp hs hu =>
    rw [step_of_stop hp]
    exact .short hp hs hu
  | full hp hu hn =>
    rw [step_of_stop hp]
    exact .full hp hu (outside_step hn)
  | stopped hn hp hu ho h =>
    rw [step_of_stop hn, step_of_stop hp]
    exact .stopped hn hp hu ho h
  | same hs =>
    cases hstop : n.stop with
    | some e =>
      rw [step_of_stop (by simp [hstop]), step_of_stop (by simp [hstop])]
      exact .same hs
    | none =>
      cases hf : n.frames with
      | nil => simpa [step, hstop, hf] using Agree.same hs
      | cons f rest =>
        rw [step_cons hstop hf, step_cons hstop hf]
        cases hr : f.region with
        | true => exact region_agree hs hlen hf hr
        | false => exact interp_agree hs hlen hf hr

theorem foldl_agree {ds : List Data} (hlen : w.len < 2 ^ 64) (h : Agree w n p) :
    Agree w (ds.foldl (step true w) n) (ds.foldl (step false w) p) := by
  induction ds generalizing n p with
  | nil => exact h
  | cons d ds ih => exact ih (step_agree hlen h)

theorem dispatch_agree {root sp : Nat} (hroot : root ∈ w.registered) (hsp : sp ≤ w.len) :
    Agree w (dispatch true w root sp) (dispatch false w root sp) :=
  enter_agree ⟨by simp, by simpa using hsp, by simp, rfl, rfl⟩
    (fun _ => World.covered_of_registered hroot)

/-- The runs of the native code and of the interpreter, from a dispatch. -/
theorem run_agree {root sp : Nat} (ds : List Data) (hroot : root ∈ w.registered) (hsp : sp ≤ w.len)
    (hlen : w.len < 2 ^ 64) : Agree w (run true w root sp ds) (run false w root sp ds) :=
  foldl_agree hlen (dispatch_agree hroot hsp)

/-! ### What the interpreter reads -/

theorem Wf.differs_step (hs : Wf w s) (hm : w.Intact d.mem) : (step false w s d).differs = s.differs := by
  unfold step
  split
  next f rest hstop hf =>
    rw [Bool.false_and, if_neg Bool.false_ne_true, differs_stepInterp, noteRead_eq]
    cases hr : f.region with
    | false => exact .inl rfl
    | true => exact .inr ((hs.placed f (by simp [hf]) hr).interpInstr_eq hm)
  next => rfl

theorem Agree.differs_step (h : Agree w n p) (hp : p.differs = false) (hm : w.Intact d.mem) :
    (step false w p d).differs = false := by
  cases h with
  | same hs => rw [hs.differs_step hm, hp]
  | differs h => exact absurd (hp.symm.trans h) Bool.false_ne_true
  | short hstop _ _ | full hstop _ _ | stopped _ hstop _ _ _ => rw [step_of_stop hstop, hp]

theorem foldl_differs {ds : List Data} (hlen : w.len < 2 ^ 64) (h : Agree w n p) (hp : p.differs = false)
    (hds : ∀ d ∈ ds, w.Intact d.mem) : (ds.foldl (step false w) p).differs = false := by
  induction ds generalizing n p with
  | nil => exact hp
  | cons d ds ih =>
    refine ih (step_agree hlen h) (h.differs_step hp (hds d List.mem_cons_self)) (fun d' hd' => ?_)
    exact hds d' (List.mem_cons_of_mem d hd')

/-- As long as its code stays as it was compiled, the interpreter reads in region code what was compiled. -/
theorem run_reads_compiled {root sp : Nat} {ds : List Data} (hroot : root ∈ w.registered) (hsp : sp ≤ w.len)
    (hlen : w.len < 2 ^ 64) (hds : ∀ d ∈ ds, w.Intact d.mem) : (run false w root sp ds).differs = false := by
  have hstart : (dispatch false w root sp).differs = false := (keeps_enter (.refl _)).2
  exact foldl_differs hlen (dispatch_agree hroot hsp) hstart hds

end State

/-! ## A region of two functions -/

/-- The code at 4096 calls by constant the code at 8192. Neither checks the stack. -/
def callMem : Mem := fun a =>
  if a = 4088 then makeLengthWord 6 fCodeObj
  else if a = 4096 then
    .ofBytes ([instrConst1, instrCallConstAddr8_0, 5, instrReturn1].getD · instrNoOp)
  else if a = 4104 then 3
  else if a = 4128 then .fromAddr 12288
  else if a = 4136 then .ofInt 64 (-32)
  else if a = 8184 then makeLengthWord 3 fCodeObj
  else if a = 8192 then .ofBytes ([instrConst1, instrReturn1].getD · instrNoOp)
  else if a = 8208 then .ofInt 64 (-8)
  else if a = 12288 then .fromAddr 8192
  else 0

def callRegion : World where
  mem := callMem
  roots := [4096]
  compiles := fun _ => true
  finalizes := true
  len := 64

def plain : Data where
  mem := callMem
  taken := false
  raises := false
  exhausted := false
  closure := none
  handler := none
  other := .raises

/-- Both objects are well formed. -/
example : callRegion.Intact callMem := by
  have hcode : ∀ region ∈ callRegion.regions, ∀ a ∈ region.funcs, ∀ rc ∈ resolveCode callMem a,
      (∀ pc ∈ rc.starts, rc.whole pc = true) ∧
        a + rc.bytecode.length ≤ (constSegmentForCode callMem a).1 ∧
        ∀ pc ∈ rc.starts, isCallConstAddr (rc.byte pc) = true →
          (rc.constWord pc (constReadAt rc.byte pc)).all (fun c => callMem c.toNat != c) = true := by
    decide +kernel
  rintro a ⟨region, hr, ha⟩ rc hrc
  obtain ⟨hwhole, hconstants, hclosures⟩ := hcode region hr a ha rc hrc
  refine ⟨fun _ _ _ => rfl, hwhole, hconstants, fun pc hpc hcall closure hc => ⟨rfl, ?_⟩⟩
  exact bne_iff_ne.1 ((Option.all_eq_true _ _).1 (hclosures pc hpc hcall) closure hc)

/-- The constant, the call, the constant of the callee and the two returns. -/
def callSteps : List Data := List.replicate 5 plain

end Region
