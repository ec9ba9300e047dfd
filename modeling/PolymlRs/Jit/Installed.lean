import PolymlRs.Jit.SlotRuns

set_option autoImplicit false

/-! # The functions that are installed

Of the functions that the translator accepts, `install_all_jit_entries` keeps out those whose calls it does
not trust or finds too costly, and those that read their caller's words. Where the interpreter runs an
installed function to a return, its native code returns the same word and leaves the same heap. -/

/-! ## The filter -/

def scanBlockersRaw (bc : List UInt8) : BlockerScan where
  callLocalB := bc.contains instrCallLocalB
  callConstAddr := bc.any isCallConstAddr
  constAddr := bc.any isConstAddr
  callFastRts := bc.any isCallFastRts

def BlockerScan.constAddrRtsWrapper (scan : BlockerScan) : Bool := scan.constAddr && scan.callFastRts

structure CallDensity where
  totalInstrs : Nat := 0
  outgoingCalls : Nat := 0

namespace CallDensity

def record (cd : CallDensity) (op : UInt8) : CallDensity where
  totalInstrs := cd.totalInstrs + 1
  outgoingCalls :=
    if op == instrCallClosure || op == instrTailBB || isCallFastRts op then cd.outgoingCalls + 1
    else cd.outgoingCalls

/-- The density is above one half. -/
def gatedOut (cd : CallDensity) : Bool := decide (cd.totalInstrs < 2 * cd.outgoingCalls)

end CallDensity

def scanCallDensity (bc : List UInt8) : Option CallDensity :=
  Stride.walk bc.length (fun pc cd => (trusted bc pc).map (fun d => (d.totalLen, cd.record d.op))) 0 {}

/-- The arity that a translated function is installed with. -/
def installArity (bc : List UInt8) (jitArityInit : Nat) : Option Nat :=
  match arityFromReturnScan bc with
  | none => none
  | some smlArity =>
    if smlArity > 32 then none
    else if jitArityInit > smlArity + 2 then none
    else
      let scan := (scanBlockersBoundaryAware bc).getD (scanBlockersRaw bc)
      let ccaSafe := !scan.callConstAddr || ccaAllTailEquivalent bc == some true
      if scan.callLocalB || (scan.callConstAddr && !ccaSafe) || scan.constAddrRtsWrapper then none
      else if (scanCallDensity bc).any CallDensity.gatedOut then none
      else some smlArity

namespace CompileInput

variable (c : CompileInput) (blockAt : Nat → Option Nat) (o : Surroundings)

/-- The function is installed with this arity. -/
structure Installed (smlArity : Nat) : Prop where
  accepted : c.scanBranchTargets = some (.ok blockAt)
  translated : c.Translated blockAt
  installs : installArity c.bytecode c.argCount = some smlArity

/-- The words in the argument buffer, the last one first. Of the return address there is none. -/
def argsBuf (closure : PolyWord) (args : List PolyWord) : List PolyWord := closure :: .zero :: args

/-! ## Native code that returns -/

/-- The native code, entered with `args` and the state `n₀`, returns `w`. -/
def NativeReturns (args : List PolyWord) (n₀ : NativeState) (w : PolyWord) (n : NativeState) : Prop :=
  ∃ pc vals n', c.Comes blockAt o args n₀ pc vals n' ∧ c.Emitted blockAt pc vals ∧
    (c.translateOne blockAt pc vals).exec (machine o) n' = some (.returns w n)

/-- Where native code is, with its values. -/
structure NativePoint where
  pc : Nat
  stack : List PolyWord
  state : NativeState

def nativeNext (p : NativePoint) : Option NativePoint :=
  match (c.translateOne blockAt p.pc p.stack).exec (machine o) p.state with
  | some (.goesOn ⟨pc, stack, false⟩ s) => some ⟨pc, arrive blockAt pc stack, s⟩
  | some (.jumps e s) => some ⟨e.label, e.args, s⟩
  | _ => none

end CompileInput

/-- Of the places that a program comes to, at most one is its last. -/
theorem Option.iterate_bind_unique {α : Type} {f : α → Option α} {a x y : α} {j k : Nat}
    (hx : (Option.bind · f)^[j] (some a) = some x) (hfx : f x = none)
    (hy : (Option.bind · f)^[k] (some a) = some y) (hfy : f y = none) : x = y := by
  have hnone : ∀ d, (Option.bind · f)^[d] none = (none : Option α) := by
    intro d
    induction d with
    | zero => rfl
    | succ d ih => exact ih
  have hstop : ∀ {x y : α} {j d : Nat}, (Option.bind · f)^[j] (some a) = some x → f x = none →
      (Option.bind · f)^[d + j] (some a) = some y → x = y := by
    intro x y j d hx hfx hy
    rw [Function.iterate_add_apply, hx] at hy
    cases d with
    | zero => exact Option.some.inj hy
    | succ d =>
      rw [Function.iterate_succ_apply, Option.bind_some, hfx, hnone] at hy
      cases hy
  rcases Nat.le_total j k with h | h
  · obtain ⟨d, rfl⟩ := Nat.exists_eq_add_of_le' h
    exact hstop hx hfx hy
  · obtain ⟨d, rfl⟩ := Nat.exists_eq_add_of_le' h
    exact (hstop hy hfy hx).symm

theorem Holds.outer_suffix {o : Surroundings} {base : Nat → PolyWord} {frame : NativeFrame}
    {marks : List Mark} {vals stack : List PolyWord} (h : Holds o base frame marks vals stack) :
    frame.outer <:+ stack := by
  cases h.bottom with
  | nil houter _ => exact houter

namespace CompileInput

section Returns

variable {c : CompileInput} {blockAt : Nat → Option Nat} {o : Surroundings} {args : List PolyWord}
  {n₀ n n' : NativeState} {w w' : PolyWord}

theorem Comes.iterate {pc : Nat} {vals : List PolyWord} (h : c.Comes blockAt o args n₀ pc vals n) :
    ∃ k, (Option.bind · (c.nativeNext blockAt o))^[k]
      (some ⟨c.entryPc, arrive blockAt c.entryPc args, n₀⟩) = some ⟨pc, vals, n⟩ := by
  induction h with
  | entry => exact ⟨0, rfl⟩
  | goes _ _ _ hx ih =>
    obtain ⟨k, hk⟩ := ih
    refine ⟨k + 1, ?_⟩
    rw [Function.iterate_succ_apply', hk, Option.bind_some, nativeNext, hx]
  | jumps _ _ _ hx ih =>
    obtain ⟨k, hk⟩ := ih
    refine ⟨k + 1, ?_⟩
    rw [Function.iterate_succ_apply', hk, Option.bind_some, nativeNext, hx]

/-- Native code returns once. -/
theorem NativeReturns.unique (h : c.NativeReturns blockAt o args n₀ w n)
    (h' : c.NativeReturns blockAt o args n₀ w' n') : w = w' ∧ n = n' := by
  obtain ⟨pc, vals, m, hc, -, hx⟩ := h
  obtain ⟨pc', vals', m', hc', -, hx'⟩ := h'
  obtain ⟨k, hk⟩ := hc.iterate
  obtain ⟨k', hk'⟩ := hc'.iterate
  have hlast := Option.iterate_bind_unique hk (by rw [nativeNext, hx]) hk' (by rw [nativeNext, hx'])
  obtain ⟨rfl, rfl, rfl⟩ := NativePoint.mk.inj hlast
  rw [hx] at hx'
  injection hx' with hx'
  injection hx' with hw hn
  exact ⟨hw, hn⟩

end Returns

/-! ## What the filter lets through -/

section Filter

variable {c : CompileInput} {blockAt : Nat → Option Nat} {smlArity : Nat}

theorem arityFromReturnScan_prologue {bytecode : List UInt8} {arity : Nat}
    (h : arityFromReturnScan bytecode = some arity) : functionPrologue bytecode = (0, 0) := by
  unfold functionPrologue
  split
  · rfl
  · rename_i hlen
    split
    · rename_i hmark
      match bytecode with
      | [] => exact absurd (Nat.zero_lt_two) hlen
      | b :: bs =>
        obtain ⟨hret, hstep⟩ := returnArm_enterInt (b := b) hmark bs
        rw [arityFromReturnScan, arityFromTerminatorScan, Stride.search_none] at h
        · cases h
        · rw [terminatorArm_false, hret]
          exact hstep
    · rfl

theorem installArity_eq_some {bc : List UInt8} {jitArityInit : Nat}
    (h : installArity bc jitArityInit = some smlArity) :
    arityFromReturnScan bc = some smlArity ∧ jitArityInit ≤ smlArity + 2 := by
  unfold installArity at h
  split at h
  · cases h
  rename_i hscan
  split at h
  · cases h
  split at h
  · cases h
  rename_i hreads
  dsimp only at h
  split at h
  · cases h
  split at h
  · cases h
  obtain rfl := Option.some.inj h
  exact ⟨hscan, Nat.not_lt.1 hreads⟩

/-- An installed function starts with its first instruction and takes its words from the buffer. -/
theorem Installed.start (hinst : c.Installed blockAt smlArity) :
    c.entryPc = 0 ∧ c.argCount = smlArity + 2 := by
  obtain ⟨hscan, hreads⟩ := installArity_eq_some hinst.installs
  have hprologue := arityFromReturnScan_prologue hscan
  have hentry : c.entryPc = 0 := congrArg Prod.fst hprologue
  refine ⟨hentry, Nat.le_antisymm hreads ?_⟩
  unfold argCount computeArgCount
  rw [hprologue, hentry, hscan, if_neg (by simp)]
  exact Nat.le_max_right _ _

end Filter

/-! ## The same word -/

section Same

variable {c : CompileInput} {blockAt : Nat → Option Nat} {o : Surroundings} {smlArity : Nat}

/-- The interpreter is at a return, with `w` on top, and the native code has that word there. -/
structure AtReturn (c : CompileInput) (blockAt : Nat → Option Nat) (s : Activation) (marks : List Mark)
    (w : PolyWord) : Prop where
  level : ∀ d, blockAt s.pc = some d → marks.length = d
  fetch : ∃ n pc, fetchInstr c.bytecode s.pc = .ok (.ret n, pc)
  top : s.stack.head? = some w
  mark : marks.head? = some .same

/-- The slots of a function that is called: the closure, the return address and the arguments. -/
def startMarks (smlArity : Nat) : List Mark := .same :: .placeholder :: List.replicate smlArity .same

theorem holds_start {base : Nat → PolyWord} {frame : NativeFrame} {args : List PolyWord}
    (houter : frame.outer.length = o.outerLen) (closure retPc : PolyWord) :
    Holds o base frame (startMarks args.length) (argsBuf closure args)
      (closure :: retPc :: (args ++ frame.outer)) := by
  refine .cons rfl (.cons trivial ?_)
  induction args with
  | nil => exact .nil (List.suffix_refl _) houter
  | cons a args ih => exact .cons rfl ih

theorem AtReturn.nativeReturns {args₀ vals : List PolyWord} {n₀ : NativeState} {base : Nat → PolyWord}
    {frame : NativeFrame} {s : Activation} {marks : List Mark} {w : PolyWord}
    (h : c.AtReturn blockAt s marks w) (he : c.Emitted blockAt s.pc vals)
    (hc : c.Comes blockAt o args₀ n₀ s.pc vals ⟨s.heap, frame⟩)
    (hholds : Holds o base frame marks vals s.stack) :
    c.NativeReturns blockAt o args₀ n₀ w ⟨s.heap, frame⟩ := by
  obtain ⟨n, pc, hfetch⟩ := h.fetch
  refine ⟨s.pc, vals, ⟨s.heap, frame⟩, hc, he, ?_⟩
  have htop := h.top
  have hmark := h.mark
  generalize s.stack = stack at hholds htop
  cases hholds with
  | nil => cases hmark
  | @cons m x y _ _ _ hxy =>
    obtain rfl := Option.some.inj hmark
    obtain rfl := Option.some.inj htop
    obtain rfl : x = y := hxy
    rw [translateOne, hfetch]
    rfl

/-- Where the interpreter runs an installed function, its native code goes with the same heap at each
instruction; and where the interpreter comes to a return, it returns the same word, with the same heap and
the same words in the containers of its callers. -/
theorem installed_returns (hinst : c.Installed blockAt smlArity) (hlaid : o.Laid c.bytecode)
    {args : List PolyWord} (hargs : args.length = smlArity) {frame : NativeFrame}
    (houter : frame.outer.length = o.outerLen) {closure retPc : PolyWord} {s₀ s : Activation}
    {marks : List Mark} (hpc : s₀.pc = 0) (hstack : s₀.stack = closure :: retPc :: (args ++ frame.outer))
    (hpath : c.Path blockAt o s₀ (startMarks smlArity) s marks) :
    (∃ vals frame', c.Comes blockAt o (argsBuf closure args) ⟨s₀.heap, frame⟩ s.pc vals ⟨s.heap, frame'⟩) ∧
      ∀ w, c.AtReturn blockAt s marks w →
        ∃ frame', c.NativeReturns blockAt o (argsBuf closure args) ⟨s₀.heap, frame⟩ w ⟨s.heap, frame'⟩ ∧
          frame'.outer <:+ s.stack ∧
          ∀ w' n, c.NativeReturns blockAt o (argsBuf closure args) ⟨s₀.heap, frame⟩ w' n →
            w' = w ∧ n = ⟨s.heap, frame'⟩ := by
  obtain ⟨hentry, hcount⟩ := hinst.start
  obtain ⟨sc, hres, rfl⟩ := scanResult_of_accepted hinst.accepted
  have hlen : (argsBuf closure args).length = c.argCount := by
    rw [hcount, ← hargs]
    rfl
  have hs₀ : Holds o (fun _ => .zero) frame (startMarks smlArity) (argsBuf closure args) s₀.stack := by
    rw [hstack, ← hargs]
    exact holds_start houter closure retPc
  obtain ⟨base', frame', vals, hm⟩ := hpath.meets hres hinst.translated hlaid hlen (hpc.trans hentry.symm) hs₀
  refine ⟨⟨vals, frame', hm.comes⟩, fun w hret => ?_⟩
  have hholds := hm.level hret.level
  have hreturns := hret.nativeReturns (hm.comes.emitted hres hinst.translated hlen) hm.comes hholds
  exact ⟨frame', hreturns, hholds.outer_suffix, fun w' n' h' => h'.unique hreturns⟩

end Same

/-! ## Installed bodies -/

/-- 3 is stored in the argument and read back. -/
def stored : CompileInput where
  fullBody := [instrLocal2, instrConst0, instrConst3, instrStoreMlWord, instrReset1, instrLocal2,
    instrIndirect0, instrReturn1]
  bytecodeEnd := 8
  heap := fun _ => 0#64
  codeStart := 0

/-- The return is fallen into with a word that its block does not take. -/
def fallen : CompileInput where
  fullBody := [instrConst1, instrJump8False, 1, instrConst3, instrReturn1]
  bytecodeEnd := 5
  heap := fun _ => 0#64
  codeStart := 0

/-- The address of a container is returned. -/
def held : CompileInput where
  fullBody := [instrStackContainerB, 1, instrReturn1]
  bytecodeEnd := 3
  heap := fun _ => 0#64
  codeStart := 0

/-- One is added to the argument, which is an address. -/
def added : CompileInput where
  fullBody := [instrLocal2, instrConst1, instrFixedAdd, instrReturn1]
  bytecodeEnd := 4
  heap := fun _ => 0#64
  codeStart := 0

/-- The byte below 48 is compared with the one at 48. -/
def matched : CompileInput where
  fullBody := [instrLocal6, instrLocal6, instrLocal6, instrLocal6, instrLocal6, instrBlockEqualByte,
    instrReturnB, 5]
  bytecodeEnd := 8
  heap := fun _ => 0#64
  codeStart := 0

/-- A closure with the code of the argument, which is no closure. -/
def copied : CompileInput where
  fullBody := [instrLocal2, instrAllocMutClosureB, 0, instrReturn1]
  bytecodeEnd := 4
  heap := fun _ => 0#64
  codeStart := 0

theorem argCount_installed : stored.argCount = 3 ∧ fallen.argCount = 3 ∧ held.argCount = 3 ∧
    added.argCount = 3 ∧ matched.argCount = 7 ∧ copied.argCount = 3 := by
  decide +kernel

theorem installs_bodies :
    (∀ c ∈ [choice, handled, stored, fallen, held, added, copied], installArity c.bytecode 3 = some 1) ∧
      installArity matched.bytecode 7 = some 5 := by
  decide +kernel

theorem argCount_stored : stored.argCount = 3 := argCount_installed.1

theorem argCount_fallen : fallen.argCount = 3 := argCount_installed.2.1

theorem argCount_held : held.argCount = 3 := argCount_installed.2.2.1

theorem argCount_added : added.argCount = 3 := argCount_installed.2.2.2.1

theorem argCount_matched : matched.argCount = 7 := argCount_installed.2.2.2.2.1

theorem argCount_copied : copied.argCount = 3 := argCount_installed.2.2.2.2.2

/-! ## A word that is stored -/

section Straight

variable {c : CompileInput} {fuel pc next d : Nat} {stack : List PolyWord} {v : PolyWord}

theorem translateLoop_straight (hpc : pc < c.bytecode.length) :
    (c.translateLoop (fun _ => none) (fuel + 1) ⟨pc, stack, false⟩ : Ir PolyWord Unit) =
      c.translateOne (fun _ => none) pc stack >>= c.translateLoop (fun _ => none) fuel := by
  rw [translateLoop, if_neg (Nat.not_le.2 hpc)]
  rfl

/-- A copy of a word needs no code. -/
theorem translateOne_local (hfetch : fetchInstr c.bytecode pc = .ok (.localAt d, next))
    (hv : stack[d]? = some v) : (c.translateOne (fun _ => none) pc stack : Ir PolyWord (Walk PolyWord)) =
      .done ⟨next, v :: stack, false⟩ := by
  rw [translateOne, hfetch]
  simp only [translateInstr, hv]
  rfl

end Straight

theorem stored_installed : stored.Installed (fun _ => none) 1 where
  accepted := by
    unfold scanBranchTargets scanStart
    rw [argCount_stored]
    rfl
  translated := {
    accepts := by
      rintro ⟨args, hargs, hrefuses⟩
      rw [argCount_stored] at hargs
      obtain ⟨a, b, d, rfl⟩ := List.length_eq_three.1 hargs
      change (stored.translateLoop (fun _ => none) 9 ⟨0, [a, b, d], false⟩ : Ir PolyWord Unit).Refuses at hrefuses
      rw [translateLoop_straight (by decide), translateOne_local (d := 2) rfl rfl, Emit.done_bind] at hrefuses
      obtain ⟨zero, three, index, eight, off, addr, result, hrefuses⟩ := hrefuses
      change (stored.translateLoop (fun _ => none) 4 ⟨5, [a, b, d], false⟩ : Ir PolyWord Unit).Refuses at hrefuses
      rw [translateLoop_straight (by decide), translateOne_local (d := 2) rfl rfl, Emit.done_bind] at hrefuses
      obtain ⟨word, hrefuses⟩ := hrefuses
      exact hrefuses
    fills := fun pc hpc => by cases hpc }
  installs := argCount_stored ▸ installs_bodies.1 _ (by simp)

theorem choice_installed : choice.Installed choiceTargets 1 where
  accepted := choice_accepted
  translated := choice_translated
  installs := argCount_choice ▸ installs_bodies.1 _ (by simp)

def storedHeap : Heap := emptyHeap.write 48#64 7#64

theorem stored_path :
    stored.Path (fun _ => none) alone (calmAt emptyHeap 0 [80#64, 21#64, 48#64]) (startMarks 1)
      (calmAt storedHeap 7 [7#64, 80#64, 21#64, 48#64]) (.same :: startMarks 1) := by
  have h1 : stored.Path (fun _ => none) alone (calmAt emptyHeap 0 [80#64, 21#64, 48#64]) (startMarks 1)
      (calmAt emptyHeap 1 [48#64, 80#64, 21#64, 48#64]) (.same :: startMarks 1) :=
    .step .entry (fun d hd => by cases hd) rfl rfl ⟨List.forall_mem_nil _, trivial⟩ rfl
  have h2 : stored.Path (fun _ => none) alone (calmAt emptyHeap 0 [80#64, 21#64, 48#64]) (startMarks 1)
      (calmAt emptyHeap 2 [1#64, 48#64, 80#64, 21#64, 48#64]) (.same :: .same :: startMarks 1) :=
    .step h1 (fun d hd => by cases hd) rfl rfl ⟨List.forall_mem_nil _, trivial⟩ rfl
  have h3 : stored.Path (fun _ => none) alone (calmAt emptyHeap 0 [80#64, 21#64, 48#64]) (startMarks 1)
      (calmAt emptyHeap 3 [7#64, 1#64, 48#64, 80#64, 21#64, 48#64])
      (.same :: .same :: .same :: startMarks 1) :=
    .step h2 (fun d hd => by cases hd) rfl rfl ⟨List.forall_mem_nil _, trivial⟩ rfl
  have h4 : stored.Path (fun _ => none) alone (calmAt emptyHeap 0 [80#64, 21#64, 48#64]) (startMarks 1)
      (calmAt storedHeap 4 [1#64, 80#64, 21#64, 48#64]) (.same :: startMarks 1) :=
    .step h3 (fun d hd => by cases hd) rfl rfl ⟨List.forall_mem_singleton.2 ⟨by decide, by decide⟩, trivial⟩ rfl
  have h5 : stored.Path (fun _ => none) alone (calmAt emptyHeap 0 [80#64, 21#64, 48#64]) (startMarks 1)
      (calmAt storedHeap 5 [80#64, 21#64, 48#64]) (startMarks 1) :=
    .step h4 (fun d hd => by cases hd) rfl rfl ⟨List.forall_mem_nil _, trivial⟩ rfl
  have h6 : stored.Path (fun _ => none) alone (calmAt emptyHeap 0 [80#64, 21#64, 48#64]) (startMarks 1)
      (calmAt storedHeap 6 [48#64, 80#64, 21#64, 48#64]) (.same :: startMarks 1) :=
    .step h5 (fun d hd => by cases hd) rfl rfl ⟨List.forall_mem_nil _, trivial⟩ rfl
  exact .step h6 (fun d hd => by cases hd) rfl rfl
    ⟨List.forall_mem_singleton.2 ⟨by decide, by decide⟩, trivial⟩ rfl

theorem installed_returns_stored :
    (∃ frame, stored.NativeReturns (fun _ => none) alone (argsBuf 80#64 [48#64]) ⟨emptyHeap, emptyFrame⟩ 7#64
      ⟨storedHeap, frame⟩) ∧
      ∃ frame, choice.NativeReturns choiceTargets alone (argsBuf 48#64 [15#64]) ⟨emptyHeap, emptyFrame⟩ 5#64
        ⟨emptyHeap, frame⟩ := by
  have hstored := @installed_returns stored (fun _ => none) alone 1 stored_installed ⟨by decide, by decide⟩
    [48#64] rfl emptyFrame rfl 80#64 21#64 _ _ _ rfl rfl stored_path
  have hchoice := @installed_returns choice choiceTargets alone 1 choice_installed choice_laid [15#64] rfl
    emptyFrame rfl 48#64 21#64 _ _ _ rfl rfl choice_path
  obtain ⟨frame, hreturns, -⟩ := hstored.2 7#64 ⟨fun d hd => (by cases hd), ⟨_, _, rfl⟩, rfl, rfl⟩
  obtain ⟨frame', hreturns', -⟩ := hchoice.2 5#64 ⟨fun d hd => Option.some.inj hd, ⟨_, _, rfl⟩, rfl, rfl⟩
  exact ⟨⟨frame, hreturns⟩, frame', hreturns'⟩

/-! ## Other words -/

/-- The interpreter runs an installed function to a return, and native code returns another word. -/
structure Differs (c : CompileInput) (blockAt : Nat → Option Nat) (args : List PolyWord) (steps : Nat)
    (heap : Heap) (s : Activation) (w w' : PolyWord) : Prop where
  installed : c.Installed blockAt args.length
  laid : alone.Laid c.bytecode
  run : (Option.bind · (c.stepOne alone))^[steps] (some (calmAt heap 0 (80#64 :: 21#64 :: args))) = some s
  fetch : ∃ n pc, fetchInstr c.bytecode s.pc = .ok (.ret n, pc)
  top : s.stack.head? = some w
  native : ∃ n, c.NativeReturns blockAt alone (argsBuf 80#64 args) ⟨heap, emptyFrame⟩ w' n
  ne : w ≠ w'

theorem ComesStraight.returns {c : CompileInput} {args stack : List PolyWord} {n₀ n n' : NativeState} {pc : Nat}
    {w : PolyWord} (h : c.ComesStraight args n₀ pc stack n)
    (hx : (c.translateOne (fun _ => none) pc stack).exec (machine alone) n = some (.returns w n')) :
    c.NativeReturns (fun _ => none) alone args n₀ w n' :=
  ⟨pc, stack, n, h.1, h.2, hx⟩

theorem fallen_walks : ∃ w3 w4 : Walk PolyWord, fallen.Walks deeperTargets w3 ∧ w3.pc = 3 ∧
    fallen.Walks deeperTargets w4 ∧ w4.pc = 4 := by
  have h0 : fallen.Walks deeperTargets (⟨0, [0#64, 0#64, 0#64], false⟩ : Walk PolyWord) :=
    .entry _ argCount_fallen.symm
  have h1 : fallen.Walks deeperTargets (⟨1, [3#64, 0#64, 0#64, 0#64], false⟩ : Walk PolyWord) :=
    .round h0 (by decide) ⟨_, rfl⟩
  have h3 : fallen.Walks deeperTargets (⟨3, [0#64, 0#64, 0#64], true⟩ : Walk PolyWord) :=
    .round h1 (by decide) ⟨0#64, 0#64, rfl⟩
  have h4 : fallen.Walks deeperTargets (⟨4, [7#64, 0#64, 0#64, 0#64], false⟩ : Walk PolyWord) :=
    .round h3 (by decide) ⟨[0#64, 0#64, 0#64], rfl, _, rfl⟩
  exact ⟨_, _, h3, rfl, h4, rfl⟩

theorem fallen_installed : fallen.Installed deeperTargets 1 where
  accepted := by
    unfold scanBranchTargets scanStart
    rw [argCount_fallen]
    rfl
  translated := {
    accepts := by
      rintro ⟨args, hargs, hrefuses⟩
      rw [argCount_fallen] at hargs
      obtain ⟨a, b, d, rfl⟩ := List.length_eq_three.1 hargs
      obtain ⟨one, zero, isZero, vs, hvs, hrefuses⟩ := hrefuses
      obtain ⟨a, b, d, rfl⟩ := List.length_eq_three.1 hvs
      obtain ⟨three, vs, hvs, hrefuses⟩ := hrefuses
      obtain ⟨a, b, d, rfl⟩ := List.length_eq_three.1 hvs
      exact hrefuses
    fills := by
      intro pc hpc
      obtain ⟨w3, w4, h3, hpc3, h4, hpc4⟩ := fallen_walks
      by_cases h : pc = 3
      · exact ⟨w3, h3, hpc3.trans h.symm⟩
      by_cases h' : pc = 4
      · exact ⟨w4, h4, hpc4.trans h'.symm⟩
      · simp [deeperTargets, h, h'] at hpc }
  installs := argCount_fallen ▸ installs_bodies.1 _ (by simp)

theorem fallen_returns : fallen.NativeReturns deeperTargets alone (argsBuf 80#64 [48#64])
    ⟨emptyHeap, emptyFrame⟩ 80#64 ⟨emptyHeap, emptyFrame⟩ := by
  obtain ⟨w3, w4, hw3, hpc3, hw4, hpc4⟩ := fallen_walks
  have w0 : fallen.Walks deeperTargets (⟨0, [80#64, 0#64, 48#64], false⟩ : Walk PolyWord) :=
    .entry _ argCount_fallen.symm
  have w1 : fallen.Walks deeperTargets (⟨1, [3#64, 80#64, 0#64, 48#64], false⟩ : Walk PolyWord) :=
    .round w0 (by decide) ⟨_, rfl⟩
  have h1 : fallen.Comes deeperTargets alone [80#64, 0#64, 48#64] ⟨emptyHeap, emptyFrame⟩ 1
      [3#64, 80#64, 0#64, 48#64] ⟨emptyHeap, emptyFrame⟩ := .goes .entry w0 (by decide) rfl
  have h3 : fallen.Comes deeperTargets alone [80#64, 0#64, 48#64] ⟨emptyHeap, emptyFrame⟩ 3
      [80#64, 0#64, 48#64] ⟨emptyHeap, emptyFrame⟩ := .jumps h1 w1 (by decide) rfl
  have h4 : fallen.Comes deeperTargets alone [80#64, 0#64, 48#64] ⟨emptyHeap, emptyFrame⟩ 4
      [80#64, 0#64, 48#64] ⟨emptyHeap, emptyFrame⟩ := .goes h3 ⟨rfl, w3, hw3, hpc3⟩ (by decide) rfl
  exact ⟨4, _, _, h4, ⟨rfl, w4, hw4, hpc4⟩, rfl⟩

theorem fallen_differs : fallen.Differs deeperTargets [48#64] 3 emptyHeap
    (calmAt emptyHeap 4 [7#64, 80#64, 21#64, 48#64]) 7#64 80#64 where
  installed := fallen_installed
  laid := ⟨by decide, by decide⟩
  run := rfl
  fetch := ⟨_, _, rfl⟩
  top := rfl
  native := ⟨_, fallen_returns⟩
  ne := by decide

theorem handled_differs : handled.Differs (fun _ => none) [48#64] 1 emptyHeap
    (calmAt emptyHeap 1 [9#64, 80#64, 21#64, 48#64]) 9#64 0#64 where
  installed := {
    accepted := handled_strays.accepted
    translated := handled_strays.translated
    installs := argCount_handled ▸ installs_bodies.1 _ (by simp) }
  laid := handled_strays.laid
  run := rfl
  fetch := ⟨_, _, rfl⟩
  top := rfl
  native := ⟨_, ((ComesStraight.entry [80#64, 0#64, 48#64] ⟨emptyHeap, emptyFrame⟩
    argCount_handled.symm).next (by decide) rfl).returns rfl⟩
  ne := by decide

theorem held_differs : held.Differs (fun _ => none) [48#64] 1 emptyHeap
    (calmAt emptyHeap 2 [4192#64, 1#64, 80#64, 21#64, 48#64]) 4192#64 8192#64 where
  installed := {
    accepted := by
      unfold scanBranchTargets scanStart
      rw [argCount_held]
      rfl
    translated := {
      accepts := by
        rintro ⟨args, hargs, hrefuses⟩
        obtain ⟨zero, slot, hrefuses⟩ := hrefuses
        exact hrefuses
      fills := fun pc hpc => by cases hpc }
    installs := argCount_held ▸ installs_bodies.1 _ (by simp) }
  laid := ⟨by decide, by decide⟩
  run := rfl
  fetch := ⟨_, _, rfl⟩
  top := rfl
  native := ⟨_, ((ComesStraight.entry [80#64, 0#64, 48#64] ⟨emptyHeap, emptyFrame⟩
    argCount_held.symm).next (by decide) rfl).returns rfl⟩
  ne := by decide

theorem added_differs : added.Differs (fun _ => none) [16#64] 3 emptyHeap
    (calmAt emptyHeap 3 [19#64, 80#64, 21#64, 16#64]) 19#64 18#64 where
  installed := {
    accepted := by
      unfold scanBranchTargets scanStart
      rw [argCount_added]
      rfl
    translated := {
      accepts := by
        rintro ⟨args, hargs, hrefuses⟩
        rw [argCount_added] at hargs
        obtain ⟨a, b, d, rfl⟩ := List.length_eq_three.1 hargs
        change (added.translateLoop (fun _ => none) 5 ⟨0, [a, b, d], false⟩ : Ir PolyWord Unit).Refuses at hrefuses
        rw [translateLoop_straight (by decide), translateOne_local (d := 2) rfl rfl, Emit.done_bind] at hrefuses
        obtain ⟨one, sum, one', diff, hrefuses⟩ := hrefuses
        exact hrefuses
      fills := fun pc hpc => by cases hpc }
    installs := argCount_added ▸ installs_bodies.1 _ (by simp) }
  laid := ⟨by decide, by decide⟩
  run := rfl
  fetch := ⟨_, _, rfl⟩
  top := rfl
  native := ⟨_, ((((ComesStraight.entry [80#64, 0#64, 16#64] ⟨emptyHeap, emptyFrame⟩
    argCount_added.symm).next (by decide) rfl).next (by decide) rfl).next (by decide) rfl).returns rfl⟩
  ne := by decide

theorem matched_translated : matched.Translated (fun _ => none) where
  accepts := by
    rintro ⟨args, hargs, hrefuses⟩
    rw [argCount_matched] at hargs
    match args, hargs with
    | [a, b, length, off2, p2, off1, p1], _ =>
      change (matched.translateLoop (fun _ => none) 9 ⟨0, _, false⟩ : Ir PolyWord Unit).Refuses at hrefuses
      rw [translateLoop_straight (by decide), translateOne_local (d := 6) rfl rfl, Emit.done_bind,
        translateLoop_straight (by decide), translateOne_local (d := 6) rfl rfl, Emit.done_bind,
        translateLoop_straight (by decide), translateOne_local (d := 6) rfl rfl, Emit.done_bind,
        translateLoop_straight (by decide), translateOne_local (d := 6) rfl rfl, Emit.done_bind,
        translateLoop_straight (by decide), translateOne_local (d := 6) rfl rfl, Emit.done_bind] at hrefuses
      obtain ⟨length, off2, off1, result, hrefuses⟩ := hrefuses
      exact hrefuses
  fills := fun pc hpc => by cases hpc

theorem matched_returns : matched.NativeReturns (fun _ => none) alone
    (argsBuf 80#64 [3#64, 1#64, 48#64, -1#64, 48#64]) ⟨comparedHeap, emptyFrame⟩ 3#64
    ⟨comparedHeap, emptyFrame⟩ := by
  have h0 : matched.ComesStraight [80#64, 0#64, 3#64, 1#64, 48#64, -1#64, 48#64]
      ⟨comparedHeap, emptyFrame⟩ 0 _ _ :=
    .entry [80#64, 0#64, 3#64, 1#64, 48#64, -1#64, 48#64] ⟨comparedHeap, emptyFrame⟩ argCount_matched.symm
  have h5 : matched.ComesStraight [80#64, 0#64, 3#64, 1#64, 48#64, -1#64, 48#64]
      ⟨comparedHeap, emptyFrame⟩ 5 [3#64, 1#64, 48#64, -1#64, 48#64, 80#64, 0#64, 3#64, 1#64, 48#64, -1#64,
        48#64] ⟨comparedHeap, emptyFrame⟩ :=
    ((((h0.next (by decide) rfl).next (by decide) rfl).next (by decide) rfl).next (by decide) rfl).next
      (by decide) rfl
  exact (h5.next (by decide) rfl).returns rfl

theorem matched_differs : matched.Differs (fun _ => none) [3#64, 1#64, 48#64, -1#64, 48#64] 6 comparedHeap
    (calmAt comparedHeap 6 [1#64, 80#64, 21#64, 3#64, 1#64, 48#64, -1#64, 48#64]) 1#64 3#64 where
  installed := {
    accepted := by
      unfold scanBranchTargets scanStart
      rw [argCount_matched]
      rfl
    translated := matched_translated
    installs := argCount_matched ▸ installs_bodies.2 }
  laid := ⟨by decide, by decide⟩
  run := rfl
  fetch := ⟨_, _, rfl⟩
  top := rfl
  native := ⟨_, matched_returns⟩
  ne := by decide

theorem copied_differs : copied.Differs (fun _ => none) [15#64] 2 closedHeap
    (calmAt closedAfter 3 [16392#64, 80#64, 21#64, 15#64]) 16392#64 1#64 where
  installed := {
    accepted := by
      unfold scanBranchTargets scanStart
      rw [argCount_copied]
      rfl
    translated := {
      accepts := by
        rintro ⟨args, hargs, hrefuses⟩
        rw [argCount_copied] at hargs
        obtain ⟨a, b, d, rfl⟩ := List.length_eq_three.1 hargs
        change (copied.translateLoop (fun _ => none) 5 ⟨0, [a, b, d], false⟩ : Ir PolyWord Unit).Refuses
          at hrefuses
        rw [translateLoop_straight (by decide), translateOne_local (d := 2) rfl rfl, Emit.done_bind] at hrefuses
        obtain ⟨n, closure, hrefuses⟩ := hrefuses
        exact hrefuses
      fills := fun pc hpc => by cases hpc }
    installs := argCount_copied ▸ installs_bodies.1 _ (by simp) }
  laid := ⟨by decide, by decide⟩
  run := rfl
  fetch := ⟨_, _, rfl⟩
  top := rfl
  native := ⟨_, (((ComesStraight.entry [80#64, 0#64, 15#64] ⟨closedHeap, emptyFrame⟩
    argCount_copied.symm).next (by decide) rfl).next (by decide) rfl).returns rfl⟩
  ne := by decide

theorem not_installed_returns :
    fallen.Differs deeperTargets [48#64] 3 emptyHeap (calmAt emptyHeap 4 [7#64, 80#64, 21#64, 48#64]) 7#64
        80#64 ∧
      handled.Differs (fun _ => none) [48#64] 1 emptyHeap (calmAt emptyHeap 1 [9#64, 80#64, 21#64, 48#64])
        9#64 0#64 ∧
      held.Differs (fun _ => none) [48#64] 1 emptyHeap
        (calmAt emptyHeap 2 [4192#64, 1#64, 80#64, 21#64, 48#64]) 4192#64 8192#64 ∧
      added.Differs (fun _ => none) [16#64] 3 emptyHeap (calmAt emptyHeap 3 [19#64, 80#64, 21#64, 16#64])
        19#64 18#64 ∧
      matched.Differs (fun _ => none) [3#64, 1#64, 48#64, -1#64, 48#64] 6 comparedHeap
        (calmAt comparedHeap 6 [1#64, 80#64, 21#64, 3#64, 1#64, 48#64, -1#64, 48#64]) 1#64 3#64 ∧
      copied.Differs (fun _ => none) [15#64] 2 closedHeap
        (calmAt closedAfter 3 [16392#64, 80#64, 21#64, 15#64]) 16392#64 1#64 :=
  ⟨fallen_differs, handled_differs, held_differs, added_differs, matched_differs, copied_differs⟩

end CompileInput
