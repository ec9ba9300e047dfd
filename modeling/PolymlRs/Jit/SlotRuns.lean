import PolymlRs.Jit.SlotSteps

set_option autoImplicit false

/-! # Runs of a body, slot by slot

An interpreter that goes through a body, and the native code of the body when it is entered with the same
words, come by the same places and have the same words there. -/

/-! ## What is read from bytes -/

theorem List.mem_of_lookup {α β : Type} [BEq α] [LawfulBEq α] {l : List (α × β)} {k : α} {b : β}
    (h : l.lookup k = some b) : (k, b) ∈ l := by
  obtain ⟨l₁, l₂, rfl, -⟩ := List.lookup_eq_some_iff.1 h
  exact List.mem_append_right l₁ List.mem_cons_self

theorem imm8_lt (bytecode : List UInt8) (pc : Nat) : imm8 bytecode pc < 256 := UInt8.toNat_lt _

theorem readU16Le_lt (bytecode : List UInt8) (pc : Nat) : readU16Le bytecode pc < 65536 := by
  have h0 := UInt8.toNat_lt (bytecode.getD pc 0)
  have h1 := UInt8.toNat_lt (bytecode.getD (pc + 1) 0)
  unfold readU16Le
  omega

theorem small_operands {bytecode : List UInt8} {pc n next : Nat} {i j : Instruction} (hi : i.Small)
    (h : operands bytecode pc n i = .ok (j, next)) : j.Small := by
  unfold operands at h
  split at h
  · cases h
  · obtain ⟨rfl, -⟩ := Prod.mk.inj (Except.ok.inj h)
    exact hi

/-- What is read from bytes is small. -/
theorem fetchInstr_small {bytecode : List UInt8} {opPc next : Nat} {i : Instruction}
    (h : fetchInstr bytecode opPc = .ok (i, next)) : i.Small := by
  have hplain : ∀ p ∈ plainInstrs, p.2.Small := by simp [plainInstrs, Instruction.Small]
  have hbyte : ∀ n < 256, ∀ p ∈ byteInstrs n, p.2.Small := by simp [byteInstrs, Instruction.Small]
  have hwide : ∀ n < 65536, ∀ p ∈ wideInstrs n, p.2.Small := by simp [wideInstrs, Instruction.Small]
  have hlong : ∀ pc, ∀ p ∈ longInstrs bytecode pc, p.2.2.Small := by simp [longInstrs, Instruction.Small]
  have hconst : ∀ pc, ∀ p ∈ constInstrs bytecode pc, p.2.2.Small := by simp [constInstrs, Instruction.Small]
  unfold fetchInstr at h
  dsimp only at h
  split at h
  · obtain ⟨rfl, -⟩ := Prod.mk.inj (Except.ok.inj h)
    trivial
  split at h
  · obtain ⟨rfl, -⟩ := Prod.mk.inj (Except.ok.inj h)
    trivial
  split at h
  · obtain ⟨rfl, -⟩ := Prod.mk.inj (Except.ok.inj h)
    trivial
  split at h
  · obtain ⟨rfl, -⟩ := Prod.mk.inj (Except.ok.inj h)
    trivial
  split at h
  · rename_i hlookup
    obtain ⟨rfl, -⟩ := Prod.mk.inj (Except.ok.inj h)
    exact hplain _ (List.mem_of_lookup hlookup)
  split at h
  · rename_i hlookup
    exact small_operands (hbyte _ (imm8_lt bytecode _) _ (List.mem_of_lookup hlookup)) h
  split at h
  · rename_i hlookup
    exact small_operands (hwide _ (readU16Le_lt bytecode _) _ (List.mem_of_lookup hlookup)) h
  split at h
  · rename_i hlookup
    exact small_operands (hlong _ _ (List.mem_of_lookup hlookup)) h
  split at h
  · rename_i hlookup
    unfold constOperands at h
    split at h
    · cases h
    · obtain ⟨rfl, -⟩ := Prod.mk.inj (Except.ok.inj h)
      exact hconst _ _ (List.mem_of_lookup hlookup)
  · cases h

namespace CompileInput

section Emitted

variable {c : CompileInput} {s : Scan} {o : Surroundings} {args : List PolyWord} {n₀ n : NativeState}
  {pc pc' : Nat} {vals vals' : List PolyWord}

/-! ## Where native code stands -/

/-- The code at a place is emitted in a round of the second pass. -/
theorem Emitted.round (hres : c.ScanResult s) (he : c.Emitted s.targets pc vals) :
    ∃ w : Walk PolyWord, c.Walks s.targets w ∧ w.pc = pc ∧
      (∀ w', (c.translateOne s.targets pc vals).Reaches w' → (c.round s.targets w).Reaches w') ∧
      ((c.translateOne s.targets pc vals).Refuses → (c.round s.targets w).Refuses) := by
  unfold Emitted at he
  cases ht : s.targets pc with
  | none =>
    rw [ht] at he
    have hround : c.round s.targets ⟨pc, vals, false⟩ = c.translateOne s.targets pc vals := by
      rw [CompileInput.round, ht]
      rfl
    refine ⟨⟨pc, vals, false⟩, he, rfl, ?_⟩
    rw [hround]
    exact ⟨fun _ hw' => hw', fun hrefuses => hrefuses⟩
  | some expected =>
    rw [ht] at he
    obtain ⟨hlen, w, hw, rfl⟩ := he
    refine ⟨w, hw, rfl, ?_⟩
    rw [CompileInput.round, ht]
    dsimp only
    cases hr : w.returned with
    | true => exact ⟨fun w' hw' => ⟨vals, hlen, hw'⟩, fun hrefuses => ⟨vals, hlen, hrefuses⟩⟩
    | false =>
      have htrunc := length_truncate ((hw.inLine hres).le_length hr ht)
      rw [if_neg (by simp), if_neg (by omega)]
      exact ⟨fun w' hw' => ⟨vals, hlen, hw'⟩, fun hrefuses => ⟨vals, hlen, hrefuses⟩⟩

theorem Emitted.scanDepth (hres : c.ScanResult s) (he : c.Emitted s.targets pc vals) :
    s.scanDepth pc = some vals.length := by
  unfold Emitted at he
  cases ht : s.targets pc with
  | none =>
    rw [ht] at he
    obtain ⟨d, hd, -, hexact⟩ := Walks.inLine hres he rfl
    rw [hd, hexact ht]
  | some expected =>
    rw [ht] at he
    rw [Scan.scanDepth, ht, he.1]
    rfl

theorem Emitted.not_refuses (hres : c.ScanResult s) (htr : c.Translated s.targets)
    (he : c.Emitted s.targets pc vals) (hpc : pc < c.bytecode.length) :
    ¬ (c.translateOne s.targets pc vals).Refuses := by
  intro hrefuses
  obtain ⟨w, hw, rfl, -, hround⟩ := he.round hres
  exact hw.not_refuses hres hpc htr.accepts (hround hrefuses)

/-- Where the code goes on below an instruction. -/
theorem Emitted.goes (hres : c.ScanResult s) (he : c.Emitted s.targets pc vals)
    (hpc : pc < c.bytecode.length)
    (hr : (c.translateOne s.targets pc vals).Reaches ⟨pc', vals', false⟩) :
    c.Emitted s.targets pc' (arrive s.targets pc' vals') := by
  obtain ⟨w, hw, rfl, hround, -⟩ := he.round hres
  have hw' : c.Walks s.targets (⟨pc', vals', false⟩ : Walk PolyWord) := .round hw hpc (hround _ hr)
  unfold Emitted arrive
  cases ht : s.targets pc' with
  | none => exact hw'
  | some expected => exact ⟨length_truncate ((hw'.inLine hres).le_length rfl ht), _, hw', rfl⟩

/-- Where the code jumps to. -/
theorem Emitted.jumps (htr : c.Translated s.targets) (hfits : FitsBlock s.targets ⟨pc', vals'⟩) :
    c.Emitted s.targets pc' vals' := by
  have ht : s.targets pc' = some vals'.length := hfits
  unfold Emitted
  rw [ht]
  exact ⟨rfl, htr.fills pc' (by rw [ht]; rfl)⟩

/-- Native code runs code that has been emitted. -/
theorem Comes.emitted (hres : c.ScanResult s) (htr : c.Translated s.targets)
    (hargs : args.length = c.argCount) (hc : c.Comes s.targets o args n₀ pc vals n) :
    c.Emitted s.targets pc vals := by
  induction hc with
  | entry =>
    have hw : c.Walks s.targets (⟨c.entryPc, args, false⟩ : Walk PolyWord) := .entry args hargs
    unfold Emitted arrive
    cases ht : s.targets c.entryPc with
    | none => exact hw
    | some expected => exact ⟨length_truncate ((hw.inLine hres).le_length rfl ht), _, hw, rfl⟩
  | goes _ he hpc hx _ => exact he.goes hres hpc (Emit.reaches_of_exec hx)
  | jumps _ he _ hx _ =>
    exact .jumps htr ((translateOne_ends hres (he.scanDepth hres)).of_exec_jump hx)

end Emitted

/-! ## Paths -/

section Paths

variable (c : CompileInput) (blockAt : Nat → Option Nat) (o : Surroundings)

/-- The places that the interpreter comes to, and what is known of the slots there. It goes on from a block
    when it has no more words than the block takes. -/
inductive Path (s₀ : Activation) (marks₀ : List Mark) : Activation → List Mark → Prop
  | entry : Path s₀ marks₀ s₀ marks₀
  | step {s s' : Activation} {marks marks' : List Mark} {i : Instruction} {pc : Nat}
      (h : Path s₀ marks₀ s marks) (hlevel : ∀ d, blockAt s.pc = some d → marks.length = d)
      (hfetch : fetchInstr c.bytecode s.pc = .ok (i, pc)) (hstep : c.stepOne o s = some s')
      (halike : c.Alike o i pc s marks) (hmark : c.mark i pc s marks = some marks') :
      Path s₀ marks₀ s' marks'

/-- The native code is where the interpreter is, with its words but for those on top that the block there
    does not take. -/
structure Meets (args : List PolyWord) (n₀ : NativeState) (s : Activation) (marks : List Mark)
    (base : Nat → PolyWord) (frame : NativeFrame) (vals : List PolyWord) : Prop where
  comes : c.Comes blockAt o args n₀ s.pc vals ⟨s.heap, frame⟩
  holds : Holds o base frame (marks.drop (marks.length - vals.length)) vals
    (s.stack.drop (marks.length - vals.length))
  block : ∀ d, blockAt s.pc = some d → vals.length = d
  inside : blockAt s.pc = none → vals.length = marks.length

end Paths

variable {c : CompileInput} {sc : Scan} {o : Surroundings} {args : List PolyWord} {n₀ : NativeState}
  {s s' : Activation} {marks marks' : List Mark} {base : Nat → PolyWord} {frame : NativeFrame}
  {vals : List PolyWord}

theorem Meets.level (hm : c.Meets sc.targets o args n₀ s marks base frame vals)
    (hlevel : ∀ d, sc.targets s.pc = some d → marks.length = d) :
    Holds o base frame marks vals s.stack := by
  have hlen : vals.length = marks.length := by
    cases ht : sc.targets s.pc with
    | none => exact hm.inside ht
    | some d => rw [hm.block d ht, hlevel d ht]
  have hholds := hm.holds
  rwa [hlen, Nat.sub_self] at hholds

/-- The code comes to a place from above. -/
theorem meets_arrive (hin : InLine sc (⟨s.pc, vals, false⟩ : Walk PolyWord))
    (hs : Holds o base frame marks vals s.stack)
    (hc : c.Comes sc.targets o args n₀ s.pc (arrive sc.targets s.pc vals) ⟨s.heap, frame⟩) :
    c.Meets sc.targets o args n₀ s marks base frame (arrive sc.targets s.pc vals) := by
  unfold arrive at hc ⊢
  cases ht : sc.targets s.pc with
  | none =>
    rw [ht] at hc
    dsimp only at hc ⊢
    refine ⟨hc, ?_, fun d hd => ?_, fun _ => hs.length_eq.symm⟩
    · rw [hs.length_eq, Nat.sub_self]
      exact hs
    · rw [ht] at hd
      cases hd
  | some expected =>
    rw [ht] at hc
    dsimp only at hc ⊢
    have hlen := length_truncate (hin.le_length rfl ht)
    dsimp only at hlen
    refine ⟨hc, ?_, fun d hd => ?_, fun hnone => ?_⟩
    · rw [hlen, hs.length_eq]
      exact hs.drop (Nat.sub_le _ _)
    · rw [hlen]
      exact Option.some.inj (ht.symm.trans hd)
    · rw [ht] at hnone
      cases hnone

/-- Both take a step. -/
theorem Meets.step (hres : c.ScanResult sc) (htr : c.Translated sc.targets) (hlaid : o.Laid c.bytecode)
    (hargs : args.length = c.argCount) {i : Instruction} {pc : Nat}
    (hm : c.Meets sc.targets o args n₀ s marks base frame vals)
    (hlevel : ∀ d, sc.targets s.pc = some d → marks.length = d)
    (hfetch : fetchInstr c.bytecode s.pc = .ok (i, pc)) (hstep : c.stepOne o s = some s')
    (halike : c.Alike o i pc s marks) (hmark : c.mark i pc s marks = some marks') :
    ∃ base' frame' vals', c.Meets sc.targets o args n₀ s' marks' base' frame' vals' := by
  have he := hm.comes.emitted hres htr hargs
  have hd := he.scanDepth hres
  unfold stepOne at hstep
  split at hstep
  · cases hstep
  rename_i hpc
  replace hpc : s.pc < c.bytecode.length := Nat.not_le.1 hpc
  rw [hfetch] at hstep
  have hcode : (c.translateOne sc.targets s.pc vals : Ir PolyWord (Walk PolyWord)) =
      c.translateInstr sc.targets i s.pc pc vals := by
    rw [translateOne, hfetch]
  obtain ⟨edges, hscan, hedges⟩ := hres.closed hd
  unfold scanOneOpcode at hscan
  rw [hfetch] at hscan
  replace hscan : c.scanInstr i s.pc pc vals.length = .ok edges := hscan
  have hblocks : ∀ e ∈ edges, e.isBlockTarget = true → sc.targets e.pc = some e.depth := by
    intro e he hb
    have hagrees := (hedges e he).1
    rwa [Scan.Agrees, if_pos hb] at hagrees
  have hok := he.not_refuses hres htr hpc
  rw [hcode] at hok
  obtain ⟨base', frame', vals', hs', hgoes | hjumps⟩ := follows (o := o) ⟨hpc, hfetch, hstep, hlaid,
    hm.level hlevel, halike, hmark, hscan, hblocks, hok, fetchInstr_small hfetch⟩
  · rw [← hcode] at hgoes
    have hin := (translateOne_ends hres hd).of_reaches (Emit.reaches_of_exec hgoes)
    exact ⟨base', frame', _, meets_arrive hin.2 hs' (.goes hm.comes he hpc hgoes)⟩
  · rw [← hcode] at hjumps
    have hfits : sc.targets s'.pc = some vals'.length := (translateOne_ends hres hd).of_exec_jump hjumps
    refine ⟨base', frame', vals', .jumps hm.comes he hpc hjumps, ?_, fun d hd => ?_, fun hnone => ?_⟩
    · rw [hs'.length_eq, Nat.sub_self]
      exact hs'
    · exact Option.some.inj (hfits.symm.trans hd)
    · rw [hfits] at hnone
      cases hnone

/-- The whole way. -/
theorem Path.meets (hres : c.ScanResult sc) (htr : c.Translated sc.targets) (hlaid : o.Laid c.bytecode)
    (hargs : args.length = c.argCount) {s₀ : Activation} {marks₀ : List Mark} (hpc : s₀.pc = c.entryPc)
    (hs₀ : Holds o base frame marks₀ args s₀.stack) (hpath : c.Path sc.targets o s₀ marks₀ s marks) :
    ∃ base' frame' vals,
      c.Meets sc.targets o args ⟨s₀.heap, frame⟩ s marks base' frame' vals := by
  induction hpath with
  | entry =>
    have hw : c.Walks sc.targets (⟨c.entryPc, args, false⟩ : Walk PolyWord) := .entry args hargs
    have hcomes : c.Comes sc.targets o args ⟨s₀.heap, frame⟩ c.entryPc (arrive sc.targets c.entryPc args)
        ⟨s₀.heap, frame⟩ := .entry
    rw [← hpc] at hw hcomes
    exact ⟨base, frame, _, meets_arrive (hw.inLine hres) hs₀ hcomes⟩
  | step _ hlevel hfetch hstep halike hmark ih =>
    obtain ⟨base', frame', vals, hm⟩ := ih
    exact hm.step hres htr hlaid hargs hlevel hfetch hstep halike hmark

/-! ## The two passes and the interpreter -/

/-- In a body that the scan accepts, every edge of the second pass hands a block as many values as the block
    takes, no block is missing, and no block is fallen into with too few values; and where the interpreter
    comes, the native code comes with its words. -/
theorem translate_follows {targets : Nat → Option Nat} (hacc : c.scanBranchTargets = some (.ok targets)) :
    (∀ {V : Type}, (c.translate targets : Ir V Unit).Ends (FitsBlock targets) (fun _ => True) ∧
      ∀ w : Walk V, c.Walks targets w → w.returned = false →
        ∀ d, targets w.pc = some d → d ≤ w.stack.length) ∧
      (c.Translated targets → o.Laid c.bytecode → ∀ (args : List PolyWord) (base : Nat → PolyWord)
        (frame : NativeFrame) (s₀ : Activation) (marks₀ : List Mark), args.length = c.argCount →
        s₀.pc = c.entryPc → Holds o base frame marks₀ args s₀.stack →
        ∀ (s : Activation) (marks : List Mark), c.Path targets o s₀ marks₀ s marks →
          ∃ base' frame' vals, c.Meets targets o args ⟨s₀.heap, frame⟩ s marks base' frame' vals) := by
  obtain ⟨sc, hres, rfl⟩ := scanResult_of_accepted hacc
  exact ⟨⟨translate_ends hres, fun w hw hr d hd => (hw.inLine hres).le_length hr hd⟩,
    fun htr hlaid args base frame s₀ marks₀ hargs hpc hs₀ s marks hpath =>
      hpath.meets hres htr hlaid hargs hpc hs₀⟩

/-! ## Bodies -/

/-- `if true then 2 else 3`. -/
def choice : CompileInput where
  fullBody := [instrConst1, instrJump8False, 3, instrConst2, instrJump8, 1, instrConst3, instrReturn1]
  bytecodeEnd := 8
  heap := fun _ => 0#64
  codeStart := 0

/-- 3 is put into a container of two words and taken out again. -/
def boxed : CompileInput where
  fullBody := [instrStackContainerB, 2, instrConst3, instrMoveToContainerB, 1, instrIndirectContainerB, 1,
    instrReturn1]
  bytecodeEnd := 8
  heap := fun _ => 0#64
  codeStart := 0

/-- The block at 4 is fallen into with a word that it does not take. -/
def deeper : CompileInput where
  fullBody := [instrConst1, instrJump8False, 1, instrConst1, instrConst2, instrReturn1]
  bytecodeEnd := 6
  heap := fun _ => 0#64
  codeStart := 0

def handled : CompileInput where
  fullBody := [instrPushHandler, instrReturn1]
  bytecodeEnd := 2
  heap := fun _ => 0#64
  codeStart := 0

/-- One is added to the argument, which is an address. -/
def summed : CompileInput where
  fullBody := [instrReset2, instrConst1, instrFixedAdd, instrReturn1]
  bytecodeEnd := 4
  heap := fun _ => 0#64
  codeStart := 0

/-- The byte below 48 is compared with the one at 48. -/
def compared : CompileInput where
  fullBody := [instrReset2, instrBlockEqualByte, instrReturnB, 5]
  bytecodeEnd := 4
  heap := fun _ => 0#64
  codeStart := 0

/-- A closure with the code of the argument, which is no closure. -/
def closed : CompileInput where
  fullBody := [instrReset2, instrAllocMutClosureB, 0, instrReturn1]
  bytecodeEnd := 4
  heap := fun _ => 0#64
  codeStart := 0

theorem argCount_bodies : choice.argCount = 3 ∧ boxed.argCount = 3 ∧ deeper.argCount = 3 ∧
    handled.argCount = 3 ∧ summed.argCount = 3 ∧ compared.argCount = 7 ∧ closed.argCount = 3 := by
  decide +kernel

theorem argCount_choice : choice.argCount = 3 := argCount_bodies.1

theorem argCount_boxed : boxed.argCount = 3 := argCount_bodies.2.1

theorem argCount_deeper : deeper.argCount = 3 := argCount_bodies.2.2.1

theorem argCount_handled : handled.argCount = 3 := argCount_bodies.2.2.2.1

theorem argCount_summed : summed.argCount = 3 := argCount_bodies.2.2.2.2.1

theorem argCount_compared : compared.argCount = 7 := argCount_bodies.2.2.2.2.2.1

theorem argCount_closed : closed.argCount = 3 := argCount_bodies.2.2.2.2.2.2

/-! ## A choice between two blocks -/

def choiceTargets : Nat → Option Nat :=
  Function.update (Function.update (Function.update (fun _ => none) 6 (some 3)) 3 (some 3)) 7 (some 4)

/-- Nothing is called, and native code has room for one container of two words. -/
def alone : Surroundings where
  stackLen := 16
  outerLen := 0
  stackAt := 4096
  nativeSlot := fun _ => 8192#64
  nativeAt := fun a => if a = 8192#64 then some (0, 0) else if a = 8200#64 then some (0, 1) else none
  rootThread := none
  doCall := fun _ _ _ => none
  rts := fun _ _ _ => none
  closureCall := fun _ _ _ => none
  rtsTrampoline := fun _ _ _ => none

def emptyHeap : Heap where
  mem := fun _ => 0#64
  space := none
  threadObject := none

def emptyFrame : NativeFrame where
  container := fun _ _ => 0#64
  outer := []

/-- At `pc`, where no exception has been raised. -/
def calmAt (heap : Heap) (pc : Nat) (stack : List PolyWord) : Activation where
  pc := pc
  stack := stack
  heap := heap
  handlerSp := 9
  exceptionPacket := none

theorem choice_accepted : choice.scanBranchTargets = some (.ok choiceTargets) := by
  unfold scanBranchTargets scanStart
  rw [argCount_choice]
  rfl

theorem choice_laid : alone.Laid choice.bytecode where
  stack := by decide
  containers := by decide

theorem choice_translated : choice.Translated choiceTargets where
  accepts := by
    rintro ⟨args, hargs, hrefuses⟩
    rw [argCount_choice] at hargs
    obtain ⟨a, b, d, rfl⟩ := List.length_eq_three.1 hargs
    obtain ⟨one, zero, isZero, vs, hvs, hrefuses⟩ := hrefuses
    obtain ⟨a, b, d, rfl⟩ := List.length_eq_three.1 hvs
    obtain ⟨two, vs, hvs, hrefuses⟩ := hrefuses
    obtain ⟨a, b, d, rfl⟩ := List.length_eq_three.1 hvs
    obtain ⟨three, vs, hvs, hrefuses⟩ := hrefuses
    cases vs with
    | nil => cases hvs
    | cons v vs => exact hrefuses
  fills := by
    intro pc hpc
    have h0 : choice.Walks choiceTargets (⟨0, [0#64, 0#64, 0#64], false⟩ : Walk PolyWord) :=
      .entry _ argCount_choice.symm
    have h1 : choice.Walks choiceTargets (⟨1, [3#64, 0#64, 0#64, 0#64], false⟩ : Walk PolyWord) :=
      .round h0 (by decide) ⟨_, rfl⟩
    have h3 : choice.Walks choiceTargets (⟨3, [0#64, 0#64, 0#64], true⟩ : Walk PolyWord) :=
      .round h1 (by decide) ⟨0#64, 0#64, rfl⟩
    have h4 : choice.Walks choiceTargets (⟨4, [5#64, 0#64, 0#64, 0#64], false⟩ : Walk PolyWord) :=
      .round h3 (by decide) ⟨[0#64, 0#64, 0#64], rfl, _, rfl⟩
    have h6 : choice.Walks choiceTargets (⟨6, [5#64, 0#64, 0#64, 0#64], true⟩ : Walk PolyWord) :=
      .round h4 (by decide) rfl
    have h7 : choice.Walks choiceTargets (⟨7, [7#64, 0#64, 0#64, 0#64], false⟩ : Walk PolyWord) :=
      .round h6 (by decide) ⟨[0#64, 0#64, 0#64], rfl, _, rfl⟩
    by_cases hpc7 : pc = 7
    · exact ⟨_, h7, hpc7.symm⟩
    by_cases hpc3 : pc = 3
    · exact ⟨_, h3, hpc3.symm⟩
    by_cases hpc6 : pc = 6
    · exact ⟨_, h6, hpc6.symm⟩
    · simp [choiceTargets, hpc7, hpc3, hpc6] at hpc

/-- The closure, the return address and an argument are on the stack. -/
theorem choice_path :
    choice.Path choiceTargets alone (calmAt emptyHeap 0 [48#64, 21#64, 15#64]) [.same, .placeholder, .same]
      (calmAt emptyHeap 7 [5#64, 48#64, 21#64, 15#64]) [.same, .same, .placeholder, .same] := by
  have h1 : choice.Path choiceTargets alone (calmAt emptyHeap 0 [48#64, 21#64, 15#64])
      [.same, .placeholder, .same] (calmAt emptyHeap 1 [3#64, 48#64, 21#64, 15#64])
      [.same, .same, .placeholder, .same] :=
    .step .entry (fun d hd => by cases hd) rfl rfl ⟨List.forall_mem_nil _, trivial⟩ rfl
  have h3 : choice.Path choiceTargets alone (calmAt emptyHeap 0 [48#64, 21#64, 15#64])
      [.same, .placeholder, .same] (calmAt emptyHeap 3 [48#64, 21#64, 15#64]) [.same, .placeholder, .same] :=
    .step h1 (fun d hd => by cases hd) rfl rfl ⟨List.forall_mem_nil _, trivial⟩ rfl
  have h4 : choice.Path choiceTargets alone (calmAt emptyHeap 0 [48#64, 21#64, 15#64])
      [.same, .placeholder, .same] (calmAt emptyHeap 4 [5#64, 48#64, 21#64, 15#64])
      [.same, .same, .placeholder, .same] :=
    .step h3 (fun d hd => Option.some.inj hd) rfl rfl ⟨List.forall_mem_nil _, trivial⟩ rfl
  exact .step h4 (fun d hd => by cases hd) rfl rfl ⟨List.forall_mem_nil _, trivial⟩ rfl

/-! ## A container -/

theorem boxed_accepted : boxed.scanBranchTargets = some (.ok (fun _ => none)) := by
  unfold scanBranchTargets scanStart
  rw [argCount_boxed]
  rfl

theorem boxed_laid : alone.Laid boxed.bytecode where
  stack := by decide
  containers := by decide

theorem boxed_translated : boxed.Translated (fun _ => none) where
  accepts := by
    rintro ⟨args, hargs, hrefuses⟩
    obtain ⟨zero, slot, three, word, hrefuses⟩ := hrefuses
    exact hrefuses
  fills := fun pc hpc => by cases hpc

/-- The marks of `boxed` once it has its container. -/
def boxedMarks : List Mark := [.container 0, .word 0 0, .word 0 1, .same, .placeholder, .same]

theorem boxed_path :
    boxed.Path (fun _ => none) alone (calmAt emptyHeap 0 [48#64, 21#64, 15#64]) [.same, .placeholder, .same]
      (calmAt emptyHeap 7 [7#64, 1#64, 7#64, 48#64, 21#64, 15#64]) (.same :: boxedMarks.tail) := by
  have h2 : boxed.Path (fun _ => none) alone (calmAt emptyHeap 0 [48#64, 21#64, 15#64])
      [.same, .placeholder, .same] (calmAt emptyHeap 2 [4184#64, 1#64, 1#64, 48#64, 21#64, 15#64])
      boxedMarks :=
    .step .entry (fun d hd => by cases hd) rfl rfl ⟨List.forall_mem_nil _, trivial⟩ rfl
  have h3 : boxed.Path (fun _ => none) alone (calmAt emptyHeap 0 [48#64, 21#64, 15#64])
      [.same, .placeholder, .same] (calmAt emptyHeap 3 [7#64, 4184#64, 1#64, 1#64, 48#64, 21#64, 15#64])
      (.same :: boxedMarks) :=
    .step h2 (fun d hd => by cases hd) rfl rfl ⟨List.forall_mem_nil _, trivial⟩ rfl
  have h5 : boxed.Path (fun _ => none) alone (calmAt emptyHeap 0 [48#64, 21#64, 15#64])
      [.same, .placeholder, .same] (calmAt emptyHeap 5 [4184#64, 1#64, 7#64, 48#64, 21#64, 15#64])
      boxedMarks :=
    .step h3 (fun d hd => by cases hd) rfl rfl ⟨List.forall_mem_nil _, trivial⟩ rfl
  exact .step h5 (fun d hd => by cases hd) rfl rfl ⟨List.forall_mem_nil _, trivial⟩ rfl

theorem translate_follows_choice :
    (choice.translate choiceTargets : Ir PolyWord Unit).Ends (FitsBlock choiceTargets) (fun _ => True) ∧
      (∃ base frame vals, choice.Meets choiceTargets alone [48#64, 0#64, 15#64] ⟨emptyHeap, emptyFrame⟩
        (calmAt emptyHeap 7 [5#64, 48#64, 21#64, 15#64]) [.same, .same, .placeholder, .same] base frame
        vals) ∧
      ∃ base frame vals, boxed.Meets (fun _ => none) alone [48#64, 0#64, 15#64] ⟨emptyHeap, emptyFrame⟩
        (calmAt emptyHeap 7 [7#64, 1#64, 7#64, 48#64, 21#64, 15#64]) (.same :: boxedMarks.tail) base frame
        vals := by
  have h := translate_follows (o := alone) choice_accepted
  have hboxed := translate_follows (o := alone) boxed_accepted
  have hstart : Holds alone (fun _ => 0#64) emptyFrame [.same, .placeholder, .same] [48#64, 0#64, 15#64]
      [48#64, 21#64, 15#64] := .cons rfl (.cons trivial (.cons rfl (.nil List.nil_suffix rfl)))
  exact ⟨h.1.1,
    h.2 choice_translated choice_laid [48#64, 0#64, 15#64] _ _ _ _ argCount_choice.symm rfl hstart _ _
      choice_path,
    hboxed.2 boxed_translated boxed_laid [48#64, 0#64, 15#64] _ _ _ _ argCount_boxed.symm rfl hstart _ _
      boxed_path⟩

/-! ## Other words -/

/-- The interpreter comes to `s` in `n` steps and the native code to the same place, with another word in a
    slot, whether slots are counted from the top or from the bottom. -/
structure Strays (c : CompileInput) (targets : Nat → Option Nat) (n : Nat) (s₀ s : Activation)
    (vals : List PolyWord) : Prop where
  accepted : c.scanBranchTargets = some (.ok targets)
  translated : c.Translated targets
  laid : alone.Laid c.bytecode
  starts : s₀.pc = c.entryPc ∧ s₀.stack.length = c.argCount
  run : (Option.bind · (c.stepOne alone))^[n] (some s₀) = some s
  comes : ∃ n', c.Comes targets alone s₀.stack ⟨s₀.heap, emptyFrame⟩ s.pc vals n'
  fromTop : ∃ (k : Nat) (x y : PolyWord), vals[k]? = some x ∧ s.stack[k]? = some y ∧ x ≠ y
  fromBottom : ∃ (k : Nat) (x y : PolyWord), vals.reverse[k]? = some x ∧ s.stack.reverse[k]? = some y ∧ x ≠ y

def deeperTargets : Nat → Option Nat :=
  Function.update (Function.update (fun _ => none) 4 (some 3)) 3 (some 3)

theorem deeper_accepted : deeper.scanBranchTargets = some (.ok deeperTargets) := by
  unfold scanBranchTargets scanStart
  rw [argCount_deeper]
  rfl

theorem deeper_walks : ∃ w3 w4 : Walk PolyWord, deeper.Walks deeperTargets w3 ∧ w3.pc = 3 ∧
    deeper.Walks deeperTargets w4 ∧ w4.pc = 4 := by
  have h0 : deeper.Walks deeperTargets (⟨0, [0#64, 0#64, 0#64], false⟩ : Walk PolyWord) :=
    .entry _ argCount_deeper.symm
  have h1 : deeper.Walks deeperTargets (⟨1, [3#64, 0#64, 0#64, 0#64], false⟩ : Walk PolyWord) :=
    .round h0 (by decide) ⟨_, rfl⟩
  have h3 : deeper.Walks deeperTargets (⟨3, [0#64, 0#64, 0#64], true⟩ : Walk PolyWord) :=
    .round h1 (by decide) ⟨0#64, 0#64, rfl⟩
  have h4 : deeper.Walks deeperTargets (⟨4, [3#64, 0#64, 0#64, 0#64], false⟩ : Walk PolyWord) :=
    .round h3 (by decide) ⟨[0#64, 0#64, 0#64], rfl, _, rfl⟩
  exact ⟨_, _, h3, rfl, h4, rfl⟩

theorem deeper_translated : deeper.Translated deeperTargets where
  accepts := by
    rintro ⟨args, hargs, hrefuses⟩
    rw [argCount_deeper] at hargs
    obtain ⟨a, b, d, rfl⟩ := List.length_eq_three.1 hargs
    obtain ⟨one, zero, isZero, vs, hvs, hrefuses⟩ := hrefuses
    obtain ⟨a, b, d, rfl⟩ := List.length_eq_three.1 hvs
    obtain ⟨one, vs, hvs, hrefuses⟩ := hrefuses
    obtain ⟨a, b, d, rfl⟩ := List.length_eq_three.1 hvs
    obtain ⟨two, hrefuses⟩ := hrefuses
    exact hrefuses
  fills := by
    intro pc hpc
    obtain ⟨w3, w4, h3, hpc3, h4, hpc4⟩ := deeper_walks
    by_cases h : pc = 3
    · exact ⟨w3, h3, hpc3.trans h.symm⟩
    by_cases h' : pc = 4
    · exact ⟨w4, h4, hpc4.trans h'.symm⟩
    · simp [deeperTargets, h, h'] at hpc

theorem deeper_comes : deeper.Comes deeperTargets alone [48#64, 21#64, 15#64] ⟨emptyHeap, emptyFrame⟩ 5
    [5#64, 48#64, 21#64, 15#64] ⟨emptyHeap, emptyFrame⟩ := by
  obtain ⟨w3, w4, hw3, hpc3, hw4, hpc4⟩ := deeper_walks
  have w0 : deeper.Walks deeperTargets (⟨0, [48#64, 21#64, 15#64], false⟩ : Walk PolyWord) :=
    .entry _ argCount_deeper.symm
  have w1 : deeper.Walks deeperTargets (⟨1, [3#64, 48#64, 21#64, 15#64], false⟩ : Walk PolyWord) :=
    .round w0 (by decide) ⟨_, rfl⟩
  have h1 : deeper.Comes deeperTargets alone [48#64, 21#64, 15#64] ⟨emptyHeap, emptyFrame⟩ 1
      [3#64, 48#64, 21#64, 15#64] ⟨emptyHeap, emptyFrame⟩ := .goes .entry w0 (by decide) rfl
  have h3 : deeper.Comes deeperTargets alone [48#64, 21#64, 15#64] ⟨emptyHeap, emptyFrame⟩ 3
      [48#64, 21#64, 15#64] ⟨emptyHeap, emptyFrame⟩ := .jumps h1 w1 (by decide) rfl
  have h4 : deeper.Comes deeperTargets alone [48#64, 21#64, 15#64] ⟨emptyHeap, emptyFrame⟩ 4
      [48#64, 21#64, 15#64] ⟨emptyHeap, emptyFrame⟩ := .goes h3 ⟨rfl, w3, hw3, hpc3⟩ (by decide) rfl
  exact .goes h4 ⟨rfl, w4, hw4, hpc4⟩ (by decide) rfl

theorem deeper_strays :
    deeper.Strays deeperTargets 4 (calmAt emptyHeap 0 [48#64, 21#64, 15#64])
      (calmAt emptyHeap 5 [5#64, 3#64, 48#64, 21#64, 15#64]) [5#64, 48#64, 21#64, 15#64] where
  accepted := deeper_accepted
  translated := deeper_translated
  laid := ⟨by decide, by decide⟩
  starts := ⟨rfl, argCount_deeper.symm⟩
  run := rfl
  comes := ⟨_, deeper_comes⟩
  fromTop := ⟨1, 48#64, 3#64, rfl, rfl, by decide⟩
  fromBottom := ⟨3, 5#64, 3#64, rfl, rfl, by decide⟩

/-! ### Bodies without blocks -/

section Straight

variable {c : CompileInput} {args stack stack' : List PolyWord} {n₀ n n' : NativeState} {pc pc' : Nat}

/-- Native code is at `pc`, below no block. -/
def ComesStraight (c : CompileInput) (args : List PolyWord) (n₀ : NativeState) (pc : Nat)
    (stack : List PolyWord) (n : NativeState) : Prop :=
  c.Comes (fun _ => none) alone args n₀ pc stack n ∧ c.Walks (fun _ => none) ⟨pc, stack, false⟩

theorem ComesStraight.entry (args : List PolyWord) (n₀ : NativeState) (h : args.length = c.argCount) :
    c.ComesStraight args n₀ c.entryPc args n₀ :=
  ⟨.entry, .entry args h⟩

theorem ComesStraight.next (h : c.ComesStraight args n₀ pc stack n) (hpc : pc < c.bytecode.length)
    (hx : (c.translateOne (fun _ => none) pc stack).exec (machine alone) n =
      some (.goesOn ⟨pc', stack', false⟩ n')) : c.ComesStraight args n₀ pc' stack' n' :=
  ⟨.goes h.1 h.2 hpc hx, .round h.2 hpc (Emit.reaches_of_exec hx)⟩

end Straight

theorem handled_strays :
    handled.Strays (fun _ => none) 1 (calmAt emptyHeap 0 [48#64, 21#64, 15#64])
      (calmAt emptyHeap 1 [9#64, 48#64, 21#64, 15#64]) [0#64, 48#64, 21#64, 15#64] where
  accepted := by
    unfold scanBranchTargets scanStart
    rw [argCount_handled]
    rfl
  translated := {
    accepts := by
      rintro ⟨args, hargs, hrefuses⟩
      obtain ⟨zero, hrefuses⟩ := hrefuses
      exact hrefuses
    fills := fun pc hpc => by cases hpc }
  laid := ⟨by decide, by decide⟩
  starts := ⟨rfl, argCount_handled.symm⟩
  run := rfl
  comes := ⟨_, ((ComesStraight.entry [48#64, 21#64, 15#64] ⟨emptyHeap, emptyFrame⟩
    argCount_handled.symm).next (by decide) rfl).1⟩
  fromTop := ⟨0, 0#64, 9#64, rfl, rfl, by decide⟩
  fromBottom := ⟨3, 0#64, 9#64, rfl, rfl, by decide⟩

/-- A container lies elsewhere, and its words are no slots of native code's. -/
theorem boxed_strays :
    boxed.Strays (fun _ => none) 3 (calmAt emptyHeap 0 [48#64, 21#64, 15#64])
      (calmAt emptyHeap 5 [4184#64, 1#64, 7#64, 48#64, 21#64, 15#64])
      [8192#64, 1#64, 1#64, 48#64, 21#64, 15#64] where
  accepted := boxed_accepted
  translated := boxed_translated
  laid := boxed_laid
  starts := ⟨rfl, argCount_boxed.symm⟩
  run := rfl
  comes := by
    have h0 : boxed.ComesStraight [48#64, 21#64, 15#64] ⟨emptyHeap, emptyFrame⟩ 0 _ _ :=
      .entry [48#64, 21#64, 15#64] ⟨emptyHeap, emptyFrame⟩ argCount_boxed.symm
    have h2 : boxed.ComesStraight [48#64, 21#64, 15#64] ⟨emptyHeap, emptyFrame⟩ 2
        [8192#64, 1#64, 1#64, 48#64, 21#64, 15#64] ⟨emptyHeap, emptyFrame.newContainer 0 2 1#64⟩ :=
      h0.next (by decide) rfl
    have h3 : boxed.ComesStraight [48#64, 21#64, 15#64] ⟨emptyHeap, emptyFrame⟩ 3
        [7#64, 8192#64, 1#64, 1#64, 48#64, 21#64, 15#64] ⟨emptyHeap, emptyFrame.newContainer 0 2 1#64⟩ :=
      h2.next (by decide) rfl
    exact ⟨_, (h3.next (by decide) rfl).1⟩
  fromTop := ⟨2, 1#64, 7#64, rfl, rfl, by decide⟩
  fromBottom := ⟨5, 8192#64, 4184#64, rfl, rfl, by decide⟩

theorem summed_strays :
    summed.Strays (fun _ => none) 3 (calmAt emptyHeap 0 [48#64, 21#64, 16#64]) (calmAt emptyHeap 3 [19#64])
      [18#64] where
  accepted := by
    unfold scanBranchTargets scanStart
    rw [argCount_summed]
    rfl
  translated := {
    accepts := by
      rintro ⟨args, hargs, hrefuses⟩
      rw [argCount_summed] at hargs
      obtain ⟨a, b, d, rfl⟩ := List.length_eq_three.1 hargs
      obtain ⟨one, sum, one', diff, hrefuses⟩ := hrefuses
      exact hrefuses
    fills := fun pc hpc => by cases hpc }
  laid := ⟨by decide, by decide⟩
  starts := ⟨rfl, argCount_summed.symm⟩
  run := rfl
  comes := by
    have h0 : summed.ComesStraight [48#64, 21#64, 16#64] ⟨emptyHeap, emptyFrame⟩ 0 _ _ :=
      .entry [48#64, 21#64, 16#64] ⟨emptyHeap, emptyFrame⟩ argCount_summed.symm
    have h1 : summed.ComesStraight [48#64, 21#64, 16#64] ⟨emptyHeap, emptyFrame⟩ 1 [16#64]
        ⟨emptyHeap, emptyFrame⟩ := h0.next (by decide) rfl
    have h2 : summed.ComesStraight [48#64, 21#64, 16#64] ⟨emptyHeap, emptyFrame⟩ 2 [3#64, 16#64]
        ⟨emptyHeap, emptyFrame⟩ := h1.next (by decide) rfl
    exact ⟨_, (h2.next (by decide) rfl).1⟩
  fromTop := ⟨0, 18#64, 19#64, rfl, rfl, by decide⟩
  fromBottom := ⟨0, 18#64, 19#64, rfl, rfl, by decide⟩

def comparedHeap : Heap where
  mem := fun a => if a = 40 then -1#64 else 0#64
  space := none
  threadObject := none

theorem compared_strays :
    compared.Strays (fun _ => none) 2
      (calmAt comparedHeap 0 [80#64, 21#64, 3#64, 1#64, 48#64, -1#64, 48#64])
      (calmAt comparedHeap 2 [1#64]) [3#64] where
  accepted := by
    unfold scanBranchTargets scanStart
    rw [argCount_compared]
    rfl
  translated := {
    accepts := by
      rintro ⟨args, hargs, hrefuses⟩
      rw [argCount_compared] at hargs
      match args, hargs with
      | [a, b, length, off2, p2, off1, p1], _ =>
        obtain ⟨length, off2, off1, result, hrefuses⟩ := hrefuses
        exact hrefuses
    fills := fun pc hpc => by cases hpc }
  laid := ⟨by decide, by decide⟩
  starts := ⟨rfl, argCount_compared.symm⟩
  run := rfl
  comes := by
    have h0 : compared.ComesStraight [80#64, 21#64, 3#64, 1#64, 48#64, -1#64, 48#64]
        ⟨comparedHeap, emptyFrame⟩ 0 _ _ :=
      .entry [80#64, 21#64, 3#64, 1#64, 48#64, -1#64, 48#64] ⟨comparedHeap, emptyFrame⟩
        argCount_compared.symm
    have h1 : compared.ComesStraight [80#64, 21#64, 3#64, 1#64, 48#64, -1#64, 48#64]
        ⟨comparedHeap, emptyFrame⟩ 1 [3#64, 1#64, 48#64, -1#64, 48#64] ⟨comparedHeap, emptyFrame⟩ :=
      h0.next (by decide) rfl
    exact ⟨_, (h1.next (by decide) rfl).1⟩
  fromTop := ⟨0, 3#64, 1#64, rfl, rfl, by decide⟩
  fromBottom := ⟨0, 3#64, 1#64, rfl, rfl, by decide⟩

def closedHeap : Heap where
  mem := fun _ => 0#64
  space := some ⟨16384, 4, 0, none⟩
  threadObject := none

/-- The closure is made. -/
def closedAfter : Heap :=
  (closedHeap.allocate 1 (fClosureObj ||| fMutableBit)).elim closedHeap
    (fun r => r.2.fillWords r.1 [r.2.read 15#64])

theorem closed_strays :
    closed.Strays (fun _ => none) 2 (calmAt closedHeap 0 [48#64, 21#64, 15#64])
      (calmAt closedAfter 3 [16392#64]) [1#64] where
  accepted := by
    unfold scanBranchTargets scanStart
    rw [argCount_closed]
    rfl
  translated := {
    accepts := by
      rintro ⟨args, hargs, hrefuses⟩
      rw [argCount_closed] at hargs
      obtain ⟨a, b, d, rfl⟩ := List.length_eq_three.1 hargs
      obtain ⟨n, closure, hrefuses⟩ := hrefuses
      exact hrefuses
    fills := fun pc hpc => by cases hpc }
  laid := ⟨by decide, by decide⟩
  starts := ⟨rfl, argCount_closed.symm⟩
  run := rfl
  comes := by
    have h0 : closed.ComesStraight [48#64, 21#64, 15#64] ⟨closedHeap, emptyFrame⟩ 0 _ _ :=
      .entry [48#64, 21#64, 15#64] ⟨closedHeap, emptyFrame⟩ argCount_closed.symm
    have h1 : closed.ComesStraight [48#64, 21#64, 15#64] ⟨closedHeap, emptyFrame⟩ 1 [15#64]
        ⟨closedHeap, emptyFrame⟩ := h0.next (by decide) rfl
    exact ⟨_, (h1.next (by decide) rfl).1⟩
  fromTop := ⟨0, 1#64, 16392#64, rfl, rfl, by decide⟩
  fromBottom := ⟨0, 1#64, 16392#64, rfl, rfl, by decide⟩

theorem not_follows :
    deeper.Strays deeperTargets 4 (calmAt emptyHeap 0 [48#64, 21#64, 15#64])
        (calmAt emptyHeap 5 [5#64, 3#64, 48#64, 21#64, 15#64]) [5#64, 48#64, 21#64, 15#64] ∧
      handled.Strays (fun _ => none) 1 (calmAt emptyHeap 0 [48#64, 21#64, 15#64])
        (calmAt emptyHeap 1 [9#64, 48#64, 21#64, 15#64]) [0#64, 48#64, 21#64, 15#64] ∧
      boxed.Strays (fun _ => none) 3 (calmAt emptyHeap 0 [48#64, 21#64, 15#64])
        (calmAt emptyHeap 5 [4184#64, 1#64, 7#64, 48#64, 21#64, 15#64])
        [8192#64, 1#64, 1#64, 48#64, 21#64, 15#64] ∧
      summed.Strays (fun _ => none) 3 (calmAt emptyHeap 0 [48#64, 21#64, 16#64])
        (calmAt emptyHeap 3 [19#64]) [18#64] ∧
      compared.Strays (fun _ => none) 2
        (calmAt comparedHeap 0 [80#64, 21#64, 3#64, 1#64, 48#64, -1#64, 48#64])
        (calmAt comparedHeap 2 [1#64]) [3#64] ∧
      closed.Strays (fun _ => none) 2 (calmAt closedHeap 0 [48#64, 21#64, 15#64])
        (calmAt closedAfter 3 [16392#64]) [1#64] :=
  ⟨deeper_strays, handled_strays, boxed_strays, summed_strays, compared_strays, closed_strays⟩

end CompileInput
