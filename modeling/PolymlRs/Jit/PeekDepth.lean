import PolymlRs.Jit.InstrLengths
import Mathlib.Order.Bounds.Basic
import Mathlib.Order.MinMax

set_option autoImplicit false

/-! # The peek depth

How deep a code reads into the stack that it is entered with. A worklist follows the control flow, with
the number of words pushed since the entry; an instruction that needs more words than that reads words of
the caller. What is counted is the deepest read of the instructions that the search comes to
(`inferRun_isGreatest`). -/

/-- A return at `pc`, with its operand when that is there. -/
def returnArm (bytes : List UInt8) (pc : Nat) : Option (Option Nat) :=
  match bytes[pc]? with
  | none => none
  | some op =>
    if op = instrReturn1 then some (some 1)
    else if op = instrReturn2 then some (some 2)
    else if op = instrReturn3 then some (some 3)
    else if op = instrReturnB then
      some (if pc + 1 < bytes.length then some (bytes.getD (pc + 1) 0).toNat else none)
    else if op = instrReturnW then
      some (if pc + 2 < bytes.length then some (readU16Le bytes (pc + 1)) else none)
    else none

/-! ## The search -/

/-- What `infer_arg_count` has found out, and where it has still to look. -/
structure Infer where
  minDepth : Int
  entryDepth : Nat → Option Int
  work : List (Nat × Int)

namespace Infer

def new (startPc : Nat) : Infer where
  minDepth := 0
  entryDepth := Function.update (fun _ => none) startPc (some 0)
  work := [(startPc, 0)]

def count (s : Infer) : Nat := (max (-s.minDepth) 0).toNat

/-- `infer_enqueue`. -/
def enqueue (s : Infer) (target : Nat) (depth : Int) : Infer :=
  if (s.entryDepth target).any (fun prev => decide (prev ≤ depth)) then s
  else { s with
    entryDepth := Function.update s.entryDepth target (some depth)
    work := (target, depth) :: s.work }

/-- A slot `d` below the top is read. -/
def peek (s : Infer) (depth : Int) (d : Nat) : Infer :=
  if depth < (d : Int) + 1 then { s with minDepth := min s.minDepth (depth - ((d : Int) + 1)) } else s

/-- The depth falls to `depth`. -/
def popTo (s : Infer) (depth : Int) : Infer := { s with minDepth := min s.minDepth depth }

/-- Go on with the block at `pc`. -/
def goOn (s : Infer) (pc : Nat) (depth : Int) : Infer := { s with work := (pc, depth) :: s.work }

end Infer

/-- What one instruction does to the search: no answer, the answer so far, or go on. -/
inductive InferStep
  | fail
  | stop
  | go (s : Infer)

/-- What an instruction pushes and pops, which slot it reads, and its immediate bytes. -/
inductive Effect
  | truncated
  | stop
  | shape (push pop : Nat) (peek : Option Nat) (imm : Nat)

/-- The effect of an instruction that does not transfer control. Its immediates start at `pc`. -/
def inferEffect (bytecode : List UInt8) (pc : Nat) (op : UInt8) : Effect :=
  let imm0 := (bytecode.getD pc 0).toNat
  let byte (e : Effect) : Effect := if pc ≥ bytecode.length then .truncated else e
  let bytes2 (e : Effect) : Effect := if pc + 1 ≥ bytecode.length then .truncated else e
  if instrConst0 ≤ op ∧ op ≤ instrConst4 ∨ op = instrConst10 then .shape 1 0 none 0
  else if op = instrConstIntB then .shape 1 0 none 1
  else if op = instrConstIntW then .shape 1 0 none 2
  else if instrLocal0 ≤ op ∧ op ≤ instrLocal11 then .shape 1 0 (some (op - instrLocal0).toNat) 0
  else if op = instrLocal12 then .shape 1 0 (some 12) 0
  else if op = instrLocal13 then .shape 1 0 (some 13) 0
  else if op = instrLocal14 then .shape 1 0 (some 14) 0
  else if op = instrLocal15 then .shape 1 0 (some 15) 0
  else if op ∈ [instrLocalB, instrIndirectLocalB0, instrIndirectLocalB1, instrIndirectClosureB0,
      instrIndirectClosureB1, instrIndirectClosureB2, instrIsTaggedLocalB] then
    byte (.shape 1 0 (some imm0) 1)
  else if op ∈ [instrIndirectLocalBb, instrIndirectClosureBb] then bytes2 (.shape 1 0 (some imm0) 2)
  else if op ∈ [instrIndirect0, instrIndirect1, instrIndirect2, instrIndirect3, instrIndirect4,
      instrIndirect5, instrAllocRef, instrCellLength, instrNotBoolean, instrIsTagged] then
    .shape 1 1 none 0
  else if op ∈ [instrIndirectB, instrIndirectContainerB] then .shape 1 1 none 1
  else if op ∈ [instrLoadUntagged, instrLoadMlByte, instrLoadMlWord, instrAllocByteMem] then
    .shape 1 2 none 0
  else if op ∈ [instrStoreMlWord, instrStoreMlByte, instrAllocWordMemory, instrStoreUntagged] then
    .shape 1 3 none 0
  else if op ∈ [instrBlockMoveWord, instrBlockMoveByte, instrBlockEqualByte, instrBlockCompareByte] then
    .shape 1 5 none 0
  else if op = instrStackContainerB then byte (.shape (imm0 + 1) 0 none 1)
  else if op = instrMoveToContainerB then .shape 0 1 (some 0) 1
  else if op ∈ [instrLock, instrClearMutable, instrCellFlags] then .shape 0 0 (some 0) 0
  else if op ∈ [instrGetThreadId, instrLdexc, instrPushHandler] then .shape 1 0 none 0
  else if op = instrAllocMutClosureB then .shape 0 0 (some 0) 1
  else if op = instrMoveToMutClosureB then .shape 0 1 (some 1) 1
  else if op = instrIndirect0Local0 then .shape 1 0 (some 0) 0
  else if op = instrNoOp then .shape 0 0 none 0
  else if op = instrReset1 then .shape 0 1 none 0
  else if op = instrReset2 then .shape 0 2 none 0
  else if op = instrResetB then byte (.shape 0 imm0 none 1)
  else if op = instrResetR1 then .shape 1 2 none 0
  else if op = instrResetR2 then .shape 1 3 none 0
  else if op = instrResetR3 then .shape 1 4 none 0
  else if op = instrResetRB then byte (.shape 1 (imm0 + 1) none 1)
  else if op ∈ [instrConstAddr8_0, instrConstAddr8_1] then .shape 1 0 none 1
  else if op = instrConstAddr8_8 then .shape 1 0 none 2
  else if op = instrConstAddr16_8 then .shape 1 0 none 3
  else if isCallConstAddr op then .stop
  else if isCallFastRts op then .shape 1 ((op - instrCallFastRts0).toNat + 1) none 0
  else if op = instrCallLocalB then byte (.shape 1 imm0 (some imm0) 1)
  else if op = instrTuple2 then .shape 1 2 none 0
  else if op = instrTuple3 then .shape 1 3 none 0
  else if op = instrTuple4 then .shape 1 4 none 0
  else if op = instrTupleB then byte (.shape 1 imm0 none 1)
  else if op ∈ [instrFixedAdd, instrFixedSub, instrFixedMult, instrFixedQuot, instrFixedRem, instrWordAdd,
      instrWordSub, instrWordMult, instrWordDiv, instrWordMod, instrWordAnd, instrWordOr, instrWordXor,
      instrWordShiftLeft, instrWordShiftRLog, instrEqualWord, instrLessSigned, instrLessUnsigned,
      instrLessEqSigned, instrLessEqUnsigned, instrGreaterSigned, instrGreaterUnsigned,
      instrGreaterEqSigned, instrGreaterEqUnsigned] then .shape 1 2 none 0
  else if op = instrSetStackValB then .shape 0 1 none 1
  else if op = instrSetHandler8 then .shape 1 0 none 1
  else if op = instrSetHandler16 then .shape 1 0 none 2
  else if op = instrDeleteHandler then .shape 0 1 none 0
  else if op = instrClosureB then byte (.shape 1 (imm0 + 1) none 1)
  else .stop

/-- A jump's offset, of one byte or two. -/
def jumpOff (bytecode : List UInt8) (pc : Nat) (wide : Bool) : Nat :=
  if wide then readU16Le bytecode (pc + 1) else (bytecode.getD (pc + 1) 0).toNat

/-- One instruction of the block at `pc`. What is left of the block comes first in the work. -/
def inferOp (bytecode : List UInt8) (pc : Nat) (depth : Int) (op : UInt8) (s : Infer) : InferStep :=
  let wide := op ∈ [instrJump16, instrJumpBack16, instrJump16False, instrJump16True]
  let imm := if wide then 2 else 1
  let off := jumpOff bytecode pc wide
  let next := pc + 1 + imm
  let slot := (bytecode.getD (pc + 1) 0).toNat
  if op ∈ [instrJump8, instrJump16] then
    if pc + imm ≥ bytecode.length then .fail else .go (s.enqueue (next + off) depth)
  else if op ∈ [instrJumpBack8, instrJumpBack16] then
    if pc + imm ≥ bytecode.length then .fail
    else if next < off + (1 + imm) then .fail
    else .go (s.enqueue (next - off - (1 + imm)) depth)
  else if op ∈ [instrJump8False, instrJump8True, instrJump16False, instrJump16True] then
    if pc + imm ≥ bytecode.length then .fail
    else .go (((s.popTo (depth - 1)).enqueue (next + off) (depth - 1)).goOn next (depth - 1))
  else if op = instrJumpTaggedLocal then
    if pc + 2 ≥ bytecode.length then .fail
    else .go (((s.peek depth slot).enqueue (pc + 3 + (bytecode.getD (pc + 2) 0).toNat) depth).goOn
      (pc + 3) depth)
  else if op ∈ [instrJumpNeqLocal, instrJumpNeqLocalInd] then
    if pc + 3 ≥ bytecode.length then .fail
    else .go (((s.peek depth slot).enqueue (pc + 4 + (bytecode.getD (pc + 3) 0).toNat) depth).goOn
      (pc + 4) depth)
  else if op = instrCase16 then
    if pc + 2 ≥ bytecode.length then .fail
    else
      let arg1 := readU16Le bytecode (pc + 1)
      let tableStart := pc + 3
      let s := (s.popTo (depth - 1)).enqueue (tableStart + arg1 * 2) (depth - 1)
      let entry (s : Infer) (i : Nat) : Option Infer :=
        let entryPos := tableStart + i * 2
        if entryPos + 1 ≥ bytecode.length then none
        else some (s.enqueue (tableStart + readU16Le bytecode entryPos) (depth - 1))
      match (List.range arg1).foldlM entry s with
      | none => .fail
      | some s => .go s
  else if (returnArm bytecode pc).isSome = true ∨
      op ∈ [instrRaiseEx, instrTailBB, instrCallClosure] then .go s
  else
    match inferEffect bytecode (pc + 1) op with
    | .truncated => .fail
    | .stop => .stop
    | .shape push pop peek imm =>
      let s := match peek with
        | none => s
        | some d => s.peek depth d
      let s := if pop = 0 then s else s.popTo (depth - pop)
      .go (s.goOn (pc + 1 + imm) (depth - pop + push))

/-- Blocks that end at the end of the code are dropped. Every other instruction costs one of the budget. -/
def inferRun (bytecode : List UInt8) : Nat → Infer → Option Nat
  | 0, s => some s.count
  | budget + 1, s =>
    match s.work.dropWhile (fun e => decide (bytecode.length ≤ e.1)) with
    | [] => some s.count
    | (pc, depth) :: work =>
      match inferOp bytecode pc depth (bytecode.getD pc 0) { s with work } with
      | .fail => none
      | .stop => some s.count
      | .go s => inferRun bytecode budget s

def inferArgCount (bytecode : List UInt8) (startPc : Nat) : Option Nat :=
  inferRun bytecode (max (bytecode.length * 8) 1024) (Infer.new startPc)

/-! ## The instructions it comes to -/

/-- How many of the topmost words of the stack the instruction at `pc` looks at or takes off. -/
def inferSlots (bytecode : List UInt8) (pc : Nat) (op : UInt8) : Nat :=
  let slot := (bytecode.getD (pc + 1) 0).toNat
  if op ∈ [instrJump8, instrJump16] then 0
  else if op ∈ [instrJumpBack8, instrJumpBack16] then 0
  else if op ∈ [instrJump8False, instrJump8True, instrJump16False, instrJump16True] then 1
  else if op = instrJumpTaggedLocal then slot + 1
  else if op ∈ [instrJumpNeqLocal, instrJumpNeqLocalInd] then slot + 1
  else if op = instrCase16 then 1
  else if (returnArm bytecode pc).isSome = true ∨
      op ∈ [instrRaiseEx, instrTailBB, instrCallClosure] then 0
  else match inferEffect bytecode (pc + 1) op with
    | .shape _ pop none _ => pop
    | .shape _ pop (some d) _ => max pop (d + 1)
    | _ => 0

/-- How many words of the caller are among `slots` words, with `depth` words pushed since the entry. -/
def wordsBelow (slots : Nat) (depth : Int) : Nat := if slots = 0 then 0 else (slots - depth).toNat

/-- An operand or the table of the instruction ends behind the code, or it jumps to before its start. -/
def InferCut (bytecode : List UInt8) (pc : Nat) (op : UInt8) : Prop :=
  let wide := op ∈ [instrJump16, instrJumpBack16, instrJump16False, instrJump16True]
  let imm := if wide then 2 else 1
  if op ∈ [instrJump8, instrJump16] then bytecode.length ≤ pc + imm
  else if op ∈ [instrJumpBack8, instrJumpBack16] then
    bytecode.length ≤ pc + imm ∨ pc < jumpOff bytecode pc wide
  else if op ∈ [instrJump8False, instrJump8True, instrJump16False, instrJump16True] then
    bytecode.length ≤ pc + imm
  else if op = instrJumpTaggedLocal then bytecode.length ≤ pc + 2
  else if op ∈ [instrJumpNeqLocal, instrJumpNeqLocalInd] then bytecode.length ≤ pc + 3
  else if op = instrCase16 then bytecode.length ≤ pc + 2 ∨
    ∃ i < readU16Le bytecode (pc + 1), bytecode.length ≤ pc + 3 + i * 2 + 1
  else if (returnArm bytecode pc).isSome = true ∨
      op ∈ [instrRaiseEx, instrTailBB, instrCallClosure] then False
  else inferEffect bytecode (pc + 1) op = .truncated

/-- A search with this budget comes to `pc`, with `depth` words pushed since the entry. -/
inductive InferVisits (bytecode : List UInt8) : Nat → Infer → Nat → Int → Prop
  | here {budget pc : Nat} {s : Infer} {depth : Int} {work : List (Nat × Int)}
      (hnext : s.work.dropWhile (fun e => decide (bytecode.length ≤ e.1)) = (pc, depth) :: work) :
      InferVisits bytecode (budget + 1) s pc depth
  | later {budget pc pc' : Nat} {s s' : Infer} {depth depth' : Int} {work : List (Nat × Int)}
      (hnext : s.work.dropWhile (fun e => decide (bytecode.length ≤ e.1)) = (pc, depth) :: work)
      (hgo : inferOp bytecode pc depth (bytecode.getD pc 0) { s with work } = .go s')
      (hlater : InferVisits bytecode budget s' pc' depth') : InferVisits bytecode (budget + 1) s pc' depth'

section Proofs

variable {bytecode : List UInt8} {pc budget n : Nat} {depth : Int} {op : UInt8} {s s' : Infer}

@[simp] theorem Infer.count_enqueue (s : Infer) (target : Nat) (depth : Int) :
    (s.enqueue target depth).count = s.count := by
  unfold Infer.enqueue
  split <;> rfl

@[simp] theorem Infer.count_goOn (s : Infer) (pc : Nat) (depth : Int) :
    (s.goOn pc depth).count = s.count := rfl

theorem Infer.count_popTo (s : Infer) (depth : Int) :
    (s.popTo depth).count = max s.count (-depth).toNat := by
  unfold Infer.count Infer.popTo
  dsimp only
  omega

theorem Infer.count_popOne (s : Infer) (depth : Int) :
    (s.popTo (depth - 1)).count = max s.count (wordsBelow 1 depth) := by
  rw [Infer.count_popTo, wordsBelow, if_neg Nat.one_ne_zero, Int.neg_sub]
  rfl

theorem Infer.count_peek (s : Infer) (depth : Int) (d : Nat) :
    (s.peek depth d).count = max s.count (wordsBelow (d + 1) depth) := by
  unfold Infer.peek wordsBelow
  rw [if_neg (Nat.succ_ne_zero d)]
  split
  · unfold Infer.count
    dsimp only
    omega
  · omega

/-- Taking words off reads them. -/
theorem Infer.count_pop (s : Infer) (depth : Int) (pop : Nat) :
    (if pop = 0 then s else s.popTo (depth - pop)).count = max s.count (wordsBelow pop depth) := by
  unfold wordsBelow
  split
  · exact (Nat.max_zero _).symm
  · rw [Infer.count_popTo, Int.neg_sub]

theorem wordsBelow_max (a b : Nat) (depth : Int) :
    wordsBelow (max a (b + 1)) depth = max (wordsBelow (b + 1) depth) (wordsBelow a depth) := by
  unfold wordsBelow
  by_cases ha : a = 0
  · simp [ha]
  · rw [if_neg (by omega), if_neg (by omega), if_neg ha]
    omega

/-- The table of a `CASE16` is read to its end, or the search fails. -/
theorem foldlM_enqueue {f : Nat → Nat} {bad : Nat → Prop} [DecidablePred bad] {depth : Int} {s : Infer}
    {l : List Nat} :
    match l.foldlM (fun s i => if bad i then none else some (s.enqueue (f i) depth)) s with
    | none => ∃ i ∈ l, bad i
    | some s' => s'.count = s.count ∧ ∀ i ∈ l, ¬bad i := by
  induction l generalizing s with
  | nil => exact ⟨rfl, fun _ h => nomatch h⟩
  | cons i l ih =>
    rw [List.foldlM_cons]
    by_cases hbad : bad i
    · rw [if_pos hbad]
      exact ⟨i, List.mem_cons_self, hbad⟩
    · rw [if_neg hbad, Option.bind_eq_bind, Option.bind_some]
      have ih := @ih (s.enqueue (f i) depth)
      split
      next hrest =>
        rw [hrest] at ih
        obtain ⟨j, hj, hbad'⟩ := ih
        exact ⟨j, List.mem_cons_of_mem i hj, hbad'⟩
      next s' hrest =>
        rw [hrest] at ih
        refine ⟨ih.1.trans (Infer.count_enqueue ..), fun j hj => ?_⟩
        rcases List.mem_cons.1 hj with rfl | hj
        · exact hbad
        · exact ih.2 j hj

/-- What an instruction that is `cut` or not, and has `below` words of the caller, does to a search that
    has counted `old` words. -/
def InferStep.Counts (cut : Prop) (old below : Nat) : InferStep → Prop
  | .fail => cut
  | .stop => ¬cut ∧ below = 0
  | .go s => ¬cut ∧ s.count = max old below

theorem counts_ite {cut cond : Prop} [Decidable cond] {old below : Nat} (hcut : cut ↔ cond)
    (hgo : s.count = max old below) : (if cond then InferStep.fail else .go s).Counts cut old below := by
  split
  · exact hcut.2 ‹_›
  · exact ⟨fun h => ‹¬cond› (hcut.1 h), hgo⟩

theorem inferOp_counts (bytecode : List UInt8) (pc : Nat) (depth : Int) (op : UInt8) (s : Infer) :
    (inferOp bytecode pc depth op s).Counts (InferCut bytecode pc op) s.count
      (wordsBelow (inferSlots bytecode pc op) depth) := by
  unfold inferOp InferCut inferSlots
  dsimp only
  by_cases hjump : op ∈ [instrJump8, instrJump16]
  · simp only [if_pos hjump]
    exact counts_ite Iff.rfl (by simp [wordsBelow])
  simp only [if_neg hjump]
  by_cases hback : op ∈ [instrJumpBack8, instrJumpBack16]
  · simp only [if_pos hback]
    rw [← ite_or]
    refine counts_ite (or_congr Iff.rfl ?_) (by simp [wordsBelow])
    omega
  simp only [if_neg hback]
  by_cases hcond : op ∈ [instrJump8False, instrJump8True, instrJump16False, instrJump16True]
  · simp only [if_pos hcond]
    refine counts_ite Iff.rfl ?_
    rw [Infer.count_goOn, Infer.count_enqueue, Infer.count_popOne]
  simp only [if_neg hcond]
  by_cases htagged : op = instrJumpTaggedLocal
  · simp only [if_pos htagged]
    refine counts_ite Iff.rfl ?_
    rw [Infer.count_goOn, Infer.count_enqueue, Infer.count_peek]
  simp only [if_neg htagged]
  by_cases hneq : op ∈ [instrJumpNeqLocal, instrJumpNeqLocalInd]
  · simp only [if_pos hneq]
    refine counts_ite Iff.rfl ?_
    rw [Infer.count_goOn, Infer.count_enqueue, Infer.count_peek]
  simp only [if_neg hneq]
  by_cases hcase : op = instrCase16
  · simp only [if_pos hcase]
    have hpop : ((s.popTo (depth - 1)).enqueue (pc + 3 + readU16Le bytecode (pc + 1) * 2)
        (depth - 1)).count = max s.count (wordsBelow 1 depth) := by
      rw [Infer.count_enqueue, Infer.count_popOne]
    by_cases hshort : bytecode.length ≤ pc + 2
    · rw [if_pos hshort]
      exact .inl hshort
    rw [if_neg hshort]
    have htable := @foldlM_enqueue
      (fun i => pc + 3 + readU16Le bytecode (pc + 3 + i * 2))
      (fun i => bytecode.length ≤ pc + 3 + i * 2 + 1) _ (depth - 1)
      ((s.popTo (depth - 1)).enqueue (pc + 3 + readU16Le bytecode (pc + 1) * 2) (depth - 1))
      (List.range (readU16Le bytecode (pc + 1)))
    split
    next hrun =>
      rw [hrun] at htable
      obtain ⟨i, hi, hbad⟩ := htable
      exact .inr ⟨i, List.mem_range.1 hi, hbad⟩
    next s' hrun =>
      rw [hrun] at htable
      refine ⟨?_, htable.1.trans hpop⟩
      rintro (h | ⟨i, hi, hbad⟩)
      · exact hshort h
      · exact htable.2 i (List.mem_range.2 hi) hbad
  simp only [if_neg hcase]
  by_cases hend : (returnArm bytecode pc).isSome = true ∨
      op ∈ [instrRaiseEx, instrTailBB, instrCallClosure]
  · simp only [if_pos hend]
    exact ⟨id, by simp [wordsBelow]⟩
  simp only [if_neg hend]
  cases heff : inferEffect bytecode (pc + 1) op with
  | truncated => exact rfl
  | stop => exact ⟨nofun, rfl⟩
  | shape push pop peek imm =>
    cases peek with
    | none => exact ⟨nofun, Infer.count_pop s depth pop⟩
    | some d =>
      refine ⟨nofun, ?_⟩
      dsimp only
      rw [Infer.count_goOn, Infer.count_pop, Infer.count_peek, Nat.max_assoc, wordsBelow_max]

theorem not_inferVisits (hdone : s.work.dropWhile (fun e => decide (bytecode.length ≤ e.1)) = []) {pc : Nat}
    {depth : Int} : ¬InferVisits bytecode budget s pc depth := by
  rintro (hnext | ⟨hnext, -, -⟩)
  · rw [hdone] at hnext
    cases hnext
  · rw [hdone] at hnext
    cases hnext

/-- A search comes to its next instruction, and from there to what the rest of it comes to. -/
theorem inferVisits_iff {work : List (Nat × Int)} {pc' : Nat} {depth' : Int}
    (hnext : s.work.dropWhile (fun e => decide (bytecode.length ≤ e.1)) = (pc, depth) :: work) :
    InferVisits bytecode (budget + 1) s pc' depth' ↔ pc' = pc ∧ depth' = depth ∨
      ∃ s', inferOp bytecode pc depth (bytecode.getD pc 0) { s with work } = .go s' ∧
        InferVisits bytecode budget s' pc' depth' := by
  constructor
  · rintro (hnext' | ⟨hnext', hgo, hlater⟩)
    · rw [hnext] at hnext'
      cases hnext'
      exact .inl ⟨rfl, rfl⟩
    · rw [hnext] at hnext'
      cases hnext'
      exact .inr ⟨_, hgo, hlater⟩
  · rintro (⟨rfl, rfl⟩ | ⟨s', hgo, hlater⟩)
    · exact .here hnext
    · exact .later hnext hgo hlater

/-- The words of the caller that the instructions have which a search comes to. -/
def inferBelow (bytecode : List UInt8) (budget : Nat) (s : Infer) : Set Nat :=
  {k | ∃ pc depth, InferVisits bytecode budget s pc depth ∧
    k = wordsBelow (inferSlots bytecode pc (bytecode.getD pc 0)) depth}

/-- A search counts the deepest read of the instructions it comes to. -/
theorem inferRun_isGreatest (h : inferRun bytecode budget s = some n) :
    IsGreatest (insert s.count (inferBelow bytecode budget s)) n := by
  induction budget generalizing s with
  | zero =>
    obtain rfl := Option.some.inj h
    refine ⟨.inl rfl, ?_⟩
    rintro k (rfl | ⟨pc, depth, hv, -⟩)
    · exact Nat.le_refl _
    · cases hv
  | succ budget ih =>
    rw [inferRun] at h
    split at h
    next hdone =>
      obtain rfl := Option.some.inj h
      refine ⟨.inl rfl, ?_⟩
      rintro k (rfl | ⟨pc, depth, hv, -⟩)
      · exact Nat.le_refl _
      · exact absurd hv (not_inferVisits hdone)
    next pc depth work hnext =>
      have hop := inferOp_counts bytecode pc depth (bytecode.getD pc 0) { s with work }
      split at h
      next => cases h
      next hstop =>
        rw [hstop] at hop
        obtain rfl := Option.some.inj h
        refine ⟨.inl rfl, ?_⟩
        rintro k (rfl | ⟨pc', depth', hv, rfl⟩)
        · exact Nat.le_refl _
        · rcases (inferVisits_iff hnext).1 hv with ⟨rfl, rfl⟩ | ⟨s', hgo, -⟩
          · rw [hop.2]
            exact Nat.zero_le _
          · rw [hstop] at hgo
            cases hgo
      next s' hgo =>
        rw [hgo] at hop
        obtain ⟨hmem, hup⟩ := ih h
        have hcount : s.count ≤ n ∧
            wordsBelow (inferSlots bytecode pc (bytecode.getD pc 0)) depth ≤ n := by
          have hle := hup (Set.mem_insert s'.count _)
          rw [hop.2] at hle
          exact max_le_iff.1 hle
        constructor
        · rcases hmem with rfl | ⟨pc', depth', hv, rfl⟩
          · rw [hop.2]
            rcases max_choice ({ s with work } : Infer).count
              (wordsBelow (inferSlots bytecode pc (bytecode.getD pc 0)) depth) with hmax | hmax
            · exact .inl hmax
            · exact .inr ⟨pc, depth, .here hnext, hmax⟩
          · exact .inr ⟨pc', depth', .later hnext hgo hv, rfl⟩
        · rintro k (rfl | ⟨pc', depth', hv, rfl⟩)
          · exact hcount.1
          · rcases (inferVisits_iff hnext).1 hv with ⟨rfl, rfl⟩ | ⟨s'', hgo', hv'⟩
            · exact hcount.2
            · rw [hgo] at hgo'
              cases hgo'
              exact hup (.inr ⟨pc', depth', hv', rfl⟩)

/-- A search fails at an instruction that is cut. -/
theorem inferRun_eq_none_iff : inferRun bytecode budget s = none ↔
    ∃ pc depth, InferVisits bytecode budget s pc depth ∧ InferCut bytecode pc (bytecode.getD pc 0) := by
  induction budget generalizing s with
  | zero =>
    refine ⟨fun h => (nomatch h), ?_⟩
    rintro ⟨pc, depth, hv, -⟩
    cases hv
  | succ budget ih =>
    rw [inferRun]
    split
    next hdone => exact ⟨fun h => (nomatch h), fun ⟨_, _, hv, _⟩ => absurd hv (not_inferVisits hdone)⟩
    next pc depth work hnext =>
      have hop := inferOp_counts bytecode pc depth (bytecode.getD pc 0) { s with work }
      split
      next hfail =>
        rw [hfail] at hop
        exact ⟨fun _ => ⟨pc, depth, .here hnext, hop⟩, fun _ => rfl⟩
      next hstop =>
        rw [hstop] at hop
        refine ⟨fun h => (nomatch h), ?_⟩
        rintro ⟨pc', depth', hv, hcut⟩
        rcases (inferVisits_iff hnext).1 hv with ⟨rfl, rfl⟩ | ⟨s', hgo, -⟩
        · exact absurd hcut hop.1
        · rw [hstop] at hgo
          cases hgo
      next s' hgo =>
        rw [hgo] at hop
        rw [ih]
        constructor
        · rintro ⟨pc', depth', hv, hcut⟩
          exact ⟨pc', depth', .later hnext hgo hv, hcut⟩
        · rintro ⟨pc', depth', hv, hcut⟩
          rcases (inferVisits_iff hnext).1 hv with ⟨rfl, rfl⟩ | ⟨s'', hgo', hv'⟩
          · exact absurd hcut hop.1
          · rw [hgo] at hgo'
            cases hgo'
            exact ⟨pc', depth', hv', hcut⟩

/-- `infer_arg_count` comes to an instruction that it cannot read to its end. -/
def SearchCut (bytecode : List UInt8) (startPc : Nat) : Prop :=
  ∃ pc depth, InferVisits bytecode (max (bytecode.length * 8) 1024) (Infer.new startPc) pc depth ∧
    InferCut bytecode pc (bytecode.getD pc 0)

/-- The instructions that `infer_arg_count` comes to read the caller's words down to the `n`th. -/
def ReadsDownTo (bytecode : List UInt8) (startPc n : Nat) : Prop :=
  IsGreatest (insert 0 (inferBelow bytecode (max (bytecode.length * 8) 1024) (Infer.new startPc))) n

/-- When `infer_arg_count` can only give `n`. -/
theorem inferArgCount_only_iff {startPc : Nat} :
    (∀ k, inferArgCount bytecode startPc = some k → k = n) ↔
      SearchCut bytecode startPc ∨ ReadsDownTo bytecode startPc n := by
  constructor
  · intro h
    cases hrun : inferArgCount bytecode startPc with
    | none => exact .inl (inferRun_eq_none_iff.1 hrun)
    | some k =>
      obtain rfl := h k hrun
      exact .inr (inferRun_isGreatest hrun)
  · rintro (hcut | hreads) k hk
    · rw [inferArgCount, inferRun_eq_none_iff.2 hcut] at hk
      cases hk
    · exact (inferRun_isGreatest hk).unique hreads

end Proofs
